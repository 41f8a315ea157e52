import Elbbep.RtlStretches

/-!
# Reordering a line twice

Reordering twice does not restore every line, because the second pass finds its
regions and weak runs in the reordered text.  This file determines for which lines
it does: stretch by stretch, the region that was reversed has to be found again, and
the weak runs in it have to be found where they were turned.
-/

namespace Elbbep

open BlockReversal

namespace Directions

variable {α : Type*} (d : Directions α)

/-- A region, reversed as a whole, is found again: it ends with a right-to-left rune, no
weak run is open at its end, and each weak run begins right behind a strong rune. -/
def WholeRestored (region : List α) : Prop :=
  (∀ last ∈ region.getLast?, d.rtl last = true) ∧
    (∀ block ∈ (region.splitOnP d.strong).getLast?, block.any d.weak = false) ∧
    ∀ block ∈ region.splitOnP d.strong, LeadsMarked d.weak block

/-- A region, closed early by a boundary rune, is found again: it ends with a right-to-left
rune, and the weak runs in its blocks sit so that reversing one of them or none is the
same. -/
def EarlyRestored (region : List α) : Prop :=
  (∀ last ∈ region.getLast?, d.rtl last = true) ∧
    InitRestored d.weak (region.splitOnP d.strong)

def RegionRestored (visible : Bool) (region : List α) : Prop :=
  if visible && region.getLast?.any (fun last => !d.rtl last) then
    d.EarlyRestored region.dropLast
  else d.WholeRestored region

/-- The lines that reordering twice restores: in each stretch, the region from the first
right-to-left rune on has to be found again. -/
def Restored (line : List α) : Prop :=
  ∀ stretch ∈ (d.visibleAnchors (line.filter d.anchor)).zip (line.splitOnP d.anchor),
    d.RegionRestored stretch.1 (stretch.2.dropWhile fun c => !d.rtl c)

instance (region : List α) : Decidable (d.WholeRestored region) :=
  inferInstanceAs (Decidable (_ ∧ _ ∧ _))

instance [DecidableEq α] (region : List α) : Decidable (d.EarlyRestored region) :=
  inferInstanceAs (Decidable (_ ∧ _))

instance [DecidableEq α] (visible : Bool) (region : List α) :
    Decidable (d.RegionRestored visible region) :=
  inferInstanceAs (Decidable (if visible && region.getLast?.any (fun last => !d.rtl last) then
    d.EarlyRestored region.dropLast else d.WholeRestored region))

instance [DecidableEq α] (line : List α) : Decidable (d.Restored line) :=
  inferInstanceAs (Decidable (∀ stretch ∈ (d.visibleAnchors (line.filter d.anchor)).zip
    (line.splitOnP d.anchor), d.RegionRestored stretch.1 (stretch.2.dropWhile fun c => !d.rtl c)))

variable {d}

/-! ## Regions -/

theorem strong_mirror (c : α) : d.strong (d.mirror c) = d.strong c := by
  rw [strong, strong, d.rtl_mirror, d.neutral_mirror]

/-- Brackets play no role for what is found again. -/
theorem reverseRegion_twice_iff (turnLast : Bool) (region : List α) :
    d.reverseRegion turnLast (d.reverseRegion turnLast region) = region ↔
      turnBlocks d.strong d.weak turnLast
        (turnBlocks d.strong d.weak turnLast region).reverse = region.reverse := by
  have twice : d.mirror ∘ d.mirror = id := funext d.mirror_mirror
  have inner : ((turnBlocks d.strong d.weak turnLast region).map d.mirror).reverse =
      (turnBlocks d.strong d.weak turnLast region).reverse.map d.mirror := List.map_reverse.symm
  rw [reverseRegion, reverseRegion, inner, turnBlocks_map strong_mirror d.weak_mirror,
    List.map_map, twice, List.map_id, List.reverse_eq_iff]

theorem head?_reverseRegion_false (region : List α) :
    (d.reverseRegion false region).head? = region.getLast?.map d.mirror := by
  rw [reverseRegion, List.head?_reverse, List.getLast?_map, getLast?_turnBlocks_false]

theorem getLast?_reverseRegion (turnLast : Bool) {c : α} {rest : List α} (rtl : d.rtl c = true) :
    (d.reverseRegion turnLast (c :: rest)).getLast? = some c := by
  have unmarked : ∀ e ∈ (c :: rest).head?, d.weak e = false := by
    intro e member
    obtain rfl : c = e := by simpa using member
    cases weak : d.weak c with
    | false => rfl
    | true => rw [d.weak_not_rtl c weak] at rtl; cases rtl
  rw [reverseRegion, List.getLast?_reverse, List.head?_map, head?_turnBlocks turnLast unmarked,
    List.head?_cons, Option.map_some, d.mirror_of_rtl c rtl]

theorem reverseRegion_ne_nil {turnLast : Bool} {c : α} {rest : List α} (rtl : d.rtl c = true) :
    d.reverseRegion turnLast (c :: rest) ≠ [] := by
  intro empty
  have last : (d.reverseRegion turnLast (c :: rest)).getLast? = some c :=
    getLast?_reverseRegion turnLast rtl
  rw [empty] at last
  cases last

/-- A region reversed as a whole begins right-to-left when its end is settled. -/
theorem head_reverseRegion_true_iff (region : List α) :
    (∀ first ∈ (d.reverseRegion true region).head?, d.rtl first = true) ↔
      (∀ last ∈ region.getLast?, d.rtl last = true) ∧
        ∀ block ∈ (region.splitOnP d.strong).getLast?, block.any d.weak = false := by
  rw [reverseRegion, List.head?_reverse, List.getLast?_map]
  rcases getLast?_turnBlocks_true region with ⟨clear, same⟩ | ⟨open', c, last, weak⟩
  · rw [same, and_iff_left clear]
    simp [d.rtl_mirror]
  · rw [last]
    refine iff_of_false ?_ fun both => open' both.2
    simp [d.rtl_mirror, d.weak_not_rtl c weak]

theorem reorderRegion_early {visible : Bool} {init : List α} {last : α}
    (early : (visible && !d.rtl last) = true) :
    d.reorderRegion visible (init ++ [last]) = d.reverseRegion false init ++ [last] := by
  rw [reorderRegion, List.getLast?_concat]
  dsimp only
  rw [if_pos early, List.dropLast_concat]

theorem reorderRegion_whole {visible : Bool} {region : List α} {last : α}
    (ends : region.getLast? = some last) (whole : (visible && !d.rtl last) = false) :
    d.reorderRegion visible region = d.reverseRegion true region := by
  rw [reorderRegion, ends]
  dsimp only
  rw [if_neg (by simp [whole])]

/-- Reordering twice restores a region exactly when the second pass finds it again. -/
theorem reorderRegion_twice_iff (visible : Bool) {c : α} {rest : List α} (rtl : d.rtl c = true) :
    ((∀ first ∈ (d.reorderRegion visible (c :: rest)).head?, d.rtl first = true) ∧
        d.reorderRegion visible (d.reorderRegion visible (c :: rest)) = c :: rest) ↔
      d.RegionRestored visible (c :: rest) := by
  obtain ⟨init, last, split⟩ : ∃ init last, c :: rest = init ++ [last] :=
    ⟨_, _, (List.dropLast_append_getLast (by simp)).symm⟩
  have ends : (c :: rest).getLast? = some last := by rw [split, List.getLast?_concat]
  rw [RegionRestored, ends, Option.any_some]
  cases early : visible && !d.rtl last with
  | true =>
      have notRtl : d.rtl last = false := by simp at early; exact early.2
      obtain ⟨init, rfl⟩ : ∃ tail, init = c :: tail := by
        cases init with
        | nil =>
            obtain ⟨rfl, -⟩ := List.cons.inj split
            rw [rtl] at notRtl
            cases notRtl
        | cons first tail =>
            obtain ⟨rfl, -⟩ := List.cons.inj split
            exact ⟨tail, rfl⟩
      rw [split, reorderRegion_early early, reorderRegion_early early, if_pos rfl,
        List.dropLast_concat, List.append_left_inj, reverseRegion_twice_iff,
        turnBlocks_false_twice_iff, EarlyRestored]
      refine and_congr_left fun _ => ?_
      rw [List.head?_append_of_ne_nil _ (reverseRegion_ne_nil rtl), head?_reverseRegion_false]
      simp [d.rtl_mirror]
  | false =>
      have lastEq : (d.reverseRegion true (c :: rest)).getLast? = some c :=
        getLast?_reverseRegion true rtl
      have again : (visible && !d.rtl c) = false := by rw [rtl, Bool.not_true, Bool.and_false]
      rw [reorderRegion_whole ends early, reorderRegion_whole lastEq again,
        reverseRegion_twice_iff, turnBlocks_true_twice_iff, head_reverseRegion_true_iff,
        if_neg (by simp), WholeRestored, and_assoc]

/-! ## Lines -/

theorem regionRestored_nil (visible : Bool) : d.RegionRestored visible [] := by
  simp [RegionRestored, WholeRestored, LeadsMarked]

theorem reorderStretch_front {visible : Bool} {front rest : List α}
    (leftToRight : ∀ c ∈ front, d.rtl c = false) :
    d.reorderStretch visible (front ++ rest) = front ++ d.reorderStretch visible rest := by
  rw [reorderStretch, List.takeWhile_append_of_pos (by simpa using leftToRight),
    List.dropWhile_append_of_pos (by simpa using leftToRight), List.append_assoc]
  rfl

/-- The second pass starts its region at the first right-to-left rune that it sees. -/
theorem reorderStretch_twice_iff (visible : Bool) (stretch : List α) :
    d.reorderStretch visible (d.reorderStretch visible stretch) = stretch ↔
      d.RegionRestored visible (stretch.dropWhile fun c => !d.rtl c) := by
  rcases marked_cases d.rtl stretch with leftToRight | ⟨front, c, back, rfl, before, rtl⟩
  · have none : (stretch.dropWhile fun c => !d.rtl c) = [] :=
      List.dropWhile_eq_nil_iff.mpr (by simpa using leftToRight)
    rw [reorderStretch_of_left leftToRight, reorderStretch_of_left leftToRight, none]
    simp [regionRestored_nil]
  · rw [dropWhile_unmarked before rtl, reorderStretch_append before rtl,
      ← reorderRegion_twice_iff visible rtl]
    rw [reorderStretch_front before, List.append_right_inj]
    cases d.reorderRegion visible (c :: back) with
    | nil => simp [reorderStretch, reorderRegion]
    | cons first more =>
        cases firstRtl : d.rtl first with
        | true =>
            simp [reorderStretch, firstRtl]
        | false =>
            refine iff_of_false (fun restored => ?_) fun both => ?_
            · have passed : d.reorderStretch visible ([first] ++ more) = [first] ++ _ :=
                reorderStretch_front (by simpa using firstRtl)
              obtain ⟨rfl, -⟩ := List.cons.inj (passed.symm.trans restored)
              rw [rtl] at firstRtl
              cases firstRtl
            · have firstIs := both.1 first rfl
              rw [firstRtl] at firstIs
              cases firstIs

theorem zipWith_reorderStretch_twice_iff {stretches : List (List α)} {anchors : List α}
    (separated : Separated d.anchor stretches anchors) :
    List.zipWith d.reorderStretch (d.visibleAnchors anchors)
        (List.zipWith d.reorderStretch (d.visibleAnchors anchors) stretches) = stretches ↔
      ∀ stretch ∈ (d.visibleAnchors anchors).zip stretches,
        d.RegionRestored stretch.1 (stretch.2.dropWhile fun c => !d.rtl c) := by
  induction separated with
  | single _ => simp [visibleAnchors, reorderStretch_twice_iff]
  | cons _ _ _ ih =>
      simp only [visibleAnchors, List.map_cons, List.cons_append, List.zipWith_cons_cons,
        List.cons.injEq, reorderStretch_twice_iff, List.zip_cons_cons, List.forall_mem_cons]
      exact and_congr_right fun _ => ih

/-- The lines that reordering twice restores. -/
theorem reorder_reorder_iff (line : List α) :
    d.reorder (d.reorder line) = line ↔ d.Restored line := by
  have separated := separated_splitOnP d.anchor line
  have once := separated_reorderStretch separated
  rw [reorder_eq (d.reorder line), filter_reorder, splitOnP_reorder, Restored,
    ← zipWith_reorderStretch_twice_iff separated,
    ← interleave_inj (separated_reorderStretch once) separated, interleave_splitOnP]

/-! ## What a reordered line is made of -/

theorem map_interleave_perm {β : Type*} {f : α → β} (mirrors : ∀ c, f (d.mirror c) = f c)
    {stretches : List (List α)} {anchors : List α}
    (separated : Separated d.anchor stretches anchors) :
    ((interleave (List.zipWith d.reorderStretch (d.visibleAnchors anchors) stretches)
      anchors).map f).Perm ((interleave stretches anchors).map f) := by
  induction separated with
  | single _ => exact map_reorderStretch_perm mirrors _ _
  | @cons stretch a stretches anchors _ _ _ ih =>
      change ((d.reorderStretch (!d.control a) stretch ++ a :: interleave (List.zipWith
        d.reorderStretch (d.visibleAnchors anchors) stretches) anchors).map f).Perm _
      rw [interleave, List.map_append, List.map_append, List.map_cons, List.map_cons]
      exact (map_reorderStretch_perm mirrors _ _).append (ih.cons _)

theorem map_reorder_perm {β : Type*} {f : α → β} (mirrors : ∀ c, f (d.mirror c) = f c)
    (line : List α) : ((d.reorder line).map f).Perm (line.map f) := by
  have perms := map_interleave_perm mirrors (separated_splitOnP d.anchor line)
  rwa [← reorder_eq, interleave_splitOnP] at perms

/-- A property that brackets share with their partners is kept. -/
theorem forall_mem_reorder {f : α → Bool} (mirrors : ∀ c, f (d.mirror c) = f c) {line : List α}
    (holds : ∀ c ∈ line, f c = true) : ∀ c ∈ d.reorder line, f c = true := by
  intro c member
  have image : f c ∈ (d.reorder line).map f := List.mem_map_of_mem member
  rw [(map_reorder_perm mirrors line).mem_iff] at image
  obtain ⟨e, inLine, eq⟩ := List.mem_map.mp image
  rw [← eq, holds e inLine]

theorem getLast_reorderStretch {stretch : List α} {c : α}
    (ends : (d.reorderStretch false stretch).getLast? = some c) :
    stretch.getLast? = some c ∨ d.rtl c = true := by
  rcases marked_cases d.rtl stretch with leftToRight | ⟨front, e, back, rfl, before, rtl⟩
  · rw [reorderStretch_of_left leftToRight] at ends
    exact Or.inl ends
  · have region : d.reorderRegion false (e :: back) = d.reverseRegion true (e :: back) := by
      simp [reorderRegion, List.getLast?_cons]
    rw [reorderStretch_append before rtl, region, List.getLast?_append,
      getLast?_reverseRegion true rtl, Option.some_or] at ends
    obtain rfl := Option.some.inj ends
    exact Or.inr rtl

theorem getLast_interleave {stretches : List (List α)} {anchors : List α}
    (separated : Separated d.anchor stretches anchors) {c : α}
    (ends : (interleave (List.zipWith d.reorderStretch (d.visibleAnchors anchors) stretches)
      anchors).getLast? = some c) :
    (interleave stretches anchors).getLast? = some c ∨ d.rtl c = true := by
  induction separated with
  | single _ => exact getLast_reorderStretch ends
  | @cons stretch a stretches anchors _ _ rest ih =>
      change (d.reorderStretch (!d.control a) stretch ++ a :: interleave (List.zipWith
        d.reorderStretch (d.visibleAnchors anchors) stretches) anchors).getLast? = some c at ends
      have units : ((interleave (List.zipWith d.reorderStretch (d.visibleAnchors anchors)
          stretches) anchors).map fun _ => ()).Perm _ := map_interleave_perm (fun _ => rfl) rest
      have sameLength := units.length_eq
      rw [List.length_map, List.length_map] at sameLength
      rw [interleave]
      rw [List.getLast?_append, List.getLast?_cons, Option.some_or] at ends ⊢
      cases tail : (interleave (List.zipWith d.reorderStretch (d.visibleAnchors anchors)
          stretches) anchors).getLast? with
      | none =>
          rw [List.getLast?_eq_none_iff.mp tail, List.length_nil] at sameLength
          rw [List.eq_nil_of_length_eq_zero sameLength.symm]
          rw [tail] at ends
          exact Or.inl ends
      | some x =>
          rw [tail, Option.getD_some] at ends
          rcases ih (tail.trans ends) with same | rtl
          · rw [same]
            exact Or.inl rfl
          · exact Or.inr rtl

/-- A line is reordered to one that ends with the same rune or right-to-left. -/
theorem getLast_reorder {line : List α} {c : α} (ends : (d.reorder line).getLast? = some c) :
    line.getLast? = some c ∨ d.rtl c = true := by
  rw [reorder_eq] at ends
  have result := getLast_interleave (separated_splitOnP d.anchor line) ends
  rwa [interleave_splitOnP] at result

end Directions

end Elbbep
