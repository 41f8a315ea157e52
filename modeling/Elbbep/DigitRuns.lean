import Elbbep.BoundaryNeutrals

/-!
# Numerals stay readable

A run of numerals inside a right-to-left span is turned round before the span is
reversed, so that it reads from left to right again.  When a span is closed early,
by a neutral rune or a numeral in front of a visible left-to-right rune, its last run
is not turned, and the numeral that closes the span is torn from it.  This file
follows every rune from its place in the line to its place in the reordered line:
runs of numerals stay together, in their order, exactly when in such spans no two
numerals are neighbours behind the last strong rune, or behind the first right-to-left
rune where none is strong.
-/

namespace Elbbep

open ByteMemory Utf8Encoding BlockReversal MaximalRuns

namespace Directions

variable {α : Type*} (d : Directions α)

/-- Runes together with their places in the line. -/
def indexed : Directions (α × ℕ) where
  rtl c := d.rtl c.1
  neutral c := d.neutral c.1
  weak c := d.weak c.1
  control c := d.control c.1
  mirror c := (d.mirror c.1, c.2)
  weak_not_rtl c := d.weak_not_rtl c.1
  weak_not_neutral c := d.weak_not_neutral c.1
  mirror_mirror c := by rw [d.mirror_mirror]
  rtl_mirror c := d.rtl_mirror c.1
  neutral_mirror c := d.neutral_mirror c.1
  weak_mirror c := d.weak_mirror c.1
  mirror_of_rtl c rtl := by rw [d.mirror_of_rtl c.1 rtl]
  mirror_of_not_neutral c notNeutral := by rw [d.mirror_of_not_neutral c.1 notNeutral]

/-- The reordered line, with the place that each rune had in the line. -/
def reorderPlaced (line : List α) : List (α × ℕ) :=
  d.indexed.reorder line.zipIdx

/-- Each maximal run of weak runes is found in the reordered line, in one piece and in its
order. -/
def KeepsWeakRuns (line : List α) : Prop :=
  ∀ run, MaximalRun d.indexed.weak line.zipIdx run → run <:+: d.reorderPlaced line

/-- No two weak runes are neighbours. -/
def WeakApart (block : List α) : Prop :=
  block.IsChain fun a b => (d.weak a && d.weak b) = false

/-- In a region that is closed early, weak runes stand apart behind the last strong rune, or in the
whole region if none is strong. -/
def RegionReadable (visible : Bool) (region : List α) : Prop :=
  (visible && region.getLast?.any fun last => !d.rtl last) = true →
    ∀ block ∈ (region.splitOnP d.strong).getLast?, d.WeakApart block

/-- The lines whose weak runs are kept. -/
def WeakRunsReadable (line : List α) : Prop :=
  ∀ stretch ∈ (d.visibleAnchors (line.filter d.anchor)).zip (line.splitOnP d.anchor),
    d.RegionReadable stretch.1 (stretch.2.dropWhile fun c => !d.rtl c)

instance (block : List α) : Decidable (d.WeakApart block) :=
  inferInstanceAs (Decidable (block.IsChain fun a b => (d.weak a && d.weak b) = false))

instance (visible : Bool) (region : List α) : Decidable (d.RegionReadable visible region) :=
  inferInstanceAs (Decidable (_ → _))

instance (line : List α) : Decidable (d.WeakRunsReadable line) :=
  inferInstanceAs (Decidable (∀ stretch ∈ (d.visibleAnchors (line.filter d.anchor)).zip
    (line.splitOnP d.anchor), d.RegionReadable stretch.1 (stretch.2.dropWhile fun c => !d.rtl c)))

variable {d}

/-- The reordered line is the reordered line of runes with their places, without the places. -/
theorem map_reorderPlaced (line : List α) :
    (d.reorderPlaced line).map Prod.fst = d.reorder line := by
  have keeps (c : α × ℕ) : KeepsClasses d.indexed d Prod.fst c := ⟨rfl, rfl, rfl, rfl, rfl⟩
  rw [reorderPlaced, ← reorder_map fun c _ => keeps c]
  congr 1
  exact List.zipIdx_map_fst 0 line

/-! ## Neighbouring weak runes -/

section Neighbours

variable {a b : α}

theorem not_strong_of_weak {c : α} (weak : d.weak c = true) : d.strong c = false := by
  rw [strong, d.weak_not_rtl c weak, Bool.false_and]

theorem not_anchor_of_weak {c : α} (weak : d.weak c = true) : d.anchor c = false := by
  rw [Directions.anchor, weak, Bool.or_true, Bool.not_true]

theorem mirror_of_weak {c : α} (weak : d.weak c = true) : d.mirror c = c :=
  d.mirror_of_not_neutral c (d.weak_not_neutral c weak)

theorem weakApart_iff {block : List α} :
    d.WeakApart block ↔ ∀ a b, [a, b] <:+: block → d.weak a = true → d.weak b = true → False := by
  rw [WeakApart, List.isChain_iff_forall_rel_of_append_cons_cons]
  constructor
  · rintro apart a b ⟨before, behind, eq⟩ first second
    have both := @apart a b before behind (by simp [← eq])
    rw [first, second] at both
    cases both
  · intro apart a b before behind eq
    have pair : [a, b] <:+: block := ⟨before, behind, by simp [eq]⟩
    cases first : d.weak a <;> cases second : d.weak b <;> first | rfl | skip
    exact (apart a b pair first second).elim

/-- Neighbours that were turned round are put in order by the reversal. -/
theorem pair_infix_reverseRegion {turnLast : Bool} {region : List α}
    (first : d.weak a = true) (second : d.weak b = true)
    (turned : [b, a] <:+: turnBlocks d.strong d.weak turnLast region) :
    [a, b] <:+: d.reverseRegion turnLast region := by
  have mapped := (turned.map d.mirror).reverse
  rw [reverseRegion]
  simpa [mirror_of_weak first, mirror_of_weak second] using mapped

/-- A region as the blocks between its strong runes, with its last block set apart. -/
theorem exists_blocks (region : List α) : ∃ init last separators,
    Separated d.strong (init ++ [last]) separators ∧
      region = interleave (init ++ [last]) separators ∧
      (region.splitOnP d.strong).getLast? = some last := by
  obtain ⟨blocks, separators, separated, rfl⟩ := exists_interleave d.strong region
  rcases List.eq_nil_or_concat blocks with rfl | ⟨init, last, rfl⟩
  · cases separated
  · rw [List.concat_eq_append] at separated ⊢
    refine ⟨init, last, separators, separated, rfl, ?_⟩
    rw [splitOnP_interleave separated, List.getLast?_concat]

/-- A region that is reversed as a whole keeps all pairs of neighbouring weak runes. -/
theorem pair_infix_whole {region : List α} (neighbours : [a, b] <:+: region)
    (first : d.weak a = true) (second : d.weak b = true) :
    [a, b] <:+: d.reverseRegion true region := by
  obtain ⟨init, last, separators, separated, rfl, -⟩ := exists_blocks (d := d) region
  rw [pair_infix_interleave separated (not_strong_of_weak first) (not_strong_of_weak second)]
    at neighbours
  obtain ⟨block, member, pair⟩ := neighbours
  apply pair_infix_reverseRegion first second
  apply pair_infix_turnBlocks separated (not_strong_of_weak first) (not_strong_of_weak second) first
  rcases List.mem_append.mp member with inInit | isLast
  · exact Or.inl ⟨block, inInit, pair⟩
  · obtain rfl := List.mem_singleton.mp isLast
    exact Or.inr ⟨rfl, pair⟩

/-- A last block that is not empty ends with the last rune, which is not strong. -/
theorem last_block_eq {init : List (List α)} {last region : List α} {separators : List α} {x : α}
    (separated : Separated d.strong (init ++ [last]) separators)
    (eq : region ++ [x] = interleave (init ++ [last]) separators) (notRtl : d.rtl x = false) :
    ∃ rest, last = rest ++ [x] ∧ Separated d.strong (init ++ [rest]) separators ∧
      region = interleave (init ++ [rest]) separators := by
  have ends := getLast?_interleave separated
  rw [← eq, List.getLast?_concat] at ends
  rcases List.eq_nil_or_concat last with rfl | ⟨rest, y, rfl⟩
  · -- The last rune would be a separator.
    have strong : d.strong x = true := by
      have isSeparator : x ∈ separators := List.mem_of_getLast? (by simpa using ends.symm)
      rw [← filter_interleave separated] at isSeparator
      exact (List.mem_filter.mp isSeparator).2
    rw [Directions.strong, notRtl] at strong
    cases strong
  · rw [List.concat_eq_append] at separated eq ends ⊢
    obtain rfl : x = y := by simpa using ends
    obtain ⟨shorter, longer⟩ := interleave_concat_append separated
    refine ⟨rest, rfl, shorter, ?_⟩
    exact List.append_cancel_right (eq.trans longer)

/-- In a readable region, all pairs of neighbouring weak runes are kept. -/
theorem pair_infix_reorderRegion {visible : Bool} {region : List α}
    (readable : d.RegionReadable visible region) (neighbours : [a, b] <:+: region)
    (first : d.weak a = true) (second : d.weak b = true) :
    [a, b] <:+: d.reorderRegion visible region := by
  rcases List.eq_nil_or_concat region with rfl | ⟨init, x, rfl⟩
  · simp at neighbours
  rw [List.concat_eq_append] at readable neighbours ⊢
  cases early : visible && !d.rtl x with
  | false =>
      rw [reorderRegion_whole List.getLast?_concat early]
      exact pair_infix_whole neighbours first second
  | true =>
      obtain ⟨rfl, notRtl⟩ : visible = true ∧ d.rtl x = false := by simpa using early
      rw [reorderRegion_early early]
      apply List.infix_append_of_infix_left
      obtain ⟨blocks, last, separators, separated, eq, lastEq⟩ :=
        exists_blocks (d := d) (init ++ [x])
      have apart : d.WeakApart last := readable (by simp [notRtl]) last lastEq
      obtain ⟨rest, rfl, shorter, initEq⟩ := last_block_eq separated eq notRtl
      rw [eq, pair_infix_interleave separated (not_strong_of_weak first)
        (not_strong_of_weak second)] at neighbours
      obtain ⟨block, member, pair⟩ := neighbours
      rcases List.mem_append.mp member with inInit | isLast
      · rw [initEq]
        apply pair_infix_reverseRegion first second
        exact pair_infix_turnBlocks shorter (not_strong_of_weak first) (not_strong_of_weak second)
          first (Or.inl ⟨block, inInit, pair⟩)
      · obtain rfl := List.mem_singleton.mp isLast
        exact (weakApart_iff.mp apart a b pair first second).elim

/-- Neighbouring weak runes in the last block of a region that is closed early are turned
round or torn apart. -/
theorem pair_torn {region : List α} {c x : α} (rtl : d.rtl c = true) (notRtl : d.rtl x = false)
    (neighbours : ∀ block ∈ ((c :: region ++ [x]).splitOnP d.strong).getLast?, [a, b] <:+: block)
    (first : d.weak a = true) (second : d.weak b = true) :
    List.Sublist [b, a] (d.reorderRegion true (c :: region ++ [x])) ∨
      List.Sublist [a, c, b] (d.reorderRegion true (c :: region ++ [x])) := by
  obtain ⟨blocks, last, separators, separated, eq, lastEq⟩ :=
    exists_blocks (d := d) (c :: region ++ [x])
  have pair : [a, b] <:+: last := neighbours last lastEq
  obtain ⟨rest, rfl, shorter, initEq⟩ := last_block_eq separated eq notRtl
  rw [reorderRegion_early (by simp [notRtl])]
  rcases List.infix_append_iff_ne_nil.mp pair with inside | single | split
  · -- The last block is not turned, so the reversal turns the pair round.
    left
    have kept : [a, b] <:+: turnBlocks d.strong d.weak false (c :: region) := by
      rw [initEq]
      exact pair_infix_turnBlocks_last shorter (not_strong_of_weak first)
        (not_strong_of_weak second) inside
    have reversed : [b, a] <:+: d.reverseRegion false (c :: region) := by
      have mapped := (kept.map d.mirror).reverse
      rw [reverseRegion]
      simpa [mirror_of_weak first, mirror_of_weak second] using mapped
    exact (List.infix_append_of_infix_left reversed).sublist
  · have short := single.length_le
    simp at short
  · right
    obtain ⟨one, two, some', more, pairEq, endsWith, beginsWith⟩ := split
    obtain ⟨rfl, rfl⟩ : one = [a] ∧ two = [b] := by
      obtain ⟨y, one, rfl⟩ := List.exists_cons_of_ne_nil some'
      obtain ⟨z, two, rfl⟩ := List.exists_cons_of_ne_nil more
      cases one <;> simp_all
    obtain ⟨tail, xEq⟩ := beginsWith
    obtain ⟨rfl, -⟩ := List.cons.inj xEq
    -- The first rune of the region comes last, between the two.
    have differs : a ≠ c := by
      rintro rfl
      rw [d.weak_not_rtl a first] at rtl
      cases rtl
    have inRegion : a ∈ d.reverseRegion false (c :: region) := by
      have inBlocks : a ∈ c :: region := by
        rw [initEq]
        exact (infix_interleave shorter (by simp)).subset (endsWith.subset (by simp))
      rw [reverseRegion, List.mem_reverse, List.mem_map]
      exact ⟨a, (turnBlocks_perm _ _).mem_iff.mpr inBlocks, mirror_of_weak first⟩
    have endsRegion : (d.reverseRegion false (c :: region)).getLast? = some c :=
      getLast?_reverseRegion false rtl
    obtain ⟨front, frontEq⟩ := List.getLast?_eq_some_iff.mp endsRegion
    rw [frontEq] at inRegion ⊢
    have inFront : a ∈ front := by simpa [differs] using inRegion
    have before : List.Sublist ([a] ++ [c] ++ [b]) (front ++ [c] ++ [b]) :=
      ((List.singleton_sublist.mpr inFront).append (.refl _)).append (.refl _)
    exact before

/-- In a readable stretch, all pairs of neighbouring weak runes are kept. -/
theorem pair_infix_reorderStretch {visible : Bool} {stretch : List α}
    (readable : d.RegionReadable visible (stretch.dropWhile fun c => !d.rtl c))
    (neighbours : [a, b] <:+: stretch) (first : d.weak a = true) (second : d.weak b = true) :
    [a, b] <:+: d.reorderStretch visible stretch := by
  rcases marked_cases d.rtl stretch with leftToRight | ⟨front, c, back, rfl, before, rtl⟩
  · rwa [reorderStretch_of_left leftToRight]
  · have differs {e : α} (weak : d.weak e = true) : e ≠ c := by
      rintro rfl
      rw [d.weak_not_rtl e weak] at rtl
      cases rtl
    rw [dropWhile_unmarked before rtl] at readable
    rw [reorderStretch_append before rtl]
    rcases (pair_infix_append_cons (differs first) (differs second)).mp neighbours with
      inFront | inBack
    · exact List.infix_append_of_infix_left inFront
    · exact List.infix_append_of_infix_right
        (pair_infix_reorderRegion readable (List.infix_cons inBack) first second)

end Neighbours

/-! ## Whole lines -/

section Lines

variable {β : Type*} {f : α → β} {line : List α}

theorem zip_mem_zipWith {visible : Bool} {stretch : List α} {visibles : List Bool}
    {stretches : List (List α)} (member : (visible, stretch) ∈ visibles.zip stretches) :
    d.reorderStretch visible stretch ∈ List.zipWith d.reorderStretch visibles stretches := by
  rw [← List.map_uncurry_zip_eq_zipWith]
  exact List.mem_map_of_mem member

theorem exists_visible {stretches : List (List α)} {anchors : List α}
    (separated : Separated d.anchor stretches anchors) {stretch : List α}
    (member : stretch ∈ stretches) :
    ∃ visible, (visible, stretch) ∈ (d.visibleAnchors anchors).zip stretches := by
  induction separated with
  | single _ => exact ⟨false, by simpa [visibleAnchors] using member⟩
  | @cons block a stretches anchors _ _ _ ih =>
      rcases List.mem_cons.mp member with rfl | later
      · exact ⟨!d.control a, by simp [visibleAnchors]⟩
      · obtain ⟨visible, zipped⟩ := ih later
        exact ⟨visible, List.mem_cons_of_mem _ zipped⟩

/-- Neighbouring weak runes behind the last strong rune of a stretch that is closed early do
not stay neighbours. -/
theorem pair_torn_stretch {visible : Bool} {stretch block : List α} {a b : α}
    (early : (visible && (stretch.dropWhile fun c => !d.rtl c).getLast?.any
      fun last => !d.rtl last) = true)
    (lastBlock : block ∈ ((stretch.dropWhile fun c => !d.rtl c).splitOnP d.strong).getLast?)
    (pair : [a, b] <:+: block) (first : d.weak a = true) (second : d.weak b = true) :
    [a, b] <:+: stretch ∧ (List.Sublist [b, a] (d.reorderStretch visible stretch) ∨
      ∃ c, List.Sublist [a, c, b] (d.reorderStretch visible stretch)) := by
  rcases marked_cases d.rtl stretch with leftToRight | ⟨front, c, back, rfl, before, rtl⟩
  · have all : ∀ c ∈ stretch, (!d.rtl c) = true := by simpa using leftToRight
    simp [List.dropWhile_eq_nil_iff.mpr all] at early
  · rw [dropWhile_unmarked before rtl] at early lastBlock
    have inRegion : [a, b] <:+: c :: back :=
      pair.trans (by
        have inBlocks := infix_interleave (separated_splitOnP d.strong (c :: back))
          (List.mem_of_getLast? lastBlock)
        rwa [interleave_splitOnP] at inBlocks)
    refine ⟨List.infix_append_of_infix_right inRegion, ?_⟩
    rcases List.eq_nil_or_concat back with rfl | ⟨region, x, rfl⟩
    · simp [rtl] at early
    · rw [List.concat_eq_append, ← List.cons_append] at early lastBlock ⊢
      rw [List.getLast?_concat] at early
      obtain ⟨rfl, notRtl⟩ : visible = true ∧ d.rtl x = false := by simpa using early
      have only : ∀ other ∈ ((c :: region ++ [x]).splitOnP d.strong).getLast?,
          [a, b] <:+: other := by
        intro other also
        obtain rfl : block = other := Option.some.inj (Option.mem_def.mp lastBlock ▸ also)
        exact pair
      rw [List.cons_append, reorderStretch_append before rtl, ← List.cons_append]
      rcases pair_torn rtl notRtl only first second with turned | between
      · exact Or.inl (turned.trans (List.sublist_append_right front _))
      · exact Or.inr ⟨c, between.trans (List.sublist_append_right front _)⟩

/-- Neighbouring weak runes stay neighbours exactly in readable lines, if runes are told
apart by a value that brackets keep. -/
theorem pairs_kept_iff (mirrors : ∀ c, f (d.mirror c) = f c) (distinct : (line.map f).Nodup) :
    (∀ a b, [a, b] <:+: line → d.weak a = true → d.weak b = true → [a, b] <:+: d.reorder line) ↔
      d.WeakRunsReadable line := by
  have separated := separated_splitOnP d.anchor line
  have separated' := separated_reorderStretch separated
  constructor
  · rintro kept ⟨visible, stretch⟩ zipped early block lastBlock
    rw [weakApart_iff]
    intro a b pair first second
    obtain ⟨neighbours, torn⟩ := pair_torn_stretch early lastBlock pair first second
    have inLine : [a, b] <:+: line := by
      have inBlocks := infix_interleave separated (List.of_mem_zip zipped).2
      rw [interleave_splitOnP] at inBlocks
      exact neighbours.trans inBlocks
    have inOut : List.Sublist (d.reorderStretch visible stretch) (d.reorder line) := by
      rw [reorder_eq]
      exact (infix_interleave separated' (zip_mem_zipWith zipped)).sublist
    have distinctOut : (d.reorder line).Nodup :=
      .of_map f ((map_reorder_perm mirrors line).nodup_iff.mpr distinct)
    rcases torn with turned | ⟨c, between⟩
    · exact not_infix_of_turned distinctOut (turned.trans inOut) (kept a b inLine first second)
    · exact not_infix_of_between distinctOut (between.trans inOut) (kept a b inLine first second)
  · intro readable a b neighbours first second
    rw [← interleave_splitOnP d.anchor line, pair_infix_interleave separated
      (not_anchor_of_weak first) (not_anchor_of_weak second)] at neighbours
    obtain ⟨stretch, member, pair⟩ := neighbours
    rw [reorder_eq, pair_infix_interleave separated' (not_anchor_of_weak first)
      (not_anchor_of_weak second)]
    obtain ⟨visible, zipped⟩ := exists_visible separated member
    exact ⟨_, zip_mem_zipWith zipped,
      pair_infix_reorderStretch (readable _ zipped) pair first second⟩

/-- Weak runes with their places are found again. -/
theorem mem_reorder_of_weak {c : α} (member : c ∈ line) (weak : d.weak c = true) :
    c ∈ d.reorder line := by
  have pairs (e : α) : s(d.mirror e, d.mirror (d.mirror e)) = s(e, d.mirror e) := by
    rw [d.mirror_mirror, Sym2.eq_swap]
  have image : s(c, d.mirror c) ∈ (d.reorder line).map fun e => s(e, d.mirror e) := by
    rw [(map_reorder_perm pairs line).mem_iff]
    exact List.mem_map_of_mem member
  obtain ⟨e, inOut, eq⟩ := List.mem_map.mp image
  rw [mirror_of_weak weak, Sym2.eq_iff] at eq
  rcases eq with ⟨rfl, -⟩ | ⟨rfl, -⟩ <;> exact inOut

theorem regionReadable_indexed (visible : Bool) (region : List (α × ℕ)) :
    d.indexed.RegionReadable visible region ↔ d.RegionReadable visible (region.map Prod.fst) := by
  have strongEq (c : α × ℕ) : d.strong c.1 = d.indexed.strong c := rfl
  rw [RegionReadable, RegionReadable, splitOnP_map strongEq, List.getLast?_map, List.getLast?_map,
    Option.any_map]
  refine imp_congr Iff.rfl ?_
  simp only [Option.mem_map, forall_exists_index, and_imp, forall_apply_eq_imp_iff₂]
  refine forall₂_congr fun block _ => ?_
  rw [WeakApart, WeakApart, List.isChain_map]
  rfl

/-- Places play no role for what is readable. -/
theorem weakRunsReadable_zipIdx :
    d.indexed.WeakRunsReadable line.zipIdx ↔ d.WeakRunsReadable line := by
  have anchorEq (c : α × ℕ) : d.anchor c.1 = d.indexed.anchor c := rfl
  have visibleEq : d.visibleAnchors (line.filter d.anchor) =
      d.indexed.visibleAnchors (line.zipIdx.filter d.indexed.anchor) := by
    conv_lhs => rw [← List.zipIdx_map_fst 0 line]
    rw [List.filter_map, visibleAnchors, visibleAnchors, List.map_map]
    rfl
  have splitEq : line.splitOnP d.anchor =
      (line.zipIdx.splitOnP d.indexed.anchor).map (List.map Prod.fst) := by
    conv_lhs => rw [← List.zipIdx_map_fst 0 line]
    exact splitOnP_map anchorEq _
  rw [WeakRunsReadable, WeakRunsReadable, visibleEq, splitEq, List.zip_map_right]
  simp only [List.forall_mem_map]
  refine forall₂_congr fun stretch _ => ?_
  rw [regionReadable_indexed, Prod.map_fst, Prod.map_snd, List.dropWhile_map]
  rfl

/-- Runs of weak runes are kept exactly in readable lines. -/
theorem keepsWeakRuns_iff (line : List α) : d.KeepsWeakRuns line ↔ d.WeakRunsReadable line := by
  have mirrors (c : α × ℕ) : (d.indexed.mirror c).2 = c.2 := rfl
  have distinct : (line.zipIdx.map Prod.snd).Nodup := by
    rw [List.zipIdx_map_snd]
    exact List.nodup_range'
  have distinctOut : (d.reorderPlaced line).Nodup :=
    .of_map Prod.snd ((map_reorder_perm mirrors line.zipIdx).nodup_iff.mpr distinct)
  rw [KeepsWeakRuns, maximalRuns_infix_iff distinctOut
    fun c member weak => mem_reorder_of_weak (d := d.indexed) member weak, reorderPlaced,
    pairs_kept_iff mirrors distinct, weakRunsReadable_zipIdx]

end Lines

end Directions

/-! ## Lines of characters -/

/-- `rtl_apply` leaves each maximal run of numerals in one piece and in its order.  Runes are
followed by the places they had in the line: `placed` is what the pass makes of runes that
carry them, and the runes of `placed` are the line that is left in memory. -/
def KeepsNumbers (tables : ShaperTables) (scratch : tables.RecyclesScratch) (m : Memory)
    (lineStart : Int) (line : List Char) : Prop :=
  ∃ placed, placed = (tables.directions scratch).reorderPlaced line ∧
    ReordersTo tables m lineStart line (placed.map Prod.fst) ∧
    ∀ run, MaximalRun (fun c : Char × ℕ => isWeakLtr (runeValue c.1)) line.zipIdx run →
      run <:+: placed

/-- For generated tables and any line of the basic plane, `rtl_apply` keeps runs of numerals
exactly when `Directions.WeakRunsReadable` holds: in every stretch that contains a
right-to-left rune, does not end with one, and is followed by a visible left-to-right rune,
no two numerals are neighbours behind the last strong right-to-left rune or, if none is
strong, behind the first right-to-left rune. -/
theorem rtlApply_keepsNumbers_iff {unicodedataName : Char → Option String} {forms : FormsTable}
    {tables : ShaperTables} (run : generateTables unicodedataName forms.items = .ok tables)
    {m : Memory} {lineStart : Int} {line : List Char} (stands : LineAt m lineStart line)
    (nonempty : line ≠ []) (plane : ∀ c ∈ line, c ≠ '\x00' ∧ c.toNat < 0x10000) :
    KeepsNumbers tables (generateTables_recyclesScratch run) m lineStart line ↔
      (tables.directions (generateTables_recyclesScratch run)).WeakRunsReadable line := by
  have scratch := generateTables_recyclesScratch run
  have nonzero : ∀ c ∈ line, runeValue c ≠ 0 := by
    intro c member zero
    rw [runeValue_of_lt (plane c member).2] at zero
    exact (plane c member).1 (Char.toNat_inj.mp zero)
  have leaves : ReordersTo tables m lineStart line
      (((tables.directions scratch).reorderPlaced line).map Prod.fst) := by
    rw [reordersTo_iff scratch stands nonempty nonzero, Directions.map_reorderPlaced]
  rw [← Directions.keepsWeakRuns_iff]
  constructor
  · rintro ⟨placed, rfl, -, kept⟩
    exact kept
  · intro kept
    exact ⟨_, rfl, leaves, kept⟩

/-- Two dates in a right-to-left line, and a single digit on a boundary. -/
def datedLine : List Char :=
  ['א', ' ', '1', '2', '/', '3', '4', ' ', 'ב', '(', '5', '6', ')', 'ג', '7', ' ', 'c', '8', '9']

theorem rtlApply_keepsNumbers_datedLine :
    KeepsNumbers lamAlefTables (generateTables_recyclesScratch generateTables_lamAlefForms)
      (.ofBytes 0 (encode datedLine)) 0 datedLine :=
  (rtlApply_keepsNumbers_iff generateTables_lamAlefForms (lineAt_ofBytes 0 datedLine)
    (by decide) (by decide)).mpr (by decide)

/-- A number in front of a space and a left-to-right word is reversed. -/
theorem number_reversed :
    ReordersTo lamAlefTables (.ofBytes 0 (encode ['א', '1', '2', ' ', 'c'])) 0
        ['א', '1', '2', ' ', 'c'] ['2', '1', 'א', ' ', 'c'] ∧
      MaximalRun (fun c => isWeakLtr (runeValue c)) ['א', '1', '2', ' ', 'c'] ['1', '2'] ∧
      ¬ ['1', '2'] <:+: ['2', '1', 'א', ' ', 'c'] := by
  have notWeak : isWeakLtr (runeValue 'א') = false ∧ isWeakLtr (runeValue ' ') = false := by decide
  refine ⟨?_, ⟨['א'], [' ', 'c'], rfl, by decide, by decide, ?_, ?_⟩, by decide⟩
  · rw [reordersTo_iff (generateTables_recyclesScratch generateTables_lamAlefForms)
      (lineAt_ofBytes 0 ['א', '1', '2', ' ', 'c']) (by decide) (by decide)]
    decide
  · simpa using notWeak.1
  · simpa using notWeak.2

end Elbbep
