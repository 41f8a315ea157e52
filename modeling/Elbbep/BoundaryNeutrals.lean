import Elbbep.RtlInvolution

/-!
# Neutral runes between directions

Between a right-to-left segment and a left-to-right rune, neutral runes belong to
neither and should stay.  The pass decides with one rune of lookahead, so it leaves
only the last of them in place and reverses the others with the segment.  On lines
without numerals and invisible runes that end with a strong rune, it does what it
should exactly when no two neutral runes stand there in a row.
-/

namespace Elbbep

open ByteMemory Utf8Encoding BlockReversal

namespace Directions

variable {α : Type*} (d : Directions α)

/-- A segment read from the right, with its brackets exchanged. -/
def mirrorSegment (segment : List α) : List α :=
  (segment.map d.mirror).reverse

/-- What should become of a stretch: the segment from its first to its last right-to-left
rune is reversed, and the neutral runes on both sides of it stay. -/
def referenceStretch (stretch : List α) : List α :=
  (stretch.takeWhile fun c => !d.rtl c) ++
    (d.mirrorSegment ((stretch.dropWhile fun c => !d.rtl c).rdropWhile fun c => !d.rtl c) ++
      (stretch.dropWhile fun c => !d.rtl c).rtakeWhile fun c => !d.rtl c)

/-- What should become of a line without weak runes: left-to-right runes stay. -/
def referenceReorder (line : List α) : List α :=
  interleave ((line.splitOnP d.anchor).map d.referenceStretch) (line.filter d.anchor)

/-- Of the runes behind the last right-to-left rune of a stretch, there is one at most. -/
def SingleBoundary (stretch : List α) : Prop :=
  ((stretch.dropWhile fun c => !d.rtl c).rtakeWhile fun c => !d.rtl c).length ≤ 1

/-- No two runes in a row stand between a right-to-left rune and the next left-to-right
rune. -/
def SingleBoundaries (line : List α) : Prop :=
  ∀ stretch ∈ (line.splitOnP d.anchor).dropLast, d.SingleBoundary stretch

instance (stretch : List α) : Decidable (d.SingleBoundary stretch) :=
  inferInstanceAs (Decidable (_ ≤ 1))

instance (line : List α) : Decidable (d.SingleBoundaries line) :=
  inferInstanceAs
    (Decidable (∀ stretch ∈ (line.splitOnP d.anchor).dropLast, d.SingleBoundary stretch))

variable {d}

/-- Without weak runes there is nothing to turn. -/
theorem reverseRegion_of_not_weak {region : List α} (notWeak : ∀ c ∈ region, d.weak c = false)
    (turnLast : Bool) : d.reverseRegion turnLast region = d.mirrorSegment region := by
  rw [reverseRegion, turnBlocks_of_unmarked notWeak, mirrorSegment]

theorem referenceStretch_of_left {stretch : List α} (leftToRight : ∀ c ∈ stretch, d.rtl c = false) :
    d.referenceStretch stretch = stretch := by
  have all : ∀ c ∈ stretch, (!d.rtl c) = true := by simpa using leftToRight
  simp [referenceStretch, List.takeWhile_eq_self_iff.mpr all, List.dropWhile_eq_nil_iff.mpr all,
    mirrorSegment]

theorem referenceStretch_append {front back : List α} {c : α}
    (leftToRight : ∀ e ∈ front, d.rtl e = false) (rtl : d.rtl c = true) :
    d.referenceStretch (front ++ c :: back) =
      front ++ (d.mirrorSegment ((c :: back).rdropWhile fun e => !d.rtl e) ++
        (c :: back).rtakeWhile fun e => !d.rtl e) := by
  rw [referenceStretch, dropWhile_unmarked leftToRight rtl,
    List.takeWhile_append_of_pos (by simpa using leftToRight),
    List.takeWhile_cons_of_neg (by simp [rtl]), List.append_nil]

/-- A region that ends with a right-to-left rune is the segment. -/
theorem reorderRegion_segment {visible : Bool} {region : List α}
    (notWeak : ∀ c ∈ region, d.weak c = false)
    (ends : ∀ last ∈ region.getLast?, d.rtl last = true) :
    d.reorderRegion visible region = d.mirrorSegment (region.rdropWhile fun c => !d.rtl c) ++
      region.rtakeWhile fun c => !d.rtl c := by
  rcases List.eq_nil_or_concat region with rfl | ⟨init, last, rfl⟩
  · rfl
  · rw [List.concat_eq_append] at notWeak ends ⊢
    have rtl : d.rtl last = true := ends last (by simp)
    rw [reorderRegion_whole List.getLast?_concat (by simp [rtl]), reverseRegion_of_not_weak notWeak,
      List.rdropWhile_concat_neg _ _ _ (by simp [rtl]),
      List.rtakeWhile_concat_neg _ _ _ (by simp [rtl]), List.append_nil]

/-- In front of a visible anchor, only the last of the neutral runes stays. -/
theorem reorderRegion_boundary_iff {segment tail : List α} {last : α}
    (notWeak : ∀ c ∈ segment ++ tail, d.weak c = false)
    (ends : ∃ r, segment.getLast? = some r ∧ d.rtl r = true)
    (leftToRight : ∀ c ∈ tail, d.rtl c = false) (notRtl : d.rtl last = false) :
    d.reorderRegion true (segment ++ tail ++ [last]) = d.mirrorSegment segment ++ (tail ++ [last]) ↔
      tail = [] := by
  rw [reorderRegion_early (by simp [notRtl]), reverseRegion_of_not_weak notWeak,
    ← List.append_assoc, List.append_left_inj]
  constructor
  · intro eq
    obtain ⟨r, segmentEnds, rtl⟩ := ends
    rcases List.eq_nil_or_concat tail with rfl | ⟨init, e, rfl⟩
    · rfl
    · -- A rune of the tail comes first, where the segment should begin.
      have heads := congrArg List.head? eq
      simp only [mirrorSegment, List.concat_eq_append, List.map_append, List.reverse_append,
        List.head?_append, List.head?_reverse, List.getLast?_map, segmentEnds] at heads
      have same : d.mirror e = d.mirror r := by simpa using heads
      have class' := congrArg d.rtl same
      rw [d.rtl_mirror, d.rtl_mirror, rtl, leftToRight e (by simp)] at class'
      cases class'
  · rintro rfl
    simp

theorem reorderStretch_reference_iff {stretch : List α}
    (notWeak : ∀ c ∈ stretch, d.weak c = false) :
    d.reorderStretch true stretch = d.referenceStretch stretch ↔ d.SingleBoundary stretch := by
  rcases marked_cases d.rtl stretch with leftToRight | ⟨front, c, back, rfl, before, rtl⟩
  · have all : ∀ c ∈ stretch, (!d.rtl c) = true := by simpa using leftToRight
    rw [reorderStretch_of_left leftToRight, referenceStretch_of_left leftToRight, SingleBoundary,
      List.dropWhile_eq_nil_iff.mpr all]
    simp
  · rw [reorderStretch_append before rtl, referenceStretch_append before rtl, List.append_right_inj,
      SingleBoundary, dropWhile_unmarked before rtl]
    have notWeakRegion : ∀ e ∈ c :: back, d.weak e = false := fun e member =>
      notWeak e (List.mem_append_right front member)
    have parts : (c :: back).rdropWhile (fun e => !d.rtl e) ++
        (c :: back).rtakeWhile (fun e => !d.rtl e) = c :: back :=
      List.rdropWhile_append_rtakeWhile
    have some' : (c :: back).rdropWhile (fun e => !d.rtl e) ≠ [] := by
      rw [Ne, List.rdropWhile_eq_nil_iff]
      intro all
      simpa [rtl] using all c (by simp)
    have ends : ∃ r, ((c :: back).rdropWhile fun e => !d.rtl e).getLast? = some r ∧
        d.rtl r = true :=
      ⟨_, List.getLast?_eq_some_getLast some', by simpa using List.rdropWhile_last_not _ _ some'⟩
    have leftToRight : ∀ e ∈ (c :: back).rtakeWhile fun e => !d.rtl e, d.rtl e = false :=
      fun e member => by simpa using List.mem_rtakeWhile_imp member
    generalize (c :: back).rdropWhile (fun e => !d.rtl e) = segment at parts ends
    generalize (c :: back).rtakeWhile (fun e => !d.rtl e) = tail at parts leftToRight
    rw [← parts] at notWeakRegion ⊢
    rcases List.eq_nil_or_concat tail with rfl | ⟨init, last, rfl⟩
    · obtain ⟨r, segmentEnds, rtlEnd⟩ := ends
      rw [List.append_nil] at notWeakRegion ⊢
      rw [reorderRegion_whole segmentEnds (by simp [rtlEnd]),
        reverseRegion_of_not_weak notWeakRegion]
      simp
    · rw [List.concat_eq_append] at leftToRight notWeakRegion ⊢
      rw [← List.append_assoc, reorderRegion_boundary_iff
        (fun e member => notWeakRegion e (by simp at member ⊢; tauto)) ends
        (fun e member => leftToRight e (by simp [member])) (leftToRight last (by simp))]
      simp

/-- The last stretch of a line that ends with a strong rune. -/
theorem reorderStretch_reference_last {stretch : List α} (notWeak : ∀ c ∈ stretch, d.weak c = false)
    (ends : ∀ last ∈ stretch.getLast?, d.rtl last = true) :
    d.reorderStretch false stretch = d.referenceStretch stretch := by
  rcases marked_cases d.rtl stretch with leftToRight | ⟨front, c, back, rfl, before, rtl⟩
  · rw [reorderStretch_of_left leftToRight, referenceStretch_of_left leftToRight]
  · rw [reorderStretch_append before rtl, referenceStretch_append before rtl,
      reorderRegion_segment (fun e member => notWeak e (List.mem_append_right front member))]
    intro last member
    apply ends
    rw [List.getLast?_append, Option.mem_def.mp member]
    rfl

/-- The reference permutes the runes of a stretch, up to brackets. -/
theorem map_referenceStretch_perm {β : Type*} {f : α → β} (mirrors : ∀ c, f (d.mirror c) = f c)
    (stretch : List α) : ((d.referenceStretch stretch).map f).Perm (stretch.map f) := by
  have same : f ∘ d.mirror = f := funext mirrors
  have parts : (stretch.takeWhile fun c => !d.rtl c) ++
      ((stretch.dropWhile fun c => !d.rtl c).rdropWhile (fun c => !d.rtl c) ++
        (stretch.dropWhile fun c => !d.rtl c).rtakeWhile fun c => !d.rtl c) = stretch := by
    rw [List.rdropWhile_append_rtakeWhile, List.takeWhile_append_dropWhile]
  conv_rhs => rw [← parts]
  rw [referenceStretch, mirrorSegment, List.map_append, List.map_append, List.map_reverse,
    List.map_map, same, List.map_append, List.map_append]
  exact ((List.reverse_perm _).append_right _).append_left _

theorem separated_referenceStretch {stretches : List (List α)} {anchors : List α}
    (separated : Separated d.anchor stretches anchors) :
    Separated d.anchor (stretches.map d.referenceStretch) anchors := by
  have stays {stretch : List α} (inside : ∀ c ∈ stretch, d.anchor c = false) :
      ∀ c ∈ d.referenceStretch stretch, d.anchor c = false := by
    intro c member
    have class' : d.anchor c ∈ (d.referenceStretch stretch).map d.anchor :=
      List.mem_map_of_mem member
    rw [(map_referenceStretch_perm anchor_mirror stretch).mem_iff] at class'
    obtain ⟨e, inStretch, eq⟩ := List.mem_map.mp class'
    rw [← eq, inside e inStretch]
  induction separated with
  | single inside => exact .single (stays inside)
  | cons inside anchor _ ih => exact .cons (stays inside) anchor ih

/-- Stretches in front of visible anchors, and a last one that ends with a strong rune. -/
theorem zipWith_reference_iff {stretches : List (List α)} {anchors : List α}
    (separated : Separated d.anchor stretches anchors)
    (notWeak : ∀ c ∈ interleave stretches anchors, d.weak c = false)
    (visible : ∀ a ∈ anchors, d.control a = false)
    (ends : ∀ stretch ∈ stretches.getLast?, ∀ last ∈ stretch.getLast?, d.rtl last = true) :
    List.zipWith d.reorderStretch (d.visibleAnchors anchors) stretches =
        stretches.map d.referenceStretch ↔
      ∀ stretch ∈ stretches.dropLast, d.SingleBoundary stretch := by
  induction separated with
  | @single stretch inside =>
      have same : d.reorderStretch false stretch = d.referenceStretch stretch :=
        reorderStretch_reference_last notWeak (ends stretch rfl)
      simp [visibleAnchors, same]
  | @cons stretch a stretches anchors inside anchor rest ih =>
      have shown : d.control a = false := visible a (by simp)
      have notWeakHere : ∀ c ∈ stretch, d.weak c = false :=
        fun c member => notWeak c (by simp [interleave, member])
      have here := reorderStretch_reference_iff notWeakHere
      have later := ih (fun c member => notWeak c (by simp [interleave, member]))
        (fun e member => visible e (by simp [member])) (by cases rest <;> simpa using ends)
      have step : List.zipWith d.reorderStretch (d.visibleAnchors (a :: anchors))
          (stretch :: stretches) = d.reorderStretch true stretch ::
            List.zipWith d.reorderStretch (d.visibleAnchors anchors) stretches := by
        simp [visibleAnchors, shown]
      have more : stretches ≠ [] := by cases rest <;> simp
      rw [step, List.map_cons, List.cons.injEq, here, later, List.dropLast_cons_of_ne_nil more]
      simp

/-- On lines without weak and invisible runes that end with a strong rune, the pass is the
reference exactly when boundaries are single. -/
theorem reorder_eq_reference_iff {line : List α} (notWeak : ∀ c ∈ line, d.weak c = false)
    (visible : ∀ c ∈ line, d.control c = false)
    (ends : ∀ last ∈ line.getLast?, d.rtl last = true ∨ d.anchor last = true) :
    d.reorder line = d.referenceReorder line ↔ d.SingleBoundaries line := by
  have separated := separated_splitOnP d.anchor line
  have lineEq := interleave_splitOnP d.anchor line
  rw [reorder_eq, referenceReorder,
    interleave_inj (separated_reorderStretch separated) (separated_referenceStretch separated)]
  apply zipWith_reference_iff separated
  · rwa [lineEq]
  · exact fun a member => visible a (List.mem_of_mem_filter member)
  · intro stretch lastStretch last member
    obtain ⟨init, initEq⟩ := List.getLast?_eq_some_iff.mp lastStretch
    have insideLast : d.anchor last = false :=
      separated.clear (List.mem_of_getLast? lastStretch) last (List.mem_of_getLast? member)
    rw [initEq] at separated lineEq
    have lineEnds := getLast?_interleave separated
    rw [lineEq, Option.mem_def.mp member] at lineEnds
    rcases ends last lineEnds with rtl | anchor
    · exact rtl
    · rw [insideLast] at anchor
      cases anchor

end Directions

/-! ## Lines of characters -/

/-- For generated tables and a line of the basic plane without numerals and control
characters that ends with a strong rune, `rtl_apply` reverses the right-to-left segments and
leaves all neutral runes between them and left-to-right runes in place exactly when no two
neutral runes stand there in a row. -/
theorem rtlApply_reference_iff {unicodedataName : Char → Option String} {forms : FormsTable}
    {tables : ShaperTables} (run : generateTables unicodedataName forms.items = .ok tables)
    {m : Memory} {lineStart : Int} {line : List Char} (stands : LineAt m lineStart line)
    (plane : ∀ c ∈ line, c.toNat < 0x10000) (noControl : ∀ c ∈ line, 0x20 ≤ c.toNat)
    (noWeak : ∀ c ∈ line, isWeakLtr c.toNat = false)
    (ends : ∃ last, line.getLast? = some last ∧
      (tables.isRtl last.toNat = true ∨ isNeutral last.toNat = false)) :
    ReordersTo tables m lineStart line
        ((tables.directions (generateTables_recyclesScratch run)).referenceReorder line) ↔
      (tables.directions (generateTables_recyclesScratch run)).SingleBoundaries line := by
  have scratch := generateTables_recyclesScratch run
  have value {c : Char} (member : c ∈ line) : runeValue c = c.toNat :=
    runeValue_of_lt (plane c member)
  obtain ⟨last, lastEq, strong⟩ := ends
  have lastMem : last ∈ line := List.mem_of_getLast? lastEq
  have notWeak : ∀ c ∈ line, (tables.directions scratch).weak c = false := by
    intro c member
    change isWeakLtr (runeValue c) = false
    rw [value member]
    exact noWeak c member
  have visible : ∀ c ∈ line, (tables.directions scratch).control c = false := by
    intro c member
    have large := noControl c member
    change decide (runeValue c < 0x20) = false
    rw [value member]
    exact decide_eq_false (by omega)
  rw [reordersTo_iff scratch stands (List.ne_nil_of_mem lastMem)]
  · apply Directions.reorder_eq_reference_iff notWeak visible
    intro e member
    obtain rfl : last = e := Option.some.inj (lastEq.symm.trans member)
    rw [← value lastMem] at strong
    cases rtl : tables.isRtl (runeValue last) with
    | true => exact Or.inl rtl
    | false =>
        right
        have notNeutral : isNeutral (runeValue last) = false := by simpa [rtl] using strong
        change tables.strongLtr last = true
        rw [ShaperTables.strongLtr, rtl, notNeutral, value lastMem, noWeak last lastMem]
        rfl
  · intro c member
    have large := noControl c member
    rw [value member]
    omega

/-- A quotation in brackets, with single spaces on its boundaries. -/
def bracketedLine : List Char :=
  ['a', ' ', '(', 'א', ')', ' ', '[', 'ב', ' ', 'c', ' ', 'ג']

theorem rtlApply_reference_bracketedLine :
    ReordersTo lamAlefTables (.ofBytes 0 (encode bracketedLine)) 0 bracketedLine
      ['a', ' ', '(', 'ב', ']', ' ', '(', 'א', ' ', 'c', ' ', 'ג'] :=
  (rtlApply_reference_iff generateTables_lamAlefForms (lineAt_ofBytes 0 bracketedLine)
    (by decide) (by decide) (by decide) ⟨'ג', by decide, by decide⟩).mpr (by decide)

/-- A comma and a space in front of a left-to-right word: the comma is drawn into the span. -/
theorem not_reordersTo_comma :
    ReordersTo lamAlefTables (.ofBytes 0 (encode ['א', 'ב', ',', ' ', 'c'])) 0
        ['א', 'ב', ',', ' ', 'c'] [',', 'ב', 'א', ' ', 'c'] ∧
      (lamAlefTables.directions (generateTables_recyclesScratch generateTables_lamAlefForms)
        ).referenceReorder ['א', 'ב', ',', ' ', 'c'] = ['ב', 'א', ',', ' ', 'c'] ∧
      ¬ ReordersTo lamAlefTables (.ofBytes 0 (encode ['א', 'ב', ',', ' ', 'c'])) 0
        ['א', 'ב', ',', ' ', 'c'] ['ב', 'א', ',', ' ', 'c'] := by
  have stands := lineAt_ofBytes 0 ['א', 'ב', ',', ' ', 'c']
  refine ⟨?_, by decide, ?_⟩
  · rw [reordersTo_iff (generateTables_recyclesScratch generateTables_lamAlefForms) stands
      (by decide) (by decide)]
    decide
  · rw [reordersTo_iff (generateTables_recyclesScratch generateTables_lamAlefForms) stands
      (by decide) (by decide)]
    decide

end Elbbep
