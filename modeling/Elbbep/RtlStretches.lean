import Elbbep.RtlRunes

/-!
# Runes are permuted within stretches

A strongly left-to-right rune is an anchor of `rtl_apply`: it keeps its place, and
no other rune passes it.  Within a stretch between anchors the runes are permuted
as wholes, apart from brackets, which may be exchanged with their partners.
-/

namespace Elbbep

open ByteMemory Utf8Encoding BlockReversal

namespace Directions

variable {α β : Type*} {d : Directions α}

section Stretch

variable {f : α → β} (mirrors : ∀ c, f (d.mirror c) = f c)

include mirrors

theorem map_reverseRegion_perm (turnLast : Bool) (region : List α) :
    ((d.reverseRegion turnLast region).map f).Perm (region.map f) := by
  have same : f ∘ d.mirror = f := funext mirrors
  rw [reverseRegion, List.map_reverse, List.map_map, same]
  exact (List.reverse_perm _).trans ((turnBlocks_perm turnLast region).map f)

theorem map_reorderRegion_perm (visible : Bool) (region : List α) :
    ((d.reorderRegion visible region).map f).Perm (region.map f) := by
  rcases List.eq_nil_or_concat region with rfl | ⟨init, last, rfl⟩
  · exact .refl _
  · rw [List.concat_eq_append, reorderRegion, List.getLast?_concat]
    dsimp only
    split
    · rw [List.dropLast_concat, List.map_append, List.map_append]
      exact (map_reverseRegion_perm mirrors false init).append_right _
    · exact map_reverseRegion_perm mirrors true _

/-- Runes stay in their stretch, up to brackets. -/
theorem map_reorderStretch_perm (visible : Bool) (stretch : List α) :
    ((d.reorderStretch visible stretch).map f).Perm (stretch.map f) := by
  have parts : (stretch.takeWhile fun c => !d.rtl c) ++ (stretch.dropWhile fun c => !d.rtl c) =
      stretch := List.takeWhile_append_dropWhile
  conv_rhs => rw [← parts]
  rw [reorderStretch, List.map_append, List.map_append]
  exact (map_reorderRegion_perm mirrors visible _).append_left _

theorem forall₂_reorderStretch {stretches : List (List α)} {anchors : List α}
    (separated : Separated d.anchor stretches anchors) :
    List.Forall₂ (fun stretch stretch' => (stretch'.map f).Perm (stretch.map f)) stretches
      (List.zipWith d.reorderStretch (d.visibleAnchors anchors) stretches) := by
  induction separated with
  | single _ => exact .cons (map_reorderStretch_perm mirrors _ _) .nil
  | cons _ _ _ ih => exact .cons (map_reorderStretch_perm mirrors _ _) ih

end Stretch

theorem anchor_mirror (c : α) : d.anchor (d.mirror c) = d.anchor c := by
  simp only [Directions.anchor, d.rtl_mirror, d.neutral_mirror, d.weak_mirror]

theorem reorderStretch_inside {visible : Bool} {stretch : List α}
    (inside : ∀ c ∈ stretch, d.anchor c = false) :
    ∀ c ∈ d.reorderStretch visible stretch, d.anchor c = false := by
  intro c member
  have class' : d.anchor c ∈ (d.reorderStretch visible stretch).map d.anchor :=
    List.mem_map_of_mem member
  rw [(map_reorderStretch_perm anchor_mirror visible stretch).mem_iff] at class'
  obtain ⟨e, inStretch, eq⟩ := List.mem_map.mp class'
  rw [← eq, inside e inStretch]

theorem separated_reorderStretch {stretches : List (List α)} {anchors : List α}
    (separated : Separated d.anchor stretches anchors) :
    Separated d.anchor (List.zipWith d.reorderStretch (d.visibleAnchors anchors) stretches)
      anchors := by
  induction separated with
  | single inside => exact .single (reorderStretch_inside inside)
  | cons inside anchor _ ih => exact .cons (reorderStretch_inside inside) anchor ih

/-- The anchors of a reordered line are those of the line. -/
theorem filter_reorder (line : List α) :
    (d.reorder line).filter d.anchor = line.filter d.anchor := by
  rw [reorder_eq, filter_interleave (separated_reorderStretch (separated_splitOnP d.anchor line))]

/-- The stretches of a reordered line are the reordered stretches. -/
theorem splitOnP_reorder (line : List α) :
    (d.reorder line).splitOnP d.anchor = List.zipWith d.reorderStretch
      (d.visibleAnchors (line.filter d.anchor)) (line.splitOnP d.anchor) := by
  rw [reorder_eq, splitOnP_interleave (separated_reorderStretch (separated_splitOnP d.anchor line))]

/-- An anchor keeps everything that is measured in front of it. -/
theorem exists_anchor_reorder {β : Type*} [AddCommMonoid β] (weight : α → β)
    (mirrors : ∀ c, weight (d.mirror c) = weight c) {before behind : List α} {a : α}
    (anchor : d.anchor a = true) :
    ∃ before' behind', d.reorder (before ++ a :: behind) = before' ++ a :: behind' ∧
      (before'.map weight).sum = (before.map weight).sum := by
  have separated := separated_splitOnP d.anchor (before ++ a :: behind)
  rw [reorder_eq]
  refine exists_separator_of_forall₂ weight separated ?_ anchor (interleave_splitOnP _ _)
  exact (forall₂_reorderStretch mirrors separated).imp fun _ _ perm => perm.sum_eq

end Directions

/-! ## Lines of characters -/

/-- Strongly left-to-right: in none of the classes of `rtl_ranges.c`. -/
def ShaperTables.strongLtr (tables : ShaperTables) (c : Char) : Bool :=
  !(tables.isRtl (runeValue c) || isNeutral (runeValue c) || isWeakLtr (runeValue c))

theorem ShaperTables.anchor_directions (tables : ShaperTables)
    (scratch : tables.RecyclesScratch) :
    (tables.directions scratch).anchor = tables.strongLtr := rfl

/-- The second line has the runes of the first in another order: strongly left-to-right
runes keep their byte offsets, and each stretch between them has the same runes, up to
exchanging brackets. -/
structure AnchoredPermutation (tables : ShaperTables) (line line' : List Char) : Prop where
  anchors : line'.filter tables.strongLtr = line.filter tables.strongLtr
  offsets : ∀ before c behind, line = before ++ c :: behind → tables.strongLtr c = true →
    ∃ before' behind', line' = before' ++ c :: behind' ∧ byteLength before' = byteLength before
  stretches : List.Forall₂
    (fun stretch stretch' => (stretch'.map fun c => s(c, mirrored c)).Perm
      (stretch.map fun c => s(c, mirrored c)))
    (line.splitOnP tables.strongLtr) (line'.splitOnP tables.strongLtr)

theorem mirrored_size (c : Char) : (mirrored c).utf8Size = c.utf8Size := by
  by_cases bracket : c ∈ brackets
  · revert c
    decide
  · rw [mirrored_of_not_bracket bracket]

theorem anchoredPermutation_reorder {tables : ShaperTables} (scratch : tables.RecyclesScratch)
    (line : List Char) :
    AnchoredPermutation tables line ((tables.directions scratch).reorder line) where
  anchors := by
    rw [← tables.anchor_directions scratch, Directions.filter_reorder]
  offsets before c behind eq anchor := by
    rw [← tables.anchor_directions scratch] at anchor
    have size (e : Char) : ((tables.directions scratch).mirror e).utf8Size = e.utf8Size :=
      mirrored_size e
    obtain ⟨before', behind', lineEq, sumEq⟩ :=
      Directions.exists_anchor_reorder Char.utf8Size size anchor
    rw [eq]
    exact ⟨before', behind', lineEq, by rw [byteLength_eq_sum, byteLength_eq_sum, sumEq]⟩
  stretches := by
    have pairs (c : Char) : s(mirrored c, mirrored (mirrored c)) = s(c, mirrored c) := by
      rw [mirrored_mirrored, Sym2.eq_swap]
    rw [← tables.anchor_directions scratch, Directions.splitOnP_reorder]
    exact Directions.forall₂_reorderStretch pairs (separated_splitOnP _ line)

/-- On a line of runes whose values are not read as zero, `rtl_apply` stores only into
the line and leaves an anchored permutation of it there. -/
theorem rtlApply_anchoredPermutation {unicodedataName : Char → Option String} {forms : FormsTable}
    {tables : ShaperTables} (run : generateTables unicodedataName forms.items = .ok tables)
    {m : Memory} {lineStart : Int} {line : List Char} (stands : LineAt m lineStart line)
    (nonempty : line ≠ []) (nonzero : ∀ c ∈ line, c.toNat % 0x10000 ≠ 0) :
    ∃ after didTransform line',
      rtlApply tables m lineStart (lineStart + byteLength line) = .ok (after, didTransform) ∧
      StoresWithin lineStart (lineStart + byteLength line) m after ∧
      LineAt after lineStart line' ∧ byteLength line' = byteLength line ∧
      AnchoredPermutation tables line line' := by
  have scratch := generateTables_recyclesScratch run
  obtain ⟨c, chars, rfl⟩ := List.exists_cons_of_ne_nil nonempty
  obtain ⟨after, didTransform, apply, rewritten⟩ := rtlApply_ok scratch stands
    (fun e member => nonzero e (by simp [member])) le_rfl (fun _ => le_rfl)
  exact ⟨after, didTransform, _, apply, rewritten.within, rewritten.stands, rewritten.length_eq,
    anchoredPermutation_reorder scratch _⟩

theorem lineAt_ofBytes (base : Int) (line : List Char) :
    LineAt (.ofBytes base (encode line)) base line where
  spelled := spells_ofBytes base _
  low_le := Int.le_refl base
  le_high := Int.le_refl _

/-- A line with a rune of each length, numerals, brackets and two anchors. -/
def mixedLine : List Char :=
  ['x', 'ש', '(', '1', '2', ')', 'ל', ' ', '😀', 'א', '€', 'ب', '3']

theorem rtlApply_anchoredPermutation_mixedLine :
    ∃ after didTransform line',
      rtlApply lamAlefTables (.ofBytes 0 (encode mixedLine)) 0 (0 + byteLength mixedLine) =
        .ok (after, didTransform) ∧
      StoresWithin 0 (0 + byteLength mixedLine) (.ofBytes 0 (encode mixedLine)) after ∧
      LineAt after 0 line' ∧ byteLength line' = byteLength mixedLine ∧
      AnchoredPermutation lamAlefTables mixedLine line' :=
  rtlApply_anchoredPermutation generateTables_lamAlefForms (lineAt_ofBytes 0 mixedLine)
    (by decide) (by decide)

end Elbbep
