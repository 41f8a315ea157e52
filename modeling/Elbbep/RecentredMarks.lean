import Elbbep.ThickenedMarks

/-!
# Where recentred marks end up

When a mark touches an edge of the bitmap, `process_glyph` moves all marks to the left by half
of what the body is wider than the marks.  This brings the marks over the middle of the body
if both end at the same column.  It does not look at where they begin.
-/

namespace Elbbep

namespace FixIjam

open PythonStruct GlyphDump
open PfoMerge (DictOrder)

/-! ## Rounding a half -/

theorem floor_half (value : Int) : ((value : Rat) / 2).floor = value / 2 :=
  Rat.floor_intCast_div_natCast value 2

/-- A half is taken away from zero. -/
theorem two_mul_pyRound_half (value : Int) :
    2 * pyRound ((value : Rat) / 2) = value + value % 2 * value.sign := by
  unfold pyRound
  rcases lt_or_ge value 0 with negative | nonneg
  · have below : ¬(0 : Rat) ≤ (value : Rat) / 2 := by
      have : (value : Rat) < 0 := by exact_mod_cast negative
      linarith
    have shifted : -((value : Rat) / 2) + 1 / 2 = ((1 - value : Int) : Rat) / 2 := by
      push_cast
      ring
    rw [if_neg below, shifted, floor_half, Int.sign_eq_neg_one_of_neg negative]
    omega
  · have above : (0 : Rat) ≤ (value : Rat) / 2 := by
      have : (0 : Rat) ≤ (value : Rat) := by exact_mod_cast nonneg
      linarith
    have shifted : (value : Rat) / 2 + 1 / 2 = ((value + 1 : Int) : Rat) / 2 := by
      push_cast
      ring
    rw [if_pos above, shifted, floor_half]
    rcases nonneg.eq_or_lt with rfl | positive
    · decide
    · rw [Int.sign_eq_one_of_pos positive]
      omega

/-! ## Extents -/

variable {points moved : List Point}

theorem minX_spec (nonempty : points ≠ []) :
    minX points ∈ points.map Prod.fst ∧ ∀ x ∈ points.map Prod.fst, minX points ≤ x := by
  have columns : points.map Prod.fst ≠ [] := by simpa using nonempty
  obtain ⟨least, leastEq⟩ := Option.isSome_iff_exists.mp (List.isSome_min?_iff.mpr columns)
  rw [minX, leastEq]
  exact List.min?_eq_some_iff.mp leastEq

theorem maxX_spec (nonempty : points ≠ []) :
    maxX points ∈ points.map Prod.fst ∧ ∀ x ∈ points.map Prod.fst, x ≤ maxX points := by
  have columns : points.map Prod.fst ≠ [] := by simpa using nonempty
  obtain ⟨greatest, greatestEq⟩ := Option.isSome_iff_exists.mp (List.isSome_max?_iff.mpr columns)
  rw [maxX, greatestEq]
  exact List.max?_eq_some_iff.mp greatestEq

section Moved

variable {distance : Int}
  (mem_moved : ∀ key : Point, key ∈ moved ↔ (key.1 + distance, key.2) ∈ points)

include mem_moved

theorem mem_columns_moved (x : Int) :
    x ∈ moved.map Prod.fst ↔ x + distance ∈ points.map Prod.fst := by
  simp only [List.mem_map, Prod.exists, exists_and_right, exists_eq_right, mem_moved]

theorem minX_moved (nonempty : points ≠ []) : minX moved = minX points - distance := by
  obtain ⟨member, bound⟩ := minX_spec nonempty
  have isLeast : (moved.map Prod.fst).min? = some (minX points - distance) := by
    apply List.min?_eq_some_iff.mpr
    constructor
    · rw [mem_columns_moved mem_moved, Int.sub_add_cancel]
      exact member
    · intro x inMoved
      have := bound _ ((mem_columns_moved mem_moved x).mp inMoved)
      omega
  rw [minX, isLeast]
  rfl

theorem maxX_moved (nonempty : points ≠ []) : maxX moved = maxX points - distance := by
  obtain ⟨member, bound⟩ := maxX_spec nonempty
  have isGreatest : (moved.map Prod.fst).max? = some (maxX points - distance) := by
    apply List.max?_eq_some_iff.mpr
    constructor
    · rw [mem_columns_moved mem_moved, Int.sub_add_cancel]
      exact member
    · intro x inMoved
      have := bound _ ((mem_columns_moved mem_moved x).mp inMoved)
      omega
  rw [maxX, isGreatest]
  rfl

end Moved

/-- The middle of the columns of some points. -/
def midX (points : List Point) : Rat :=
  ((minX points + maxX points : Int) : Rat) / 2

theorem midX_close_iff (first second : List Point) : |midX first - midX second| ≤ 1 / 2 ↔
    |minX first + maxX first - (minX second + maxX second)| ≤ 1 := by
  have difference : midX first - midX second =
      ((minX first + maxX first - (minX second + maxX second) : Int) : Rat) / 2 := by
    unfold midX
    push_cast
    ring
  rw [difference, abs_div, abs_two, div_le_div_iff_of_pos_right two_pos, ← Int.cast_abs]
  exact_mod_cast Iff.rfl

/-! ## The marks over the body -/

/-- By how much the body is wider than the marks. -/
def extraWidth (ijam otherPoints : List Point) : Int :=
  (maxX otherPoints - minX otherPoints) - (maxX ijam - minX ijam)

/-- The marks end where the body ends, or one column further out if the rounding corrects
that. -/
def RightAligned (ijam otherPoints : List Point) : Prop :=
  maxX ijam = maxX otherPoints ∨ extraWidth ijam otherPoints % 2 = 1 ∧
    maxX ijam = maxX otherPoints + (extraWidth ijam otherPoints).sign

theorem two_mul_offX (ijam otherPoints : List Point) : 2 * offX ijam otherPoints =
    extraWidth ijam otherPoints +
      extraWidth ijam otherPoints % 2 * (extraWidth ijam otherPoints).sign := by
  rw [← two_mul_pyRound_half]
  unfold offX extraWidth
  push_cast
  ring_nf

/-- The middle of the moved marks. -/
theorem moved_close_iff {ijam otherPoints : List Point} (nonempty : ijam ≠ [])
    (mem_moved : ∀ key : Point, key ∈ moved ↔ (key.1 + offX ijam otherPoints, key.2) ∈ ijam) :
    |midX moved - midX otherPoints| ≤ 1 / 2 ↔ RightAligned ijam otherPoints := by
  have twice := two_mul_offX ijam otherPoints
  rw [midX_close_iff, minX_moved mem_moved nonempty, maxX_moved mem_moved nonempty]
  unfold RightAligned
  have widthEq : extraWidth ijam otherPoints =
    (maxX otherPoints - minX otherPoints) - (maxX ijam - minX ijam) := rfl
  generalize offX ijam otherPoints = off at *
  generalize extraWidth ijam otherPoints = extra at *
  rcases Int.emod_two_eq_zero_or_one extra with even | odd
  · rw [even] at twice ⊢
    rw [abs_le]
    omega
  · rw [odd] at twice ⊢
    rw [abs_le]
    rcases lt_trichotomy extra 0 with negative | rfl | positive
    · rw [Int.sign_eq_neg_one_of_neg negative] at *
      omega
    · cases odd
    · rw [Int.sign_eq_one_of_pos positive] at *
      omega

/-- The marks are over the middle of the body exactly if they were at its right end before. -/
theorem recentre_centred_iff (keyOrder : DictOrder Point) (dump : GlyphDump)
    (hasMark : dump.HasMark)
    (hasBody : dump.HasBody) : ∃ grown, growMarks dump.width (findPoints dump) = .ok grown ∧
      (grown.hitLeft ≠ 0 → ∃ recentred,
        recentre keyOrder dump.width (findPoints dump).otherPoints grown = .ok recentred ∧
        (|midX recentred.ijam - midX (findPoints dump).otherPoints| ≤ 1 / 2 ↔
          RightAligned grown.ijam (findPoints dump).otherPoints)) := by
  have body := (otherPoints_ne_nil_iff dump).mpr hasBody
  obtain ⟨centres, grown, grownOk, grownMarked, -⟩ := exists_growMarks hasMark hasBody
  refine ⟨grown, grownOk, ?_⟩
  intro hit
  obtain ⟨recentred, recentredOk, mem_recentred⟩ :=
    recentre_hit keyOrder dump.width hit grownMarked body
  exact ⟨recentred, recentredOk, moved_close_iff grownMarked mem_recentred⟩

/-- A dot over the right end of a line. -/
def dottedRight : GlyphDump :=
  ⟨5, 3, 0, 0, 6, "    #\n     \n#####\n".toList⟩

theorem recentre_centred_iff_dottedRight :
    ∃ grown recentred, growMarks dottedRight.width (findPoints dottedRight) = .ok grown ∧
      grown.hitLeft ≠ 0 ∧
      recentre insertionOrder dottedRight.width (findPoints dottedRight).otherPoints grown =
        .ok recentred ∧
      |midX recentred.ijam - midX (findPoints dottedRight).otherPoints| ≤ 1 / 2 := by
  obtain ⟨grown, grownOk, centred⟩ := recentre_centred_iff insertionOrder dottedRight
    ⟨(4, 0), Or.inl (by decide +kernel)⟩ ⟨(0, 2), by decide +kernel⟩
  have computed : growMarks dottedRight.width (findPoints dottedRight) =
      .ok ⟨[(4, 0), (4, -1), (5, -1), (5, 0)], 1⟩ := by
    decide +kernel
  obtain rfl := Except.ok.inj (computed.symm.trans grownOk)
  have body : (findPoints dottedRight).otherPoints = [(0, 2), (1, 2), (2, 2), (3, 2), (4, 2)] := by
    decide +kernel
  obtain ⟨recentred, recentredOk, closeIff⟩ := centred (by decide)
  refine ⟨_, recentred, grownOk, by decide, recentredOk, closeIff.mpr ?_⟩
  rw [body]
  exact Or.inr (by decide +kernel)

/-- The dot over the left end of a line is moved further out. -/
theorem recentre_dottedLine : dottedLine.HasMark ∧ dottedLine.HasBody ∧
    ∃ grown recentred, growMarks dottedLine.width (findPoints dottedLine) = .ok grown ∧
      grown.hitLeft ≠ 0 ∧
      recentre insertionOrder dottedLine.width (findPoints dottedLine).otherPoints grown =
        .ok recentred ∧
      ¬|midX recentred.ijam - midX (findPoints dottedLine).otherPoints| ≤ 1 / 2 := by
  refine ⟨⟨(0, 0), Or.inl (by decide +kernel)⟩, ⟨(0, 2), by decide +kernel⟩,
    ⟨[(0, 0), (0, -1), (-1, -1), (-1, 0)], 2⟩, ⟨[(-2, 0), (-2, -1), (-3, -1), (-3, 0)], 4, 0⟩,
    by decide +kernel, by decide, by decide +kernel, ?_⟩
  have body : (findPoints dottedLine).otherPoints = [(0, 2), (1, 2), (2, 2), (3, 2), (4, 2)] := by
    decide +kernel
  rw [midX_close_iff, body]
  decide +kernel

end FixIjam

end Elbbep
