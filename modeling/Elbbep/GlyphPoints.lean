import Elbbep.FixIjam

/-!
# The marks and the body of a glyph

A mark of a glyph is a pixel without set neighbours, or a horizontal pair of pixels without
other set neighbours.  The scan of `process_glyph` puts a pixel into one of its two lists
when it comes to it, and takes the left pixel of a pair out of the other list again.  Its
two lists are the marks, and the pixels that are in no mark.
-/

namespace Elbbep

namespace FixIjam

/-! ## Marks -/

/-- The pixel at the left of a pixel. -/
def before (point : Point) : Point :=
  (point.1 - 1, point.2)

/-- The pixel at the right of a pixel. -/
def behind (point : Point) : Point :=
  (point.1 + 1, point.2)

@[simp]
theorem behind_before (point : Point) : behind (before point) = point := by
  simp [before, behind]

@[simp]
theorem before_behind (point : Point) : before (behind point) = point := by
  simp [before, behind]

theorem before_ne (point : Point) : before point ≠ point := by
  intro same
  have := congrArg Prod.fst same
  simp [before] at this

theorem behind_ne (point : Point) : behind point ≠ point := by
  intro same
  have := congrArg Prod.fst same
  simp [behind] at this

/-- The eight neighbours of a pixel. -/
def Adjacent (point other : Point) : Prop :=
  other ≠ point ∧ point.1 - 1 ≤ other.1 ∧ other.1 ≤ point.1 + 1 ∧
    point.2 - 1 ≤ other.2 ∧ other.2 ≤ point.2 + 1

theorem adjacent_before (point : Point) : Adjacent point (before point) := by
  refine ⟨before_ne point, ?_⟩
  simp only [before]
  omega

theorem adjacent_behind (point : Point) : Adjacent point (behind point) := by
  refine ⟨behind_ne point, ?_⟩
  simp only [behind]
  omega

theorem mem_adjCells (point other : Point) : other ∈ adjCells point ↔ Adjacent point other := by
  obtain ⟨x, y⟩ := point
  obtain ⟨otherX, otherY⟩ := other
  simp only [adjCells, Adjacent, List.mem_cons, List.not_mem_nil, or_false, Prod.mk.injEq, ne_eq]
  omega

namespace GlyphDump

variable (dump : GlyphDump)

def IsSet (point : Point) : Prop :=
  dump.bmpData point = some true

/-- No pixel around a pixel is set, apart from one that is left out. -/
def Alone (point : Point) (excepting : Option Point) : Prop :=
  ∀ other, Adjacent point other → some other ≠ excepting → ¬dump.IsSet other

/-- A mark of one pixel. -/
def IsDot (point : Point) : Prop :=
  dump.IsSet point ∧ dump.Alone point none

/-- A mark of two pixels, given by the right one. -/
def IsDash (point : Point) : Prop :=
  dump.IsSet point ∧ dump.IsSet (before point) ∧ dump.Alone point (some (before point)) ∧
    dump.Alone (before point) (some point)

/-- A pixel that is in no mark. -/
def IsBody (point : Point) : Prop :=
  dump.IsSet point ∧ ¬dump.IsDot point ∧ ¬dump.IsDash point ∧ ¬dump.IsDash (behind point)

theorem checkIsolated_iff (point : Point) (excepting : Option Point) :
    checkIsolated dump point excepting.toList = true ↔ dump.Alone point excepting := by
  simp only [checkIsolated, List.all_eq_true, Bool.or_eq_true, decide_eq_true_eq, mem_adjCells,
    Option.mem_toList, Alone, IsSet]
  grind

instance (point : Point) : Decidable (dump.IsSet point) :=
  inferInstanceAs (Decidable (_ = _))

instance (point : Point) (excepting : Option Point) : Decidable (dump.Alone point excepting) :=
  decidable_of_iff _ (dump.checkIsolated_iff point excepting)

instance (point : Point) : Decidable (dump.IsDot point) :=
  inferInstanceAs (Decidable (_ ∧ _))

instance (point : Point) : Decidable (dump.IsDash point) :=
  inferInstanceAs (Decidable (_ ∧ _))

instance (point : Point) : Decidable (dump.IsBody point) :=
  inferInstanceAs (Decidable (_ ∧ _))

variable {dump} {point : Point}

theorem IsDash.not_isDot (dash : dump.IsDash point) : ¬dump.IsDot point :=
  fun dot => dot.2 _ (adjacent_before point) (by simp) dash.2.1

theorem IsDash.not_isDot_before (dash : dump.IsDash point) : ¬dump.IsDot (before point) := by
  intro dot
  have adjacent := adjacent_behind (before point)
  rw [behind_before] at adjacent
  exact dot.2 point adjacent (by simp) dash.1

theorem IsDash.not_isDash_before (dash : dump.IsDash point) : ¬dump.IsDash (before point) := by
  intro dashBefore
  have adjacent := adjacent_behind (before point)
  rw [behind_before] at adjacent
  refine dashBefore.2.2.1 point adjacent ?_ dash.1
  intro same
  have columns := congrArg (fun other => other.map Prod.fst) same
  simp [before] at columns
  omega

/-- The mark that the scan notes when it comes to a pixel. -/
def markAt (dump : GlyphDump) (point : Point) : Option Mark :=
  if dump.IsDot point then some ⟨point.1, point.2, none, none⟩
  else if dump.IsDash point then some ⟨point.1, point.2, some (-1), none⟩
  else none

end GlyphDump

/-! ## The scan -/

open GlyphDump

variable {dump : GlyphDump} {points : Points} {point : Point}

/-- What the lists hold when some pixels have been seen. -/
structure Classified (dump : GlyphDump) (seen : List Point) (points : Points) : Prop where
  nodup : points.otherPoints.Nodup
  mem_other : ∀ point, point ∈ points.otherPoints ↔ point ∈ seen ∧ dump.IsSet point ∧
    ¬dump.IsDot point ∧ ¬dump.IsDash point ∧ ¬(dump.IsDash (behind point) ∧ behind point ∈ seen)
  isolated : points.isolatedPoints = seen.filterMap dump.markAt

theorem classify_not_set (notSet : ¬dump.IsSet point) : classify dump points point = points :=
  if_pos notSet

theorem classify_dot (dot : dump.IsDot point) : classify dump points point =
    { points with
      isolatedPoints := points.isolatedPoints ++ [⟨point.1, point.2, none, none⟩] } := by
  have alone : checkIsolated dump point [] = true := (dump.checkIsolated_iff point none).mpr dot.2
  unfold classify
  exact (if_neg (not_not.mpr dot.1)).trans (if_pos alone)

theorem classify_dash (dash : dump.IsDash point) (known : before point ∈ points.otherPoints) :
    classify dump points point =
      { otherPoints := points.otherPoints.erase (before point)
        isolatedPoints := points.isolatedPoints ++ [⟨point.1, point.2, some (-1), none⟩] } := by
  have notAlone : ¬checkIsolated dump point [] = true := fun alone =>
    dash.not_isDot ⟨dash.1, (dump.checkIsolated_iff point none).mp alone⟩
  unfold classify
  apply (if_neg (not_not.mpr dash.1)).trans ((if_neg notAlone).trans (if_pos ?_))
  exact ⟨known, (dump.checkIsolated_iff point (some (before point))).mpr dash.2.2.1,
    (dump.checkIsolated_iff (before point) (some point)).mpr dash.2.2.2⟩

theorem classify_other (isSet : dump.IsSet point) (notDot : ¬dump.IsDot point)
    (notDash : ¬dump.IsDash point)
    (otherSet : before point ∈ points.otherPoints → dump.IsSet (before point)) :
    classify dump points point =
      { points with otherPoints := points.otherPoints ++ [point] } := by
  have notAlone : ¬checkIsolated dump point [] = true := fun alone =>
    notDot ⟨isSet, (dump.checkIsolated_iff point none).mp alone⟩
  unfold classify
  apply (if_neg (not_not.mpr isSet)).trans ((if_neg notAlone).trans (if_neg ?_))
  rintro ⟨known, alone, aloneBefore⟩
  exact notDash ⟨isSet, otherSet known,
    (dump.checkIsolated_iff point (some (before point))).mp alone,
    (dump.checkIsolated_iff (before point) (some point)).mp aloneBefore⟩

namespace Classified

variable {seen : List Point}

theorem isolated_concat (classified : Classified dump seen points) (point : Point) :
    (seen ++ [point]).filterMap dump.markAt =
      points.isolatedPoints ++ (dump.markAt point).toList := by
  rw [List.filterMap_append, ← classified.isolated]
  cases marked : dump.markAt point <;> simp [marked]

/-- Only a pair changes what is known of the pixels seen before. -/
theorem dash_behind_concat (notDash : ¬dump.IsDash point) (other : Point) :
    (dump.IsDash (behind other) ∧ behind other ∈ seen ++ [point]) ↔
      (dump.IsDash (behind other) ∧ behind other ∈ seen) := by
  refine and_congr_right fun dash => ?_
  rw [List.mem_append, List.mem_singleton]
  refine or_iff_left fun isPoint => ?_
  rw [isPoint] at dash
  exact notDash dash

theorem step_not_set (classified : Classified dump seen points) (notSet : ¬dump.IsSet point) :
    Classified dump (seen ++ [point]) (classify dump points point) := by
  have notDash : ¬dump.IsDash point := fun dash => notSet dash.1
  rw [classify_not_set notSet]
  refine ⟨classified.nodup, ?_, ?_⟩
  · intro other
    rw [classified.mem_other, dash_behind_concat notDash, List.mem_append, List.mem_singleton]
    grind
  · rw [classified.isolated_concat, markAt, if_neg fun dot => notSet dot.1, if_neg notDash]
    simp

theorem step_dot (classified : Classified dump seen points) (dot : dump.IsDot point) :
    Classified dump (seen ++ [point]) (classify dump points point) := by
  have notDash : ¬dump.IsDash point := fun dash => dash.not_isDot dot
  rw [classify_dot dot]
  refine ⟨classified.nodup, ?_, ?_⟩
  · intro other
    rw [classified.mem_other, dash_behind_concat notDash, List.mem_append, List.mem_singleton]
    grind
  · rw [classified.isolated_concat, markAt, if_pos dot]
    rfl

/-- The left pixel of a pair is taken out of the list. -/
theorem step_dash (classified : Classified dump seen points) (dash : dump.IsDash point)
    (new : point ∉ seen) (seenBefore : before point ∈ seen) :
    Classified dump (seen ++ [point]) (classify dump points point) := by
  have known : before point ∈ points.otherPoints := by
    apply (classified.mem_other _).mpr
    refine ⟨seenBefore, dash.2.1, dash.not_isDot_before, dash.not_isDash_before, ?_⟩
    rw [behind_before]
    exact fun dashSeen => new dashSeen.2
  rw [classify_dash dash known]
  refine ⟨classified.nodup.erase _, ?_, ?_⟩
  · intro other
    have isBefore : behind other = point ↔ other = before point :=
      ⟨fun same => by rw [← same, before_behind], fun same => by rw [same, behind_before]⟩
    rw [classified.nodup.mem_erase_iff, classified.mem_other, List.mem_append,
      List.mem_singleton, List.mem_append, List.mem_singleton, isBefore]
    grind [behind_before]
  · rw [classified.isolated_concat, markAt, if_neg dash.not_isDot, if_pos dash]
    rfl

theorem step_other (classified : Classified dump seen points) (isSet : dump.IsSet point)
    (notDot : ¬dump.IsDot point) (notDash : ¬dump.IsDash point) (new : point ∉ seen)
    (newBehind : behind point ∉ seen) :
    Classified dump (seen ++ [point]) (classify dump points point) := by
  rw [classify_other isSet notDot notDash fun known => ((classified.mem_other _).mp known).2.1]
  refine ⟨?_, ?_, ?_⟩
  · apply List.nodup_append.mpr
    refine ⟨classified.nodup, List.nodup_singleton _, ?_⟩
    rintro other known _ isPoint rfl
    rw [List.mem_singleton.mp isPoint] at known
    exact new ((classified.mem_other point).mp known).1
  · intro other
    rw [List.mem_append, List.mem_singleton, classified.mem_other, dash_behind_concat notDash,
      List.mem_append, List.mem_singleton]
    grind
  · rw [classified.isolated_concat, markAt, if_neg notDot, if_neg notDash]
    simp

/-- One pixel of the scan.  The pixel at its left has been seen, the one at its right has not. -/
theorem step (classified : Classified dump seen points) (new : point ∉ seen)
    (newBehind : behind point ∉ seen)
    (seenBefore : dump.IsSet (before point) → before point ∈ seen) :
    Classified dump (seen ++ [point]) (classify dump points point) := by
  by_cases isSet : dump.IsSet point
  · by_cases dot : dump.IsDot point
    · exact classified.step_dot dot
    · by_cases dash : dump.IsDash point
      · exact classified.step_dash dash new (seenBefore dash.2.1)
      · exact classified.step_other isSet dot dash new newBehind
  · exact classified.step_not_set isSet

end Classified

/-! ## The order of the scan -/

@[simp]
theorem mem_pyRange (count value : Int) : value ∈ pyRange count ↔ 0 ≤ value ∧ value < count := by
  simp only [pyRange, List.mem_map, List.mem_range]
  constructor
  · rintro ⟨index, small, rfl⟩
    exact ⟨Int.natCast_nonneg index, by simpa using (Int.lt_toNat).mp small⟩
  · rintro ⟨nonneg, small⟩
    exact ⟨value.toNat, by omega, Int.toNat_of_nonneg nonneg⟩

theorem pairwise_pyRange (count : Int) : (pyRange count).Pairwise (· < ·) := by
  apply List.pairwise_map.mpr
  exact List.pairwise_lt_range.imp fun less => Int.ofNat_lt.mpr less

theorem mem_scanOrder (point : Point) : point ∈ scanOrder dump ↔
    0 ≤ point.1 ∧ point.1 < dump.width ∧ 0 ≤ point.2 ∧ point.2 < dump.height := by
  obtain ⟨x, y⟩ := point
  simp only [scanOrder, List.mem_flatMap, List.mem_map, mem_pyRange, Prod.mk.injEq]
  grind

/-- The columns come from left to right. -/
def Earlier (point other : Point) : Prop :=
  point.1 < other.1 ∨ point.1 = other.1 ∧ point.2 < other.2

theorem pairwise_scanOrder (dump : GlyphDump) : (scanOrder dump).Pairwise Earlier := by
  apply List.pairwise_flatMap.mpr
  constructor
  · intro x _
    apply List.pairwise_map.mpr
    exact (pairwise_pyRange _).imp fun less => Or.inr ⟨rfl, less⟩
  · apply (pairwise_pyRange _).imp
    intro x nextX less point inColumn other inNext
    obtain ⟨y, -, rfl⟩ := List.mem_map.mp inColumn
    obtain ⟨nextY, -, rfl⟩ := List.mem_map.mp inNext
    exact Or.inl less

theorem mem_scanOrder_of_isSet (isSet : dump.IsSet point) : point ∈ scanOrder dump := by
  apply (mem_scanOrder point).mpr
  by_contra outside
  unfold IsSet bmpData at isSet
  rw [if_neg outside] at isSet
  cases isSet

theorem Classified.foldl (rest : List Point) :
    ∀ (seen : List Point) (points : Points), seen ++ rest = scanOrder dump →
      Classified dump seen points →
      Classified dump (scanOrder dump) (rest.foldl (classify dump) points) := by
  induction rest with
  | nil =>
      intro seen points whole classified
      rw [List.append_nil] at whole
      exact whole ▸ classified
  | cons point rest ih =>
      intro seen points whole classified
      have ordered : (seen ++ point :: rest).Pairwise Earlier := whole ▸ pairwise_scanOrder dump
      obtain ⟨-, orderedRest, earlier⟩ := List.pairwise_append.mp ordered
      have later := (List.pairwise_cons.mp orderedRest).1
      apply ih (seen ++ [point]) _ (by simpa using whole)
      apply classified.step
      · intro member
        have := earlier point member point List.mem_cons_self
        simp only [Earlier] at this
        omega
      · intro member
        have := earlier _ member point List.mem_cons_self
        simp only [Earlier, behind] at this
        omega
      · intro isSet
        have member := mem_scanOrder_of_isSet isSet
        rw [← whole, List.mem_append, List.mem_cons] at member
        rcases member with inSeen | same | inRest
        · exact inSeen
        · exact absurd same (before_ne point)
        · have := later _ inRest
          simp only [Earlier, before] at this
          omega

theorem classified_findPoints (dump : GlyphDump) :
    Classified dump (scanOrder dump) (findPoints dump) := by
  apply Classified.foldl _ [] _ rfl
  exact ⟨List.nodup_nil, by simp, rfl⟩

/-- The other points are those of the body. -/
theorem mem_otherPoints (dump : GlyphDump) (point : Point) :
    point ∈ (findPoints dump).otherPoints ↔ dump.IsBody point := by
  rw [(classified_findPoints dump).mem_other]
  constructor
  · rintro ⟨-, isSet, notDot, notDash, notLeft⟩
    exact ⟨isSet, notDot, notDash, fun dash => notLeft ⟨dash, mem_scanOrder_of_isSet dash.1⟩⟩
  · rintro ⟨isSet, notDot, notDash, notLeft⟩
    exact ⟨mem_scanOrder_of_isSet isSet, isSet, notDot, notDash, fun dash => notLeft dash.1⟩

/-- The isolated points are the marks. -/
theorem mem_isolatedPoints (dump : GlyphDump) (mark : Mark) :
    mark ∈ (findPoints dump).isolatedPoints ↔ ∃ point, dump.markAt point = some mark := by
  rw [(classified_findPoints dump).isolated, List.mem_filterMap]
  constructor
  · rintro ⟨point, -, marked⟩
    exact ⟨point, marked⟩
  · rintro ⟨point, marked⟩
    refine ⟨point, ?_, marked⟩
    unfold markAt at marked
    split at marked
    next dot => exact mem_scanOrder_of_isSet dot.1
    next =>
      split at marked
      next dash => exact mem_scanOrder_of_isSet dash.1
      next => cases marked

end FixIjam

end Elbbep
