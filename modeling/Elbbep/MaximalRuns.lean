import Mathlib

/-!
# Maximal runs and neighbours

A maximal run of a list is a longest block of consecutive elements with some
property.  Runs of one list occur again in another list without repetitions exactly
when neighbours with the property stay neighbours, in the same order.
-/

namespace MaximalRuns

variable {α : Type*}

/-- A nonempty block of elements with the property, with no such element on either side. -/
def MaximalRun (marked : α → Bool) (list run : List α) : Prop :=
  ∃ before behind, list = before ++ run ++ behind ∧ run ≠ [] ∧ (∀ c ∈ run, marked c = true) ∧
    (∀ c ∈ before.getLast?, marked c = false) ∧ ∀ c ∈ behind.head?, marked c = false

section Pairs

variable {marked : α → Bool} {list other : List α} {a b c : α}

/-- Neighbours stand on one side of any third element. -/
theorem pair_infix_append_cons {front back : List α} (notFirst : a ≠ c) (notSecond : b ≠ c) :
    [a, b] <:+: front ++ c :: back ↔ [a, b] <:+: front ∨ [a, b] <:+: back := by
  constructor
  · intro neighbours
    rcases List.infix_append_iff_ne_nil.mp neighbours with left | right | split
    · exact Or.inl left
    · rcases List.infix_cons_iff.mp right with begins | later
      · obtain ⟨rest, eq⟩ := begins
        exact absurd (List.cons.inj eq).1 notFirst
      · exact Or.inr later
    · obtain ⟨first, second, some', more, eq, -, begins⟩ := split
      obtain ⟨rest, secondEq⟩ := begins
      rcases first with _ | ⟨x, _ | ⟨y, first⟩⟩
      · exact absurd rfl some'
      · obtain ⟨-, rfl⟩ := List.cons.inj eq
        exact absurd (List.cons.inj secondEq).1 notSecond
      · have empty : second = [] := by
          have lengths := congrArg List.length eq
          simp only [List.length_cons, List.length_nil, List.length_append] at lengths
          exact List.eq_nil_of_length_eq_zero (by omega)
        exact absurd empty more
  · rintro (left | right)
    · exact List.infix_append_of_infix_left left
    · exact List.infix_append_of_infix_right (List.infix_cons right)

section Positions

variable [DecidableEq α]

theorem idxOf_lt_of_sublist (distinct : list.Nodup) (sublist : List.Sublist [a, b] list) :
    list.idxOf a < list.idxOf b := by
  induction list with
  | nil => cases sublist
  | cons x rest ih =>
      obtain ⟨fresh, restDistinct⟩ := List.nodup_cons.mp distinct
      cases sublist with
      | cons _ later =>
          have notFirst : x ≠ a := fun eq => fresh (eq ▸ later.subset (by simp))
          have notSecond : x ≠ b := fun eq => fresh (eq ▸ later.subset (by simp))
          rw [List.idxOf_cons_ne _ notFirst, List.idxOf_cons_ne _ notSecond]
          exact Nat.succ_lt_succ (ih restDistinct later)
      | cons_cons _ later =>
          have notSecond : a ≠ b := fun eq => fresh (eq ▸ later.subset (by simp))
          rw [List.idxOf_cons_self, List.idxOf_cons_ne _ notSecond]
          exact Nat.succ_pos _

theorem idxOf_of_infix (distinct : list.Nodup) (neighbours : [a, b] <:+: list) :
    list.idxOf b = list.idxOf a + 1 := by
  obtain ⟨before, behind, rfl⟩ := neighbours
  rw [List.append_assoc] at distinct ⊢
  obtain ⟨-, pairDistinct, apart⟩ := List.nodup_append.mp distinct
  have firstFresh : a ∉ before := fun member => apart a member a (by simp) rfl
  have secondFresh : b ∉ before := fun member => apart b member b (by simp) rfl
  have differ : a ≠ b := by
    rintro rfl
    simp at pairDistinct
  rw [List.idxOf_append_of_notMem firstFresh, List.idxOf_append_of_notMem secondFresh,
    List.cons_append, List.idxOf_cons_self, List.idxOf_cons_ne _ differ, List.cons_append,
    List.idxOf_cons_self]

end Positions

/-- Neighbours in a list without repetitions have no other order. -/
theorem not_infix_of_turned (distinct : list.Nodup) (turned : List.Sublist [b, a] list) :
    ¬ [a, b] <:+: list := by
  classical
  intro neighbours
  have next := idxOf_of_infix distinct neighbours
  have before := idxOf_lt_of_sublist distinct turned
  omega

/-- Neighbours in a list without repetitions have nothing between them. -/
theorem not_infix_of_between (distinct : list.Nodup) (between : List.Sublist [a, c, b] list) :
    ¬ [a, b] <:+: list := by
  classical
  intro neighbours
  have next := idxOf_of_infix distinct neighbours
  have first := idxOf_lt_of_sublist distinct
    ((show List.Sublist [a, c] [a, c, b] by simp).trans between)
  have second := idxOf_lt_of_sublist distinct
    ((show List.Sublist [c, b] [a, c, b] by simp).trans between)
  omega

/-- Overlapping blocks of neighbours join. -/
theorem infix_of_pairs (distinct : other.Nodup) {run : List α}
    (members : ∀ c ∈ run, c ∈ other)
    (neighbours : ∀ a b, [a, b] <:+: run → [a, b] <:+: other) : run <:+: other := by
  induction run with
  | nil => exact List.nil_infix
  | cons a rest ih =>
      have later : rest <:+: other := ih (fun c member => members c (by simp [member]))
        fun x y pair => neighbours x y (List.infix_cons pair)
      cases rest with
      | nil =>
          obtain ⟨front, back, eq⟩ := List.append_of_mem (members a (by simp))
          exact ⟨front, back, by simp [eq]⟩
      | cons b rest =>
          obtain ⟨before, behind, eq⟩ := later
          obtain ⟨before', behind', eq'⟩ := neighbours a b ⟨[], rest, rfl⟩
          have here : (before' ++ [a]) ++ b :: behind' = before ++ b :: (rest ++ behind) := by
            simpa using eq'.trans eq.symm
          -- The element `b` has only one place.
          have placed : (before' ++ [a]) ++ b :: behind' = other := by simpa using eq'
          rw [← placed] at distinct
          obtain ⟨-, behindDistinct, apart⟩ := List.nodup_append.mp distinct
          have places : before' ++ [a] = before :=
            ((List.append_cons_inj_of_notMem (fun member => apart b member b (by simp) rfl)
              (List.nodup_cons.mp behindDistinct).1).mp here).1
          refine ⟨before', behind, ?_⟩
          rw [← eq, ← places]
          simp

/-- Runs stay together exactly when neighbours with the property stay neighbours. -/
theorem maximalRuns_infix_iff (distinct : other.Nodup)
    (members : ∀ c ∈ list, marked c = true → c ∈ other) :
    (∀ run, MaximalRun marked list run → run <:+: other) ↔
      ∀ a b, [a, b] <:+: list → marked a = true → marked b = true → [a, b] <:+: other := by
  constructor
  · rintro kept a b ⟨before, behind, rfl⟩ first second
    have run : MaximalRun marked (before ++ [a, b] ++ behind)
        (before.rtakeWhile marked ++ [a, b] ++ behind.takeWhile marked) := by
      refine ⟨before.rdropWhile marked, behind.dropWhile marked, ?_, by simp, ?_, ?_, ?_⟩
      · have parts : before.rdropWhile marked ++ before.rtakeWhile marked = before :=
          List.rdropWhile_append_rtakeWhile
        have parts' : behind.takeWhile marked ++ behind.dropWhile marked = behind :=
          List.takeWhile_append_dropWhile
        conv_lhs => rw [← parts, ← parts']
        simp only [List.append_assoc]
      · intro c member
        simp only [List.mem_append, List.mem_pair] at member
        rcases member with (inBefore | rfl | rfl) | inBehind
        · exact List.mem_rtakeWhile_imp inBefore
        · exact first
        · exact second
        · exact List.mem_takeWhile_imp inBehind
      · intro c member
        have some' := List.ne_nil_of_mem (List.mem_of_getLast? member)
        rw [List.getLast?_eq_some_getLast some', Option.mem_some_iff] at member
        simpa [member] using List.rdropWhile_last_not _ _ some'
      · intro c member
        have stops := List.head?_dropWhile_not marked behind
        rw [Option.mem_def.mp member] at stops
        simpa using stops
    refine List.IsInfix.trans ?_ (kept _ run)
    exact ⟨before.rtakeWhile marked, behind.takeWhile marked, rfl⟩
  · rintro kept run ⟨before, behind, rfl, -, all, -, -⟩
    apply infix_of_pairs distinct
    · exact fun c member => members c (by simp [member]) (all c member)
    · intro a b pair
      apply kept a b (pair.trans (List.infix_append _ _ _))
      · exact all a (pair.subset (by simp))
      · exact all b (pair.subset (by simp))

end Pairs

end MaximalRuns
