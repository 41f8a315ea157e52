import Elbbep.FindSystemFonts

/-!
# The largest table of names

The scan of `find_system_fonts.py` splits the places where a name is found into runs, and
returns the table of the first run with the most names.  The saved table and the one that
is being filled can be one object, which goes on growing after it is saved.
-/

namespace Elbbep

namespace FindSystemFonts

open PythonStruct

variable {Name : Type}

/-! ## Hits and runs -/

/-- A name, and the id behind it, at the position of the id. -/
structure Hit (Name : Type) where
  position : Nat
  name : Name
  resid : Nat

/-- The outcome of the pointer test. -/
def nameBefore (nameOf : Nat → Option Name) (lastWord : Nat) : Option Name :=
  if lastWord > microcodeOffset ∧ lastWord < 0x9000000 then nameOf lastWord else none

/-- The hit at a position. -/
def hitAt (nameOf : Nat → Option Name) (position lastWord word : Nat) : Option (Hit Name) :=
  (nameBefore nameOf lastWord).map fun name => ⟨position, name, word % 2 ^ 16⟩

/-- The hits of some words. -/
def hits (nameOf : Nat → Option Name) : (position lastWord : Nat) → List Nat → List (Hit Name)
  | _, _, [] => []
  | position, lastWord, word :: words =>
      (hitAt nameOf position lastWord word).toList ++ hits nameOf (position + 1) word words

/-- The next hit is at most three words behind. -/
def near (hit next : Hit Name) : Bool :=
  next.position ≤ hit.position + 3

/-- The maximal runs of hits that are near to each other. -/
def runs (nameOf : Nat → Option Name) (words : List Nat) : List (List (Hit Name)) :=
  (hits nameOf 0 0 words).splitBy near

/-- The finished runs and the one that may still grow, in front of a position. -/
structure Collected (position sinceLast : Nat) (closed : List (List (Hit Name)))
    (current : List (Hit Name)) : Prop where
  split : closed.flatten.splitBy near = closed
  chain : current.IsChain fun hit next => near hit next
  apart : ∀ last ∈ closed.flatten.getLast?, ∀ first ∈ current.head?, near last first = false
  growing : ∀ last ∈ current.getLast?,
    sinceLast ≤ 2 ∧ last.position + sinceLast + 1 = position
  finished : current = [] → ∀ last ∈ closed.flatten.getLast?, last.position + 3 < position

namespace Collected

variable {position sinceLast : Nat} {closed : List (List (Hit Name))} {current : List (Hit Name)}

theorem start (sinceLast : Nat) : Collected 0 sinceLast ([] : List (List (Hit Name))) [] where
  split := rfl
  chain := .nil
  apart := by simp
  growing := by simp
  finished := by simp

theorem hit (collected : Collected position sinceLast closed current) (name : Name) (resid : Nat) :
    Collected (position + 1) 0 closed (current ++ [⟨position, name, resid⟩]) where
  split := collected.split
  chain := by
    apply List.isChain_append.mpr
    refine ⟨collected.chain, .singleton _, ?_⟩
    intro last isLast next isNext
    obtain rfl : ⟨position, name, resid⟩ = next := by simpa using isNext
    obtain ⟨recent, place⟩ := collected.growing last isLast
    simp only [near, decide_eq_true_eq]
    omega
  apart := by
    intro last isLast first isFirst
    cases current with
    | nil =>
        obtain rfl : ⟨position, name, resid⟩ = first := by simpa using isFirst
        have far := collected.finished rfl last isLast
        simp only [near, decide_eq_false_iff_not]
        omega
    | cons head rest => exact collected.apart last isLast first (by simpa using isFirst)
  growing := by
    intro last isLast
    obtain rfl : ⟨position, name, resid⟩ = last := by simpa using isLast
    exact ⟨by omega, rfl⟩
  finished := by simp

theorem miss (collected : Collected position sinceLast closed current)
    (recent : sinceLast + 1 ≤ 2) :
    Collected (position + 1) (sinceLast + 1) closed current where
  split := collected.split
  chain := collected.chain
  apart := collected.apart
  growing := by
    intro last isLast
    have place := (collected.growing last isLast).2
    omega
  finished := by
    intro empty last isLast
    have far := collected.finished empty last isLast
    omega

/-- A run ends at the third word without a hit. -/
theorem close (collected : Collected position sinceLast closed current) (since : Nat)
    (late : 2 < sinceLast + 1) (nonempty : current ≠ []) :
    Collected (position + 1) since (closed ++ [current]) [] where
  split := by
    rw [List.flatten_append, List.flatten_singleton, List.splitBy_append collected.apart,
      collected.split, List.splitBy_of_isChain nonempty collected.chain]
  chain := .nil
  apart := by simp
  growing := by simp
  finished := by
    intro _ last isLast
    rw [List.flatten_append, List.flatten_singleton, List.getLast?_append_of_ne_nil _ nonempty]
      at isLast
    obtain ⟨recent, place⟩ := collected.growing last isLast
    omega

theorem wait (collected : Collected position sinceLast closed []) (since : Nat) :
    Collected (position + 1) since closed [] where
  split := collected.split
  chain := .nil
  apart := by simp
  growing := by simp
  finished := by
    intro _ last isLast
    have far := collected.finished rfl last isLast
    omega

/-- The runs of all hits so far. -/
theorem splitBy_eq (collected : Collected position sinceLast closed current) :
    (closed.flatten ++ current).splitBy near =
      if current = [] then closed else closed ++ [current] := by
  rw [List.splitBy_append collected.apart, collected.split]
  split
  next empty => simp [empty]
  next nonempty => rw [List.splitBy_of_isChain nonempty collected.chain]

end Collected

/-! ## Tables -/

variable [DecidableEq Name]

theorem length_le_setName (table : List (Name × Nat)) (name : Name) (resid : Nat) :
    table.length ≤ (setName table name resid).length := by
  unfold setName
  split <;> simp

theorem setName_ne_nil (table : List (Name × Nat)) (name : Name) (resid : Nat) :
    setName table name resid ≠ [] := by
  unfold setName
  split
  next known =>
    intro empty
    rw [List.map_eq_nil_iff] at empty
    simp [empty] at known
  next => simp

/-- The table of a run. -/
def tableOf (run : List (Hit Name)) : List (Name × Nat) :=
  run.foldl (fun table hit => setName table hit.name hit.resid) []

theorem tableOf_concat (run : List (Hit Name)) (hit : Hit Name) :
    tableOf (run ++ [hit]) = setName (tableOf run) hit.name hit.resid := by
  simp [tableOf]

theorem tableOf_pos {run : List (Hit Name)} (nonempty : run ≠ []) : 0 < (tableOf run).length := by
  obtain ⟨before, last, rfl⟩ := List.eq_nil_or_concat run |>.resolve_left nonempty
  rw [List.concat_eq_append, tableOf_concat]
  exact List.length_pos_iff.mpr (setName_ne_nil _ _ _)

theorem keys_setName (table : List (Name × Nat)) (name : Name) (resid : Nat) :
    (setName table name resid).map Prod.fst =
      if name ∈ table.map Prod.fst then table.map Prod.fst else table.map Prod.fst ++ [name] := by
  unfold setName
  split
  next known =>
    rw [List.map_map]
    apply List.map_congr_left
    intro entry _
    by_cases same : entry.1 = name <;> simp [same]
  next => simp

theorem nodup_keys_tableOf (run : List (Hit Name)) : ((tableOf run).map Prod.fst).Nodup := by
  induction run using List.reverseRecOn with
  | nil => simp [tableOf]
  | append_singleton run hit ih =>
      rw [tableOf_concat, keys_setName]
      split
      next => exact ih
      next unknown =>
        apply List.nodup_append.mpr
        refine ⟨ih, List.nodup_singleton _, ?_⟩
        rintro name known _ isHit rfl
        exact unknown (List.mem_singleton.mp isHit ▸ known)

theorem mem_keys_tableOf (run : List (Hit Name)) (name : Name) :
    name ∈ (tableOf run).map Prod.fst ↔ name ∈ run.map Hit.name := by
  induction run using List.reverseRecOn with
  | nil => simp [tableOf]
  | append_singleton run hit ih =>
      rw [tableOf_concat, keys_setName, List.map_append, List.mem_append, ← ih]
      split
      next known =>
        simp only [List.map_singleton, List.mem_singleton]
        grind
      next => simp

/-- The number of distinct names of a run. -/
def nameCount (run : List (Hit Name)) : Nat :=
  (run.map Hit.name).toFinset.card

theorem length_tableOf (run : List (Hit Name)) : (tableOf run).length = nameCount run := by
  have sameNames : ((tableOf run).map Prod.fst).toFinset = (run.map Hit.name).toFinset := by
    ext name
    rw [List.mem_toFinset, List.mem_toFinset, mem_keys_tableOf]
  rw [nameCount, ← sameNames, List.toFinset_card_of_nodup (nodup_keys_tableOf run), List.length_map]

/-- The table of the first run with the most distinct names. -/
def IsLargest (runs : List (List (Hit Name))) (table : List (Name × Nat)) : Prop :=
  (runs = [] ∧ table = []) ∨ ∃ before run behind, runs = before ++ run :: behind ∧
    table = tableOf run ∧ (∀ other ∈ before, nameCount other < nameCount run) ∧
    ∀ other ∈ behind, nameCount other ≤ nameCount run

namespace IsLargest

variable {closed : List (List (Hit Name))} {table : List (Name × Nat)} {run : List (Hit Name)}

theorem length_le (largest : IsLargest closed table) (member : run ∈ closed) :
    (tableOf run).length ≤ table.length := by
  rcases largest with ⟨rfl, -⟩ | ⟨before, best, behind, rfl, rfl, less, le⟩
  · cases member
  · rw [length_tableOf, length_tableOf]
    rcases List.mem_append.mp member with inBefore | inRest
    · exact (less run inBefore).le
    · rcases List.mem_cons.mp inRest with rfl | inBehind
      · exact Nat.le_refl _
      · exact le run inBehind

theorem concat_smaller (largest : IsLargest closed table) (nonempty : run ≠ [])
    (smaller : (tableOf run).length ≤ table.length) : IsLargest (closed ++ [run]) table := by
  rcases largest with ⟨-, rfl⟩ | ⟨before, best, behind, rfl, rfl, less, le⟩
  · have positive := tableOf_pos nonempty
    simp only [List.length_nil] at smaller
    omega
  · rw [length_tableOf, length_tableOf] at smaller
    refine Or.inr ⟨before, best, behind ++ [run], by simp, rfl, less, ?_⟩
    intro other member
    rcases List.mem_append.mp member with inBehind | last
    · exact le other inBehind
    · rw [List.mem_singleton.mp last]
      exact smaller

theorem concat_larger
    (larger : ∀ other ∈ closed, (tableOf other).length < (tableOf run).length) :
    IsLargest (closed ++ [run]) (tableOf run) := by
  refine Or.inr ⟨closed, run, [], rfl, rfl, ?_, by simp⟩
  intro other member
  rw [← length_tableOf, ← length_tableOf]
  exact larger other member

end IsLargest

/-! ## The two tables -/

/-- The work table is that of the current run.  The other one is either the same object, or
the table of the largest finished run. -/
structure Saved (closed : List (List (Hit Name))) (current : List (Hit Name))
    (state : ScanState Name) : Prop where
  final_lt : state.finalTable < state.objects.length
  work_lt : state.workTable < state.objects.length
  work : state.object state.workTable = tableOf current
  final : (state.finalTable = state.workTable ∧ current ≠ [] ∧
      ∀ run ∈ closed, (tableOf run).length < (tableOf current).length) ∨
    (state.finalTable ≠ state.workTable ∧ IsLargest closed (state.object state.finalTable) ∧
      (tableOf current).length ≤ (state.object state.finalTable).length)

namespace Saved

variable {closed : List (List (Hit Name))} {current : List (Hit Name)} {state : ScanState Name}

theorem start : Saved [] [] (.start : ScanState Name) where
  final_lt := Nat.zero_lt_two
  work_lt := Nat.one_lt_two
  work := rfl
  final := Or.inr ⟨Nat.zero_ne_one, Or.inl ⟨rfl, rfl⟩, Nat.zero_le _⟩

theorem withLastWord (saved : Saved closed current state) (word : Nat) :
    Saved closed current { state with lastWord := word } :=
  ⟨saved.final_lt, saved.work_lt, saved.work, saved.final⟩

/-- The table that is returned. -/
theorem largest (saved : Saved closed current state) :
    IsLargest (if current = [] then closed else closed ++ [current])
      (state.object state.finalTable) := by
  rcases saved.final with ⟨same, nonempty, larger⟩ | ⟨-, largest, smaller⟩
  · rw [same, saved.work, if_neg nonempty]
    exact IsLargest.concat_larger larger
  · split
    next => exact largest
    next nonempty => exact largest.concat_smaller nonempty smaller

theorem object_record (state : ScanState Name) (word : Nat) (name : Name) (table : Nat)
    (table_lt : table < state.objects.length) :
    (state.record word (some name)).object table =
      if state.workTable = table then setName (state.object table) name (word % 2 ^ 16)
      else state.object table := by
  simp only [ScanState.record, ScanState.object, List.getD_eq_getElem?_getD, List.getElem?_modify]
  rw [List.getElem?_eq_getElem table_lt]
  split <;> rfl

/-- A name is added to the current run. -/
theorem hit (saved : Saved closed current state) (position word : Nat) (name : Name) :
    Saved closed (current ++ [⟨position, name, word % 2 ^ 16⟩])
      (state.record word (some name)).save := by
  set run := current ++ [(⟨position, name, word % 2 ^ 16⟩ : Hit Name)] with runEq
  set next := state.record word (some name) with nextEq
  have lengthEq : next.objects.length = state.objects.length := List.length_modify _ _ _
  have grown : (tableOf current).length ≤ (tableOf run).length := by
    rw [runEq, tableOf_concat]
    exact length_le_setName _ _ _
  have workTable : next.object next.workTable = tableOf run := by
    have recorded := object_record state word name state.workTable saved.work_lt
    rw [if_pos rfl, saved.work] at recorded
    rw [runEq, tableOf_concat]
    exact recorded
  have saveEq : next.save =
      if (next.object next.workTable).length > (next.object next.finalTable).length then
        { next with finalTable := next.workTable } else next := by
    unfold ScanState.save
    rw [if_neg (show ¬next.sinceLast > 2 from Nat.not_lt_zero 2)]
  rcases saved.final with ⟨same, -, larger⟩ | ⟨other, largest, smaller⟩
  · -- The saved table is the one that grows.
    have sameNext : next.finalTable = next.workTable := same
    rw [saveEq, sameNext, if_neg (lt_irrefl _)]
    refine ⟨?_, ?_, workTable, Or.inl ⟨sameNext, by simp [runEq], ?_⟩⟩
    · exact lengthEq ▸ saved.final_lt
    · exact lengthEq ▸ saved.work_lt
    · intro old member
      exact (larger old member).trans_le grown
  · have finalEq : next.object next.finalTable = state.object state.finalTable := by
      have recorded := object_record state word name state.finalTable saved.final_lt
      rw [if_neg (Ne.symm other)] at recorded
      exact recorded
    rw [saveEq, workTable, finalEq]
    split
    next larger =>
      refine ⟨lengthEq ▸ saved.work_lt, lengthEq ▸ saved.work_lt, workTable,
        Or.inl ⟨rfl, by simp [runEq], ?_⟩⟩
      intro old member
      exact (largest.length_le member).trans_lt larger
    next notLarger =>
      refine ⟨lengthEq ▸ saved.final_lt, lengthEq ▸ saved.work_lt, workTable,
        Or.inr ⟨other, ?_, ?_⟩⟩
      · rw [finalEq]
        exact largest
      · rw [finalEq]
        exact Nat.le_of_not_lt notLarger

/-- A word without a name changes nothing while the run may still grow. -/
theorem miss (saved : Saved closed current state) (word : Nat) (recent : state.sinceLast + 1 ≤ 2) :
    Saved closed current (state.record word none).save := by
  have unchanged : (state.record word none).save = state.record word none := by
    unfold ScanState.save
    rw [if_neg (show ¬(state.record word none).sinceLast > 2 by
      simp only [ScanState.record]
      omega)]
    apply if_neg
    have notLarger : ¬(state.object state.workTable).length >
        (state.object state.finalTable).length := by
      rcases saved.final with ⟨same, -⟩ | ⟨-, -, smaller⟩
      · rw [same]
        exact lt_irrefl _
      · rw [saved.work]
        omega
    exact notLarger
  rw [unchanged]
  exact ⟨saved.final_lt, saved.work_lt, saved.work, saved.final⟩

/-- A new work table, which leaves the saved one alone. -/
theorem reset (saved : Saved closed current state) (word : Nat) (late : 2 < state.sinceLast + 1) :
    Saved (if current = [] then closed else closed ++ [current]) []
      (state.record word none).save := by
  have saveEq : (state.record word none).save =
      { state with
        sinceLast := state.sinceLast + 1
        objects := state.objects ++ [[]]
        workTable := state.objects.length } := by
    unfold ScanState.save
    rw [if_pos (show (state.record word none).sinceLast > 2 from late)]
    rfl
  have finalEq : (state.record word none).save.object state.finalTable =
      state.object state.finalTable := by
    rw [saveEq]
    simp only [ScanState.object, List.getD_eq_getElem?_getD]
    rw [List.getElem?_append_left saved.final_lt]
  have final_lt := saved.final_lt
  rw [saveEq] at finalEq ⊢
  refine ⟨?_, ?_, ?_, Or.inr ⟨Nat.ne_of_lt final_lt, ?_, Nat.zero_le _⟩⟩
  · simp only [List.length_append, List.length_singleton]
    omega
  · simp
  · simp [ScanState.object, tableOf]
  · rw [finalEq]
    exact saved.largest

end Saved

/-! ## The whole scan -/

/-- What the scan has found in front of a position. -/
def Scanned (found : List (Hit Name)) (position : Nat) (state : ScanState Name) : Prop :=
  ∃ closed current, found = closed.flatten ++ current ∧
    Collected position state.sinceLast closed current ∧ Saved closed current state

/-- The state after a word. -/
def advance (nameOf : Nat → Option Name) (state : ScanState Name) (word : Nat) : ScanState Name :=
  { (state.record word (nameBefore nameOf state.lastWord)).save with lastWord := word }

theorem step_eq_advance {nameAt : Nat → Except PyError (Option Name)}
    {nameOf : Nat → Option Name} (state : ScanState Name) (word : Nat)
    (passes : microcodeOffset < state.lastWord →
      nameAt state.lastWord = .ok (nameOf state.lastWord)) :
    state.step nameAt word = .ok (advance nameOf state word) := by
  have found : state.findName nameAt = .ok (nameBefore nameOf state.lastWord) := by
    unfold ScanState.findName nameBefore
    split
    next inRange => exact passes inRange.1
    next => rfl
  unfold ScanState.step advance
  rw [found]
  rfl

theorem Scanned.advance {found : List (Hit Name)} {position : Nat} {state : ScanState Name}
    (scanned : Scanned found position state) (nameOf : Nat → Option Name) (word : Nat) :
    Scanned (found ++ (hitAt nameOf position state.lastWord word).toList) (position + 1)
      (advance nameOf state word) := by
  obtain ⟨closed, current, rfl, collected, saved⟩ := scanned
  unfold hitAt FindSystemFonts.advance
  cases nameBefore nameOf state.lastWord with
  | some name =>
      have since : (state.record word (some name)).save.sinceLast = 0 := by
        unfold ScanState.save
        rw [if_neg (show ¬(state.record word (some name)).sinceLast > 2 from Nat.not_lt_zero 2)]
        split <;> rfl
      refine ⟨closed, current ++ [⟨position, name, word % 2 ^ 16⟩], by simp, ?_,
        (saved.hit position word name).withLastWord word⟩
      rw [since]
      exact collected.hit name _
  | none =>
      have since : (state.record word none).save.sinceLast = state.sinceLast + 1 := by
        unfold ScanState.save
        split <;> [skip; split] <;> rfl
      rw [Option.map_none, Option.toList_none, List.append_nil]
      unfold Scanned
      rw [since]
      by_cases late : 2 < state.sinceLast + 1
      · refine ⟨_, [], ?_, ?_, (saved.reset word late).withLastWord word⟩
        · split
          next empty => rw [empty]
          next => simp
        · split
          next empty =>
            subst empty
            exact collected.wait _
          next nonempty => exact collected.close _ late nonempty
      · exact ⟨closed, current, rfl, collected.miss (by omega),
          (saved.miss word (by omega)).withLastWord word⟩

theorem Scanned.foldl (nameOf : Nat → Option Name) (words : List Nat) :
    ∀ {found : List (Hit Name)} {position : Nat} {state : ScanState Name},
      Scanned found position state →
      Scanned (found ++ hits nameOf position state.lastWord words) (position + words.length)
        (words.foldl (FindSystemFonts.advance nameOf) state) := by
  induction words with
  | nil =>
      intro found position state scanned
      simpa [hits] using scanned
  | cons word words ih =>
      intro found position state scanned
      have next := ih (scanned.advance nameOf word)
      rw [List.append_assoc, Nat.add_assoc, Nat.add_comm 1] at next
      exact next

theorem foldlM_step {nameAt : Nat → Except PyError (Option Name)} {nameOf : Nat → Option Name}
    (words : List Nat) : ∀ state : ScanState Name,
      (∀ word ∈ state.lastWord :: words, microcodeOffset < word → nameAt word = .ok (nameOf word)) →
      words.foldlM (ScanState.step nameAt) state = .ok (words.foldl (advance nameOf) state) := by
  induction words with
  | nil => exact fun _ _ => rfl
  | cons word words ih =>
      intro state passes
      rw [List.foldlM_cons, step_eq_advance state word (passes _ List.mem_cons_self)]
      exact ih (advance nameOf state word) fun later member =>
        passes later (List.mem_cons_of_mem _ member)

/-- The scan returns the table of the first run with the most names. -/
theorem scanWords_largest (nameAt : Nat → Except PyError (Option Name))
    (nameOf : Nat → Option Name) (words : List Nat)
    (passes : ∀ word ∈ words, nameAt word = .ok (nameOf word)) :
    ∃ table, scanWords nameAt words = .ok table ∧ IsLargest (runs nameOf words) table := by
  have run : words.foldlM (ScanState.step nameAt) .start =
      .ok (words.foldl (advance nameOf) .start) := by
    apply foldlM_step
    intro word member positive
    rcases List.mem_cons.mp member with rfl | isWord
    · exact absurd positive (Nat.not_lt_zero _)
    · exact passes word isWord
  have scanned : Scanned ([] : List (Hit Name)) 0 .start :=
    ⟨[], [], rfl, Collected.start _, Saved.start⟩
  obtain ⟨closed, current, foundEq, collected, saved⟩ := scanned.foldl nameOf words
  have runsEq : runs nameOf words = if current = [] then closed else closed ++ [current] := by
    rw [← collected.splitBy_eq, ← foundEq]
    rfl
  refine ⟨(words.foldl (advance nameOf) .start).object _, ?_, runsEq ▸ saved.largest⟩
  unfold scanWords
  rw [run]
  rfl

/-- A pointer to a name, an id with other bits in its word, and the name. -/
def smallImage : List UInt8 :=
  [0x08, 0x40, 0x00, 0x08, 0x07, 0x00, 0x2a, 0x00] ++ resourceIdPrefix ++ [95, 65, 0]

theorem scanWords_largest_image : ∃ table, extractSystemFontResourceIds smallImage = .ok table ∧
    IsLargest (runs (fun word => (nameAt (padWords smallImage) word).toOption.join)
      (unpackWords (padWords smallImage))) table :=
  scanWords_largest _ _ _ (by decide +kernel)

example : extractSystemFontResourceIds smallImage = .ok [(resourceIdPrefix ++ [95, 65], 7)] := by
  decide +kernel

end FindSystemFonts

end Elbbep
