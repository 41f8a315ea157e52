import Elbbep.MaximalRuns

/-!
# Reversing parts of the blocks of a list

A list falls into blocks between its separators.  Reversing the list reverses the
order of the blocks and each block.  This file studies a reversal that is
preceded by turning round, in every block or in every block but the last, the
part from the first marked element on: how it acts on the blocks, and for which
lists doing it twice gives the list back.
-/

namespace BlockReversal

open MaximalRuns

variable {α : Type*}

/-- Blocks with separators between them. -/
def interleave : List (List α) → List α → List α
  | [], _ => []
  | block :: _, [] => block
  | block :: blocks, separator :: separators =>
      block ++ separator :: interleave blocks separators

/-- Blocks and the separators between them. -/
inductive Separated (separates : α → Bool) : List (List α) → List α → Prop
  | single {block : List α} (clear : ∀ c ∈ block, separates c = false) :
      Separated separates [block] []
  | cons {block : List α} {separator : α} {blocks : List (List α)} {separators : List α}
      (clear : ∀ c ∈ block, separates c = false) (separating : separates separator = true)
      (rest : Separated separates blocks separators) :
      Separated separates (block :: blocks) (separator :: separators)

section Blocks

variable {separates : α → Bool} {blocks : List (List α)} {separators : List α}

theorem Separated.clear (separated : Separated separates blocks separators) {block : List α}
    (member : block ∈ blocks) : ∀ c ∈ block, separates c = false := by
  induction separated with
  | single clear =>
      obtain rfl := List.mem_singleton.mp member
      exact clear
  | cons clear _ _ ih =>
      rcases List.mem_cons.mp member with rfl | later
      · exact clear
      · exact ih later

theorem splitOnP_interleave (separated : Separated separates blocks separators) :
    (interleave blocks separators).splitOnP separates = blocks := by
  induction separated with
  | single clear => exact List.splitOnP_eq_singleton clear
  | cons clear separating _ ih =>
      rw [interleave, List.splitOnP_append_cons_of_forall_mem clear _ separating, ih]

theorem filter_interleave (separated : Separated separates blocks separators) :
    (interleave blocks separators).filter separates = separators := by
  induction separated with
  | single clear => simpa [interleave, List.filter_eq_nil_iff] using clear
  | @cons block separator blocks separators clear separating _ ih =>
      have none : block.filter separates = [] := by simpa [List.filter_eq_nil_iff] using clear
      rw [interleave, List.filter_append, none, List.filter_cons_of_pos separating, ih,
        List.nil_append]

theorem exists_interleave (separates : α → Bool) (list : List α) :
    ∃ blocks separators, Separated separates blocks separators ∧
      list = interleave blocks separators := by
  induction list with
  | nil => exact ⟨[[]], [], .single (by simp), rfl⟩
  | cons c rest ih =>
      obtain ⟨blocks, separators, separated, rfl⟩ := ih
      by_cases separating : separates c = true
      · exact ⟨[] :: blocks, c :: separators, .cons (by simp) separating separated, rfl⟩
      · cases separated with
        | @single block clear =>
            exact ⟨[c :: block], [], .single (by simpa [separating] using clear), rfl⟩
        | @cons block separator blocks separators clear separating' rest =>
            exact ⟨(c :: block) :: blocks, separator :: separators,
              .cons (by simpa [separating] using clear) separating' rest, rfl⟩

/-- The blocks and the separators of a list. -/
theorem separated_splitOnP (separates : α → Bool) (list : List α) :
    Separated separates (list.splitOnP separates) (list.filter separates) := by
  obtain ⟨blocks, separators, separated, rfl⟩ := exists_interleave separates list
  rwa [splitOnP_interleave separated, filter_interleave separated]

theorem interleave_splitOnP (separates : α → Bool) (list : List α) :
    interleave (list.splitOnP separates) (list.filter separates) = list := by
  obtain ⟨blocks, separators, separated, rfl⟩ := exists_interleave separates list
  rw [splitOnP_interleave separated, filter_interleave separated]

theorem Separated.concat {block : List α} {separator : α}
    (separated : Separated separates blocks separators)
    (separating : separates separator = true) (clear : ∀ c ∈ block, separates c = false) :
    Separated separates (blocks ++ [block]) (separators ++ [separator]) := by
  induction separated with
  | single front => exact .cons front separating (.single clear)
  | cons front sep _ ih => exact .cons front sep ih

theorem interleave_concat {block : List α} {separator : α}
    (separated : Separated separates blocks separators) :
    interleave (blocks ++ [block]) (separators ++ [separator]) =
      interleave blocks separators ++ separator :: block := by
  induction separated with
  | single _ => rfl
  | cons _ _ _ ih =>
      rw [List.cons_append, List.cons_append, interleave, ih, interleave, List.append_assoc,
        List.cons_append]

theorem Separated.reverse (separated : Separated separates blocks separators) :
    Separated separates (blocks.map List.reverse).reverse separators.reverse := by
  induction separated with
  | single clear => exact .single (by simpa using clear)
  | cons clear separating _ ih =>
      rw [List.map_cons, List.reverse_cons, List.reverse_cons]
      exact ih.concat separating (by simpa using clear)

/-- Reversing a list reverses the order of its blocks and each block. -/
theorem reverse_interleave (separated : Separated separates blocks separators) :
    (interleave blocks separators).reverse =
      interleave (blocks.map List.reverse).reverse separators.reverse := by
  induction separated with
  | single _ => rfl
  | cons _ _ rest ih =>
      rw [interleave, List.reverse_append, List.reverse_cons, ih, List.map_cons,
        List.reverse_cons, List.reverse_cons, interleave_concat rest.reverse, List.append_assoc]
      rfl

theorem interleave_inj {others : List (List α)}
    (separated : Separated separates blocks separators)
    (also : Separated separates others separators) :
    interleave blocks separators = interleave others separators ↔ blocks = others := by
  refine ⟨fun eq => ?_, fun eq => by rw [eq]⟩
  rw [← splitOnP_interleave separated, eq, splitOnP_interleave also]

theorem interleave_perm {others : List (List α)}
    (blockwise : List.Forall₂ List.Perm blocks others) (separators : List α) :
    (interleave blocks separators).Perm (interleave others separators) := by
  induction blockwise generalizing separators with
  | nil => exact .refl _
  | cons block _ ih =>
      cases separators with
      | nil => exact block
      | cons separator separators => exact block.append ((ih separators).cons separator)

/-- The image of a list has the images of its blocks. -/
theorem Separated.map {β : Type*} {f : α → β} {separatesImage : β → Bool}
    (keeps : ∀ c, separatesImage (f c) = separates c)
    (separated : Separated separates blocks separators) :
    Separated separatesImage (blocks.map (List.map f)) (separators.map f) ∧
      interleave (blocks.map (List.map f)) (separators.map f) =
        (interleave blocks separators).map f := by
  induction separated with
  | single clear => exact ⟨.single (by simpa [keeps] using clear), rfl⟩
  | cons clear separating _ ih =>
      refine ⟨.cons (by simpa [keeps] using clear) (by rwa [keeps]) ih.1, ?_⟩
      rw [List.map_cons, List.map_cons, interleave, ih.2, interleave, List.map_append,
        List.map_cons]

theorem splitOnP_map {β : Type*} {f : α → β} {separatesImage : β → Bool}
    (keeps : ∀ c, separatesImage (f c) = separates c) (list : List α) :
    (list.map f).splitOnP separatesImage = (list.splitOnP separates).map (List.map f) := by
  have image := (separated_splitOnP separates list).map keeps
  rw [interleave_splitOnP] at image
  rw [← image.2, splitOnP_interleave image.1]

/-- A separator stands between the same two blocks however the blocks are rewritten;
if their weights are kept, so is the weight in front of it. -/
theorem exists_separator_of_forall₂ {β : Type*} [AddCommMonoid β] (weight : α → β)
    {others : List (List α)} (separated : Separated separates blocks separators)
    (weights : List.Forall₂ (fun block other => (other.map weight).sum = (block.map weight).sum)
      blocks others)
    {before behind : List α} {separator : α} (separating : separates separator = true)
    (eq : interleave blocks separators = before ++ separator :: behind) :
    ∃ before' behind', interleave others separators = before' ++ separator :: behind' ∧
      (before'.map weight).sum = (before.map weight).sum := by
  induction separated generalizing others before with
  | @single block clear =>
      have inside : separator ∈ block := by
        change block = _ at eq
        simp [eq]
      rw [clear separator inside] at separating
      cases separating
  | @cons block first blocks separators clear _ _ ih =>
      cases weights with
      | @cons _ other _ others here later =>
          rw [interleave] at eq ⊢
          rcases List.append_eq_append_iff.mp eq with
            ⟨more, beforeEq, restEq⟩ | ⟨more, blockEq, restEq⟩
          · cases more with
            | nil =>
                obtain ⟨rfl, -⟩ := List.cons.inj restEq
                exact ⟨other, _, rfl, by rw [beforeEq, List.append_nil, here]⟩
            | cons head more =>
                obtain ⟨rfl, laterEq⟩ := List.cons.inj restEq
                obtain ⟨before', behind', othersEq, sumEq⟩ := ih later laterEq
                refine ⟨other ++ first :: before', behind', by simp [othersEq], ?_⟩
                simp [beforeEq, here, sumEq]
          · cases more with
            | nil =>
                obtain ⟨rfl, -⟩ := List.cons.inj restEq
                rw [List.append_nil] at blockEq
                exact ⟨other, _, rfl, by rw [← blockEq, here]⟩
            | cons head more =>
                obtain ⟨rfl, -⟩ := List.cons.inj restEq
                rw [clear separator (by simp [blockEq])] at separating
                cases separating

end Blocks

/-! ## Turning the marked part of a block -/

section Turning

variable (marked : α → Bool)

/-- A block with the part from its first marked element on reversed. -/
def turnMarked (block : List α) : List α :=
  block.takeWhile (fun c => !marked c) ++ (block.dropWhile fun c => !marked c).reverse

variable {marked} {block : List α}

theorem turnMarked_perm (block : List α) : (turnMarked marked block).Perm block := by
  have parts : block.takeWhile (fun c => !marked c) ++ block.dropWhile (fun c => !marked c) =
      block := List.takeWhile_append_dropWhile
  conv_rhs => rw [← parts]
  exact (List.reverse_perm _).append_left _

/-- A block without marked elements, or cut at the first one. -/
theorem marked_cases (marked : α → Bool) (block : List α) :
    (∀ c ∈ block, marked c = false) ∨
      ∃ front c back, block = front ++ c :: back ∧ (∀ d ∈ front, marked d = false) ∧
        marked c = true := by
  induction block with
  | nil => exact Or.inl (by simp)
  | cons c rest ih =>
      by_cases here : marked c = true
      · exact Or.inr ⟨[], c, rest, rfl, by simp, here⟩
      · have clear : marked c = false := by simpa using here
        rcases ih with none | ⟨front, d, back, rfl, before, there⟩
        · exact Or.inl (by simpa [clear] using none)
        · exact Or.inr ⟨c :: front, d, back, rfl, by simpa [clear] using before, there⟩

theorem turnMarked_of_unmarked (unmarked : ∀ c ∈ block, marked c = false) :
    turnMarked marked block = block := by
  have all : ∀ c ∈ block, (!marked c) = true := by simpa using unmarked
  rw [turnMarked, List.takeWhile_eq_self_iff.mpr all, List.dropWhile_eq_nil_iff.mpr all,
    List.reverse_nil, List.append_nil]

theorem dropWhile_unmarked {front back : List α} {c : α}
    (unmarked : ∀ d ∈ front, marked d = false) (here : marked c = true) :
    (front ++ c :: back).dropWhile (fun d => !marked d) = c :: back := by
  rw [List.dropWhile_append_of_pos (by simpa using unmarked),
    List.dropWhile_cons_of_neg (by simp [here])]

theorem turnMarked_append {front back : List α} {c : α}
    (unmarked : ∀ d ∈ front, marked d = false) (here : marked c = true) :
    turnMarked marked (front ++ c :: back) = front ++ (c :: back).reverse := by
  rw [turnMarked, dropWhile_unmarked unmarked here,
    List.takeWhile_append_of_pos (by simpa using unmarked),
    List.takeWhile_cons_of_neg (by simp [here]), List.append_nil]

/-- A block is kept when its marked part is a palindrome. -/
theorem turnMarked_eq_self_iff :
    turnMarked marked block = block ↔
      (block.dropWhile fun c => !marked c).reverse = block.dropWhile fun c => !marked c := by
  have parts : block.takeWhile (fun c => !marked c) ++ block.dropWhile (fun c => !marked c) =
      block := List.takeWhile_append_dropWhile
  rw [turnMarked]
  conv_lhs => rhs; rw [← parts]
  rw [List.append_right_inj]

/-- Turned, reversed and turned again, a block is reversed as a whole exactly when its
marked part, if there is one, begins with the block. -/
theorem turnMarked_reverse_turnMarked_iff :
    turnMarked marked (turnMarked marked block).reverse = block.reverse ↔
      (block.any marked = true → block.head?.any marked = true) := by
  rcases marked_cases marked block with none | ⟨front, c, back, rfl, before, here⟩
  · have noneReversed : ∀ c ∈ block.reverse, marked c = false := by simpa using none
    rw [turnMarked_of_unmarked none, turnMarked_of_unmarked noneReversed]
    have any : block.any marked = false := by simpa using none
    simp [any]
  · have turned : turnMarked marked (turnMarked marked (front ++ c :: back)).reverse =
        front ++ (c :: back).reverse := by
      rw [turnMarked_append before here, List.reverse_append, List.reverse_reverse]
      have again : turnMarked marked ([] ++ c :: (back ++ front.reverse)) =
          [] ++ (c :: (back ++ front.reverse)).reverse := turnMarked_append (by simp) here
      simpa using again
    rw [turned]
    cases front with
    | nil => simp [here]
    | cons d front =>
        have unmarked : marked d = false := before d (by simp)
        refine iff_of_false (fun eq => ?_) (by simp [here, unmarked])
        have ends : c = d := by simpa using congrArg (fun list => list.reverse.head?) eq
        rw [ends, unmarked] at here
        cases here

end Turning

/-! ## Turning the blocks of a list -/

section Lists

variable (separates marked : α → Bool)

/-- All blocks turned, except possibly the last one. -/
def turnEach (turnLast : Bool) : List (List α) → List (List α)
  | [] => []
  | [block] => [if turnLast then turnMarked marked block else block]
  | block :: next :: blocks => turnMarked marked block :: turnEach turnLast (next :: blocks)

/-- A list with its blocks turned, except possibly the last one. -/
def turnBlocks (turnLast : Bool) (list : List α) : List α :=
  interleave (turnEach marked turnLast (list.splitOnP separates)) (list.filter separates)

/-- A block with a marked element begins with one. -/
def LeadsMarked (block : List α) : Prop :=
  block.any marked = true → block.head?.any marked = true

/-- What turning all blocks but the last, reversing, and doing both again restores:
the first block is turned only the first time, and the last one only the second time. -/
def InitRestored (blocks : List (List α)) : Prop :=
  blocks.length = 1 ∨
    (∀ first ∈ blocks.head?, (first.dropWhile fun c => !marked c).reverse =
      first.dropWhile fun c => !marked c) ∧
    (∀ middle ∈ blocks.tail.dropLast, LeadsMarked marked middle) ∧
    ∀ last ∈ blocks.getLast?, (last.rdropWhile fun c => !marked c).reverse =
      last.rdropWhile fun c => !marked c

instance (block : List α) : Decidable (LeadsMarked marked block) :=
  inferInstanceAs (Decidable (_ → _))

instance [DecidableEq α] (blocks : List (List α)) : Decidable (InitRestored marked blocks) :=
  inferInstanceAs (Decidable (blocks.length = 1 ∨
    (∀ first ∈ blocks.head?, (first.dropWhile fun c => !marked c).reverse =
      first.dropWhile fun c => !marked c) ∧
    (∀ middle ∈ blocks.tail.dropLast, LeadsMarked marked middle) ∧
    ∀ last ∈ blocks.getLast?, (last.rdropWhile fun c => !marked c).reverse =
      last.rdropWhile fun c => !marked c))

variable {separates marked} {blocks : List (List α)} {separators : List α}

theorem turnEach_true (blocks : List (List α)) :
    turnEach marked true blocks = blocks.map (turnMarked marked) := by
  induction blocks with
  | nil => rfl
  | cons block blocks ih =>
      cases blocks with
      | nil => rfl
      | cons next blocks => rw [turnEach, ih]; rfl

theorem turnEach_false_concat (blocks : List (List α)) (last : List α) :
    turnEach marked false (blocks ++ [last]) = blocks.map (turnMarked marked) ++ [last] := by
  induction blocks with
  | nil => rfl
  | cons block blocks ih =>
      cases blocks with
      | nil => rfl
      | cons next blocks =>
          rw [List.cons_append, List.cons_append, turnEach, ← List.cons_append, ih]
          rfl

theorem Separated.turnEach (separated : Separated separates blocks separators)
    (turnLast : Bool) : Separated separates (turnEach marked turnLast blocks) separators := by
  have turned {block : List α} (clear : ∀ c ∈ block, separates c = false) :
      ∀ c ∈ turnMarked marked block, separates c = false :=
    fun c member => clear c ((turnMarked_perm block).mem_iff.mp member)
  induction separated with
  | single clear =>
      cases turnLast
      · exact .single clear
      · exact .single (turned clear)
  | cons clear separating rest ih =>
      cases rest with
      | single last => exact .cons (turned clear) separating ih
      | cons next more rest => exact .cons (turned clear) separating ih

theorem turnBlocks_interleave (separated : Separated separates blocks separators)
    (turnLast : Bool) :
    turnBlocks separates marked turnLast (interleave blocks separators) =
      interleave (turnEach marked turnLast blocks) separators := by
  rw [turnBlocks, splitOnP_interleave separated, filter_interleave separated]

theorem turnEach_perm (turnLast : Bool) (blocks : List (List α)) :
    List.Forall₂ List.Perm (turnEach marked turnLast blocks) blocks := by
  induction blocks with
  | nil => exact .nil
  | cons block blocks ih =>
      cases blocks with
      | nil =>
          cases turnLast
          · exact .cons (.refl _) .nil
          · exact .cons (turnMarked_perm block) .nil
      | cons next blocks => exact .cons (turnMarked_perm block) ih

theorem turnBlocks_perm (turnLast : Bool) (list : List α) :
    (turnBlocks separates marked turnLast list).Perm list := by
  conv_rhs => rw [← interleave_splitOnP separates list]
  exact interleave_perm (turnEach_perm turnLast _) _

/-- A list without marked elements has nothing to turn. -/
theorem turnBlocks_of_unmarked {list : List α} (unmarked : ∀ c ∈ list, marked c = false)
    (turnLast : Bool) : turnBlocks separates marked turnLast list = list := by
  obtain ⟨blocks, separators, separated, rfl⟩ := exists_interleave separates list
  rw [turnBlocks_interleave separated]
  congr 1
  induction separated with
  | @single block clear =>
      have only : turnMarked marked block = block := turnMarked_of_unmarked unmarked
      cases turnLast
      · rfl
      · rw [turnEach, if_pos rfl, only]
  | @cons block separator blocks separators clear separating rest ih =>
      have later := ih fun c member => unmarked c (by simp [interleave, member])
      have first : turnMarked marked block = block :=
        turnMarked_of_unmarked fun c member => unmarked c (by simp [interleave, member])
      cases rest <;> rw [turnEach, later, first]

/-- Reversing with turned blocks twice, seen block by block. -/
theorem turnBlocks_reverse_turnBlocks_iff (turnLast : Bool) (list : List α) :
    turnBlocks separates marked turnLast (turnBlocks separates marked turnLast list).reverse =
        list.reverse ↔
      turnEach marked turnLast ((turnEach marked turnLast (list.splitOnP separates)).map
        List.reverse).reverse = ((list.splitOnP separates).map List.reverse).reverse := by
  obtain ⟨blocks, separators, separated, rfl⟩ := exists_interleave separates list
  have turned : Separated separates (turnEach marked turnLast blocks) separators :=
    separated.turnEach turnLast
  rw [turnBlocks_interleave separated, reverse_interleave turned,
    turnBlocks_interleave turned.reverse, reverse_interleave separated,
    interleave_inj (turned.reverse.turnEach turnLast) separated.reverse,
    splitOnP_interleave separated]

theorem turnBlocks_true_twice_iff (list : List α) :
    turnBlocks separates marked true (turnBlocks separates marked true list).reverse =
        list.reverse ↔
      ∀ block ∈ list.splitOnP separates, LeadsMarked marked block := by
  rw [turnBlocks_reverse_turnBlocks_iff, turnEach_true, turnEach_true, List.map_reverse,
    List.reverse_inj, List.map_map, List.map_map, List.map_inj_left]
  exact forall₂_congr fun block _ => turnMarked_reverse_turnMarked_iff

theorem turnMarked_reverse_eq_iff {last : List α} :
    turnMarked marked last.reverse = last.reverse ↔
      (last.rdropWhile fun c => !marked c).reverse = last.rdropWhile fun c => !marked c := by
  rw [turnMarked_eq_self_iff, List.rdropWhile, List.reverse_reverse]
  exact eq_comm

theorem turnBlocks_false_twice_iff (list : List α) :
    turnBlocks separates marked false (turnBlocks separates marked false list).reverse =
        list.reverse ↔
      InitRestored marked (list.splitOnP separates) := by
  rw [turnBlocks_reverse_turnBlocks_iff]
  have nonempty : list.splitOnP separates ≠ [] := List.splitOnP_ne_nil _ _
  generalize list.splitOnP separates = blocks at nonempty
  rcases List.eq_nil_or_concat blocks with rfl | ⟨init, last, rfl⟩
  · exact absurd rfl nonempty
  · rw [List.concat_eq_append]
    cases init with
    | nil => simp [turnEach, InitRestored]
    | cons first middle =>
        have turned : (((first :: middle).map (turnMarked marked) ++ [last]).map
            List.reverse).reverse = (last.reverse :: (middle.map fun block =>
              (turnMarked marked block).reverse).reverse) ++
                [(turnMarked marked first).reverse] := by
          simp [Function.comp_def]
        have reversed : (((first :: middle) ++ [last]).map List.reverse).reverse =
            (last.reverse :: (middle.map List.reverse).reverse) ++ [first.reverse] := by
          simp
        have middleIff : (middle.map fun block => (turnMarked marked block).reverse).reverse.map
              (turnMarked marked) = (middle.map List.reverse).reverse ↔
            ∀ block ∈ middle, LeadsMarked marked block := by
          rw [List.map_reverse, List.reverse_inj, List.map_map, List.map_inj_left]
          exact forall₂_congr fun block _ => turnMarked_reverse_turnMarked_iff
        rw [turnEach_false_concat, turned, turnEach_false_concat, reversed,
          List.append_singleton_inj, List.map_cons, List.cons.injEq, turnMarked_reverse_eq_iff,
          middleIff, List.reverse_inj, turnMarked_eq_self_iff]
        have ends : ((first :: middle) ++ [last]).getLast? = some last := List.getLast?_concat
        rw [InitRestored, ends]
        simp only [List.cons_append, List.head?_cons, List.tail_cons, List.dropLast_concat,
          Option.mem_def, Option.some.injEq, forall_eq']
        constructor
        · rintro ⟨⟨lastKept, middleKept⟩, firstKept⟩
          exact Or.inr ⟨firstKept, middleKept, lastKept⟩
        · rintro (single | ⟨firstKept, middleKept, lastKept⟩)
          · simp at single
          · exact ⟨⟨lastKept, middleKept⟩, firstKept⟩

end Lists

/-! ## Neighbours in turned lists -/

section Neighbours

variable {separates marked : α → Bool} {blocks : List (List α)} {separators : List α} {a b : α}

/-- Neighbours that do not separate stand in one block. -/
theorem pair_infix_interleave (separated : Separated separates blocks separators)
    (notFirst : separates a = false) (notSecond : separates b = false) :
    [a, b] <:+: interleave blocks separators ↔ ∃ block ∈ blocks, [a, b] <:+: block := by
  induction separated with
  | single _ => simp [interleave]
  | @cons block separator blocks separators _ separating _ ih =>
      have differs {c : α} (not : separates c = false) : c ≠ separator := by
        rintro rfl
        rw [not] at separating
        cases separating
      rw [interleave, pair_infix_append_cons (differs notFirst) (differs notSecond), ih]
      simp

theorem infix_interleave (separated : Separated separates blocks separators) {block : List α}
    (member : block ∈ blocks) : block <:+: interleave blocks separators := by
  induction separated with
  | single _ =>
      obtain rfl := List.mem_singleton.mp member
      exact List.infix_rfl
  | cons _ _ _ ih =>
      rw [interleave]
      rcases List.mem_cons.mp member with rfl | later
      · exact List.infix_append_left
      · exact List.infix_append_of_infix_right (List.infix_cons (ih later))

/-- Neighbours from the first marked element on are turned round. -/
theorem pair_infix_turnMarked {block : List α} (neighbours : [a, b] <:+: block)
    (here : marked a = true) : [b, a] <:+: turnMarked marked block := by
  rcases marked_cases marked block with none | ⟨front, c, back, rfl, before, there⟩
  · rw [none a (neighbours.subset (by simp))] at here
    cases here
  · have outside : a ∉ front := by
      intro member
      rw [before a member] at here
      cases here
    rw [turnMarked_append before there]
    rcases List.infix_append_iff_ne_nil.mp neighbours with left | right | split
    · exact absurd (left.subset (by simp)) outside
    · exact List.infix_append_of_infix_right right.reverse
    · obtain ⟨first, second, some', -, eq, ends, -⟩ := split
      obtain ⟨x, first, rfl⟩ := List.exists_cons_of_ne_nil some'
      obtain ⟨rfl, -⟩ := List.cons.inj eq
      exact absurd (ends.subset (by simp)) outside

/-- The last element of a list is that of its last block, unless that block is empty. -/
theorem interleave_concat_append {init : List (List α)} {last : List α} {c : α}
    (separated : Separated separates (init ++ [last ++ [c]]) separators) :
    Separated separates (init ++ [last]) separators ∧
      interleave (init ++ [last ++ [c]]) separators =
        interleave (init ++ [last]) separators ++ [c] := by
  generalize blocksEq : init ++ [last ++ [c]] = blocks at separated
  induction separated generalizing init with
  | @single block clear =>
      cases init with
      | nil =>
          obtain ⟨rfl, -⟩ := List.cons.inj blocksEq
          exact ⟨.single fun e member => clear e (by simp [member]), rfl⟩
      | cons first init => simp at blocksEq
  | @cons block separator blocks separators clear separating rest ih =>
      cases init with
      | nil =>
          obtain ⟨-, rfl⟩ := List.cons.inj blocksEq
          cases rest
      | cons first init =>
          obtain ⟨rfl, later⟩ := List.cons.inj blocksEq
          obtain ⟨shorter, eq⟩ := ih later
          refine ⟨.cons clear separating shorter, ?_⟩
          rw [List.cons_append, interleave, interleave, eq, List.append_assoc, List.cons_append]

variable {init : List (List α)} {last : List α}

/-- Neighbours in a turned block are turned round; only the last block may be left alone. -/
theorem pair_infix_turnBlocks (separated : Separated separates (init ++ [last]) separators)
    (notFirst : separates a = false) (notSecond : separates b = false) (here : marked a = true)
    {turnLast : Bool} (turned : (∃ block ∈ init, [a, b] <:+: block) ∨
      (turnLast = true ∧ [a, b] <:+: last)) :
    [b, a] <:+: turnBlocks separates marked turnLast (interleave (init ++ [last]) separators) := by
  rw [turnBlocks_interleave separated,
    pair_infix_interleave (separated.turnEach turnLast) notSecond notFirst]
  have eachTurned : turnEach marked turnLast (init ++ [last]) =
      init.map (turnMarked marked) ++ [if turnLast then turnMarked marked last else last] := by
    cases turnLast
    · exact turnEach_false_concat init last
    · rw [turnEach_true]
      simp
  rw [eachTurned]
  rcases turned with ⟨block, member, neighbours⟩ | ⟨rfl, neighbours⟩
  · exact ⟨turnMarked marked block, List.mem_append_left _ (List.mem_map_of_mem member),
      pair_infix_turnMarked neighbours here⟩
  · exact ⟨turnMarked marked last, by simp, pair_infix_turnMarked neighbours here⟩

/-- Neighbours in a last block that is left alone stay. -/
theorem pair_infix_turnBlocks_last (separated : Separated separates (init ++ [last]) separators)
    (notFirst : separates a = false) (notSecond : separates b = false)
    (neighbours : [a, b] <:+: last) :
    [a, b] <:+: turnBlocks separates marked false (interleave (init ++ [last]) separators) := by
  rw [turnBlocks_interleave separated,
    pair_infix_interleave (separated.turnEach false) notFirst notSecond, turnEach_false_concat]
  exact ⟨last, by simp, neighbours⟩

end Neighbours

/-! ## Ends and images of turned lists -/

section Ends

variable {separates marked : α → Bool} {blocks : List (List α)} {separators : List α}

theorem head?_interleave {block : List α} (blocks : List (List α)) (separators : List α) :
    (interleave (block :: blocks) separators).head? = block.head?.or separators.head? := by
  cases separators <;> cases block <;> simp [interleave]

theorem getLast?_interleave {last : List α}
    (separated : Separated separates (blocks ++ [last]) separators) :
    (interleave (blocks ++ [last]) separators).getLast? =
      last.getLast?.or separators.getLast? := by
  rw [← List.head?_reverse, reverse_interleave separated, List.map_append, List.reverse_append,
    List.map_singleton, List.reverse_singleton, List.singleton_append, head?_interleave,
    List.head?_reverse, List.head?_reverse]

/-- The last element stays when the last block is not turned. -/
theorem getLast?_turnBlocks_false (list : List α) :
    (turnBlocks separates marked false list).getLast? = list.getLast? := by
  obtain ⟨blocks, separators, separated, rfl⟩ := exists_interleave separates list
  have turned : Separated separates (turnEach marked false blocks) separators :=
    separated.turnEach false
  rw [turnBlocks_interleave separated]
  rcases List.eq_nil_or_concat blocks with rfl | ⟨init, last, rfl⟩
  · rfl
  · rw [List.concat_eq_append] at separated turned ⊢
    rw [turnEach_false_concat] at turned ⊢
    rw [getLast?_interleave turned, getLast?_interleave separated]

/-- When the last block is turned, the last element stays if that block is unmarked, and is
otherwise replaced by a marked one. -/
theorem getLast?_turnBlocks_true (list : List α) :
    ((∀ last ∈ (list.splitOnP separates).getLast?, last.any marked = false) ∧
        (turnBlocks separates marked true list).getLast? = list.getLast?) ∨
      ((¬ ∀ last ∈ (list.splitOnP separates).getLast?, last.any marked = false) ∧
        ∃ c, (turnBlocks separates marked true list).getLast? = some c ∧ marked c = true) := by
  obtain ⟨blocks, separators, separated, rfl⟩ := exists_interleave separates list
  have turned : Separated separates (turnEach marked true blocks) separators :=
    separated.turnEach true
  rw [turnBlocks_interleave separated, splitOnP_interleave separated]
  rcases List.eq_nil_or_concat blocks with rfl | ⟨init, last, rfl⟩
  · cases separated
  · rw [List.concat_eq_append] at separated turned ⊢
    rw [turnEach_true, List.map_append, List.map_singleton] at turned ⊢
    rw [getLast?_interleave turned, getLast?_interleave separated, List.getLast?_concat]
    rcases marked_cases marked last with none | ⟨front, c, back, rfl, before, here⟩
    · left
      refine ⟨by simpa using none, ?_⟩
      rw [turnMarked_of_unmarked none]
    · right
      refine ⟨fun unmarked => ?_, c, ?_, here⟩
      · have clear := unmarked _ rfl
        simp [here] at clear
      · rw [turnMarked_append before here]
        simp

/-- An unmarked first element stays. -/
theorem head?_turnBlocks (turnLast : Bool) {list : List α}
    (unmarked : ∀ c ∈ list.head?, marked c = false) :
    (turnBlocks separates marked turnLast list).head? = list.head? := by
  have turns {block : List α} (first : ∀ c ∈ block.head?, marked c = false) :
      (turnMarked marked block).head? = block.head? := by
    cases block with
    | nil => rfl
    | cons c rest => simp [turnMarked, first c (by simp)]
  obtain ⟨blocks, separators, separated, rfl⟩ := exists_interleave separates list
  rw [turnBlocks_interleave separated]
  cases blocks with
  | nil => rfl
  | cons block blocks =>
      rw [head?_interleave] at unmarked
      have first : ∀ c ∈ block.head?, marked c = false :=
        fun c member => unmarked c (by simp at member; simp [member])
      cases blocks with
      | nil =>
          cases turnLast
          · rfl
          · rw [turnEach, if_pos rfl, head?_interleave, head?_interleave, turns first]
      | cons next blocks => rw [turnEach, head?_interleave, head?_interleave, turns first]

variable {f : α → α}

theorem turnMarked_map (keeps : ∀ c, marked (f c) = marked c) (block : List α) :
    turnMarked marked (block.map f) = (turnMarked marked block).map f := by
  have same : (fun c => !marked c) ∘ f = fun c => !marked c := by
    funext c
    simp [keeps]
  rw [turnMarked, turnMarked, List.takeWhile_map, List.dropWhile_map, same, List.map_append,
    List.map_reverse]

/-- Turning commutes with maps that keep separators and marks. -/
theorem turnBlocks_map (separatesEq : ∀ c, separates (f c) = separates c)
    (markedEq : ∀ c, marked (f c) = marked c) (turnLast : Bool) (list : List α) :
    turnBlocks separates marked turnLast (list.map f) =
      (turnBlocks separates marked turnLast list).map f := by
  have turnedEach (blocks : List (List α)) :
      turnEach marked turnLast (blocks.map (List.map f)) =
        (turnEach marked turnLast blocks).map (List.map f) := by
    induction blocks with
    | nil => rfl
    | cons block blocks ih =>
        cases blocks with
        | nil => cases turnLast <;> simp [turnEach, turnMarked_map markedEq]
        | cons next blocks =>
            rw [List.map_cons] at ih
            rw [List.map_cons, List.map_cons, turnEach, turnEach, List.map_cons, ← ih,
              turnMarked_map markedEq]
  obtain ⟨blocks, separators, separated, rfl⟩ := exists_interleave separates list
  have turned : Separated separates (turnEach marked turnLast blocks) separators :=
    separated.turnEach turnLast
  rw [← (separated.map separatesEq).2, turnBlocks_interleave (separated.map separatesEq).1,
    turnedEach, turnBlocks_interleave separated, (turned.map separatesEq).2]

end Ends

end BlockReversal
