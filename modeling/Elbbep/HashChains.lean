import Mathlib

/-!
# Hash tables by separate chaining

A table of items that are grouped by their hash values into chains, as it is laid
out in a file: the chains stand one behind the other, and a directory says where each
of them begins.  All items are encoded with the same width.
-/

namespace HashChains

variable {α β γ : Type} (hash : α → Nat) (encode : α → List β)

/-- The items with a hash value, in their order. -/
def bucket (items : List α) (index : Nat) : List α :=
  items.filter fun item => hash item == index

/-- The items of all buckets one after the other. -/
def inBucketOrder (size : Nat) (items : List α) : List α :=
  (List.range size).flatMap (bucket hash items)

def chain (items : List α) (index : Nat) : List β :=
  (bucket hash items index).flatMap encode

def chains (size : Nat) (items : List α) : List β :=
  (List.range size).flatMap (chain hash encode items)

/-- Where a chain begins. -/
def chainOffset (items : List α) (index : Nat) : Nat :=
  (chains hash encode index items).length

variable {hash encode} {items : List α} {size : Nat}

theorem mem_bucket {item : α} {index : Nat} :
    item ∈ bucket hash items index ↔ item ∈ items ∧ hash item = index := by
  simp [bucket]

theorem bucket_cons (item : α) (items : List α) (index : Nat) :
    bucket hash (item :: items) index =
      if hash item = index then item :: bucket hash items index else bucket hash items index := by
  simp [bucket, List.filter_cons]

theorem bucket_append (items others : List α) (index : Nat) :
    bucket hash (items ++ others) index = bucket hash items index ++ bucket hash others index := by
  simp [bucket]

theorem inBucketOrder_succ (size : Nat) (items : List α) :
    inBucketOrder hash (size + 1) items =
      inBucketOrder hash size items ++ bucket hash items size := by
  simp [inBucketOrder, List.range_succ]

theorem chains_succ (size : Nat) (items : List α) :
    chains hash encode (size + 1) items =
      chains hash encode size items ++ chain hash encode items size := by
  simp [chains, List.range_succ]

theorem chains_eq_flatMap (size : Nat) (items : List α) :
    chains hash encode size items = (inBucketOrder hash size items).flatMap encode := by
  rw [chains, inBucketOrder, List.flatMap_assoc]
  rfl

theorem chainOffset_succ (items : List α) (index : Nat) :
    chainOffset hash encode items (index + 1) =
      chainOffset hash encode items index + (chain hash encode items index).length := by
  rw [chainOffset, chains_succ, List.length_append, chainOffset]

/-- The buckets below a bound hold the items with a hash value below it. -/
theorem inBucketOrder_perm_filter (hash : α → Nat) (size : Nat) (items : List α) :
    (inBucketOrder hash size items).Perm (items.filter fun item => hash item < size) := by
  induction size with
  | zero => simp [inBucketOrder]
  | succ size ih =>
      rw [inBucketOrder_succ]
      refine (ih.append_right _).trans ?_
      have below : items.filter (fun item => hash item < size) =
          (items.filter fun item => hash item < size + 1).filter fun item => hash item < size := by
        rw [List.filter_filter]
        apply List.filter_congr
        intro item _
        rw [← Bool.decide_and]
        apply decide_eq_decide.mpr
        omega
      have here : bucket hash items size =
          (items.filter fun item => hash item < size + 1).filter fun item =>
            !(hash item < size) := by
        rw [bucket, List.filter_filter]
        apply List.filter_congr
        intro item _
        rw [← decide_not, ← Bool.decide_and, beq_eq_decide]
        apply decide_eq_decide.mpr
        omega
      rw [below, here]
      exact List.filter_append_perm _ _

/-- The buckets hold all items. -/
theorem inBucketOrder_perm (inRange : ∀ item ∈ items, hash item < size) :
    (inBucketOrder hash size items).Perm items := by
  have all : items.filter (fun item => hash item < size) = items :=
    List.filter_eq_self.mpr fun item member => decide_eq_true (inRange item member)
  have perm := inBucketOrder_perm_filter hash size items
  rwa [all] at perm

/-- Each chain stands at its offset. -/
theorem exists_drop_chains (hash : α → Nat) (encode : α → List β) {index : Nat}
    (inRange : index < size) (items : List α) (rest : List β) :
    ∃ more, (chains hash encode size items ++ rest).drop (chainOffset hash encode items index) =
      chain hash encode items index ++ more := by
  obtain ⟨later, rfl⟩ := Nat.exists_eq_add_of_lt inRange
  refine ⟨(List.range' (index + 1) later).flatMap (chain hash encode items) ++ rest, ?_⟩
  have split : List.range (index + later + 1) =
      List.range index ++ index :: List.range' (index + 1) later := by
    have lengthEq : index + later + 1 = index + (later + 1) := by omega
    rw [List.range_eq_range', List.range_eq_range', lengthEq, ← List.range'_append_1]
    simp [List.range'_succ]
  rw [chainOffset, chains, chains, split, List.flatMap_append, List.flatMap_cons,
    List.append_assoc, List.append_assoc]
  exact List.drop_left

section Width

variable {width : Nat} (uniform : ∀ item ∈ items, (encode item).length = width)

include uniform

theorem length_flatMap_uniform : (items.flatMap encode).length = width * items.length := by
  induction items with
  | nil => rfl
  | cons item items ih =>
      rw [List.flatMap_cons, List.length_append, uniform item (by simp),
        ih fun other member => uniform other (by simp [member]), List.length_cons, Nat.mul_succ]
      omega

theorem drop_flatMap_uniform (position : Nat) :
    (items.flatMap encode).drop (position * width) = (items.drop position).flatMap encode := by
  induction items generalizing position with
  | nil => simp
  | cons item items ih =>
      cases position with
      | zero => simp
      | succ position =>
          have here : (encode item).length = width := uniform item (by simp)
          have later := ih (fun other member => uniform other (by simp [member])) position
          rw [List.flatMap_cons, List.drop_succ_cons, ← later, Nat.succ_mul, Nat.add_comm, ← here,
            List.drop_append]
          simp

/-- The encoding of an item stands at its position. -/
theorem take_drop_flatMap {position : Nat} {item : α} (here : items[position]? = some item)
    (rest : List β) :
    ((items.flatMap encode ++ rest).drop (position * width)).take width = encode item := by
  obtain ⟨bound, rfl⟩ := List.getElem?_eq_some_iff.mp here
  have short : position * width ≤ (items.flatMap encode).length := by
    rw [length_flatMap_uniform uniform, Nat.mul_comm]
    exact Nat.mul_le_mul_left width bound.le
  rw [List.drop_append_of_le_length short, drop_flatMap_uniform uniform,
    List.drop_eq_getElem_cons bound, List.flatMap_cons, List.append_assoc]
  rw [← uniform _ (List.getElem_mem bound)]
  exact List.take_left

/-- The encoding of an item stands in its chain. -/
theorem take_drop_chains {index position : Nat} {item : α} (inRange : index < size)
    (here : (bucket hash items index)[position]? = some item) (rest : List β) :
    ((chains hash encode size items ++ rest).drop
      (chainOffset hash encode items index + position * width)).take width = encode item := by
  obtain ⟨more, atChain⟩ := exists_drop_chains hash encode inRange items rest
  rw [← List.drop_drop, atChain]
  exact take_drop_flatMap (fun other member => uniform other (mem_bucket.mp member).1) here more

end Width

section Loops

variable {m : Type → Type} [Monad m] [LawfulMonad m]

/-- A loop over chains is a loop over all their items. -/
theorem foldlM_flatMap {indices : List Nat} {chainOf : Nat → List α} {step : γ → Nat → m γ}
    {f : γ → α → m γ}
    (steps : ∀ index ∈ indices, ∀ acc, step acc index = (chainOf index).foldlM f acc) (init : γ) :
    indices.foldlM step init = (indices.flatMap chainOf).foldlM f init := by
  induction indices generalizing init with
  | nil => rfl
  | cons index indices ih =>
      rw [List.flatMap_cons, List.foldlM_append, List.foldlM_cons, steps index (by simp)]
      exact bind_congr fun acc => ih (fun other member => steps other (by simp [member])) acc

/-- A loop over positions that reads the items of a list is a loop over the list. -/
theorem foldlM_range {read : Nat → m α} (reads : ∀ position item,
      items[position]? = some item → read position = pure item) (f : γ → α → m γ) (init : γ) :
    (List.range items.length).foldlM (fun acc position => read position >>= f acc) init =
      items.foldlM f init := by
  induction items generalizing read init with
  | nil => rfl
  | cons item items ih =>
      rw [List.length_cons, List.range_succ_eq_map, List.foldlM_cons, List.foldlM_cons,
        reads 0 item rfl, pure_bind]
      apply bind_congr
      intro acc
      rw [List.foldlM_map]
      exact ih (fun position other here => reads (position + 1) other here) acc

/-- Reading the positions of a list gives the list. -/
theorem mapM_range {read : Nat → m α} (reads : ∀ position item,
      items[position]? = some item → read position = pure item) :
    (List.range items.length).mapM read = pure items := by
  induction items generalizing read with
  | nil => rfl
  | cons item items ih =>
      have later : (List.range items.length).mapM (fun position => read (position + 1)) =
          pure items := ih fun position other here => reads (position + 1) other here
      rw [List.length_cons, List.range_succ_eq_map, List.mapM_cons, reads 0 item rfl, pure_bind,
        List.mapM_map]
      change (do
        let others ← (List.range items.length).mapM (fun position => read (position + 1))
        pure (item :: others)) = _
      rw [later, pure_bind]

end Loops

/-- Different values for the places of all buckets need room. -/
theorem sum_le_of_injective {size low high : Nat} {count : Nat → Nat} (value : Nat → Nat → Nat)
    (bounds : ∀ index < size, ∀ place < count index,
      low ≤ value index place ∧ value index place ≤ high)
    (injective : ∀ index < size, ∀ place < count index, ∀ other < size, ∀ otherPlace < count other,
      value index place = value other otherPlace → index = other ∧ place = otherPlace) :
    ∑ index ∈ Finset.range size, count index ≤ high + 1 - low := by
  let spots := (Finset.range size).sigma fun index => Finset.range (count index)
  have card : spots.card = ∑ index ∈ Finset.range size, count index := by
    simp [spots, Finset.card_sigma]
  have mem_spots {spot : (_ : Nat) × Nat} (member : spot ∈ spots) :
      spot.1 < size ∧ spot.2 < count spot.1 := by
    simpa [spots] using member
  rw [← card, ← Nat.card_Ico]
  apply Finset.card_le_card_of_injOn fun spot => value spot.1 spot.2
  · intro spot member
    obtain ⟨inRange, inside⟩ := mem_spots member
    have bound := bounds spot.1 inRange spot.2 inside
    exact Finset.mem_coe.mpr (Finset.mem_Ico.mpr ⟨bound.1, Nat.lt_succ_of_le bound.2⟩)
  · intro spot member other otherMember eq
    obtain ⟨inRange, inside⟩ := mem_spots member
    obtain ⟨otherRange, otherInside⟩ := mem_spots otherMember
    obtain ⟨same, samePlace⟩ :=
      injective spot.1 inRange spot.2 inside other.1 otherRange other.2 otherInside eq
    exact Sigma.ext same (heq_of_eq samePlace)

end HashChains
