import Mathlib

/-!
# Byte memory with a readable window and a store log

Programs that walk buffers through raw pointers are modelled over a total byte
memory.  A load is confined to a window of readable addresses, so that running
past a buffer is an observable fault, while every store succeeds and is
recorded, so that the set of written addresses can be stated afterwards.
Addresses are integers: a pointer may be stepped below the buffer it came from.
-/

namespace ByteMemory

/-- Reasons for which an execution has no result. -/
inductive Fault
  | load (address : Int)
  | outOfFuel
  deriving DecidableEq, Repr

structure Memory where
  byte : Int → UInt8
  /-- Readable addresses are those of `[low, high)`. -/
  low : Int
  high : Int
  /-- Addresses stored to, most recent first. -/
  stores : List Int

namespace Memory

def load (m : Memory) (address : Int) : Except Fault UInt8 :=
  if m.low ≤ address ∧ address < m.high then .ok (m.byte address) else .error (.load address)

def store (m : Memory) (address : Int) (value : UInt8) : Memory :=
  { m with
    byte := Function.update m.byte address value
    stores := address :: m.stores }

theorem load_of_mem {m : Memory} {address : Int}
    (above : m.low ≤ address) (below : address < m.high) :
    m.load address = .ok (m.byte address) := by
  simp [load, above, below]

theorem load_of_high_le {m : Memory} {address : Int} (beyond : m.high ≤ address) :
    m.load address = .error (.load address) := by
  have outside : ¬ (m.low ≤ address ∧ address < m.high) := by omega
  simp [load, outside]

@[simp] theorem store_low (m : Memory) (address : Int) (value : UInt8) :
    (m.store address value).low = m.low := rfl

@[simp] theorem store_high (m : Memory) (address : Int) (value : UInt8) :
    (m.store address value).high = m.high := rfl

@[simp] theorem store_stores (m : Memory) (address : Int) (value : UInt8) :
    (m.store address value).stores = address :: m.stores := rfl

@[simp] theorem store_byte_self (m : Memory) (address : Int) (value : UInt8) :
    (m.store address value).byte address = value := by
  simp [store]

theorem store_byte_of_ne (m : Memory) {address other : Int} (value : UInt8)
    (different : other ≠ address) :
    (m.store address value).byte other = m.byte other := by
  simp [store, different]

/-- A memory that holds `bytes` from `base` on, readable exactly there. -/
def ofBytes (base : Int) (bytes : List UInt8) : Memory where
  byte address := bytes.getD (address - base).toNat 0
  low := base
  high := base + bytes.length
  stores := []

end Memory

/-- The byte string `bytes` stands in memory from `address` on. -/
def Spells (byte : Int → UInt8) (address : Int) : List UInt8 → Prop
  | [] => True
  | value :: bytes => byte address = value ∧ Spells byte (address + 1) bytes

instance decidableSpells (byte : Int → UInt8) :
    (address : Int) → (bytes : List UInt8) → Decidable (Spells byte address bytes)
  | _, [] => .isTrue trivial
  | address, value :: bytes =>
      have := decidableSpells byte (address + 1) bytes
      inferInstanceAs (Decidable (byte address = value ∧ Spells byte (address + 1) bytes))

@[simp] theorem spells_nil (byte : Int → UInt8) (address : Int) :
    Spells byte address [] := trivial

@[simp] theorem spells_cons (byte : Int → UInt8) (address : Int)
    (value : UInt8) (bytes : List UInt8) :
    Spells byte address (value :: bytes) ↔
      byte address = value ∧ Spells byte (address + 1) bytes := Iff.rfl

theorem spells_append (byte : Int → UInt8) (address : Int) (first second : List UInt8) :
    Spells byte address (first ++ second) ↔
      Spells byte address first ∧ Spells byte (address + first.length) second := by
  induction first generalizing address with
  | nil => simp
  | cons value first ih =>
      have shift : address + 1 + (first.length : Int) =
          address + ((value :: first).length : Int) := by
        simp only [List.length_cons]
        push_cast
        omega
      rw [List.cons_append, spells_cons, spells_cons, ih, shift, and_assoc]

theorem Spells.congr {byte other : Int → UInt8} {address : Int} {bytes : List UInt8}
    (spelled : Spells byte address bytes)
    (agree : ∀ a, address ≤ a → a < address + bytes.length → other a = byte a) :
    Spells other address bytes := by
  induction bytes generalizing address with
  | nil => trivial
  | cons value bytes ih =>
      obtain ⟨head, tail⟩ := spelled
      simp only [List.length_cons] at agree
      push_cast at agree
      refine ⟨(agree address (by omega) (by omega)).trans head, ih tail ?_⟩
      intro a above below
      exact agree a (by omega) (by omega)

theorem spells_ofBytes (base : Int) (bytes : List UInt8) :
    Spells (Memory.ofBytes base bytes).byte base bytes := by
  have shifted (front : List UInt8) : Spells (Memory.ofBytes base (front ++ bytes)).byte
      (base + front.length) bytes := by
    induction bytes generalizing front with
    | nil => trivial
    | cons value bytes ih =>
        refine ⟨by simp [Memory.ofBytes], ?_⟩
        have later := ih (front ++ [value])
        rwa [List.append_assoc, List.length_append, Int.natCast_add, ← Int.add_assoc] at later
  simpa using shifted []

/-- A spelled string determines the bytes it occupies. -/
theorem Spells.byte_eq {byte other : Int → UInt8} {address : Int} {bytes : List UInt8}
    (spelled : Spells byte address bytes) (also : Spells other address bytes)
    {a : Int} (above : address ≤ a) (below : a < address + bytes.length) :
    byte a = other a := by
  induction bytes generalizing address with
  | nil => simp at below; omega
  | cons value bytes ih =>
      obtain ⟨head, tail⟩ := spelled
      obtain ⟨otherHead, otherTail⟩ := also
      by_cases here : a = address
      · subst here
        exact head.trans otherHead.symm
      · simp only [List.length_cons] at below
        push_cast at below
        exact ih tail otherTail (by omega) (by omega)

/-- Two strings of one length spelled at one address are equal. -/
theorem Spells.unique {byte : Int → UInt8} {address : Int} {first second : List UInt8}
    (one : Spells byte address first) (two : Spells byte address second)
    (lengthEq : first.length = second.length) : first = second := by
  induction first generalizing address second with
  | nil => exact (List.eq_nil_of_length_eq_zero lengthEq.symm).symm
  | cons value first ih =>
      cases second with
      | nil => simp at lengthEq
      | cons other second =>
          obtain ⟨head, tail⟩ := one
          obtain ⟨otherHead, otherTail⟩ := two
          rw [← head, otherHead, ih tail otherTail (by simpa using lengthEq)]

/-- The second memory differs from the first only by stores into `[low, high)`. -/
structure StoresWithin (low high : Int) (before after : Memory) : Prop where
  low_eq : after.low = before.low
  high_eq : after.high = before.high
  byte_eq : ∀ a, a < low ∨ high ≤ a → after.byte a = before.byte a
  stores_eq : ∃ added, after.stores = added ++ before.stores ∧
    ∀ a ∈ added, low ≤ a ∧ a < high

namespace StoresWithin

theorem refl (low high : Int) (m : Memory) : StoresWithin low high m m :=
  ⟨rfl, rfl, fun _ _ => rfl, [], rfl, by simp⟩

theorem trans {low high : Int} {first second third : Memory}
    (one : StoresWithin low high first second) (two : StoresWithin low high second third) :
    StoresWithin low high first third := by
  obtain ⟨added, addedEq, addedIn⟩ := one.stores_eq
  obtain ⟨more, moreEq, moreIn⟩ := two.stores_eq
  refine ⟨two.low_eq.trans one.low_eq, two.high_eq.trans one.high_eq, ?_, more ++ added, ?_, ?_⟩
  · intro a outside
    exact (two.byte_eq a outside).trans (one.byte_eq a outside)
  · rw [moreEq, addedEq, List.append_assoc]
  · intro a member
    rcases List.mem_append.mp member with inMore | inAdded
    · exact moreIn a inMore
    · exact addedIn a inAdded

theorem mono {low high low' high' : Int} {before after : Memory}
    (within : StoresWithin low high before after) (lower : low' ≤ low) (upper : high ≤ high') :
    StoresWithin low' high' before after := by
  obtain ⟨added, addedEq, addedIn⟩ := within.stores_eq
  refine ⟨within.low_eq, within.high_eq, ?_, added, addedEq, ?_⟩
  · intro a outside
    exact within.byte_eq a (by omega)
  · intro a member
    have := addedIn a member
    omega

theorem store {low high : Int} (m : Memory) {address : Int} (value : UInt8)
    (above : low ≤ address) (below : address < high) :
    StoresWithin low high m (m.store address value) := by
  refine ⟨rfl, rfl, ?_, [address], rfl, ?_⟩
  · intro a outside
    exact m.store_byte_of_ne value (by omega)
  · intro a member
    rw [List.mem_singleton] at member
    omega

/-- Strings that stand clear of the stored-to window are kept. -/
theorem spells {low high : Int} {before after : Memory} {address : Int} {bytes : List UInt8}
    (within : StoresWithin low high before after) (spelled : Spells before.byte address bytes)
    (clear : address + bytes.length ≤ low ∨ high ≤ address) :
    Spells after.byte address bytes := by
  apply spelled.congr
  intro a above below
  exact within.byte_eq a (by omega)

end StoresWithin

/-- The second memory differs from the first only by stores below `bound`. -/
structure StoresBelow (bound : Int) (before after : Memory) : Prop where
  low_eq : after.low = before.low
  high_eq : after.high = before.high
  byte_eq : ∀ a, bound ≤ a → after.byte a = before.byte a
  stores_eq : ∃ added, after.stores = added ++ before.stores ∧ ∀ a ∈ added, a < bound

theorem StoresWithin.below {low high bound : Int} {before after : Memory}
    (within : StoresWithin low high before after) (upper : high ≤ bound) :
    StoresBelow bound before after := by
  obtain ⟨added, addedEq, addedIn⟩ := within.stores_eq
  refine ⟨within.low_eq, within.high_eq, ?_, added, addedEq, ?_⟩
  · intro a above
    exact within.byte_eq a (by omega)
  · intro a member
    have := addedIn a member
    omega

namespace StoresBelow

theorem refl (bound : Int) (m : Memory) : StoresBelow bound m m :=
  ⟨rfl, rfl, fun _ _ => rfl, [], rfl, by simp⟩

theorem trans {bound : Int} {first second third : Memory} (one : StoresBelow bound first second)
    (two : StoresBelow bound second third) : StoresBelow bound first third := by
  obtain ⟨added, addedEq, addedIn⟩ := one.stores_eq
  obtain ⟨more, moreEq, moreIn⟩ := two.stores_eq
  refine ⟨two.low_eq.trans one.low_eq, two.high_eq.trans one.high_eq, ?_, more ++ added, ?_, ?_⟩
  · intro a above
    exact (two.byte_eq a above).trans (one.byte_eq a above)
  · rw [moreEq, addedEq, List.append_assoc]
  · intro a member
    rcases List.mem_append.mp member with inMore | inAdded
    · exact moreIn a inMore
    · exact addedIn a inAdded

theorem mono {bound bound' : Int} {before after : Memory} (below : StoresBelow bound before after)
    (upper : bound ≤ bound') : StoresBelow bound' before after := by
  obtain ⟨added, addedEq, addedIn⟩ := below.stores_eq
  refine ⟨below.low_eq, below.high_eq, fun a above => below.byte_eq a (by omega),
    added, addedEq, ?_⟩
  intro a member
  have := addedIn a member
  omega

theorem spells {bound address : Int} {before after : Memory} {bytes : List UInt8}
    (below : StoresBelow bound before after) (spelled : Spells before.byte address bytes)
    (clear : bound ≤ address) : Spells after.byte address bytes := by
  apply spelled.congr
  intro a above _
  exact below.byte_eq a (by omega)

end StoresBelow

end ByteMemory
