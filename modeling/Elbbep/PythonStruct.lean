import Mathlib

/-!
# Little-endian record packing

The standard-size little-endian formats of Python's `struct` module, one
function per format character, together with the fixed-width reads that undo
them.  A value outside its format's range raises `struct.error`.
-/

namespace PythonStruct

/-- The exceptions a packing program can end with. -/
inductive PyError
  | structError
  | assertionError
  | stopIteration
  | indexError
  | valueError
  | keyError
  | zeroDivisionError
  | exception
  deriving DecidableEq, Repr

def u16 (b0 b1 : UInt8) : Nat :=
  b0.toNat + 256 * b1.toNat

def u32 (b0 b1 b2 b3 : UInt8) : Nat :=
  b0.toNat + 256 * b1.toNat + 65536 * b2.toNat + 16777216 * b3.toNat

/-- A byte as a two's complement integer. -/
def i8 (b0 : UInt8) : Int :=
  if b0.toNat < 128 then b0.toNat else (b0.toNat : Int) - 256

/-- Format `B`. -/
def packB (value : Int) : Except PyError (List UInt8) :=
  if 0 ≤ value ∧ value < 256 then .ok [UInt8.ofNat value.toNat] else .error .structError

/-- Format `b`. -/
def packSignedB (value : Int) : Except PyError (List UInt8) :=
  if -128 ≤ value ∧ value < 128 then .ok [UInt8.ofNat (value % 256).toNat]
  else .error .structError

/-- Format `H`. -/
def packH (value : Int) : Except PyError (List UInt8) :=
  if 0 ≤ value ∧ value < 65536 then
    .ok [UInt8.ofNat value.toNat, UInt8.ofNat (value.toNat / 256)]
  else .error .structError

/-- Format `L`. -/
def packL (value : Int) : Except PyError (List UInt8) :=
  if 0 ≤ value ∧ value < 4294967296 then
    .ok [UInt8.ofNat value.toNat, UInt8.ofNat (value.toNat / 256),
      UInt8.ofNat (value.toNat / 65536), UInt8.ofNat (value.toNat / 16777216)]
  else .error .structError

/-- The bytes of a value in format `H`. -/
def encodeH (value : Nat) : List UInt8 :=
  [UInt8.ofNat value, UInt8.ofNat (value / 256)]

/-- The bytes of a value in format `L`. -/
def encodeL (value : Nat) : List UInt8 :=
  [UInt8.ofNat value, UInt8.ofNat (value / 256), UInt8.ofNat (value / 65536),
    UInt8.ofNat (value / 16777216)]

/-- `bytes[start:stop]`. -/
def slice {α : Type} (bytes : List α) (start stop : Nat) : List α :=
  (bytes.take stop).drop start

theorem slice_eq_take_drop {α : Type} (bytes : List α) (start length : Nat) :
    slice bytes start (start + length) = (bytes.drop start).take length := by
  rw [slice, List.drop_take, Nat.add_sub_cancel_left]

theorem packB_natCast (value : Nat) :
    packB value = if value < 256 then .ok [UInt8.ofNat value] else .error .structError := by
  simp [packB]

theorem packH_natCast (value : Nat) :
    packH value = if value < 65536 then .ok (encodeH value) else .error .structError := by
  simp [packH, encodeH]

theorem packL_natCast (value : Nat) :
    packL value = if value < 4294967296 then .ok (encodeL value) else .error .structError := by
  simp [packL, encodeL]

theorem toNat_ofNat_byte {value : Nat} (small : value < 256) :
    (UInt8.ofNat value).toNat = value := by
  rw [UInt8.toNat_ofNat']
  omega

theorem u16_encodeH {value : Nat} (small : value < 65536) :
    u16 (UInt8.ofNat value) (UInt8.ofNat (value / 256)) = value := by
  rw [u16, UInt8.toNat_ofNat', UInt8.toNat_ofNat']
  omega

theorem u32_encodeL {value : Nat} (small : value < 4294967296) :
    u32 (UInt8.ofNat value) (UInt8.ofNat (value / 256)) (UInt8.ofNat (value / 65536))
      (UInt8.ofNat (value / 16777216)) = value := by
  rw [u32, UInt8.toNat_ofNat', UInt8.toNat_ofNat', UInt8.toNat_ofNat', UInt8.toNat_ofNat']
  omega

theorem packB_ok {value : Int} {bytes : List UInt8} (packed : packB value = .ok bytes) :
    ∃ b0, bytes = [b0] ∧ (b0.toNat : Int) = value := by
  unfold packB at packed
  split at packed
  · refine ⟨_, (Except.ok.inj packed).symm, ?_⟩
    rw [UInt8.toNat_ofNat']
    omega
  · cases packed

theorem packSignedB_ok {value : Int} {bytes : List UInt8}
    (packed : packSignedB value = .ok bytes) :
    ∃ b0, bytes = [b0] ∧ i8 b0 = value := by
  unfold packSignedB at packed
  split at packed
  · refine ⟨_, (Except.ok.inj packed).symm, ?_⟩
    unfold i8
    rw [UInt8.toNat_ofNat']
    split_ifs <;> omega
  · cases packed

theorem packH_ok {value : Int} {bytes : List UInt8} (packed : packH value = .ok bytes) :
    ∃ b0 b1, bytes = [b0, b1] ∧ (u16 b0 b1 : Int) = value := by
  unfold packH at packed
  split at packed
  · refine ⟨_, _, (Except.ok.inj packed).symm, ?_⟩
    unfold u16
    rw [UInt8.toNat_ofNat', UInt8.toNat_ofNat']
    omega
  · cases packed

theorem packSignedB_error {value : Int} {error : PyError}
    (run : packSignedB value = .error error) :
    error = .structError ∧ (value < -128 ∨ 127 < value) := by
  unfold packSignedB at run
  split at run
  · cases run
  · exact ⟨(Except.error.inj run).symm, by omega⟩

/-- A packing program that succeeds has run each of its parts. -/
theorem bind_ok {ε α β : Type} {first : Except ε α} {rest : α → Except ε β} {result : β}
    (run : first.bind rest = .ok result) :
    ∃ value, first = .ok value ∧ rest value = .ok result := by
  cases first with
  | error e => cases run
  | ok value => exact ⟨value, rfl, run⟩

theorem ok_bind {ε α β : Type} {first : Except ε α} {rest : α → Except ε β} {value : α}
    (run : first = .ok value) : (first >>= rest) = rest value := by
  rw [run]
  rfl

/-- A run that succeeds, when its result has no other name. -/
theorem eq_ok_of_isOk {ε α : Type} {run : Except ε α} (succeeds : run.isOk = true) (default : α) :
    run = .ok (run.toOption.getD default) := by
  cases run with
  | error error => cases succeeds
  | ok result => rfl

theorem mapM_ok {ε α β : Type} {f : α → Except ε β} {items : List α} {results : List β}
    (run : items.mapM f = .ok results) :
    List.Forall₂ (fun item result => f item = .ok result) items results := by
  induction items generalizing results with
  | nil =>
      cases run
      exact .nil
  | cons item items ih =>
      rw [List.mapM_cons] at run
      obtain ⟨result, here, run⟩ := bind_ok run
      obtain ⟨others, later, run⟩ := bind_ok run
      cases run
      exact .cons here (ih later)

/-- One that fails has failed in one of its parts. -/
theorem bind_error {ε α β : Type} {first : Except ε α} {rest : α → Except ε β} {error : ε}
    (run : first.bind rest = .error error) :
    first = .error error ∨ ∃ value, first = .ok value ∧ rest value = .error error := by
  cases first with
  | error e => exact Or.inl (congrArg Except.error (Except.error.inj run))
  | ok value => exact Or.inr ⟨value, rfl, run⟩

end PythonStruct
