import Mathlib

/-!
# Shift registers with feedback

A register of a fixed width is shifted by one place at a time, and a fixed pattern is added
when a bit falls out of it.  Bits are fed into it at the top.  Everything is linear, and with
an odd pattern nothing is lost: a register can be computed backwards, and bits that fit into
the register are told apart by it.
-/

namespace FeedbackRegister

variable {width : Nat} (pattern : BitVec width)

/-- One shift. -/
def shift (register : BitVec width) : BitVec width :=
  if register.msb then (register <<< 1) ^^^ pattern else register <<< 1

/-- A bit at the place `place`. -/
def bitAt (place : Nat) (bit : Bool) : BitVec width :=
  if bit then BitVec.twoPow width place else 0

/-- One bit is added at the top, and the register is shifted. -/
def feed (register : BitVec width) (bit : Bool) : BitVec width :=
  shift pattern (register ^^^ bitAt (width - 1) bit)

/-- Bits are fed one after the other. -/
def run (register : BitVec width) (bits : List Bool) : BitVec width :=
  bits.foldl (feed pattern) register

theorem run_append (register : BitVec width) (front back : List Bool) :
    run pattern register (front ++ back) = run pattern (run pattern register front) back :=
  List.foldl_append

theorem shift_xor (x y : BitVec width) :
    shift pattern (x ^^^ y) = shift pattern x ^^^ shift pattern y := by
  simp only [shift, BitVec.msb_xor, BitVec.shiftLeft_xor_distrib]
  cases x.msb <;> cases y.msb
  · simp
  · simp [BitVec.xor_assoc]
  · simp only [Bool.xor_false, if_true, Bool.false_eq_true, if_false, BitVec.xor_assoc,
      BitVec.xor_comm pattern]
  · have cancel : x <<< 1 ^^^ pattern ^^^ (y <<< 1 ^^^ pattern) = x <<< 1 ^^^ y <<< 1 := by
      rw [BitVec.xor_comm (y <<< 1) pattern, BitVec.xor_assoc, ← BitVec.xor_assoc pattern,
        BitVec.xor_self, BitVec.zero_xor]
    simp [cancel]

theorem iterate_shift_xor (count : Nat) (x y : BitVec width) :
    (shift pattern)^[count] (x ^^^ y) = (shift pattern)^[count] x ^^^ (shift pattern)^[count] y := by
  induction count generalizing x y with
  | zero => rfl
  | succ count ih => rw [Function.iterate_succ_apply, shift_xor, ih]; rfl

section Injective

variable {pattern} (odd : pattern.getLsbD 0 = true)

include odd

/-- Only the empty register is shifted to the empty register. -/
theorem eq_zero_of_shift {x : BitVec width} (empty : shift pattern x = 0) : x = 0 := by
  unfold shift at empty
  split at empty
  case isTrue =>
    have lowest := congrArg (fun register => register.getLsbD 0) empty
    simp [odd] at lowest
  case isFalse top =>
    apply BitVec.eq_of_getLsbD_eq
    intro i inside
    by_cases last : i = width - 1
    · rw [BitVec.msb_eq_getLsbD_last] at top
      rw [last]
      simpa using top
    · have next := congrArg (fun register => register.getLsbD (i + 1)) empty
      have smaller : i + 1 < width := by omega
      rw [BitVec.getLsbD_eq_getElem inside]
      simpa [smaller] using next

theorem shift_injective : Function.Injective (shift pattern) := by
  intro x y same
  have difference : shift pattern (x ^^^ y) = 0 := by
    rw [shift_xor, same, BitVec.xor_self]
    rfl
  exact BitVec.xor_eq_zero_iff.mp (eq_zero_of_shift odd difference)

theorem run_injective (bits : List Bool) :
    Function.Injective fun register => run pattern register bits := by
  induction bits with
  | nil => exact fun _ _ same => same
  | cons bit bits ih =>
      intro x y same
      have fed : feed pattern x bit = feed pattern y bit := ih same
      have added := shift_injective odd fed
      exact (BitVec.xor_left_inj _).mp added

end Injective

/-! ## Bits that fit into the register -/

/-- Bits placed from the place `width - 1 - i` downwards. -/
def placed : (i : Nat) → List Bool → BitVec width
  | _, [] => 0
  | i, bit :: bits => bitAt (width - 1 - i) bit ^^^ placed (i + 1) bits

/-- A bit that is not at the top only moves up. -/
theorem shift_bitAt {place : Nat} (below : place + 1 < width) (bit : Bool) :
    shift pattern (bitAt place bit) = bitAt (place + 1) bit := by
  have top : (bitAt place bit : BitVec width).msb = false := by
    cases bit with
    | false => simp [bitAt]
    | true =>
        rw [BitVec.msb_eq_getLsbD_last]
        simp only [bitAt, if_true, BitVec.getLsbD_twoPow]
        have different : ¬ place = width - 1 := by omega
        simp [different]
  rw [shift, top]
  cases bit with
  | false => simp [bitAt]
  | true =>
      simp only [bitAt, if_true, Bool.false_eq_true, if_false]
      apply BitVec.eq_of_toNat_eq
      have small : 2 ^ place < 2 ^ width := Nat.pow_lt_pow_right (by decide) (by omega)
      simp only [BitVec.toNat_shiftLeft, BitVec.toNat_twoPow, Nat.mod_eq_of_lt small,
        Nat.shiftLeft_eq, pow_succ, pow_zero, one_mul]

theorem iterate_shift_bitAt {i : Nat} (inside : i < width) (bit : Bool) :
    (shift pattern)^[i] (bitAt (width - 1 - i) bit) = bitAt (width - 1) bit := by
  induction i with
  | zero => rfl
  | succ i ih =>
      have place : width - 1 - (i + 1) + 1 = width - 1 - i := by omega
      rw [Function.iterate_succ_apply, shift_bitAt pattern (by omega), place, ih (by omega)]

/-- Feeding bits is adding them all at once and shifting. -/
theorem run_eq_iterate (register : BitVec width) (i : Nat) (bits : List Bool)
    (fits : i + bits.length ≤ width) :
    run pattern ((shift pattern)^[i] register) bits =
      (shift pattern)^[i + bits.length] (register ^^^ placed i bits) := by
  induction bits generalizing register i with
  | nil => simp [run, placed]
  | cons bit bits ih =>
      rw [List.length_cons] at fits
      have fed : feed pattern ((shift pattern)^[i] register) bit =
          (shift pattern)^[i + 1] (register ^^^ bitAt (width - 1 - i) bit) := by
        rw [feed, ← iterate_shift_bitAt pattern (by omega : i < width), ← iterate_shift_xor,
          Function.iterate_succ_apply']
      change run pattern (feed pattern ((shift pattern)^[i] register) bit) bits = _
      have count : i + 1 + bits.length = i + (bits.length + 1) := by omega
      rw [fed, ih _ _ (by omega), placed, BitVec.xor_assoc, List.length_cons, count]

theorem getLsbD_placed (i : Nat) (bits : List Bool) (j : Nat) (inside : j < bits.length)
    (fits : i + bits.length ≤ width) :
    (placed i bits : BitVec width).getLsbD (width - 1 - (i + j)) = bits.getD j false := by
  have above : ∀ (i : Nat) (bits : List Bool) (place : Nat), width - 1 - i < place →
      i + bits.length ≤ width → (placed i bits : BitVec width).getLsbD place = false := by
    intro i bits place higher
    induction bits generalizing i with
    | nil => intro; simp [placed]
    | cons bit bits ih =>
        intro fits
        rw [List.length_cons] at fits
        rw [placed, BitVec.getLsbD_xor, ih (i + 1) (by omega) (by omega)]
        have different : ¬ width - 1 - i = place := by omega
        cases bit <;> simp [bitAt, BitVec.getLsbD_twoPow, different]
  induction bits generalizing i j with
  | nil => simp at inside
  | cons bit bits ih =>
      rw [List.length_cons] at fits inside
      rw [placed, BitVec.getLsbD_xor]
      cases j with
      | zero =>
          have later : (placed (i + 1) bits : BitVec width).getLsbD (width - 1 - i) = false := by
            cases bits with
            | nil => simp [placed]
            | cons next bits =>
                rw [List.length_cons] at fits
                apply above
                · omega
                · rw [List.length_cons]
                  omega
          rw [Nat.add_zero, later]
          have top : width - 1 - i < width := by omega
          cases bit <;> simp [bitAt, top]
      | succ j =>
          have place : i + (j + 1) = i + 1 + j := by omega
          have different : ¬ width - 1 - i = width - 1 - (i + 1 + j) := by omega
          rw [place, ih (i + 1) j (by omega) (by omega), List.getD_cons_succ]
          cases bit <;> simp [bitAt, BitVec.getLsbD_twoPow, different]

/-- Different bits that fit into the register leave it different. -/
theorem run_ne_of_fits (odd : pattern.getLsbD 0 = true) (register : BitVec width)
    {bits other : List Bool} (sameLength : bits.length = other.length)
    (fits : bits.length ≤ width) (different : bits ≠ other) :
    run pattern register bits ≠ run pattern register other := by
  intro same
  have all := run_eq_iterate pattern register 0 bits (by omega)
  have allOther := run_eq_iterate pattern register 0 other (by omega)
  simp only [Function.iterate_zero, id_eq] at all allOther
  rw [all, allOther, sameLength] at same
  have added := (shift_injective odd).iterate _ same
  have placedSame : (placed 0 bits : BitVec width) = placed 0 other :=
    (BitVec.xor_right_inj _).mp added
  apply different
  apply List.ext_getElem sameLength
  intro j inside insideOther
  have zero : 0 + bits.length ≤ width := by omega
  have bit := getLsbD_placed 0 bits j inside zero
  rw [placedSame, getLsbD_placed 0 other j insideOther (by omega)] at bit
  rw [List.getD_eq_getElem _ _ inside, List.getD_eq_getElem _ _ insideOther] at bit
  exact bit.symm

/-- A burst that fits into the register is noticed, wherever it stands. -/
theorem run_ne_of_burst (odd : pattern.getLsbD 0 = true) (register : BitVec width)
    (front back : List Bool) {burst other : List Bool} (sameLength : burst.length = other.length)
    (fits : burst.length ≤ width) (different : burst ≠ other) :
    run pattern register (front ++ burst ++ back) ≠
      run pattern register (front ++ other ++ back) := by
  intro same
  rw [run_append, run_append, run_append _ _ (front ++ other), run_append _ _ front] at same
  exact run_ne_of_fits pattern odd _ sameLength fits different (run_injective odd back same)

end FeedbackRegister
