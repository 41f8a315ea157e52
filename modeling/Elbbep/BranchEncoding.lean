import Elbbep.PatchTools
import Elbbep.ThumbBranch

/-!
# The branch encoder

`finalize` halves a displacement and cuts the half into the fields of a wide branch.  It
takes `I1` and `I2` one bit too high, and the sign of a displacement that is zero is set.
-/

namespace Elbbep

namespace PatchTools

open PythonStruct ThumbBranch

/-- A field that ends where the next one starts. -/
theorem shiftLeft_or {high low width : Nat} (small : low < 2 ^ width) :
    high <<< width ||| low = high * 2 ^ width + low := by
  rw [← Nat.shiftLeft_add_eq_or_of_lt small, Nat.shiftLeft_eq]

theorem or_interleave (a b c d : Nat) : (a ||| b) ||| (c ||| d) = a ||| (c ||| (b ||| d)) := by
  ac_rfl

/-- The fields of an instruction side by side. -/
theorem or_fields {hi mid imm10 imm11 : Nat} (midSmall : mid < 2 ^ 5) (imm10Small : imm10 < 2 ^ 10)
    (imm11Small : imm11 < 2 ^ 11) :
    (hi <<< 26 ||| mid <<< 11) ||| (imm10 <<< 16 ||| imm11) =
      (hi * 2 ^ 10 + imm10) * 2 ^ 16 + (mid * 2 ^ 11 + imm11) := by
  have lowSmall : mid * 2 ^ 11 + imm11 < 2 ^ 16 := by omega
  have middleSmall : imm10 * 2 ^ 16 + (mid * 2 ^ 11 + imm11) < 2 ^ 26 := by
    have product : imm10 * 2 ^ 16 ≤ (2 ^ 10 - 1) * 2 ^ 16 :=
      Nat.mul_le_mul_right _ (Nat.le_pred_of_lt imm10Small)
    exact lt_of_lt_of_le (Nat.add_lt_add_of_le_of_lt product lowSmall) (by norm_num)
  rw [or_interleave, shiftLeft_or imm11Small, shiftLeft_or lowSmall, shiftLeft_or middleSmall]
  ring

theorem or_gather (base s imm10 j1 j2 imm11 link : Nat) :
    (base ||| (s ||| imm10 ||| j1 ||| j2 ||| imm11)) ||| link =
      (base ||| s ||| j1 ||| j2 ||| link) ||| (imm10 ||| imm11) := by
  ac_rfl

/-- The instruction that is assembled from its fields. -/
theorem assemble_eq {link : Bool} {s j1 j2 imm10 imm11 : Nat} (sBit : s < 2) (j1Bit : j1 < 2)
    (j2Bit : j2 < 2) (imm10Small : imm10 < 2 ^ 10) (imm11Small : imm11 < 2 ^ 11) :
    (0b11110000000000001001000000000000 |||
        ((s <<< 26) ||| (imm10 <<< 16) ||| (j1 <<< 13) ||| (j2 <<< 11) ||| imm11)) |||
          (link.toNat <<< 14) =
      firstHalfword s imm10 * 2 ^ 16 + secondHalfword link j1 j2 imm11 := by
  have fixed : 0b11110000000000001001000000000000 ||| (s <<< 26) ||| (j1 <<< 13) |||
        (j2 <<< 11) ||| (link.toNat <<< 14) =
      (0b111100 + s) <<< 26 ||| (0b10010 + 8 * link.toNat + 4 * j1 + j2) <<< 11 := by
    interval_cases s <;> interval_cases j1 <;> interval_cases j2 <;> cases link <;> rfl
  have midSmall : 0b10010 + 8 * link.toNat + 4 * j1 + j2 < 2 ^ 5 := by
    cases link <;> simp only [Bool.toNat_false, Bool.toNat_true] <;> omega
  rw [or_gather, fixed, or_fields midSmall imm10Small imm11Small]
  rfl

/-- `I1` and `I2` are decoded to the bits that they were made from. -/
theorem branchOffset_of_bits {s i1 i2 : Nat} (sBit : s < 2) (i1Bit : i1 < 2) (i2Bit : i2 < 2)
    (imm10 imm11 : Nat) :
    branchOffset s (if s ^^^ i1 ≠ 0 then 0 else 1) (if s ^^^ i2 ≠ 0 then 0 else 1) imm10 imm11 =
      i1 * 2 ^ 23 + i2 * 2 ^ 22 + imm10 * 2 ^ 12 + imm11 * 2 - s * 2 ^ 24 := by
  unfold branchOffset
  interval_cases s <;> interval_cases i1 <;> interval_cases i2 <;> norm_num <;> omega

theorem shiftRight_eq (value : Int) (width : Nat) : value >>> width = value / 2 ^ width := by
  rw [Int.shiftRight_eq_div_pow]
  push_cast
  rfl

/-- The fields are those of the half. -/
theorem branchInstr_eq (displacement : Int) (link : Bool) :
    ∃ s i1 i2 imm10 imm11 : Nat, s < 2 ∧ i1 < 2 ∧ i2 < 2 ∧ imm10 < 2 ^ 10 ∧ imm11 < 2 ^ 11 ∧
      (s : Int) = (if displacement / 2 > 0 then 0 else 1) ∧
      (i1 : Int) = displacement / 2 / 2 ^ 23 % 2 ∧ (i2 : Int) = displacement / 2 / 2 ^ 22 % 2 ∧
      (imm10 : Int) = displacement / 2 / 2 ^ 11 % 2 ^ 10 ∧
      (imm11 : Int) = displacement / 2 % 2 ^ 11 ∧
      branchInstr displacement link = firstHalfword s imm10 * 2 ^ 16 +
        secondHalfword link (if s ^^^ i1 ≠ 0 then 0 else 1) (if s ^^^ i2 ≠ 0 then 0 else 1)
          imm11 := by
  have halved : displacement >>> (1 : Nat) = displacement / 2 := shiftRight_eq displacement 1
  generalize displacement / 2 = half at halved ⊢
  have sBit : (if half > 0 then 0 else 1) < 2 := by split <;> omega
  have imm10Small : (half / 2 ^ 11 % 2 ^ 10).toNat < 2 ^ 10 := by omega
  have imm11Small : (half % 2 ^ 11).toNat < 2 ^ 11 := by omega
  refine ⟨if half > 0 then 0 else 1, (half / 2 ^ 23 % 2).toNat, (half / 2 ^ 22 % 2).toNat,
    (half / 2 ^ 11 % 2 ^ 10).toNat, (half % 2 ^ 11).toNat, sBit, by omega, by omega, imm10Small,
    imm11Small, by split <;> rfl, by omega, by omega, by omega, by omega, ?_⟩
  have bit (p : Prop) [Decidable p] : (if p then 0 else 1) < 2 := by split <;> omega
  rw [← assemble_eq sBit (bit _) (bit _) imm10Small imm11Small]
  simp only [branchInstr, halved, shiftRight_eq]
  cases link with
  | false =>
      simp only [Bool.false_eq_true, if_false, Bool.toNat_false, Nat.zero_shiftLeft, Nat.or_zero]
  | true => rfl

/-- What the instruction of a displacement decodes to: the bits 23 and 22 and the low 21 bits of
the half stand behind the sign. -/
theorem decode_branchInstr (displacement : Int) (link : Bool) :
    branchInstr displacement link < 2 ^ 32 ∧
      decode (branchInstr displacement link >>> 16) (branchInstr displacement link % 2 ^ 16) =
        some ⟨link, displacement / 2 / 2 ^ 23 % 2 * 2 ^ 23 +
          displacement / 2 / 2 ^ 22 % 2 * 2 ^ 22 + displacement / 2 / 2 ^ 11 % 2 ^ 10 * 2 ^ 12 +
          displacement / 2 % 2 ^ 11 * 2 - (if displacement / 2 > 0 then 0 else 1) * 2 ^ 24⟩ := by
  obtain ⟨s, i1, i2, imm10, imm11, sBit, i1Bit, i2Bit, imm10Small, imm11Small, sEq, i1Eq, i2Eq,
    imm10Eq, imm11Eq, eq⟩ := branchInstr_eq displacement link
  have bit (p : Prop) [Decidable p] : (if p then 0 else 1) < 2 := by split <;> omega
  have firstSmall := firstHalfword_lt sBit imm10Small
  have secondSmall := secondHalfword_lt link (bit (s ^^^ i1 ≠ 0)) (bit (s ^^^ i2 ≠ 0)) imm11Small
  have decoded := decode_halfwords link sBit (bit (s ^^^ i1 ≠ 0)) (bit (s ^^^ i2 ≠ 0))
    imm10Small imm11Small
  rw [branchOffset_of_bits sBit i1Bit i2Bit, sEq, i1Eq, i2Eq, imm10Eq, imm11Eq] at decoded
  have high : branchInstr displacement link >>> 16 = firstHalfword s imm10 := by
    rw [eq, Nat.shiftRight_eq_div_pow]
    omega
  have low : branchInstr displacement link % 2 ^ 16 = secondHalfword link
      (if s ^^^ i1 ≠ 0 then 0 else 1) (if s ^^^ i2 ≠ 0 then 0 else 1) imm11 := by
    rw [eq]
    omega
  rw [high, low]
  refine ⟨?_, decoded⟩
  rw [eq]
  omega

/-- The displacements for which the encoder is right. -/
theorem branchInstr_correct_iff {displacement : Int} (even : displacement % 2 = 0)
    (low : -2 ^ 24 ≤ displacement) (high : displacement ≤ 2 ^ 24 - 2) (link : Bool) :
    decode (branchInstr displacement link >>> 16) (branchInstr displacement link % 2 ^ 16) =
        some ⟨link, displacement⟩ ↔
      displacement ≠ 0 ∧ -2 ^ 22 ≤ displacement ∧ displacement < 2 ^ 22 := by
  rw [(decode_branchInstr displacement link).2]
  simp only [Option.some.injEq, WideBranch.mk.injEq, true_and]
  split <;> omega

theorem branchInstr_correct_back :
    decode (branchInstr (-0x1000) true >>> 16) (branchInstr (-0x1000) true % 2 ^ 16) =
      some ⟨true, -0x1000⟩ :=
  (branchInstr_correct_iff (by decide) (by decide) (by decide) true).mpr (by decide)

/-- A displacement of zero goes back by 16 MiB, and one of 4 MiB goes nowhere. -/
theorem branchInstr_wrong :
    decode (branchInstr 0 false >>> 16) (branchInstr 0 false % 2 ^ 16) =
        some ⟨false, -0x1000000⟩ ∧
      decode (branchInstr 0x400000 false >>> 16) (branchInstr 0x400000 false % 2 ^ 16) =
        some ⟨false, 0⟩ ∧
      ¬ ∀ (displacement : Int) (link : Bool), displacement % 2 = 0 → -2 ^ 24 ≤ displacement →
        displacement ≤ 2 ^ 24 - 2 → decode (branchInstr displacement link >>> 16)
          (branchInstr displacement link % 2 ^ 16) = some ⟨link, displacement⟩ := by
  refine ⟨by decide, by decide, fun always => ?_⟩
  have zero := always 0 false (by decide) (by decide) (by decide)
  exact absurd zero (by decide)

end PatchTools

end Elbbep
