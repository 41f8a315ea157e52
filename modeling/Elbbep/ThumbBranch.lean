import Mathlib

/-!
# Wide Thumb branches

The two wide branches of ARMv7-M with an immediate displacement, `B.W` in encoding T4 and
`BL` in encoding T1, as pairs of halfwords.
-/

namespace ThumbBranch

/-- Whether a branch links, and its displacement from the address four bytes behind its own. -/
structure WideBranch where
  link : Bool
  offset : Int
  deriving DecidableEq, Repr

/-- Where a branch at an address goes. -/
def WideBranch.destination (branch : WideBranch) (address : Nat) : Int :=
  address + 4 + branch.offset

/-- `SignExtend(S:I1:I2:imm10:imm11:'0', 32)` with `I1 = NOT(J1 EOR S)` and
`I2 = NOT(J2 EOR S)`. -/
def branchOffset (s j1 j2 imm10 imm11 : Nat) : Int :=
  let i1 : Nat := if j1 = s then 1 else 0
  let i2 : Nat := if j2 = s then 1 else 0
  let imm32 : Nat := s * 2 ^ 24 + i1 * 2 ^ 23 + i2 * 2 ^ 22 + imm10 * 2 ^ 12 + imm11 * 2
  if s = 1 then imm32 - 2 ^ 25 else imm32

/-- The bits of a halfword from `low` on. -/
def bitField (halfword low width : Nat) : Nat :=
  halfword / 2 ^ low % 2 ^ width

def decode (first second : Nat) : Option WideBranch :=
  if bitField first 11 5 = 0b11110 ∧ bitField second 15 1 = 1 ∧ bitField second 12 1 = 1 then
    some ⟨bitField second 14 1 = 1, branchOffset (bitField first 10 1) (bitField second 13 1)
      (bitField second 11 1) (bitField first 0 10) (bitField second 0 11)⟩
  else none

/-- `11110 S imm10`. -/
def firstHalfword (s imm10 : Nat) : Nat :=
  (0b111100 + s) * 2 ^ 10 + imm10

/-- `1 L J1 1 J2 imm11`. -/
def secondHalfword (link : Bool) (j1 j2 imm11 : Nat) : Nat :=
  (0b10010 + 8 * link.toNat + 4 * j1 + j2) * 2 ^ 11 + imm11

theorem firstHalfword_lt {s imm10 : Nat} (sBit : s < 2) (imm10Small : imm10 < 2 ^ 10) :
    firstHalfword s imm10 < 2 ^ 16 := by
  unfold firstHalfword
  omega

theorem secondHalfword_lt (link : Bool) {j1 j2 imm11 : Nat} (j1Bit : j1 < 2) (j2Bit : j2 < 2)
    (imm11Small : imm11 < 2 ^ 11) : secondHalfword link j1 j2 imm11 < 2 ^ 16 := by
  unfold secondHalfword
  cases link <;> simp only [Bool.toNat_false, Bool.toNat_true] <;> omega

/-- The fields of a branch are read back. -/
theorem decode_halfwords (link : Bool) {s j1 j2 imm10 imm11 : Nat} (sBit : s < 2) (j1Bit : j1 < 2)
    (j2Bit : j2 < 2) (imm10Small : imm10 < 2 ^ 10) (imm11Small : imm11 < 2 ^ 11) :
    decode (firstHalfword s imm10) (secondHalfword link j1 j2 imm11) =
      some ⟨link, branchOffset s j1 j2 imm10 imm11⟩ := by
  have first : bitField (firstHalfword s imm10) 11 5 = 0b11110 ∧
      bitField (firstHalfword s imm10) 10 1 = s ∧
      bitField (firstHalfword s imm10) 0 10 = imm10 := by
    unfold bitField firstHalfword
    omega
  have second : bitField (secondHalfword link j1 j2 imm11) 15 1 = 1 ∧
      bitField (secondHalfword link j1 j2 imm11) 14 1 = link.toNat ∧
      bitField (secondHalfword link j1 j2 imm11) 13 1 = j1 ∧
      bitField (secondHalfword link j1 j2 imm11) 12 1 = 1 ∧
      bitField (secondHalfword link j1 j2 imm11) 11 1 = j2 ∧
      bitField (secondHalfword link j1 j2 imm11) 0 11 = imm11 := by
    unfold bitField secondHalfword
    cases link <;> simp only [Bool.toNat_false, Bool.toNat_true] <;> omega
  obtain ⟨opcode, sEq, imm10Eq⟩ := first
  obtain ⟨top, linkEq, j1Eq, fixed, j2Eq, imm11Eq⟩ := second
  rw [decode, if_pos ⟨opcode, top, fixed⟩, linkEq, sEq, imm10Eq, j1Eq, j2Eq, imm11Eq]
  cases link <;> rfl

end ThumbBranch
