import Mathlib

/-!
# UTF-8 text as a list of scalar values

Valid UTF-8 is what `String.utf8EncodeChar` emits for a list of characters.
This file collects the facts about that encoding which in-place text
processing relies on: the lead byte of a character announces its length, no
byte of a nonzero character is zero, and the characters of a text are
determined by its bytes.
-/

namespace Utf8Encoding

/-- Properties of all members of a list are decided along the list, and not along the type
of its members, even if that is finite as bytes and characters are. -/
instance (priority := 2000) decidableForallMem {α : Type*} (p : α → Prop) [DecidablePred p]
    (list : List α) : Decidable (∀ a ∈ list, p a) :=
  List.decidableBAll p list

instance (priority := 2000) decidableExistsMem {α : Type*} (p : α → Prop) [DecidablePred p]
    (list : List α) : Decidable (∃ a ∈ list, p a) :=
  List.decidableBEx p list

/-- The UTF-8 encoding of a text. -/
def encode (text : List Char) : List UInt8 :=
  text.flatMap String.utf8EncodeChar

@[simp] theorem encode_nil : encode [] = [] := rfl

@[simp] theorem encode_cons (c : Char) (text : List Char) :
    encode (c :: text) = String.utf8EncodeChar c ++ encode text := rfl

@[simp] theorem encode_append (first second : List Char) :
    encode (first ++ second) = encode first ++ encode second := by
  simp [encode]

theorem encode_injective : Function.Injective encode := by
  intro first second same
  apply String.ofList_injective
  apply String.toByteArray_inj.mp
  simp only [String.toByteArray_ofList, List.utf8Encode]
  exact congrArg List.toByteArray same

/-- Number of bytes of a text. -/
def byteLength (text : List Char) : Nat :=
  (encode text).length

@[simp] theorem byteLength_nil : byteLength [] = 0 := rfl

@[simp] theorem byteLength_cons (c : Char) (text : List Char) :
    byteLength (c :: text) = c.utf8Size + byteLength text := by
  simp [byteLength]

@[simp] theorem byteLength_append (first second : List Char) :
    byteLength (first ++ second) = byteLength first + byteLength second := by
  simp [byteLength]

theorem byteLength_eq_sum (text : List Char) :
    byteLength text = (text.map Char.utf8Size).sum := by
  induction text with
  | nil => rfl
  | cons c text ih => simp [ih]

theorem length_le_byteLength (text : List Char) : text.length ≤ byteLength text := by
  induction text with
  | nil => exact Nat.le_refl 0
  | cons c text ih =>
      have positive := c.utf8Size_pos
      simp only [List.length_cons, byteLength_cons]
      omega

/-- Number of continuation bytes that a lead byte announces. -/
def continuationCount (lead : UInt8) : Nat :=
  if 0xF0 ≤ lead.toNat then 3
  else if 0xE0 ≤ lead.toNat then 2
  else if 0xC0 ≤ lead.toNat then 1
  else 0

theorem continuationCount_le (lead : UInt8) : continuationCount lead ≤ 3 := by
  unfold continuationCount
  split_ifs <;> omega

section Characters

variable {c : Char}

theorem toNat_lt (c : Char) : c.toNat < 0x110000 := by
  have valid := c.valid
  simp only [UInt32.isValidChar, Nat.isValidChar] at valid
  change c.val.toNat < _
  omega

theorem utf8EncodeChar_one (bound : c.toNat < 0x80) :
    String.utf8EncodeChar c = [UInt8.ofNat c.toNat] := by
  have le : c.val.toNat ≤ 0x7f := by change c.toNat ≤ _; omega
  simp only [String.utf8EncodeChar, le, if_true]
  rfl

theorem utf8EncodeChar_two (above : 0x80 ≤ c.toNat) (bound : c.toNat < 0x800) :
    String.utf8EncodeChar c =
      [UInt8.ofNat (c.toNat / 64 + 0xc0), UInt8.ofNat (c.toNat % 64 + 0x80)] := by
  have gt : ¬ c.val.toNat ≤ 0x7f := by change ¬ c.toNat ≤ _; omega
  have le : c.val.toNat ≤ 0x7ff := by change c.toNat ≤ _; omega
  have reduced : c.val.toNat / 64 % 0x20 = c.toNat / 64 := by
    change c.toNat / 64 % 0x20 = c.toNat / 64
    omega
  simp only [String.utf8EncodeChar, gt, le, if_true, if_false, reduced]
  rfl

theorem utf8EncodeChar_three (above : 0x800 ≤ c.toNat) (bound : c.toNat < 0x10000) :
    String.utf8EncodeChar c =
      [UInt8.ofNat (c.toNat / 4096 + 0xe0), UInt8.ofNat (c.toNat / 64 % 64 + 0x80),
        UInt8.ofNat (c.toNat % 64 + 0x80)] := by
  have gt : ¬ c.val.toNat ≤ 0x7f := by change ¬ c.toNat ≤ _; omega
  have gt' : ¬ c.val.toNat ≤ 0x7ff := by change ¬ c.toNat ≤ _; omega
  have le : c.val.toNat ≤ 0xffff := by change c.toNat ≤ _; omega
  have reduced : c.val.toNat / 4096 % 0x10 = c.toNat / 4096 := by
    change c.toNat / 4096 % 0x10 = c.toNat / 4096
    omega
  simp only [String.utf8EncodeChar, gt, gt', le, if_true, if_false, reduced]
  rfl

theorem utf8EncodeChar_four (above : 0x10000 ≤ c.toNat) :
    String.utf8EncodeChar c =
      [UInt8.ofNat (c.toNat / 262144 + 0xf0), UInt8.ofNat (c.toNat / 4096 % 64 + 0x80),
        UInt8.ofNat (c.toNat / 64 % 64 + 0x80), UInt8.ofNat (c.toNat % 64 + 0x80)] := by
  have bound := toNat_lt c
  have gt : ¬ c.val.toNat ≤ 0x7f := by change ¬ c.toNat ≤ _; omega
  have gt' : ¬ c.val.toNat ≤ 0x7ff := by change ¬ c.toNat ≤ _; omega
  have gt'' : ¬ c.val.toNat ≤ 0xffff := by change ¬ c.toNat ≤ _; omega
  have reduced : c.val.toNat / 262144 % 0x08 = c.toNat / 262144 := by
    change c.toNat / 262144 % 0x08 = c.toNat / 262144
    omega
  simp only [String.utf8EncodeChar, gt, gt', gt'', if_false, reduced]
  rfl

/-- The four shapes of an encoded character, by scalar value. -/
theorem scalar_cases (c : Char) :
    c.toNat < 0x80 ∨ (0x80 ≤ c.toNat ∧ c.toNat < 0x800) ∨
      (0x800 ≤ c.toNat ∧ c.toNat < 0x10000) ∨ 0x10000 ≤ c.toNat := by
  omega

theorem utf8Size_eq_two_iff : c.utf8Size = 2 ↔ 0x80 ≤ c.toNat ∧ c.toNat < 0x800 := by
  rw [← String.length_utf8EncodeChar]
  rcases scalar_cases c with one | two | three | four
  · simp only [utf8EncodeChar_one one, List.length_cons, List.length_nil]
    omega
  · simp [utf8EncodeChar_two two.1 two.2, two]
  · simp only [utf8EncodeChar_three three.1 three.2, List.length_cons, List.length_nil]
    omega
  · simp only [utf8EncodeChar_four four, List.length_cons, List.length_nil]
    omega

/-- An encoded character is its lead byte and the continuation bytes announced
by it. -/
theorem utf8EncodeChar_lead (c : Char) :
    ∃ lead tail, String.utf8EncodeChar c = lead :: tail ∧
      tail.length = continuationCount lead ∧
      (c ≠ '\x00' → lead.toNat ≠ 0) ∧
      ∀ b ∈ tail, 0x80 ≤ b.toNat ∧ b.toNat < 0xC0 := by
  have bound := toNat_lt c
  have nonzero (hc : c ≠ '\x00') : c.toNat ≠ 0 := by
    intro zero
    exact hc (Char.toNat_inj.mp zero)
  rcases scalar_cases c with one | two | three | four
  · refine ⟨_, _, utf8EncodeChar_one one, ?_, ?_, by simp⟩
    · have notTwo : ¬ 0xC0 ≤ c.toNat := by omega
      have notThree : ¬ 0xE0 ≤ c.toNat := by omega
      have notFour : ¬ 0xF0 ≤ c.toNat := by omega
      have small : c.toNat % 256 = c.toNat := by omega
      simp [continuationCount, small, notTwo, notThree, notFour]
    · intro hc
      have := nonzero hc
      simp only [UInt8.toNat_ofNat']
      omega
  · refine ⟨_, _, utf8EncodeChar_two two.1 two.2, ?_, ?_, ?_⟩
    · have small : (c.toNat / 64 + 0xc0) % 256 = c.toNat / 64 + 0xc0 := by omega
      have notThree : ¬ 0xE0 ≤ c.toNat / 64 + 0xc0 := by omega
      have notFour : ¬ 0xF0 ≤ c.toNat / 64 + 0xc0 := by omega
      simp [continuationCount, UInt8.toNat_ofNat', small, notThree, notFour]
    · intro _
      simp only [UInt8.toNat_ofNat']
      omega
    · simp only [List.forall_mem_singleton, UInt8.toNat_ofNat']
      omega
  · refine ⟨_, _, utf8EncodeChar_three three.1 three.2, ?_, ?_, ?_⟩
    · have small : (c.toNat / 4096 + 0xe0) % 256 = c.toNat / 4096 + 0xe0 := by omega
      have notFour : ¬ 0xF0 ≤ c.toNat / 4096 + 0xe0 := by omega
      simp [continuationCount, UInt8.toNat_ofNat', small, notFour]
    · intro _
      simp only [UInt8.toNat_ofNat']
      omega
    · simp only [List.forall_mem_cons, List.not_mem_nil, UInt8.toNat_ofNat']
      refine ⟨by omega, by omega, by simp⟩
  · refine ⟨_, _, utf8EncodeChar_four four, ?_, ?_, ?_⟩
    · have small : (c.toNat / 262144 + 0xf0) % 256 = c.toNat / 262144 + 0xf0 := by omega
      simp [continuationCount, UInt8.toNat_ofNat', small]
    · intro _
      simp only [UInt8.toNat_ofNat']
      omega
    · simp only [List.forall_mem_cons, List.not_mem_nil, UInt8.toNat_ofNat']
      refine ⟨by omega, by omega, by omega, by simp⟩

theorem encodeChar_byte_ne_zero (hc : c ≠ '\x00') :
    ∀ b ∈ String.utf8EncodeChar c, b ≠ 0 := by
  obtain ⟨lead, tail, eq, -, leadNe, tailIn⟩ := utf8EncodeChar_lead c
  rw [eq]
  intro b member zero
  subst zero
  rcases List.mem_cons.mp member with head | rest
  · exact leadNe hc (by rw [← head]; rfl)
  · have := tailIn _ rest
    simp at this

end Characters

/-- Every byte of a text without the zero character is nonzero. -/
theorem encode_byte_ne_zero {text : List Char} (nonzero : ∀ c ∈ text, c ≠ '\x00') :
    ∀ b ∈ encode text, b ≠ 0 := by
  intro b member
  obtain ⟨c, inText, inChar⟩ := List.mem_flatMap.mp member
  exact encodeChar_byte_ne_zero (nonzero c inText) b inChar

end Utf8Encoding
