import Elbbep.ByteMemory
import Elbbep.Utf8Encoding

/-!
# Reading and writing runes in place

`readUtf8` and `writeUtf8` embed `runtime/utf8.c`.  The reader trusts the lead
byte: it consumes the announced number of following bytes without looking at
them, and accumulates the codepoint in 16 bits, so that a rune outside the
Basic Multilingual Plane is read as its scalar value modulo `2 ^ 16`.
-/

namespace Elbbep

open ByteMemory Utf8Encoding

/-- `(~0b11110000000) >> ct`, an arithmetic shift of a 32-bit integer. -/
def leadMask (ct : Nat) : Nat :=
  ((~~~(0b11110000000#32)).sshiftRight ct).toNat

/-- The `while (ct--)` loop, which ends by stepping over the last byte. -/
def readContinuation (m : Memory) : (ct codept : Nat) → (ptr : Int) → Except Fault (Nat × Int)
  | 0, codept, ptr => .ok (codept, ptr + 1)
  | ct + 1, codept, ptr => do
      let byte ← m.load (ptr + 1)
      let bits := byte.toNat &&& (~~~(0b10000000#32)).toNat
      readContinuation m ct (((codept <<< 6) ||| bits) % 2 ^ 16) (ptr + 1)

/-- `read_utf8`: the codepoint at `ptr` and the pointer behind it. -/
def readUtf8 (m : Memory) (ptr : Int) : Except Fault (Nat × Int) := do
  let byte ← m.load ptr
  let codept := byte.toNat
  let ct := match codept >>> 4 with
    | 0xF => 3
    | 0xE => 2
    | 0xC | 0xD => 1
    | _ => 0
  readContinuation m ct (codept &&& leadMask ct) ptr

/-- `write_utf8`, which can only write 2-byte runes. -/
def writeUtf8 (m : Memory) (ptr : Int) (codept : Nat) : Memory :=
  (m.store ptr (UInt8.ofNat (0b11000000 ||| (codept >>> 6)))).store (ptr + 1)
    (UInt8.ofNat (0b10000000 ||| (codept &&& 0b111111)))

/-- What `readUtf8` returns for a character. -/
def runeValue (c : Char) : Nat :=
  c.toNat % 2 ^ 16

theorem runeValue_of_lt {c : Char} (bmp : c.toNat < 0x10000) : runeValue c = c.toNat :=
  Nat.mod_eq_of_lt bmp

/-! ## The reader on arbitrary bytes -/

theorem lead_switch (byte : UInt8) :
    (match byte.toNat >>> 4 with
      | 0xF => 3
      | 0xE => 2
      | 0xC | 0xD => 1
      | _ => 0) = continuationCount byte := by
  have bound := byte.toNat_lt
  have shifted : byte.toNat >>> 4 = byte.toNat / 16 := Nat.shiftRight_eq_div_pow _ 4
  unfold continuationCount
  rw [shifted]
  split_ifs with four three two
  · have quotient : byte.toNat / 16 = 0xF := by omega
    simp [quotient]
  · have quotient : byte.toNat / 16 = 0xE := by omega
    simp [quotient]
  · obtain low | high : byte.toNat / 16 = 0xC ∨ byte.toNat / 16 = 0xD := by omega
    · simp [low]
    · simp [high]
  · have small : byte.toNat / 16 < 0xC := by omega
    interval_cases byte.toNat / 16 <;> rfl

theorem readUtf8_eq (m : Memory) (ptr : Int) :
    readUtf8 m ptr = (m.load ptr).bind fun byte =>
      readContinuation m (continuationCount byte)
        (byte.toNat &&& leadMask (continuationCount byte)) ptr := by
  unfold readUtf8
  simp only [lead_switch]
  rfl

theorem readContinuation_ok {m : Memory} {ct codept : Nat} {ptr : Int}
    (above : m.low ≤ ptr) (below : ptr + ct < m.high) (small : codept < 2 ^ 16) :
    ∃ value < 2 ^ 16, (ct = 0 → value = codept) ∧
      readContinuation m ct codept ptr = .ok (value, ptr + ct + 1) := by
  induction ct generalizing codept ptr with
  | zero => exact ⟨codept, small, fun _ => rfl, by simp [readContinuation]⟩
  | succ ct ih =>
      push_cast at below
      have loaded : m.load (ptr + 1) = .ok (m.byte (ptr + 1)) :=
        m.load_of_mem (by omega) (by omega)
      have reduced : ((codept <<< 6) |||
          ((m.byte (ptr + 1)).toNat &&& (~~~(0b10000000#32)).toNat)) % 2 ^ 16 < 2 ^ 16 :=
        Nat.mod_lt _ (by norm_num)
      obtain ⟨value, valueSmall, -, run⟩ := ih (show m.low ≤ ptr + 1 by omega)
        (show ptr + 1 + ct < m.high by omega) reduced
      refine ⟨value, valueSmall, by simp, ?_⟩
      have shift : ptr + 1 + (ct : Int) + 1 = ptr + ((ct + 1 : Nat) : Int) + 1 := by
        push_cast
        omega
      rw [readContinuation, loaded, ← shift, ← run]
      rfl

theorem readContinuation_error {m : Memory} {ct codept : Nat} {ptr : Int}
    (above : m.low ≤ ptr) (inside : ptr < m.high) (beyond : m.high ≤ ptr + ct) :
    readContinuation m ct codept ptr = .error (.load m.high) := by
  induction ct generalizing codept ptr with
  | zero => simp at beyond; omega
  | succ ct ih =>
      push_cast at beyond
      by_cases last : ptr + 1 = m.high
      · rw [readContinuation, last, m.load_of_high_le le_rfl]
        rfl
      · have loaded : m.load (ptr + 1) = .ok (m.byte (ptr + 1)) :=
          m.load_of_mem (by omega) (by omega)
        rw [readContinuation, loaded]
        exact ih (by omega) (by omega) (by omega)

/-- On a byte the shifted mask keeps the low `7 - ct` bits. -/
theorem and_leadMask {ct byte : Nat} (three : ct ≤ 3) (small : byte < 256) :
    byte &&& leadMask ct = byte % 2 ^ (7 - ct) := by
  have low : leadMask ct % 2 ^ 8 = 2 ^ (7 - ct) - 1 := by
    interval_cases ct <;> decide
  have bounded : byte &&& leadMask ct < 2 ^ 8 := lt_of_le_of_lt Nat.and_le_left small
  calc byte &&& leadMask ct = (byte &&& leadMask ct) % 2 ^ 8 := (Nat.mod_eq_of_lt bounded).symm
    _ = byte % 2 ^ 8 &&& leadMask ct % 2 ^ 8 := Nat.and_mod_two_pow
    _ = byte &&& 2 ^ (7 - ct) - 1 := by rw [low, Nat.mod_eq_of_lt small]
    _ = byte % 2 ^ (7 - ct) := Nat.and_two_pow_sub_one_eq_mod _ _

/-- Inside the window one rune is consumed, whatever its bytes; a value of two
or more bytes' worth takes at least two of them. -/
theorem readUtf8_ok {m : Memory} {ptr : Int} (above : m.low ≤ ptr)
    (below : ptr + continuationCount (m.byte ptr) < m.high) :
    ∃ value < 2 ^ 16, (0x80 ≤ value → continuationCount (m.byte ptr) ≠ 0) ∧
      readUtf8 m ptr = .ok (value, ptr + continuationCount (m.byte ptr) + 1) := by
  have loaded := m.load_of_mem above (by omega)
  have small : (m.byte ptr).toNat &&& leadMask (continuationCount (m.byte ptr)) < 2 ^ 16 :=
    lt_of_le_of_lt Nat.and_le_left (lt_trans (m.byte ptr).toNat_lt (by norm_num))
  obtain ⟨value, valueSmall, single, run⟩ := readContinuation_ok above below small
  refine ⟨value, valueSmall, ?_, ?_⟩
  · intro large none
    have kept := single none
    rw [none, and_leadMask (by omega) (m.byte ptr).toNat_lt] at kept
    omega
  · rw [readUtf8_eq, loaded, ← run]
    rfl

/-- A rune that reaches over the end of the window faults there. -/
theorem readUtf8_error {m : Memory} {ptr : Int} (above : m.low ≤ ptr) (inside : ptr < m.high)
    (beyond : m.high ≤ ptr + continuationCount (m.byte ptr)) :
    readUtf8 m ptr = .error (.load m.high) := by
  rw [readUtf8_eq, m.load_of_mem above inside, ← readContinuation_error above inside beyond]
  rfl

/-! ## Encoded characters -/

theorem and_continuation_mask {byte : UInt8} {bits : Nat} (small : bits < 64)
    (eq : byte = UInt8.ofNat (bits + 0x80)) :
    byte.toNat &&& (~~~(0b10000000#32)).toNat = bits := by
  subst eq
  have value : (UInt8.ofNat (bits + 0x80)).toNat = bits + 0x80 := by
    rw [UInt8.toNat_ofNat']
    omega
  rw [value]
  interval_cases bits <;> rfl

/-- One turn of the continuation loop appends six bits. -/
theorem readContinuation_step {m : Memory} {ct codept bits : Nat} {ptr : Int}
    (above : m.low ≤ ptr + 1) (below : ptr + 1 < m.high) (small : bits < 64)
    (byteEq : m.byte (ptr + 1) = UInt8.ofNat (bits + 0x80)) :
    readContinuation m (ct + 1) codept ptr =
      readContinuation m ct ((codept * 64 + bits) % 2 ^ 16) (ptr + 1) := by
  rw [readContinuation, m.load_of_mem above below]
  have joined : (codept <<< 6) ||| bits = codept * 64 + bits := by
    rw [← Nat.shiftLeft_add_eq_or_of_lt small, Nat.shiftLeft_eq]
  change readContinuation m ct (((codept <<< 6) |||
    ((m.byte (ptr + 1)).toNat &&& (~~~(0b10000000#32)).toNat)) % 2 ^ 16) (ptr + 1) = _
  rw [and_continuation_mask small byteEq, joined]

theorem readUtf8_lead {m : Memory} {ptr : Int} {ct lead : Nat}
    (above : m.low ≤ ptr) (inside : ptr < m.high) (small : lead < 256)
    (leadEq : m.byte ptr = UInt8.ofNat lead)
    (count : continuationCount (UInt8.ofNat lead) = ct) :
    readUtf8 m ptr = readContinuation m ct (lead % 2 ^ (7 - ct)) ptr := by
  have value : (m.byte ptr).toNat = lead := by
    rw [leadEq, UInt8.toNat_ofNat']
    omega
  have three := continuationCount_le (m.byte ptr)
  rw [← leadEq] at count
  rw [readUtf8_eq, m.load_of_mem above inside]
  change readContinuation m (continuationCount (m.byte ptr)) _ ptr = _
  rw [count] at three ⊢
  rw [value, and_leadMask three small]

/-- The reader returns a character's scalar value modulo `2 ^ 16` and stops
behind its last byte. -/
theorem readUtf8_char {m : Memory} {ptr : Int} {c : Char}
    (spelled : Spells m.byte ptr (String.utf8EncodeChar c))
    (above : m.low ≤ ptr) (below : ptr + c.utf8Size ≤ m.high) :
    readUtf8 m ptr = .ok (runeValue c, ptr + c.utf8Size) := by
  have bound := toNat_lt c
  have positive := c.utf8Size_pos
  have inside : ptr < m.high := by omega
  rw [← String.length_utf8EncodeChar] at below ⊢
  unfold runeValue
  rcases scalar_cases c with one | two | three | four
  · rw [utf8EncodeChar_one one] at spelled below ⊢
    obtain ⟨first, -⟩ := spelled
    have count : continuationCount (UInt8.ofNat c.toNat) = 0 := by
      simp only [continuationCount, UInt8.toNat_ofNat']
      split_ifs <;> omega
    rw [readUtf8_lead above inside (by omega) first count, readContinuation]
    simp only [List.length_cons, List.length_nil]
    congr 2
    omega
  · rw [utf8EncodeChar_two two.1 two.2] at spelled below ⊢
    obtain ⟨first, second, -⟩ := spelled
    simp only [List.length_cons, List.length_nil] at below ⊢
    push_cast at below ⊢
    have count : continuationCount (UInt8.ofNat (c.toNat / 64 + 0xc0)) = 1 := by
      simp only [continuationCount, UInt8.toNat_ofNat']
      split_ifs <;> omega
    rw [readUtf8_lead above inside (by omega) first count,
      readContinuation_step (by omega) (by omega) (by omega) second, readContinuation]
    congr 2
    all_goals omega
  · rw [utf8EncodeChar_three three.1 three.2] at spelled below ⊢
    obtain ⟨first, second, third, -⟩ := spelled
    simp only [List.length_cons, List.length_nil] at below ⊢
    push_cast at below ⊢
    have count : continuationCount (UInt8.ofNat (c.toNat / 4096 + 0xe0)) = 2 := by
      simp only [continuationCount, UInt8.toNat_ofNat']
      split_ifs <;> omega
    rw [readUtf8_lead above inside (by omega) first count,
      readContinuation_step (by omega) (by omega) (by omega) second,
      readContinuation_step (by omega) (by omega) (by omega) third, readContinuation]
    congr 2
    all_goals omega
  · rw [utf8EncodeChar_four four] at spelled below ⊢
    obtain ⟨first, second, third, fourth, -⟩ := spelled
    simp only [List.length_cons, List.length_nil] at below ⊢
    push_cast at below ⊢
    have count : continuationCount (UInt8.ofNat (c.toNat / 262144 + 0xf0)) = 3 := by
      simp only [continuationCount, UInt8.toNat_ofNat']
      split_ifs <;> omega
    rw [readUtf8_lead above inside (by omega) first count,
      readContinuation_step (by omega) (by omega) (by omega) second,
      readContinuation_step (by omega) (by omega) (by omega) third,
      readContinuation_step (by omega) (by omega) (by omega) fourth, readContinuation]
    -- The top bits of the scalar leave the 16-bit accumulator here.
    congr 2
    all_goals omega

/-! ## The writer -/

theorem writeUtf8_within (m : Memory) (ptr : Int) (codept : Nat) :
    StoresWithin ptr (ptr + 2) m (writeUtf8 m ptr codept) :=
  (StoresWithin.store m _ (by omega) (by omega)).trans
    (StoresWithin.store _ _ (by omega) (by omega))

@[simp] theorem writeUtf8_stores (m : Memory) (ptr : Int) (codept : Nat) :
    (writeUtf8 m ptr codept).stores = (ptr + 1) :: ptr :: m.stores := rfl

theorem or_lead_bits {bits : Nat} (small : bits < 32) : 0b11000000 ||| bits = bits + 0xc0 := by
  interval_cases bits <;> rfl

theorem or_continuation_bits {bits : Nat} (small : bits < 64) :
    0b10000000 ||| bits = bits + 0x80 := by
  interval_cases bits <;> rfl

/-- Writing a 2-byte codepoint leaves the encoding of its character. -/
theorem writeUtf8_spells (m : Memory) (ptr : Int) {c : Char} (size : c.utf8Size = 2) :
    Spells (writeUtf8 m ptr c.toNat).byte ptr (String.utf8EncodeChar c) := by
  obtain ⟨above, below⟩ := utf8Size_eq_two_iff.mp size
  have shifted : c.toNat >>> 6 = c.toNat / 64 := Nat.shiftRight_eq_div_pow _ 6
  have masked : c.toNat &&& 0b111111 = c.toNat % 64 := Nat.and_two_pow_sub_one_eq_mod _ 6
  rw [utf8EncodeChar_two above below]
  refine ⟨?_, ?_, trivial⟩
  · rw [writeUtf8, Memory.store_byte_of_ne _ _ (by omega), Memory.store_byte_self, shifted,
      or_lead_bits (by omega)]
  · rw [writeUtf8, Memory.store_byte_self, masked, or_continuation_bits (by omega)]

end Elbbep
