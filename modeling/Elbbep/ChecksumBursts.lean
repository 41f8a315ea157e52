import Elbbep.FeedbackRegister
import Elbbep.ResourcePack

/-!
# What the checksum notices

The checksum of `pebblesdk/stm32_crc.py` is a shift register with feedback that is fed with the
words of the buffer, the highest bit of each word first.  Two buffers whose bits differ in a
burst of at most 32 places never have the same checksum.
-/

namespace Elbbep

namespace ResourcePack

open PythonStruct FeedbackRegister

/-- `CRC_POLY` as a pattern of the register. -/
def crcPattern : BitVec 32 :=
  BitVec.ofNat 32 crcPoly

theorem ofNat_processBit (crc : Nat) :
    BitVec.ofNat 32 (processBit crc) = shift crcPattern (BitVec.ofNat 32 crc) := by
  have top : (crc &&& 0x80000000 ≠ 0) ↔ (BitVec.ofNat 32 crc).msb = true := by
    have power : (0x80000000 : Nat) = 2 ^ 31 := by norm_num
    rw [BitVec.msb_eq_getLsbD_last, BitVec.getLsbD_ofNat, power, Nat.and_two_pow]
    cases crc.testBit 31 <;> simp
  have shifted : BitVec.ofNat 32 (crc <<< 1) = BitVec.ofNat 32 crc <<< 1 := by
    apply BitVec.eq_of_toNat_eq
    simp only [BitVec.toNat_ofNat, BitVec.toNat_shiftLeft, Nat.shiftLeft_eq]
    omega
  unfold processBit shift
  by_cases set : crc &&& 0x80000000 ≠ 0
  · rw [if_pos set, if_pos (top.mp set), BitVec.ofNat_xor, shifted]
    rfl
  · rw [if_neg set, if_neg (fun msb => set (top.mpr msb)), shifted]

theorem ofNat_iterate_processBit (count crc : Nat) :
    BitVec.ofNat 32 (Nat.iterate processBit count crc) =
      (shift crcPattern)^[count] (BitVec.ofNat 32 crc) := by
  induction count generalizing crc with
  | zero => rfl
  | succ count ih =>
      rw [Function.iterate_succ_apply, Function.iterate_succ_apply, ih, ofNat_processBit]

/-- The bits of a word, the highest first. -/
def wordBits (word : Nat) : List Bool :=
  (List.range 32).map fun j => word.testBit (31 - j)

theorem placed_wordBits (word : Nat) :
    (placed 0 (wordBits word) : BitVec 32) = BitVec.ofNat 32 word := by
  apply BitVec.eq_of_getLsbD_eq
  intro i inside
  have length : (wordBits word).length = 32 := by simp [wordBits]
  have bit : (placed 0 (wordBits word) : BitVec 32).getLsbD (32 - 1 - (0 + (31 - i))) = _ :=
    getLsbD_placed 0 (wordBits word) (31 - i) (by omega) (by omega)
  have place : 32 - 1 - (0 + (31 - i)) = i := by omega
  have small : 31 - i < 32 := by omega
  have back : 31 - (31 - i) = i := by omega
  rw [place] at bit
  rw [bit, BitVec.getLsbD_ofNat]
  simp [wordBits, small, back, inside]

theorem wordBits_injective {word other : Nat} (small : word < 2 ^ 32) (otherSmall : other < 2 ^ 32)
    (same : wordBits word = wordBits other) : word = other := by
  have registers : BitVec.ofNat 32 word = BitVec.ofNat 32 other := by
    rw [← placed_wordBits, same, placed_wordBits]
  have values := congrArg BitVec.toNat registers
  rwa [BitVec.toNat_ofNat, BitVec.toNat_ofNat, Nat.mod_eq_of_lt small,
    Nat.mod_eq_of_lt otherSmall] at values

/-- A word is fed bit by bit. -/
theorem processWord_eq_run (crc word : Nat) :
    processWord crc word = (run crcPattern (BitVec.ofNat 32 crc) (wordBits word)).toNat := by
  have length : (wordBits word).length = 32 := by simp [wordBits]
  have fed := run_eq_iterate crcPattern (BitVec.ofNat 32 crc) 0 (wordBits word) (by omega)
  rw [length, placed_wordBits] at fed
  simp only [Function.iterate_zero, id_eq, Nat.zero_add] at fed
  rw [fed, ← BitVec.ofNat_xor, ← ofNat_iterate_processBit, BitVec.toNat_ofNat]
  rfl

/-- The bits of a buffer, in the order in which they are fed. -/
def bufferBits (buf : List UInt8) : List Bool :=
  (wordsOf (padBuffer buf)).flatMap wordBits

theorem foldl_processWord (words : List Nat) {crc : Nat} (small : crc < 2 ^ 32) :
    words.foldl processWord crc =
      (run crcPattern (BitVec.ofNat 32 crc) (words.flatMap wordBits)).toNat := by
  induction words generalizing crc with
  | nil =>
      change crc = (BitVec.ofNat 32 crc).toNat
      rw [BitVec.toNat_ofNat, Nat.mod_eq_of_lt small]
  | cons word words ih =>
      have next : processWord crc word < 2 ^ 32 := Nat.mod_lt _ (by norm_num)
      rw [List.foldl_cons, ih next, List.flatMap_cons, run_append, processWord_eq_run,
        BitVec.ofNat_toNat, BitVec.setWidth_eq]

theorem crc32_eq_run (data : List UInt8) :
    crc32 data = (run crcPattern (0xffffffff : BitVec 32) (bufferBits data)).toNat :=
  foldl_processWord _ (by norm_num)

theorem crc32_ne_of_burst {data other : List UInt8} {front back burst burst' : List Bool}
    (bits : bufferBits data = front ++ burst ++ back)
    (otherBits : bufferBits other = front ++ burst' ++ back)
    (sameLength : burst.length = burst'.length) (short : burst.length ≤ 32)
    (different : burst ≠ burst') : crc32 data ≠ crc32 other := by
  rw [crc32_eq_run, crc32_eq_run, bits, otherBits]
  intro same
  exact run_ne_of_burst crcPattern (by decide) _ front back sameLength short different
    (BitVec.eq_of_toNat_eq same)

/-! ## Groups of four bytes -/

theorem wordsOf_append {front : List UInt8} (aligned : 4 ∣ front.length) (back : List UInt8) :
    wordsOf (front ++ back) = wordsOf front ++ wordsOf back := by
  induction front using wordsOf.induct with
  | case1 b0 b1 b2 b3 rest ih =>
      have shorter : 4 ∣ rest.length := by
        simp only [List.length_cons] at aligned
        omega
      simp only [List.cons_append, wordsOf, ih shorter]
  | case2 front short =>
      have empty : front = [] := by
        rcases front with _ | ⟨b0, _ | ⟨b1, _ | ⟨b2, _ | ⟨b3, rest⟩⟩⟩⟩
        · rfl
        · simp at aligned
        · simp at aligned
        · simp at aligned
        · exact absurd rfl (short b0 b1 b2 b3 rest)
      subst empty
      rfl

theorem padBuffer_append {front : List UInt8} (aligned : 4 ∣ front.length) (back : List UInt8) :
    padBuffer (front ++ back) = front ++ padBuffer back := by
  obtain ⟨count, length⟩ := aligned
  have words : (front ++ back).length / 4 * 4 = front.length + back.length / 4 * 4 := by
    rw [List.length_append]
    omega
  have left : (front ++ back).length % 4 = back.length % 4 := by
    rw [List.length_append]
    omega
  unfold padBuffer
  dsimp only
  rw [words, left]
  by_cases odd : back.length % 4 ≠ 0
  · rw [if_pos odd, if_pos odd, List.take_length_add_append, List.drop_length_add_append]
    simp only [List.append_assoc]
  · rw [if_neg odd, if_neg odd]

theorem length_padBuffer (buf : List UInt8) :
    (padBuffer buf).length = (buf.length + 3) / 4 * 4 := by
  unfold padBuffer
  dsimp only
  split
  · simp only [List.length_append, List.length_take, List.length_reverse, List.length_drop,
      List.length_replicate]
    omega
  · omega

theorem padBuffer_injective {buf other : List UInt8} (sameLength : buf.length = other.length)
    (same : padBuffer buf = padBuffer other) : buf = other := by
  unfold padBuffer at same
  dsimp only at same
  rw [sameLength] at same
  split at same
  · have unpadded := List.append_inj_left' same rfl
    obtain ⟨front, back⟩ := List.append_inj unpadded (by simp [sameLength])
    rw [← List.take_append_drop (other.length / 4 * 4) buf, front, List.reverse_injective back,
      List.take_append_drop]
  · exact same

theorem u32_injective {a0 a1 a2 a3 b0 b1 b2 b3 : UInt8}
    (same : u32 a0 a1 a2 a3 = u32 b0 b1 b2 b3) : a0 = b0 ∧ a1 = b1 ∧ a2 = b2 ∧ a3 = b3 := by
  have bounds := And.intro a0.toNat_lt (And.intro a1.toNat_lt (And.intro a2.toNat_lt b0.toNat_lt))
  have more := And.intro b1.toNat_lt b2.toNat_lt
  unfold u32 at same
  simp only [← UInt8.toNat_inj]
  omega

theorem u32_lt (b0 b1 b2 b3 : UInt8) : u32 b0 b1 b2 b3 < 2 ^ 32 := by
  have bounds := And.intro b0.toNat_lt (And.intro b1.toNat_lt (And.intro b2.toNat_lt b3.toNat_lt))
  unfold u32
  omega

theorem exists_word {bytes : List UInt8} (length : bytes.length = 4) :
    ∃ b0 b1 b2 b3, bytes = [b0, b1, b2, b3] ∧ wordsOf bytes = [u32 b0 b1 b2 b3] := by
  obtain ⟨b0, b1, b2, b3, rfl⟩ := List.length_eq_four.mp length
  exact ⟨b0, b1, b2, b3, rfl, by simp [wordsOf]⟩

/-- The checksums of two buffers differ if the bits that are fed differ in a burst of at most 32
places, and so if the buffers differ within one group of four bytes or within the rest behind the
last group. -/
theorem crc32_notices :
    (∀ data other front back burst burst', bufferBits data = front ++ burst ++ back →
      bufferBits other = front ++ burst' ++ back → burst.length = burst'.length →
      burst.length ≤ 32 → burst ≠ burst' → crc32 data ≠ crc32 other) ∧
    ∀ front group group' back : List UInt8, 4 ∣ front.length → group.length = group'.length →
      (group.length = 4 ∨ group.length < 4 ∧ back = []) → group ≠ group' →
      crc32 (front ++ group ++ back) ≠ crc32 (front ++ group' ++ back) := by
  refine ⟨fun _ _ _ _ _ _ => crc32_ne_of_burst, ?_⟩
  intro front group group' back aligned sameLength whole different
  have nonempty : 0 < group.length := by
    by_contra empty
    apply different
    rw [List.eq_nil_of_length_eq_zero (by omega : group.length = 0),
      List.eq_nil_of_length_eq_zero (by omega : group'.length = 0)]
  have split : ∀ bytes : List UInt8, bytes.length = group.length →
      bufferBits (front ++ bytes ++ back) = (wordsOf front).flatMap wordBits ++
        (wordsOf (padBuffer bytes)).flatMap wordBits ++
          (wordsOf (padBuffer back)).flatMap wordBits := by
    intro bytes length
    have rest : wordsOf (padBuffer (bytes ++ back)) =
        wordsOf (padBuffer bytes) ++ wordsOf (padBuffer back) := by
      rcases whole with four | ⟨-, rfl⟩
      · have fits : 4 ∣ bytes.length := ⟨1, by omega⟩
        have exactly : padBuffer bytes = bytes := by
          have alone := padBuffer_append fits []
          simpa [padBuffer] using alone
        rw [padBuffer_append fits, wordsOf_append fits, exactly]
      · rw [List.append_nil]
        simp [padBuffer, wordsOf]
    rw [bufferBits, List.append_assoc, padBuffer_append aligned, wordsOf_append aligned, rest,
      List.flatMap_append, List.flatMap_append, List.append_assoc]
  obtain ⟨a0, a1, a2, a3, bytes, word⟩ := exists_word
    (by rw [length_padBuffer]; omega : (padBuffer group).length = 4)
  obtain ⟨b0, b1, b2, b3, bytes', word'⟩ := exists_word
    (by rw [length_padBuffer]; omega : (padBuffer group').length = 4)
  apply crc32_ne_of_burst (split group rfl) (split group' sameLength.symm)
  · simp [word, word', wordBits]
  · simp [word, wordBits]
  · intro sameBits
    simp only [word, word', List.flatMap_cons, List.flatMap_nil, List.append_nil] at sameBits
    apply different
    apply padBuffer_injective sameLength
    obtain ⟨rfl, rfl, rfl, rfl⟩ := u32_injective (wordBits_injective (u32_lt _ _ _ _)
      (u32_lt _ _ _ _) sameBits)
    rw [bytes, bytes']

theorem crc32_notices_sample :
    crc32 ([1, 2, 3, 4] ++ [5, 6] ++ []) ≠ crc32 ([1, 2, 3, 4] ++ [5, 7] ++ []) :=
  crc32_notices.2 [1, 2, 3, 4] [5, 6] [5, 7] [] ⟨1, rfl⟩ rfl (by decide) (by decide)

end ResourcePack

end Elbbep
