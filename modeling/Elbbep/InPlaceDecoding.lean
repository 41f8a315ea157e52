import Mathlib.Data.Nat.Digits.Lemmas
import Mathlib.Data.List.SplitBy
import Elbbep.CompressedFonts

/-!
# Decompressing a glyph in place

The firmware loads a compressed glyph to the end of a buffer and decompresses it to the start
of the same buffer.  `check_decompress_glyph_RLE4` plays this through for every glyph that is
written.  Here it is shown that a glyph that passes is decompressed to the very bytes that the
uncompressed format has for it, and when a glyph passes.
-/

namespace Elbbep

namespace FontGen

open PythonStruct

/-! ## Words of bits -/

theorem wordOf_eq_ofDigits (bits : List Bool) :
    wordOf bits = Nat.ofDigits 2 (bits.map Bool.toNat) := by
  induction bits with
  | nil => rfl
  | cons bit bits ih =>
      rw [wordOf, ih, List.map_cons, Nat.ofDigits_cons]

theorem wordOf_append (front back : List Bool) :
    wordOf (front ++ back) = wordOf front + 2 ^ front.length * wordOf back := by
  simp only [wordOf_eq_ofDigits, List.map_append, Nat.ofDigits_append, List.length_map]

theorem wordOf_lt (bits : List Bool) : wordOf bits < 2 ^ bits.length := by
  rw [wordOf_eq_ofDigits, ← List.length_map Bool.toNat]
  apply Nat.ofDigits_lt_base_pow_length one_lt_two
  intro digit member
  obtain ⟨bit, -, rfl⟩ := List.mem_map.mp member
  exact bit.toNat_lt

theorem wordOf_replicate_true (length : Nat) :
    wordOf (List.replicate length true) = 2 ^ length - 1 := by
  induction length with
  | zero => rfl
  | succ length ih =>
      have positive := Nat.two_pow_pos length
      rw [List.replicate_succ, wordOf, ih, Bool.toNat_true, pow_succ]
      omega

theorem wordOf_replicate_false (length : Nat) :
    wordOf (List.replicate length false) = 0 := by
  induction length with
  | zero => rfl
  | succ length ih => rw [List.replicate_succ, wordOf, ih, Bool.toNat_false]

/-- Bits that follow each other, cut behind the first `count` of them. -/
theorem wordOf_take_drop (bits : List Bool) (count : Nat) :
    wordOf (bits.take count) = wordOf bits % 2 ^ count ∧
      wordOf (bits.drop count) = wordOf bits / 2 ^ count := by
  by_cases short : bits.length ≤ count
  · have small : wordOf bits < 2 ^ count :=
      lt_of_lt_of_le (wordOf_lt bits) (Nat.pow_le_pow_right two_pos short)
    rw [List.take_of_length_le short, List.drop_of_length_le short]
    exact ⟨(Nat.mod_eq_of_lt small).symm, (Nat.div_eq_of_lt small).symm⟩
  · have length : (bits.take count).length = count := by
      rw [List.length_take]
      omega
    have small : wordOf (bits.take count) < 2 ^ count := by
      have bound := wordOf_lt (bits.take count)
      rwa [length] at bound
    have whole : wordOf bits =
        wordOf (bits.take count) + 2 ^ count * wordOf (bits.drop count) := by
      conv_lhs => rw [← List.take_append_drop count bits]
      rw [wordOf_append, length]
    constructor
    · rw [whole, Nat.add_mul_mod_self_left, Nat.mod_eq_of_lt small]
    · rw [whole, Nat.add_mul_div_left _ _ (Nat.two_pow_pos count), Nat.div_eq_of_lt small,
        Nat.zero_add]

theorem testBit_wordOf (bits : List Bool) (index : Nat) :
    (wordOf bits).testBit index = bits.getD index false := by
  induction bits generalizing index with
  | nil => simp [wordOf]
  | cons bit bits ih =>
      cases index with
      | zero =>
          cases bit <;> simp [wordOf, Nat.testBit_zero]
      | succ index =>
          have half : (bit.toNat + 2 * wordOf bits) / 2 = wordOf bits := by
            have small := bit.toNat_lt
            omega
          rw [wordOf, Nat.testBit_add_one, half, ih, List.getD_cons_succ]

/-! ## Units -/

/-- The bits that a list of units stands for. -/
def expandUnits (units : List (Bool × Nat)) : List Bool :=
  units.flatMap fun unit => List.replicate unit.2 unit.1

theorem expandUnits_append (front back : List (Bool × Nat)) :
    expandUnits (front ++ back) = expandUnits front ++ expandUnits back :=
  List.flatMap_append

theorem expandUnits_cutRun (name : Bool) (fuel length : Nat) (enough : length ≤ fuel) :
    expandUnits (cutRun name fuel length) = List.replicate length name := by
  induction fuel generalizing length with
  | zero =>
      have empty : length = 0 := by omega
      subst empty
      rfl
  | succ fuel ih =>
      rw [cutRun]
      split
      case isTrue positive =>
          have unit : 0 < min length rleLen := lt_min positive (by decide)
          rw [expandUnits, List.flatMap_cons]
          change List.replicate (min length rleLen) name ++ expandUnits _ = _
          rw [ih _ (by omega), ← List.replicate_add]
          congr 1
          omega
      case isFalse zero =>
          have empty : length = 0 := by omega
          subst empty
          rfl

theorem cutRun_bounds (name : Bool) (fuel length : Nat) :
    ∀ unit ∈ cutRun name fuel length, 1 ≤ unit.2 ∧ unit.2 ≤ 8 := by
  induction fuel generalizing length with
  | zero => simp [cutRun]
  | succ fuel ih =>
      intro unit member
      rw [cutRun] at member
      split at member
      case isTrue positive =>
          rcases List.mem_cons.mp member with rfl | later
          · change 1 ≤ min length 8 ∧ min length 8 ≤ 8
            omega
          · exact ih _ unit later
      case isFalse => simp at member

theorem eq_replicate_of_isChain {group : List Bool}
    (chain : group.IsChain fun x y => (x == y) = true) :
    group = List.replicate group.length (group.headD false) := by
  induction group with
  | nil => rfl
  | cons bit group ih =>
      cases group with
      | nil => rfl
      | cons next group =>
          rw [List.isChain_cons_cons] at chain
          have same : bit = next := by simpa using chain.1
          subst same
          have tail := ih chain.2
          rw [List.headD_cons] at tail
          rw [List.headD_cons, List.length_cons, List.replicate_succ, ← tail]

/-- The units of a bitmap stand for the bitmap. -/
theorem expandUnits_rleUnitList (bitmap : List Bool) :
    expandUnits (rleUnitList bitmap) = bitmap := by
  have groups : ∀ groups : List (List Bool),
      (∀ group ∈ groups, group.IsChain fun x y => (x == y) = true) →
      expandUnits (groups.flatMap fun group =>
        cutRun (group.headD false) group.length group.length) = groups.flatten := by
    intro groups chains
    induction groups with
    | nil => rfl
    | cons group groups ih =>
        rw [List.flatMap_cons, expandUnits_append, expandUnits_cutRun _ _ _ le_rfl,
          ih fun later member => chains later (List.mem_cons_of_mem _ member),
          List.flatten_cons, ← eq_replicate_of_isChain (chains group List.mem_cons_self)]
  rw [rleUnitList, groups _ fun group => List.isChain_of_mem_splitBy, List.flatten_splitBy]

theorem rleUnitList_bounds (bitmap : List Bool) :
    ∀ unit ∈ rleUnitList bitmap, 1 ≤ unit.2 ∧ unit.2 ≤ 8 := by
  intro unit member
  obtain ⟨group, -, inGroup⟩ := List.mem_flatMap.mp member
  exact cutRun_bounds _ _ _ unit inGroup

theorem toNat_packUnits {first second : Bool × Nat} (one : 1 ≤ first.2 ∧ first.2 ≤ 8)
    (two : 1 ≤ second.2 ∧ second.2 ≤ 8) :
    (packUnits first second).toNat =
      8 * first.1.toNat + (first.2 - 1) + 128 * second.1.toNat + 16 * (second.2 - 1) := by
  apply toNat_ofNat_byte
  have smallFirst := first.1.toNat_lt
  have smallSecond := second.1.toNat_lt
  omega

theorem getElem?_packUnitPairs (units : List (Bool × Nat)) (pair : Nat)
    {first second : Bool × Nat} (one : units[2 * pair]? = some first)
    (two : units[2 * pair + 1]? = some second) :
    (packUnitPairs units)[pair]? = some (packUnits first second) := by
  induction units using packUnitPairs.induct generalizing pair with
  | case1 head next units ih =>
      cases pair with
      | zero =>
          obtain rfl : head = first := by simpa using one
          obtain rfl : next = second := by simpa using two
          rfl
      | succ pair =>
          have shift : 2 * (pair + 1) = 2 * pair + 1 + 1 := by ring
          rw [shift, List.getElem?_cons_succ, List.getElem?_cons_succ] at one
          rw [shift, List.getElem?_cons_succ, List.getElem?_cons_succ] at two
          rw [packUnitPairs, List.getElem?_cons_succ, ih pair one two]
  | case2 units short =>
      cases units with
      | nil => simp at one
      | cons head units =>
          cases units with
          | nil => simp at two
          | cons next units => exact absurd rfl (short head next units)

/-! ## The decoder -/

/-- The last loop of `check_decompress_glyph_RLE4`, which writes the bits that are left. -/
def flushBits : (fuel : Nat) → DecompressState → Except PyError DecompressState
  | 0, state => .ok state
  | fuel + 1, state =>
      if state.outNumBits > 0 then
        if state.dstPtr ≥ glyphBufferSizeBytes then .error .indexError
        else flushBits fuel { state with
          bitmap := state.bitmap.set state.dstPtr (state.out % 256)
          dstPtr := state.dstPtr + 1
          out := state.out / 256
          outNumBits := state.outNumBits - 8 }
      else .ok state

/-- The buffer with which `check_decompress_glyph_RLE4` starts: the packed glyph at its end. -/
def glyphBuffer (glyphPacked : List UInt8) : List Nat :=
  List.replicate (glyphBufferSizeBytes - glyphPacked.length) 0 ++ glyphPacked.map UInt8.toNat

/-- The buffer with which it ends. -/
def decompressGlyphRle4 (glyphPacked : List UInt8) (rleUnits : Nat) :
    Except PyError (List Nat) := do
  let state ← decompressUnits rleUnits
    ⟨glyphBuffer glyphPacked, glyphBufferSizeBytes - glyphPacked.length, 5, 0, 0, 0⟩
  let state ← flushBits state.outNumBits state
  .ok state.bitmap

/-- The byte `index` of a bitmap. -/
def byteOf (bits : List Bool) (index : Nat) : Nat :=
  wordOf ((bits.drop (8 * index)).take 8)

/-- What has been written when the units read so far stand for `bits`.  What is not read yet
is as it was stored. -/
structure DecompressState.Holds (state : DecompressState) (stored : List Nat)
    (bits : List Bool) : Prop where
  length : state.bitmap.length = glyphBufferSizeBytes
  dst : state.dstPtr = 5 + bits.length / 8
  numBits : state.outNumBits = bits.length % 8
  out : state.out = wordOf (bits.drop (8 * (bits.length / 8)))
  written : ∀ index < bits.length / 8, state.bitmap.getD (5 + index) 0 = byteOf bits index
  unread : ∀ index, state.srcPtr ≤ index → state.bitmap.getD index 0 = stored.getD index 0

/-- The byte that a unit completes, if it does, lies before the place from which the next pair
is read. -/
def StaysBehind (bits : List Bool) (length srcPtr : Nat) : Prop :=
  8 ≤ bits.length % 8 + length → 5 + bits.length / 8 < srcPtr

theorem byteOf_append {bits : List Bool} {index : Nat} (inside : index < bits.length / 8)
    (more : List Bool) : byteOf (bits ++ more) index = byteOf bits index := by
  have room : 8 ≤ (bits.drop (8 * index)).length := by
    rw [List.length_drop]
    omega
  rw [byteOf, byteOf, List.drop_append_of_le_length (by omega), List.take_append_of_le_length room]

/-- The bits that wait for the next byte, with those of one more unit. -/
theorem waiting_append (bits : List Bool) (length : Nat) (name : Bool) :
    (if name.toNat = 1 then wordOf (bits.drop (8 * (bits.length / 8))) |||
        ((2 ^ length - 1) <<< (bits.length % 8))
      else wordOf (bits.drop (8 * (bits.length / 8)))) =
      wordOf ((bits ++ List.replicate length name).drop (8 * (bits.length / 8))) := by
  have within : 8 * (bits.length / 8) ≤ bits.length := Nat.mul_div_le bits.length 8
  have waiting : (bits.drop (8 * (bits.length / 8))).length = bits.length % 8 := by
    rw [List.length_drop]
    omega
  have small : wordOf (bits.drop (8 * (bits.length / 8))) < 2 ^ (bits.length % 8) := by
    have bound := wordOf_lt (bits.drop (8 * (bits.length / 8)))
    rwa [waiting] at bound
  rw [List.drop_append_of_le_length within, wordOf_append, waiting]
  cases name with
  | false => simp [wordOf_replicate_false]
  | true =>
      rw [wordOf_replicate_true, Nat.or_comm, ← Nat.shiftLeft_add_eq_or_of_lt small,
        Nat.shiftLeft_eq, if_pos Bool.toNat_true]
      ring

namespace DecompressState

variable {state next : DecompressState} {stored : List Nat} {bits : List Bool}

/-- The state after a unit that completes no byte. -/
theorem Holds.wait (holds : state.Holds stored bits) {length : Nat} {name : Bool}
    (short : bits.length % 8 + length < 8) {unitPair : Nat} :
    Holds { state with
      out := wordOf ((bits ++ List.replicate length name).drop (8 * (bits.length / 8)))
      outNumBits := bits.length % 8 + length
      unitPair := unitPair } stored (bits ++ List.replicate length name) := by
  have total : (bits ++ List.replicate length name).length = bits.length + length := by simp
  have bytes : (bits.length + length) / 8 = bits.length / 8 := by omega
  refine ⟨holds.length, ?_, ?_, ?_, ?_, holds.unread⟩
  · rw [total, bytes]
    exact holds.dst
  · rw [total]
    change bits.length % 8 + length = (bits.length + length) % 8
    omega
  · rw [total, bytes]
  · rw [total, bytes]
    intro index inside
    rw [byteOf_append inside]
    exact holds.written index inside

/-- The state after a unit that completes a byte. -/
theorem Holds.emit (holds : state.Holds stored bits) {length : Nat} {name : Bool}
    (long : 8 ≤ bits.length % 8 + length) (unit : length ≤ 8)
    (behind : 5 + bits.length / 8 < state.srcPtr) (room : state.srcPtr ≤ glyphBufferSizeBytes)
    {unitPair : Nat} :
    Holds { state with
      bitmap := state.bitmap.set state.dstPtr
        (wordOf ((bits ++ List.replicate length name).drop (8 * (bits.length / 8))) % 256)
      dstPtr := state.dstPtr + 1
      out := wordOf ((bits ++ List.replicate length name).drop (8 * (bits.length / 8))) / 256
      outNumBits := bits.length % 8 + length - 8
      unitPair := unitPair } stored (bits ++ List.replicate length name) := by
  have total : (bits ++ List.replicate length name).length = bits.length + length := by simp
  have bytes : (bits.length + length) / 8 = bits.length / 8 + 1 := by omega
  have cut := wordOf_take_drop
    ((bits ++ List.replicate length name).drop (8 * (bits.length / 8))) 8
  refine ⟨?_, ?_, ?_, ?_, ?_, ?_⟩
  · simpa using holds.length
  · rw [total, bytes, holds.dst]
    rfl
  · rw [total]
    change bits.length % 8 + length - 8 = (bits.length + length) % 8
    omega
  · rw [total, bytes, Nat.mul_add, ← List.drop_drop]
    exact cut.2.symm
  · rw [total, bytes]
    intro index inside
    simp only [holds.dst, List.getD_eq_getElem?_getD, List.getElem?_set]
    by_cases last : index = bits.length / 8
    · subst last
      rw [if_pos rfl, if_pos (by rw [holds.length]; omega), Option.getD_some, byteOf]
      exact cut.1.symm
    · rw [if_neg (by omega), byteOf_append (by omega)]
      exact holds.written index (by omega)
  · intro index after
    have apart : 5 + bits.length / 8 ≠ index := by
      have later : state.srcPtr ≤ index := after
      omega
    simp only [holds.dst, List.getD_eq_getElem?_getD, List.getElem?_set, if_neg apart]
    exact holds.unread index after

end DecompressState

/-- One unit: the decoder goes on exactly if the byte that the unit completes stays behind. -/
theorem decompressUnit_spec {state : DecompressState} {stored : List Nat} {bits : List Bool}
    (holds : state.Holds stored bits) {name : Bool} {length : Nat}
    (colour : state.unitPair / 8 % 2 = name.toNat) (count : state.unitPair % 8 + 1 = length)
    (room : state.srcPtr ≤ glyphBufferSizeBytes) :
    (StaysBehind bits length state.srcPtr → ∃ next, decompressUnit state = .ok next ∧
      next.Holds stored (bits ++ List.replicate length name) ∧ next.srcPtr = state.srcPtr ∧
      next.unitPair = state.unitPair / 16) ∧
    (¬ StaysBehind bits length state.srcPtr → decompressUnit state = .error .exception) := by
  have unit : length ≤ 8 := by omega
  have out := waiting_append bits length name
  simp only [decompressUnit, colour, count, holds.out, holds.numBits, out]
  constructor
  · intro behind
    by_cases long : 8 ≤ bits.length % 8 + length
    · have place := behind long
      rw [if_pos long, if_neg (by rw [holds.dst]; omega), if_neg (by rw [holds.dst]; omega)]
      exact ⟨_, rfl, holds.emit long unit place room, rfl, rfl⟩
    · rw [if_neg long]
      exact ⟨_, rfl, holds.wait (by omega), rfl, rfl⟩
  · intro overrun
    rw [StaysBehind, Classical.not_imp] at overrun
    rw [if_pos overrun.1, if_pos (by rw [holds.dst]; omega)]

theorem expandUnits_take_succ {units : List (Bool × Nat)} {k : Nat} {unit : Bool × Nat}
    (here : units[k]? = some unit) :
    expandUnits (units.take (k + 1)) =
      expandUnits (units.take k) ++ List.replicate unit.2 unit.1 := by
  rw [List.take_add_one, here, Option.toList_some, expandUnits_append]
  simp [expandUnits]

/-- The byte with unit `k` holds the unit, in its lower half or its upper half. -/
def ReadsUnits (stored : List Nat) (start : Nat) (units : List (Bool × Nat)) : Prop :=
  ∀ k unit, units[k]? = some unit →
    stored.getD (start + k / 2) 0 / 16 ^ (k % 2) / 8 % 2 = unit.1.toNat ∧
      stored.getD (start + k / 2) 0 / 16 ^ (k % 2) % 8 + 1 = unit.2

/-- Unit `k` overwrites nothing that is still to be read. -/
def UnitStays (start : Nat) (units : List (Bool × Nat)) (k : Nat) : Prop :=
  ∀ unit, units[k]? = some unit →
    StaysBehind (expandUnits (units.take k)) unit.2 (start + k / 2 + 1)

section Run

variable {stored : List Nat} {start : Nat} {units : List (Bool × Nat)} {state : DecompressState}

/-- Unit `k`, read from the lower half of the current pair if `k` is even. -/
theorem decompressUnit_at (reads : ReadsUnits stored start units)
    (room : start + (units.length + 1) / 2 ≤ glyphBufferSizeBytes) {k : Nat}
    (inside : k < units.length)
    (holds : state.Holds stored (expandUnits (units.take k)))
    (pair : state.unitPair = stored.getD (start + k / 2) 0 / 16 ^ (k % 2))
    (src : state.srcPtr = start + k / 2 + 1) :
    (UnitStays start units k → ∃ next, decompressUnit state = .ok next ∧
      next.Holds stored (expandUnits (units.take (k + 1))) ∧ next.srcPtr = state.srcPtr ∧
      next.unitPair = state.unitPair / 16) ∧
    (¬ UnitStays start units k → decompressUnit state = .error .exception) := by
  have here : units[k]? = some units[k] := List.getElem?_eq_getElem inside
  have read := reads k _ here
  rw [← pair] at read
  obtain ⟨passes, fails⟩ := decompressUnit_spec holds read.1 read.2 (by omega)
  rw [src] at passes fails
  rw [expandUnits_take_succ here]
  have same : UnitStays start units k ↔
      StaysBehind (expandUnits (units.take k)) units[k].2 (start + k / 2 + 1) := by
    simp [UnitStays, here]
  rw [same, src]
  exact ⟨passes, fails⟩

/-- The pair with unit `k` is loaded. -/
theorem DecompressState.Holds.load {bits : List Bool} (holds : state.Holds stored bits) :
    DecompressState.Holds { state with
      unitPair := state.bitmap.getD state.srcPtr 0
      srcPtr := state.srcPtr + 1 } stored bits :=
  ⟨holds.length, holds.dst, holds.numBits, holds.out, holds.written,
    fun index after => holds.unread index (by
      have later : state.srcPtr + 1 ≤ index := after
      omega)⟩

/-- The run over the units from an even one on. -/
theorem decompressUnits_spec (reads : ReadsUnits stored start units)
    (room : start + (units.length + 1) / 2 ≤ glyphBufferSizeBytes) (n k : Nat)
    (left : k + n = units.length) (even : k % 2 = 0)
    (holds : state.Holds stored (expandUnits (units.take k)))
    (src : state.srcPtr = start + k / 2) :
    ((∀ j, k ≤ j → UnitStays start units j) →
      ∃ next, decompressUnits n state = .ok next ∧ next.Holds stored (expandUnits units)) ∧
    ((∃ j, k ≤ j ∧ ¬ UnitStays start units j) → decompressUnits n state = .error .exception) := by
  induction n using Nat.twoStepInduction generalizing k state with
  | zero =>
      have all : units.take k = units := List.take_of_length_le (by omega)
      rw [all] at holds
      refine ⟨fun _ => ⟨state, rfl, holds⟩, ?_⟩
      rintro ⟨j, after, overrun⟩
      refine absurd ?_ overrun
      intro unit here
      obtain ⟨inside, -⟩ := List.getElem?_eq_some_iff.mp here
      omega
  | one =>
      have pair : state.bitmap.getD state.srcPtr 0 =
          stored.getD (start + k / 2) 0 / 16 ^ (k % 2) := by
        rw [holds.unread _ le_rfl, src, even, pow_zero, Nat.div_one]
      obtain ⟨passes, fails⟩ := decompressUnit_at reads room (k := k) (by omega) holds.load pair
        (congrArg (· + 1) src)
      have all : units.take (k + 1) = units := List.take_of_length_le (by omega)
      rw [decompressUnits, if_neg (by omega)]
      constructor
      · intro stays
        obtain ⟨next, run, after, -, -⟩ := passes (stays k le_rfl)
        rw [all] at after
        exact ⟨next, run, after⟩
      · rintro ⟨j, after, overrun⟩
        apply fails
        have last : j = k := by
          by_contra different
          apply overrun
          intro unit here
          obtain ⟨inside, -⟩ := List.getElem?_eq_some_iff.mp here
          omega
        rwa [last] at overrun
  | more n ih _ =>
      have pair : state.bitmap.getD state.srcPtr 0 =
          stored.getD (start + k / 2) 0 / 16 ^ (k % 2) := by
        rw [holds.unread _ le_rfl, src, even, pow_zero, Nat.div_one]
      obtain ⟨passes, fails⟩ := decompressUnit_at reads room (k := k) (by omega) holds.load pair
        (congrArg (· + 1) src)
      rw [decompressUnits, if_neg (by omega)]
      by_cases first : UnitStays start units k
      case neg =>
        rw [fails first]
        exact ⟨fun stays => absurd (stays k le_rfl) first, fun _ => rfl⟩
      obtain ⟨middle, run, middleHolds, middleSrc, middlePair⟩ := passes first
      rw [run]
      have odd : (k + 1) % 2 = 1 := by omega
      have half : (k + 1) / 2 = k / 2 := by omega
      have secondPair : middle.unitPair =
          stored.getD (start + (k + 1) / 2) 0 / 16 ^ ((k + 1) % 2) := by
        rw [middlePair, odd, half, pow_one]
        change state.bitmap.getD state.srcPtr 0 / 16 = _
        rw [pair, even, pow_zero, Nat.div_one]
      obtain ⟨passes, fails⟩ := decompressUnit_at reads room (k := k + 1) (by omega) middleHolds
        secondPair (by rw [middleSrc, half]; exact congrArg (· + 1) src)
      by_cases second : UnitStays start units (k + 1)
      case neg =>
        change (_ → ∃ next, (decompressUnit middle).bind _ = _ ∧ _) ∧
          (_ → (decompressUnit middle).bind _ = _)
        rw [fails second]
        exact ⟨fun stays => absurd (stays (k + 1) (by omega)) second, fun _ => rfl⟩
      obtain ⟨next, run, nextHolds, nextSrc, -⟩ := passes second
      obtain ⟨passes, fails⟩ := ih (k + 1 + 1) (by omega) (by omega) nextHolds (by
        rw [nextSrc, middleSrc]
        change state.srcPtr + 1 = _
        omega)
      change (_ → ∃ next, (decompressUnit middle).bind _ = _ ∧ _) ∧
        (_ → (decompressUnit middle).bind _ = _)
      rw [run]
      constructor
      · intro stays
        exact passes fun j after => stays j (by omega)
      · rintro ⟨j, after, overrun⟩
        refine fails ⟨j, ?_, overrun⟩
        have notFirst : j ≠ k := fun same => overrun (same ▸ first)
        have notSecond : j ≠ k + 1 := fun same => overrun (same ▸ second)
        omega

end Run

/-! ## The compressed stream -/

theorem compressGlyphRle4_snd (bitmap : List Bool) :
    (compressGlyphRle4 bitmap).2 = (rleUnitList bitmap).length := rfl

/-- The place in the buffer at which the stream of a bitmap starts. -/
def streamStart (bitmap : List Bool) : Nat :=
  glyphBufferSizeBytes - ((rleUnitList bitmap).length + 7) / 8 * 4

/-- The unit that is added to an odd number of units is read by nothing. -/
theorem getElem?_compressGlyphRle4 (bitmap : List Bool) {k : Nat} {unit : Bool × Nat}
    (here : (rleUnitList bitmap)[k]? = some unit) :
    ∃ byte, (compressGlyphRle4 bitmap).1[k / 2]? = some byte ∧
      byte.toNat / 16 ^ (k % 2) / 8 % 2 = unit.1.toNat ∧
      byte.toNat / 16 ^ (k % 2) % 8 + 1 = unit.2 := by
  obtain ⟨inside, -⟩ := List.getElem?_eq_some_iff.mp here
  set padded := if (rleUnitList bitmap).length % 2 = 1 then rleUnitList bitmap ++ [(false, 1)]
    else rleUnitList bitmap with paddedEq
  have bounds : ∀ unit ∈ padded, 1 ≤ unit.2 ∧ unit.2 ≤ 8 := by
    intro unit member
    rw [paddedEq] at member
    split at member
    · rcases List.mem_append.mp member with old | new
      · exact rleUnitList_bounds bitmap unit old
      · obtain rfl := List.mem_singleton.mp new
        decide
    · exact rleUnitList_bounds bitmap unit member
  have size : 2 * (k / 2) + 1 < padded.length := by
    rw [paddedEq]
    split
    · rw [List.length_append, List.length_singleton]
      omega
    · omega
  have same : padded[k]? = some unit := by
    rw [paddedEq]
    split
    · rw [List.getElem?_append_left inside, here]
    · exact here
  obtain ⟨first, one⟩ : ∃ first, padded[2 * (k / 2)]? = some first :=
    ⟨_, List.getElem?_eq_getElem (by omega)⟩
  obtain ⟨second, two⟩ : ∃ second, padded[2 * (k / 2) + 1]? = some second :=
    ⟨_, List.getElem?_eq_getElem size⟩
  have packed := getElem?_packUnitPairs padded (k / 2) one two
  obtain ⟨shorter, -⟩ := List.getElem?_eq_some_iff.mp packed
  refine ⟨packUnits first second, ?_, ?_⟩
  · change (packUnitPairs padded ++ _)[k / 2]? = _
    rw [List.getElem?_append_left shorter, packed]
  have oneBounds := bounds first (List.mem_of_getElem? one)
  have twoBounds := bounds second (List.mem_of_getElem? two)
  have firstBit := first.1.toNat_lt
  have secondBit := second.1.toNat_lt
  rw [toNat_packUnits oneBounds twoBounds]
  by_cases even : k % 2 = 0
  · have lower : 2 * (k / 2) = k := by omega
    rw [lower, same, Option.some.injEq] at one
    rw [even, one]
    omega
  · have upper : 2 * (k / 2) + 1 = k := by omega
    have odd : k % 2 = 1 := by omega
    rw [upper, same, Option.some.injEq] at two
    rw [odd, two]
    omega

theorem readsUnits_glyphBuffer (bitmap : List Bool) :
    ReadsUnits (glyphBuffer (compressGlyphRle4 bitmap).1) (streamStart bitmap)
      (rleUnitList bitmap) := by
  intro k unit here
  obtain ⟨byte, stored, read⟩ := getElem?_compressGlyphRle4 bitmap here
  have value : (glyphBuffer (compressGlyphRle4 bitmap).1).getD (streamStart bitmap + k / 2) 0 =
      byte.toNat := by
    rw [glyphBuffer, length_compressGlyphRle4, ← streamStart, List.getD_eq_getElem?_getD,
      List.getElem?_append_right (by simp), List.length_replicate, Nat.add_sub_cancel_left,
      List.getElem?_map, stored]
    rfl
  rw [value]
  exact read

theorem length_glyphBuffer {glyphPacked : List UInt8}
    (fits : glyphPacked.length ≤ glyphBufferSizeBytes) :
    (glyphBuffer glyphPacked).length = glyphBufferSizeBytes := by
  rw [glyphBuffer, List.length_append, List.length_replicate, List.length_map]
  omega

/-! ## The bytes of the uncompressed format -/

theorem testBit_byteOf (bits : List Bool) (k : Nat) :
    (byteOf bits (k / 8)).testBit (k % 8) = bits.getD k false := by
  have place : 8 * (k / 8) + k % 8 = k := Nat.div_add_mod k 8
  have small : k % 8 < 8 := Nat.mod_lt k (by decide)
  rw [byteOf, testBit_wordOf, List.getD_eq_getElem?_getD, List.getElem?_take_of_lt small,
    List.getElem?_drop, place, ← List.getD_eq_getElem?_getD]

/-- The four bytes of one word. -/
theorem encodeL_wordOf (bits : List Bool) (index : Nat) :
    (encodeL (wordOf ((bits.drop (32 * index)).take 32))).map UInt8.toNat =
      [byteOf bits (4 * index), byteOf bits (4 * index + 1), byteOf bits (4 * index + 2),
        byteOf bits (4 * index + 3)] := by
  set word := (bits.drop (32 * index)).take 32 with wordEq
  have byte : ∀ j < 4, wordOf word / 2 ^ (8 * j) % 256 = byteOf bits (4 * index + j) := by
    intro j small
    have part : ((word.drop (8 * j)).take 8) = (bits.drop (8 * (4 * index + j))).take 8 := by
      rw [wordEq, List.drop_take, List.take_take, List.drop_drop]
      congr 1
      · omega
      · congr 1
        ring
    rw [byteOf, ← part, (wordOf_take_drop _ 8).1, (wordOf_take_drop word (8 * j)).2]
    norm_num
  simp only [encodeL, List.map_cons, List.map_nil, UInt8.toNat_ofNat']
  rw [← byte 1 (by decide), ← byte 2 (by decide), ← byte 3 (by decide)]
  have first := byte 0 (by decide)
  rw [Nat.mul_zero, pow_zero, Nat.div_one, Nat.add_zero] at first
  rw [← first]
  rfl

theorem map_range_mul_four {α : Type} (f : Nat → α) (count : Nat) :
    (List.range (4 * count)).map f = (List.range count).flatMap fun index =>
      [f (4 * index), f (4 * index + 1), f (4 * index + 2), f (4 * index + 3)] := by
  induction count with
  | zero => rfl
  | succ count ih =>
      rw [List.range_succ, List.flatMap_append, ← ih]
      have more : 4 * (count + 1) = 4 * count + 1 + 1 + 1 + 1 := by ring
      simp [more, List.range_succ]

/-- The uncompressed format has the bytes of the bitmap, with zeros up to a whole word. -/
theorem packWords_bytes (bits : List Bool) :
    (packWords bits).map UInt8.toNat =
      (List.range (4 * ((bits.length + 31) / 32))).map (byteOf bits) := by
  rw [map_range_mul_four, packWords, List.map_flatMap]
  simp only [encodeL_wordOf]

/-! ## Decompression gives the uncompressed format -/

/-- A bitmap that can be decompressed in place: it has few enough units, no unit overwrites
what is still to be read, and the last bits end inside the buffer. -/
structure DecodesInPlace (bitmap : List Bool) : Prop where
  units : (rleUnitList bitmap).length ≤ 255
  stays : ∀ k, UnitStays (streamStart bitmap) (rleUnitList bitmap) k
  ends : bitmap.length % 8 ≠ 0 → 5 + bitmap.length / 8 < glyphBufferSizeBytes

/-- The last loop writes at most one byte. -/
theorem flushBits_spec {state : DecompressState} {stored : List Nat} {bits : List Bool}
    (holds : state.Holds stored bits) :
    ((bits.length % 8 ≠ 0 → 5 + bits.length / 8 < glyphBufferSizeBytes) →
      ∃ next, flushBits state.outNumBits state = .ok next ∧
        ∀ index < (bits.length + 7) / 8,
          next.bitmap.getD (5 + index) 0 = byteOf bits index) ∧
    (¬ (bits.length % 8 ≠ 0 → 5 + bits.length / 8 < glyphBufferSizeBytes) →
      flushBits state.outNumBits state = .error .indexError) := by
  by_cases whole : bits.length % 8 = 0
  · rw [holds.numBits, whole, flushBits]
    refine ⟨fun _ => ⟨state, rfl, ?_⟩, fun beyond => absurd (absurd rfl) beyond⟩
    intro index inside
    exact holds.written index (by omega)
  · obtain ⟨fuel, some⟩ : ∃ fuel, state.outNumBits = fuel + 1 :=
      ⟨bits.length % 8 - 1, by rw [holds.numBits]; omega⟩
    have few : state.outNumBits - 8 = 0 := by
      rw [holds.numBits]
      omega
    rw [some, flushBits, if_pos (by omega), few]
    constructor
    · intro ends
      have last := ends whole
      rw [if_neg (by rw [holds.dst]; omega)]
      have done : ∀ state : DecompressState, state.outNumBits = 0 →
          flushBits fuel state = .ok state := by
        intro state empty
        cases fuel with
        | zero => rfl
        | succ fuel => rw [flushBits, if_neg (by omega)]
      refine ⟨_, done _ rfl, ?_⟩
      intro index inside
      simp only [holds.dst, List.getD_eq_getElem?_getD, List.getElem?_set]
      by_cases atEnd : index = bits.length / 8
      · subst atEnd
        have rest : (bits.drop (8 * (bits.length / 8))).length ≤ 8 := by
          rw [List.length_drop]
          omega
        have cut := (wordOf_take_drop (bits.drop (8 * (bits.length / 8))) 8).1
        rw [if_pos rfl, if_pos (by rw [holds.length]; omega), Option.getD_some, holds.out, byteOf,
          cut]
        rfl
      · rw [if_neg (by omega)]
        exact holds.written index (by omega)
    · intro beyond
      rw [if_pos]
      rw [holds.dst]
      by_contra inside
      exact beyond fun _ => by omega

/-- The whole decoder, on what the compressor has made of a bitmap. -/
theorem decompressGlyphRle4_spec {bitmap : List Bool}
    (few : (rleUnitList bitmap).length ≤ 255) :
    (DecodesInPlace bitmap → ∃ buffer,
      decompressGlyphRle4 (compressGlyphRle4 bitmap).1 (compressGlyphRle4 bitmap).2 = .ok buffer ∧
        ∀ index < (bitmap.length + 7) / 8, buffer.getD (5 + index) 0 = byteOf bitmap index) ∧
    (checkDecompressGlyphRle4 (compressGlyphRle4 bitmap).1 (compressGlyphRle4 bitmap).2 = .ok () ↔
      DecodesInPlace bitmap) := by
  have size := length_compressGlyphRle4 bitmap
  have fits : (compressGlyphRle4 bitmap).1.length ≤ glyphBufferSizeBytes := by
    rw [size, glyphBufferSizeBytes]
    omega
  have room : streamStart bitmap + ((rleUnitList bitmap).length + 1) / 2 ≤
      glyphBufferSizeBytes := by
    rw [streamStart, glyphBufferSizeBytes]
    omega
  let start : DecompressState := ⟨glyphBuffer (compressGlyphRle4 bitmap).1,
    glyphBufferSizeBytes - (compressGlyphRle4 bitmap).1.length, 5, 0, 0, 0⟩
  have holds : start.Holds (glyphBuffer (compressGlyphRle4 bitmap).1) [] :=
    ⟨length_glyphBuffer fits, rfl, rfl, rfl,
      fun index inside => absurd inside (Nat.not_lt_zero index), fun _ _ => rfl⟩
  rw [show [] = expandUnits ((rleUnitList bitmap).take 0) from rfl] at holds
  have src : start.srcPtr = streamStart bitmap + 0 / 2 := by
    change glyphBufferSizeBytes - (compressGlyphRle4 bitmap).1.length = _
    rw [size]
    rfl
  obtain ⟨passes, fails⟩ := decompressUnits_spec (readsUnits_glyphBuffer bitmap) room
    (rleUnitList bitmap).length 0 (Nat.zero_add _) rfl holds src
  rw [expandUnits_rleUnitList] at passes
  have decoder : decompressGlyphRle4 (compressGlyphRle4 bitmap).1 (compressGlyphRle4 bitmap).2 =
      (decompressUnits (rleUnitList bitmap).length start).bind fun state =>
        (flushBits state.outNumBits state).bind fun state => .ok state.bitmap := rfl
  have checker : checkDecompressGlyphRle4 (compressGlyphRle4 bitmap).1
        (compressGlyphRle4 bitmap).2 =
      (decompressUnits (rleUnitList bitmap).length start).bind fun state =>
        if state.outNumBits > 0 ∧ state.dstPtr ≥ glyphBufferSizeBytes then .error .indexError
        else .ok () := rfl
  constructor
  · intro inPlace
    obtain ⟨state, run, stateHolds⟩ := passes fun k _ => inPlace.stays k
    obtain ⟨last, flushed, bytes⟩ := (flushBits_spec stateHolds).1 inPlace.ends
    refine ⟨last.bitmap, ?_, bytes⟩
    rw [decoder, run]
    change (flushBits state.outNumBits state).bind _ = _
    rw [flushed]
    rfl
  rw [checker]
  constructor
  · intro accepted
    have stays : ∀ k, UnitStays (streamStart bitmap) (rleUnitList bitmap) k := by
      by_contra overrun
      rw [not_forall] at overrun
      obtain ⟨k, overrun⟩ := overrun
      rw [fails ⟨k, Nat.zero_le k, overrun⟩] at accepted
      simp [Except.bind] at accepted
    refine ⟨few, stays, ?_⟩
    intro rest
    obtain ⟨state, run, stateHolds⟩ := passes fun k _ => stays k
    rw [run] at accepted
    by_contra beyond
    change (if state.outNumBits > 0 ∧ state.dstPtr ≥ glyphBufferSizeBytes then
      Except.error PyError.indexError else Except.ok ()) = _ at accepted
    rw [if_pos ⟨by rw [stateHolds.numBits]; omega, by rw [stateHolds.dst]; omega⟩] at accepted
    simp at accepted
  · intro inPlace
    obtain ⟨state, run, stateHolds⟩ := passes fun k _ => inPlace.stays k
    rw [run]
    change (if state.outNumBits > 0 ∧ state.dstPtr ≥ glyphBufferSizeBytes then
      Except.error PyError.indexError else Except.ok ()) = _
    rw [if_neg]
    rintro ⟨some, beyond⟩
    rw [stateHolds.numBits] at some
    rw [stateHolds.dst] at beyond
    have inside := inPlace.ends (by omega)
    omega

theorem packBitmap_rle4 {glyph : RenderedGlyph} (inked : glyph.height ≠ 0 ∧ glyph.width ≠ 0)
    {result : List UInt8 × Nat} :
    packBitmap true glyph = .ok result ↔
      DecodesInPlace glyph.glyphBitmap ∧ result = compressGlyphRle4 glyph.glyphBitmap := by
  rw [packBitmap, if_pos inked, if_pos rfl]
  change (if (compressGlyphRle4 glyph.glyphBitmap).2 > 255 then Except.error PyError.exception
    else (checkDecompressGlyphRle4 (compressGlyphRle4 glyph.glyphBitmap).1
      (compressGlyphRle4 glyph.glyphBitmap).2).bind fun _ =>
        .ok (compressGlyphRle4 glyph.glyphBitmap)) = .ok result ↔ _
  by_cases many : (compressGlyphRle4 glyph.glyphBitmap).2 > 255
  · rw [if_pos many]
    constructor
    · intro run
      simp at run
    · rintro ⟨inPlace, -⟩
      have few := inPlace.units
      rw [compressGlyphRle4_snd] at many
      omega
  · rw [if_neg many]
    have accepts := (decompressGlyphRle4_spec (not_lt.mp many)).2
    constructor
    · intro run
      obtain ⟨_, accepted, rest⟩ := bind_ok run
      rw [Except.ok.injEq] at rest
      exact ⟨accepts.mp accepted, rest.symm⟩
    · rintro ⟨inPlace, rfl⟩
      rw [accepts.mpr inPlace]
      rfl

/-- The pixel in column `x` of row `y`, from the bytes of a bitmap without gaps between its
rows. -/
def pixelOf (bytes : Nat → Nat) (width x y : Nat) : Bool :=
  (bytes ((y * width + x) / 8)).testBit ((y * width + x) % 8)

/-- A glyph is accepted for compression exactly if it can be decompressed in place, and then
the decompressed buffer has, behind the header, the pixels that the rasterizer gave and that the
uncompressed format has. -/
theorem decompressed_pixels (glyph : RenderedGlyph)
    (inked : glyph.height ≠ 0 ∧ glyph.width ≠ 0) :
    ((packBitmap true glyph).isOk = true ↔ DecodesInPlace glyph.glyphBitmap) ∧
    ∀ stream units, packBitmap true glyph = .ok (stream, units) →
      ∃ buffer, decompressGlyphRle4 stream units = .ok buffer ∧
        ∀ y < glyph.height, ∀ x < glyph.width,
          glyph.glyphBitmap[y * glyph.width + x]? =
            some (pixelOf (fun index => buffer.getD (5 + index) 0) glyph.width x y) ∧
          glyph.glyphBitmap[y * glyph.width + x]? =
            some (pixelOf (fun index => ((packWords glyph.glyphBitmap).getD index 0).toNat)
              glyph.width x y) := by
  constructor
  · constructor
    · intro accepted
      obtain ⟨result, run⟩ : ∃ result, packBitmap true glyph = .ok result := by
        cases run : packBitmap true glyph with
        | ok result => exact ⟨result, rfl⟩
        | error error => simp [run, Except.isOk, Except.toBool] at accepted
      exact ((packBitmap_rle4 inked).mp run).1
    · intro inPlace
      rw [(packBitmap_rle4 inked).mpr ⟨inPlace, rfl⟩]
      rfl
  intro stream units run
  obtain ⟨inPlace, same⟩ := (packBitmap_rle4 inked).mp run
  obtain ⟨buffer, decoded, bytes⟩ := (decompressGlyphRle4_spec inPlace.units).1 inPlace
  rw [← same] at decoded
  refine ⟨buffer, decoded, ?_⟩
  intro y rowInside x columnInside
  have inside : y * glyph.width + x < glyph.glyphBitmap.length := by
    rw [glyph.bitmap_length]
    calc y * glyph.width + x < y * glyph.width + glyph.width := by omega
      _ = (y + 1) * glyph.width := by ring
      _ ≤ glyph.height * glyph.width := Nat.mul_le_mul_right _ rowInside
      _ = glyph.width * glyph.height := Nat.mul_comm _ _
  have pixel : glyph.glyphBitmap[y * glyph.width + x]? =
      some ((byteOf glyph.glyphBitmap ((y * glyph.width + x) / 8)).testBit
        ((y * glyph.width + x) % 8)) := by
    rw [testBit_byteOf, List.getD_eq_getElem _ _ inside, List.getElem?_eq_getElem inside]
  have stored : ((packWords glyph.glyphBitmap).getD ((y * glyph.width + x) / 8) 0).toNat =
      byteOf glyph.glyphBitmap ((y * glyph.width + x) / 8) := by
    have words := congrArg (fun bytes => bytes[(y * glyph.width + x) / 8]?)
      (packWords_bytes glyph.glyphBitmap)
    have short : (y * glyph.width + x) / 8 < 4 * ((glyph.glyphBitmap.length + 31) / 32) := by
      omega
    simp only [List.getElem?_map, List.getElem?_range short, Option.map_some] at words
    obtain ⟨byte, found, value⟩ := Option.map_eq_some_iff.mp words
    rw [List.getD_eq_getElem?_getD, found, Option.getD_some, value]
  rw [pixel, pixelOf, pixelOf, bytes _ (by omega), stored]
  exact ⟨rfl, rfl⟩

theorem decompressed_pixels_cross :
    DecodesInPlace (crossFont.render 0xD7 1).glyphBitmap ∧
      ∃ buffer, decompressGlyphRle4 [8, 8, 8, 8, 8, 0, 0, 0] 9 = .ok buffer ∧
        ∀ y < 3, ∀ x < 3, (crossFont.render 0xD7 1).glyphBitmap[y * 3 + x]? =
          some (pixelOf (fun index => buffer.getD (5 + index) 0) 3 x y) := by
  have accepted := decompressed_pixels (crossFont.render 0xD7 1) (by decide)
  have packed : packBitmap true (crossFont.render 0xD7 1) =
      .ok ([8, 8, 8, 8, 8, 0, 0, 0], 9) := by
    decide +kernel
  obtain ⟨buffer, decoded, pixels⟩ := accepted.2 _ _ packed
  refine ⟨accepted.1.mp (by rw [packed]; rfl), buffer, decoded, ?_⟩
  intro y row x column
  exact (pixels y row x column).1

end FontGen

end Elbbep
