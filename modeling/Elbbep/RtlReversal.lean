import Elbbep.Rtl

/-!
# Reversing a span of runes in place

Reversing the bytes of a span reverses the order of its runes and the bytes
inside each of them.  The second pass of `reverse_span` walks backwards over the
reversed bytes, where it meets each rune at its lead byte, and reverses the bytes
of the rune once more.  Together they reverse the span rune by rune.
-/

namespace Elbbep

open ByteMemory Utf8Encoding

section Swapping

variable {m : Memory}

/-- Exchanging two readable bytes. -/
theorem swapBytes_ok {a b : Int} (aLow : m.low ≤ a) (aHigh : a < m.high) (bLow : m.low ≤ b)
    (bHigh : b < m.high) :
    swapBytes m a b = .ok ((m.store a (m.byte b)).store b (m.byte a)) := by
  rw [swapBytes, m.load_of_mem aLow aHigh, m.load_of_mem bLow bHigh]
  rfl

/-- Exchanging the first and the last byte of a string. -/
theorem swapBytes_ends {start : Int} {first last : UInt8} {middle : List UInt8}
    (spelled : Spells m.byte start (first :: (middle ++ [last]))) (low : m.low ≤ start)
    (high : start + middle.length + 1 < m.high) :
    ∃ after, swapBytes m start (start + middle.length + 1) = .ok after ∧
      Spells after.byte start (last :: (middle ++ [first])) ∧
      StoresWithin start (start + middle.length + 2) m after := by
  obtain ⟨firstAt, rest⟩ := spelled
  rw [spells_append] at rest
  obtain ⟨middleAt, lastAt, -⟩ := rest
  have place : start + 1 + (middle.length : Int) = start + middle.length + 1 := by omega
  rw [place] at lastAt
  refine ⟨_, swapBytes_ok low (by omega) (by omega) high, ?_, ?_⟩
  · rw [firstAt, lastAt]
    refine ⟨?_, ?_⟩
    · rw [Memory.store_byte_of_ne _ _ (by omega), Memory.store_byte_self]
    · rw [spells_append]
      refine ⟨middleAt.congr fun a above below => ?_, ?_, trivial⟩
      · rw [Memory.store_byte_of_ne _ _ (by omega), Memory.store_byte_of_ne _ _ (by omega)]
      · rw [place, Memory.store_byte_self]
  · exact (StoresWithin.store m _ (by omega) (by omega)).trans
      (StoresWithin.store _ _ (by omega) (by omega))

end Swapping

/-- The byte-wise pass reverses the bytes. -/
theorem reverseBytes_ok {m : Memory} {start : Int} {bytes : List UInt8}
    (spelled : Spells m.byte start bytes) (low : m.low ≤ start)
    (high : start + bytes.length ≤ m.high) {fuel : Nat} (enough : bytes.length + 1 ≤ fuel) :
    ∃ after, reverseBytes fuel m start (start + bytes.length - 1) = .ok after ∧
      Spells after.byte start bytes.reverse ∧
      StoresWithin start (start + bytes.length) m after := by
  induction bytes using List.bidirectionalRec generalizing m start fuel with
  | nil =>
      obtain ⟨fuel, rfl⟩ : ∃ less, fuel = less + 1 := ⟨fuel - 1, by omega⟩
      refine ⟨m, ?_, trivial, .refl _ _ m⟩
      rw [reverseBytes, if_neg (by simp)]
  | singleton byte =>
      obtain ⟨fuel, rfl⟩ : ∃ less, fuel = less + 1 := ⟨fuel - 1, by omega⟩
      refine ⟨m, ?_, spelled, .refl _ _ m⟩
      rw [reverseBytes, if_neg (by simp)]
  | cons_append first middle last ih =>
      obtain ⟨fuel, rfl⟩ : ∃ less, fuel = less + 1 := ⟨fuel - 1, by omega⟩
      have length : (first :: (middle ++ [last])).length = middle.length + 2 := by simp
      rw [length] at high enough ⊢
      push_cast at high ⊢
      have lastPlace : start + ((middle.length : Int) + 2) - 1 =
          start + middle.length + 1 := by omega
      obtain ⟨swapped, swap, swappedAt, swapWithin⟩ := swapBytes_ends spelled low (by omega)
      obtain ⟨lastAt, rest⟩ := swappedAt
      rw [spells_append] at rest
      obtain ⟨after, run, middleAt, within⟩ := ih rest.1 (by rw [swapWithin.low_eq]; omega)
        (by rw [swapWithin.high_eq]; omega) (show middle.length + 1 ≤ fuel by omega)
      refine ⟨after, ?_, ?_, ?_⟩
      · rw [reverseBytes, if_pos (by omega), lastPlace, swap]
        have next : start + (middle.length : Int) + 1 - 1 =
            start + 1 + middle.length - 1 := by omega
        simp only [bind, Except.bind, next]
        exact run
      · have reversed : (first :: (middle ++ [last])).reverse =
            last :: (middle.reverse ++ [first]) := by simp
        rw [reversed, spells_cons, spells_append, List.length_reverse]
        refine ⟨?_, middleAt, within.spells rest.2 (Or.inr le_rfl)⟩
        rw [within.byte_eq _ (Or.inl (by omega)), lastAt]
      · exact (swapWithin.mono le_rfl (by omega)).trans (within.mono (by omega) (by omega))

/-! ## Rotating the runes back -/

theorem lead_nibble (byte : UInt8) :
    (continuationCount byte = 3 ∧ byte.toNat >>> 4 = 0xF) ∨
      (continuationCount byte = 2 ∧ byte.toNat >>> 4 = 0xE) ∨
      (continuationCount byte = 1 ∧ (byte.toNat >>> 4 = 0xC ∨ byte.toNat >>> 4 = 0xD)) ∨
      (continuationCount byte = 0 ∧ byte.toNat >>> 4 < 0xC) := by
  have bound := byte.toNat_lt
  rw [Nat.shiftRight_eq_div_pow]
  unfold continuationCount
  split_ifs <;> omega

/-- Exchanging the outer two and then the inner two of four bytes. -/
theorem swapBytes_four {m : Memory} {start : Int} {a b c d : UInt8}
    (spelled : Spells m.byte start [a, b, c, d]) (low : m.low ≤ start)
    (high : start + 3 < m.high) :
    ∃ outer after, swapBytes m start (start + 3) = .ok outer ∧
      swapBytes outer (start + 1) (start + 2) = .ok after ∧
      Spells after.byte start [d, c, b, a] ∧ StoresWithin start (start + 4) m after := by
  have ends : Spells m.byte start (a :: ([b, c] ++ [d])) := spelled
  obtain ⟨outer, swap, swapped, within⟩ := swapBytes_ends ends low (by simp; omega)
  have inner : Spells outer.byte (start + 1) (b :: ([] ++ [c])) :=
    ⟨swapped.2.1, swapped.2.2.1, trivial⟩
  obtain ⟨after, swapInner, swappedInner, withinInner⟩ := swapBytes_ends inner
    (by rw [within.low_eq]; omega) (by rw [within.high_eq]; simp; omega)
  have last : start + (([b, c] : List UInt8).length : Int) + 1 = start + 3 := by
    simp
    omega
  have second : start + 1 + (([] : List UInt8).length : Int) + 1 = start + 2 := by
    simp
    omega
  rw [last] at swap
  rw [second] at swapInner
  simp only [List.length_nil, Nat.cast_zero, add_zero] at withinInner
  refine ⟨outer, after, swap, swapInner, ⟨?_, swappedInner.1, swappedInner.2.1, ?_, trivial⟩, ?_⟩
  · rw [withinInner.byte_eq _ (Or.inl (by omega)), swapped.1]
  · rw [withinInner.byte_eq _ (Or.inr (by omega)), swapped.2.2.2.1]
  · exact (within.mono le_rfl (by simp; omega)).trans (withinInner.mono (by omega) (by omega))

/-- A rune whose bytes stand in reverse is put right, from its lead byte at the end. -/
theorem rotateRune_ok {m : Memory} {start : Int} {c : Char}
    (spelled : Spells m.byte start (String.utf8EncodeChar c).reverse) (low : m.low ≤ start)
    (high : start + c.utf8Size ≤ m.high) :
    ∃ after, rotateRune m (start + c.utf8Size - 1) = .ok (after, start) ∧
      Spells after.byte start (String.utf8EncodeChar c) ∧
      StoresWithin start (start + c.utf8Size) m after := by
  obtain ⟨lead, tail, eq, count, -, -⟩ := utf8EncodeChar_lead c
  have size : c.utf8Size = tail.length + 1 := by
    rw [← String.length_utf8EncodeChar, eq, List.length_cons]
  rw [eq] at spelled ⊢
  rw [size] at high ⊢
  push_cast at high ⊢
  have place : start + ((tail.length : Int) + 1) - 1 = start + tail.length := by omega
  have leadAt : m.byte (start + tail.length) = lead := by
    rw [List.reverse_cons, spells_append, List.length_reverse] at spelled
    exact spelled.2.1
  have load : m.load (start + tail.length) = .ok lead := by
    rw [m.load_of_mem (by omega) (by omega), leadAt]
  rw [place, rotateRune, load]
  have nibble := lead_nibble lead
  match tail, count with
  | [], count =>
      simp only [List.length_nil] at count
      obtain small : lead.toNat >>> 4 < 0xC := by omega
      refine ⟨m, ?_, by simpa using spelled, .refl _ _ m⟩
      simp only [bind, Except.bind, List.length_nil, Nat.cast_zero, add_zero]
      interval_cases lead.toNat >>> 4 <;> rfl
  | [x], count =>
      simp only [List.length_singleton] at count high ⊢
      obtain two : lead.toNat >>> 4 = 0xC ∨ lead.toNat >>> 4 = 0xD := by omega
      have ends : Spells m.byte start (x :: ([] ++ [lead])) := by simpa using spelled
      obtain ⟨after, swap, swapped, within⟩ := swapBytes_ends ends low (by simp; omega)
      simp only [List.length_nil, Nat.cast_zero, add_zero, List.nil_append] at swap swapped within
      refine ⟨after, ?_, swapped, within.mono le_rfl (by simp)⟩
      have back : start + ((1 : Nat) : Int) - 1 = start := by omega
      rcases two with eq | eq <;>
        simp only [bind, Except.bind, eq, back] <;> rw [Nat.cast_one, swap]
  | [x, y], count =>
      simp only [List.length_cons, List.length_nil] at count high ⊢
      have three : lead.toNat >>> 4 = 0xE := by omega
      have ends : Spells m.byte start (y :: ([x] ++ [lead])) := by simpa using spelled
      obtain ⟨after, swap, swapped, within⟩ := swapBytes_ends ends low (by simp at high ⊢; omega)
      refine ⟨after, ?_, by simpa using swapped, within.mono le_rfl (by simp; omega)⟩
      have back : start + ((0 + 1 + 1 : Nat) : Int) - 2 = start := by omega
      have last : start + ((0 + 1 + 1 : Nat) : Int) =
          start + (([x] : List UInt8).length : Int) + 1 := by
        simp
        omega
      simp only [bind, Except.bind, three, back]
      rw [last, swap]
  | [x, y, z], count =>
      simp only [List.length_cons, List.length_nil] at count high ⊢
      have four : lead.toNat >>> 4 = 0xF := by omega
      have reversed : Spells m.byte start [z, y, x, lead] := by simpa using spelled
      obtain ⟨outer, after, swap, swapInner, swapped, within⟩ :=
        swapBytes_four reversed low (by omega)
      refine ⟨after, ?_, swapped, within.mono le_rfl (by omega)⟩
      have last : start + ((0 + 1 + 1 + 1 : Nat) : Int) = start + 3 := by omega
      have first : start + 3 - 3 = start := by omega
      have second : start + 3 - 2 = start + 1 := by omega
      have third : start + 3 - 1 = start + 2 := by omega
      simp only [bind, Except.bind, four, last, first, second, third]
      rw [swap]
      dsimp only
      rw [swapInner]
  | _ :: _ :: _ :: _ :: _, count =>
      have := continuationCount_le lead
      simp only [List.length_cons] at count
      omega

theorem byteLength_reverse (chars : List Char) : byteLength chars.reverse = byteLength chars := by
  rw [byteLength_eq_sum, byteLength_eq_sum, List.map_reverse, List.sum_reverse]

/-- The second pass turns reversed bytes into reversed runes. -/
theorem rotateRunes_ok {m : Memory} {start : Int} {chars : List Char}
    (spelled : Spells m.byte start (encode chars).reverse) (low : m.low ≤ start)
    (high : start + byteLength chars ≤ m.high) {fuel : Nat} (enough : chars.length + 1 ≤ fuel) :
    ∃ after, rotateRunes start fuel m (start + byteLength chars) = .ok after ∧
      Spells after.byte start (encode chars.reverse) ∧
      StoresWithin start (start + byteLength chars) m after := by
  induction chars generalizing m fuel with
  | nil =>
      obtain ⟨fuel, rfl⟩ : ∃ less, fuel = less + 1 := ⟨fuel - 1, by omega⟩
      refine ⟨m, ?_, trivial, .refl _ _ m⟩
      rw [rotateRunes, if_neg (by simp)]
  | cons c rest ih =>
      obtain ⟨fuel, rfl⟩ : ∃ less, fuel = less + 1 := ⟨fuel - 1, by omega⟩
      have positive := c.utf8Size_pos
      rw [encode_cons, List.reverse_append, spells_append, List.length_reverse] at spelled
      obtain ⟨restAt, runeAt⟩ := spelled
      change Spells m.byte (start + byteLength rest) _ at runeAt
      rw [byteLength_cons] at high ⊢
      push_cast at high ⊢
      obtain ⟨rotated, rotate, runeFixed, runeWithin⟩ := rotateRune_ok runeAt (by omega) (by omega)
      obtain ⟨after, run, restFixed, restWithin⟩ := ih
        (runeWithin.spells restAt (Or.inl (by rw [List.length_reverse]; exact le_rfl)))
        (by rw [runeWithin.low_eq]; exact low) (by rw [runeWithin.high_eq]; omega)
        (show rest.length + 1 ≤ fuel by simpa using enough)
      have here : start + ((c.utf8Size : Int) + byteLength rest) - 1 =
          start + byteLength rest + c.utf8Size - 1 := by omega
      refine ⟨after, ?_, ?_, ?_⟩
      · rw [rotateRunes, if_pos (by omega), here, rotate]
        exact run
      · have lengthEq : (encode rest.reverse).length = byteLength rest := byteLength_reverse rest
        rw [List.reverse_cons, encode_append, spells_append, lengthEq]
        refine ⟨restFixed, ?_⟩
        have kept := restWithin.spells runeFixed (Or.inr le_rfl)
        simpa using kept
      · exact (runeWithin.mono (by omega) (by omega)).trans (restWithin.mono le_rfl (by omega))

/-- `reverse_span` reverses a span rune by rune. -/
theorem reverseSpan_ok {m : Memory} {start : Int} {chars : List Char}
    (spelled : Spells m.byte start (encode chars)) (low : m.low ≤ start)
    (high : start + byteLength chars ≤ m.high) :
    ∃ after, reverseSpan m start (start + byteLength chars) = .ok after ∧
      Spells after.byte start (encode chars.reverse) ∧
      StoresWithin start (start + byteLength chars) m after := by
  have short := length_le_byteLength chars
  have fuelEq : (start + (byteLength chars : Int) - start).toNat + 1 = byteLength chars + 1 := by
    omega
  obtain ⟨reversed, reverse, reversedAt, reverseWithin⟩ :=
    reverseBytes_ok spelled low high (show _ ≤ byteLength chars + 1 from le_rfl)
  obtain ⟨after, rotate, fixed, rotateWithin⟩ := rotateRunes_ok reversedAt
    (by rw [reverseWithin.low_eq]; exact low) (by rw [reverseWithin.high_eq]; exact high)
    (show chars.length + 1 ≤ byteLength chars + 1 by omega)
  refine ⟨after, ?_, fixed, reverseWithin.trans rotateWithin⟩
  rw [reverseSpan, fuelEq]
  change
    (reverseBytes (byteLength chars + 1) m start (start + (encode chars).length - 1)).bind _ = _
  rw [reverse]
  exact rotate

/-- Reversing a span reverses its runes and touches nothing else, and reversing it again
restores the memory. -/
theorem reverseSpan_reverses_runes {m : Memory} {start : Int} {chars : List Char}
    (spelled : Spells m.byte start (encode chars)) (low : m.low ≤ start)
    (high : start + byteLength chars ≤ m.high) :
    ∃ after, reverseSpan m start (start + byteLength chars) = .ok after ∧
      Spells after.byte start (encode chars.reverse) ∧
      StoresWithin start (start + byteLength chars) m after ∧
      ∃ again, reverseSpan after start (start + byteLength chars) = .ok again ∧
        again.byte = m.byte := by
  obtain ⟨after, run, reversed, within⟩ := reverseSpan_ok spelled low high
  have lowAfter : after.low ≤ start := by
    rw [within.low_eq]
    exact low
  have highAfter : start + byteLength chars.reverse ≤ after.high := by
    rw [byteLength_reverse, within.high_eq]
    exact high
  obtain ⟨again, runAgain, restored, withinAgain⟩ := reverseSpan_ok reversed lowAfter highAfter
  rw [byteLength_reverse] at runAgain withinAgain
  rw [List.reverse_reverse] at restored
  refine ⟨after, run, reversed, within, again, runAgain, ?_⟩
  funext a
  by_cases inside : start ≤ a ∧ a < start + byteLength chars
  · exact restored.byte_eq spelled inside.1 inside.2
  · rw [withinAgain.byte_eq a (by omega), within.byte_eq a (by omega)]

/-- Runes of one to four bytes. -/
theorem reverseSpan_reverses_mixed :
    let chars : List Char := ['a', 'א', '€', '😀']
    let m := Memory.ofBytes 0 (encode chars)
    ∃ after, reverseSpan m 0 (0 + byteLength chars) = .ok after ∧
      Spells after.byte 0 (encode chars.reverse) ∧
      StoresWithin 0 (0 + byteLength chars) m after ∧
      ∃ again, reverseSpan after 0 (0 + byteLength chars) = .ok again ∧ again.byte = m.byte :=
  reverseSpan_reverses_runes (spells_ofBytes 0 _) (Int.le_refl 0) (Int.le_refl _)

end Elbbep
