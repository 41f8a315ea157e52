import Elbbep.Utf8

/-!
# Terminated texts in memory

A text stands in memory as its UTF-8 encoding and a terminating zero byte.
The runtime overwrites such texts by whole 2-byte runes only; this file keeps
the account of where runes start, which rewriting never changes.
-/

namespace Elbbep

open ByteMemory Utf8Encoding

/-- The terminated text `chars` stands at `text`, readable up to its terminator. -/
structure TextAt (m : Memory) (text : Int) (chars : List Char) : Prop where
  spelled : Spells m.byte text (encode chars ++ [0])
  low_le : m.low ≤ text
  high_gt : text + byteLength chars < m.high

/-- A memory that holds nothing but the terminated text. -/
theorem textAt_ofBytes (base : Int) (chars : List Char) :
    TextAt (.ofBytes base (encode chars ++ [0])) base chars where
  spelled := spells_ofBytes base _
  low_le := Int.le_refl base
  high_gt := by
    simp only [Memory.ofBytes, List.length_append, List.length_singleton]
    change base + (byteLength chars : Int) < base + ((byteLength chars + 1 : Nat) : Int)
    omega

/-- Some 2-byte rune starts at `address` in a text with runes of these sizes. -/
def RuneStart (text : Int) (sizes : List Nat) (address : Int) : Prop :=
  ∃ before after, sizes = before ++ 2 :: after ∧ address = text + before.sum

/-- The second memory differs from the first by writes of whole 2-byte runes
over 2-byte runes of the text at `text`. -/
structure RuneWrites (text : Int) (sizes : List Nat) (before after : Memory) : Prop where
  within : StoresWithin text (text + sizes.sum) before after
  starts : ∃ starts : List Int,
    after.stores = starts.flatMap (fun start => [start + 1, start]) ++ before.stores ∧
      ∀ start ∈ starts, RuneStart text sizes start

theorem runeStart_of_append (text : Int) (before after : List Char) {c : Char}
    (size : c.utf8Size = 2) :
    RuneStart text ((before ++ c :: after).map Char.utf8Size) (text + byteLength before) :=
  ⟨before.map Char.utf8Size, after.map Char.utf8Size, by simp [size],
    by rw [byteLength_eq_sum]⟩

namespace RuneWrites

variable {text : Int} {sizes : List Nat}

theorem refl (m : Memory) : RuneWrites text sizes m m :=
  ⟨.refl _ _ m, [], rfl, by simp⟩

theorem trans {first second third : Memory} (one : RuneWrites text sizes first second)
    (two : RuneWrites text sizes second third) : RuneWrites text sizes first third := by
  obtain ⟨starts, startsEq, startsIn⟩ := one.starts
  obtain ⟨more, moreEq, moreIn⟩ := two.starts
  refine ⟨one.within.trans two.within, more ++ starts, ?_, ?_⟩
  · rw [moreEq, startsEq, List.flatMap_append, List.append_assoc]
  · intro start member
    rcases List.mem_append.mp member with inMore | inStarts
    · exact moreIn start inMore
    · exact startsIn start inStarts

theorem write (m : Memory) {address : Int} (codept : Nat)
    (start : RuneStart text sizes address) :
    RuneWrites text sizes m (writeUtf8 m address codept) := by
  refine ⟨?_, [address], rfl, by simpa using start⟩
  obtain ⟨before, after, rfl, rfl⟩ := start
  apply (writeUtf8_within m _ codept).mono
  · omega
  · simp only [List.sum_append, List.sum_cons, Nat.cast_add]
    omega

theorem withinText {chars : List Char} {before after : Memory}
    (writes : RuneWrites text (chars.map Char.utf8Size) before after) :
    StoresWithin text (text + byteLength chars) before after := by
  rw [byteLength_eq_sum]
  exact writes.within

end RuneWrites

namespace TextAt

variable {m : Memory} {text : Int} {before after : List Char} {c : Char}

theorem spells_char (stands : TextAt m text (before ++ c :: after)) :
    Spells m.byte (text + byteLength before) (String.utf8EncodeChar c) := by
  have spelled := stands.spelled
  rw [encode_append, List.append_assoc, spells_append, encode_cons, List.append_assoc,
    spells_append] at spelled
  exact spelled.2.1

theorem readUtf8_eq (stands : TextAt m text (before ++ c :: after)) :
    readUtf8 m (text + byteLength before) =
      .ok (runeValue c, text + byteLength (before ++ [c])) := by
  have low := stands.low_le
  have high := stands.high_gt
  simp only [byteLength_append, byteLength_cons, byteLength_nil] at high ⊢
  push_cast at high ⊢
  rw [readUtf8_char stands.spells_char (by omega) (by omega)]
  congr 2
  omega

/-- At the start of a rune other than the zero character a nonzero byte stands. -/
theorem load_lead (stands : TextAt m text (before ++ c :: after)) (nonzero : c ≠ '\x00') :
    ∃ byte, m.load (text + byteLength before) = .ok byte ∧ byte ≠ 0 := by
  have spelled := stands.spells_char
  have low := stands.low_le
  have high := stands.high_gt
  simp only [byteLength_append, byteLength_cons] at high
  push_cast at high
  have positive := c.utf8Size_pos
  refine ⟨_, m.load_of_mem (by omega) (by omega), ?_⟩
  obtain ⟨lead, tail, eq, -, -, -⟩ := utf8EncodeChar_lead c
  rw [eq] at spelled
  rw [spelled.1]
  exact encodeChar_byte_ne_zero nonzero lead (by simp [eq])

theorem load_terminator {chars : List Char} (stands : TextAt m text chars) :
    m.load (text + byteLength chars) = .ok 0 := by
  have low := stands.low_le
  rw [m.load_of_mem (by omega) stands.high_gt]
  have spelled := stands.spelled
  rw [spells_append] at spelled
  rw [← spelled.2.1]
  rfl

theorem byteLength_le {chars other : List Char} (stands : TextAt m text chars)
    (also : TextAt m text other) (nonzero : ∀ c ∈ other, c ≠ '\x00') :
    byteLength other ≤ byteLength chars := by
  by_contra longer
  have inside : byteLength chars < (encode other).length := Nat.not_le.mp longer
  have cut : encode other = (encode other).take (byteLength chars) ++
      (encode other)[byteLength chars] :: (encode other).drop (byteLength chars + 1) := by
    rw [← List.drop_eq_getElem_cons, List.take_append_drop]
  have zero : m.byte (text + byteLength chars) = 0 := by
    have spelled := stands.spelled
    rw [spells_append] at spelled
    exact spelled.2.1
  have spelled := also.spelled
  rw [spells_append, cut, spells_append] at spelled
  have byte := spelled.1.2.1
  rw [List.length_take, Nat.min_eq_left (by omega), zero] at byte
  exact encode_byte_ne_zero nonzero _ (List.getElem_mem inside) byte.symm

/-- A memory holds only one text without zero characters at an address. -/
theorem unique {chars other : List Char} (stands : TextAt m text chars)
    (also : TextAt m text other) (nonzero : ∀ c ∈ chars, c ≠ '\x00')
    (otherNonzero : ∀ c ∈ other, c ≠ '\x00') : chars = other := by
  have lengthEq := Nat.le_antisymm (also.byteLength_le stands nonzero)
    (stands.byteLength_le also otherNonzero)
  have spelled := stands.spelled
  have alsoSpelled := also.spelled
  rw [spells_append] at spelled alsoSpelled
  exact encode_injective (spelled.1.unique alsoSpelled.1 lengthEq)

/-- Overwriting a 2-byte rune by another one. -/
theorem write (stands : TextAt m text (before ++ c :: after)) (size : c.utf8Size = 2)
    {d : Char} (newSize : d.utf8Size = 2) :
    TextAt (writeUtf8 m (text + byteLength before) d.toNat) text (before ++ d :: after) := by
  have spelled := stands.spelled
  have high := stands.high_gt
  simp only [byteLength_append, byteLength_cons, size] at high
  have within := writeUtf8_within m (text + byteLength before) d.toNat
  rw [encode_append, List.append_assoc, spells_append, encode_cons, List.append_assoc,
    spells_append] at spelled
  obtain ⟨front, -, back⟩ := spelled
  refine ⟨?_, ?_, ?_⟩
  · rw [encode_append, List.append_assoc, spells_append, encode_cons, List.append_assoc,
      spells_append]
    refine ⟨within.spells front (Or.inl le_rfl), writeUtf8_spells m _ newSize, ?_⟩
    rw [String.length_utf8EncodeChar, newSize]
    rw [String.length_utf8EncodeChar, size] at back
    exact within.spells back (Or.inr le_rfl)
  · rw [within.low_eq]
    exact stands.low_le
  · rw [within.high_eq]
    simp only [byteLength_append, byteLength_cons, newSize]
    exact high

/-- What stands behind a rune, in a memory rewritten up to there. -/
theorem behind {rest : List Char} {again : Memory} {low high : Int}
    (stands : TextAt m text (c :: rest)) (within : StoresWithin low high m again)
    (clear : high ≤ text + c.utf8Size) : TextAt again (text + c.utf8Size) rest := by
  have spelled := stands.spelled
  have lowLe := stands.low_le
  have highGt := stands.high_gt
  rw [encode_cons, List.append_assoc, spells_append, String.length_utf8EncodeChar] at spelled
  rw [byteLength_cons, Nat.cast_add] at highGt
  refine ⟨within.spells spelled.2 (Or.inr clear), ?_, ?_⟩
  · rw [within.low_eq]
    omega
  · rw [within.high_eq]
    omega

/-- What stands behind the first characters of a text. -/
theorem drop {rest : List Char} (stands : TextAt m text (before ++ rest)) :
    TextAt m (text + byteLength before) rest := by
  obtain ⟨spelled, low, high⟩ := stands
  rw [encode_append, List.append_assoc, spells_append] at spelled
  rw [byteLength_append, Nat.cast_add] at high
  exact ⟨spelled.2, by omega, by omega⟩

/-- Rewriting a text back to what it was restores the whole memory. -/
theorem byte_eq {chars : List Char} {again : Memory} (stands : TextAt again text chars)
    (original : TextAt m text chars)
    (within : StoresWithin text (text + byteLength chars) m again) : again.byte = m.byte := by
  funext a
  by_cases inside : text ≤ a ∧ a < text + byteLength chars
  · have spelled := stands.spelled
    have also := original.spelled
    rw [spells_append] at spelled also
    exact spelled.1.byte_eq also.1 inside.1 inside.2
  · exact within.byte_eq a (by omega)

end TextAt

/-! ## Walking a text -/

/-- Calling `read_utf8` while the current byte is not zero.  Returns for each call the codepoint
and where the pointer stands behind it. -/
def walkUtf8 (m : Memory) : (fuel : Nat) → (ptr : Int) → Except Fault (List (Nat × Int))
  | 0, _ => .error .outOfFuel
  | fuel + 1, ptr => do
      let byte ← m.load ptr
      if byte = 0 then .ok []
      else do
        let call ← readUtf8 m ptr
        let rest ← walkUtf8 m fuel call.2
        .ok (call :: rest)

/-- The calls that a walk over a text makes: one for each character, up to the next one. -/
def runeCalls : (ptr : Int) → List Char → List (Nat × Int)
  | _, [] => []
  | ptr, c :: chars => (runeValue c, ptr + c.utf8Size) :: runeCalls (ptr + c.utf8Size) chars

theorem length_runeCalls (ptr : Int) (chars : List Char) :
    (runeCalls ptr chars).length = chars.length := by
  induction chars generalizing ptr with
  | nil => rfl
  | cons c chars ih => simp [runeCalls, ih]

theorem runeCalls_append (ptr : Int) (before after : List Char) :
    runeCalls ptr (before ++ after) =
      runeCalls ptr before ++ runeCalls (ptr + byteLength before) after := by
  induction before generalizing ptr with
  | nil => simp [runeCalls]
  | cons c before ih =>
      simp only [List.cons_append, runeCalls, ih, byteLength_cons]
      push_cast
      rw [Int.add_assoc]

theorem map_fst_runeCalls (ptr : Int) (chars : List Char) :
    (runeCalls ptr chars).map Prod.fst = chars.map runeValue := by
  induction chars generalizing ptr with
  | nil => rfl
  | cons c chars ih => simp [runeCalls, ih]

/-- Each call stops where the next character starts. -/
theorem getElem?_snd_runeCalls {ptr : Int} {chars : List Char} {i : Nat}
    (inside : i < chars.length) :
    ((runeCalls ptr chars).map Prod.snd)[i]? = some (ptr + byteLength (chars.take (i + 1))) := by
  induction chars generalizing ptr i with
  | nil => exact absurd inside (Nat.not_lt_zero i)
  | cons c chars ih =>
      cases i with
      | zero => simp [runeCalls]
      | succ i =>
          rw [runeCalls, List.map_cons, List.getElem?_cons_succ, ih (by simpa using inside),
            List.take_succ_cons, byteLength_cons]
          push_cast
          rw [Int.add_assoc]

/-- A walk over a text makes its calls and ends. -/
theorem walkUtf8_ok {m : Memory} {text : Int} {chars : List Char} (stands : TextAt m text chars)
    (nonzero : ∀ c ∈ chars, c ≠ '\x00') {fuel : Nat} (enough : chars.length < fuel) :
    walkUtf8 m fuel text = .ok (runeCalls text chars) := by
  induction chars generalizing text fuel with
  | nil =>
      obtain ⟨fuel, rfl⟩ : ∃ less, fuel = less + 1 := ⟨fuel - 1, by omega⟩
      have terminator := stands.load_terminator
      rw [byteLength_nil, Nat.cast_zero, Int.add_zero] at terminator
      rw [walkUtf8, terminator]
      rfl
  | cons c chars ih =>
      obtain ⟨fuel, rfl⟩ : ∃ less, fuel = less + 1 := ⟨fuel - 1, by omega⟩
      have here : TextAt m text ([] ++ c :: chars) := stands
      obtain ⟨byte, load, byteNonzero⟩ := here.load_lead (nonzero c (by simp))
      have read := here.readUtf8_eq
      simp only [byteLength_nil, Nat.cast_zero, Int.add_zero, List.nil_append,
        byteLength_cons, Nat.add_zero] at load read
      have rest := ih (stands.behind (.refl text text m) (by omega))
        (fun d member => nonzero d (by simp [member]))
        (show chars.length < fuel by simpa using enough)
      rw [walkUtf8, load]
      simp only [bind, Except.bind, if_neg byteNonzero, read, rest, runeCalls]

/-- A walk makes one call for each character, returns it modulo `2 ^ 16`, and stops at the start of
each rune and at the terminator; writing over a 2-byte rune changes the call for it only. -/
theorem walkUtf8_rune_by_rune {m : Memory} {text : Int} {chars : List Char}
    (stands : TextAt m text chars) (nonzero : ∀ c ∈ chars, c ≠ '\x00') :
    ∃ calls, walkUtf8 m (chars.length + 1) text = .ok calls ∧
      calls.map Prod.fst = chars.map (fun c => c.toNat % 2 ^ 16) ∧
      (∀ i < chars.length,
        (calls.map Prod.snd)[i]? = some (text + byteLength (chars.take (i + 1)))) ∧
      m.load (text + byteLength chars) = .ok 0 ∧
      ∀ (before after : List Char) (c : Char) (codept : Nat), chars = before ++ c :: after →
        c.utf8Size = 2 → 0x80 ≤ codept → codept ≤ 0x7FF →
          walkUtf8 (writeUtf8 m (text + byteLength before) codept) (chars.length + 1) text =
            .ok (calls.set before.length (codept, text + byteLength before + 2)) := by
  refine ⟨runeCalls text chars, walkUtf8_ok stands nonzero (Nat.lt_succ_self _),
    map_fst_runeCalls text chars, fun i inside => getElem?_snd_runeCalls inside,
    stands.load_terminator, ?_⟩
  rintro before after c codept rfl size above below
  have valid : codept.isValidChar := Or.inl (by omega)
  have value : (Char.ofNat codept).toNat = codept := by
    rw [Char.toNat_ofNat, if_pos valid]
  have newSize : (Char.ofNat codept).utf8Size = 2 := by
    rw [utf8Size_eq_two_iff, value]
    omega
  have nonzeroChar : Char.ofNat codept ≠ '\x00' := by
    intro same
    rw [same] at value
    change 0 = codept at value
    omega
  have written := stands.write size newSize
  rw [value] at written
  have kept : ∀ d ∈ before ++ Char.ofNat codept :: after, d ≠ '\x00' := by
    intro d member
    rcases List.mem_append.mp member with inBefore | inRest
    · exact nonzero d (List.mem_append_left _ inBefore)
    · rcases List.mem_cons.mp inRest with rfl | inAfter
      · exact nonzeroChar
      · exact nonzero d (List.mem_append_right _ (List.mem_cons_of_mem _ inAfter))
  have sameLength : (before ++ c :: after).length + 1 =
      (before ++ Char.ofNat codept :: after).length + 1 := by simp
  rw [sameLength, walkUtf8_ok written kept (Nat.lt_succ_self _), runeCalls_append,
    runeCalls_append, runeCalls, runeCalls, size, newSize, runeValue_of_lt (by omega), value]
  have position : before.length = (runeCalls text before).length :=
    (length_runeCalls text before).symm
  rw [position, List.set_append_right _ _ (Nat.le_refl _), Nat.sub_self]
  rfl

/-- A text of an ASCII letter, a Hebrew letter, and a rune outside the Basic Multilingual Plane. -/
theorem walkUtf8_mixed :
    let chars : List Char := ['a', 'א', '😀']
    let m := Memory.ofBytes 0 (encode chars ++ [0])
    ∃ calls, walkUtf8 m 4 0 = .ok calls ∧ calls.map Prod.fst = [0x61, 0x5D0, 0xF600] ∧
      walkUtf8 (writeUtf8 m 1 0x5D1) 4 0 = .ok (calls.set 1 (0x5D1, 3)) := by
  have nonzero : ∀ c ∈ ['a', 'א', '😀'], c ≠ '\x00' := by simp
  obtain ⟨calls, run, values, -, -, writes⟩ :=
    walkUtf8_rune_by_rune (textAt_ofBytes 0 ['a', 'א', '😀']) nonzero
  refine ⟨calls, run, values, ?_⟩
  exact writes ['a'] ['😀'] 'א' 0x5D1 rfl (by decide) (by decide) (by decide)

end Elbbep
