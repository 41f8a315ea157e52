import Elbbep.LineReordering
import Elbbep.RtlReversal
import Elbbep.UnshapedText

/-!
# `rtl_apply` reorders a line rune by rune

The classes of `rtl_ranges.c`, applied to what `read_utf8` makes of a rune, and the
pairs of `RTL_SWAPS` are directions in the sense of `LineReordering`.  While
`rtlApply` runs, the line in memory is the settled runes, the open span and the
runes still to come; so it ends with the line that `Directions.reorder` describes,
and has stored nowhere else.
-/

namespace Elbbep

open ByteMemory Utf8Encoding

/-- Only codepoints that the table generator recycles count as shaped. -/
def ShaperTables.RecyclesScratch (tables : ShaperTables) : Prop :=
  ∀ cp, tables.arabicShaperRange cp = true → cp ∈ scratchCodepoints

theorem GeneratedTables.recyclesScratch {forms : FormsTable} {packed : PackState}
    {pairs : List (CharacterForms × ShaperLUTEntry)} {tables : ShaperTables}
    (generated : GeneratedTables forms packed pairs tables) : tables.RecyclesScratch :=
  fun _ inside => generated.scratch_of_range inside

theorem generateTables_recyclesScratch {unicodedataName : Char → Option String}
    {forms : FormsTable} {tables : ShaperTables}
    (run : generateTables unicodedataName forms.items = .ok tables) : tables.RecyclesScratch := by
  obtain ⟨packed, pairs, generated⟩ := exists_generatedTables run
  exact generated.recyclesScratch

/-! ## Directions of runes -/

/-- The partner of a character in `RTL_SWAPS`, or the character itself. -/
def mirrored : Char → Char
  | '{' => '}'
  | '}' => '{'
  | '[' => ']'
  | ']' => '['
  | '(' => ')'
  | ')' => '('
  | '<' => '>'
  | '>' => '<'
  | c => c

/-- The characters of `RTL_SWAPS`. -/
def brackets : List Char :=
  ['{', '}', '[', ']', '(', ')', '<', '>']

theorem mirrored_of_not_bracket {c : Char} (other : c ∉ brackets) : mirrored c = c := by
  unfold mirrored
  split <;> first | rfl | exact absurd (by decide) other

theorem mirrored_mem_brackets {c : Char} (bracket : c ∈ brackets) : mirrored c ∈ brackets := by
  revert c
  decide

theorem mirrored_mirrored (c : Char) : mirrored (mirrored c) = c := by
  by_cases bracket : c ∈ brackets
  · revert c
    decide
  · rw [mirrored_of_not_bracket bracket, mirrored_of_not_bracket bracket]

/-- No codepoint below the Hebrew block is right-to-left. -/
theorem not_rtl_of_lt {tables : ShaperTables} (scratch : tables.RecyclesScratch) {cp : Nat}
    (small : cp < 0x590) : tables.isRtl cp = false := by
  have unshaped : tables.arabicShaperRange cp = false := by
    by_contra shaped
    have := mem_scratchCodepoints.mp (scratch _ (by simpa using shaped))
    omega
  simp [ShaperTables.isRtl, inRange, unshaped]
  omega

/-- Brackets are neutral and nothing else. -/
theorem bracket_classes {tables : ShaperTables} (scratch : tables.RecyclesScratch) {c : Char}
    (bracket : c ∈ brackets) :
    tables.isRtl (runeValue c) = false ∧ isNeutral (runeValue c) = true ∧
      isWeakLtr (runeValue c) = false := by
  have ranges : ∀ c ∈ brackets, isNeutral (runeValue c) = true ∧ isWeakLtr (runeValue c) = false ∧
      runeValue c < 0x80 := by
    decide
  obtain ⟨neutral, notWeak, small⟩ := ranges c bracket
  exact ⟨not_rtl_of_lt scratch (by omega), neutral, notWeak⟩

theorem weak_not_rtl {tables : ShaperTables} (scratch : tables.RecyclesScratch) {cp : Nat}
    (weak : isWeakLtr cp = true) : tables.isRtl cp = false := by
  have range : (0x30 ≤ cp ∧ cp < 0x3A) ∨ (0x660 ≤ cp ∧ cp < 0x66D) := by
    simpa [isWeakLtr, inRange] using weak
  have unshaped : tables.arabicShaperRange cp = false := by
    by_contra shaped
    have := mem_scratchCodepoints.mp (scratch _ (by simpa using shaped))
    omega
  simp [ShaperTables.isRtl, inRange, unshaped]
  omega

theorem weak_not_neutral {cp : Nat} (weak : isWeakLtr cp = true) : isNeutral cp = false := by
  have range : (0x30 ≤ cp ∧ cp < 0x3A) ∨ (0x660 ≤ cp ∧ cp < 0x66D) := by
    simpa [isWeakLtr, inRange] using weak
  simp [isNeutral, inRange, isZeroWidth, zeroWidthCodepointRanges]
  omega

/-- The directions of characters, by the 16-bit value that the reader makes of them. -/
def ShaperTables.directions (tables : ShaperTables) (scratch : tables.RecyclesScratch) :
    Directions Char where
  rtl c := tables.isRtl (runeValue c)
  neutral c := isNeutral (runeValue c)
  weak c := isWeakLtr (runeValue c)
  control c := decide (runeValue c < 0x20)
  mirror := mirrored
  weak_not_rtl _ weak := weak_not_rtl scratch weak
  weak_not_neutral _ weak := weak_not_neutral weak
  mirror_mirror := mirrored_mirrored
  rtl_mirror c := by
    by_cases bracket : c ∈ brackets
    · rw [(bracket_classes scratch bracket).1,
        (bracket_classes scratch (mirrored_mem_brackets bracket)).1]
    · rw [mirrored_of_not_bracket bracket]
  neutral_mirror c := by
    by_cases bracket : c ∈ brackets
    · rw [(bracket_classes scratch bracket).2.1,
        (bracket_classes scratch (mirrored_mem_brackets bracket)).2.1]
    · rw [mirrored_of_not_bracket bracket]
  weak_mirror c := by
    by_cases bracket : c ∈ brackets
    · rw [(bracket_classes scratch bracket).2.2,
        (bracket_classes scratch (mirrored_mem_brackets bracket)).2.2]
    · rw [mirrored_of_not_bracket bracket]
  mirror_of_rtl c rtl := mirrored_of_not_bracket fun bracket => by
    rw [(bracket_classes scratch bracket).1] at rtl
    cases rtl
  mirror_of_not_neutral c notNeutral := mirrored_of_not_bracket fun bracket => by
    rw [(bracket_classes scratch bracket).2.1] at notNeutral
    cases notNeutral

theorem bracket_bytes : ∀ c ∈ brackets, String.utf8EncodeChar c = [UInt8.ofNat c.toNat] ∧
    swapped (UInt8.ofNat c.toNat) = some (UInt8.ofNat (mirrored c).toNat) := by
  decide

/-- Only the lead bytes of brackets have a partner. -/
theorem swapped_lead_of_not_bracket {c : Char} (other : c ∉ brackets) {lead : UInt8}
    {tail : List UInt8} (eq : String.utf8EncodeChar c = lead :: tail) : swapped lead = none := by
  have partners : ∀ byte ∈ rtlSwaps, continuationCount byte = 0 ∧
      ∃ b ∈ brackets, String.utf8EncodeChar b = [byte] := by
    decide
  by_cases member : lead ∈ rtlSwaps
  · obtain ⟨alone, b, bracket, bytes⟩ := partners lead member
    obtain ⟨lead', tail', eq', count, -, -⟩ := utf8EncodeChar_lead c
    obtain ⟨rfl, rfl⟩ := List.cons.inj (eq.symm.trans eq')
    rw [alone] at count
    rw [List.eq_nil_of_length_eq_zero count] at eq
    have same : encode [c] = encode [b] := by simp [eq, bytes]
    obtain rfl : c = b := by simpa using encode_injective same
    exact absurd bracket other
  · rw [swapped, List.idxOf?_eq_none_iff.mpr member]
    rfl

/-! ## Lines in memory -/

/-- The runes `chars` stand at `start`, all of them readable. -/
structure LineAt (m : Memory) (start : Int) (chars : List Char) : Prop where
  spelled : Spells m.byte start (encode chars)
  low_le : m.low ≤ start
  le_high : start + byteLength chars ≤ m.high

/-- A line rewritten in place to one of the same length. -/
structure LineRewritten (start : Int) (m : Memory) (chars : List Char) (after : Memory)
    (chars' : List Char) : Prop where
  length_eq : byteLength chars' = byteLength chars
  stands : LineAt after start chars'
  within : StoresWithin start (start + byteLength chars) m after

namespace LineAt

variable {m : Memory} {start : Int} {front middle rest : List Char} {c : Char}

theorem rewritten (stands : LineAt m start rest) : LineRewritten start m rest m rest :=
  ⟨rfl, stands, .refl _ _ m⟩

theorem spells_char (stands : LineAt m start (front ++ c :: rest)) :
    Spells m.byte (start + byteLength front) (String.utf8EncodeChar c) := by
  have spelled := stands.spelled
  rw [encode_append, spells_append, encode_cons, spells_append] at spelled
  exact spelled.2.1

theorem readUtf8_eq (stands : LineAt m start (front ++ c :: rest)) :
    readUtf8 m (start + byteLength front) =
      .ok (runeValue c, start + byteLength (front ++ [c])) := by
  have low := stands.low_le
  have high := stands.le_high
  simp only [byteLength_append, byteLength_cons, byteLength_nil] at high ⊢
  push_cast at high ⊢
  rw [readUtf8_char stands.spells_char (by omega) (by omega)]
  congr 2
  omega

theorem load_lead (stands : LineAt m start (front ++ c :: rest)) :
    ∃ lead tail, String.utf8EncodeChar c = lead :: tail ∧
      m.load (start + byteLength front) = .ok lead := by
  have low := stands.low_le
  have high := stands.le_high
  simp only [byteLength_append, byteLength_cons] at high
  push_cast at high
  have positive := c.utf8Size_pos
  obtain ⟨lead, tail, eq, -, -, -⟩ := utf8EncodeChar_lead c
  refine ⟨lead, tail, eq, ?_⟩
  have spelled := stands.spells_char
  rw [eq] at spelled
  rw [m.load_of_mem (by omega) (by omega), spelled.1]

/-- A rewritten part leaves the rest of the line alone. -/
theorem rewrite_middle {after : Memory} {middle' : List Char}
    (stands : LineAt m start (front ++ middle ++ rest))
    (length_eq : byteLength middle' = byteLength middle)
    (spelled : Spells after.byte (start + byteLength front) (encode middle'))
    (within : StoresWithin (start + byteLength front)
      (start + byteLength front + byteLength middle) m after) :
    LineRewritten start m (front ++ middle ++ rest) after (front ++ middle' ++ rest) := by
  obtain ⟨all, low, high⟩ := stands
  rw [encode_append, encode_append, spells_append, spells_append] at all
  obtain ⟨⟨frontAt, -⟩, restAt⟩ := all
  have place : (encode (front ++ middle)).length = byteLength front + byteLength middle := by
    rw [← byteLength_append]
    rfl
  rw [← encode_append, place] at restAt
  have total : byteLength (front ++ middle' ++ rest) = byteLength (front ++ middle ++ rest) := by
    simp only [byteLength_append, length_eq]
  refine ⟨total, ⟨?_, ?_, ?_⟩, ?_⟩
  · rw [encode_append, encode_append, spells_append, spells_append]
    refine ⟨⟨within.spells frontAt (Or.inl le_rfl), spelled⟩, ?_⟩
    rw [← encode_append]
    change Spells _ (start + (byteLength (front ++ middle') : Nat)) _
    rw [byteLength_append, length_eq]
    refine within.spells restAt (Or.inr ?_)
    push_cast
    omega
  · rw [within.low_eq]
    exact low
  · rw [within.high_eq, total]
    exact high
  · refine within.mono (by omega) ?_
    simp only [byteLength_append]
    push_cast
    omega

/-- `reverse_span` on a part of the line. -/
theorem reverseSpan_middle (stands : LineAt m start (front ++ middle ++ rest)) :
    ∃ after, reverseSpan m (start + byteLength front) (start + byteLength (front ++ middle)) =
        .ok after ∧
      LineRewritten start m (front ++ middle ++ rest) after (front ++ middle.reverse ++ rest) := by
  have spelled := stands.spelled
  have low := stands.low_le
  have high := stands.le_high
  rw [encode_append, encode_append, spells_append, spells_append] at spelled
  simp only [byteLength_append] at high
  push_cast at high
  obtain ⟨after, run, reversed, within⟩ := reverseSpan_ok spelled.1.2
    (show m.low ≤ start + byteLength front by omega)
    (show start + byteLength front + byteLength middle ≤ m.high by omega)
  refine ⟨after, ?_, stands.rewrite_middle (byteLength_reverse middle) reversed within⟩
  rw [byteLength_append, Nat.cast_add, ← Int.add_assoc]
  exact run

/-- `apply_swaps` mirrors the rune that it points to. -/
theorem applySwaps_middle (stands : LineAt m start (front ++ c :: rest)) :
    ∃ after, applySwaps m (start + byteLength front) = .ok after ∧
      LineRewritten start m (front ++ c :: rest) after (front ++ mirrored c :: rest) := by
  obtain ⟨lead, tail, eq, load⟩ := stands.load_lead
  rw [applySwaps, load]
  by_cases bracket : c ∈ brackets
  · obtain ⟨bytes, partner⟩ := bracket_bytes c bracket
    obtain ⟨rfl, rfl⟩ := List.cons.inj (eq.symm.trans bytes)
    have mirroredBytes := (bracket_bytes _ (mirrored_mem_brackets bracket)).1
    have size : byteLength [c] = 1 := by simp [byteLength, encode, bytes]
    have mirroredSize : byteLength [mirrored c] = 1 := by
      simp [byteLength, encode, mirroredBytes]
    have split (e : Char) : front ++ e :: rest = front ++ [e] ++ rest := by simp
    simp only [bind, Except.bind, partner]
    refine ⟨_, rfl, ?_⟩
    rw [split, split]
    rw [split] at stands
    refine stands.rewrite_middle (mirroredSize.trans size.symm) ?_ ?_
    · simp [mirroredBytes]
    · exact StoresWithin.store m _ (by omega) (by omega)
  · refine ⟨m, ?_, ?_⟩
    · simp only [bind, Except.bind, swapped_lead_of_not_bracket bracket eq]
    · rw [mirrored_of_not_bracket bracket]
      exact stands.rewritten

end LineAt

namespace LineRewritten

variable {start : Int} {first second third : Memory} {chars chars' chars'' : List Char}

theorem trans (one : LineRewritten start first chars second chars')
    (two : LineRewritten start second chars' third chars'') :
    LineRewritten start first chars third chars'' := by
  refine ⟨two.length_eq.trans one.length_eq, two.stands, one.within.trans ?_⟩
  rw [← one.length_eq]
  exact two.within

end LineRewritten

/-! ## The loop -/

/-- Where the open span starts. -/
def spanStart (start : Int) (state : LineState Char) : Option Int :=
  state.span.map fun _ => start + byteLength state.settled

/-- Where the weak run of the open span starts. -/
def weakStart (start : Int) (state : LineState Char) : Option Int :=
  state.span.bind fun span =>
    if span.weakRun = [] then none else some (start + byteLength (state.settled ++ span.body))

/-- The codepoint of the rune that is looked ahead to, zero at the end of the line. -/
def nextValue : Option Char → Nat
  | none => 0
  | some c => runeValue c

/-- The span pointers of `rtl_apply` point where the state of the line has them. -/
structure SpansAt (start : Int) (state : LineState Char) (locals : RtlLocals) : Prop where
  rtl_eq : locals.rtlSpanStart = spanStart start state
  weak_eq : locals.weakLtrSpanStart = weakStart start state

/-- The state `next` is what a turn of the loop makes of memory and locals. -/
structure Turned (start : Int) (m : Memory) (chars : List Char) (locals : RtlLocals)
    (after : Memory) (next : LineState Char) (tail : List Char) (handled : RtlLocals) : Prop where
  rewritten : LineRewritten start m chars after (next.runes ++ tail)
  spans : SpansAt start next handled
  iter : handled.iter = locals.iter
  nextCodeptPtr : handled.nextCodeptPtr = locals.nextCodeptPtr
  nextCodept : handled.nextCodept = locals.nextCodept

section Turns

variable {tables : ShaperTables} (scratch : tables.RecyclesScratch) {m : Memory} {start : Int}
  {locals : RtlLocals} {settled : List Char} {span : OpenSpan Char} {c : Char} {tail : List Char}

theorem continues_nextValue (next : Option Char) :
    (tables.isRtl (nextValue next) || isNeutral (nextValue next) || isWeakLtr (nextValue next) ||
      decide (nextValue next < 0x20)) = (tables.directions scratch).continues next := by
  cases next with
  | none => simp [nextValue, Directions.continues]
  | some c => rfl

/-- A turn outside of any span. -/
theorem turn_outside (stands : LineAt m start (settled ++ c :: tail))
    (spans : SpansAt start ⟨settled, none⟩ locals) (this : locals.thisCodept = runeValue c)
    (ptr : locals.thisCodeptPtr = start + byteLength settled)
    (next : locals.nextCodept = nextValue tail.head?)
    (nonzero : ∀ e ∈ tail.head?, runeValue e ≠ 0) :
    ∃ neutral after handled, locals.handleWeakLtr m = .ok (m, neutral, locals) ∧
      locals.handleSpan tables m neutral = .ok (after, handled) ∧
      Turned start m (settled ++ c :: tail) locals after
        ((tables.directions scratch).handleRune ⟨settled, none⟩ c tail.head?) tail handled := by
  have outside : locals.rtlSpanStart = none := spans.rtl_eq
  have noWeak : locals.weakLtrSpanStart = none := spans.weak_eq
  have more : decide (locals.nextCodept ≠ 0) = tail.head?.isSome := by
    rw [next]
    cases head : tail.head? with
    | none => rfl
    | some e => exact decide_eq_true (nonzero e head)
  have line : settled ++ c :: tail = settled ++ [c] ++ tail := by simp
  refine ⟨isNeutral locals.thisCodept, m,
    if tables.isRtl (runeValue c) && tail.head?.isSome then
      { locals with rtlSpanStart := some locals.thisCodeptPtr } else locals, ?_, ?_, ?_⟩
  · rw [RtlLocals.handleWeakLtr, outside]
  · rw [RtlLocals.handleSpan, outside]
    simp only [more, this]
    split <;> rfl
  · have opens : (tables.directions scratch).rtl c = tables.isRtl (runeValue c) := rfl
    rw [line, Directions.handleRune, opens]
    cases opened : tables.isRtl (runeValue c) && tail.head?.isSome with
    | true =>
        rw [line] at stands
        exact ⟨stands.rewritten, ⟨congrArg some ptr, noWeak⟩, rfl, rfl, rfl⟩
    | false =>
        rw [line] at stands
        exact ⟨stands.rewritten, ⟨outside, noWeak⟩, rfl, rfl, rfl⟩

/-- The part of a turn that grows or closes an open span. -/
theorem handleSpan_inside {inner : List Char}
    (stands : LineAt m start (settled ++ inner ++ c :: tail))
    (open' : locals.rtlSpanStart = some (start + byteLength settled))
    (this : locals.thisCodept = runeValue c)
    (ptr : locals.thisCodeptPtr = start + byteLength (settled ++ inner))
    (next : locals.nextCodept = nextValue tail.head?) (neutral : Bool) :
    ∃ after handled, locals.handleSpan tables m neutral = .ok (after, handled) ∧
      if neutral && (tables.directions scratch).continues tail.head? then
        handled = locals ∧ LineRewritten start m (settled ++ inner ++ c :: tail) after
          (settled ++ inner ++ mirrored c :: tail)
      else if !(tables.directions scratch).rtl c then
        handled = { locals with
          didTransform := true
          rtlSpanStart := none
          weakLtrSpanStart := none } ∧
        LineRewritten start m (settled ++ inner ++ c :: tail) after
          (settled ++ inner.reverse ++ c :: tail)
      else handled = locals ∧ after = m := by
  have rtlEq : tables.isRtl (runeValue c) = (tables.directions scratch).rtl c := rfl
  rw [RtlLocals.handleSpan, open']
  simp only [this, next, continues_nextValue scratch, rtlEq]
  cases grows : neutral && (tables.directions scratch).continues tail.head? with
  | true =>
      obtain ⟨after, swap, rewritten⟩ := stands.applySwaps_middle
      rw [ptr]
      simp only [if_true, bind, Except.bind, swap]
      exact ⟨after, locals, rfl, rfl, rewritten⟩
  | false =>
      cases rtl : (tables.directions scratch).rtl c with
      | true => exact ⟨m, locals, rfl, rfl, rfl⟩
      | false =>
          obtain ⟨after, reverse, rewritten⟩ := stands.reverseSpan_middle
          rw [ptr]
          simp only [Bool.false_eq_true, if_false, Bool.not_false, if_true, bind, Except.bind,
            reverse]
          exact ⟨after, _, rfl, rfl, rewritten⟩

/-- A turn at a weak rune inside of a span. -/
theorem turn_weak (stands : LineAt m start (settled ++ span.runes ++ c :: tail))
    (spans : SpansAt start ⟨settled, some span⟩ locals) (this : locals.thisCodept = runeValue c)
    (ptr : locals.thisCodeptPtr = start + byteLength (settled ++ span.runes))
    (next : locals.nextCodept = nextValue tail.head?)
    (weak : isWeakLtr (runeValue c) = true) :
    ∃ m' neutral locals' after handled, locals.handleWeakLtr m = .ok (m', neutral, locals') ∧
      locals'.handleSpan tables m' neutral = .ok (after, handled) ∧
      Turned start m (settled ++ span.runes ++ c :: tail) locals after
        ((tables.directions scratch).handleRune ⟨settled, some span⟩ c tail.head?)
          tail handled := by
  have open' : locals.rtlSpanStart = some (start + byteLength settled) := spans.rtl_eq
  have weakPtr : locals.weakLtrSpanStart.getD locals.thisCodeptPtr =
      start + byteLength (settled ++ span.body) := by
    rw [spans.weak_eq, ptr]
    rcases span with ⟨body, _ | ⟨first, run⟩⟩ <;> simp [weakStart, OpenSpan.runes]
  generalize begun : ({ locals with
    weakLtrSpanStart := some (start + byteLength (settled ++ span.body)) } : RtlLocals) = locals'
  obtain ⟨after, handled, handle, cases'⟩ := handleSpan_inside scratch stands
    (show locals'.rtlSpanStart = _ by rw [← begun]; exact open')
    (show locals'.thisCodept = _ by rw [← begun]; exact this)
    (show locals'.thisCodeptPtr = _ by rw [← begun]; exact ptr)
    (show locals'.nextCodept = _ by rw [← begun]; exact next) true
  refine ⟨m, true, locals', after, handled, ?_, handle, ?_⟩
  · rw [RtlLocals.handleWeakLtr, open', ← begun]
    simp only [this, weak, if_true, weakPtr, open']
  · have weakD : (tables.directions scratch).weak c = true := weak
    have notRtl := (tables.directions scratch).weak_not_rtl c weak
    have notNeutral := (tables.directions scratch).weak_not_neutral c weak
    have unmirrored : mirrored c = c :=
      (tables.directions scratch).mirror_of_not_neutral c notNeutral
    rw [Directions.handleRune]
    cases continues : (tables.directions scratch).continues tail.head? with
    | true =>
        simp only [continues, Bool.and_true, if_true, unmirrored] at cases'
        obtain ⟨rfl, rewritten⟩ := cases'
        simp only [weakD, Bool.or_true, Bool.and_true, if_true]
        subst begun
        refine ⟨?_, ⟨open', ?_⟩, rfl, rfl, rfl⟩
        · simpa [LineState.runes, OpenSpan.runes] using rewritten
        · simp [weakStart]
    | false =>
        simp only [continues, Bool.and_false, Bool.false_eq_true, if_false, notRtl, Bool.not_false,
          if_true] at cases'
        obtain ⟨rfl, rewritten⟩ := cases'
        simp only [weakD, Bool.or_true, Bool.and_false, Bool.false_eq_true, if_false, notRtl,
          Bool.not_false, if_true, Bool.not_true, Bool.false_and]
        subst begun
        refine ⟨?_, ⟨rfl, rfl⟩, rfl, rfl, rfl⟩
        simpa [LineState.runes] using rewritten

/-- A turn at a neutral rune inside of a span. -/
theorem turn_neutral (stands : LineAt m start (settled ++ span.runes ++ c :: tail))
    (spans : SpansAt start ⟨settled, some span⟩ locals) (this : locals.thisCodept = runeValue c)
    (ptr : locals.thisCodeptPtr = start + byteLength (settled ++ span.runes))
    (next : locals.nextCodept = nextValue tail.head?)
    (notWeak : isWeakLtr (runeValue c) = false) (neutral : isNeutral (runeValue c) = true) :
    ∃ m' neutral locals' after handled, locals.handleWeakLtr m = .ok (m', neutral, locals') ∧
      locals'.handleSpan tables m' neutral = .ok (after, handled) ∧
      Turned start m (settled ++ span.runes ++ c :: tail) locals after
        ((tables.directions scratch).handleRune ⟨settled, some span⟩ c tail.head?)
          tail handled := by
  have open' : locals.rtlSpanStart = some (start + byteLength settled) := spans.rtl_eq
  have grown (e : Char) : weakStart start ⟨settled, some (span.append e)⟩ =
      weakStart start ⟨settled, some span⟩ := by
    rcases span with ⟨body, _ | ⟨first, run⟩⟩ <;> simp [weakStart, OpenSpan.append]
  obtain ⟨after, handled, handle, cases'⟩ :=
    handleSpan_inside scratch stands open' this ptr next true
  refine ⟨m, true, locals, after, handled, ?_, handle, ?_⟩
  · rw [RtlLocals.handleWeakLtr, open']
    simp [this, notWeak, neutral]
  · have notWeakD : (tables.directions scratch).weak c = false := notWeak
    have neutralD : (tables.directions scratch).neutral c = true := neutral
    rw [Directions.handleRune]
    cases continues : (tables.directions scratch).continues tail.head? with
    | true =>
        simp only [continues, Bool.and_true, if_true] at cases'
        obtain ⟨rfl, rewritten⟩ := cases'
        simp only [notWeakD, neutralD, Bool.or_false, Bool.and_true, if_true, Bool.false_eq_true,
          if_false]
        refine ⟨?_, ⟨open', spans.weak_eq.trans (grown _).symm⟩, rfl, rfl, rfl⟩
        have image : (tables.directions scratch).mirror c = mirrored c := rfl
        simpa [LineState.runes, image] using rewritten
    | false =>
        cases rtl : (tables.directions scratch).rtl c with
        | true =>
            simp only [continues, Bool.and_false, Bool.false_eq_true, if_false, rtl,
              Bool.not_true] at cases'
            obtain ⟨rfl, rfl⟩ := cases'
            simp only [notWeakD, neutralD, Bool.and_false, Bool.false_eq_true, if_false,
              Bool.not_true]
            refine ⟨?_, ⟨open', spans.weak_eq.trans (grown _).symm⟩, rfl, rfl, rfl⟩
            have kept := stands.rewritten
            simpa [LineState.runes] using kept
        | false =>
            simp only [continues, Bool.and_false, Bool.false_eq_true, if_false, rtl,
              Bool.not_false, if_true] at cases'
            obtain ⟨rfl, rewritten⟩ := cases'
            simp only [notWeakD, neutralD, Bool.and_false, Bool.false_eq_true, if_false,
              Bool.not_true, Bool.not_false, if_true]
            refine ⟨?_, ⟨rfl, rfl⟩, rfl, rfl, rfl⟩
            simpa [LineState.runes] using rewritten

/-- A rune that is neither weak nor neutral closes the weak run. -/
theorem handleWeakLtr_closes (stands : LineAt m start (settled ++ span.runes ++ c :: tail))
    (spans : SpansAt start ⟨settled, some span⟩ locals) (this : locals.thisCodept = runeValue c)
    (ptr : locals.thisCodeptPtr = start + byteLength (settled ++ span.runes))
    (notWeak : isWeakLtr (runeValue c) = false) (notNeutral : isNeutral (runeValue c) = false) :
    ∃ m', locals.handleWeakLtr m = .ok (m', false, { locals with weakLtrSpanStart := none }) ∧
      LineRewritten start m (settled ++ span.runes ++ c :: tail) m'
        (settled ++ span.turned.runes ++ c :: tail) := by
  have open' : locals.rtlSpanStart = some (start + byteLength settled) := spans.rtl_eq
  have weakEq := spans.weak_eq
  rcases span with ⟨body, _ | ⟨first, run⟩⟩
  · have noWeak : locals.weakLtrSpanStart = none := weakEq
    have same : ({ locals with weakLtrSpanStart := none } : RtlLocals) = locals := by rw [← noWeak]
    have unturned : (OpenSpan.mk body []).turned = ⟨body, []⟩ := by simp [OpenSpan.turned]
    rw [same, unturned]
    refine ⟨m, ?_, stands.rewritten⟩
    rw [RtlLocals.handleWeakLtr, open', noWeak]
    simp only [this, notWeak, notNeutral, Bool.false_eq_true, if_false, Bool.not_false, if_true]
  · have weak : locals.weakLtrSpanStart = some (start + byteLength (settled ++ body)) := weakEq
    have split : settled ++ (OpenSpan.mk body (first :: run)).runes =
        settled ++ body ++ first :: run := by
      simp [OpenSpan.runes]
    rw [split] at stands ptr ⊢
    obtain ⟨m', reverse, rewritten⟩ := stands.reverseSpan_middle
    refine ⟨m', ?_, ?_⟩
    · rw [RtlLocals.handleWeakLtr, open', weak]
      simp only [this, notWeak, notNeutral, Bool.false_eq_true, if_false, Bool.not_false, if_true,
        bind, Except.bind, ptr, reverse]
    · simpa [OpenSpan.turned, OpenSpan.runes] using rewritten

/-- A turn at any other rune inside of a span. -/
theorem turn_other (stands : LineAt m start (settled ++ span.runes ++ c :: tail))
    (spans : SpansAt start ⟨settled, some span⟩ locals) (this : locals.thisCodept = runeValue c)
    (ptr : locals.thisCodeptPtr = start + byteLength (settled ++ span.runes))
    (next : locals.nextCodept = nextValue tail.head?)
    (notWeak : isWeakLtr (runeValue c) = false) (notNeutral : isNeutral (runeValue c) = false) :
    ∃ m' neutral locals' after handled, locals.handleWeakLtr m = .ok (m', neutral, locals') ∧
      locals'.handleSpan tables m' neutral = .ok (after, handled) ∧
      Turned start m (settled ++ span.runes ++ c :: tail) locals after
        ((tables.directions scratch).handleRune ⟨settled, some span⟩ c tail.head?)
          tail handled := by
  have open' : locals.rtlSpanStart = some (start + byteLength settled) := spans.rtl_eq
  have notWeakD : (tables.directions scratch).weak c = false := notWeak
  have notNeutralD : (tables.directions scratch).neutral c = false := notNeutral
  have samePtr : byteLength (settled ++ span.turned.runes) =
      byteLength (settled ++ span.runes) := by
    simp [OpenSpan.turned, OpenSpan.runes, byteLength_reverse]
  obtain ⟨m', closes, turned⟩ := handleWeakLtr_closes stands spans this ptr notWeak notNeutral
  obtain ⟨after, handled, handle, cases'⟩ := handleSpan_inside scratch turned.stands
    (show ({ locals with weakLtrSpanStart := none } : RtlLocals).rtlSpanStart = _ from open') this
    (show locals.thisCodeptPtr = _ by rw [samePtr]; exact ptr) next false
  refine ⟨m', false, _, after, handled, closes, handle, ?_⟩
  rw [Directions.handleRune]
  simp only [Bool.false_and, Bool.false_eq_true, if_false] at cases'
  simp only [notWeakD, notNeutralD, Bool.or_false, Bool.false_and, Bool.false_eq_true, if_false,
    Bool.not_false, Bool.and_true, if_true]
  cases rtl : (tables.directions scratch).rtl c with
  | true =>
      simp only [rtl, Bool.not_true, Bool.false_eq_true, if_false] at cases'
      obtain ⟨rfl, rfl⟩ := cases'
      refine ⟨?_, ⟨open', rfl⟩, rfl, rfl, rfl⟩
      simpa [LineState.runes] using turned
  | false =>
      simp only [rtl, Bool.not_false, if_true] at cases'
      obtain ⟨rfl, rewritten⟩ := cases'
      refine ⟨?_, ⟨rfl, rfl⟩, rfl, rfl, rfl⟩
      simpa [LineState.runes] using turned.trans rewritten

/-- A turn of the loop, in any state. -/
theorem turn_ok {state : LineState Char} (stands : LineAt m start (state.runes ++ c :: tail))
    (spans : SpansAt start state locals) (this : locals.thisCodept = runeValue c)
    (ptr : locals.thisCodeptPtr = start + byteLength state.runes)
    (next : locals.nextCodept = nextValue tail.head?)
    (nonzero : ∀ e ∈ tail.head?, runeValue e ≠ 0) :
    ∃ m' neutral locals' after handled, locals.handleWeakLtr m = .ok (m', neutral, locals') ∧
      locals'.handleSpan tables m' neutral = .ok (after, handled) ∧
      Turned start m (state.runes ++ c :: tail) locals after
        ((tables.directions scratch).handleRune state c tail.head?) tail handled := by
  rcases state with ⟨settled, _ | span⟩
  · obtain ⟨neutral, after, handled, weak, handle, turned⟩ :=
      turn_outside scratch stands spans this ptr next nonzero
    exact ⟨m, neutral, locals, after, handled, weak, handle, turned⟩
  · cases weak : isWeakLtr (runeValue c) with
    | true => exact turn_weak scratch stands spans this ptr next weak
    | false =>
        cases neutral : isNeutral (runeValue c) with
        | true => exact turn_neutral scratch stands spans this ptr next weak neutral
        | false => exact turn_other scratch stands spans this ptr next weak neutral

end Turns

section Loop

variable {tables : ShaperTables} (scratch : tables.RecyclesScratch) {m : Memory} {start : Int}
  {lineEnd : Int} {locals : RtlLocals} {state : LineState Char} {c : Char} {tail : List Char}

/-- The loop is about to handle the rune `c`, with `tail` behind it. -/
structure Handling (m : Memory) (start lineEnd : Int) (state : LineState Char) (c : Char)
    (tail : List Char) (locals : RtlLocals) : Prop where
  stands : LineAt m start (state.runes ++ c :: tail)
  spans : SpansAt start state locals
  nextCodept : locals.nextCodept = runeValue c
  nextCodeptPtr : locals.nextCodeptPtr = start + byteLength state.runes
  iter : locals.iter = start + byteLength (state.runes ++ [c])
  lineEnd_le : lineEnd ≤ start + byteLength (state.runes ++ c :: tail)
  le_lineEnd : tail ≠ [] → start + byteLength (state.runes ++ c :: tail) ≤ lineEnd

theorem nonzero_of_runeValue (value : runeValue c ≠ 0) : c ≠ '\x00' := by
  rintro rfl
  exact value rfl

/-- Moving the window over `c`. -/
theorem Handling.readForward_ok (handling : Handling m start lineEnd state c tail locals)
    (nonzero : ∀ e ∈ tail.head?, runeValue e ≠ 0) :
    ∃ read, locals.readForward m lineEnd = .ok read ∧ SpansAt start state read ∧
      read.thisCodept = runeValue c ∧ read.thisCodeptPtr = start + byteLength state.runes ∧
      read.nextCodept = nextValue tail.head? ∧
      (∀ e ∈ tail.head?, read.nextCodeptPtr = start + byteLength (state.runes ++ [c])) ∧
      read.iter = start + byteLength (state.runes ++ c :: tail.head?.toList) := by
  obtain ⟨stands, ⟨rtlEq, weakEq⟩, nextCodept, nextCodeptPtr, iter, upper, lower⟩ := handling
  rw [RtlLocals.readForward]
  cases tail with
  | nil =>
      have ended : ¬ locals.iter < lineEnd := by omega
      simp only [ended, if_false]
      exact ⟨_, rfl, ⟨rtlEq, weakEq⟩, nextCodept, nextCodeptPtr, rfl, by simp, iter⟩
  | cons next tail =>
      have split : state.runes ++ c :: next :: tail =
          (state.runes ++ [c]) ++ next :: tail := by simp
      rw [split] at stands lower
      have nextNonzero := nonzero_of_runeValue (nonzero next rfl)
      obtain ⟨lead, bytes, eq, load⟩ := stands.load_lead
      have leadNonzero : lead ≠ 0 := encodeChar_byte_ne_zero nextNonzero lead (by simp [eq])
      have positive := next.utf8Size_pos
      have before : locals.iter < lineEnd := by
        have := lower (by simp)
        rw [byteLength_append, byteLength_cons] at this
        push_cast at this
        omega
      rw [← iter] at load
      have readNext := stands.readUtf8_eq
      rw [← iter] at readNext
      simp only [before, if_true, bind, Except.bind, load, ne_eq, leadNonzero, not_false_eq_true,
        readNext]
      exact ⟨_, rfl, ⟨rtlEq, weakEq⟩, nextCodept, nextCodeptPtr, rfl, fun _ _ => iter, by simp⟩

/-- One turn of the loop: what it leaves for the next turn, and when there is one. -/
theorem Handling.turn (handling : Handling m start lineEnd state c tail locals)
    (nonzero : ∀ e ∈ tail.head?, runeValue e ≠ 0) (fuel : Nat) :
    ∃ after handled,
      rtlLoop tables lineEnd (fuel + 1) m locals =
        (if handled.nextCodept ≠ 0 then rtlLoop tables lineEnd fuel after handled
          else .ok (after, handled)) ∧
      LineRewritten start m (state.runes ++ c :: tail) after
        (((tables.directions scratch).handleRune state c tail.head?).runes ++ tail) ∧
      SpansAt start ((tables.directions scratch).handleRune state c tail.head?) handled ∧
      handled.nextCodept = nextValue tail.head? ∧
      (∀ e ∈ tail.head?, handled.nextCodeptPtr = start + byteLength (state.runes ++ [c])) ∧
      handled.iter = start + byteLength (state.runes ++ c :: tail.head?.toList) := by
  obtain ⟨read, reads, spans, this, ptr, next, nextPtr, iter⟩ := handling.readForward_ok nonzero
  obtain ⟨m', neutral, weak, after, handled, handleWeak, handleSpan, turned⟩ :=
    turn_ok scratch handling.stands spans this ptr next nonzero
  refine ⟨after, handled, ?_, turned.rewritten, turned.spans, turned.nextCodept.trans next,
    fun e member => turned.nextCodeptPtr.trans (nextPtr e member), turned.iter.trans iter⟩
  rw [rtlLoop, reads]
  simp only [bind, Except.bind, handleWeak, handleSpan]

/-- In front of another rune, a turn ends where the next one begins. -/
theorem Handling.step {next : Char}
    (handling : Handling m start lineEnd state c (next :: tail) locals)
    (nonzero : runeValue next ≠ 0) (fuel : Nat) :
    ∃ after handled,
      rtlLoop tables lineEnd (fuel + 1) m locals = rtlLoop tables lineEnd fuel after handled ∧
      LineRewritten start m (state.runes ++ c :: next :: tail) after
        (((tables.directions scratch).handleRune state c (some next)).runes ++ next :: tail) ∧
      Handling after start lineEnd ((tables.directions scratch).handleRune state c (some next))
        next tail handled := by
  obtain ⟨after, handled, run, rewritten, spans, nextEq, nextPtr, iter⟩ :=
    handling.turn scratch (by simpa using nonzero) fuel
  rw [List.head?_cons] at rewritten spans nextEq nextPtr iter
  have goesOn : handled.nextCodept ≠ 0 := by
    rw [nextEq]
    exact nonzero
  have lengthEq := rewritten.length_eq
  have place : byteLength ((tables.directions scratch).handleRune state c (some next)).runes =
      byteLength (state.runes ++ [c]) := by
    simp only [byteLength_append, byteLength_cons, byteLength_nil] at lengthEq ⊢
    omega
  rw [if_pos goesOn] at run
  exact ⟨after, handled, run, rewritten, {
    stands := rewritten.stands
    spans := spans
    nextCodept := nextEq
    nextCodeptPtr := by rw [nextPtr next rfl, place]
    iter := by
      rw [iter, byteLength_append, byteLength_append _ [next], place]
      simp only [Option.toList_some, byteLength_append, byteLength_cons, byteLength_nil]
      push_cast
      omega
    lineEnd_le := by
      rw [lengthEq]
      exact handling.lineEnd_le
    le_lineEnd := fun _ => by
      rw [lengthEq]
      exact handling.le_lineEnd (by simp) }⟩

/-- The loop runs to the end of the line. -/
theorem rtlLoop_ok (handling : Handling m start lineEnd state c tail locals)
    (nonzero : ∀ e ∈ tail, runeValue e ≠ 0) {fuel : Nat} (enough : tail.length + 1 ≤ fuel) :
    ∃ after final, rtlLoop tables lineEnd fuel m locals = .ok (after, final) ∧
      LineRewritten start m (state.runes ++ c :: tail) after
        ((tables.directions scratch).handleRunes state (c :: tail)).runes ∧
      SpansAt start ((tables.directions scratch).handleRunes state (c :: tail)) final ∧
      final.iter = start + byteLength (state.runes ++ c :: tail) := by
  obtain ⟨fuel, rfl⟩ : ∃ less, fuel = less + 1 := ⟨fuel - 1, by omega⟩
  induction tail generalizing m locals state c fuel with
  | nil =>
      obtain ⟨after, handled, run, rewritten, spans, next, -, iter⟩ :=
        handling.turn scratch (by simp) fuel
      rw [List.append_nil] at rewritten
      have ended : handled.nextCodept = 0 := next
      refine ⟨after, handled, ?_, rewritten, spans, iter⟩
      rw [run, if_neg (not_not.mpr ended)]
  | cons next tail ih =>
      rw [List.forall_mem_cons] at nonzero
      obtain ⟨after, handled, run, rewritten, handlingNext⟩ := handling.step scratch nonzero.1 fuel
      obtain ⟨fuel, rfl⟩ : ∃ less, fuel = less + 1 := ⟨fuel - 1, by simp at enough; omega⟩
      obtain ⟨later, final, runs, rewrites, finalSpans, finalIter⟩ :=
        ih handlingNext nonzero.2 fuel (by simpa using enough)
      refine ⟨later, final, run.trans runs, rewritten.trans rewrites, finalSpans, ?_⟩
      rw [finalIter, rewritten.length_eq]

/-- Closing what is open at the end of the line. -/
theorem closeSpans_ok (stands : LineAt m start state.runes) (spans : SpansAt start state locals)
    (iter : locals.iter = start + byteLength state.runes) :
    ∃ after didTransform, closeSpans m locals = .ok (after, didTransform) ∧
      LineRewritten start m state.runes after (Directions.closeLine state) := by
  obtain ⟨rtlEq, weakEq⟩ := spans
  rcases state with ⟨settled, _ | ⟨body, run⟩⟩
  · have outside : locals.rtlSpanStart = none := rtlEq
    have noWeak : locals.weakLtrSpanStart = none := weakEq
    refine ⟨m, locals.didTransform, ?_, stands.rewritten⟩
    rw [closeSpans, outside, noWeak]
    rfl
  · have open' : locals.rtlSpanStart = some (start + byteLength settled) := rtlEq
    have closed : Directions.closeLine ⟨settled, some ⟨body, run⟩⟩ =
        settled ++ (body ++ run.reverse).reverse := by
      simp [Directions.closeLine, OpenSpan.turned, OpenSpan.runes]
    have reverseWhole {m' : Memory} (turned : LineRewritten start m (settled ++ (body ++ run)) m'
        (settled ++ (body ++ run.reverse))) :
        ∃ after, reverseSpan m' (start + byteLength settled) locals.iter = .ok after ∧
          LineRewritten start m (settled ++ (body ++ run)) after
            (Directions.closeLine ⟨settled, some ⟨body, run⟩⟩) := by
      have standsTurned := turned.stands
      rw [← List.append_nil (settled ++ (body ++ run.reverse))] at standsTurned
      obtain ⟨after, reverse, rewritten⟩ := standsTurned.reverseSpan_middle
      rw [List.append_nil, List.append_nil] at rewritten
      refine ⟨after, ?_, closed ▸ turned.trans rewritten⟩
      rw [iter]
      change reverseSpan _ _ (start + byteLength (settled ++ (body ++ run))) = _
      rw [← turned.length_eq]
      exact reverse
    cases run with
    | nil =>
        have noWeak : locals.weakLtrSpanStart = none := weakEq
        obtain ⟨after, reverse, rewritten⟩ := reverseWhole stands.rewritten
        refine ⟨after, true, ?_, rewritten⟩
        rw [closeSpans, open', noWeak]
        simp only [bind, Except.bind, reverse]
    | cons first run =>
        have weak : locals.weakLtrSpanStart = some (start + byteLength (settled ++ body)) := weakEq
        have split : settled ++ (body ++ first :: run) = settled ++ body ++ first :: run ++ [] := by
          simp
        change LineAt m start (settled ++ (body ++ first :: run)) at stands
        rw [split] at stands
        obtain ⟨m', reverseWeak, turned⟩ := stands.reverseSpan_middle
        obtain ⟨after, reverse, rewritten⟩ := reverseWhole (show LineRewritten start m
          (settled ++ (body ++ first :: run)) m' (settled ++ (body ++ (first :: run).reverse)) by
            simpa using turned)
        have iterWeak : locals.iter = start + byteLength (settled ++ body ++ first :: run) := by
          rw [List.append_assoc]
          exact iter
        rw [← iterWeak] at reverseWeak
        refine ⟨after, true, ?_, rewritten⟩
        rw [closeSpans, open', weak]
        simp only [bind, Except.bind, reverseWeak, reverse]

/-- `rtl_apply` reorders the line in place.  It also reads a rune when the line is
empty, and then leaves it alone. -/
theorem rtlApply_ok {chars : List Char} (stands : LineAt m start (c :: chars))
    (nonzero : ∀ e ∈ chars, runeValue e ≠ 0)
    (lineEnd_le : lineEnd ≤ start + byteLength (c :: chars))
    (le_lineEnd : chars ≠ [] → start + byteLength (c :: chars) ≤ lineEnd) :
    ∃ after didTransform, rtlApply tables m start lineEnd = .ok (after, didTransform) ∧
      LineRewritten start m (c :: chars) after
        ((tables.directions scratch).reorder (c :: chars)) := by
  have first : LineAt m start ([] ++ c :: chars) := stands
  have read := first.readUtf8_eq
  simp only [byteLength_nil, Nat.cast_zero, add_zero, List.nil_append] at read
  have handling : Handling m start lineEnd ⟨[], none⟩ c chars
      ⟨false, none, none, start + byteLength [c], start, runeValue c, 0, 0⟩ := {
    stands := stands
    spans := ⟨rfl, rfl⟩
    nextCodept := rfl
    nextCodeptPtr := by simp [LineState.runes]
    iter := rfl
    lineEnd_le := lineEnd_le
    le_lineEnd := le_lineEnd }
  have enough : chars.length + 1 ≤ (lineEnd - start).toNat + 1 := by
    cases chars with
    | nil => simp
    | cons next chars =>
        have := le_lineEnd (by simp)
        have short := length_le_byteLength (c :: next :: chars)
        simp only [List.length_cons] at short ⊢
        omega
  obtain ⟨m', final, loop, rewritten, spans, iter⟩ := rtlLoop_ok scratch handling nonzero enough
  change LineRewritten start m (c :: chars) _ _ at rewritten
  change final.iter = start + byteLength (c :: chars) at iter
  rw [← rewritten.length_eq] at iter
  obtain ⟨after, didTransform, close, closed⟩ := closeSpans_ok rewritten.stands spans iter
  refine ⟨after, didTransform, ?_, rewritten.trans closed⟩
  rw [rtlApply, read]
  simp only [bind, Except.bind, loop]
  exact close

end Loop

/-! ## The result of a call -/

/-- `rtl_apply` on the line that stands at `lineStart` leaves `line'` in its place, and stores
nowhere else. -/
def ReordersTo (tables : ShaperTables) (m : Memory) (lineStart : Int) (line line' : List Char) :
    Prop :=
  ∃ after didTransform,
    rtlApply tables m lineStart (lineStart + byteLength line) = .ok (after, didTransform) ∧
      LineRewritten lineStart m line after line'

/-- Two lines of one length at one place are the same line. -/
theorem LineAt.unique {m : Memory} {start : Int} {line line' : List Char}
    (stands : LineAt m start line) (also : LineAt m start line')
    (length_eq : byteLength line = byteLength line') : line = line' :=
  encode_injective (stands.spelled.unique also.spelled length_eq)

theorem reordersTo_iff {tables : ShaperTables} (scratch : tables.RecyclesScratch) {m : Memory}
    {lineStart : Int} {line line' : List Char} (stands : LineAt m lineStart line)
    (nonempty : line ≠ []) (nonzero : ∀ c ∈ line, runeValue c ≠ 0) :
    ReordersTo tables m lineStart line line' ↔
      (tables.directions scratch).reorder line = line' := by
  obtain ⟨c, chars, rfl⟩ := List.exists_cons_of_ne_nil nonempty
  obtain ⟨after, didTransform, apply, rewritten⟩ := rtlApply_ok scratch stands
    (fun e member => nonzero e (by simp [member])) le_rfl (fun _ => le_rfl)
  constructor
  · rintro ⟨after', didTransform', apply', rewritten'⟩
    obtain ⟨rfl, -⟩ := Prod.mk.inj (Except.ok.inj (apply.symm.trans apply'))
    exact rewritten.stands.unique rewritten'.stands
      (rewritten.length_eq.trans rewritten'.length_eq.symm)
  · rintro rfl
    exact ⟨after, didTransform, apply, rewritten⟩

end Elbbep
