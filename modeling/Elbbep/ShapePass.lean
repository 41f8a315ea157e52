import Elbbep.ShapedText

/-!
# The shaping pass computes the shaped text

Behind its window the pass of `shape_text` leaves either text that it will not
touch again, or an open word: its last letter, written as if the word went on,
and the runes of zero width that follow it.  This file shows that one turn of
the loop keeps this account, and hence that the whole pass turns a text into
the shaped text, writing nothing but 2-byte runes over 2-byte runes.
-/

namespace Elbbep

open ByteMemory Utf8Encoding ShaperTables

/-- What the pass has left behind its window. -/
inductive ShapedPrefix
  | settled (done : List Char)
  | pending (before : List Char) (joined : Bool) (entry : ShaperLUTEntry) (marks : List Char)

namespace ShapedPrefix

def chars : ShapedPrefix → List Char
  | settled done => done
  | pending before joined entry marks =>
      before ++ entry.formChar (if joined then .medial else .initial) :: marks

/-- The text once the open word has been closed. -/
def closed : ShapedPrefix → List Char
  | settled done => done
  | pending before _ entry marks => before ++ entry.formChar .final :: marks

def resolve (shaped : ShapedPrefix) (letterFollows : Bool) : List Char :=
  if letterFollows then shaped.chars else shaped.closed

def joined : ShapedPrefix → Bool
  | settled _ => false
  | pending .. => true

def push (c : Char) : ShapedPrefix → ShapedPrefix
  | settled done => settled (done ++ [c])
  | pending before joined entry marks => pending before joined entry (marks ++ [c])

def state : ShapedPrefix → ShaperState
  | settled _ => .initial
  | pending .. => .medial

def lateFinalize (text : Int) : ShapedPrefix → Option (Int × ShaperLUTEntry)
  | settled _ => none
  | pending before _ entry _ => some (text + byteLength before, entry)

def TwoByteForms : ShapedPrefix → Prop
  | settled _ => True
  | pending _ _ entry _ => entry.TwoByteForms

variable (shaped : ShapedPrefix) (c : Char)

@[simp] theorem push_chars : (shaped.push c).chars = shaped.chars ++ [c] := by
  cases shaped <;> simp [push, chars]

@[simp] theorem push_closed : (shaped.push c).closed = shaped.closed ++ [c] := by
  cases shaped <;> simp [push, closed]

@[simp] theorem push_resolve (letterFollows : Bool) :
    (shaped.push c).resolve letterFollows = shaped.resolve letterFollows ++ [c] := by
  cases letterFollows <;> simp [resolve]

@[simp] theorem push_joined : (shaped.push c).joined = shaped.joined := by
  cases shaped <;> rfl

@[simp] theorem push_state : (shaped.push c).state = shaped.state := by
  cases shaped <;> rfl

@[simp] theorem push_lateFinalize (text : Int) :
    (shaped.push c).lateFinalize text = shaped.lateFinalize text := by
  cases shaped <;> rfl

theorem push_twoByteForms : (shaped.push c).TwoByteForms ↔ shaped.TwoByteForms := by
  cases shaped <;> rfl

end ShapedPrefix

section Turn

variable {tables : ShaperTables} {m : Memory} {text : Int} {shaped : ShapedPrefix}
  {codept : Nat} {c : Char} {rest : List Char} {locals : ShapeLocals}

/-- The prefix after the turn that handles `c`. -/
def ShapedPrefix.advance (tables : ShaperTables) (shaped : ShapedPrefix) (codept : Nat)
    (c : Char) (rest : List Char) : ShapedPrefix :=
  if isZeroWidth codept then shaped.push c
  else
    match tables.findLutEntryByCodept codept with
    | some entry =>
        if tables.following rest = .breakNow ∨ entry.hasNoMedialForm then
          .settled (shaped.chars ++
            [entry.formChar (if shaped.joined then .final else .isolated)])
        else .pending shaped.chars shaped.joined entry []
    | none => .settled (shaped.closed ++ [c])

/-- The window stands on `c`, which reads as `codept`, and the rune behind it
has been read. -/
structure OnRune (tables : ShaperTables) (m : Memory) (text : Int) (shaped : ShapedPrefix)
    (codept : Nat) (c : Char) (rest : List Char) (locals : ShapeLocals) : Prop where
  stands : TextAt m text (shaped.chars ++ c :: rest)
  twoByteForms : shaped.TwoByteForms
  size : (tables.findLutEntryByCodept codept).isSome → c.utf8Size = 2
  thisCodept : locals.thisCodept = codept
  thisCodeptPtr : locals.thisCodeptPtr = text + byteLength shaped.chars
  thisLutEntry : locals.thisLutEntry = tables.findLutEntryByCodept codept
  state : locals.state = shaped.state
  lateFinalize : locals.lateFinalize = shaped.lateFinalize text

/-- Closing an open word. -/
theorem closeWord_spec (twoByte : shaped.TwoByteForms)
    (stands : TextAt m text (shaped.chars ++ rest)) :
    TextAt (closeWord m shaped.state (shaped.lateFinalize text)) text (shaped.closed ++ rest) ∧
      RuneWrites text ((shaped.chars ++ rest).map Char.utf8Size) m
        (closeWord m shaped.state (shaped.lateFinalize text)) := by
  cases shaped with
  | settled done => exact ⟨stands, .refl m⟩
  | pending before joined entry marks =>
      simp only [ShapedPrefix.chars, List.append_assoc, List.cons_append] at stands
      simp only [ShapedPrefix.lateFinalize, ShapedPrefix.state, closeWord, twoByte.writeForm_eq,
        ShapedPrefix.closed, ShapedPrefix.chars, List.append_assoc, List.cons_append]
      exact ⟨stands.write (twoByte.formChar_size _) (twoByte.formChar_size _),
        .write m _ (runeStart_of_append text before _ (twoByte.formChar_size _))⟩

/-- A rune the pass looks at as such becomes what `advance` says. -/
theorem shapeThis_advance (sound : tables.Sound)
    (onRune : OnRune tables m text shaped codept c rest locals)
    (noLigature : locals.ligatureSpan = 0)
    (ahead : (locals.nextLutEntry.isNone && !isZeroWidth locals.nextCodept) =
      decide (tables.following rest = .breakNow)) :
    let next := shaped.advance tables codept c rest
    ∃ shapedMemory, locals.shapeThis m = (shapedMemory, { locals with
        state := next.state
        lateFinalize := next.lateFinalize text }) ∧
      TextAt shapedMemory text (next.chars ++ rest) ∧ next.TwoByteForms ∧
      RuneWrites text ((shaped.chars ++ c :: rest).map Char.utf8Size) m shapedMemory := by
  obtain ⟨stands, twoByte, size, thisCodept, thisPtr, thisEntry, state, late⟩ := onRune
  simp only [ShapeLocals.shapeThis, noLigature, ne_eq, not_true_eq_false, if_false, thisCodept,
    thisEntry, ahead, ShapedPrefix.advance]
  by_cases zeroWidth : isZeroWidth codept = true
  · simp only [zeroWidth, if_true, ShapedPrefix.push_state, ShapedPrefix.push_lateFinalize,
      ShapedPrefix.push_chars, ShapedPrefix.push_twoByteForms]
    refine ⟨m, ?_, by simpa using stands, twoByte, .refl m⟩
    rw [← state, ← late, ← thisEntry, ← thisCodept, ← noLigature]
  · simp only [zeroWidth]
    cases found : tables.findLutEntryByCodept codept with
    | none =>
        -- An unshapable rune closes the word behind it.
        obtain ⟨standsClosed, writes⟩ := closeWord_spec twoByte stands
        simp only [state, late]
        exact ⟨_, rfl, by simpa [ShapedPrefix.chars] using standsClosed, trivial, writes⟩
    | some entry =>
        have entryForms := sound.form_two_byte codept entry found
        have width := size (by simp [found])
        have written (form : LetterForm) :
            TextAt (writeForm m locals.thisCodeptPtr entry form) text
                (shaped.chars ++ entry.formChar form :: rest) ∧
              RuneWrites text ((shaped.chars ++ c :: rest).map Char.utf8Size) m
                (writeForm m locals.thisCodeptPtr entry form) := by
          rw [entryForms.writeForm_eq, thisPtr]
          exact ⟨stands.write width (entryForms.formChar_size form),
            .write m _ (runeStart_of_append text _ _ width)⟩
        by_cases closes : tables.following rest = .breakNow ∨ entry.hasNoMedialForm = true
        · have taken : (decide (tables.following rest = .breakNow) || entry.hasNoMedialForm) =
              true := by
            simpa using closes
          simp only [taken, closes, if_true]
          cases shaped with
          | settled done =>
              refine ⟨_, by rw [state]; rfl, ?_, trivial, (written .isolated).2⟩
              simpa [ShapedPrefix.chars, ShapedPrefix.joined] using (written .isolated).1
          | pending before joined last marks =>
              refine ⟨_, by rw [state]; rfl, ?_, trivial, (written .final).2⟩
              simpa [ShapedPrefix.chars, ShapedPrefix.joined] using (written .final).1
        · have notTaken :
              (decide (tables.following rest = .breakNow) || entry.hasNoMedialForm) = false := by
            simpa using closes
          simp only [notTaken, closes, if_false]
          cases shaped with
          | settled done =>
              refine ⟨_, by rw [state, thisPtr]; rfl, ?_, entryForms, (written .initial).2⟩
              simpa [ShapedPrefix.chars, ShapedPrefix.joined] using (written .initial).1
          | pending before joined last marks =>
              refine ⟨_, by rw [state, thisPtr]; rfl, ?_, entryForms, (written .medial).2⟩
              simpa [ShapedPrefix.chars, ShapedPrefix.joined] using (written .medial).1

end Turn

/-! ## The account of the text -/

namespace ShapedPrefix

theorem closed_sizes {shaped : ShapedPrefix} (twoByte : shaped.TwoByteForms) :
    shaped.closed.map Char.utf8Size = shaped.chars.map Char.utf8Size := by
  cases shaped with
  | settled done => rfl
  | pending before joined entry marks => simp [closed, chars, twoByte.formChar_size]

/-- Shaping a rune keeps its size. -/
theorem advance_sizes {tables : ShaperTables} (sound : tables.Sound) {shaped : ShapedPrefix}
    (twoByte : shaped.TwoByteForms) {codept : Nat} {c : Char}
    (size : (tables.findLutEntryByCodept codept).isSome → c.utf8Size = 2) (rest : List Char) :
    (shaped.advance tables codept c rest).chars.map Char.utf8Size =
      (shaped.chars ++ [c]).map Char.utf8Size := by
  unfold advance
  split
  · rw [push_chars]
  · split
    next entry found =>
      have forms := sound.form_two_byte _ _ found
      have width := size (by simp [found])
      split <;> simp [chars, forms.formChar_size, width]
    next => simp [chars, closed_sizes twoByte]

theorem advance_byteLength {tables : ShaperTables} (sound : tables.Sound) {shaped : ShapedPrefix}
    (twoByte : shaped.TwoByteForms) {codept : Nat} {c : Char}
    (size : (tables.findLutEntryByCodept codept).isSome → c.utf8Size = 2) (rest : List Char) :
    byteLength (shaped.advance tables codept c rest).chars = byteLength (shaped.chars ++ [c]) := by
  rw [byteLength_eq_sum, advance_sizes sound twoByte size, ← byteLength_eq_sum]

/-- Whatever follows, closing the word now or later amounts to the shaped character. -/
theorem advance_resolve {tables : ShaperTables} {codept : Nat} {rest : List Char}
    (alone : tables.ligates codept rest = false) (shaped : ShapedPrefix) (c : Char) :
    (shaped.advance tables codept c rest).resolve (tables.wordGoesOn rest) =
      shaped.resolve (tables.letterAhead codept rest) ++
        [tables.shapedChar shaped.joined codept c rest] := by
  unfold advance letterAhead shapedChar
  rw [alone, Bool.false_or]
  by_cases zeroWidth : isZeroWidth codept = true
  · simp [zeroWidth]
  · simp only [zeroWidth]
    cases found : tables.findLutEntryByCodept codept with
    | none => simp [resolve, chars, closed]
    | some entry =>
        have goesOn := tables.wordGoesOn_of_following rest
        simp only [Option.isSome_some, resolve]
        by_cases noMedial : entry.hasNoMedialForm = true
        · simp [noMedial, ShaperLUTEntry.formIn, chars, closed]
        · cases follows : tables.following rest <;>
            simp_all [ShaperLUTEntry.formIn, chars, closed]

theorem advance_joined (tables : ShaperTables) (shaped : ShapedPrefix) (codept : Nat) (c : Char)
    (rest : List Char) :
    (shaped.advance tables codept c rest).joined =
      tables.joinsNext shaped.joined codept rest := by
  unfold advance joinsNext
  by_cases zeroWidth : isZeroWidth codept = true
  · simp [zeroWidth]
  · cases found : tables.findLutEntryByCodept codept with
    | none => simp [zeroWidth, joined]
    | some entry =>
        by_cases breaks : tables.following rest = .breakNow
        · simp [zeroWidth, breaks, joined]
        · cases noMedial : entry.hasNoMedialForm <;> simp [zeroWidth, breaks, noMedial, joined]

end ShapedPrefix

/-! ## Turns of the loop -/

section Loop

variable {tables : ShaperTables} {m : Memory} {text : Int} {shaped : ShapedPrefix}
  {codept : Nat} {c : Char} {rest : List Char} {locals : ShapeLocals}

/-- At the head of the loop, `c` has been read last and reads as `codept`. -/
structure AtRune (tables : ShaperTables) (m : Memory) (text : Int) (shaped : ShapedPrefix)
    (codept : Nat) (c : Char) (rest : List Char) (locals : ShapeLocals) : Prop where
  stands : TextAt m text (shaped.chars ++ c :: rest)
  twoByteForms : shaped.TwoByteForms
  size : (tables.findLutEntryByCodept codept).isSome → c.utf8Size = 2
  nonzero : codept ≠ 0
  ligature_first : ∀ second, tables.ligature codept second ≠ 0 → c.utf8Size = 2
  ptr : locals.ptr = text + byteLength (shaped.chars ++ [c])
  nextCodept : locals.nextCodept = codept
  nextCodeptPtr : locals.nextCodeptPtr = text + byteLength shaped.chars
  nextLutEntry : locals.nextLutEntry = tables.findLutEntryByCodept codept
  state : locals.state = shaped.state
  lateFinalize : locals.lateFinalize = shaped.lateFinalize text
  ligatureSpan : locals.ligatureSpan = 0

/-- At the head of the loop, the whole text has been shaped but for an open word. -/
structure AtEnd (m : Memory) (text : Int) (shaped : ShapedPrefix)
    (locals : ShapeLocals) : Prop where
  stands : TextAt m text shaped.chars
  twoByteForms : shaped.TwoByteForms
  ptr : locals.ptr = text + byteLength shaped.chars
  nextCodept : locals.nextCodept = 0
  nextLutEntry : locals.nextLutEntry = none
  state : locals.state = shaped.state
  lateFinalize : locals.lateFinalize = shaped.lateFinalize text
  ligatureSpan : locals.ligatureSpan = 0

theorem readForward_terminator (tables : ShaperTables) {chars : List Char}
    (stands : TextAt m text chars)
    (ptr : locals.ptr = text + byteLength chars) :
    locals.readForward tables m = .ok locals.readTerminator := by
  rw [ShapeLocals.readForward, ptr, stands.load_terminator]
  rfl

theorem readForward_rune (tables : ShaperTables) {before : List Char}
    (stands : TextAt m text (before ++ c :: rest))
    (nonzero : runeValue c ≠ 0) (ptr : locals.ptr = text + byteLength before) :
    locals.readForward tables m =
      .ok (locals.readRune tables (runeValue c) (text + byteLength (before ++ [c]))) := by
  have notNul : c ≠ '\x00' := by
    rintro rfl
    exact nonzero rfl
  obtain ⟨byte, load, byteNe⟩ := stands.load_lead notNul
  rw [ShapeLocals.readForward, ptr, load]
  simp only [bind, Except.bind, byteNe, ne_eq, not_false_eq_true, if_true, stands.readUtf8_eq]

theorem readRune_of_eq_zero {value : Nat} (ptr : Int)
    (none : tables.ligature locals.nextCodept value = 0) :
    (locals.readRune tables value ptr).nextCodept = value ∧
      (locals.readRune tables value ptr).nextLutEntry = tables.findLutEntryByCodept value ∧
      (locals.readRune tables value ptr).ligatureSpan = locals.ligatureSpan := by
  rw [ligature] at none
  simp [ShapeLocals.readRune, none]

theorem readRune_of_ne_zero {value : Nat} (ptr : Int)
    (ligates : tables.ligature locals.nextCodept value ≠ 0) :
    (locals.readRune tables value ptr).nextCodept = tables.ligature locals.nextCodept value ∧
      (locals.readRune tables value ptr).nextLutEntry =
        tables.findLutEntryByCodept (tables.ligature locals.nextCodept value) ∧
      (locals.readRune tables value ptr).ligatureSpan = 1 := by
  rw [ligature] at ligates
  simp [ShapeLocals.readRune, ligature, ligates]

/-- A turn that does not end the loop. -/
theorem shapeLoop_turn {read next : ShapeLocals} {after : Memory}
    (reads : locals.readForward tables m = .ok read) (turn : read.shapeThis m = (after, next))
    (goesOn : next.thisCodept ≠ 0 ∨ next.nextCodept ≠ 0) (fuel : Nat) :
    shapeLoop tables (fuel + 1) m locals = shapeLoop tables fuel after next := by
  simp only [shapeLoop, reads, bind, Except.bind, turn]
  exact if_pos goesOn

/-- The last turn only closes the word. -/
theorem AtEnd.shapeLoop_eq (atEnd : AtEnd m text shaped locals) (fuel : Nat) :
    ∃ after, shapeLoop tables (fuel + 1) m locals = .ok after ∧
      TextAt after text shaped.closed ∧
      RuneWrites text (shaped.chars.map Char.utf8Size) m after := by
  obtain ⟨stands, twoByte, ptr, nextCodept, nextEntry, state, late, span⟩ := atEnd
  have padded : TextAt m text (shaped.chars ++ []) := by simpa using stands
  have closing := closeWord_spec twoByte padded
  simp only [List.append_nil] at closing
  refine ⟨_, ?_, closing⟩
  have wide : isZeroWidth 0 = false := by decide
  simp [shapeLoop, readForward_terminator tables stands ptr, bind, Except.bind,
    ShapeLocals.shapeThis, ShapeLocals.readTerminator, span, wide, state, late, nextCodept,
    nextEntry]

/-- The turn on the last rune. -/
theorem AtRune.turn_last (sound : tables.Sound)
    (atRune : AtRune tables m text shaped codept c [] locals) (fuel : Nat) :
    ∃ after next, shapeLoop tables (fuel + 1) m locals = shapeLoop tables fuel after next ∧
      AtEnd after text (shaped.advance tables codept c []) next ∧
      RuneWrites text ((shaped.chars ++ [c]).map Char.utf8Size) m after := by
  have reads : locals.readForward tables m = .ok locals.readTerminator :=
    readForward_terminator tables atRune.stands atRune.ptr
  have onRune : OnRune tables m text shaped codept c [] locals.readTerminator :=
    ⟨atRune.stands, atRune.twoByteForms, atRune.size, atRune.nextCodept, atRune.nextCodeptPtr,
      atRune.nextLutEntry, atRune.state, atRune.lateFinalize⟩
  obtain ⟨after, turn, stands, twoByte, writes⟩ :=
    shapeThis_advance sound onRune atRune.ligatureSpan (by rfl)
  have goesOn := atRune.nonzero
  rw [← atRune.nextCodept] at goesOn
  refine ⟨after, _, shapeLoop_turn reads turn (Or.inl goesOn) fuel,
    ⟨by simpa using stands, twoByte, ?_, rfl, rfl, rfl, rfl, atRune.ligatureSpan⟩, writes⟩
  rw [ShapedPrefix.advance_byteLength sound atRune.twoByteForms atRune.size]
  exact atRune.ptr

/-- The turn on a rune that begins no ligature with the next one. -/
theorem AtRune.turn_rune (sound : tables.Sound) {d : Char}
    (shapable : tables.Shapable (d :: rest))
    (atRune : AtRune tables m text shaped codept c (d :: rest) locals)
    (noLigature : tables.ligature codept (runeValue d) = 0) (fuel : Nat) :
    ∃ after next, shapeLoop tables (fuel + 1) m locals = shapeLoop tables fuel after next ∧
      AtRune tables after text (shaped.advance tables codept c (d :: rest)) (runeValue d) d rest
        next ∧
      RuneWrites text ((shaped.chars ++ c :: d :: rest).map Char.utf8Size) m after := by
  have stands : TextAt m text ((shaped.chars ++ [c]) ++ d :: rest) := by
    simpa using atRune.stands
  have nonzero := shapable.nonzero d (by simp)
  have reads := readForward_rune tables stands nonzero atRune.ptr
  generalize ptrEq : text + (byteLength (shaped.chars ++ [c] ++ [d]) : Int) = ptr at reads
  rw [← atRune.nextCodept] at noLigature
  obtain ⟨nextCodept, nextEntry, span⟩ := readRune_of_eq_zero ptr noLigature
  rw [atRune.ligatureSpan] at span
  have onRune : OnRune tables m text shaped codept c (d :: rest)
      (locals.readRune tables (runeValue d) ptr) :=
    ⟨atRune.stands, atRune.twoByteForms, atRune.size, atRune.nextCodept, atRune.nextCodeptPtr,
      atRune.nextLutEntry, atRune.state, atRune.lateFinalize⟩
  obtain ⟨after, turn, standsAfter, twoByte, writes⟩ := shapeThis_advance sound onRune span <| by
    rw [nextCodept, nextEntry]
    exact tables.breakNow_eq_decide d rest
  have lengthEq := ShapedPrefix.advance_byteLength sound atRune.twoByteForms atRune.size (d :: rest)
  refine ⟨after, _, shapeLoop_turn reads turn (Or.inr (nextCodept.trans_ne nonzero)) fuel,
    ?_, writes⟩
  exact {
    stands := standsAfter
    twoByteForms := twoByte
    size := shapable.two_byte d (by simp)
    nonzero := nonzero
    ligature_first := shapable.ligature_first d (by simp)
    ptr := by rw [byteLength_append, lengthEq, ← byteLength_append]; exact ptrEq.symm
    nextCodept := nextCodept
    nextCodeptPtr := by rw [lengthEq]; exact atRune.ptr
    nextLutEntry := nextEntry
    state := rfl
    lateFinalize := rfl
    ligatureSpan := span }

/-- The turn on the first rune of a ligature leaves its placeholder. -/
theorem AtRune.turn_ligature {d : Char} (shapable : tables.Shapable (d :: rest))
    (atRune : AtRune tables m text shaped codept c (d :: rest) locals)
    (ligates : tables.ligature codept (runeValue d) ≠ 0) (fuel : Nat) :
    ∃ after next, shapeLoop tables (fuel + 1) m locals = shapeLoop tables fuel after next ∧
      AtRune tables after text (shaped.push placeholder) (tables.ligature codept (runeValue d)) d
        rest next ∧
      RuneWrites text ((shaped.chars ++ c :: d :: rest).map Char.utf8Size) m after := by
  have stands : TextAt m text ((shaped.chars ++ [c]) ++ d :: rest) := by
    simpa using atRune.stands
  have reads := readForward_rune tables stands (shapable.nonzero d (by simp)) atRune.ptr
  generalize ptrEq : text + (byteLength (shaped.chars ++ [c] ++ [d]) : Int) = ptr at reads
  have ligatesRead := ligates
  rw [← atRune.nextCodept] at ligatesRead
  obtain ⟨nextCodept, nextEntry, span⟩ := readRune_of_ne_zero ptr ligatesRead
  rw [atRune.nextCodept] at nextCodept nextEntry
  have size := atRune.ligature_first _ ligates
  have turn : (locals.readRune tables (runeValue d) ptr).shapeThis m =
      (writeUtf8 m (text + byteLength shaped.chars) placeholder.toNat,
        { locals.readRune tables (runeValue d) ptr with ligatureSpan := 0 }) := by
    rw [ShapeLocals.shapeThis, if_pos (by rw [span]; decide), span, placeholder_toNat,
      ← atRune.nextCodeptPtr]
    rfl
  refine ⟨_, _, shapeLoop_turn reads turn (Or.inr (nextCodept.trans_ne ligates)) fuel, ?_,
    .write m _ (runeStart_of_append text _ _ size)⟩
  exact {
    stands := by simpa using atRune.stands.write size placeholder_size
    twoByteForms := (shaped.push_twoByteForms placeholder).mpr atRune.twoByteForms
    size := fun _ => shapable.ligature_second d (by simp) codept ligates
    nonzero := ligates
    ligature_first := fun _ _ => shapable.ligature_second d (by simp) codept ligates
    ptr := by
      change ptr = _
      simp [← ptrEq, placeholder_size, size]
    nextCodept := nextCodept
    nextCodeptPtr := by
      have ptr := atRune.ptr
      simp only [ShapedPrefix.push_chars, byteLength_append, byteLength_cons, byteLength_nil,
        placeholder_size, size] at ptr ⊢
      exact ptr
    nextLutEntry := nextEntry
    state := by rw [ShapedPrefix.push_state]; exact atRune.state
    lateFinalize := by rw [ShapedPrefix.push_lateFinalize]; exact atRune.lateFinalize
    ligatureSpan := rfl }

/-- From any rune on, the pass produces the shaped text. -/
theorem AtRune.shapeLoop_eq (sound : tables.Sound) (shapable : tables.Shapable rest)
    (atRune : AtRune tables m text shaped codept c rest locals) {fuel : Nat}
    (enough : rest.length + 2 ≤ fuel) :
    ∃ after, shapeLoop tables fuel m locals = .ok after ∧
      TextAt after text (shaped.resolve (tables.letterAhead codept rest) ++
        tables.shapeFrom shaped.joined codept c rest) ∧
      RuneWrites text ((shaped.chars ++ c :: rest).map Char.utf8Size) m after := by
  induction rest generalizing m shaped codept c locals fuel with
  | nil =>
      obtain ⟨fuel, rfl⟩ : ∃ less, fuel = less + 1 + 1 := ⟨fuel - 2, by simp at enough; omega⟩
      obtain ⟨middle, next, turn, atEnd, writes⟩ := atRune.turn_last sound (fuel + 1)
      obtain ⟨after, run, stands, moreWrites⟩ := atEnd.shapeLoop_eq fuel
      refine ⟨after, turn.trans run, ?_, writes.trans ?_⟩
      · rw [shapeFrom, ← ShapedPrefix.advance_resolve rfl]
        exact stands
      · rwa [ShapedPrefix.advance_sizes sound atRune.twoByteForms atRune.size] at moreWrites
  | cons d rest ih =>
      obtain ⟨fuel, rfl⟩ : ∃ less, fuel = less + 1 := ⟨fuel - 1, by simp at enough; omega⟩
      have enoughRest : rest.length + 2 ≤ fuel := by
        simp only [List.length_cons] at enough
        omega
      by_cases noLigature : tables.ligature codept (runeValue d) = 0
      · obtain ⟨middle, next, turn, atNext, writes⟩ :=
          atRune.turn_rune sound shapable noLigature fuel
        obtain ⟨after, run, stands, moreWrites⟩ := ih shapable.tail atNext enoughRest
        refine ⟨after, turn.trans run, ?_, writes.trans ?_⟩
        · have alone : tables.ligates codept (d :: rest) = false := by
            simp [ligates, noLigature]
          have resolved := ShapedPrefix.advance_resolve alone shaped c
          rw [wordGoesOn_cons] at resolved
          rw [resolved, ShapedPrefix.advance_joined] at stands
          simpa [shapeFrom, noLigature] using stands
        · have sizes := ShapedPrefix.advance_sizes sound atRune.twoByteForms atRune.size (d :: rest)
          rw [List.map_append, sizes] at moreWrites
          simpa using moreWrites
      · obtain ⟨middle, next, turn, atNext, writes⟩ :=
          atRune.turn_ligature shapable noLigature fuel
        obtain ⟨after, run, stands, moreWrites⟩ := ih shapable.tail atNext enoughRest
        obtain ⟨entry, entryWide⟩ := sound.ligature_entry _ _ noLigature
        refine ⟨after, turn.trans run, ?_, writes.trans ?_⟩
        · simpa [shapeFrom, noLigature, letterAhead, ligates, entry, entryWide] using stands
        · have size := atRune.ligature_first _ noLigature
          simpa [placeholder_size, size] using moreWrites

theorem shapeThis_idle (span : locals.ligatureSpan = 0) (thisCodept : locals.thisCodept = 0)
    (thisEntry : locals.thisLutEntry = none) (state : locals.state = .initial)
    (late : locals.lateFinalize = none) : locals.shapeThis m = (m, locals) := by
  have wide : isZeroWidth 0 = false := by decide
  cases locals
  simp only at span thisCodept thisEntry state late
  subst span thisCodept thisEntry state late
  simp [ShapeLocals.shapeThis, wide, closeWord]

/-- Before the first rune the window holds no codepoint, which begins no ligature. -/
theorem AtRune.turn_first (sound : tables.Sound) (shapable : tables.Shapable (c :: rest))
    (stands : TextAt m text (c :: rest)) (fuel : Nat) :
    ∃ next, shapeLoop tables (fuel + 1) m (.start text) = shapeLoop tables fuel m next ∧
      AtRune tables m text (.settled []) (runeValue c) c rest next := by
  have nonzero := shapable.nonzero c (by simp)
  have placed : TextAt m text ([] ++ c :: rest) := stands
  have atStart : (ShapeLocals.start text).ptr = text + byteLength [] := by
    simp [ShapeLocals.start]
  have reads := readForward_rune tables placed nonzero atStart
  have noLigature : tables.ligature (ShapeLocals.start text).nextCodept (runeValue c) = 0 :=
    sound.ligature_zero _
  generalize ptrEq : text + (byteLength ([] ++ [c]) : Int) = ptr at reads
  obtain ⟨nextCodept, nextEntry, span⟩ := readRune_of_eq_zero ptr noLigature
  generalize readEq : (ShapeLocals.start text).readRune tables (runeValue c) ptr = read at *
  have turn : read.shapeThis m = (m, read) := by
    subst readEq
    exact shapeThis_idle span rfl rfl rfl rfl
  refine ⟨read, shapeLoop_turn reads turn (Or.inr (nextCodept.trans_ne nonzero)) fuel, ?_⟩
  subst readEq ptrEq
  exact {
    stands := stands
    twoByteForms := trivial
    size := shapable.two_byte c (by simp)
    nonzero := nonzero
    ligature_first := shapable.ligature_first c (by simp)
    ptr := rfl
    nextCodept := nextCodept
    nextCodeptPtr := atStart
    nextLutEntry := nextEntry
    state := rfl
    lateFinalize := rfl
    ligatureSpan := span }

/-- `shape_text` turns every shapable text into its shaped text. -/
theorem shapeText_spec (sound : tables.Sound) {chars : List Char}
    (shapable : tables.Shapable chars) (stands : TextAt m text chars) :
    ∃ after, shapeText tables m text = .ok after ∧
      TextAt after text (tables.shapeChars chars) ∧
      RuneWrites text (chars.map Char.utf8Size) m after := by
  have fuelEnough : byteLength chars + 3 ≤ (m.high - text).toNat + 2 := by
    have := stands.high_gt
    omega
  unfold shapeText
  generalize (m.high - text).toNat + 2 = fuel at fuelEnough
  obtain ⟨fuel, rfl⟩ : ∃ less, fuel = less + 1 := ⟨fuel - 1, by omega⟩
  cases chars with
  | nil =>
      have atEnd : AtEnd m text (.settled []) (.start text) :=
        ⟨stands, trivial, by simp [ShapeLocals.start, ShapedPrefix.chars], rfl, rfl, rfl, rfl, rfl⟩
      exact atEnd.shapeLoop_eq fuel
  | cons c rest =>
      obtain ⟨next, turn, atRune⟩ := AtRune.turn_first sound shapable stands fuel
      have short := length_le_byteLength (c :: rest)
      simp only [List.length_cons] at short
      obtain ⟨after, run, standsAfter, writes⟩ :=
        atRune.shapeLoop_eq sound shapable.tail (show rest.length + 2 ≤ fuel by omega)
      have nothing (letterFollows : Bool) :
          (ShapedPrefix.settled []).resolve letterFollows = [] := by
        cases letterFollows <;> rfl
      rw [nothing] at standsAfter
      exact ⟨after, turn.trans run, standsAfter, writes⟩

end Loop

/-! ## Rune boundaries -/

section Sizes

variable {tables : ShaperTables}

theorem shapedChar_size (sound : tables.Sound) {codept : Nat} {c : Char}
    (size : (tables.findLutEntryByCodept codept).isSome → c.utf8Size = 2) (joined : Bool)
    (rest : List Char) : (tables.shapedChar joined codept c rest).utf8Size = c.utf8Size := by
  unfold shapedChar
  split
  · rfl
  · split
    next entry found =>
      rw [(sound.form_two_byte _ _ found).formChar_size, size (Option.isSome_of_eq_some found)]
    next => rfl

theorem shapeFrom_sizes (sound : tables.Sound) {codept : Nat} {c : Char} {rest : List Char}
    (shapable : tables.Shapable rest)
    (size : (tables.findLutEntryByCodept codept).isSome → c.utf8Size = 2)
    (first : ∀ second, tables.ligature codept second ≠ 0 → c.utf8Size = 2) (joined : Bool) :
    (tables.shapeFrom joined codept c rest).map Char.utf8Size =
      (c :: rest).map Char.utf8Size := by
  induction rest generalizing codept c joined with
  | nil => simp [shapeFrom, shapedChar_size sound size]
  | cons d rest ih =>
      by_cases noLigature : tables.ligature codept (runeValue d) = 0
      · have later := ih shapable.tail (shapable.two_byte d (by simp))
          (shapable.ligature_first d (by simp)) (tables.joinsNext joined codept (d :: rest))
        simp [shapeFrom, noLigature, later, shapedChar_size sound size]
      · have second := shapable.ligature_second d (by simp) codept noLigature
        have later : (tables.shapeFrom joined (tables.ligature codept (runeValue d)) d rest).map
            Char.utf8Size = (d :: rest).map Char.utf8Size :=
          ih shapable.tail (fun _ => second) (fun _ _ => second) joined
        simp [shapeFrom, noLigature, later, placeholder_size, first _ noLigature]

/-- Shaping keeps all rune boundaries. -/
theorem shapeChars_sizes (sound : tables.Sound) {chars : List Char}
    (shapable : tables.Shapable chars) :
    (tables.shapeChars chars).map Char.utf8Size = chars.map Char.utf8Size := by
  cases chars with
  | nil => rfl
  | cons c rest =>
      exact shapeFrom_sizes sound shapable.tail (shapable.two_byte c (by simp))
        (shapable.ligature_first c (by simp)) false

theorem shapedChar_cases (sound : tables.Sound) (joined : Bool) (codept : Nat) (c : Char)
    (rest : List Char) :
    tables.shapedChar joined codept c rest = c ∨
      (tables.shapedChar joined codept c rest).utf8Size = 2 := by
  unfold shapedChar
  split
  · exact Or.inl rfl
  · split
    next entry found => exact Or.inr ((sound.form_two_byte _ _ found).formChar_size _)
    next => exact Or.inl rfl

/-- Shaping only introduces 2-byte runes. -/
theorem mem_shapeFrom (sound : tables.Sound) {codept : Nat} {c d : Char} {rest : List Char}
    {joined : Bool} (member : d ∈ tables.shapeFrom joined codept c rest) :
    d ∈ c :: rest ∨ d.utf8Size = 2 := by
  induction rest generalizing codept c joined with
  | nil =>
      rw [shapeFrom, List.mem_singleton] at member
      rw [member]
      exact (shapedChar_cases sound joined codept c []).imp_left fun same => by simp [same]
  | cons e rest ih =>
      rw [shapeFrom] at member
      split at member
      · rcases List.mem_cons.mp member with rfl | later
        · exact Or.inr placeholder_size
        · exact (ih later).imp_left (List.mem_cons_of_mem c)
      · rcases List.mem_cons.mp member with rfl | later
        · exact (shapedChar_cases sound joined codept c _).imp_left fun same => by simp [same]
        · exact (ih later).imp_left (List.mem_cons_of_mem c)

theorem mem_shapeChars (sound : tables.Sound) {d : Char} {chars : List Char}
    (member : d ∈ tables.shapeChars chars) : d ∈ chars ∨ d.utf8Size = 2 := by
  cases chars with
  | nil => simp [shapeChars] at member
  | cons c rest => exact mem_shapeFrom sound member

end Sizes

/-! ## Generated tables -/

theorem isZeroWidth_scratch {codept : Nat} (scratch : codept ∈ scratchCodepoints) :
    isZeroWidth codept = false := by
  rw [mem_scratchCodepoints] at scratch
  simp [isZeroWidth, zeroWidthCodepointRanges, inRange]
  omega

namespace RuntimeTables

variable {forms : FormsTable} {packed : PackState}
  {pairs : List (CharacterForms × ShaperLUTEntry)} {tables : ShaperTables}
  (runtime : RuntimeTables forms packed pairs tables)

include runtime

/-- Ligatures come from two-letter keys, and their codepoints are recycled ones. -/
theorem exists_pair_of_ligature {first second : Nat} (ligates : tables.ligature first second ≠ 0) :
    ∃ pair ∈ pairs, ∃ a b, pair.1.1 = [a, b] ∧ first = a.toNat ∧ second = b.toNat ∧
      tables.ligature first second = pair.2.trueCodept ∧ TableLetter a ∧ TableLetter b ∧
      pair.2.trueCodept ∈ scratchCodepoints := by
  rw [ligature, runtime.findLigatureByCodepts_eq, ligatureOf] at ligates ⊢
  split at ligates
  next record found =>
    have member := List.mem_of_find?_eq_some found
    have same := List.find?_some found
    simp only [codeptBuffer, Bool.and_eq_true, beq_iff_eq] at same
    have scratch := runtime.replacement_scratch member
    obtain ⟨pair, inPairs, a, b, key, rfl⟩ := mem_ligaturesOf member
    have letters := forms.letters _ (runtime.item_mem inPairs)
    exact ⟨pair, inPairs, a, b, key, same.1.symm, same.2.symm, rfl, letters a (by simp [key]),
      letters b (by simp [key]), scratch⟩
  next => exact absurd rfl ligates

/-- A ligature begins no ligature. -/
theorem ligature_ligature {first second third : Nat} (ligates : tables.ligature first second ≠ 0) :
    tables.ligature (tables.ligature first second) third = 0 := by
  by_contra again
  obtain ⟨pair, -, -, -, -, -, -, eq, -, -, scratch⟩ := runtime.exists_pair_of_ligature ligates
  obtain ⟨-, -, a, -, -, firstEq, -, -, letter, -⟩ := runtime.exists_pair_of_ligature again
  rw [← eq, firstEq] at scratch
  exact letter.not_scratch scratch

/-- Both letters of a ligature have records. -/
theorem ligature_entries (ligaturesOfLetters : forms.LigaturesOfLetters) {first second : Nat}
    (ligates : tables.ligature first second ≠ 0) :
    (tables.findLutEntryByCodept first).isSome ∧ (tables.findLutEntryByCodept second).isSome := by
  obtain ⟨pair, member, a, b, key, rfl, rfl, -⟩ := runtime.exists_pair_of_ligature ligates
  have entry {c : Char} (inKey : c ∈ pair.1.1) : (tables.findLutEntryByCodept c.toNat).isSome := by
    have letter := ligaturesOfLetters _ (runtime.item_mem member) c inKey
    obtain ⟨item, inItems, itemKey⟩ := List.mem_map.mp letter
    obtain ⟨entry, inPairs⟩ := runtime.exists_pair inItems
    rw [← runtime.done.letter _ inPairs c itemKey, runtime.findLutEntryByCodept_pair inPairs]
    rfl
  exact ⟨entry (by simp [key]), entry (by simp [key])⟩

theorem sound : tables.Sound where
  form_two_byte codept entry found form := by
    obtain ⟨pair, member, rfl, -⟩ := runtime.exists_pair_of_find found
    obtain ⟨value, scratch, eq⟩ := runtime.formCodept_scratch member form
    rw [mem_scratchCodepoints] at scratch
    rw [eq]
    omega
  ligature_zero second := by
    by_contra ligates
    obtain ⟨-, -, a, -, -, firstEq, -, -, letter, -⟩ := runtime.exists_pair_of_ligature ligates
    have := letter.lower
    omega
  ligature_entry first second ligates := by
    obtain ⟨pair, member, -, -, -, -, -, eq, -, -, scratch⟩ :=
      runtime.exists_pair_of_ligature ligates
    rw [eq, runtime.findLutEntryByCodept_pair member]
    exact ⟨rfl, isZeroWidth_scratch scratch⟩

/-- Every codepoint with a record is two bytes long. -/
theorem entry_two_byte {codept : Nat} (found : (tables.findLutEntryByCodept codept).isSome) :
    0x80 ≤ codept ∧ codept < 0x800 := by
  obtain ⟨entry, found⟩ := Option.isSome_iff_exists.mp found
  obtain ⟨pair, member, rfl, rfl⟩ := runtime.exists_pair_of_find found
  rcases runtime.key_cases member with ⟨c, -, letter, eq⟩ | ⟨a, b, -, -, -, ligature⟩
  · rw [eq]
    exact ⟨letter.lower, letter.upper⟩
  · have scratch := runtime.replacement_scratch ligature
    rw [mem_scratchCodepoints] at scratch
    dsimp only at scratch
    omega

/-- Texts of the basic plane are read as characters. -/
theorem shapable {chars : List Char} (plane : ∀ c ∈ chars, c ≠ '\x00' ∧ c.toNat < 0x10000) :
    tables.Shapable chars := by
  have value {c : Char} (member : c ∈ chars) : runeValue c = c.toNat :=
    runeValue_of_lt (plane c member).2
  refine ⟨?_, ?_, ?_, ?_⟩
  · intro c member zero
    rw [value member] at zero
    exact (plane c member).1 (Char.toNat_inj.mp zero)
  · intro c member found
    rw [value member] at found
    exact utf8Size_eq_two_iff.mpr (runtime.entry_two_byte found)
  · intro c member second ligates
    rw [value member] at ligates
    obtain ⟨-, -, a, -, -, eq, -, -, letter, -⟩ := runtime.exists_pair_of_ligature ligates
    rw [utf8Size_eq_two_iff, eq]
    exact ⟨letter.lower, letter.upper⟩
  · intro c member first ligates
    rw [value member] at ligates
    obtain ⟨-, -, -, b, -, -, eq, -, -, letter, -⟩ := runtime.exists_pair_of_ligature ligates
    rw [utf8Size_eq_two_iff, eq]
    exact ⟨letter.lower, letter.upper⟩

end RuntimeTables

end Elbbep
