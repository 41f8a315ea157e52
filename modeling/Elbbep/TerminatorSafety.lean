import Elbbep.ShapePass
import Elbbep.UnshapedText
import Elbbep.Patch

/-!
# Scans and the terminator

The scans of the runtime look for the terminator only where they believe a rune
starts, and `readUtf8` steps over as many bytes as a lead byte announces.  On a
byte string whose last rune is cut off they step over the terminator.  This file
shows that nothing else can go wrong: on every other byte string, valid UTF-8 or
not, all scans stop at the terminator and write only before it.
-/

namespace Elbbep

open ByteMemory Utf8Encoding

/-- Stepping from lead byte to lead byte arrives at the end of the string. -/
def landsOnTerminator : (skip : Nat) → List UInt8 → Bool
  | skip, [] => skip == 0
  | 0, byte :: rest => landsOnTerminator (continuationCount byte) rest
  | skip + 1, _ :: rest => landsOnTerminator skip rest

/-- A byte string with its terminator, readable up to the terminator and no further. -/
structure BytesAt (m : Memory) (text : Int) (bytes : List UInt8) : Prop where
  spelled : Spells m.byte text (bytes ++ [0])
  nonzero : ∀ byte ∈ bytes, byte ≠ 0
  low_le : m.low ≤ text
  high_eq : m.high = text + bytes.length + 1

/-- A scan ends without reading behind the terminator of `bytes`, and writes only before it. -/
def StopsAtTerminator (m : Memory) (text : Int) (bytes : List UInt8)
    (scan : Except Fault Memory) : Prop :=
  ∃ after, scan = .ok after ∧ StoresBelow (text + bytes.length) m after

/-- No scan runs past the terminator. -/
def ScansStop (tables : ShaperTables) (m : Memory) (text : Int) (bytes : List UInt8) : Prop :=
  StopsAtTerminator m text bytes (shapeText tables m text) ∧
    StopsAtTerminator m text bytes (unshapeText tables m text) ∧
    ∀ alignment, ∃ result, gdtAlignmentStep tables m text alignment = .ok result

theorem landsOnTerminator_skip (skip : Nat) (bytes : List UInt8) :
    landsOnTerminator skip bytes = true ↔
      skip ≤ bytes.length ∧ landsOnTerminator 0 (bytes.drop skip) = true := by
  induction bytes generalizing skip with
  | nil => cases skip <;> simp [landsOnTerminator]
  | cons byte rest ih =>
      cases skip with
      | zero => simp
      | succ skip => simp [landsOnTerminator, ih]

theorem landsOnTerminator_cons (byte : UInt8) (rest : List UInt8) :
    landsOnTerminator 0 (byte :: rest) = true ↔
      continuationCount byte ≤ rest.length ∧
        landsOnTerminator 0 ((byte :: rest).drop (continuationCount byte + 1)) = true :=
  landsOnTerminator_skip _ rest

/-- What the scans rely on: they rewrite no codepoint of a single byte. -/
structure WideTables (tables : ShaperTables) : Prop where
  entry_lower : ∀ codept, (tables.findLutEntryByCodept codept).isSome → 0x80 ≤ codept
  ligature_lower : ∀ first second, tables.ligature first second ≠ 0 →
    0x80 ≤ first ∧ 0x80 ≤ second
  range_lower : ∀ codept, tables.arabicShaperRange codept = true → 0x80 ≤ codept

namespace BytesAt

variable {m : Memory} {ptr : Int} {byte : UInt8} {bytes rest : List UInt8}

theorem load_terminator (stands : BytesAt m ptr []) : m.load ptr = .ok 0 := by
  have low := stands.low_le
  have high := stands.high_eq
  simp only [List.length_nil, Nat.cast_zero] at high
  rw [m.load_of_mem low (by omega), stands.spelled.1]

theorem load_cons (stands : BytesAt m ptr (byte :: rest)) : m.load ptr = .ok byte := by
  have low := stands.low_le
  have high := stands.high_eq
  simp only [List.length_cons] at high
  rw [m.load_of_mem low (by omega), stands.spelled.1]

/-- A memory rewritten before `ptr` still holds what is behind a whole rune. -/
theorem drop {after : Memory} (stands : BytesAt m ptr bytes) (count : Nat)
    (short : count ≤ bytes.length) (below : StoresBelow (ptr + count) m after) :
    BytesAt after (ptr + count) (bytes.drop count) := by
  have spelled := stands.spelled
  have low := stands.low_le
  have high := stands.high_eq
  rw [← List.take_append_drop count bytes, List.append_assoc, spells_append, List.length_take,
    Nat.min_eq_left short] at spelled
  refine ⟨below.spells spelled.2 le_rfl,
    fun value member => stands.nonzero value (List.mem_of_mem_drop member), ?_, ?_⟩
  · rw [below.low_eq]
    omega
  · rw [below.high_eq, high, List.length_drop]
    omega

/-- A whole rune is read, whatever its bytes. -/
theorem readUtf8_ok (stands : BytesAt m ptr (byte :: rest))
    (whole : continuationCount byte ≤ rest.length) :
    ∃ value, (0x80 ≤ value → 2 ≤ continuationCount byte + 1) ∧
      readUtf8 m ptr = .ok (value, ptr + (continuationCount byte + 1 : Nat)) := by
  have low := stands.low_le
  have high := stands.high_eq
  have here : m.byte ptr = byte := stands.spelled.1
  simp only [List.length_cons] at high
  push_cast at high
  obtain ⟨value, -, wide, read⟩ := Elbbep.readUtf8_ok low
    (show ptr + continuationCount (m.byte ptr) < m.high by rw [here]; omega)
  rw [here] at wide read
  refine ⟨value, fun large => ?_, ?_⟩
  · have := wide large
    omega
  · rw [read]
    push_cast
    rw [add_assoc]

end BytesAt

/-! ## Unshaping -/

theorem writeRunes_within (m : Memory) (ptr : Int) (codepts : List Nat) :
    StoresWithin ptr (ptr + runeSize * codepts.length) m (writeRunes m ptr codepts) := by
  induction codepts generalizing m ptr with
  | nil => exact .refl _ _ m
  | cons codept codepts ih =>
      have first := writeUtf8_within m ptr codept
      have later := ih (writeUtf8 m ptr codept) (ptr + runeSize)
      simp only [runeSize, List.length_cons] at later ⊢
      push_cast
      exact (first.mono le_rfl (by omega)).trans (later.mono (by omega) (by omega))

section Scans

variable {tables : ShaperTables} {m : Memory} {ptr : Int} {bytes : List UInt8}

theorem unshapeRune_below (wide : WideTables tables) (m : Memory) {iter bound : Int} {value : Nat}
    (room : 0x80 ≤ value → iter + 2 ≤ bound) :
    StoresBelow bound m (unshapeRune tables m iter value) := by
  by_cases inside : tables.arabicShaperRange value = true
  · have fits := room (wide.range_lower value inside)
    rw [tables.unshapeRune_eq]
    apply (writeRunes_within m _ _).below
    simp only [runeSize]
    omega
  · have unchanged : unshapeRune tables m iter value = m := by
      simp [unshapeRune, inside]
    rw [unchanged]
    exact .refl bound m

/-- One turn of a scan over a whole rune. -/
theorem unshapeLoop_turn {byte : UInt8} {rest : List UInt8} (fuel : Nat)
    (stands : BytesAt m ptr (byte :: rest)) {value : Nat} {next : Int}
    (read : readUtf8 m ptr = .ok (value, next)) :
    unshapeLoop tables (fuel + 1) m ptr =
      unshapeLoop tables fuel (unshapeRune tables m ptr value) next := by
  have nonzero := stands.nonzero byte (by simp)
  rw [unshapeLoop, stands.load_cons]
  simp only [bind, Except.bind, ne_eq, nonzero, not_false_eq_true, if_true, read]

theorem unshapeLoop_stops (wide : WideTables tables) (stands : BytesAt m ptr bytes)
    (lands : landsOnTerminator 0 bytes = true) {fuel : Nat} (enough : bytes.length + 1 ≤ fuel) :
    StopsAtTerminator m ptr bytes (unshapeLoop tables fuel m ptr) := by
  induction fuel generalizing m ptr bytes with
  | zero => omega
  | succ fuel ih =>
      cases bytes with
      | nil =>
          refine ⟨m, ?_, .refl _ m⟩
          rw [unshapeLoop, stands.load_terminator]
          rfl
      | cons byte rest =>
          obtain ⟨whole, landsRest⟩ := (landsOnTerminator_cons byte rest).mp lands
          obtain ⟨value, wideRune, read⟩ := stands.readUtf8_ok whole
          have below : StoresBelow (ptr + (continuationCount byte + 1 : Nat)) m
              (unshapeRune tables m ptr value) := by
            apply unshapeRune_below wide
            intro large
            have := wideRune large
            omega
          have behind := stands.drop (continuationCount byte + 1)
            (by simpa using whole) below
          simp only [List.length_cons] at enough
          obtain ⟨after, run, more⟩ := ih behind landsRest (by simp; omega)
          refine ⟨after, (unshapeLoop_turn fuel stands read).trans run, ?_⟩
          simp only [List.drop_succ_cons, List.length_drop, List.length_cons] at more ⊢
          exact (below.mono (by omega)).trans (more.mono (by omega))

theorem unshapeLoop_outside (beyond : m.high ≤ ptr) (fuel : Nat) :
    ∃ fault, unshapeLoop tables fuel m ptr = .error fault := by
  cases fuel with
  | zero => exact ⟨_, rfl⟩
  | succ fuel =>
      refine ⟨.load ptr, ?_⟩
      rw [unshapeLoop, m.load_of_high_le beyond]
      rfl

/-- A lead byte that announces more than there is takes the scan past the terminator. -/
theorem unshapeLoop_overruns (wide : WideTables tables) (stands : BytesAt m ptr bytes)
    (misses : landsOnTerminator 0 bytes = false) (fuel : Nat) :
    ∃ fault, unshapeLoop tables fuel m ptr = .error fault := by
  induction fuel generalizing m ptr bytes with
  | zero => exact ⟨_, rfl⟩
  | succ fuel ih =>
      cases bytes with
      | nil => simp [landsOnTerminator] at misses
      | cons byte rest =>
          have misses' := misses
          rw [← Bool.not_eq_true, landsOnTerminator_cons, not_and, Bool.not_eq_true] at misses'
          by_cases whole : continuationCount byte ≤ rest.length
          · obtain ⟨value, wideRune, read⟩ := stands.readUtf8_ok whole
            have below : StoresBelow (ptr + (continuationCount byte + 1 : Nat)) m
                (unshapeRune tables m ptr value) := by
              apply unshapeRune_below wide
              intro large
              have := wideRune large
              omega
            have behind := stands.drop (continuationCount byte + 1) (by simpa using whole) below
            obtain ⟨fault, run⟩ := ih behind (misses' whole)
            exact ⟨fault, (unshapeLoop_turn fuel stands read).trans run⟩
          · have low := stands.low_le
            have high := stands.high_eq
            have here : m.byte ptr = byte := stands.spelled.1
            simp only [List.length_cons] at high
            push_cast at high
            by_cases onTerminator : continuationCount byte = rest.length + 1
            · -- The terminator itself is taken for the last byte of the rune.
              obtain ⟨value, -, -, read⟩ := Elbbep.readUtf8_ok low
                (show ptr + continuationCount (m.byte ptr) < m.high by rw [here]; omega)
              have beyond : (unshapeRune tables m ptr value).high ≤
                  ptr + continuationCount (m.byte ptr) + 1 := by
                have below := unshapeRune_below wide m
                  (show 0x80 ≤ value → ptr + 2 ≤ ptr + 2 by omega)
                rw [below.high_eq, here]
                omega
              obtain ⟨fault, run⟩ := unshapeLoop_outside beyond fuel
              exact ⟨fault, (unshapeLoop_turn fuel stands read).trans run⟩
            · have read := readUtf8_error low (by omega)
                (show m.high ≤ ptr + continuationCount (m.byte ptr) by rw [here]; omega)
              have nonzero := stands.nonzero byte (by simp)
              refine ⟨.load m.high, ?_⟩
              rw [unshapeLoop, stands.load_cons]
              simp only [bind, Except.bind, ne_eq, nonzero, not_false_eq_true, if_true, read]

/-! ## Alignment -/

theorem alignmentLoop_stops (stands : BytesAt m ptr bytes)
    (lands : landsOnTerminator 0 bytes = true) (alignment : GTextAlignment) {fuel : Nat}
    (enough : bytes.length + 1 ≤ fuel) :
    ∃ result, alignmentLoop tables m alignment fuel ptr = .ok result := by
  induction fuel generalizing ptr bytes with
  | zero => omega
  | succ fuel ih =>
      cases bytes with
      | nil =>
          refine ⟨alignment, ?_⟩
          rw [alignmentLoop, stands.load_terminator]
          rfl
      | cons byte rest =>
          obtain ⟨whole, landsRest⟩ := (landsOnTerminator_cons byte rest).mp lands
          obtain ⟨value, -, read⟩ := stands.readUtf8_ok whole
          have nonzero := stands.nonzero byte (by simp)
          have behind := stands.drop (continuationCount byte + 1) (by simpa using whole)
            (.refl _ m)
          simp only [List.length_cons] at enough
          rw [alignmentLoop, stands.load_cons]
          simp only [bind, Except.bind, ne_eq, nonzero, not_false_eq_true, if_true, read]
          split
          · exact ih behind landsRest (by simp; omega)
          · split
            · exact ⟨_, rfl⟩
            · exact ⟨_, rfl⟩

/-! ## Shaping -/

/-- The body of the loop writes at the current rune or at the open word's last letter. -/
theorem shapeThis_below {locals : ShapeLocals} {bound : Int} (m : Memory)
    (spanRoom : locals.ligatureSpan ≠ 0 → locals.thisCodeptPtr + 2 ≤ bound)
    (entryRoom : locals.thisLutEntry.isSome → locals.thisCodeptPtr + 2 ≤ bound)
    (lateRoom : ∀ late, locals.lateFinalize = some late → late.1 + 2 ≤ bound) :
    ∃ after state lateFinalize,
      locals.shapeThis m = (after, { locals with
        state := state
        lateFinalize := lateFinalize
        ligatureSpan := locals.ligatureSpan - 1 }) ∧
      StoresBelow bound m after ∧ ∀ late, lateFinalize = some late → late.1 + 2 ≤ bound := by
  obtain ⟨state, ptr, nextPtr, thisPtr, this, next, thisEntry, nextEntry, late, span⟩ := locals
  have written (codept : Nat) (fits : thisPtr + 2 ≤ bound) :
      StoresBelow bound m (writeUtf8 m thisPtr codept) :=
    (writeUtf8_within m thisPtr codept).below fits
  unfold ShapeLocals.shapeThis
  by_cases spans : span = 0
  · subst spans
    by_cases zeroWidth : isZeroWidth this = true
    · exact ⟨m, state, late, by simp [zeroWidth], .refl bound m, lateRoom⟩
    · cases thisEntry with
      | none =>
          refine ⟨closeWord m state late, .initial, none, by simp [zeroWidth], ?_, by simp⟩
          match late with
          | none => exact .refl bound m
          | some (latePtr, entry) =>
              have fits := lateRoom _ rfl
              cases state <;> exact (writeUtf8_within m latePtr _).below fits
      | some entry =>
          have fits : thisPtr + 2 ≤ bound := entryRoom rfl
          by_cases closes : ((nextEntry.isNone && !isZeroWidth next) ||
              entry.hasNoMedialForm) = true
          · cases state with
            | initial =>
                exact ⟨writeForm m thisPtr entry .isolated, .initial, none,
                  by simp only [zeroWidth, closes]; rfl, written _ fits, by simp⟩
            | medial =>
                exact ⟨writeForm m thisPtr entry .final, .initial, none,
                  by simp only [zeroWidth, closes]; rfl, written _ fits, by simp⟩
          · cases state with
            | initial =>
                exact ⟨writeForm m thisPtr entry .initial, .medial, some (thisPtr, entry),
                  by simp only [zeroWidth, closes]; rfl, written _ fits, by simpa using fits⟩
            | medial =>
                exact ⟨writeForm m thisPtr entry .medial, .medial, some (thisPtr, entry),
                  by simp only [zeroWidth, closes]; rfl, written _ fits, by simpa using fits⟩
  · exact ⟨writeUtf8 m thisPtr zeroWidthCodept, state, late, by simp [spans],
      written _ (spanRoom spans), lateRoom⟩

/-- At the head of the loop of `shape_text`, with `bytes` still to be read: every
rune that may be rewritten has room before the read pointer. -/
structure ReadingBytes (m : Memory) (bytes : List UInt8) (locals : ShapeLocals) : Prop where
  stands : BytesAt m locals.ptr bytes
  lands : landsOnTerminator 0 bytes = true
  entry_lower : locals.nextLutEntry.isSome → 0x80 ≤ locals.nextCodept
  next_room : 0x80 ≤ locals.nextCodept → locals.nextCodeptPtr + 2 ≤ locals.ptr
  late_room : ∀ late, locals.lateFinalize = some late → late.1 + 2 ≤ locals.ptr
  span : locals.ligatureSpan = 0

/-- The window has moved, and `rest` is still to be read. -/
structure MovedOver (m : Memory) (bytes : List UInt8) (locals read : ShapeLocals)
    (rest : List UInt8) : Prop where
  progress : rest.length < bytes.length ∨ bytes = [] ∧ rest = [] ∧ read.nextCodept = 0
  distance : read.ptr + rest.length = locals.ptr + bytes.length
  forward : locals.ptr ≤ read.ptr
  stands : ∀ after, StoresBelow locals.ptr m after → BytesAt after read.ptr rest
  lands : landsOnTerminator 0 rest = true
  thisCodept : read.thisCodept = locals.nextCodept
  thisCodeptPtr : read.thisCodeptPtr = locals.nextCodeptPtr
  thisLutEntry : read.thisLutEntry = locals.nextLutEntry
  lateFinalize : read.lateFinalize = locals.lateFinalize
  span : read.ligatureSpan = 0 ∨ read.ligatureSpan = 1 ∧ 0x80 ≤ locals.nextCodept
  entry_lower : read.nextLutEntry.isSome → 0x80 ≤ read.nextCodept
  next_room : 0x80 ≤ read.nextCodept → read.nextCodeptPtr + 2 ≤ read.ptr

namespace ReadingBytes

variable {locals : ShapeLocals}

theorem readForward_terminator (reading : ReadingBytes m [] locals) :
    locals.readForward tables m = .ok locals.readTerminator ∧
      MovedOver m [] locals locals.readTerminator [] := by
  have stands := reading.stands
  constructor
  · rw [ShapeLocals.readForward, stands.load_terminator]
    rfl
  · exact {
      progress := Or.inr ⟨rfl, rfl, rfl⟩
      distance := rfl
      forward := le_rfl
      stands := fun after below => by
        have kept := stands.drop 0 le_rfl (by simpa using below)
        rwa [Nat.cast_zero, add_zero] at kept
      lands := rfl
      thisCodept := rfl
      thisCodeptPtr := rfl
      thisLutEntry := rfl
      lateFinalize := rfl
      span := Or.inl reading.span
      entry_lower := by simp [ShapeLocals.readTerminator]
      next_room := by simp [ShapeLocals.readTerminator] }

theorem readForward_rune (wide : WideTables tables) {byte : UInt8} {rest : List UInt8}
    (reading : ReadingBytes m (byte :: rest) locals) :
    ∃ read, locals.readForward tables m = .ok read ∧
      MovedOver m (byte :: rest) locals read
        ((byte :: rest).drop (continuationCount byte + 1)) := by
  have stands := reading.stands
  obtain ⟨whole, landsRest⟩ := (landsOnTerminator_cons byte rest).mp reading.lands
  obtain ⟨value, wideRune, read⟩ := stands.readUtf8_ok whole
  have nonzero := stands.nonzero byte (by simp)
  generalize ptrEq : locals.ptr + ((continuationCount byte + 1 : Nat) : Int) = ptr at read
  refine ⟨locals.readRune tables value ptr, ?_, ?_⟩
  · rw [ShapeLocals.readForward, stands.load_cons]
    simp only [bind, Except.bind, ne_eq, nonzero, not_false_eq_true, if_true, read]
  · have forward : locals.ptr ≤ ptr := by omega
    have room : 0x80 ≤ value → locals.ptr + 2 ≤ ptr := by
      intro large
      have := wideRune large
      omega
    have keeps : ∀ after, StoresBelow locals.ptr m after →
        BytesAt after ptr ((byte :: rest).drop (continuationCount byte + 1)) := by
      intro after below
      rw [← ptrEq]
      exact stands.drop _ (by simpa using whole) (below.mono (by omega))
    have distance : ptr + ((byte :: rest).drop (continuationCount byte + 1)).length =
        locals.ptr + (byte :: rest).length := by
      simp only [List.drop_succ_cons, List.length_drop, List.length_cons]
      omega
    have progress : ((byte :: rest).drop (continuationCount byte + 1)).length <
        (byte :: rest).length := by
      simp only [List.drop_succ_cons, List.length_drop, List.length_cons]
      omega
    by_cases none : tables.ligature locals.nextCodept value = 0
    · obtain ⟨nextCodept, nextEntry, span⟩ := readRune_of_eq_zero ptr none
      refine ⟨Or.inl progress, distance, forward, keeps, landsRest, rfl, rfl, rfl, rfl,
        Or.inl (span.trans reading.span), ?_, ?_⟩
      · rw [nextCodept, nextEntry]
        exact wide.entry_lower value
      · rw [nextCodept]
        exact room
    · obtain ⟨nextCodept, nextEntry, span⟩ := readRune_of_ne_zero ptr none
      obtain ⟨firstLower, secondLower⟩ := wide.ligature_lower _ _ none
      refine ⟨Or.inl progress, distance, forward, keeps, landsRest, rfl, rfl, rfl, rfl,
        Or.inr ⟨span, firstLower⟩, ?_, fun _ => room secondLower⟩
      rw [nextCodept, nextEntry]
      exact wide.entry_lower _

/-- The loop of `shape_text` stops at the terminator. -/
theorem shapeLoop_stops (wide : WideTables tables) (reading : ReadingBytes m bytes locals)
    {fuel : Nat}
    (enough : bytes.length + 2 ≤ fuel ∨ bytes = [] ∧ locals.nextCodept = 0 ∧ 1 ≤ fuel) :
    StopsAtTerminator m locals.ptr bytes (shapeLoop tables fuel m locals) := by
  induction fuel generalizing m bytes locals with
  | zero => omega
  | succ fuel ih =>
      obtain ⟨read, rest, reads, moved⟩ : ∃ read rest,
          locals.readForward tables m = .ok read ∧ MovedOver m bytes locals read rest := by
        cases bytes with
        | nil => exact ⟨_, _, reading.readForward_terminator⟩
        | cons byte rest =>
            obtain ⟨read, reads, moved⟩ := reading.readForward_rune wide
            exact ⟨read, _, reads, moved⟩
      have fits : 0x80 ≤ locals.nextCodept → read.thisCodeptPtr + 2 ≤ locals.ptr := by
        rw [moved.thisCodeptPtr]
        exact reading.next_room
      obtain ⟨after, state, late, turn, below, lateRoom⟩ := shapeThis_below m
        (fun spans => fits (by have := moved.span; omega))
        (fun found => fits (reading.entry_lower (moved.thisLutEntry ▸ found)))
        (fun late open' => reading.late_room late (moved.lateFinalize ▸ open'))
      have distance := moved.distance
      have forward := moved.forward
      have before := below.mono (show locals.ptr ≤ locals.ptr + bytes.length by omega)
      have spanDone : read.ligatureSpan - 1 = 0 := by
        have := moved.span
        omega
      rw [shapeLoop, reads]
      simp only [bind, Except.bind, turn]
      by_cases goesOn : read.thisCodept ≠ 0 ∨ read.nextCodept ≠ 0
      · rw [if_pos goesOn]
        have next : ReadingBytes after rest { read with
            state := state
            lateFinalize := late
            ligatureSpan := read.ligatureSpan - 1 } :=
          ⟨moved.stands after below, moved.lands, moved.entry_lower, moved.next_room,
            fun open' here => (lateRoom open' here).trans forward, spanDone⟩
        have enoughNext : rest.length + 2 ≤ fuel ∨
            rest = [] ∧ read.nextCodept = 0 ∧ 1 ≤ fuel := by
          rcases moved.progress with shorter | ⟨rfl, rfl, zero⟩
          · left
            rcases enough with enough | ⟨rfl, -⟩
            · omega
            · simp at shorter
          · right
            -- At the terminator only a nonzero rune in the window asks for another turn.
            rcases enough with enough | ⟨-, nextZero, -⟩
            · exact ⟨rfl, zero, by simp at enough; omega⟩
            · rw [moved.thisCodept, nextZero, zero] at goesOn
              simp at goesOn
        obtain ⟨final, run, more⟩ := ih next enoughNext
        exact ⟨final, run, before.trans (more.mono (by rw [← distance]))⟩
      · rw [if_neg goesOn]
        exact ⟨after, rfl, before⟩

end ReadingBytes

/-- The scans stop at the terminator exactly when the lead bytes lead to it. -/
theorem WideTables.scansStop_iff (wide : WideTables tables) {text : Int}
    (stands : BytesAt m text bytes) :
    ScansStop tables m text bytes ↔ landsOnTerminator 0 bytes = true := by
  have high := stands.high_eq
  constructor
  · rintro ⟨-, ⟨after, run, -⟩, -⟩
    by_contra misses
    obtain ⟨fault, overrun⟩ := unshapeLoop_overruns wide stands (by simpa using misses)
      ((m.high - text).toNat + 1)
    rw [unshapeText, overrun] at run
    cases run
  · intro lands
    refine ⟨?_, unshapeLoop_stops wide stands lands (by omega), fun alignment => ?_⟩
    · have reading : ReadingBytes m bytes (.start text) :=
        ⟨stands, lands, by simp [ShapeLocals.start], by simp [ShapeLocals.start],
          by simp [ShapeLocals.start], rfl⟩
      exact reading.shapeLoop_stops wide (Or.inl (by omega))
    · unfold gdtAlignmentStep
      split
      · exact alignmentLoop_stops stands lands alignment (by omega)
      · exact ⟨alignment, rfl⟩

end Scans

theorem GeneratedTables.wideTables {forms : FormsTable} {packed : PackState}
    {pairs : List (CharacterForms × ShaperLUTEntry)} {tables : ShaperTables}
    (generated : GeneratedTables forms packed pairs tables) : WideTables tables where
  entry_lower _ found := (generated.entry_two_byte found).1
  ligature_lower first second ligates := by
    obtain ⟨-, -, a, b, -, rfl, rfl, -, first, second, -⟩ :=
      generated.exists_pair_of_ligature ligates
    exact ⟨first.lower, second.lower⟩
  range_lower codept inside := by
    have scratch := generated.scratch_of_range inside
    rw [mem_scratchCodepoints] at scratch
    omega

/-- With generated tables, `shape_text`, `unshape_text` and `gdt_alignment_step` stop
at the terminator of a byte string if and only if its lead bytes lead to it. -/
theorem scansStop_iff_landsOnTerminator {unicodedataName : Char → Option String}
    {forms : FormsTable} {tables : ShaperTables}
    (run : generateTables unicodedataName forms.items = .ok tables)
    {m : Memory} {text : Int} {bytes : List UInt8} (stands : BytesAt m text bytes) :
    ScansStop tables m text bytes ↔ landsOnTerminator 0 bytes = true := by
  obtain ⟨packed, pairs, generated⟩ := exists_generatedTables run
  exact generated.wideTables.scansStop_iff stands

theorem bytesAt_ofBytes (base : Int) {bytes : List UInt8} (nonzero : ∀ byte ∈ bytes, byte ≠ 0) :
    BytesAt (.ofBytes base (bytes ++ [0])) base bytes where
  spelled := spells_ofBytes base _
  nonzero := nonzero
  low_le := Int.le_refl base
  high_eq := by simp [Memory.ofBytes, Int.add_assoc]

/-- Stray continuation bytes and an overlong zero do no harm. -/
theorem scansStop_strayBytes :
    ScansStop lamAlefTables (.ofBytes 0 ([0xD9, 0x84, 0x80, 0xC0, 0x80, 0xD8, 0xA7] ++ [0])) 0
      [0xD9, 0x84, 0x80, 0xC0, 0x80, 0xD8, 0xA7] :=
  (scansStop_iff_landsOnTerminator generateTables_lamAlefForms
    (bytesAt_ofBytes 0 (by decide))).mpr (by decide)

/-- A message cut off in the middle of a rune. -/
theorem not_scansStop_truncated :
    BytesAt (.ofBytes 0 ([0x61, 0xD8] ++ [0])) 0 [0x61, 0xD8] ∧
      ¬ ScansStop lamAlefTables (.ofBytes 0 ([0x61, 0xD8] ++ [0])) 0 [0x61, 0xD8] := by
  have stands : BytesAt (.ofBytes 0 ([0x61, 0xD8] ++ [0])) 0 [0x61, 0xD8] :=
    bytesAt_ofBytes 0 (by decide)
  obtain ⟨packed, pairs, generated⟩ := exists_generatedTables generateTables_lamAlefForms
  refine ⟨stands, ?_⟩
  rw [generated.wideTables.scansStop_iff stands]
  decide

end Elbbep
