import Elbbep.SupplementaryRunes

/-!
# Supplementary runes that are not inert

A supplementary rune whose alias is read as the terminator, belongs to a class of
`rtl_ranges.c`, is invisible, or has a record of the shaper is not treated like the
replacement character: one short text for each of these kinds shows the difference.
So a set of supplementary runes is harmless exactly when their aliases are inert.
-/

namespace Elbbep

open ByteMemory Utf8Encoding ShaperTables

/-! ## Short lines -/

namespace Directions

variable {α : Type*} {d : Directions α} {first second c : α}

/-- Anything but an anchor between two strong runes is reversed with them. -/
theorem reorder_between (strong : d.strong first = true) (also : d.strong second = true)
    (inside : d.anchor c = false) :
    d.reorder [first, c, second] = [second, d.mirror c, first] := by
  obtain ⟨rtl, notNeutral⟩ : d.rtl first = true ∧ d.neutral first = false := by
    simpa [Directions.strong] using strong
  obtain ⟨alsoRtl, alsoNotNeutral⟩ : d.rtl second = true ∧ d.neutral second = false := by
    simpa [Directions.strong] using also
  have notWeak := not_weak_of_rtl alsoRtl
  have absorbed : d.handleRune ⟨[], some ⟨[first], []⟩⟩ c (some second) =
      ⟨[], some (d.absorb ⟨[first], []⟩ c)⟩ :=
    handleRune_absorb inside (Or.inr (by simp [continues, alsoRtl]))
  have unmirrored := d.mirror_of_rtl second alsoRtl
  have mirrorWeak := fun weak => d.mirror_of_not_neutral c (d.weak_not_neutral c weak)
  have mirrorStrong := d.mirror_of_not_neutral c
  have opened : d.handleRune ⟨[], none⟩ first (some c) = ⟨[], some ⟨[first], []⟩⟩ := by
    simp [handleRune, rtl]
  simp only [reorder, handleRunes, List.head?_cons, opened, absorbed]
  cases weak : d.weak c <;> cases neutral : d.neutral c <;>
    simp_all [absorb, handleRune, closeLine, OpenSpan.turned, OpenSpan.runes, OpenSpan.append]

/-- An anchor between two strong runes keeps them apart. -/
theorem reorder_apart (strong : d.strong first = true) (anchor : d.anchor c = true) :
    d.reorder [first, c, second] = [first, c, second] := by
  have rtl : d.rtl first = true := by
    simp only [Directions.strong, Bool.and_eq_true] at strong
    exact strong.1
  have opened : d.handleRune ⟨[], none⟩ first (some c) = ⟨[], some ⟨[first], []⟩⟩ := by
    simp [handleRune, rtl]
  simp only [reorder, handleRunes, List.head?_cons, opened, handleRune_anchor anchor]
  simp [handleRune, closeLine, OpenSpan.turned, OpenSpan.runes]

/-- A neutral rune in front of an anchor stays, unless the anchor is invisible. -/
theorem reorder_closing {neutral : α} (strong : d.strong first = true)
    (isNeutral : d.neutral neutral = true) (notRtl : d.rtl neutral = false)
    (anchor : d.anchor c = true) :
    d.reorder [first, neutral, c] =
      if d.control c then [d.mirror neutral, first, c] else [first, neutral, c] := by
  have rtl : d.rtl first = true := by
    simp only [Directions.strong, Bool.and_eq_true] at strong
    exact strong.1
  have inside : d.anchor neutral = false := by simp [Directions.anchor, isNeutral]
  have notWeak := not_weak_of_neutral isNeutral
  have opened : d.handleRune ⟨[], none⟩ first (some neutral) = ⟨[], some ⟨[first], []⟩⟩ := by
    simp [handleRune, rtl]
  have passes := not_rtl_of_anchor anchor
  simp only [reorder, handleRunes, List.head?_cons, opened]
  cases control : d.control c with
  | true =>
      rw [handleRune_absorb inside (Or.inr ((continues_anchor anchor).trans control)),
        handleRune_anchor anchor]
      simp [absorb, notWeak, isNeutral, closeLine, OpenSpan.turned, OpenSpan.runes]
  | false =>
      rw [handleRune_boundary inside notRtl ((continues_anchor anchor).trans control)]
      simp [handleRune, passes, closeLine, OpenSpan.runes]

/-- Behind an anchor, two strong runes are exchanged. -/
theorem reorder_behind {before : α} (passes : d.rtl before = false) (anchor : d.anchor c = true)
    (strong : d.strong first = true) (also : d.strong second = true) :
    d.reorder [before, c, first, second] = [before, c, second, first] := by
  have passesAnchor := not_rtl_of_anchor anchor
  obtain ⟨rtl, notNeutral⟩ : d.rtl first = true ∧ d.neutral first = false := by
    simpa [Directions.strong] using strong
  obtain ⟨alsoRtl, alsoNotNeutral⟩ : d.rtl second = true ∧ d.neutral second = false := by
    simpa [Directions.strong] using also
  simp [reorder, handleRunes, handleRune, passes, passesAnchor, rtl, alsoRtl, alsoNotNeutral,
    not_weak_of_rtl alsoRtl, closeLine, OpenSpan.turned, OpenSpan.runes]

end Directions

/-! ## Texts that show aliases -/

section Exposed

theorem mem_putBack {originals out : List Char} {c : Char} (member : c ∈ putBack originals out) :
    c ∈ originals ∨ c ∈ out := by
  induction originals, out using putBack.induct with
  | case1 original originals out ih =>
      rw [putBack, if_pos rfl] at member
      rcases List.mem_cons.mp member with rfl | later
      · exact Or.inl (by simp)
      · exact (ih later).imp (by simp +contextual) (by simp +contextual)
  | case2 original originals c' out here ih =>
      rw [putBack, if_neg here] at member
      rcases List.mem_cons.mp member with rfl | later
      · exact Or.inr (by simp)
      · exact (ih later).imp (by simp +contextual) (by simp +contextual)
  | case3 out => exact Or.inr (by simpa [putBack] using member)
  | case4 originals _ => simp [putBack] at member

theorem putBack_nonzero {chars out : List Char} (nonzero : ∀ c ∈ chars, c ≠ '\x00')
    (nonzeroOut : ∀ c ∈ out, c ≠ '\x00') :
    ∀ c ∈ putBack (replaced chars) out, c ≠ '\x00' := by
  intro c member
  rcases mem_putBack member with original | other
  · exact nonzero c (List.mem_of_mem_filter original)
  · exact nonzeroOut c other

/-- Texts have one result without zero characters. -/
theorem ProcessesTo.unique {run : List Char → Memory → Int → Except Fault Memory}
    {chars first second : List Char} (one : ProcessesTo run chars first)
    (two : ProcessesTo run chars second) (nonzero : ∀ c ∈ first, c ≠ '\x00')
    (nonzeroSecond : ∀ c ∈ second, c ≠ '\x00') : first = second := by
  obtain ⟨after, ran, stands⟩ := one _ _ (textAt_ofBytes 0 chars)
  obtain ⟨after', ran', stands'⟩ := two _ _ (textAt_ofBytes 0 chars)
  obtain rfl := Except.ok.inj (ran.symm.trans ran')
  exact stands.unique stands' nonzero nonzeroSecond

variable {forms : FormsTable} {packed : PackState}
  {pairs : List (CharacterForms × ShaperLUTEntry)} {tables : ShaperTables} {chars : List Char}

/-- What inert runes mean for a run whose results are known. -/
theorem TreatsAsReplacement.eq_putBack {run : List Char → Memory → Int → Except Fault Memory}
    {out outHidden : List Char} (treats : TreatsAsReplacement run chars)
    (runs : ProcessesTo run chars out) (runsHidden : ProcessesTo run (chars.map hidden) outHidden)
    (nonzeroChars : ∀ c ∈ chars, c ≠ '\x00') (nonzero : ∀ c ∈ out, c ≠ '\x00')
    (nonzeroHidden : ∀ c ∈ outHidden, c ≠ '\x00') :
    out = putBack (replaced chars) outHidden := by
  obtain ⟨other, otherNonzero, otherHidden, other'⟩ := treats
  obtain rfl := otherHidden.unique runsHidden otherNonzero nonzeroHidden
  exact runs.unique other' nonzero (putBack_nonzero nonzeroChars otherNonzero)

/-- Two letters to tell the order of a line by. -/
theorem strong_letters (scratch : tables.RecyclesScratch) :
    (tables.directions scratch).strong 'א' = true ∧
      (tables.directions scratch).strong 'ב' = true := by
  have strong {c : Char} (value : 0x5D0 ≤ runeValue c ∧ runeValue c < 0x5EB)
      (notNeutral : isNeutral (runeValue c) = false) :
      (tables.directions scratch).strong c = true := by
    change (tables.isRtl (runeValue c) && !isNeutral (runeValue c)) = true
    have hebrew : inRange (runeValue c) 0x590 0x600 = true := by
      simp [inRange]
      omega
    simp [ShaperTables.isRtl, hebrew, notNeutral]
  exact ⟨strong (by decide) (by decide), strong (by decide) (by decide)⟩

/-- On lines without aliases of zero, inert runes mean that the reordered line is that of
the replacement. -/
theorem reorder_eq_putBack (generated : GeneratedTables forms packed pairs tables)
    (treats : TreatsAsReplacement (rtlApplyText tables) chars)
    (nonzero : ∀ c ∈ chars, runeValue c ≠ 0) :
    (tables.directions generated.recyclesScratch).reorder chars = putBack (replaced chars)
      ((tables.directions generated.recyclesScratch).reorder (chars.map hidden)) := by
  have scratch := generated.recyclesScratch
  have nonzeroHidden : ∀ c ∈ chars.map hidden, runeValue c ≠ 0 := by
    intro c member
    obtain ⟨e, inChars, rfl⟩ := List.mem_map.mp member
    cases supplementary : isSupplementary e with
    | true =>
        rw [hidden_of_supplementary supplementary]
        decide
    | false =>
        rw [hidden_of_plane supplementary]
        exact nonzero e inChars
  exact treats.eq_putBack (processesTo_rtlApplyText scratch nonzero)
    (processesTo_rtlApplyText scratch nonzeroHidden)
    (fun c member => nonzero_of_runeValue (nonzero c member))
    (fun c member => nonzero_of_runeValue (reorder_nonzero scratch nonzero c member))
    (fun c member => nonzero_of_runeValue (reorder_nonzero scratch nonzeroHidden c member))

/-- A text with `s` as its only supplementary rune, on which the three passes do not treat it
like the replacement character. -/
structure Exposes (tables : ShaperTables) (s : Char) (chars : List Char) : Prop where
  only : ∀ c ∈ chars, c ≠ '\x00' ∧ (isSupplementary c = true → c = s)
  fits : tables.ExpansionsFit 0 chars
  shows : ¬ SupplementaryInert tables chars

theorem GeneratedTables.unshapedCodepts_of_lt
    (generated : GeneratedTables forms packed pairs tables)
    {codept : Nat} (small : codept < 0x700) : tables.unshapedCodepts codept = [] := by
  apply unshapedCodepts_outside
  by_contra inside
  have scratch := mem_scratchCodepoints.mp (generated.scratch_of_range (by simpa using inside))
  omega

theorem nonzero_of_supplementary {s : Char} (supplementary : isSupplementary s = true) :
    s ≠ '\x00' := by
  rintro rfl
  exact absurd supplementary (by decide)

/-- The texts below show `s` among runes that are not behind replacement characters. -/
theorem replaced_around {s : Char} (supplementary : isSupplementary s = true)
    {before after : List Char}
    (plain : ∀ c ∈ before ++ after, (hidden c == replacementChar) = false) :
    replaced (before ++ s :: after) = [s] := by
  have none {chars : List Char} (plain : ∀ c ∈ chars, (hidden c == replacementChar) = false) :
      chars.filter (fun c => hidden c == replacementChar) = [] := by
    simpa [List.filter_eq_nil_iff] using plain
  rw [replaced, List.filter_append, List.filter_cons_of_pos
      (by simp [hidden_of_supplementary supplementary]),
    none fun c member => plain c (by simp [member]),
    none fun c member => plain c (by simp [member]), List.nil_append]

theorem anchor_replacementChar (generated : GeneratedTables forms packed pairs tables) :
    (tables.directions generated.recyclesScratch).anchor replacementChar = true := by
  have inert := generated.inertAlias_replacement
  change tables.strongLtr replacementChar = true
  rw [ShaperTables.strongLtr, inert.not_rtl, inert.not_neutral, inert.not_weak]
  rfl

/-- A rune of a class that is reversed together with the letters around it. -/
theorem exposes_class (generated : GeneratedTables forms packed pairs tables) {s : Char}
    (supplementary : isSupplementary s = true) (visible : runeValue s ≠ 0)
    (inside : tables.strongLtr s = false) : Exposes tables s ['א', s, 'ב'] where
  only := by
    have plane : isSupplementary 'א' = false ∧ isSupplementary 'ב' = false := by decide
    simp [plane, nonzero_of_supplementary supplementary]
  fits := by
    have small : runeValue 'א' < 0x700 ∧ runeValue 'ב' < 0x700 := by decide
    have size : 'א'.utf8Size = 2 := by decide
    simp [ExpansionsFit, generated.unshapedCodepts_of_lt small.1,
      generated.unshapedCodepts_of_lt small.2, size]
  shows inert := by
    obtain ⟨strong, also⟩ := strong_letters generated.recyclesScratch
    have nonzero : ∀ c ∈ ['א', s, 'ב'], runeValue c ≠ 0 := by
      have values : runeValue 'א' ≠ 0 ∧ runeValue 'ב' ≠ 0 := by decide
      simpa [values] using visible
    have eq := reorder_eq_putBack generated inert.2.2 nonzero
    have hiddenLine : ['א', s, 'ב'].map hidden = ['א', replacementChar, 'ב'] := by
      simp [hidden_of_supplementary supplementary, hidden_of_lt]
    rw [hiddenLine, Directions.reorder_between strong also inside,
      Directions.reorder_apart strong (anchor_replacementChar generated)] at eq
    have distinct : 'ב' ≠ 'א' := by decide
    have shown : replaced ['א', s, 'ב'] = [s] :=
      replaced_around supplementary (show ∀ c ∈ ['א'] ++ ['ב'], _ by decide)
    rw [shown] at eq
    simp [putBack, distinct, replacementChar] at eq

/-- An invisible rune draws the neutral rune in front of it into the span. -/
theorem exposes_control (generated : GeneratedTables forms packed pairs tables) {s : Char}
    (supplementary : isSupplementary s = true) (visible : runeValue s ≠ 0)
    (anchor : tables.strongLtr s = true) (control : runeValue s < 0x20) :
    Exposes tables s ['א', '!', s] where
  only := by
    have plane : isSupplementary 'א' = false ∧ isSupplementary '!' = false := by decide
    simp [plane, nonzero_of_supplementary supplementary]
  fits := by
    have small : runeValue 'א' < 0x700 ∧ runeValue '!' < 0x700 := by decide
    simp [ExpansionsFit, generated.unshapedCodepts_of_lt small.1,
      generated.unshapedCodepts_of_lt small.2,
      generated.unshapedCodepts_of_lt (show runeValue s < 0x700 by omega)]
  shows inert := by
    have scratch := generated.recyclesScratch
    have strong := (strong_letters scratch).1
    have nonzero : ∀ c ∈ ['א', '!', s], runeValue c ≠ 0 := by
      have values : runeValue 'א' ≠ 0 ∧ runeValue '!' ≠ 0 := by decide
      simpa [values] using visible
    have eq := reorder_eq_putBack generated inert.2.2 nonzero
    have hiddenLine : ['א', '!', s].map hidden = ['א', '!', replacementChar] := by
      simp [hidden_of_supplementary supplementary, hidden_of_lt]
    have neutral : (tables.directions scratch).neutral '!' = true :=
      show isNeutral (runeValue '!') = true by decide
    have notRtl : (tables.directions scratch).rtl '!' = false :=
      not_rtl_of_lt scratch (show runeValue '!' < 0x590 by decide)
    have invisible : (tables.directions scratch).control s = true := decide_eq_true control
    have shownControl : (tables.directions scratch).control replacementChar = false :=
      show decide (runeValue replacementChar < 0x20) = false by decide
    rw [hiddenLine, Directions.reorder_closing strong neutral notRtl anchor, invisible,
      Directions.reorder_closing strong neutral notRtl (anchor_replacementChar generated),
      shownControl] at eq
    have distinct : 'א' ≠ '!' := by decide
    have shown : replaced ['א', '!', s] = [s] :=
      replaced_around supplementary (show ∀ c ∈ ['א', '!'] ++ [], _ by decide)
    have mirrorEq : (tables.directions scratch).mirror '!' = '!' :=
      show mirrored '!' = '!' by decide
    rw [shown, mirrorEq] at eq
    simp [putBack, replacementChar] at eq

/-- `rtl_apply` takes a rune that is read as zero for the end of the line. -/
theorem rtlApply_stops {m : Memory} {start lineEnd : Int} {c z : Char} {rest : List Char}
    (stands : LineAt m start (c :: z :: rest)) (passes : tables.isRtl (runeValue c) = false)
    (nonzero : z ≠ '\x00') (zero : runeValue z = 0)
    (before : start + byteLength [c] < lineEnd) :
    rtlApply tables m start lineEnd = .ok (m, false) := by
  have first : LineAt m start ([] ++ c :: z :: rest) := stands
  have second : LineAt m start ([c] ++ z :: rest) := stands
  have read := first.readUtf8_eq
  have readNext := second.readUtf8_eq
  obtain ⟨lead, tail, eq, load⟩ := second.load_lead
  have leadNonzero : lead ≠ 0 := encodeChar_byte_ne_zero nonzero lead (by simp [eq])
  simp only [byteLength_nil, Nat.cast_zero, add_zero, List.nil_append] at read
  rw [zero] at readNext
  simp only [rtlApply, read, bind, Except.bind, rtlLoop, RtlLocals.readForward, before, if_true,
    load, ne_eq, leadNonzero, not_false_eq_true, readNext, RtlLocals.handleWeakLtr,
    RtlLocals.handleSpan, passes]
  rfl

/-- A rune that is read as zero hides the rest of the line. -/
theorem exposes_zero (generated : GeneratedTables forms packed pairs tables) {s : Char}
    (supplementary : isSupplementary s = true) (zero : runeValue s = 0) :
    Exposes tables s ['a', s, 'א', 'ב'] where
  only := by
    have plane : isSupplementary 'a' = false ∧ isSupplementary 'א' = false ∧
        isSupplementary 'ב' = false := by decide
    simp [plane, nonzero_of_supplementary supplementary]
  fits := by
    have small : runeValue 'a' < 0x700 ∧ runeValue 'א' < 0x700 ∧ runeValue 'ב' < 0x700 := by decide
    simp [ExpansionsFit, generated.unshapedCodepts_of_lt small.1,
      generated.unshapedCodepts_of_lt small.2.1, generated.unshapedCodepts_of_lt small.2.2,
      generated.unshapedCodepts_of_lt (show runeValue s < 0x700 by omega)]
  shows inert := by
    have scratch := generated.recyclesScratch
    obtain ⟨strong, also⟩ := strong_letters scratch
    have passes : tables.isRtl (runeValue 'a') = false := not_rtl_of_lt scratch (by decide)
    have nonzero := nonzero_of_supplementary supplementary
    have stays : ProcessesTo (rtlApplyText tables) ['a', s, 'א', 'ב'] ['a', s, 'א', 'ב'] := by
      intro m text stands
      have line : LineAt m text ['a', s, 'א', 'ב'] := TextAt.lineAt stands
      refine ⟨m, ?_, stands⟩
      rw [rtlApplyText, rtlApply_stops line passes nonzero zero ?_]
      · rfl
      · have positive := s.utf8Size_pos
        simp only [byteLength_cons, byteLength_nil]
        push_cast
        omega
    have hiddenLine : ['a', s, 'א', 'ב'].map hidden = ['a', replacementChar, 'א', 'ב'] := by
      simp [hidden_of_supplementary supplementary, hidden_of_lt]
    have turns : ProcessesTo (rtlApplyText tables) (['a', s, 'א', 'ב'].map hidden)
        ['a', replacementChar, 'ב', 'א'] := by
      rw [hiddenLine, ← Directions.reorder_behind passes (anchor_replacementChar generated)
        strong also]
      exact processesTo_rtlApplyText scratch (by decide)
    have eq := inert.2.2.eq_putBack stays turns (by simp [nonzero]) (by simp [nonzero]) (by decide)
    have shown : replaced ['a', s, 'א', 'ב'] = [s] :=
      replaced_around supplementary (show ∀ c ∈ ['a'] ++ ['א', 'ב'], _ by decide)
    rw [shown] at eq
    simp [putBack, replacementChar] at eq

/-- The isolated form goes over the first two bytes of a rune, however long it is. -/
theorem shapeText_single (sound : tables.Sound) {m : Memory} {text : Int} {s : Char}
    {entry : ShaperLUTEntry} (stands : TextAt m text [s]) (long : 2 ≤ s.utf8Size)
    (nonzero : runeValue s ≠ 0) (wide : isZeroWidth (runeValue s) = false)
    (found : tables.findLutEntryByCodept (runeValue s) = some entry) :
    shapeText tables m text = .ok (writeUtf8 m text (entry.formChar .isolated).toNat) := by
  have low := stands.low_le
  have high := stands.high_gt
  have length : byteLength [s] = s.utf8Size := by simp
  obtain ⟨fuel, fuelEq⟩ : ∃ fuel, (m.high - text).toNat + 2 = fuel + 1 + 1 + 1 :=
    ⟨(m.high - text).toNat - 1, by omega⟩
  have noNul : isZeroWidth 0 = false := by decide
  have write := (sound.form_two_byte _ _ found).writeForm_eq m text .isolated
  have terminator : m.load (text + byteLength [s]) = .ok 0 := stands.load_terminator
  have terminatorAfter : (writeUtf8 m text (entry.formChar .isolated).toNat).load
      (text + byteLength [s]) = .ok 0 := by
    rw [m.load_of_mem (by omega) high] at terminator
    rw [Memory.load_of_mem (by simpa [writeUtf8] using by omega) (by simpa [writeUtf8] using high),
      writeUtf8, Memory.store_byte_of_ne _ _ (by omega), Memory.store_byte_of_ne _ _ (by omega)]
    exact terminator
  have first : (ShapeLocals.start text).readForward tables m =
      .ok ⟨.initial, text + byteLength [s], text, 0, 0, runeValue s, none, some entry,
        none, 0⟩ := by
    have atStart : (ShapeLocals.start text).ptr = text + byteLength [] := by
      simp [ShapeLocals.start]
    have noLigature : tables.findLigatureByCodepts (codeptBuffer 0 (runeValue s)) 2 = 0 :=
      sound.ligature_zero _
    rw [readForward_rune tables (show TextAt m text ([] ++ s :: []) from stands) nonzero atStart]
    simp [ShapeLocals.readRune, ShapeLocals.start, noLigature, found]
  have second (ptr : Int) (load : m.load ptr = .ok 0) :
      (ShapeLocals.mk .initial ptr text 0 0 (runeValue s) none (some entry) none 0).readForward
        tables m = .ok ⟨.initial, ptr, 0, text, runeValue s, 0, some entry, none, none, 0⟩ := by
    simp [ShapeLocals.readForward, load, bind, Except.bind, ShapeLocals.readTerminator]
  have turn (ptr : Int) :
      (ShapeLocals.mk .initial ptr 0 text (runeValue s) 0 (some entry) none none 0).shapeThis m =
        (writeUtf8 m text (entry.formChar .isolated).toNat,
          ⟨.initial, ptr, 0, text, runeValue s, 0, some entry, none, none, 0⟩) := by
    simp [ShapeLocals.shapeThis, wide, noNul, write]
  rw [shapeText, fuelEq, shapeLoop_turn first (shapeThis_idle rfl rfl rfl rfl rfl) (Or.inr nonzero),
    shapeLoop_turn (second _ terminator) (turn _) (Or.inl nonzero)]
  simp only [shapeLoop, ShapeLocals.readForward, terminatorAfter, bind, Except.bind, ne_eq,
    not_true_eq_false, if_false, ShapeLocals.readTerminator, ShapeLocals.shapeThis, noNul,
    closeWord]
  rfl

/-- A rune with a record loses its first two bytes. -/
theorem exposes_entry (generated : GeneratedTables forms packed pairs tables) {s : Char}
    (supplementary : isSupplementary s = true) (visible : runeValue s ≠ 0)
    (anchor : tables.strongLtr s = true)
    (found : tables.findLutEntryByCodept (runeValue s) ≠ none) :
    Exposes tables s [s] where
  only := by simp [nonzero_of_supplementary supplementary]
  fits := by
    have notRtl : tables.isRtl (runeValue s) = false :=
      Directions.not_rtl_of_anchor (d := tables.directions generated.recyclesScratch) anchor
    simp [ExpansionsFit, unshapedCodepts_outside tables (not_shaped_of_not_rtl notRtl)]
  shows inert := by
    have large : 0x10000 ≤ s.toNat := by simpa [isSupplementary] using supplementary
    obtain ⟨entry, found⟩ := Option.ne_none_iff_exists'.mp found
    have wide : isZeroWidth (runeValue s) = false := by
      simp only [ShaperTables.strongLtr, Bool.not_eq_true', Bool.or_eq_false_iff] at anchor
      exact not_zeroWidth_of_not_neutral anchor.1.2
    have long : s.utf8Size = 4 := by
      simp [← String.length_utf8EncodeChar, utf8EncodeChar_four large]
    obtain ⟨out, nonzeroOut, runHidden, run⟩ := inert.1
    -- The replacement has no record, so the rune should stay.
    have stays : ProcessesTo (fun _ => shapeText tables) ([s].map hidden) [replacementChar] := by
      intro m text stands
      rw [List.map_singleton, hidden_of_supplementary supplementary] at stands
      obtain ⟨after, ran, shaped, -⟩ :=
        shapeText_spec generated.sound (generated.shapable (by decide)) stands
      refine ⟨after, ran, ?_⟩
      simpa [shapeChars, shapeFrom, shapedChar, generated.inertAlias_replacement.no_entry]
        using shaped
    obtain rfl := runHidden.unique stays nonzeroOut (by decide)
    have shown : replaced [s] = [s] :=
      replaced_around supplementary (show ∀ c ∈ ([] : List Char) ++ [], _ by simp)
    rw [shown, putBack, if_pos rfl, putBack] at run
    obtain ⟨after, ran, stands⟩ := run _ _ (textAt_ofBytes 0 [s])
    have written := shapeText_single generated.sound (textAt_ofBytes 0 [s]) (by omega) visible wide
      found
    obtain rfl := Except.ok.inj (ran.symm.trans written)
    have kept := (show TextAt _ 0 ([] ++ s :: []) from stands).spells_char
    have size := (generated.sound.form_two_byte _ _ found).formChar_size .isolated
    have form := writeUtf8_spells (.ofBytes 0 (encode [s] ++ [0])) 0 size
    obtain ⟨lower, upper⟩ := utf8Size_eq_two_iff.mp size
    rw [utf8EncodeChar_four large] at kept
    rw [utf8EncodeChar_two lower upper] at form
    have bytes := kept.1.symm.trans form.1
    have bound := toNat_lt s
    have values := congrArg UInt8.toNat bytes
    simp only [UInt8.toNat_ofNat'] at values
    omega

/-- Supplementary runes that are not inert are exposed by some text. -/
theorem exists_exposes (generated : GeneratedTables forms packed pairs tables) {s : Char}
    (supplementary : isSupplementary s = true) (active : ¬ InertAlias tables s) :
    ∃ chars, Exposes tables s chars := by
  by_cases zero : runeValue s = 0
  · exact ⟨_, exposes_zero generated supplementary zero⟩
  cases anchor : tables.strongLtr s with
  | false => exact ⟨_, exposes_class generated supplementary zero anchor⟩
  | true =>
      by_cases control : runeValue s < 0x20
      · exact ⟨_, exposes_control generated supplementary zero anchor control⟩
      · refine ⟨_, exposes_entry generated supplementary zero anchor fun noEntry => active ?_⟩
        simp only [ShaperTables.strongLtr, Bool.not_eq_true', Bool.or_eq_false_iff] at anchor
        exact ⟨by omega, anchor.1.1, anchor.1.2, anchor.2, noEntry⟩

end Exposed

/-- For tables that the generator writes, supplementary runes from a set are treated like
replacement characters by all three passes, in every text, exactly when all of them have inert
aliases.  Unshaping asks for a text whose ligatures follow 2-byte runes. -/
theorem supplementaryInert_iff_inertAlias {unicodedataName : Char → Option String}
    {forms : FormsTable} {tables : ShaperTables}
    (run : generateTables unicodedataName forms.items = .ok tables)
    (ligaturesOfLetters : forms.LigaturesOfLetters) (allowed : Char → Prop) :
    (∀ chars : List Char,
        (∀ c ∈ chars, c ≠ '\x00' ∧ (isSupplementary c = true → allowed c)) →
        TreatsAsReplacement (fun _ => shapeText tables) chars ∧
          TreatsAsReplacement (rtlApplyText tables) chars ∧
          (tables.ExpansionsFit 0 chars →
            TreatsAsReplacement (fun _ => unshapeText tables) chars)) ↔
      ∀ c, isSupplementary c = true → allowed c → InertAlias tables c := by
  obtain ⟨packed, pairs, generated⟩ := exists_generatedTables run
  constructor
  · intro inert s supplementary isAllowed
    by_contra active
    obtain ⟨chars, exposes⟩ := exists_exposes generated supplementary active
    obtain ⟨shape, apply, unshape⟩ := inert chars fun c member => by
      obtain ⟨nonzero, only⟩ := exposes.only c member
      exact ⟨nonzero, fun shown => only shown ▸ isAllowed⟩
    exact exposes.shows ⟨shape, unshape exposes.fits, apply⟩
  · intro inert chars allowedText
    have inertText : InertText tables chars := fun c member => by
      obtain ⟨nonzero, isAllowed⟩ := allowedText c member
      exact ⟨nonzero, fun supplementary => inert c supplementary (isAllowed supplementary)⟩
    exact ⟨inertText.treatsAsReplacement_shapeText generated ligaturesOfLetters,
      inertText.treatsAsReplacement_rtlApplyText generated,
      inertText.treatsAsReplacement_unshapeText generated ligaturesOfLetters⟩

/-- A smiley between letters. -/
theorem supplementaryInert_smiley :
    SupplementaryInert lamAlefTables ['ل', '😀', 'א', '!'] := by
  have inert : InertAlias lamAlefTables '😀' :=
    ⟨by decide, by decide, by decide, by decide, by decide⟩
  obtain ⟨shape, apply, unshape⟩ := (supplementaryInert_iff_inertAlias generateTables_lamAlefForms
    (by decide) (· = '😀')).mpr (by rintro c - rfl; exact inert) ['ل', '😀', 'א', '!'] (by decide)
  exact ⟨shape, unshape (by decide), apply⟩

/-- A Linear A sign is read as the Arabic letter alef. -/
theorem not_supplementaryInert_linearA : ¬ SupplementaryInert lamAlefTables ['א', '𐘧', 'ב'] := by
  obtain ⟨packed, pairs, generated⟩ := exists_generatedTables generateTables_lamAlefForms
  exact (exposes_class generated (by decide) (by decide) (by decide)).shows

end Elbbep
