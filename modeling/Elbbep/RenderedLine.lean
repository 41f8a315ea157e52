import Elbbep.RtlInvolution
import Elbbep.Patch
import Elbbep.TextInMemory

/-!
# Drawing a line and restoring it

The hook around the render handler calls `render_rtl_step`, lets the firmware draw the
line, and calls `render_rtl_step` again to get the line back.  Both calls leave out
trailing spaces, reorder the line in place and touch nothing else, so the text is
restored exactly when reordering twice restores the trimmed line.
-/

namespace Elbbep

open ByteMemory Utf8Encoding

/-- The last byte of a rune is a space only for the space itself. -/
theorem utf8EncodeChar_last (c : Char) :
    ∃ init last, String.utf8EncodeChar c = init ++ [last] ∧
      (last = UInt8.ofNat ' '.toNat ↔ c = ' ') := by
  obtain ⟨lead, tail, eq, -, -, continuation⟩ := utf8EncodeChar_lead c
  rcases List.eq_nil_or_concat tail with rfl | ⟨init, last, rfl⟩
  · refine ⟨[], lead, eq, fun space => ?_, fun space => ?_⟩
    · have same : encode [c] = encode [' '] := by
        rw [encode_cons, eq, space]
        decide
      simpa using encode_injective same
    · rw [space] at eq
      exact (List.cons.inj eq).1.symm
  · rw [List.concat_eq_append] at eq continuation
    refine ⟨lead :: init, last, by simp [eq], fun space => ?_, fun space => ?_⟩
    · have bounds := continuation last (by simp)
      rw [space] at bounds
      simp at bounds
    · have size := congrArg List.length eq
      rw [space, String.length_utf8EncodeChar, show ' '.utf8Size = 1 by decide] at size
      simp at size

section Trim

variable {m : Memory} {start : Int} {front body spaces : List Char} {c : Char}

/-- The byte in front of the end of a line tells whether the line ends with a space. -/
theorem LineAt.load_last (stands : LineAt m start (front ++ [c])) :
    ∃ byte, m.load (start + byteLength (front ++ [c]) - 1) = .ok byte ∧
      (byte = UInt8.ofNat ' '.toNat ↔ c = ' ') := by
  obtain ⟨init, last, eq, space⟩ := utf8EncodeChar_last c
  have size : c.utf8Size = init.length + 1 := by
    rw [← String.length_utf8EncodeChar, eq, List.length_append, List.length_singleton]
  have spelled := stands.spells_char
  have low := stands.low_le
  have high := stands.le_high
  rw [eq, spells_append] at spelled
  simp only [byteLength_append, byteLength_cons, byteLength_nil, size] at high ⊢
  push_cast at high ⊢
  refine ⟨last, ?_, space⟩
  have place : start + ((byteLength front : Int) + (init.length + 1 + 0)) - 1 =
      start + byteLength front + init.length := by omega
  rw [place, m.load_of_mem (by omega) (by omega), spelled.2.1]

/-- The trimming loop of `render_rtl_step` finds the end of the line without its spaces. -/
theorem trimLine_ok (stands : LineAt m start (body ++ spaces)) (blank : ∀ c ∈ spaces, c = ' ')
    (ends : ∀ c ∈ body.getLast?, c ≠ ' ') {fuel : Nat} (enough : spaces.length + 1 ≤ fuel) :
    trimLine m start fuel (start + byteLength (body ++ spaces)) =
      .ok (start + byteLength body) := by
  induction spaces using List.reverseRecOn generalizing fuel with
  | nil =>
      obtain ⟨fuel, rfl⟩ : ∃ less, fuel = less + 1 := ⟨fuel - 1, by omega⟩
      rw [List.append_nil] at stands ⊢
      rcases List.eq_nil_or_concat body with rfl | ⟨init, c, rfl⟩
      · rw [trimLine, if_neg (by simp)]
      · rw [List.concat_eq_append] at stands ends ⊢
        obtain ⟨byte, load, space⟩ := stands.load_last
        have positive := c.utf8Size_pos
        have nonempty : start + (byteLength (init ++ [c]) : Int) > start := by
          simp only [byteLength_append, byteLength_cons, byteLength_nil]
          push_cast
          omega
        have other : byte ≠ UInt8.ofNat ' '.toNat := fun isSpace =>
          ends c (by simp) (space.mp isSpace)
        rw [trimLine, if_pos nonempty, load]
        simp only [bind, Except.bind, other, if_false]
  | append_singleton init c ih =>
      obtain ⟨fuel, rfl⟩ : ∃ less, fuel = less + 1 := ⟨fuel - 1, by omega⟩
      obtain rfl : c = ' ' := blank c (by simp)
      rw [← List.append_assoc] at stands ⊢
      obtain ⟨byte, load, space⟩ := stands.load_last
      have standsInit : LineAt m start (body ++ init) := by
        obtain ⟨spelled, low, high⟩ := stands
        rw [encode_append, spells_append] at spelled
        rw [byteLength_append, Nat.cast_add] at high
        exact ⟨spelled.1, low, by omega⟩
      have one : (byteLength (body ++ init ++ [' ']) : Int) = byteLength (body ++ init) + 1 := by
        rw [byteLength_append _ [' ']]
        rfl
      have back : start + (byteLength (body ++ init ++ [' ']) : Int) - 1 =
          start + byteLength (body ++ init) := by omega
      rw [trimLine, if_pos (by omega), load]
      simp only [bind, Except.bind, space.mpr rfl, if_true]
      rw [back]
      exact ih standsInit (fun e member => blank e (by simp [member]))
        (by simp at enough; omega)

end Trim

section Step

variable {m : Memory} {lineStart : Int} {line rest : List Char}

/-- The front of a text as a line. -/
theorem TextAt.lineAt (stands : TextAt m lineStart (line ++ rest)) : LineAt m lineStart line := by
  obtain ⟨spelled, low, high⟩ := stands
  rw [encode_append, List.append_assoc, spells_append] at spelled
  rw [byteLength_append, Nat.cast_add] at high
  exact ⟨spelled.1, low, by omega⟩

/-- A text with a rewritten line at its front. -/
theorem LineRewritten.textAt {line' : List Char} {after : Memory}
    (rewritten : LineRewritten lineStart m line after line')
    (stands : TextAt m lineStart (line ++ rest)) :
    TextAt after lineStart (line' ++ rest) ∧
      StoresWithin lineStart (lineStart + byteLength (line ++ rest)) m after := by
  obtain ⟨spelled, low, high⟩ := stands
  obtain ⟨lengthEq, stands', within⟩ := rewritten
  rw [encode_append, List.append_assoc, spells_append] at spelled
  refine ⟨⟨?_, ?_, ?_⟩, within.mono le_rfl ?_⟩
  · rw [encode_append, List.append_assoc, spells_append]
    refine ⟨stands'.spelled, ?_⟩
    change Spells _ (lineStart + (byteLength line' : Nat)) _
    rw [lengthEq]
    exact within.spells spelled.2 (Or.inr le_rfl)
  · rw [within.low_eq]
    exact low
  · rw [within.high_eq, byteLength_append, lengthEq, ← byteLength_append]
    exact high
  · rw [byteLength_append, Nat.cast_add]
    omega

variable {tables : ShaperTables} (scratch : tables.RecyclesScratch)

theorem Directions.reorder_singleton {α : Type*} (d : Directions α) (c : α) :
    d.reorder [c] = [c] := by
  simp [reorder, handleRunes, handleRune, closeLine]

/-- `rtl_apply` on the front of a text, which may be empty. -/
theorem rtlApply_front (stands : TextAt m lineStart (line ++ rest)) (more : line ++ rest ≠ [])
    (nonzero : ∀ c ∈ line, runeValue c ≠ 0) :
    ∃ after didTransform,
      rtlApply tables m lineStart (lineStart + byteLength line) = .ok (after, didTransform) ∧
      TextAt after lineStart ((tables.directions scratch).reorder line ++ rest) ∧
      StoresWithin lineStart (lineStart + byteLength (line ++ rest)) m after := by
  cases line with
  | nil =>
      obtain ⟨c, rest, rfl⟩ := List.exists_cons_of_ne_nil more
      have front : TextAt m lineStart ([c] ++ rest) := stands
      obtain ⟨after, didTransform, apply, rewritten⟩ := rtlApply_ok scratch front.lineAt
        (by simp) (show lineStart + byteLength [] ≤ lineStart + byteLength [c] by simp) (by simp)
      rw [Directions.reorder_singleton] at rewritten
      obtain ⟨stands', within⟩ := rewritten.textAt front
      exact ⟨after, didTransform, apply, stands', within⟩
  | cons c chars =>
      obtain ⟨after, didTransform, apply, rewritten⟩ := rtlApply_ok scratch stands.lineAt
        (fun e member => nonzero e (by simp [member])) le_rfl (fun _ => le_rfl)
      obtain ⟨stands', within⟩ := rewritten.textAt stands
      exact ⟨after, didTransform, apply, stands', within⟩

variable {body spaces behind : List Char} {moreText : Bool} {lineEnd1 lineEnd2 : Int}

/-- `render_rtl_step` reorders the line without its trailing spaces. -/
theorem renderRtlStep_ok (sram : sramBase ≤ lineStart)
    (stands : TextAt m lineStart (body ++ spaces ++ behind))
    (nonzero : ∀ c ∈ body ++ spaces ++ behind, runeValue c ≠ 0) (blank : ∀ c ∈ spaces, c = ' ')
    (ends : ∀ c ∈ body.getLast?, c ≠ ' ')
    (lineEnd : (if moreText then lineEnd1 else lineEnd2) =
      lineStart + byteLength (body ++ spaces)) :
    ∃ after, renderRtlStep tables m lineStart moreText lineEnd1 lineEnd2 = .ok after ∧
      TextAt after lineStart ((tables.directions scratch).reorder body ++ spaces ++ behind) ∧
      StoresWithin lineStart (lineStart + byteLength (body ++ spaces ++ behind)) m after := by
  rw [renderRtlStep, if_pos sram]
  cases whole : body ++ spaces ++ behind with
  | nil =>
      obtain ⟨⟨rfl, rfl⟩, rfl⟩ : (body = [] ∧ spaces = []) ∧ behind = [] := by
        simpa [and_assoc] using whole
      have terminator := stands.load_terminator
      simp only [List.append_nil, byteLength_nil, Nat.cast_zero, add_zero] at terminator
      refine ⟨m, ?_, stands, .refl _ _ m⟩
      rw [terminator]
      rfl
  | cons c chars =>
      have first : TextAt m lineStart ([] ++ c :: chars) := by rw [← whole]; exact stands
      have firstNonzero : c ≠ '\x00' := nonzero_of_runeValue (nonzero c (by simp [whole]))
      obtain ⟨byte, load, byteNonzero⟩ := first.load_lead firstNonzero
      simp only [byteLength_nil, Nat.cast_zero, add_zero] at load
      have fuel : (lineStart + (byteLength (body ++ spaces) : Int) - lineStart).toNat =
          byteLength (body ++ spaces) := by omega
      have enough : spaces.length + 1 ≤ byteLength (body ++ spaces) + 1 := by
        have := length_le_byteLength spaces
        rw [byteLength_append]
        omega
      have trim := trimLine_ok stands.lineAt blank ends enough
      rw [List.append_assoc] at stands
      obtain ⟨after, didTransform, apply, stands', within⟩ := rtlApply_front scratch stands
        (by rw [← List.append_assoc, whole]; simp)
        (fun e member => nonzero e (by simp [member]))
      rw [← List.append_assoc] at stands' within
      refine ⟨after, ?_, stands', by rwa [← whole]⟩
      rw [load]
      simp only [bind, Except.bind, ne_eq, byteNonzero, not_false_eq_true, if_true, lineEnd, fuel,
        trim, apply]

end Step

/-! ## Both calls -/

/-- The line `[lineStart, lineEnd)` is restored by the second call of `render_rtl_step`. -/
def RestoresLine (tables : ShaperTables) (m : Memory) (lineStart : Int) (moreText : Bool)
    (lineEnd1 lineEnd2 : Int) : Prop :=
  ∃ drawn restored, renderRtlStep tables m lineStart moreText lineEnd1 lineEnd2 = .ok drawn ∧
    renderRtlStep tables drawn lineStart moreText lineEnd1 lineEnd2 = .ok restored ∧
    restored.byte = m.byte

section Twice

variable {tables : ShaperTables} (scratch : tables.RecyclesScratch) {body : List Char}

theorem reorder_nonzero (nonzero : ∀ c ∈ body, runeValue c ≠ 0) :
    ∀ c ∈ (tables.directions scratch).reorder body, runeValue c ≠ 0 := by
  have mirrors (c : Char) : decide (runeValue (mirrored c) ≠ 0) = decide (runeValue c ≠ 0) := by
    by_cases bracket : c ∈ brackets
    · revert c
      decide
    · rw [mirrored_of_not_bracket bracket]
  intro c member
  exact of_decide_eq_true (Directions.forall_mem_reorder mirrors
    (fun e inBody => decide_eq_true (nonzero e inBody)) c member)

theorem reorder_ends (ends : ∀ c ∈ body.getLast?, c ≠ ' ') :
    ∀ c ∈ ((tables.directions scratch).reorder body).getLast?, c ≠ ' ' := by
  rintro c last rfl
  rcases Directions.getLast_reorder last with same | rtl
  · exact ends ' ' same rfl
  · have notRtl : tables.isRtl (runeValue ' ') = false := not_rtl_of_lt scratch (by decide)
    rw [show (tables.directions scratch).rtl ' ' = tables.isRtl (runeValue ' ') from rfl,
      notRtl] at rtl
    cases rtl

theorem byteLength_reorder (body : List Char) :
    byteLength ((tables.directions scratch).reorder body) = byteLength body := by
  have sizes : (((tables.directions scratch).reorder body).map Char.utf8Size).Perm _ :=
    Directions.map_reorder_perm mirrored_size body
  rw [byteLength_eq_sum, byteLength_eq_sum, sizes.sum_eq]

theorem append_nonzero {chars again behind : List Char}
    (nonzero : ∀ c ∈ chars ++ behind, runeValue c ≠ 0) (same : ∀ c ∈ again, runeValue c ≠ 0) :
    ∀ c ∈ again ++ behind, runeValue c ≠ 0 := by
  intro c member
  rcases List.mem_append.mp member with inAgain | inBehind
  · exact same c inAgain
  · exact nonzero c (List.mem_append_right _ inBehind)

variable {m : Memory} {lineStart : Int} {spaces behind : List Char} {moreText : Bool}
  {lineEnd1 lineEnd2 : Int}

/-- The two calls on a line whose trailing spaces are split off reorder what stands
before them twice. -/
theorem renderRtlStep_twice (sram : sramBase ≤ lineStart)
    (stands : TextAt m lineStart (body ++ spaces ++ behind))
    (nonzero : ∀ c ∈ body ++ spaces ++ behind, runeValue c ≠ 0) (blank : ∀ c ∈ spaces, c = ' ')
    (ends : ∀ c ∈ body.getLast?, c ≠ ' ')
    (lineEnd : (if moreText then lineEnd1 else lineEnd2) =
      lineStart + byteLength (body ++ spaces)) :
    ∃ drawn restored, renderRtlStep tables m lineStart moreText lineEnd1 lineEnd2 = .ok drawn ∧
      renderRtlStep tables drawn lineStart moreText lineEnd1 lineEnd2 = .ok restored ∧
      TextAt restored lineStart ((tables.directions scratch).reorder
        ((tables.directions scratch).reorder body) ++ spaces ++ behind) ∧
      StoresWithin lineStart (lineStart + byteLength (body ++ spaces ++ behind)) m restored := by
  obtain ⟨drawn, draw, drawnStands, drawnWithin⟩ :=
    renderRtlStep_ok scratch sram stands nonzero blank ends lineEnd
  have lengthEq := byteLength_reorder scratch body
  have drawnNonzero : ∀ c ∈ (tables.directions scratch).reorder body ++ spaces ++ behind,
      runeValue c ≠ 0 := by
    rw [List.append_assoc] at nonzero ⊢
    exact append_nonzero nonzero
      (reorder_nonzero scratch fun c inBody => nonzero c (List.mem_append_left _ inBody))
  obtain ⟨restored, restore, restoredStands, restoredWithin⟩ :=
    renderRtlStep_ok scratch sram drawnStands drawnNonzero blank (reorder_ends scratch ends)
      (by rw [lineEnd, byteLength_append, byteLength_append, lengthEq])
  refine ⟨drawn, restored, draw, restore, restoredStands, drawnWithin.trans ?_⟩
  rw [byteLength_append, byteLength_append, lengthEq, ← byteLength_append,
    ← byteLength_append] at restoredWithin
  exact restoredWithin

theorem restoresLine_trimmed_iff (sram : sramBase ≤ lineStart)
    (stands : TextAt m lineStart (body ++ spaces ++ behind))
    (nonzero : ∀ c ∈ body ++ spaces ++ behind, runeValue c ≠ 0) (blank : ∀ c ∈ spaces, c = ' ')
    (ends : ∀ c ∈ body.getLast?, c ≠ ' ')
    (lineEnd : (if moreText then lineEnd1 else lineEnd2) =
      lineStart + byteLength (body ++ spaces)) :
    RestoresLine tables m lineStart moreText lineEnd1 lineEnd2 ↔
      (tables.directions scratch).Restored body := by
  obtain ⟨drawn, restored, draw, restore, restoredStands, within⟩ :=
    renderRtlStep_twice scratch sram stands nonzero blank ends lineEnd
  rw [← Directions.reorder_reorder_iff]
  constructor
  · rintro ⟨drawn', restored', draw', restore', same⟩
    obtain rfl := Except.ok.inj (draw.symm.trans draw')
    obtain rfl := Except.ok.inj (restore.symm.trans restore')
    have original : TextAt restored lineStart (body ++ spaces ++ behind) := by
      refine ⟨by rw [same]; exact stands.spelled, ?_, ?_⟩
      · rw [within.low_eq]
        exact stands.low_le
      · rw [within.high_eq]
        exact stands.high_gt
    rw [List.append_assoc] at nonzero original restoredStands
    have restoredNonzero := append_nonzero nonzero (reorder_nonzero scratch
      (reorder_nonzero scratch fun c inBody => nonzero c (List.mem_append_left _ inBody)))
    have equal := restoredStands.unique original
      (fun c member => nonzero_of_runeValue (restoredNonzero c member))
      fun c member => nonzero_of_runeValue (nonzero c member)
    exact List.append_cancel_right equal
  · intro same
    rw [same] at restoredStands
    exact ⟨drawn, restored, draw, restore, restoredStands.byte_eq stands within⟩

variable {text : Int} {before line : List Char}

/-- A line is restored exactly when reordering twice restores the line without its
trailing spaces. -/
theorem restoresLine_iff (stands : TextAt m text (before ++ line ++ behind))
    (plane : ∀ c ∈ before ++ line ++ behind, c ≠ '\x00' ∧ c.toNat < 0x10000)
    (sram : sramBase ≤ text)
    (lineEnd : (if moreText then lineEnd1 else lineEnd2) =
      text + byteLength before + byteLength line) :
    RestoresLine tables m (text + byteLength before) moreText lineEnd1 lineEnd2 ↔
      (tables.directions scratch).Restored (line.rdropWhile (· == ' ')) := by
  rw [List.append_assoc] at stands
  have nonzero : ∀ c ∈ line ++ behind, runeValue c ≠ 0 := by
    intro c member
    obtain ⟨notZero, small⟩ := plane c (by simp at member ⊢; tauto)
    rw [runeValue_of_lt small]
    exact fun zero => notZero (Char.toNat_inj.mp zero)
  have blank : ∀ c ∈ line.rtakeWhile (· == ' '), c = ' ' :=
    fun c member => by simpa using List.mem_rtakeWhile_imp member
  have ends : ∀ c ∈ (line.rdropWhile (· == ' ')).getLast?, c ≠ ' ' := by
    intro c last
    obtain ⟨init, eq⟩ := List.getLast?_eq_some_iff.mp last
    have spaceless := List.rdropWhile_last_not (· == ' ') line (by simp [eq])
    simpa [eq] using spaceless
  have split : line.rdropWhile (· == ' ') ++ line.rtakeWhile (· == ' ') = line :=
    List.rdropWhile_append_rtakeWhile
  exact restoresLine_trimmed_iff scratch (by omega) (by rw [split]; exact stands.drop)
    (by rwa [split]) blank ends (by rwa [split])

end Twice

/-- With generated tables, drawing and restoring a line of a text of the basic plane in
SRAM gives the text back exactly when the trimmed line is `Directions.Restored`. -/
theorem renderRtlStep_restores_iff {unicodedataName : Char → Option String} {forms : FormsTable}
    {tables : ShaperTables} (run : generateTables unicodedataName forms.items = .ok tables)
    {m : Memory} {text : Int} {before line behind : List Char}
    (stands : TextAt m text (before ++ line ++ behind))
    (plane : ∀ c ∈ before ++ line ++ behind, c ≠ '\x00' ∧ c.toNat < 0x10000)
    (sram : sramBase ≤ text) {moreText : Bool} {lineEnd1 lineEnd2 : Int}
    (lineEnd : (if moreText then lineEnd1 else lineEnd2) =
      text + byteLength before + byteLength line) :
    RestoresLine tables m (text + byteLength before) moreText lineEnd1 lineEnd2 ↔
      (tables.directions (generateTables_recyclesScratch run)).Restored
        (line.rdropWhile (· == ' ')) :=
  restoresLine_iff _ stands plane sram lineEnd

/-- Words with brackets and with a numeral right behind a letter. -/
def quotedLine : List Char :=
  ['א', '1', '2', 'ב', ' ', '(', 'ג', ')', ' ', 'ד', ' ', ' ']

theorem renderRtlStep_restores_quotedLine :
    RestoresLine lamAlefTables (.ofBytes sramBase (encode (['a'] ++ quotedLine ++ ['b']) ++ [0]))
      (sramBase + byteLength ['a']) true (sramBase + byteLength ['a'] + byteLength quotedLine)
      0 := by
  have stands := textAt_ofBytes sramBase (['a'] ++ quotedLine ++ ['b'])
  exact (renderRtlStep_restores_iff generateTables_lamAlefForms stands (by decide) (by decide)
    rfl).mpr (by decide)

/-- A letter followed by an exclamation mark at the end of the line. -/
def exclamation : List Char :=
  ['ש', '!']

theorem not_restoresLine_exclamation :
    TextAt (.ofBytes sramBase (encode ([] ++ exclamation ++ []) ++ [0])) sramBase
        ([] ++ exclamation ++ []) ∧
      ¬ RestoresLine lamAlefTables
        (.ofBytes sramBase (encode ([] ++ exclamation ++ []) ++ [0])) (sramBase + byteLength [])
        false 0 (sramBase + byteLength [] + byteLength exclamation) := by
  have stands := textAt_ofBytes sramBase ([] ++ exclamation ++ [])
  refine ⟨stands, ?_⟩
  rw [restoresLine_iff (generateTables_recyclesScratch generateTables_lamAlefForms) stands
    (by decide) (by decide) rfl]
  decide

end Elbbep
