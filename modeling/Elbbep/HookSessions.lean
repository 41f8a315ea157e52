import Elbbep.ParagraphAlignment
import Elbbep.RenderedLine
import Elbbep.ShapeIdempotence
import Elbbep.ShapeRoundTrip
import Elbbep.TextHooks

/-!
# Sessions with the patched firmware

Any number of calls on any number of texts, in any order.  Each text is plain or shaped, and
which of both it is depends on the last call on it alone; every other byte keeps its value.
-/

namespace Elbbep

open ByteMemory Utf8Encoding ShaperTables

/-- The tables of a patch whose letters behave: no glyph serves two keys, no letter has zero
width, ligatures consist of letters, and letters are written from right to left. -/
structure PatchTables (forms : FormsTable) (tables : ShaperTables) : Prop where
  unshared : forms.UnsharedGlyphs
  noZeroWidth : forms.NoZeroWidth
  ligaturesOfLetters : forms.LigaturesOfLetters
  rtlLetters : forms.RtlLetters tables

/-! ## Texts apart from each other -/

/-- A text and the memory that it takes up. -/
structure PlacedText where
  address : Int
  chars : List Char
  deriving DecidableEq, Repr

/-- The two texts share no byte. -/
def PlacedText.Apart (first second : PlacedText) : Prop :=
  first.address + (byteLength first.chars : Int) < second.address ∨
    second.address + (byteLength second.chars : Int) < first.address

instance (first second : PlacedText) : Decidable (first.Apart second) :=
  inferInstanceAs (Decidable (_ ∨ _))

instance : Std.Symm PlacedText.Apart where
  symm _ _ apart := apart.symm

/-- The texts of a session: in SRAM, without recycled codepoints, and no two of them overlap. -/
structure TextLayout (tables : ShaperTables) where
  texts : List PlacedText
  sram : ∀ text ∈ texts, sramBase ≤ text.address
  unrecycled : ∀ text ∈ texts, ∀ c ∈ text.chars, Unrecycled tables c
  apart : texts.Pairwise PlacedText.Apart

theorem TextAt.frame {m again : Memory} {text : Int} {chars : List Char} {low high : Int}
    (stands : TextAt m text chars) (within : StoresWithin low high m again)
    (clear : text + byteLength chars < low ∨ high ≤ text) : TextAt again text chars := by
  refine ⟨within.spells stands.spelled ?_, ?_, ?_⟩
  · rw [List.length_append, List.length_singleton, Nat.cast_add]
    change text + ((byteLength chars : Int) + ((1 : Nat) : Int)) ≤ low ∨ _
    omega
  · rw [within.low_eq]
    exact stands.low_le
  · rw [within.high_eq]
    exact stands.high_gt

/-- A text whose end is rewritten to an end of the same length. -/
theorem TextAt.replaceEnd {m again : Memory} {text : Int} {before rest rest' : List Char}
    (stands : TextAt m text (before ++ rest))
    (within : StoresWithin (text + byteLength before) (text + byteLength (before ++ rest)) m again)
    (rewritten : TextAt again (text + byteLength before) rest')
    (sameLength : byteLength rest' = byteLength rest) :
    TextAt again text (before ++ rest') := by
  obtain ⟨spelled, low, high⟩ := stands
  refine ⟨?_, ?_, ?_⟩
  · rw [encode_append, List.append_assoc, spells_append] at spelled ⊢
    exact ⟨within.spells spelled.1 (Or.inl le_rfl), rewritten.spelled⟩
  · rw [within.low_eq]
    exact low
  · rw [within.high_eq, byteLength_append, sameLength, ← byteLength_append]
    exact high

/-! ## Lines -/

/-- The render call is about the line between `before` and `behind` in the text. -/
structure IsLine (text : Int) (chars : List Char) (call : RenderCall)
    (before line behind : List Char) : Prop where
  split : chars = before ++ line ++ behind
  start : call.lineStart = text + byteLength before
  stop : (if call.moreText then call.lineEnd1 else call.lineEnd2) =
    call.lineStart + byteLength line

/-- A line as it is drawn: reordered, with its trailing spaces in place. -/
def Directions.visualLine (d : Directions Char) (line : List Char) : List Char :=
  d.reorder (line.rdropWhile (· == ' ')) ++ line.rtakeWhile (· == ' ')

theorem rdropWhile_append_spaces {body spaces : List Char} (blank : ∀ c ∈ spaces, c = ' ')
    (ends : ∀ c ∈ body.getLast?, c ≠ ' ') :
    (body ++ spaces).rdropWhile (· == ' ') = body ∧
      (body ++ spaces).rtakeWhile (· == ' ') = spaces := by
  induction spaces using List.reverseRecOn with
  | nil =>
      rw [List.append_nil, List.rdropWhile_eq_self_iff, List.rtakeWhile_eq_nil_iff, and_self]
      intro nonempty
      simpa using ends _ (List.getLast?_eq_some_getLast nonempty)
  | append_singleton spaces c ih =>
      obtain rfl : c = ' ' := blank c (by simp)
      obtain ⟨dropped, taken⟩ := ih fun d member => blank d (by simp [member])
      rw [← List.append_assoc, List.rdropWhile_concat_pos _ _ _ rfl,
        List.rtakeWhile_concat_pos _ _ _ rfl, dropped, taken]
      exact ⟨rfl, rfl⟩

theorem trimmed_append (line : List Char) :
    line.rdropWhile (· == ' ') ++ line.rtakeWhile (· == ' ') = line :=
  List.rdropWhile_append_rtakeWhile

theorem blank_rtakeWhile (line : List Char) : ∀ c ∈ line.rtakeWhile (· == ' '), c = ' ' :=
  fun c member => by simpa using List.mem_rtakeWhile_imp member

theorem ends_rdropWhile (line : List Char) :
    ∀ c ∈ (line.rdropWhile (· == ' ')).getLast?, c ≠ ' ' := by
  intro c last
  obtain ⟨init, eq⟩ := List.getLast?_eq_some_iff.mp last
  have spaceless := List.rdropWhile_last_not (· == ' ') line (by simp [eq])
  simpa [eq] using spaceless

section Lines

variable {tables : ShaperTables} (scratch : tables.RecyclesScratch)

theorem byteLength_visualLine (line : List Char) :
    byteLength ((tables.directions scratch).visualLine line) = byteLength line := by
  conv_rhs => rw [← trimmed_append line]
  rw [Directions.visualLine, byteLength_append, byteLength_reorder, byteLength_append]

/-- A line that is drawn twice stands as it was if reordering twice restores it. -/
theorem visualLine_visualLine {line : List Char}
    (restored : (tables.directions scratch).Restored (line.rdropWhile (· == ' '))) :
    (tables.directions scratch).visualLine ((tables.directions scratch).visualLine line) =
      line := by
  obtain ⟨dropped, taken⟩ := rdropWhile_append_spaces (blank_rtakeWhile line)
    (reorder_ends scratch (ends_rdropWhile line))
  rw [Directions.visualLine, Directions.visualLine, dropped, taken,
    (Directions.reorder_reorder_iff _).mpr restored, trimmed_append]

theorem visualLine_nonzero {line : List Char} (nonzero : ∀ c ∈ line, runeValue c ≠ 0) :
    ∀ c ∈ (tables.directions scratch).visualLine line, runeValue c ≠ 0 := by
  have whole := trimmed_append line
  intro c member
  rcases List.mem_append.mp member with inBody | inSpaces
  · apply reorder_nonzero scratch _ c inBody
    exact fun d inLine => nonzero d (by rw [← whole]; exact List.mem_append_left _ inLine)
  · exact nonzero c (by rw [← whole]; exact List.mem_append_right _ inSpaces)

variable {m : Memory} {text : Int} {chars before line behind : List Char} {call : RenderCall}

/-- One call of `render_rtl_step`. -/
theorem IsLine.draw (isLine : IsLine text chars call before line behind)
    (sram : sramBase ≤ text) (stands : TextAt m text chars)
    (nonzero : ∀ c ∈ chars, runeValue c ≠ 0) :
    ∃ drawn, renderRtlStep tables m call.lineStart call.moreText call.lineEnd1 call.lineEnd2 =
        .ok drawn ∧
      TextAt drawn text (before ++ (tables.directions scratch).visualLine line ++ behind) ∧
      StoresWithin text (text + byteLength chars) m drawn := by
  obtain ⟨split, start, stop⟩ := isLine
  rw [split, List.append_assoc before line behind] at stands nonzero ⊢
  have whole := trimmed_append line
  have sramLine : sramBase ≤ call.lineStart := by omega
  obtain ⟨drawn, run, drawnStands, within⟩ := renderRtlStep_ok scratch sramLine
    (by rw [whole, start]; exact stands.drop)
    (by rw [whole]; exact fun c member => nonzero c (List.mem_append_right _ member))
    (blank_rtakeWhile line) (ends_rdropWhile line) (by rw [whole]; exact stop)
  have lineStop : text + (byteLength before : Int) + (byteLength (line ++ behind) : Int) =
      text + (byteLength (before ++ (line ++ behind)) : Int) := by
    rw [byteLength_append before, Nat.cast_add]
    ring
  rw [whole, start, lineStop] at within
  rw [start] at drawnStands
  refine ⟨drawn, run, ?_, within.mono (by omega) le_rfl⟩
  rw [List.append_assoc]
  apply stands.replaceEnd within drawnStands
  rw [byteLength_append, byteLength_append line, ← byteLength_visualLine scratch line]
  rfl

/-- Both calls, on a line that reordering twice restores. -/
theorem IsLine.wrap (isLine : IsLine text chars call before line behind)
    (sram : sramBase ≤ text) (stands : TextAt m text chars)
    (nonzero : ∀ c ∈ chars, runeValue c ≠ 0)
    (restored : (tables.directions scratch).Restored (line.rdropWhile (· == ' '))) :
    ∃ seen after, renderWrap tables m call = .ok (seen, after) ∧
      (∀ before line behind, IsLine text chars call before line behind →
        TextAt seen text (before ++ (tables.directions scratch).visualLine line ++ behind)) ∧
      TextAt after text chars ∧ StoresWithin text (text + byteLength chars) m after := by
  obtain ⟨seen, draw, seenStands, within⟩ := isLine.draw scratch sram stands nonzero
  have again : IsLine text (before ++ (tables.directions scratch).visualLine line ++ behind) call
      before ((tables.directions scratch).visualLine line) behind :=
    ⟨rfl, isLine.start, by rw [byteLength_visualLine]; exact isLine.stop⟩
  have seenNonzero : ∀ c ∈ before ++ (tables.directions scratch).visualLine line ++ behind,
      runeValue c ≠ 0 := by
    rw [isLine.split] at nonzero
    intro c member
    rcases List.mem_append.mp member with front | inBehind
    · rcases List.mem_append.mp front with inBefore | inLine
      · exact nonzero c (by simp [inBefore])
      · exact visualLine_nonzero scratch (fun d old => nonzero d (by simp [old])) c inLine
    · exact nonzero c (by simp [inBehind])
  obtain ⟨after, restore, afterStands, more⟩ := again.draw scratch sram seenStands seenNonzero
  rw [visualLine_visualLine scratch restored, ← isLine.split] at afterStands
  have sameLength : byteLength (before ++ (tables.directions scratch).visualLine line ++ behind) =
      byteLength chars := by
    rw [isLine.split]
    simp only [byteLength_append, byteLength_visualLine]
  rw [sameLength] at more
  refine ⟨seen, after, ?_, ?_, afterStands, within.trans more⟩
  · simp only [renderWrap, draw, restore, bind, Except.bind]
  · intro before line behind other
    obtain ⟨drawn, draw', drawnStands, -⟩ := other.draw scratch sram stands nonzero
    obtain rfl := Except.ok.inj (draw.symm.trans draw')
    exact drawnStands

/-- The lines of one text that are drawn, each restored by its second reordering. -/
def LinesRestored (text : Int) (chars : List Char) (calls : List RenderCall) : Prop :=
  ∀ call ∈ calls, ∃ before line behind, IsLine text chars call before line behind ∧
    (tables.directions scratch).Restored (line.rdropWhile (· == ' '))

/-- The handler finds its line reordered and the rest of the text as it is. -/
def ShowsLine (text : Int) (chars : List Char) (call : RenderCall) (seen : Memory) : Prop :=
  ∀ before line behind, IsLine text chars call before line behind →
    TextAt seen text (before ++ (tables.directions scratch).visualLine line ++ behind)

theorem renderLines_ok {calls : List RenderCall}
    (lines : LinesRestored scratch text chars calls) (sram : sramBase ≤ text)
    (stands : TextAt m text chars) (nonzero : ∀ c ∈ chars, runeValue c ≠ 0) :
    ∃ seen after, renderLines tables calls m = .ok (seen, after) ∧
      List.Forall₂ (ShowsLine scratch text chars) calls seen ∧
      TextAt after text chars ∧ StoresWithin text (text + byteLength chars) m after := by
  induction calls generalizing m with
  | nil => exact ⟨[], m, rfl, .nil, stands, .refl _ _ m⟩
  | cons call calls ih =>
      obtain ⟨before, line, behind, isLine, restored⟩ := lines call List.mem_cons_self
      obtain ⟨seen, middle, wrap, shows, middleStands, within⟩ :=
        isLine.wrap scratch sram stands nonzero restored
      obtain ⟨more, after, run, allShow, afterStands, moreWithin⟩ :=
        ih (fun later member => lines later (List.mem_cons_of_mem _ member)) middleStands
      refine ⟨seen :: more, after, ?_, .cons shows allShow, afterStands, within.trans moreWithin⟩
      simp only [renderLines, wrap, run, bind, Except.bind]

end Lines

/-! ## One hook -/

theorem unrecycled_plane {tables : ShaperTables} {chars : List Char}
    (unrecycled : ∀ c ∈ chars, Unrecycled tables c) :
    ∀ c ∈ chars, c ≠ '\x00' ∧ c.toNat < 0x10000 :=
  fun c member => ⟨(unrecycled c member).nonzero, (unrecycled c member).plane⟩

/-- What stands in memory for a text. -/
def ShaperTables.standing (tables : ShaperTables) (shaped : Bool) (chars : List Char) :
    List Char :=
  if shaped then tables.shapeChars chars else chars

section Hooks

variable {forms : FormsTable} {packed : PackState}
  {pairs : List (CharacterForms × ShaperLUTEntry)} {tables : ShaperTables}
  (generated : GeneratedTables forms packed pairs tables) (patch : PatchTables forms tables)
  {m : Memory} {text : Int} {chars : List Char} (unrecycled : ∀ c ∈ chars, Unrecycled tables c)

include generated unrecycled

theorem GeneratedTables.byteLength_shapeChars :
    byteLength (tables.shapeChars chars) = byteLength chars := by
  rw [byteLength_eq_sum, shapeChars_sizes generated.sound
    (generated.shapable (unrecycled_plane unrecycled)), ← byteLength_eq_sum]

theorem GeneratedTables.byteLength_standing (shaped : Bool) :
    byteLength (tables.standing shaped chars) = byteLength chars := by
  cases shaped with
  | false => rfl
  | true => exact generated.byteLength_shapeChars unrecycled

theorem GeneratedTables.standing_plane (shaped : Bool) :
    ∀ c ∈ tables.standing shaped chars, c ≠ '\x00' ∧ c.toNat < 0x10000 := by
  have plane := unrecycled_plane unrecycled
  cases shaped with
  | false => exact plane
  | true => exact generated.shapeChars_plane plane

include patch

/-- Whether a text is shaped already or not, shaping leaves it shaped. -/
theorem GeneratedTables.shapeText_standing {shaped : Bool}
    (stands : TextAt m text (tables.standing shaped chars)) :
    ∃ seen, shapeText tables m text = .ok seen ∧ TextAt seen text (tables.shapeChars chars) ∧
      StoresWithin text (text + byteLength chars) m seen := by
  obtain ⟨seen, run, seenStands, writes⟩ := shapeText_spec generated.sound
    (generated.shapable (generated.standing_plane unrecycled shaped)) stands
  have within := writes.withinText
  rw [generated.byteLength_standing unrecycled] at within
  refine ⟨seen, run, ?_, within⟩
  cases shaped with
  | false => exact seenStands
  | true =>
      have settled := generated.settled_shapeChars patch.noZeroWidth patch.ligaturesOfLetters chars
      have again : tables.shapeChars (tables.shapeChars chars) = tables.shapeChars chars :=
        shapeChars_of_settled settled
      rw [← again]
      exact seenStands

/-- Unshaping gives the text back. -/
theorem GeneratedTables.unshapeAfter_shaped (unshape : Bool)
    (stands : TextAt m text (tables.shapeChars chars)) :
    ∃ after, unshapeAfter tables unshape m text = .ok after ∧
      TextAt after text (tables.standing (!unshape) chars) ∧
      StoresWithin text (text + byteLength chars) m after := by
  cases unshape with
  | false => exact ⟨m, rfl, stands, .refl _ _ m⟩
  | true =>
      have plane := generated.shapeChars_plane (unrecycled_plane unrecycled)
      obtain ⟨after, run, afterStands, -, writes⟩ := unshapeText_spec generated.restores
        (generated.restorable plane)
        (generated.expansionsFit_shapeChars patch.unshared unrecycled) stands
      rw [generated.unshapeChars_shapeChars patch.unshared unrecycled] at afterStands
      have within := writes.withinText
      rw [generated.byteLength_shapeChars unrecycled] at within
      exact ⟨after, run, afterStands, within⟩

/-- Measuring: the firmware finds the shaped text, and the text stays shaped where nothing
unshapes it. -/
theorem GeneratedTables.contentSizePatch_ok {shaped : Bool} (unshape : Bool) (overflowMode : Nat)
    (stands : TextAt m text (tables.standing shaped chars)) :
    ∃ seen after, contentSizePatch tables unshape m text overflowMode = .ok (seen, after) ∧
      TextAt seen text (tables.shapeChars chars) ∧
      TextAt after text
        (tables.standing (!(unshape && overflowMode != diagnosticsCookie)) chars) ∧
      StoresWithin text (text + byteLength chars) m after := by
  obtain ⟨seen, shape, seenStands, within⟩ :=
    generated.shapeText_standing patch unrecycled stands
  obtain ⟨after, restore, afterStands, more⟩ := generated.unshapeAfter_shaped patch unrecycled
    (unshape && overflowMode != diagnosticsCookie) seenStands
  refine ⟨seen, after, ?_, seenStands, afterStands, within.trans more⟩
  simp only [contentSizePatch, shape, restore, bind, Except.bind]

/-- Drawing: the firmware is given the shaped text and the alignment of the plain text, and
every handler finds its line reordered. -/
theorem GeneratedTables.drawTextPatch_ok {shaped : Bool} (unshape : Bool)
    (alignment : GTextAlignment) {calls : List RenderCall} (sram : sramBase ≤ text)
    (lines : LinesRestored generated.recyclesScratch text (tables.shapeChars chars) calls)
    (stands : TextAt m text (tables.standing shaped chars)) :
    ∃ drawing after, drawTextPatch tables unshape m text alignment calls = .ok (drawing, after) ∧
      drawing.alignment =
        (if alignment = .left then tables.firstOpinion alignment chars else alignment) ∧
      TextAt drawing.seen text (tables.shapeChars chars) ∧
      List.Forall₂ (ShowsLine generated.recyclesScratch text (tables.shapeChars chars)) calls
        drawing.lines ∧
      TextAt after text (tables.standing (!unshape) chars) ∧
      StoresWithin text (text + byteLength chars) m after := by
  obtain ⟨seen, shape, seenStands, within⟩ :=
    generated.shapeText_standing patch unrecycled stands
  have plane := generated.shapeChars_plane (unrecycled_plane unrecycled)
  have align : gdtAlignmentStep tables seen text alignment = .ok (if alignment = .left then
      tables.firstOpinion alignment chars else alignment) := by
    rw [← generated.firstOpinion_shapeChars patch.rtlLetters]
    exact gdtAlignmentStep_eq seenStands fun c member => (plane c member).1
  have nonzero : ∀ c ∈ tables.shapeChars chars, runeValue c ≠ 0 := by
    intro c member
    rw [runeValue_of_lt (plane c member).2]
    exact fun zero => (plane c member).1 (Char.toNat_inj.mp zero)
  obtain ⟨handlers, middle, run, shows, middleStands, more⟩ :=
    renderLines_ok generated.recyclesScratch lines sram seenStands nonzero
  rw [generated.byteLength_shapeChars unrecycled] at more
  obtain ⟨after, restore, afterStands, last⟩ :=
    generated.unshapeAfter_shaped patch unrecycled unshape middleStands
  refine ⟨⟨if alignment = .left then tables.firstOpinion alignment chars else alignment, seen,
    handlers⟩, after, ?_, rfl, seenStands, shows, afterStands, (within.trans more).trans last⟩
  simp only [drawTextPatch, shape, align, run, restore, bind, Except.bind]

end Hooks

/-! ## Sessions -/

/-- Whether the text of a call is shaped when the call returns. -/
def HookCall.leavesShaped (unshape : Bool) : HookCall → Bool
  | .contentSize _ overflowMode => !(unshape && overflowMode != diagnosticsCookie)
  | .drawText _ _ _ => !unshape

/-- The abstract session: which texts are shaped, by their addresses. -/
def shapedAfter (unshape : Bool) (shaped : Int → Bool) (call : HookCall) : Int → Bool :=
  Function.update shaped call.text (call.leavesShaped unshape)

namespace TextLayout

variable {tables : ShaperTables} (layout : TextLayout tables) (scratch : tables.RecyclesScratch)

/-- Every text of the layout stands as the abstract session says, and every byte that belongs to
no text is as it was at the start. -/
structure Holds (start m : Memory) (shaped : Int → Bool) : Prop where
  texts : ∀ text ∈ layout.texts,
    TextAt m text.address (tables.standing (shaped text.address) text.chars)
  elsewhere : ∀ a, (∀ text ∈ layout.texts,
      a < text.address ∨ text.address + byteLength text.chars ≤ a) → m.byte a = start.byte a

/-- A call on a text of the layout whose lines are all restored. -/
def Allows (call : HookCall) : Prop :=
  ∃ text ∈ layout.texts, call.text = text.address ∧
    ∀ address alignment calls, call = .drawText address alignment calls →
      LinesRestored scratch text.address (tables.shapeChars text.chars) calls

/-- What the firmware has to find: the shaped text, the alignment of the plain text, and in every
handler the line of that handler reordered. -/
def Finds (text : PlacedText) : HookCall → Observation → Prop
  | .contentSize _ _, .measured seen => TextAt seen text.address (tables.shapeChars text.chars)
  | .drawText _ alignment calls, .drawn drawing =>
      drawing.alignment =
        (if alignment = .left then tables.firstOpinion alignment text.chars else alignment) ∧
      TextAt drawing.seen text.address (tables.shapeChars text.chars) ∧
      List.Forall₂ (ShowsLine scratch text.address (tables.shapeChars text.chars)) calls
        drawing.lines
  | _, _ => False

variable {layout}

theorem Holds.texts_apart {start m : Memory} {shaped : Int → Bool} {again : Memory}
    (holds : layout.Holds start m shaped) {text : PlacedText} (member : text ∈ layout.texts)
    {left : Bool} (stands : TextAt again text.address (tables.standing left text.chars))
    (within : StoresWithin text.address (text.address + byteLength text.chars) m again)
    (sameLength : ∀ other ∈ layout.texts, ∀ shaped,
      byteLength (tables.standing shaped other.chars) = byteLength other.chars) :
    layout.Holds start again (Function.update shaped text.address left) := by
  refine ⟨?_, ?_⟩
  · intro other otherMember
    by_cases same : other = text
    · rw [same, Function.update_self]
      exact stands
    · have apart : other.Apart text := layout.apart.forall otherMember member same
      have different : other.address ≠ text.address := by
        unfold PlacedText.Apart at apart
        omega
      rw [Function.update_of_ne different]
      apply (holds.texts other otherMember).frame within
      rw [sameLength other otherMember]
      unfold PlacedText.Apart at apart
      omega
  · intro a outside
    rw [within.byte_eq a (outside text member)]
    exact holds.elsewhere a outside

end TextLayout

section Sessions

variable {forms : FormsTable} {packed : PackState}
  {pairs : List (CharacterForms × ShaperLUTEntry)} {tables : ShaperTables}
  (generated : GeneratedTables forms packed pairs tables) (patch : PatchTables forms tables)
  {layout : TextLayout tables} {start m : Memory} {shaped : Int → Bool} (unshape : Bool)

include generated patch

/-- One call takes the session where the abstract session goes. -/
theorem GeneratedTables.runHook_ok (holds : layout.Holds start m shaped) {call : HookCall}
    (allowed : layout.Allows generated.recyclesScratch call) :
    ∃ observation after, runHook tables unshape m call = .ok (observation, after) ∧
      (∀ text ∈ layout.texts, call.text = text.address →
        TextLayout.Finds generated.recyclesScratch text call observation) ∧
      layout.Holds start after (shapedAfter unshape shaped call) := by
  obtain ⟨text, member, address, lines⟩ := allowed
  have sameLength : ∀ other ∈ layout.texts, ∀ shaped,
      byteLength (tables.standing shaped other.chars) = byteLength other.chars :=
    fun other otherMember shaped =>
      generated.byteLength_standing (layout.unrecycled other otherMember) shaped
  have only : ∀ other ∈ layout.texts, call.text = other.address → other = text := by
    intro other otherMember otherAddress
    by_contra different
    have apart : other.Apart text := layout.apart.forall otherMember member different
    unfold PlacedText.Apart at apart
    omega
  cases call with
  | contentSize textAddress overflowMode =>
      obtain rfl : textAddress = text.address := address
      obtain ⟨seen, after, run, seenStands, afterStands, within⟩ := generated.contentSizePatch_ok
        patch (layout.unrecycled text member) unshape overflowMode (holds.texts text member)
      refine ⟨.measured seen, after, ?_, ?_, ?_⟩
      · simp only [runHook, run, bind, Except.bind]
      · intro other otherMember same
        obtain rfl := only other otherMember same
        exact seenStands
      · exact holds.texts_apart member afterStands within sameLength
  | drawText textAddress alignment calls =>
      obtain rfl : textAddress = text.address := address
      obtain ⟨drawing, after, run, aligned, seenStands, shows, afterStands, within⟩ :=
        generated.drawTextPatch_ok patch (layout.unrecycled text member) unshape alignment
          (layout.sram text member) (lines _ _ _ rfl) (holds.texts text member)
      refine ⟨.drawn drawing, after, ?_, ?_, ?_⟩
      · simp only [runHook, run, bind, Except.bind]
      · intro other otherMember same
        obtain rfl := only other otherMember same
        exact ⟨aligned, seenStands, shows⟩
      · exact holds.texts_apart member afterStands within sameLength

/-- Every session goes where the abstract session goes. -/
theorem GeneratedTables.runHooks_ok {calls : List HookCall}
    (allowed : ∀ call ∈ calls, layout.Allows generated.recyclesScratch call)
    (holds : layout.Holds start m shaped) :
    ∃ observations after, runHooks tables unshape calls m = .ok (observations, after) ∧
      List.Forall₂ (fun call observation => ∀ text ∈ layout.texts, call.text = text.address →
        TextLayout.Finds generated.recyclesScratch text call observation) calls observations ∧
      layout.Holds start after (calls.foldl (shapedAfter unshape) shaped) := by
  induction calls generalizing m shaped with
  | nil => exact ⟨[], m, rfl, .nil, holds⟩
  | cons call calls ih =>
      obtain ⟨observation, middle, run, finds, middleHolds⟩ :=
        generated.runHook_ok patch unshape holds (allowed call List.mem_cons_self)
      obtain ⟨more, after, runMore, allFind, afterHolds⟩ :=
        ih (fun later member => allowed later (List.mem_cons_of_mem _ member)) middleHolds
      refine ⟨observation :: more, after, ?_, .cons finds allFind, afterHolds⟩
      simp only [runHooks, run, runMore, bind, Except.bind]

end Sessions

/-- How the last call on the text at `address` leaves it. -/
def leftShaped (unshape : Bool) (calls : List HookCall) (address : Int) : Bool :=
  ((calls.filter fun call => call.text = address).getLast?.map (HookCall.leavesShaped unshape)).getD
    false

theorem foldl_shapedAfter (unshape : Bool) (calls : List HookCall) (address : Int) :
    calls.foldl (shapedAfter unshape) (fun _ => false) address =
      leftShaped unshape calls address := by
  induction calls using List.reverseRecOn with
  | nil => rfl
  | append_singleton calls call ih =>
      rw [List.foldl_concat, shapedAfter, leftShaped, List.filter_append]
      by_cases same : call.text = address
      · simp [same]
      · rw [Function.update_of_ne (Ne.symm same), ih, leftShaped]
        simp [same]

/-- Every session of measuring and drawing runs through.  The firmware always finds the shaped
text, the alignment of the plain text and the reordered line; in the end each text is shaped
exactly if the last call on it has left it so, and no other byte has changed. -/
theorem runHooks_refines {unicodedataName : Char → Option String} {forms : FormsTable}
    {tables : ShaperTables} (run : generateTables unicodedataName forms.items = .ok tables)
    (patch : PatchTables forms tables) (layout : TextLayout tables) {m : Memory}
    (plain : ∀ text ∈ layout.texts, TextAt m text.address text.chars) (unshape : Bool)
    {calls : List HookCall}
    (allowed : ∀ call ∈ calls, layout.Allows (generateTables_recyclesScratch run) call) :
    ∃ observations after, runHooks tables unshape calls m = .ok (observations, after) ∧
      List.Forall₂ (fun call observation => ∀ text ∈ layout.texts, call.text = text.address →
        TextLayout.Finds (generateTables_recyclesScratch run) text call observation)
        calls observations ∧
      (∀ text ∈ layout.texts, TextAt after text.address
        (if leftShaped unshape calls text.address then tables.shapeChars text.chars
          else text.chars)) ∧
      ∀ a, (∀ text ∈ layout.texts, a < text.address ∨ text.address + byteLength text.chars ≤ a) →
        after.byte a = m.byte a := by
  obtain ⟨packed, pairs, generated⟩ := exists_generatedTables run
  have holds : layout.Holds m m fun _ => false := ⟨plain, fun _ _ => rfl⟩
  obtain ⟨observations, after, session, finds, afterHolds⟩ :=
    generated.runHooks_ok patch unshape allowed holds
  refine ⟨observations, after, session, finds, ?_, afterHolds.elsewhere⟩
  intro text member
  rw [← foldl_shapedAfter]
  exact afterHolds.texts text member

/-- Where the platform unshapes, and unless the diagnostics app asks, no app can tell that its
texts have been measured and drawn: after every session the memory is what it was. -/
theorem runHooks_transparent {unicodedataName : Char → Option String} {forms : FormsTable}
    {tables : ShaperTables} (run : generateTables unicodedataName forms.items = .ok tables)
    (patch : PatchTables forms tables) (layout : TextLayout tables) {m : Memory}
    (plain : ∀ text ∈ layout.texts, TextAt m text.address text.chars) {platform : String}
    (unshapes : platform ≠ "aplite") {calls : List HookCall}
    (allowed : ∀ call ∈ calls, layout.Allows (generateTables_recyclesScratch run) call)
    (noCookie : ∀ text, HookCall.contentSize text diagnosticsCookie ∉ calls) :
    ∃ observations after,
      runHooks tables (textUnshape platform) calls m = .ok (observations, after) ∧
        after.byte = m.byte := by
  obtain ⟨packed, pairs, generated⟩ := exists_generatedTables run
  have unshape : textUnshape platform = true := by
    have missing : (platform == "aplite") = false := beq_eq_false_iff_ne.mpr unshapes
    simp [textUnshape, List.lookup, missing]
  have unshaped : ∀ call ∈ calls, call.leavesShaped true = false := by
    intro call member
    cases call with
    | drawText text alignment lines => rfl
    | contentSize text overflowMode =>
        have other : overflowMode ≠ diagnosticsCookie := by
          rintro rfl
          exact noCookie text member
        simp [HookCall.leavesShaped, other]
  have holds : layout.Holds m m fun _ => false := ⟨plain, fun _ _ => rfl⟩
  obtain ⟨observations, after, session, -, afterHolds⟩ :=
    generated.runHooks_ok patch (textUnshape platform) allowed holds
  refine ⟨observations, after, session, ?_⟩
  have allPlain : ∀ address, leftShaped true calls address = false := by
    intro address
    rw [leftShaped]
    cases last : (calls.filter fun call => call.text = address).getLast? with
    | none => rfl
    | some call =>
        have inCalls := List.mem_of_mem_filter (List.mem_of_getLast? last)
        simpa using unshaped call inCalls
  funext a
  by_cases outside : ∀ text ∈ layout.texts,
      a < text.address ∨ text.address + byteLength text.chars ≤ a
  · exact afterHolds.elsewhere a outside
  · rw [not_forall] at outside
    obtain ⟨text, inside⟩ := outside
    rw [Classical.not_imp] at inside
    obtain ⟨member, inside⟩ := inside
    have stands := afterHolds.texts text member
    rw [foldl_shapedAfter, unshape, allPlain] at stands
    have spelled : Spells after.byte text.address (encode text.chars ++ [0]) := stands.spelled
    have original := (plain text member).spelled
    rw [spells_append] at spelled original
    exact spelled.1.byte_eq original.1 (by omega) (by
      change a < text.address + (byteLength text.chars : Int)
      omega)

/-- Two texts next to each other. -/
def greetings : TextLayout lamAlefTables where
  texts := [⟨sramBase, lamAlefText⟩, ⟨sramBase + byteLength lamAlefText + 1, quotedLine⟩]
  sram := by decide
  unrecycled := by decide
  apart := by decide

def greetingsMemory : Memory :=
  .ofBytes sramBase (encode lamAlefText ++ [0] ++ (encode quotedLine ++ [0]))

/-- The second text is drawn as one line. -/
def greetingsCalls : List HookCall :=
  [.contentSize sramBase 0,
    .drawText (sramBase + byteLength lamAlefText + 1) .left
      [⟨sramBase + byteLength lamAlefText + 1, false, 0,
        sramBase + byteLength lamAlefText + 1 + byteLength quotedLine⟩]]

theorem greetings_plain :
    ∀ text ∈ greetings.texts, TextAt greetingsMemory text.address text.chars := by
  intro text member
  rcases List.mem_pair.mp member with rfl | rfl
  · exact ⟨by decide, by decide, by decide⟩
  · exact ⟨by decide, by decide, by decide⟩

theorem greetings_allowed : ∀ call ∈ greetingsCalls, greetings.Allows
    (generateTables_recyclesScratch generateTables_lamAlefForms) call := by
  intro call member
  rcases List.mem_pair.mp member with rfl | rfl
  · exact ⟨_, List.mem_cons_self, rfl, by simp⟩
  · refine ⟨⟨sramBase + byteLength lamAlefText + 1, quotedLine⟩, by decide, rfl, ?_⟩
    rintro _ _ _ ⟨⟩ line inLines
    obtain rfl := List.mem_singleton.mp inLines
    refine ⟨[], quotedLine, [], ⟨by decide, by decide, by decide⟩, by decide⟩

theorem greetings_patch : PatchTables lamAlefForms lamAlefTables :=
  ⟨by decide, by decide, by decide, by decide⟩

theorem runHooks_refines_greetings :
    ∃ observations after,
      runHooks lamAlefTables false greetingsCalls greetingsMemory = .ok (observations, after) ∧
        TextAt after sramBase (lamAlefTables.shapeChars lamAlefText) := by
  obtain ⟨observations, after, session, -, texts, -⟩ := runHooks_refines
    generateTables_lamAlefForms greetings_patch greetings greetings_plain false greetings_allowed
  exact ⟨observations, after, session, texts ⟨sramBase, lamAlefText⟩ List.mem_cons_self⟩

theorem runHooks_transparent_greetings :
    ∃ observations after, runHooks lamAlefTables (textUnshape "basalt") greetingsCalls
        greetingsMemory = .ok (observations, after) ∧
      after.byte = greetingsMemory.byte :=
  runHooks_transparent generateTables_lamAlefForms greetings_patch greetings greetings_plain
    (by decide) greetings_allowed (by
      intro text member
      rcases List.mem_pair.mp member with same | same
      · injection same with _ mode
        exact absurd mode (by decide)
      · cases same)

end Elbbep
