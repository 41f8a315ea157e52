import Elbbep.ContextualForms
import Elbbep.UnshapedText
import Elbbep.RtlStretches
import Elbbep.RenderedLine

/-!
# Supplementary runes

`read_utf8` accumulates a rune in 16 bits, so that a rune outside the basic plane is
taken for another one, its alias.  A rune whose alias has no class and no record is
treated like the replacement character; every other supplementary rune is reordered,
rewritten or taken for the terminator in some text.
-/

namespace Elbbep

open ByteMemory Utf8Encoding ShaperTables

/-- Runes of four bytes. -/
def isSupplementary (c : Char) : Bool :=
  0x10000 ≤ c.toNat

def replacementChar : Char := '\uFFFD'

/-- A rune with supplementary runes replaced. -/
def hidden (c : Char) : Char :=
  if isSupplementary c then replacementChar else c

/-- The runes that stand behind replacement characters, in order. -/
def replaced (chars : List Char) : List Char :=
  chars.filter fun c => hidden c == replacementChar

/-- Replacement characters exchanged, in order, for the runes behind them. -/
def putBack : (originals out : List Char) → List Char
  | original :: originals, c :: out =>
      if c = replacementChar then original :: putBack originals out
      else c :: putBack (original :: originals) out
  | [], out => out
  | _, [] => []

/-- Running on the runes `chars` leaves the runes `out`, wherever they stand.  The run is
given the runes for their extent only. -/
def ProcessesTo (run : List Char → Memory → Int → Except Fault Memory) (chars out : List Char) :
    Prop :=
  ∀ m text, TextAt m text chars → ∃ after, run chars m text = .ok after ∧ TextAt after text out

/-- Running on the runes is the same as running with supplementary runes replaced, and
putting them back. -/
def TreatsAsReplacement (run : List Char → Memory → Int → Except Fault Memory)
    (chars : List Char) : Prop :=
  ∃ out, (∀ c ∈ out, c ≠ '\x00') ∧ ProcessesTo run (chars.map hidden) out ∧
    ProcessesTo run chars (putBack (replaced chars) out)

/-- `rtl_apply` on a whole text as its line. -/
def rtlApplyText (tables : ShaperTables) (chars : List Char) (m : Memory) (text : Int) :
    Except Fault Memory :=
  (rtlApply tables m text (text + byteLength chars)).map Prod.fst

/-- Supplementary runes are treated like replacement characters by the three passes. -/
def SupplementaryInert (tables : ShaperTables) (chars : List Char) : Prop :=
  TreatsAsReplacement (fun _ => shapeText tables) chars ∧
    TreatsAsReplacement (fun _ => unshapeText tables) chars ∧
    TreatsAsReplacement (rtlApplyText tables) chars

/-- A rune whose alias is visible, in none of the classes of `rtl_ranges.c`, and without a
record of the shaper. -/
structure InertAlias (tables : ShaperTables) (c : Char) : Prop where
  visible : 0x20 ≤ runeValue c
  not_rtl : tables.isRtl (runeValue c) = false
  not_neutral : isNeutral (runeValue c) = false
  not_weak : isWeakLtr (runeValue c) = false
  no_entry : tables.findLutEntryByCodept (runeValue c) = none

theorem hidden_of_supplementary {c : Char} (supplementary : isSupplementary c = true) :
    hidden c = replacementChar := by
  rw [hidden, if_pos supplementary]

theorem hidden_of_plane {c : Char} (plane : isSupplementary c = false) : hidden c = c := by
  rw [hidden, if_neg (by simp [plane])]

theorem hidden_of_lt {c : Char} (small : c.toNat < 0x10000) : hidden c = c :=
  hidden_of_plane (by simpa [isSupplementary] using small)

theorem mirrored_of_supplementary {s : Char} (supplementary : isSupplementary s = true) :
    mirrored s = s := by
  have plane : ∀ e ∈ brackets, isSupplementary e = false := by decide
  refine mirrored_of_not_bracket fun bracket => ?_
  rw [plane s bracket] at supplementary
  cases supplementary

/-- The runes behind replacement characters have three or four bytes. -/
theorem not_replaced_of_size {c : Char} (size : c.utf8Size = 2) :
    (hidden c == replacementChar) = false := by
  have small := (utf8Size_eq_two_iff.mp size).2
  rw [hidden_of_lt (by omega)]
  simp only [beq_eq_false_iff_ne]
  rintro rfl
  revert small
  decide

theorem putBack_hidden (out : List Char) : putBack (replaced out) (out.map hidden) = out := by
  induction out with
  | nil => rfl
  | cons c out ih =>
      by_cases behind : hidden c = replacementChar
      · have here : replaced (c :: out) = c :: replaced out := by simp [replaced, behind]
        rw [here, List.map_cons, putBack, if_pos behind, ih]
      · have here : replaced (c :: out) = replaced out := by simp [replaced, behind]
        have same : hidden c = c := by
          cases supplementary : isSupplementary c with
          | true => exact absurd (hidden_of_supplementary supplementary) behind
          | false => exact hidden_of_plane supplementary
        rw [here, List.map_cons]
        cases originals : replaced out with
        | nil =>
            rw [originals] at ih
            rw [putBack, same]
            simpa [putBack] using ih
        | cons original originals' =>
            rw [originals] at ih
            rw [putBack, if_neg behind, ih, same]

/-- A run that commutes with hiding supplementary runes and keeps them in order. -/
theorem treatsAsReplacement_of_commutes {run : List Char → Memory → Int → Except Fault Memory}
    {chars out : List Char} (nonzero : ∀ c ∈ out, c ≠ '\x00')
    (runs : ProcessesTo run chars out) (runsHidden : ProcessesTo run (chars.map hidden)
      (out.map hidden)) (kept : replaced out = replaced chars) :
    TreatsAsReplacement run chars := by
  refine ⟨out.map hidden, ?_, runsHidden, ?_⟩
  · intro c member
    obtain ⟨e, inOut, rfl⟩ := List.mem_map.mp member
    cases supplementary : isSupplementary e with
    | true =>
        rw [hidden_of_supplementary supplementary]
        decide
    | false =>
        rw [hidden_of_plane supplementary]
        exact nonzero e inOut
  · rw [← kept, putBack_hidden]
    exact runs

/-! ## Codepoints that the tables do not tell apart -/

/-- The shaper handles two codepoints in the same way. -/
structure SameToShaper (tables : ShaperTables) (v w : Nat) : Prop where
  entry : tables.findLutEntryByCodept w = tables.findLutEntryByCodept v
  zeroWidth : isZeroWidth w = isZeroWidth v
  first : ∀ second, tables.ligature w second = tables.ligature v second
  second : ∀ first, tables.ligature first w = tables.ligature first v
  unshaped : tables.unshapedCodepts w = tables.unshapedCodepts v

theorem SameToShaper.refl (tables : ShaperTables) (v : Nat) : SameToShaper tables v v :=
  ⟨rfl, rfl, fun _ => rfl, fun _ => rfl, rfl⟩

section Generated

variable {forms : FormsTable} {packed : PackState}
  {pairs : List (CharacterForms × ShaperLUTEntry)} {tables : ShaperTables}

theorem not_zeroWidth_of_not_neutral {cp : Nat} (notNeutral : isNeutral cp = false) :
    isZeroWidth cp = false := by
  simp only [isNeutral, Bool.or_eq_false_iff] at notNeutral
  exact notNeutral.2

theorem not_shaped_of_not_rtl {cp : Nat} (notRtl : tables.isRtl cp = false) :
    tables.arabicShaperRange cp = false := by
  simp only [ShaperTables.isRtl, Bool.or_eq_false_iff] at notRtl
  exact notRtl.2

theorem RuntimeTables.no_ligature (runtime : RuntimeTables forms packed pairs tables)
    (ligaturesOfLetters : forms.LigaturesOfLetters) {c : Char} (inert : InertAlias tables c)
    (other : Nat) : tables.ligature (runeValue c) other = 0 ∧
      tables.ligature other (runeValue c) = 0 := by
  constructor
  · by_contra ligates
    have entry := (runtime.ligature_entries ligaturesOfLetters ligates).1
    rw [inert.no_entry] at entry
    cases entry
  · by_contra ligates
    have entry := (runtime.ligature_entries ligaturesOfLetters ligates).2
    rw [inert.no_entry] at entry
    cases entry

/-- The shaper cannot tell inert aliases apart. -/
theorem RuntimeTables.sameToShaper (runtime : RuntimeTables forms packed pairs tables)
    (ligaturesOfLetters : forms.LigaturesOfLetters) {c e : Char} (inert : InertAlias tables c)
    (also : InertAlias tables e) : SameToShaper tables (runeValue c) (runeValue e) where
  entry := by rw [inert.no_entry, also.no_entry]
  zeroWidth := by
    rw [not_zeroWidth_of_not_neutral inert.not_neutral,
      not_zeroWidth_of_not_neutral also.not_neutral]
  first other := by
    rw [(runtime.no_ligature ligaturesOfLetters inert other).1,
      (runtime.no_ligature ligaturesOfLetters also other).1]
  second other := by
    rw [(runtime.no_ligature ligaturesOfLetters inert other).2,
      (runtime.no_ligature ligaturesOfLetters also other).2]
  unshaped := by
    rw [unshapedCodepts_outside tables (not_shaped_of_not_rtl inert.not_rtl),
      unshapedCodepts_outside tables (not_shaped_of_not_rtl also.not_rtl)]

/-- The replacement character is an ordinary rune. -/
theorem GeneratedTables.inertAlias_replacement
    (generated : GeneratedTables forms packed pairs tables) :
    InertAlias tables replacementChar where
  visible := by decide
  not_rtl := by
    have unshaped : tables.arabicShaperRange (runeValue replacementChar) = false := by
      by_contra shaped
      have scratch := mem_scratchCodepoints.mp (generated.scratch_of_range (by simpa using shaped))
      revert scratch
      decide
    rw [ShaperTables.isRtl, unshaped]
    decide
  not_neutral := by decide
  not_weak := by decide
  no_entry := by
    by_contra found
    have bounds := generated.entry_two_byte (Option.isSome_iff_ne_none.mpr found)
    revert bounds
    decide

end Generated

/-! ## Shaping -/

section Shape

variable {tables : ShaperTables} {rest : List Char}

/-- Hiding supplementary runes is invisible to the shaper. -/
def HiddenFromShaper (tables : ShaperTables) (chars : List Char) : Prop :=
  ∀ c ∈ chars, SameToShaper tables (runeValue c) (runeValue (hidden c))

theorem ligates_hidden (same : HiddenFromShaper tables rest) {v w : Nat}
    (codept : SameToShaper tables v w) :
    tables.ligates w (rest.map hidden) = tables.ligates v rest := by
  cases rest with
  | nil => rfl
  | cons d rest =>
      rw [List.map_cons, ligates, ligates, (same d (by simp)).second, codept.first]

theorem wordGoesOn_hidden (same : HiddenFromShaper tables rest) :
    tables.wordGoesOn (rest.map hidden) = tables.wordGoesOn rest := by
  induction rest with
  | nil => rfl
  | cons c rest ih =>
      have sameRest : HiddenFromShaper tables rest := fun d member => same d (by simp [member])
      have here := same c (by simp)
      rw [List.map_cons, wordGoesOn, wordGoesOn, ligates_hidden sameRest here, here.zeroWidth,
        here.entry, ih sameRest]

theorem following_hidden (same : HiddenFromShaper tables rest) :
    tables.following (rest.map hidden) = tables.following rest := by
  cases rest with
  | nil => rfl
  | cons c rest =>
      have here := same c (by simp)
      rw [List.map_cons, following, following, ← List.map_cons, wordGoesOn_hidden same,
        here.zeroWidth, here.entry]

theorem hidden_of_size {c : Char} (size : c.utf8Size = 2) : hidden c = c := by
  have small := (utf8Size_eq_two_iff.mp size).2
  exact hidden_of_lt (by omega)

theorem shapedChar_hidden (sound : tables.Sound) (same : HiddenFromShaper tables rest) {v w : Nat}
    (codept : SameToShaper tables v w) (joined : Bool) (c : Char) :
    tables.shapedChar joined w (hidden c) (rest.map hidden) =
      hidden (tables.shapedChar joined v c rest) := by
  rw [shapedChar, shapedChar, codept.zeroWidth, codept.entry, following_hidden same]
  split
  · rfl
  · split
    next entry found =>
      exact (hidden_of_size ((sound.form_two_byte _ _ found).formChar_size _)).symm
    next => rfl

theorem shapeFrom_hidden (sound : tables.Sound) (same : HiddenFromShaper tables rest) {v w : Nat}
    (codept : SameToShaper tables v w) (joined : Bool) (c : Char) :
    tables.shapeFrom joined w (hidden c) (rest.map hidden) =
      (tables.shapeFrom joined v c rest).map hidden := by
  induction rest generalizing joined v w c with
  | nil =>
      have here := shapedChar_hidden sound same codept joined c
      rw [List.map_nil] at here
      rw [List.map_nil, shapeFrom, shapeFrom, here, List.map_singleton]
  | cons d rest ih =>
      have sameRest : HiddenFromShaper tables rest := fun e member => same e (by simp [member])
      have here := same d (by simp)
      have joins : tables.joinsNext joined w ((d :: rest).map hidden) =
          tables.joinsNext joined v (d :: rest) := by
        rw [joinsNext, joinsNext, codept.zeroWidth, codept.entry, following_hidden same]
      have shaped := shapedChar_hidden sound same codept joined c
      rw [List.map_cons] at joins shaped
      rw [List.map_cons, shapeFrom, shapeFrom, here.second, codept.first]
      split
      · rw [List.map_cons, ih sameRest (.refl tables _), hidden_of_size placeholder_size]
      · rw [List.map_cons, joins, shaped, ih sameRest here]

theorem shapeChars_hidden (sound : tables.Sound) {chars : List Char}
    (same : HiddenFromShaper tables chars) :
    tables.shapeChars (chars.map hidden) = (tables.shapeChars chars).map hidden := by
  cases chars with
  | nil => rfl
  | cons c rest =>
      exact shapeFrom_hidden sound (fun d member => same d (by simp [member])) (same c (by simp))
        false c

/-- Rewritten runes have two bytes, before and after. -/
theorem replaced_cons_of_size {c d : Char} {first second : List Char} (size : c.utf8Size = 2)
    (otherSize : d.utf8Size = 2) (eq : replaced first = replaced second) :
    replaced (c :: first) = replaced (d :: second) := by
  rw [replaced, replaced, List.filter_cons_of_neg (by simp [not_replaced_of_size size]),
    List.filter_cons_of_neg (by simp [not_replaced_of_size otherSize])]
  exact eq

theorem replaced_cons (c : Char) {first second : List Char}
    (eq : replaced first = replaced second) :
    replaced (c :: first) = replaced (c :: second) := by
  simp only [replaced, List.filter_cons] at eq ⊢
  rw [eq]

theorem replaced_shapedChar (sound : tables.Sound) {codept : Nat} {c : Char}
    (size : (tables.findLutEntryByCodept codept).isSome → c.utf8Size = 2) (joined : Bool)
    (ahead : List Char) {first second : List Char} (eq : replaced first = replaced second) :
    replaced (tables.shapedChar joined codept c ahead :: first) = replaced (c :: second) := by
  unfold shapedChar
  split
  · exact replaced_cons c eq
  · split
    next entry found =>
      exact replaced_cons_of_size ((sound.form_two_byte _ _ found).formChar_size _)
        (size (Option.isSome_of_eq_some found)) eq
    next => exact replaced_cons c eq

theorem replaced_shapeFrom (sound : tables.Sound) {codept : Nat} {c : Char}
    (shapable : tables.Shapable rest)
    (size : (tables.findLutEntryByCodept codept).isSome → c.utf8Size = 2)
    (first : ∀ second, tables.ligature codept second ≠ 0 → c.utf8Size = 2) (joined : Bool) :
    replaced (tables.shapeFrom joined codept c rest) = replaced (c :: rest) := by
  induction rest generalizing codept c joined with
  | nil => exact replaced_shapedChar sound size joined [] rfl
  | cons d rest ih =>
      rw [shapeFrom]
      split
      next ligates =>
        have second := shapable.ligature_second d (by simp) codept ligates
        exact replaced_cons_of_size placeholder_size (first _ ligates)
          (ih shapable.tail (fun _ => second) (fun _ _ => second) joined)
      next =>
        exact replaced_shapedChar sound size joined _
          (ih shapable.tail (shapable.two_byte d (by simp)) (shapable.ligature_first d (by simp)) _)

theorem replaced_shapeChars (sound : tables.Sound) {chars : List Char}
    (shapable : tables.Shapable chars) : replaced (tables.shapeChars chars) = replaced chars := by
  cases chars with
  | nil => rfl
  | cons c rest =>
      exact replaced_shapeFrom sound shapable.tail (shapable.two_byte c (by simp))
        (shapable.ligature_first c (by simp)) false

end Shape

/-! ## Unshaping -/

section Unshape

variable {tables : ShaperTables} {done rest : List Char} {c : Char}

theorem map_hidden_ofNat {codepts : List Nat}
    (bounds : ∀ base ∈ codepts, 0x80 ≤ base ∧ base < 0x800) :
    (codepts.map Char.ofNat).map hidden = codepts.map Char.ofNat := by
  rw [List.map_map]
  refine List.map_congr_left fun base member => ?_
  obtain ⟨lower, upper⟩ := bounds base member
  exact hidden_of_size (ofNat_size lower upper)

theorem unshapeStep_hidden (restores : tables.Restores)
    (same : SameToShaper tables (runeValue c) (runeValue (hidden c))) (done : List Char) :
    tables.unshapeStep (done.map hidden) (hidden c) = (tables.unshapeStep done c).map hidden := by
  rw [unshapeStep, unshapeStep, same.unshaped, List.map_append,
    map_hidden_ofNat (restores.two_byte _), List.append_left_inj]
  simp [List.rdrop, List.map_take]

theorem unshapeChars_hidden (restores : tables.Restores) {chars : List Char}
    (same : HiddenFromShaper tables chars) :
    tables.unshapeChars (chars.map hidden) = (tables.unshapeChars chars).map hidden := by
  have fold (done : List Char) : (chars.map hidden).foldl tables.unshapeStep (done.map hidden) =
      (chars.foldl tables.unshapeStep done).map hidden := by
    induction chars generalizing done with
    | nil => rfl
    | cons c rest ih =>
        rw [List.map_cons, List.foldl_cons, List.foldl_cons,
          unshapeStep_hidden restores (same c (by simp)),
          ih fun d member => same d (by simp [member])]
  exact fold []

theorem replaced_append (first second : List Char) :
    replaced (first ++ second) = replaced first ++ replaced second :=
  List.filter_append ..

theorem replaced_of_sizes {chars : List Char} (sizes : ∀ c ∈ chars, c.utf8Size = 2) :
    replaced chars = [] := by
  rw [replaced, List.filter_eq_nil_iff]
  intro c member
  simp [not_replaced_of_size (sizes c member)]

/-- What is rewritten has two bytes, before and after. -/
theorem replaced_unshapeStep (restores : tables.Restores)
    (size : tables.unshapedCodepts (runeValue c) ≠ [] → c.utf8Size = 2)
    (fits : (tables.unshapedCodepts (runeValue c)).length = 2 → lastSize done = 2) :
    replaced (tables.unshapeStep done c) = replaced (done ++ [c]) := by
  have short := restores.length_le (runeValue c)
  have bounds := restores.two_byte (runeValue c)
  rw [unshapeStep]
  generalize tables.unshapedCodepts (runeValue c) = codepts at *
  have letters : replaced (codepts.map Char.ofNat) = [] := by
    refine replaced_of_sizes fun e member => ?_
    obtain ⟨base, inCodepts, rfl⟩ := List.mem_map.mp member
    exact ofNat_size (bounds base inCodepts).1 (bounds base inCodepts).2
  rw [replaced_append, letters, List.append_nil]
  rcases codepts with _ | ⟨first, _ | ⟨second, _ | ⟨third, more⟩⟩⟩
  · simp
  · have own : replaced [c] = [] := replaced_of_sizes (by simpa using size (by simp))
    rw [replaced_append, own, List.append_nil]
    simp [List.rdrop]
  · have own : replaced [c] = [] := replaced_of_sizes (by simpa using size (by simp))
    rcases List.eq_nil_or_concat' done with rfl | ⟨front, p, rfl⟩
    · simp [lastSize] at fits
    · have before : p.utf8Size = 2 := by simpa using fits rfl
      have placeholder : replaced [p] = [] := replaced_of_sizes (by simpa using before)
      rw [replaced_append, own, List.append_nil, replaced_append, placeholder, List.append_nil]
      simp [List.rdrop]
  · simp at short

theorem replaced_foldl_unshapeStep (restores : tables.Restores)
    (restorable : tables.Restorable rest) (fits : tables.ExpansionsFit (lastSize done) rest) :
    replaced (rest.foldl tables.unshapeStep done) = replaced (done ++ rest) := by
  induction rest generalizing done with
  | nil => simp
  | cons c rest ih =>
      have size := restorable.two_byte c (by simp)
      have last := lastSize_unshapeStep restores size fits.1
      rw [List.foldl_cons, ih restorable.tail (last ▸ fits.2), replaced_append,
        replaced_unshapeStep restores size fits.1, ← replaced_append]
      simp

theorem mem_foldl_unshapeStep (restores : tables.Restores) {d : Char}
    (member : d ∈ rest.foldl tables.unshapeStep done) : d ∈ done ++ rest ∨ d.utf8Size = 2 := by
  induction rest generalizing done with
  | nil => exact Or.inl (by simpa using member)
  | cons c rest ih =>
      rcases ih member with original | two
      · rcases List.mem_append.mp original with stepped | later
        · rw [unshapeStep, List.mem_append] at stepped
          rcases stepped with kept | written
          · have inDone : d ∈ done ++ [c] := List.mem_of_mem_take kept
            exact Or.inl (by simp at inDone ⊢; tauto)
          · obtain ⟨base, inCodepts, rfl⟩ := List.mem_map.mp written
            obtain ⟨lower, upper⟩ := restores.two_byte _ base inCodepts
            exact Or.inr (ofNat_size lower upper)
        · exact Or.inl (by simp [later])
      · exact Or.inr two

theorem hidden_size_iff (c : Char) : (hidden c).utf8Size = 2 ↔ c.utf8Size = 2 := by
  cases supplementary : isSupplementary c with
  | true =>
      rw [hidden_of_supplementary supplementary]
      refine iff_of_false (by decide) fun size => ?_
      have small := (utf8Size_eq_two_iff.mp size).2
      have large : 0x10000 ≤ c.toNat := by simpa [isSupplementary] using supplementary
      omega
  | false => rw [hidden_of_plane supplementary]

theorem expansionsFit_hidden {chars : List Char} (same : HiddenFromShaper tables chars)
    {size size' : Nat} (sizes : size' = 2 ↔ size = 2)
    (fits : tables.ExpansionsFit size chars) : tables.ExpansionsFit size' (chars.map hidden) := by
  induction chars generalizing size size' with
  | nil => trivial
  | cons c rest ih =>
      obtain ⟨here, later⟩ := fits
      refine ⟨fun two => sizes.mpr (here ?_), ih (fun d member => same d (by simp [member]))
        (hidden_size_iff c) later⟩
      rwa [(same c (by simp)).unshaped] at two

end Unshape

/-! ## Texts with inert supplementary runes -/

section Inert

variable {forms : FormsTable} {packed : PackState}
  {pairs : List (CharacterForms × ShaperLUTEntry)} {tables : ShaperTables} {chars : List Char}

/-- A text without zero characters, whose supplementary runes have inert aliases. -/
def InertText (tables : ShaperTables) (chars : List Char) : Prop :=
  ∀ c ∈ chars, c ≠ '\x00' ∧ (isSupplementary c = true → InertAlias tables c)

theorem InertText.runeValue_ne_zero (inert : InertText tables chars) :
    ∀ c ∈ chars, runeValue c ≠ 0 := by
  intro c member
  obtain ⟨nonzero, aliased⟩ := inert c member
  cases supplementary : isSupplementary c with
  | true =>
      have := (aliased supplementary).visible
      omega
  | false =>
      have small : c.toNat < 0x10000 := by simpa [isSupplementary] using supplementary
      rw [runeValue_of_lt small]
      exact fun zero => nonzero (Char.toNat_inj.mp zero)

theorem InertText.hidden (generated : GeneratedTables forms packed pairs tables)
    (inert : InertText tables chars) : InertText tables (chars.map hidden) := by
  intro c member
  obtain ⟨e, inChars, rfl⟩ := List.mem_map.mp member
  cases supplementary : isSupplementary e with
  | true =>
      rw [hidden_of_supplementary supplementary]
      exact ⟨by decide, fun _ => generated.inertAlias_replacement⟩
  | false =>
      rw [hidden_of_plane supplementary]
      exact inert e inChars

theorem InertText.hiddenFromShaper (generated : GeneratedTables forms packed pairs tables)
    (ligaturesOfLetters : forms.LigaturesOfLetters) (inert : InertText tables chars) :
    HiddenFromShaper tables chars := by
  intro c member
  cases supplementary : isSupplementary c with
  | true =>
      rw [hidden_of_supplementary supplementary]
      exact generated.sameToShaper ligaturesOfLetters ((inert c member).2 supplementary)
        generated.inertAlias_replacement
  | false =>
      rw [hidden_of_plane supplementary]
      exact .refl tables _

/-- A rune whose value is that of a table letter is one. -/
theorem InertText.two_byte (inert : InertText tables chars) {c : Char} (member : c ∈ chars)
    (ordinary : ¬ InertAlias tables c)
    (bounds : 0x80 ≤ runeValue c ∧ runeValue c < 0x800) : c.utf8Size = 2 := by
  cases supplementary : isSupplementary c with
  | true => exact absurd ((inert c member).2 supplementary) ordinary
  | false =>
      have small : c.toNat < 0x10000 := by simpa [isSupplementary] using supplementary
      rw [runeValue_of_lt small] at bounds
      exact utf8Size_eq_two_iff.mpr bounds

theorem InertText.shapable (generated : GeneratedTables forms packed pairs tables)
    (ligaturesOfLetters : forms.LigaturesOfLetters) (inert : InertText tables chars) :
    tables.Shapable chars where
  nonzero := inert.runeValue_ne_zero
  two_byte c member found := by
    refine inert.two_byte member (fun aliased => ?_) (generated.entry_two_byte found)
    rw [aliased.no_entry] at found
    cases found
  ligature_first c member second ligates := by
    have found := (generated.ligature_entries ligaturesOfLetters ligates).1
    refine inert.two_byte member (fun aliased => ?_) (generated.entry_two_byte found)
    rw [aliased.no_entry] at found
    cases found
  ligature_second c member first ligates := by
    have found := (generated.ligature_entries ligaturesOfLetters ligates).2
    refine inert.two_byte member (fun aliased => ?_) (generated.entry_two_byte found)
    rw [aliased.no_entry] at found
    cases found

theorem InertText.restorable (generated : GeneratedTables forms packed pairs tables)
    (inert : InertText tables chars) : tables.Restorable chars where
  nonzero c member := (inert c member).1
  two_byte c member rewritten := by
    rcases generated.unshapedCodepts_cases (runeValue c) with none | ⟨scratch, -⟩
    · exact absurd none rewritten
    · rw [mem_scratchCodepoints] at scratch
      refine inert.two_byte member (fun aliased => rewritten ?_) (by omega)
      exact unshapedCodepts_outside tables (not_shaped_of_not_rtl aliased.not_rtl)

theorem nonzero_of_size {c : Char} (size : c.utf8Size = 2) : c ≠ '\x00' := by
  rintro rfl
  exact absurd size (by decide)

theorem InertText.treatsAsReplacement_shapeText
    (generated : GeneratedTables forms packed pairs tables)
    (ligaturesOfLetters : forms.LigaturesOfLetters) (inert : InertText tables chars) :
    TreatsAsReplacement (fun _ => shapeText tables) chars := by
  have processes {chars : List Char} (inert : InertText tables chars) :
      ProcessesTo (fun _ => shapeText tables) chars (tables.shapeChars chars) := by
    intro m text stands
    obtain ⟨after, run, shaped, -⟩ :=
      shapeText_spec generated.sound (inert.shapable generated ligaturesOfLetters) stands
    exact ⟨after, run, shaped⟩
  refine treatsAsReplacement_of_commutes (fun c member => ?_) (processes inert) ?_
    (replaced_shapeChars generated.sound (inert.shapable generated ligaturesOfLetters))
  · rcases mem_shapeChars generated.sound member with original | two
    · exact (inert c original).1
    · exact nonzero_of_size two
  · rw [← shapeChars_hidden generated.sound (inert.hiddenFromShaper generated ligaturesOfLetters)]
    exact processes (inert.hidden generated)

theorem InertText.treatsAsReplacement_unshapeText
    (generated : GeneratedTables forms packed pairs tables)
    (ligaturesOfLetters : forms.LigaturesOfLetters) (inert : InertText tables chars)
    (fits : tables.ExpansionsFit 0 chars) :
    TreatsAsReplacement (fun _ => unshapeText tables) chars := by
  have processes {chars : List Char} (inert : InertText tables chars)
      (fits : tables.ExpansionsFit 0 chars) :
      ProcessesTo (fun _ => unshapeText tables) chars (tables.unshapeChars chars) := by
    intro m text stands
    obtain ⟨after, run, unshaped, -⟩ :=
      unshapeText_spec generated.restores (inert.restorable generated) fits stands
    exact ⟨after, run, unshaped⟩
  have same := inert.hiddenFromShaper generated ligaturesOfLetters
  have fitsStart : tables.ExpansionsFit (lastSize []) chars := fits
  refine treatsAsReplacement_of_commutes (fun c member => ?_) (processes inert fits) ?_
    (replaced_foldl_unshapeStep generated.restores (inert.restorable generated) fitsStart)
  · rcases mem_foldl_unshapeStep generated.restores member with original | two
    · exact (inert c (by simpa using original)).1
    · exact nonzero_of_size two
  · rw [← unshapeChars_hidden generated.restores same]
    exact processes (inert.hidden generated) (expansionsFit_hidden same Iff.rfl fits)

/-- `rtl_apply` on a text without runes that are read as zero. -/
theorem processesTo_rtlApplyText (scratch : tables.RecyclesScratch)
    (nonzero : ∀ c ∈ chars, runeValue c ≠ 0) :
    ProcessesTo (rtlApplyText tables) chars ((tables.directions scratch).reorder chars) := by
  intro m text stands
  cases chars with
  | nil =>
      -- The terminator is read as a rune, and left alone.
      have zero : LineAt m text ['\x00'] := by
        obtain ⟨spelled, low, high⟩ := stands
        refine ⟨spelled, low, ?_⟩
        change text + ((1 : Nat) : Int) ≤ _
        simp only [byteLength_nil, Nat.cast_zero] at high
        omega
      obtain ⟨after, didTransform, apply, rewritten⟩ := rtlApply_ok scratch zero (by simp)
        (show text + byteLength [] ≤ text + byteLength ['\x00'] by simp) (by simp)
      rw [Directions.reorder_singleton] at rewritten
      refine ⟨after, by rw [rtlApplyText, apply]; rfl, rewritten.stands.spelled, ?_, ?_⟩
      · exact rewritten.stands.low_le
      · rw [rewritten.within.high_eq]
        exact stands.high_gt
  | cons c rest =>
      have whole : TextAt m text (c :: rest ++ []) := by rwa [List.append_nil]
      obtain ⟨after, didTransform, apply, stands', -⟩ :=
        rtlApply_front scratch whole (by simp) nonzero
      rw [List.append_nil] at stands'
      exact ⟨after, by rw [rtlApplyText, apply]; rfl, stands'⟩

/-- Supplementary runes with inert aliases and replacement characters have one direction. -/
theorem InertText.keepsClasses (generated : GeneratedTables forms packed pairs tables)
    (inert : InertText tables chars) {c : Char} (member : c ∈ chars) :
    (tables.directions generated.recyclesScratch).KeepsClasses
      (tables.directions generated.recyclesScratch) Elbbep.hidden c := by
  have replacement := generated.inertAlias_replacement
  cases supplementary : isSupplementary c with
  | true =>
      have aliased := (inert c member).2 supplementary
      have unmirrored := mirrored_of_supplementary supplementary
      have notControl (e : Char) (visible : 0x20 ≤ runeValue e) :
          (tables.directions generated.recyclesScratch).control e = false :=
        decide_eq_false (by omega)
      refine ⟨?_, ?_, ?_, ?_, ?_⟩
      · rw [hidden_of_supplementary supplementary]
        exact replacement.not_rtl.trans aliased.not_rtl.symm
      · rw [hidden_of_supplementary supplementary]
        exact replacement.not_neutral.trans aliased.not_neutral.symm
      · rw [hidden_of_supplementary supplementary]
        exact replacement.not_weak.trans aliased.not_weak.symm
      · rw [hidden_of_supplementary supplementary, notControl _ replacement.visible,
          notControl _ aliased.visible]
      · change mirrored (Elbbep.hidden c) = Elbbep.hidden (mirrored c)
        rw [unmirrored, hidden_of_supplementary supplementary]
        decide
  | false =>
      have mirrorPlane : isSupplementary (mirrored c) = false := by
        by_cases bracket : c ∈ brackets
        · have small : ∀ e ∈ brackets, isSupplementary (mirrored e) = false := by decide
          exact small c bracket
        · rwa [mirrored_of_not_bracket bracket]
      refine ⟨?_, ?_, ?_, ?_, ?_⟩
      all_goals try rw [hidden_of_plane supplementary]
      change mirrored c = Elbbep.hidden (mirrored c)
      rw [hidden_of_plane mirrorPlane]

/-- Replaced runes are anchors, and anchors keep their order. -/
theorem InertText.replaced_reorder (generated : GeneratedTables forms packed pairs tables)
    (inert : InertText tables chars) :
    replaced ((tables.directions generated.recyclesScratch).reorder chars) = replaced chars := by
  generalize directionsEq : tables.directions generated.recyclesScratch = d
  have anchored (c : Char) : d.anchor c = tables.strongLtr c := by rw [← directionsEq]; rfl
  have inertAnchor {c : Char} (aliased : InertAlias tables c) : d.anchor c = true := by
    rw [anchored, ShaperTables.strongLtr, aliased.not_rtl, aliased.not_neutral, aliased.not_weak]
    rfl
  have brackets' (c : Char) : (Elbbep.hidden (d.mirror c) == replacementChar) =
      (Elbbep.hidden c == replacementChar) := by
    rw [← directionsEq]
    change (Elbbep.hidden (mirrored c) == replacementChar) = _
    by_cases bracket : c ∈ brackets
    · have none : ∀ e ∈ brackets, (Elbbep.hidden (mirrored e) == replacementChar) =
          (Elbbep.hidden e == replacementChar) := by decide
      exact none c bracket
    · rw [mirrored_of_not_bracket bracket]
  have anchors : ∀ c ∈ chars, (!(Elbbep.hidden c == replacementChar) || d.anchor c) = true := by
    intro c member
    cases behind : Elbbep.hidden c == replacementChar with
    | false => rfl
    | true =>
        rw [Bool.not_true, Bool.false_or]
        cases supplementary : isSupplementary c with
        | true => exact inertAnchor ((inert c member).2 supplementary)
        | false =>
            rw [hidden_of_plane supplementary, beq_iff_eq] at behind
            rw [behind]
            exact inertAnchor generated.inertAlias_replacement
  have anchorsAfter := Directions.forall_mem_reorder
    (fun c => by rw [brackets', Directions.anchor_mirror]) anchors
  have through {list : List Char}
      (all : ∀ c ∈ list, (!(Elbbep.hidden c == replacementChar) || d.anchor c) = true) :
      replaced list = replaced (list.filter d.anchor) := by
    rw [replaced, replaced, List.filter_filter]
    refine List.filter_congr fun c member => ?_
    have here := all c member
    cases behind : Elbbep.hidden c == replacementChar <;> simp_all
  rw [through anchorsAfter, Directions.filter_reorder, ← through anchors]

theorem InertText.treatsAsReplacement_rtlApplyText
    (generated : GeneratedTables forms packed pairs tables) (inert : InertText tables chars) :
    TreatsAsReplacement (rtlApplyText tables) chars := by
  have scratch := generated.recyclesScratch
  have nonzero := inert.runeValue_ne_zero
  refine treatsAsReplacement_of_commutes
    (fun c member => nonzero_of_runeValue (reorder_nonzero scratch nonzero c member))
    (processesTo_rtlApplyText scratch nonzero) ?_ (inert.replaced_reorder generated)
  rw [← Directions.reorder_map fun c member => inert.keepsClasses generated member]
  exact processesTo_rtlApplyText scratch (inert.hidden generated).runeValue_ne_zero

end Inert

end Elbbep
