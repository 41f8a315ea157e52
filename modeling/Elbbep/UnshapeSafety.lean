import Elbbep.UnshapedText

/-!
# Where unshaping writes

The unshaper steps back over the rune before a ligature without looking at it.
For a ligature that the shaper has made, a placeholder stands there.  The sender
of a text may however use the recycled codepoints himself, and then the step
back may leave the text or cut a rune.  This file determines the texts for which
shaping and unshaping write nothing but whole runes.
-/

namespace Elbbep

open ByteMemory Utf8Encoding

/-- Shaping and then unshaping rewrites whole 2-byte runes of the text only, and
leaves a text with the same rune boundaries. -/
def WritesWholeRunes (tables : ShaperTables) (m : Memory) (text : Int) (chars : List Char) :
    Prop :=
  ∃ shaped restored, shapeText tables m text = .ok shaped ∧
    unshapeText tables shaped text = .ok restored ∧
    RuneWrites text (chars.map Char.utf8Size) m restored ∧
    ∃ result, TextAt restored text result ∧
      result.map Char.utf8Size = chars.map Char.utf8Size

namespace ShaperTables

variable (tables : ShaperTables)

/-- A rune that is expanded to the letters of a ligature. -/
def expands (c : Char) : Bool :=
  (tables.unshapedCodepts (runeValue c)).length == 2

/-- Scanning the text with the arguments of `shapeFrom`: a rune takes the place
of a ligature only behind a 2-byte rune. -/
def anchoredFrom (previousSize : Nat) (joined : Bool) (codept : Nat) (c : Char) :
    List Char → Bool
  | [] => !tables.expands (tables.shapedChar joined codept c []) || previousSize == 2
  | d :: rest =>
      if tables.ligature codept (runeValue d) ≠ 0 then
        anchoredFrom c.utf8Size joined (tables.ligature codept (runeValue d)) d rest
      else
        (!tables.expands (tables.shapedChar joined codept c (d :: rest)) || previousSize == 2) &&
          anchoredFrom c.utf8Size (tables.joinsNext joined codept (d :: rest)) (runeValue d) d rest

/-- No rune at the start of the text, or behind a rune that is not two bytes long,
takes the place of a ligature. -/
def anchored : List Char → Bool
  | [] => true
  | c :: rest => tables.anchoredFrom 0 false (runeValue c) c rest

/-- The rune starts that unshaping writes to, in order. -/
def unshapeStarts (iter : Int) : List Char → List Int
  | [] => []
  | c :: rest =>
      (match tables.unshapedCodepts (runeValue c) with
        | [] => []
        | [_] => [iter]
        | _ => [iter - 2, iter]) ++ unshapeStarts (iter + c.utf8Size) rest

end ShaperTables

/-! ## The log of the pass -/

section Log

variable {tables : ShaperTables} {m : Memory} {iter : Int} {rest : List Char}

theorem unshapeRune_log (restores : tables.Restores) (m : Memory) (iter : Int) (c : Char) :
    StoresWithin (iter - 2) (iter + 2) m (unshapeRune tables m iter (runeValue c)) ∧
      (unshapeRune tables m iter (runeValue c)).stores =
        (tables.unshapeStarts iter [c]).reverse.flatMap (fun start => [start + 1, start]) ++
          m.stores ∧
      (tables.unshapedCodepts (runeValue c) = [] →
        unshapeRune tables m iter (runeValue c) = m) := by
  have short := restores.length_le (runeValue c)
  rw [tables.unshapeRune_eq, ShaperTables.unshapeStarts, ShaperTables.unshapeStarts]
  generalize tables.unshapedCodepts (runeValue c) = codepts at *
  match codepts with
  | [] => exact ⟨.refl _ _ m, by simp [writeRunes], fun _ => rfl⟩
  | [base] =>
      refine ⟨?_, by simp [writeRunes], by simp⟩
      have within := writeUtf8_within m iter base
      simpa [writeRunes] using within.mono (by omega) (by omega)
  | [first, second] =>
      have back : iter - runeSize * (([first, second].length : Int) - 1) = iter - 2 := by
        simp [runeSize]
      have forward : iter - 2 + runeSize = iter := by simp [runeSize]
      rw [back, writeRunes, writeRunes, writeRunes, forward]
      have one := (writeUtf8_within m (iter - 2) first).mono (by omega : iter - 2 ≤ _)
        (by omega : _ ≤ iter + 2)
      have two := (writeUtf8_within (writeUtf8 m (iter - 2) first) iter second).mono
        (by omega : iter - 2 ≤ _) le_rfl
      exact ⟨one.trans two, by simp, by simp⟩

/-- The whole pass logs its rune starts, whatever stands before the text. -/
theorem unshapeLoop_log (restores : tables.Restores) (restorable : tables.Restorable rest)
    (stands : TextAt m iter rest) {fuel : Nat} (enough : rest.length + 1 ≤ fuel) :
    ∃ after, unshapeLoop tables fuel m iter = .ok after ∧
      after.stores =
        (tables.unshapeStarts iter rest).reverse.flatMap (fun start => [start + 1, start]) ++
          m.stores := by
  induction rest generalizing m iter fuel with
  | nil =>
      obtain ⟨fuel, rfl⟩ : ∃ less, fuel = less + 1 := ⟨fuel - 1, by simp at enough; omega⟩
      refine ⟨m, ?_, by simp [ShaperTables.unshapeStarts]⟩
      have terminator := stands.load_terminator
      simp only [byteLength_nil, Nat.cast_zero, add_zero] at terminator
      rw [unshapeLoop, terminator]
      rfl
  | cons c rest ih =>
      obtain ⟨fuel, rfl⟩ : ∃ less, fuel = less + 1 := ⟨fuel - 1, by simp at enough; omega⟩
      have placed : TextAt m iter ([] ++ c :: rest) := stands
      obtain ⟨byte, load, byteNe⟩ := placed.load_lead (restorable.nonzero c (by simp))
      have read := placed.readUtf8_eq
      simp only [byteLength_nil, Nat.cast_zero, add_zero, List.nil_append,
        byteLength_cons] at load read
      obtain ⟨within, logged, kept⟩ := unshapeRune_log restores m iter c
      have behind : TextAt (unshapeRune tables m iter (runeValue c)) (iter + c.utf8Size) rest := by
        by_cases none : tables.unshapedCodepts (runeValue c) = []
        · rw [kept none]
          exact stands.behind (.refl iter iter m) (by omega)
        · have size := restorable.two_byte c (by simp) none
          exact stands.behind within (by rw [size]; exact le_rfl)
      obtain ⟨after, run, log⟩ := ih restorable.tail behind
        (show rest.length + 1 ≤ fuel by simpa using enough)
      refine ⟨after, ?_, ?_⟩
      · rw [unshapeLoop, load]
        simp only [bind, Except.bind, byteNe, ne_eq, not_false_eq_true, if_true, read]
        exact run
      · rw [log, logged, ShaperTables.unshapeStarts, ShaperTables.unshapeStarts]
        simp [ShaperTables.unshapeStarts]

end Log

/-! ## Rune starts -/

theorem flatMap_starts_injective {first second : List Int}
    (same : first.flatMap (fun start => [start + 1, start]) =
      second.flatMap fun start => [start + 1, start]) : first = second := by
  induction first generalizing second with
  | nil =>
      cases second with
      | nil => rfl
      | cons start rest => simp at same
  | cons start rest ih =>
      cases second with
      | nil => simp at same
      | cons other others =>
          simp only [List.flatMap_cons, List.cons_append, List.nil_append, List.cons.injEq] at same
          rw [same.2.1, ih same.2.2]

/-- Prefixes of positive numbers are told apart by their sums. -/
theorem prefix_eq_of_sum {first firstRest second secondRest : List Nat}
    (same : first ++ firstRest = second ++ secondRest)
    (positive : ∀ size ∈ first ++ firstRest, 0 < size) (sums : first.sum = second.sum) :
    first = second := by
  induction first generalizing second with
  | nil =>
      cases second with
      | nil => rfl
      | cons size rest =>
          have := positive size (by rw [same]; simp)
          simp at sums
          omega
  | cons size rest ih =>
      cases second with
      | nil =>
          have := positive size (by simp)
          simp at sums
          omega
      | cons other others =>
          simp only [List.cons_append, List.cons.injEq] at same
          obtain ⟨rfl, same⟩ := same
          rw [ih same (fun s member => positive s (List.mem_cons_of_mem _ member))
            (by simpa using sums)]

/-- A rune that starts two bytes before the end of `done` is its last one. -/
theorem lastSize_of_runeStart {text : Int} {done rest : List Char}
    (start : RuneStart text ((done ++ rest).map Char.utf8Size) (text + byteLength done - 2)) :
    lastSize done = 2 := by
  obtain ⟨before, after, sizes, address⟩ := start
  have positive : ∀ size ∈ done.map Char.utf8Size ++ rest.map Char.utf8Size, 0 < size := by
    rw [← List.map_append]
    intro size member
    obtain ⟨c, -, rfl⟩ := List.mem_map.mp member
    exact c.utf8Size_pos
  have split : done.map Char.utf8Size ++ rest.map Char.utf8Size = (before ++ [2]) ++ after := by
    rw [← List.map_append, sizes, List.append_assoc, List.singleton_append]
  have same := prefix_eq_of_sum split positive (by
    rw [← byteLength_eq_sum, List.sum_append, List.sum_singleton]
    omega)
  rw [lastSize, ← List.getLast?_map, same]
  simp

/-- If unshaping writes to rune starts only, its expansions fit. -/
theorem expansionsFit_of_starts {tables : ShaperTables} {text : Int}
    {done rest : List Char}
    (starts : ∀ start ∈ tables.unshapeStarts (text + byteLength done) rest,
      RuneStart text ((done ++ rest).map Char.utf8Size) start) :
    tables.ExpansionsFit (lastSize done) rest := by
  induction rest generalizing done with
  | nil => trivial
  | cons c rest ih =>
      have next : text + (byteLength (done ++ [c]) : Int) =
          text + byteLength done + c.utf8Size := by
        simp [Int.add_assoc]
      refine ⟨fun two => ?_, ?_⟩
      · apply lastSize_of_runeStart
        apply starts
        rw [ShaperTables.unshapeStarts]
        match codepts : tables.unshapedCodepts (runeValue c) with
        | [] => simp [codepts] at two
        | [_] => simp [codepts] at two
        | _ :: _ :: _ => simp
      · rw [← lastSize_concat done c]
        apply ih
        rw [next]
        intro start member
        simpa using starts start (by rw [ShaperTables.unshapeStarts]; simp [member])

/-! ## The condition on the text -/

theorem expands_iff {tables : ShaperTables} (c : Char) (previousSize : Nat) :
    ((tables.unshapedCodepts (runeValue c)).length = 2 → previousSize = 2) ↔
      (!tables.expands c || previousSize == 2) = true := by
  simp [ShaperTables.expands, imp_iff_not_or]

/-- Shaping keeps rune sizes, so that the scan sees what unshaping will see. -/
theorem expansionsFit_shapeFrom_iff {tables : ShaperTables} (sound : tables.Sound)
    (noPlaceholder : tables.unshapedCodepts (runeValue placeholder) = []) {codept : Nat} {c : Char}
    {rest : List Char} (shapable : tables.Shapable rest)
    (size : (tables.findLutEntryByCodept codept).isSome → c.utf8Size = 2)
    (first : ∀ second, tables.ligature codept second ≠ 0 → c.utf8Size = 2)
    (joined : Bool) (previousSize : Nat) :
    tables.ExpansionsFit previousSize (tables.shapeFrom joined codept c rest) ↔
      tables.anchoredFrom previousSize joined codept c rest = true := by
  induction rest generalizing codept c joined previousSize with
  | nil =>
      rw [ShaperTables.shapeFrom, ShaperTables.anchoredFrom, ← expands_iff]
      simp only [ShaperTables.ExpansionsFit, and_true]
  | cons d rest ih =>
      rw [ShaperTables.shapeFrom, ShaperTables.anchoredFrom]
      by_cases noLigature : tables.ligature codept (runeValue d) = 0
      · rw [if_neg (by simpa using noLigature), if_neg (by simpa using noLigature),
          ShaperTables.ExpansionsFit, expands_iff, shapedChar_size sound size, Bool.and_eq_true,
          ih shapable.tail (shapable.two_byte d (by simp)) (shapable.ligature_first d (by simp))]
      · have second := shapable.ligature_second d (by simp) codept noLigature
        rw [if_pos noLigature, if_pos noLigature, ShaperTables.ExpansionsFit, placeholder_size,
          first _ noLigature, ih shapable.tail (fun _ => second) (fun _ _ => second)]
        simp [noPlaceholder]

theorem expansionsFit_shapeChars_iff {tables : ShaperTables} (sound : tables.Sound)
    (noPlaceholder : tables.unshapedCodepts (runeValue placeholder) = []) {chars : List Char}
    (shapable : tables.Shapable chars) :
    tables.ExpansionsFit 0 (tables.shapeChars chars) ↔ tables.anchored chars = true := by
  cases chars with
  | nil => exact ⟨fun _ => rfl, fun _ => trivial⟩
  | cons c rest =>
      exact expansionsFit_shapeFrom_iff sound noPlaceholder shapable.tail
        (shapable.two_byte c (by simp)) (shapable.ligature_first c (by simp)) false 0

/-- Shaping and unshaping write whole runes exactly on texts whose ligatures are anchored. -/
theorem GeneratedTables.writesWholeRunes_iff {forms : FormsTable} {packed : PackState}
    {pairs : List (CharacterForms × ShaperLUTEntry)} {tables : ShaperTables}
    (generated : GeneratedTables forms packed pairs tables) {m : Memory} {text : Int}
    {chars : List Char} (stands : TextAt m text chars)
    (plane : ∀ c ∈ chars, c ≠ '\x00' ∧ c.toNat < 0x10000) :
    WritesWholeRunes tables m text chars ↔ tables.anchored chars = true := by
  have shapable := generated.shapable plane
  have restorable := generated.restorable (generated.shapeChars_plane plane)
  have sizes := shapeChars_sizes generated.sound shapable
  rw [← expansionsFit_shapeChars_iff generated.sound generated.unshapedCodepts_placeholder shapable]
  obtain ⟨shaped, shapeRun, shapedStands, shapedWrites⟩ :=
    shapeText_spec generated.sound shapable stands
  constructor
  · rintro ⟨shaped', restored, shapeRun', unshapeRun, writes, -⟩
    obtain rfl := Except.ok.inj (shapeRun.symm.trans shapeRun')
    -- The log determines the rune starts, so all of them are starts in the text.
    have short := length_le_byteLength (tables.shapeChars chars)
    have high := shapedStands.high_gt
    obtain ⟨restored', unshapeRun', log⟩ := unshapeLoop_log generated.restores restorable
      shapedStands (show _ ≤ (shaped.high - text).toNat + 1 by omega)
    obtain rfl := Except.ok.inj (unshapeRun.symm.trans unshapeRun')
    obtain ⟨shapeStarts, shapeLog, -⟩ := shapedWrites.starts
    obtain ⟨starts, allLog, areStarts⟩ := writes.starts
    rw [shapeLog, ← List.append_assoc, ← List.flatMap_append] at log
    have same := flatMap_starts_injective (List.append_cancel_right (allLog.symm.trans log))
    have fits : tables.ExpansionsFit (lastSize []) (tables.shapeChars chars) := by
      apply expansionsFit_of_starts
      intro start member
      rw [List.nil_append, sizes]
      apply areStarts
      rw [same]
      simpa using Or.inl member
    exact fits
  · intro fits
    obtain ⟨restored, unshapeRun, restoredStands, restoredSizes, restoredWrites⟩ :=
      unshapeText_spec generated.restores restorable fits shapedStands
    rw [sizes] at restoredSizes restoredWrites
    exact ⟨shaped, restored, shapeRun, unshapeRun, shapedWrites.trans restoredWrites,
      _, restoredStands, restoredSizes⟩

/-- Shaping and unshaping a text of the basic plane, with any generated tables,
rewrites whole runes of the text if and only if the text is anchored. -/
theorem shapeText_writesWholeRunes_iff {unicodedataName : Char → Option String}
    {forms : FormsTable} {tables : ShaperTables}
    (run : generateTables unicodedataName forms.items = .ok tables)
    {m : Memory} {text : Int} {chars : List Char} (stands : TextAt m text chars)
    (plane : ∀ c ∈ chars, c ≠ '\x00' ∧ c.toNat < 0x10000) :
    WritesWholeRunes tables m text chars ↔ tables.anchored chars = true := by
  obtain ⟨packed, pairs, generated⟩ := exists_generatedTables run
  exact generated.writesWholeRunes_iff stands plane

/-- Recycled codepoints behind a 2-byte rune. -/
theorem shapeText_writesWholeRunes_anchored :
    WritesWholeRunes lamAlefTables (.ofBytes 0 (encode ['x', 'ل', '\u0708'] ++ [0])) 0
      ['x', 'ل', '\u0708'] :=
  (shapeText_writesWholeRunes_iff generateTables_lamAlefForms (textAt_ofBytes 0 _)
    (by decide)).mpr (by decide)

/-- A ligature's codepoint at the very start of a text. -/
theorem not_writesWholeRunes_ligature :
    ¬ WritesWholeRunes lamAlefTables (.ofBytes 0 (encode ['\u0708', 'x'] ++ [0])) 0
      ['\u0708', 'x'] := by
  obtain ⟨packed, pairs, generated⟩ := exists_generatedTables generateTables_lamAlefForms
  rw [generated.writesWholeRunes_iff (textAt_ofBytes 0 _) (by decide)]
  decide

end Elbbep
