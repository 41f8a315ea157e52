import Elbbep.PackLut

/-!
# What `pack_lut` emits

The generator walks the sorted keys with an iterator over the recycled
codepoints.  At every point of the walk the codepoints handed out are a prefix
of that iterator, and each of them belongs to exactly one glyph or ligature.
The emitted bytes decode to one letter record per key, whose isolated codepoint
and deltas name the codepoints of the key's four glyphs.
-/

namespace Elbbep

open PythonStruct

/-- The codepoints handed out so far belong to the selected glyphs and to the
`reserved` ligature codepoints, each to one of them. -/
structure PackState.Allocated (reserved : List Nat) (state : PackState) : Prop where
  pool : state.dirtiedCodepts ++ state.availableCodepts = scratchCodepoints
  dirtied : state.dirtiedCodepts.Perm (state.selectedGlyphs.map Prod.snd ++ reserved)
  glyphs_nodup : (state.selectedGlyphs.map Prod.fst).Nodup

/-- Later states keep the codepoint of every glyph and emit nothing meanwhile. -/
structure PackState.Selects (reserved : List Nat) (glyphs : List Nat)
    (before after : PackState) : Prop where
  allocated : after.Allocated reserved
  kept : ∀ glyph codept, before.selectedGlyphs.lookup glyph = some codept →
    after.selectedGlyphs.lookup glyph = some codept
  origin : ∀ glyph codept, after.selectedGlyphs.lookup glyph = some codept →
    before.selectedGlyphs.lookup glyph = some codept ∨ glyph ∈ glyphs
  lutData_eq : after.lutData = before.lutData
  ligData_eq : after.ligData = before.ligData

theorem mem_scratchCodepoints {codept : Nat} :
    codept ∈ scratchCodepoints ↔
      (0x700 ≤ codept ∧ codept < 0x750) ∨ (0x780 ≤ codept ∧ codept < 0x800) := by
  simp only [scratchCodepoints, scratchCodepointRanges, List.flatMap_cons, List.flatMap_nil,
    List.append_nil, List.mem_append, List.mem_range'_1]

theorem scratchCodepoints_nodup : scratchCodepoints.Nodup := by
  apply List.Nodup.append List.nodup_range'
  · simpa [List.flatMap_cons] using List.nodup_range'
  · intro codept first second
    simp [List.mem_range'_1] at first second
    omega

namespace PackState

variable {reserved : List Nat} {state state' : PackState}

theorem Allocated.dirtied_nodup (allocated : state.Allocated reserved) :
    state.dirtiedCodepts.Nodup := by
  have pool := scratchCodepoints_nodup
  rw [← allocated.pool] at pool
  exact pool.of_append_left

theorem Allocated.dirtied_scratch (allocated : state.Allocated reserved) {codept : Nat}
    (member : codept ∈ state.dirtiedCodepts) : codept ∈ scratchCodepoints := by
  rw [← allocated.pool]
  exact List.mem_append_left _ member

theorem mem_of_lookup {glyph codept : Nat} {items : List (Nat × Nat)}
    (found : items.lookup glyph = some codept) : (glyph, codept) ∈ items := by
  induction items with
  | nil => simp at found
  | cons item items ih =>
      obtain ⟨key, value⟩ := item
      rw [List.lookup_cons] at found
      by_cases here : glyph = key
      · subst here
        simp at found
        simp [found]
      · rw [beq_false_of_ne here] at found
        exact List.mem_cons_of_mem _ (ih found)

theorem Allocated.lookup_dirtied (allocated : state.Allocated reserved) {glyph codept : Nat}
    (found : state.selectedGlyphs.lookup glyph = some codept) :
    codept ∈ state.dirtiedCodepts := by
  apply allocated.dirtied.mem_iff.mpr
  exact List.mem_append_left _ (List.mem_map.mpr ⟨_, mem_of_lookup found, rfl⟩)

theorem nextCodept_ok {codept : Nat} (allocated : state.Allocated reserved)
    (run : state.nextCodept = .ok (codept, state')) :
    state'.Allocated (reserved ++ [codept]) ∧ state'.selectedGlyphs = state.selectedGlyphs ∧
      state'.lutData = state.lutData ∧ state'.ligData = state.ligData ∧
      state'.dirtiedCodepts = state.dirtiedCodepts ++ [codept] ∧
      state'.dirtiedCodepts ++ state'.availableCodepts = scratchCodepoints := by
  unfold nextCodept at run
  cases available : state.availableCodepts with
  | nil => simp [available] at run
  | cons next rest =>
      simp only [available, Except.ok.injEq, Prod.mk.injEq] at run
      obtain ⟨rfl, rfl⟩ := run
      have pool : (state.dirtiedCodepts ++ [next]) ++ rest = scratchCodepoints := by
        rw [← allocated.pool, available, List.append_assoc]
        rfl
      refine ⟨⟨pool, ?_, allocated.glyphs_nodup⟩, rfl, rfl, rfl, rfl, pool⟩
      rw [← List.append_assoc]
      exact allocated.dirtied.append_right [next]

theorem selectGlyph_ok {labelBase : String} {idx glyph codept : Nat}
    (allocated : state.Allocated reserved)
    (run : state.selectGlyph labelBase idx glyph = .ok (codept, state')) :
    Selects reserved [glyph] state state' ∧
      state'.selectedGlyphs.lookup glyph = some codept := by
  unfold selectGlyph at run
  cases found : state.selectedGlyphs.lookup glyph with
  | some selected =>
      simp only [found, Except.ok.injEq, Prod.mk.injEq] at run
      obtain ⟨rfl, rfl⟩ := run
      exact ⟨⟨allocated, fun _ _ => id, fun _ _ => Or.inl, rfl, rfl⟩, found⟩
  | none =>
      rw [found] at run
      obtain ⟨⟨next, middle⟩, allocate, run⟩ := bind_ok run
      obtain ⟨middleAllocated, selectedEq, lutEq, ligEq, -, pool⟩ :=
        nextCodept_ok allocated allocate
      dsimp only at run
      split at run
      · cases run
      · simp only [Except.ok.injEq, Prod.mk.injEq] at run
        obtain ⟨rfl, rfl⟩ := run
        have fresh : glyph ∉ state.selectedGlyphs.map Prod.fst := by
          intro member
          obtain ⟨⟨key, value⟩, inItems, rfl⟩ := List.mem_map.mp member
          rw [List.lookup_eq_none_iff] at found
          have := found _ inItems
          simp at this
        refine ⟨⟨⟨pool, ?_, ?_⟩, ?_, ?_, lutEq, ligEq⟩, ?_⟩
        · have grown := middleAllocated.dirtied
          rw [selectedEq] at grown
          refine grown.trans ?_
          simp only [selectedEq, List.map_append, List.map_cons, List.map_nil,
            List.append_assoc]
          exact List.Perm.append_left _ List.perm_append_comm
        · simp only [selectedEq, List.map_append, List.map_cons, List.map_nil]
          exact allocated.glyphs_nodup.append (by simp) (by simpa using fresh)
        · intro other value kept
          simp only [selectedEq, List.lookup_append, kept, Option.some_or]
        · intro other value after
          simp only [selectedEq, List.lookup_append] at after
          cases before : state.selectedGlyphs.lookup other with
          | some old =>
              left
              rw [before, Option.some_or] at after
              exact after
          | none =>
              right
              rw [before, Option.none_or, List.lookup_cons] at after
              by_cases same : other = glyph
              · simp [same]
              · simp [beq_false_of_ne same] at after
        · simp only [selectedEq, List.lookup_append, found, Option.none_or]
          simp

theorem Selects.trans {first second : List Nat} {start middle final : PackState}
    (one : Selects reserved first start middle) (two : Selects reserved second middle final) :
    Selects reserved (first ++ second) start final := by
  refine ⟨two.allocated, ?_, ?_, two.lutData_eq.trans one.lutData_eq,
    two.ligData_eq.trans one.ligData_eq⟩
  · intro glyph codept found
    exact two.kept _ _ (one.kept _ _ found)
  · intro glyph codept found
    rcases two.origin _ _ found with earlier | here
    · rcases one.origin _ _ earlier with before | inFirst
      · exact Or.inl before
      · exact Or.inr (List.mem_append_left _ inFirst)
    · exact Or.inr (List.mem_append_right _ here)

/-- Once the base codepoint is set, every glyph contributes its distance to it. -/
theorem packForms_ok {labelBase : String} {idx base : Nat} {lineParts parts : List Int}
    {chForms : List Nat} (allocated : state.Allocated reserved) (truthy : base ≠ 0)
    (run : packForms labelBase idx (some base) lineParts chForms state = .ok (parts, state')) :
    ∃ codepts : List Nat, Selects reserved chForms state state' ∧
      List.Forall₂ (fun glyph codept => state'.selectedGlyphs.lookup glyph = some codept)
        chForms codepts ∧
      parts = lineParts ++ codepts.map fun codept : Nat => (codept : Int) - base := by
  induction chForms generalizing idx lineParts state with
  | nil =>
      simp only [packForms, Except.ok.injEq, Prod.mk.injEq] at run
      obtain ⟨rfl, rfl⟩ := run
      exact ⟨[], ⟨allocated, fun _ _ => id, fun _ _ => Or.inl, rfl, rfl⟩, .nil, by simp⟩
  | cons glyph chForms ih =>
      rw [packForms] at run
      obtain ⟨⟨codept, middle⟩, select, run⟩ := bind_ok run
      dsimp only at run
      rw [if_neg (by simpa using truthy)] at run
      obtain ⟨selects, found⟩ := selectGlyph_ok allocated select
      obtain ⟨codepts, rest, lookups, partsEq⟩ := ih selects.allocated run
      refine ⟨codept :: codepts, selects.trans rest, .cons (rest.kept _ _ found) lookups, ?_⟩
      rw [partsEq]
      simp

/-- The four forms of a key: the first codepoint, then three distances to it. -/
theorem packForms_four {labelBase : String} {trueCodept : Nat} {parts : List Int}
    {chForms : List Nat} (four : chForms.length = 4) (allocated : state.Allocated reserved)
    (run : packForms labelBase 0 none [(trueCodept : Int)] chForms state = .ok (parts, state')) :
    ∃ isolated initial medial final : Nat, Selects reserved chForms state state' ∧
      List.Forall₂ (fun glyph codept => state'.selectedGlyphs.lookup glyph = some codept)
        chForms [isolated, initial, medial, final] ∧
      parts = [(trueCodept : Int), isolated, initial - isolated, medial - isolated,
        final - isolated] := by
  match chForms, four with
  | [glyph, g1, g2, g3], _ =>
      rw [packForms] at run
      obtain ⟨⟨isolated, middle⟩, select, run⟩ := bind_ok run
      dsimp only at run
      rw [if_pos (by simp)] at run
      obtain ⟨selects, found⟩ := selectGlyph_ok allocated select
      have truthy : isolated ≠ 0 := by
        have scratch := selects.allocated.dirtied_scratch (selects.allocated.lookup_dirtied found)
        rw [mem_scratchCodepoints] at scratch
        omega
      obtain ⟨codepts, rest, lookups, partsEq⟩ := packForms_ok selects.allocated truthy run
      match codepts, lookups with
      | [initial, medial, final], lookups =>
          exact ⟨isolated, initial, medial, final, selects.trans rest,
            .cons (rest.kept _ _ found) lookups, by simpa using partsEq⟩

end PackState

theorem packLine_ok {trueCodept isolated : Nat} {initial medial final : Int}
    {line : List UInt8}
    (run : packLine [(trueCodept : Int), isolated, initial, medial, final] = .ok line)
    (rest : List UInt8) :
    shaperLutEntries (line ++ rest) =
      ⟨trueCodept, isolated, initial, medial, final⟩ :: shaperLutEntries rest := by
  unfold packLine at run
  obtain ⟨first, packFirst, run⟩ := bind_ok run
  obtain ⟨second, packSecond, run⟩ := bind_ok run
  obtain ⟨third, packThird, run⟩ := bind_ok run
  obtain ⟨fourth, packFourth, run⟩ := bind_ok run
  obtain ⟨fifth, packFifth, emitted⟩ := bind_ok run
  obtain ⟨b0, b1, rfl, value⟩ := packH_ok packFirst
  obtain ⟨b2, b3, rfl, isolatedValue⟩ := packH_ok packSecond
  obtain ⟨b4, rfl, rfl⟩ := packSignedB_ok packThird
  obtain ⟨b5, rfl, rfl⟩ := packSignedB_ok packFourth
  obtain ⟨b6, rfl, rfl⟩ := packSignedB_ok packFifth
  rw [← Except.ok.inj emitted]
  have trueEq : u16 b0 b1 = trueCodept := by exact_mod_cast value
  have isolatedEq : u16 b2 b3 = isolated := by exact_mod_cast isolatedValue
  simp [shaperLutEntries, trueEq, isolatedEq]

theorem packLetters_pair_ok {a b : Char} {bytes : List UInt8}
    (run : packLetters [a, b] = .ok bytes) (rest : List UInt8) :
    ligatureLutWords (bytes ++ rest) = a.toNat :: b.toNat :: ligatureLutWords rest := by
  simp only [packLetters] at run
  obtain ⟨first, packFirst, run⟩ := bind_ok run
  obtain ⟨tail, packTail, run⟩ := bind_ok run
  obtain ⟨second, packSecond, packTail⟩ := bind_ok packTail
  obtain ⟨b0, b1, rfl, firstValue⟩ := packH_ok packFirst
  obtain ⟨b2, b3, rfl, secondValue⟩ := packH_ok packSecond
  have firstEq : u16 b0 b1 = a.toNat := by exact_mod_cast firstValue
  have secondEq : u16 b2 b3 = b.toNat := by exact_mod_cast secondValue
  have tailEq : tail = [b2, b3] := by simpa using (Except.ok.inj packTail).symm
  rw [← Except.ok.inj run, tailEq]
  simp [ligatureLutWords, firstEq, secondEq]

/-- The ligature record of a two-letter key. -/
def ligatureRecord (ch : List Char) (codept : Nat) : Option LigatureRecord :=
  match ch with
  | [a, b] => some ⟨a.toNat, b.toNat, codept⟩
  | _ => none

/-- The ligature records among packed keys. -/
def ligaturesOf (pairs : List (CharacterForms × ShaperLUTEntry)) : List LigatureRecord :=
  pairs.filterMap fun pair => ligatureRecord pair.1.1 pair.2.trueCodept

/-- An entry whose four codepoints are those of the glyphs in `chForms`. -/
def EntryForms (selectedGlyphs : List (Nat × Nat)) (chForms : List Nat)
    (entry : ShaperLUTEntry) : Prop :=
  ∃ isolated initial medial final : Nat,
    List.Forall₂ (fun glyph codept => selectedGlyphs.lookup glyph = some codept)
      chForms [isolated, initial, medial, final] ∧
    entry.isolatedCodept = isolated ∧
    entry.initialCodeptDelta = (initial : Int) - isolated ∧
    entry.medialCodeptDelta = (medial : Int) - isolated ∧
    entry.finalCodeptDelta = (final : Int) - isolated

/-- The state after packing some keys into the given entries. -/
structure PackState.Packed (pairs : List (CharacterForms × ShaperLUTEntry))
    (state : PackState) : Prop where
  allocated : state.Allocated ((ligaturesOf pairs).map LigatureRecord.replacement)
  lut : ∀ rest, shaperLutEntries (state.lutData ++ rest) =
    pairs.map Prod.snd ++ shaperLutEntries rest
  lig : ∀ rest, ligatureLutWords (state.ligData ++ rest) =
    (ligaturesOf pairs).flatMap LigatureRecord.words ++ ligatureLutWords rest
  forms : ∀ pair ∈ pairs, EntryForms state.selectedGlyphs pair.1.2 pair.2
  letter : ∀ pair ∈ pairs, ∀ c, pair.1.1 = [c] → pair.2.trueCodept = c.toNat
  origin : ∀ glyph codept, state.selectedGlyphs.lookup glyph = some codept →
    ∃ pair ∈ pairs, glyph ∈ pair.1.2

theorem ligaturesOf_append (first second : List (CharacterForms × ShaperLUTEntry)) :
    ligaturesOf (first ++ second) = ligaturesOf first ++ ligaturesOf second :=
  List.filterMap_append

theorem ligaturesOf_singleton (item : CharacterForms) (entry : ShaperLUTEntry) :
    ligaturesOf [(item, entry)] = (ligatureRecord item.1 entry.trueCodept).toList := by
  unfold ligaturesOf
  cases record : ligatureRecord item.1 entry.trueCodept <;> simp [record]

theorem EntryForms.mono {before after : List (Nat × Nat)} {chForms : List Nat}
    {entry : ShaperLUTEntry} (forms : EntryForms before chForms entry)
    (kept : ∀ glyph codept, before.lookup glyph = some codept →
      after.lookup glyph = some codept) : EntryForms after chForms entry := by
  obtain ⟨isolated, initial, medial, final, lookups, rest⟩ := forms
  exact ⟨isolated, initial, medial, final, lookups.imp kept, rest⟩

namespace PackState

theorem packed_start : PackState.start.Packed [] where
  allocated := ⟨rfl, by simp [ligaturesOf, start], by simp [start]⟩
  lut _ := rfl
  lig _ := rfl
  forms _ member := by simp at member
  letter _ member := by simp at member
  origin _ _ found := by simp [start] at found

/-- What the true codepoint of a key adds before its forms are packed. -/
theorem trueCodept_ok {unicodedataName : Char → Option String} {ch : List Char} {codept : Nat}
    {labelBase : String} {pairs : List (CharacterForms × ShaperLUTEntry)}
    {state state' : PackState} (packed : state.Packed pairs)
    (length : ch.length = 1 ∨ ch.length = 2)
    (run : state.trueCodept unicodedataName ch = .ok (codept, labelBase, state')) :
    let added := (ligatureRecord ch codept).toList
    state'.Allocated ((ligaturesOf pairs ++ added).map LigatureRecord.replacement) ∧
      state'.selectedGlyphs = state.selectedGlyphs ∧ state'.lutData = state.lutData ∧
      (∀ rest, ligatureLutWords (state'.ligData ++ rest) =
        (ligaturesOf pairs ++ added).flatMap LigatureRecord.words ++ ligatureLutWords rest) ∧
      ∀ c, ch = [c] → codept = c.toNat := by
  match ch, length with
  | [c], _ =>
      unfold trueCodept at run
      dsimp only at run
      split at run
      · simp only [Except.ok.injEq, Prod.mk.injEq] at run
        obtain ⟨rfl, -, rfl⟩ := run
        refine ⟨by simpa [ligatureRecord] using packed.allocated, rfl, rfl,
          by simpa [ligatureRecord] using packed.lig, ?_⟩
        intro other same
        rw [(List.cons.inj same).1]
      · cases run
  | [a, b], _ =>
      unfold trueCodept at run
      dsimp only at run
      rw [if_pos (by simp)] at run
      obtain ⟨⟨next, middle⟩, allocate, run⟩ := bind_ok run
      obtain ⟨letters, packLetters, run⟩ := bind_ok run
      obtain ⟨replacement, packReplacement, emitted⟩ := bind_ok run
      simp only [Except.ok.injEq, Prod.mk.injEq] at emitted
      obtain ⟨rfl, -, rfl⟩ := emitted
      obtain ⟨allocated, selectedEq, lutEq, ligEq, -, -⟩ :=
        nextCodept_ok packed.allocated allocate
      obtain ⟨b0, b1, rfl, value⟩ := packH_ok packReplacement
      have word : u16 b0 b1 = markedCodept next := by exact_mod_cast value
      refine ⟨?_, selectedEq, lutEq, ?_, by simp⟩
      · have same := allocated
        refine ⟨same.pool, ?_, same.glyphs_nodup⟩
        simpa [ligatureRecord] using same.dirtied
      · intro rest
        dsimp only
        rw [ligEq, List.append_assoc, List.append_assoc, packed.lig,
          packLetters_pair_ok packLetters]
        simp [ligatureRecord, ligatureLutWords, LigatureRecord.words, word]

/-- Packing one more key. -/
theorem packCharacter_ok {unicodedataName : Char → Option String} {item : CharacterForms}
    {pairs : List (CharacterForms × ShaperLUTEntry)} {state state' : PackState}
    (packed : state.Packed pairs) (length : item.1.length = 1 ∨ item.1.length = 2)
    (four : item.2.length = 4)
    (run : state.packCharacter unicodedataName item = .ok state') :
    ∃ entry, state'.Packed (pairs ++ [(item, entry)]) := by
  unfold packCharacter at run
  obtain ⟨⟨codept, labelBase, middle⟩, codeptRun, run⟩ := bind_ok run
  obtain ⟨⟨parts, last⟩, formsRun, run⟩ := bind_ok run
  obtain ⟨line, lineRun, emitted⟩ := bind_ok run
  obtain ⟨allocated, selectedEq, lutEq, ligWords, letterEq⟩ :=
    trueCodept_ok packed length codeptRun
  obtain ⟨isolated, initial, medial, final, selects, lookups, rfl⟩ :=
    packForms_four four allocated formsRun
  have entryDecoded := packLine_ok lineRun
  rw [← Except.ok.inj emitted]
  refine ⟨⟨codept, isolated, initial - isolated, medial - isolated, final - isolated⟩,
    ?_, ?_, ?_, ?_, ?_, ?_⟩
  · rw [ligaturesOf_append, ligaturesOf_singleton]
    exact ⟨selects.allocated.pool, selects.allocated.dirtied, selects.allocated.glyphs_nodup⟩
  · intro rest
    simp only [selects.lutData_eq, lutEq, List.append_assoc, packed.lut, entryDecoded]
    simp
  · intro rest
    simp only [selects.ligData_eq, ligWords, ligaturesOf_append, ligaturesOf_singleton]
  · intro pair member
    rcases List.mem_append.mp member with earlier | here
    · apply (packed.forms pair earlier).mono
      intro glyph value found
      apply selects.kept
      rw [selectedEq]
      exact found
    · rw [List.mem_singleton.mp here]
      exact ⟨isolated, initial, medial, final, lookups, rfl, rfl, rfl, rfl⟩
  · intro pair member c key
    rcases List.mem_append.mp member with earlier | here
    · exact packed.letter pair earlier c key
    · rw [List.mem_singleton.mp here] at key ⊢
      exact letterEq c key
  · intro glyph value found
    rcases selects.origin glyph value found with before | here
    · rw [selectedEq] at before
      obtain ⟨pair, member, inForms⟩ := packed.origin glyph value before
      exact ⟨pair, List.mem_append_left _ member, inForms⟩
    · exact ⟨_, List.mem_append_right _ (List.mem_singleton.mpr rfl), here⟩

/-- Packing all keys: one entry for each, in order. -/
theorem packCharacters_ok {unicodedataName : Char → Option String}
    {items : List CharacterForms} {pairs : List (CharacterForms × ShaperLUTEntry)}
    {state state' : PackState} (packed : state.Packed pairs)
    (lengths : ∀ item ∈ items, item.1.length = 1 ∨ item.1.length = 2)
    (four : ∀ item ∈ items, item.2.length = 4)
    (run : state.packCharacters unicodedataName items = .ok state') :
    ∃ more, more.map Prod.fst = items ∧ state'.Packed (pairs ++ more) := by
  induction items generalizing pairs state with
  | nil =>
      rw [packCharacters] at run
      obtain rfl := Except.ok.inj run
      exact ⟨[], rfl, by simpa using packed⟩
  | cons item items ih =>
      rw [packCharacters] at run
      obtain ⟨middle, first, rest⟩ := bind_ok run
      obtain ⟨entry, packedMiddle⟩ := packCharacter_ok packed (lengths item (by simp))
        (four item (by simp)) first
      obtain ⟨more, keys, packedAll⟩ := ih packedMiddle
        (fun other member => lengths other (by simp [member]))
        (fun other member => four other (by simp [member])) rest
      exact ⟨(item, entry) :: more, by simp [keys], by simpa using packedAll⟩

end PackState

end Elbbep
