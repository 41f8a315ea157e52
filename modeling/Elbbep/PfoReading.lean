import Elbbep.PfoWriting

/-!
# Reading placed glyphs

A font file is written from glyphs that stand one after the other.  When every glyph tells
its own size, `font_read` gives each codepoint its glyph back, and codepoints share a glyph
as they did before.
-/

namespace Elbbep

namespace PfoMerge

open PythonStruct HashChains

/-- A header of five bytes, and the words of a bitmap whose width and height are the first two
bytes. -/
def IsRecord (data : List UInt8) : Prop :=
  ∃ width height rest, data = width :: height :: rest ∧
    data.length = 5 + (width.toNat * height.toNat + 31) / 32 * 4

/-- What some glyphs have for a codepoint. -/
def recordOf (glyphs : List Glyph) (c : Nat) : Option (List UInt8) :=
  (glyphs.find? fun glyph => c ∈ glyph.codepoints).map Glyph.data

/-- Two codepoints belong to one glyph. -/
def Shares (glyphs : List Glyph) (c d : Nat) : Prop :=
  ∃ glyph ∈ glyphs, c ∈ glyph.codepoints ∧ d ∈ glyph.codepoints

/-- The same records for the same codepoints, and the same sharing. -/
structure SameAssignment (glyphs others : List Glyph) : Prop where
  record : ∀ c, recordOf glyphs c = recordOf others c
  shares : ∀ c d, Shares glyphs c d ↔ Shares others c d

theorem recordOf_eq_none_iff {glyphs : List Glyph} {c : Nat} :
    recordOf glyphs c = none ↔ ∀ glyph ∈ glyphs, c ∉ glyph.codepoints := by
  simp [recordOf]

/-- Where no two glyphs differ on a codepoint, any glyph with the codepoint will do. -/
theorem recordOf_eq_some {glyphs : List Glyph} {glyph : Glyph} {c : Nat} (member : glyph ∈ glyphs)
    (here : c ∈ glyph.codepoints)
    (unique : ∀ other ∈ glyphs, c ∈ other.codepoints → other.data = glyph.data) :
    recordOf glyphs c = some glyph.data := by
  cases found : glyphs.find? fun glyph => c ∈ glyph.codepoints with
  | none => exact absurd here (by simpa using List.find?_eq_none.mp found glyph member)
  | some other =>
      have inOther : c ∈ other.codepoints := by simpa using List.find?_some found
      rw [recordOf, found, Option.map_some,
        unique other (List.mem_of_find?_eq_some found) inOther]

/-- The two ways to round the size of a bitmap agree. -/
theorem bitmapDataSz_eq (width height : Nat) :
    bitmapDataSz width height = (width * height + 31) / 32 * 4 := by
  rw [bitmapDataSz]
  omega

theorem readGlyphData_record {data : List UInt8} (record : IsRecord data) (rest : List UInt8) :
    readGlyphData (data ++ rest) 0 = .ok data := by
  obtain ⟨width, height, body, rfl, length⟩ := record
  have start : slice (width :: height :: body ++ rest) 0 2 = [width, height] := rfl
  rw [readGlyphData, Nat.zero_add, start]
  simp only [slice, List.drop_zero, Nat.zero_add, bitmapDataSz_eq, ← length]
  rw [List.take_left]

section Placed

variable {glyphs : List Glyph}

/-- A glyph stands at its offset. -/
theorem drop_placed {before behind : List Glyph} {glyph : Glyph} (pad : List UInt8) :
    (pad ++ (before ++ glyph :: behind).flatMap Glyph.data).drop
        (pad.length + (before.flatMap Glyph.data).length) =
      glyph.data ++ behind.flatMap Glyph.data := by
  rw [← List.drop_drop, List.drop_left, List.flatMap_append, List.drop_left, List.flatMap_cons]

/-- Glyphs with the same offset are the same. -/
theorem placed_unique (nonempty : ∀ glyph ∈ glyphs, glyph.data ≠ [])
    {before before' behind behind' : List Glyph} {glyph glyph' : Glyph}
    (split : glyphs = before ++ glyph :: behind) (split' : glyphs = before' ++ glyph' :: behind')
    (same : (before.flatMap Glyph.data).length = (before'.flatMap Glyph.data).length) :
    glyph = glyph' := by
  induction before generalizing glyphs before' with
  | nil =>
      cases before' with
      | nil => exact (List.cons.inj (split.symm.trans split')).1
      | cons first before' =>
          have positive := List.length_pos_iff.mpr (nonempty first (by simp [split']))
          rw [List.flatMap_nil, List.length_nil, List.flatMap_cons, List.length_append] at same
          omega
  | cons first before ih =>
      have positive := List.length_pos_iff.mpr (nonempty first (by simp [split]))
      cases before' with
      | nil =>
          rw [List.flatMap_nil, List.length_nil, List.flatMap_cons, List.length_append] at same
          omega
      | cons first' before' =>
          obtain ⟨rfl, tails⟩ := List.cons.inj (split.symm.trans split')
          subst split
          simp only [List.flatMap_cons, List.length_append, Nat.add_left_cancel_iff] at same
          exact ih (fun other member => nonempty other (by simp [member])) rfl tails same

theorem exists_placed (start : Nat) {glyph : Glyph} (member : glyph ∈ glyphs) {c : Nat}
    (here : c ∈ glyph.codepoints) :
    ∃ offset, (c, offset) ∈ placedFrom start glyphs := by
  obtain ⟨before, behind, split⟩ := List.append_of_mem member
  exact ⟨_, mem_placedFrom.mpr ⟨before, glyph, behind, split, here, rfl⟩⟩

end Placed

namespace GlyphsOf

variable {dataAt : Nat → List UInt8} {items : List (Nat × Nat)} {found : List (Nat × Glyph)}
  (done : GlyphsOf dataAt items found)

include done

/-- The glyphs that are found with a codepoint have one of its offsets. -/
theorem mem_values {glyph : Glyph} (member : glyph ∈ found.map Prod.snd) {c : Nat}
    (here : c ∈ glyph.codepoints) :
    ∃ offset, (c, offset) ∈ items ∧ glyph = ⟨codeptsAt items offset, dataAt offset⟩ := by
  obtain ⟨⟨offset, glyph⟩, inFound, rfl⟩ := List.mem_map.mp member
  obtain ⟨rfl, -⟩ := (done.mem_iff offset glyph).mp inFound
  exact ⟨offset, mem_codeptsAt.mp here, rfl⟩

theorem value_mem {c offset : Nat} (member : (c, offset) ∈ items) :
    (⟨codeptsAt items offset, dataAt offset⟩ : Glyph) ∈ found.map Prod.snd :=
  List.mem_map.mpr ⟨_, (done.mem_iff offset _).mpr ⟨rfl, List.mem_map.mpr ⟨_, member, rfl⟩⟩, rfl⟩

theorem recordOf_eq (distinct : (items.map Prod.fst).Nodup) {c offset : Nat}
    (member : (c, offset) ∈ items) : recordOf (found.map Prod.snd) c = some (dataAt offset) := by
  refine recordOf_eq_some (done.value_mem member) (mem_codeptsAt.mpr member) ?_
  intro other inFound here
  obtain ⟨otherOffset, otherMember, rfl⟩ := done.mem_values inFound here
  have same := List.inj_on_of_nodup_map distinct otherMember member rfl
  rw [(Prod.mk.inj same).2]

theorem recordOf_eq_none {c : Nat} (absent : c ∉ items.map Prod.fst) :
    recordOf (found.map Prod.snd) c = none := by
  rw [recordOf_eq_none_iff]
  intro glyph member here
  obtain ⟨offset, inItems, -⟩ := done.mem_values member here
  exact absent (List.mem_map.mpr ⟨_, inItems, rfl⟩)

theorem shares_iff (c d : Nat) :
    Shares (found.map Prod.snd) c d ↔ ∃ offset, (c, offset) ∈ items ∧ (d, offset) ∈ items := by
  constructor
  · rintro ⟨glyph, member, cHere, dHere⟩
    obtain ⟨offset, cItem, rfl⟩ := done.mem_values member cHere
    exact ⟨offset, cItem, mem_codeptsAt.mp dHere⟩
  · rintro ⟨offset, cItem, dItem⟩
    exact ⟨_, done.value_mem cItem, mem_codeptsAt.mpr cItem, mem_codeptsAt.mpr dItem⟩

end GlyphsOf

/-- The glyphs in a file. -/
def glyphTableOf (glyphs : List Glyph) : List UInt8 :=
  [0, 0, 0, 0] ++ glyphs.flatMap Glyph.data

/-- The glyph at the offset of a codepoint. -/
theorem drop_glyphTableOf {glyphs : List Glyph} {pair : Nat × Nat}
    (member : pair ∈ placedFrom 4 glyphs) :
    ∃ glyph ∈ glyphs, pair.1 ∈ glyph.codepoints ∧
      ∃ rest, (glyphTableOf glyphs).drop pair.2 = glyph.data ++ rest := by
  obtain ⟨before, glyph, behind, rfl, here, offset⟩ := mem_placedFrom.mp member
  refine ⟨glyph, by simp, here, behind.flatMap Glyph.data, ?_⟩
  rw [offset]
  exact drop_placed [0, 0, 0, 0]

theorem placed_shares_iff {glyphs : List Glyph} (nonempty : ∀ glyph ∈ glyphs, glyph.data ≠ [])
    (c d : Nat) :
    Shares glyphs c d ↔
      ∃ offset, (c, offset) ∈ placedFrom 4 glyphs ∧ (d, offset) ∈ placedFrom 4 glyphs := by
  constructor
  · rintro ⟨glyph, member, cHere, dHere⟩
    obtain ⟨before, behind, split⟩ := List.append_of_mem member
    exact ⟨_, mem_placedFrom.mpr ⟨before, glyph, behind, split, cHere, rfl⟩,
      mem_placedFrom.mpr ⟨before, glyph, behind, split, dHere, rfl⟩⟩
  · rintro ⟨offset, cPlaced, dPlaced⟩
    obtain ⟨before, glyph, behind, split, cHere, cOffset⟩ := mem_placedFrom.mp cPlaced
    obtain ⟨before', glyph', behind', split', dHere, dOffset⟩ := mem_placedFrom.mp dPlaced
    obtain rfl := placed_unique nonempty split split' (by simp only at cOffset dOffset; omega)
    exact ⟨glyph, by simp [split], cHere, dHere⟩

/-- Each codepoint has one glyph. -/
theorem recordOf_of_distinct {glyphs : List Glyph}
    (distinct : (glyphs.flatMap Glyph.codepoints).Nodup) {glyph : Glyph} (member : glyph ∈ glyphs)
    {c : Nat} (here : c ∈ glyph.codepoints) : recordOf glyphs c = some glyph.data := by
  refine recordOf_eq_some member here ?_
  intro other otherMember otherHere
  have disjoint := (List.nodup_flatMap.mp distinct).2
  by_contra different
  have ne : other ≠ glyph := fun eq => different (by rw [eq])
  have : Std.Symm (Function.onFun List.Disjoint Glyph.codepoints) :=
    ⟨fun _ _ apart => List.Disjoint.symm apart⟩
  have apart := disjoint.forall otherMember member ne
  exact apart otherHere here

/-- What `font_read` finds in a file whose glyphs it reads as `dataAt`. -/
theorem fontRead_placed {glyphs : List Glyph} {chainItem : ChainItem}
    {pairs : List (Nat × Nat)} (placed : pairs.Perm (placedFrom 4 glyphs))
    {headerBytes : List UInt8} {header : Header}
    (headerEq : readHeader (pfoFile chainItem pairs headerBytes (glyphTableOf glyphs)) = .ok header)
    (sizeEq : header.headerSize = headerBytes.length) (itemEq : header.chainItem = chainItem)
    (countEq : header.codeptCt = pairs.length) (fits : TablesFit chainItem pairs)
    {dataAt : Nat → List UInt8}
    (reads : ∀ pair ∈ placedFrom 4 glyphs,
      readGlyphData ((glyphTableOf glyphs).drop pair.2) 0 = .ok (dataAt pair.2)) :
    ∃ found items, fontRead (pfoFile chainItem pairs headerBytes (glyphTableOf glyphs)) =
        .ok ⟨header.maxHeight, header.wildcard, header.compressed, found⟩ ∧
      GlyphsOf dataAt items found ∧ items.Perm (placedFrom 4 glyphs) := by
  obtain ⟨found, run, done⟩ := fontRead_pfoFile headerEq sizeEq itemEq countEq fits
    fun pair member => reads pair (placed.mem_iff.mp member)
  exact ⟨found, _, run, done, (inBucketOrder_perm fun pair _ => binNo_lt pair).trans placed⟩

/-- Glyphs that are found with their own records are the ones that were placed. -/
theorem sameAssignment_of_glyphsOf {glyphs : List Glyph}
    (nonempty : ∀ glyph ∈ glyphs, glyph.data ≠ [])
    (distinct : (glyphs.flatMap Glyph.codepoints).Nodup) {dataAt : Nat → List UInt8}
    (dataEq : ∀ pair ∈ placedFrom 4 glyphs, recordOf glyphs pair.1 = some (dataAt pair.2))
    {items : List (Nat × Nat)} (perm : items.Perm (placedFrom 4 glyphs))
    {found : List (Nat × Glyph)} (done : GlyphsOf dataAt items found) :
    SameAssignment glyphs (found.map Prod.snd) := by
  have codepts : (items.map Prod.fst).Nodup := by
    rw [(perm.map Prod.fst).nodup_iff, map_fst_placedFrom]
    exact distinct
  constructor
  · intro c
    by_cases assigned : ∃ glyph ∈ glyphs, c ∈ glyph.codepoints
    · obtain ⟨glyph, member, here⟩ := assigned
      obtain ⟨offset, inPlaced⟩ := exists_placed 4 member here
      rw [done.recordOf_eq codepts (perm.mem_iff.mpr inPlaced), dataEq _ inPlaced]
    · have absent : c ∉ items.map Prod.fst := by
        rw [(perm.map Prod.fst).mem_iff, map_fst_placedFrom, List.mem_flatMap]
        exact assigned
      rw [done.recordOf_eq_none absent, recordOf_eq_none_iff]
      exact fun glyph member here => assigned ⟨glyph, member, here⟩
  · intro c d
    rw [placed_shares_iff nonempty, done.shares_iff]
    simp only [perm.mem_iff]

/-- Where every glyph tells its size, the assignment is read back. -/
theorem fontRead_records {glyphs : List Glyph} (records : ∀ glyph ∈ glyphs, IsRecord glyph.data)
    (distinct : (glyphs.flatMap Glyph.codepoints).Nodup) {chainItem : ChainItem}
    {pairs : List (Nat × Nat)} (placed : pairs.Perm (placedFrom 4 glyphs))
    {headerBytes : List UInt8} {header : Header}
    (headerEq : readHeader (pfoFile chainItem pairs headerBytes (glyphTableOf glyphs)) = .ok header)
    (sizeEq : header.headerSize = headerBytes.length) (itemEq : header.chainItem = chainItem)
    (countEq : header.codeptCt = pairs.length) (fits : TablesFit chainItem pairs) :
    ∃ found, fontRead (pfoFile chainItem pairs headerBytes (glyphTableOf glyphs)) =
        .ok ⟨header.maxHeight, header.wildcard, header.compressed, found⟩ ∧
      SameAssignment glyphs (found.map Prod.snd) := by
  have nonempty : ∀ glyph ∈ glyphs, glyph.data ≠ [] := by
    intro glyph member
    obtain ⟨width, height, rest, eq, -⟩ := records glyph member
    simp [eq]
  let dataAt (offset : Nat) : List UInt8 :=
    ((readGlyphData ((glyphTableOf glyphs).drop offset) 0).toOption).getD []
  have reads : ∀ pair ∈ placedFrom 4 glyphs,
      readGlyphData ((glyphTableOf glyphs).drop pair.2) 0 = .ok (dataAt pair.2) ∧
        recordOf glyphs pair.1 = some (dataAt pair.2) := by
    intro pair member
    obtain ⟨glyph, inGlyphs, here, rest, dropped⟩ := drop_glyphTableOf member
    have read := readGlyphData_record (records glyph inGlyphs) rest
    have dataEq : dataAt pair.2 = glyph.data := by
      simp only [dataAt, dropped, read]
      rfl
    rw [dataEq, dropped]
    exact ⟨read, recordOf_of_distinct distinct inGlyphs here⟩
  obtain ⟨found, items, run, done, perm⟩ := fontRead_placed placed headerEq sizeEq itemEq countEq
    fits fun pair member => (reads pair member).1
  exact ⟨found, run, sameAssignment_of_glyphsOf nonempty distinct
    (fun pair member => (reads pair member).2) perm done⟩

end PfoMerge

end Elbbep
