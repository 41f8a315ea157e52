import Elbbep.PfoReading

/-!
# Merged fonts

`merge_fonts` maps every codepoint to a new object for the last glyph that has it, and then
gathers the codepoints of each object.  So a merged font has, for every codepoint, the glyph
of the last font that has one; in which order the dictionaries are iterated does not matter.
-/

namespace Elbbep

namespace PfoMerge

open PythonStruct HashChains

/-! ## Mapping codepoints -/

theorem lookup_isSome_iff_mem {items : List (Nat × Nat)} {key : Nat} :
    (items.lookup key).isSome = true ↔ key ∈ items.map Prod.fst := by
  rw [List.lookup_isSome_iff, List.mem_map]
  constructor
  · rintro ⟨item, member, same⟩
    exact ⟨item, member, (beq_iff_eq.mp same).symm⟩
  · rintro ⟨item, member, rfl⟩
    exact ⟨item, member, beq_self_eq_true _⟩

theorem mem_setItem {items : List (Nat × Nat)} {key value c object : Nat} :
    (c, object) ∈ setItem items key value ↔
      if c = key then object = value else (c, object) ∈ items := by
  unfold setItem
  by_cases known : (items.lookup key).isSome = true
  · rw [if_pos known, List.mem_map]
    obtain ⟨item, member, rfl⟩ := List.mem_map.mp (lookup_isSome_iff_mem.mp known)
    by_cases same : c = item.1
    · rw [if_pos same]
      constructor
      · rintro ⟨other, -, eq⟩
        split at eq
        next => exact (Prod.mk.inj eq).2.symm
        next different => exact absurd (same ▸ congrArg Prod.fst eq) different
      · rintro rfl
        exact ⟨item, member, by simp [same]⟩
    · rw [if_neg same]
      constructor
      · rintro ⟨other, otherMember, eq⟩
        split at eq
        next => exact absurd (Prod.mk.inj eq).1.symm same
        next => exact eq ▸ otherMember
      · intro inItems
        exact ⟨(c, object), inItems, if_neg same⟩
  · rw [if_neg known, List.mem_append, List.mem_singleton, Prod.mk.injEq]
    rw [lookup_isSome_iff_mem, List.mem_map] at known
    by_cases same : c = key
    · have absent : (c, object) ∉ items := fun member => known ⟨_, member, same⟩
      simp [same ▸ absent, same]
    · simp [same]

theorem keys_setItem (items : List (Nat × Nat)) (key value : Nat) :
    (setItem items key value).map Prod.fst =
      if key ∈ items.map Prod.fst then items.map Prod.fst else items.map Prod.fst ++ [key] := by
  unfold setItem
  by_cases known : (items.lookup key).isSome = true
  · rw [if_pos known, if_pos (lookup_isSome_iff_mem.mp known), List.map_map]
    apply List.map_congr_left
    intro item _
    simp only [Function.comp_apply]
    split
    next here => exact here.symm
    next => rfl
  · rw [if_neg known, if_neg (lookup_isSome_iff_mem.not.mp known), List.map_append]
    rfl

theorem setItem_fresh {items : List (Nat × Nat)} {key : Nat} (fresh : key ∉ items.map Prod.fst)
    (value : Nat) : setItem items key value = items ++ [(key, value)] :=
  if_neg (lookup_isSome_iff_mem.not.mpr fresh)

theorem nodup_keys_setItem {items : List (Nat × Nat)} (nodup : (items.map Prod.fst).Nodup)
    (key value : Nat) : ((setItem items key value).map Prod.fst).Nodup := by
  rw [keys_setItem]
  split
  next => exact nodup
  next absent =>
    rw [List.nodup_append_comm]
    exact List.nodup_cons.mpr ⟨absent, nodup⟩

/-- Several keys with one value. -/
theorem mem_foldl_setItem {keys : List Nat} {items : List (Nat × Nat)} {value c object : Nat} :
    (c, object) ∈ keys.foldl (fun items key => setItem items key value) items ↔
      if c ∈ keys then object = value else (c, object) ∈ items := by
  induction keys generalizing items with
  | nil => simp
  | cons key keys ih =>
      rw [List.foldl_cons, ih, mem_setItem]
      by_cases later : c ∈ keys
      · simp [later]
      · by_cases here : c = key <;> simp [later, here]

theorem nodup_keys_foldl_setItem {keys : List Nat} {items : List (Nat × Nat)}
    (nodup : (items.map Prod.fst).Nodup) (value : Nat) :
    ((keys.foldl (fun items key => setItem items key value) items).map Prod.fst).Nodup := by
  induction keys generalizing items with
  | nil => exact nodup
  | cons key keys ih => exact ih (nodup_keys_setItem nodup key value)

/-- The position of the last glyph with a codepoint. -/
structure LastOwner (glyphs : List Glyph) (c object : Nat) : Prop where
  owns : ∃ glyph, glyphs[object]? = some glyph ∧ c ∈ glyph.codepoints
  last : ∀ later glyph, object < later → glyphs[later]? = some glyph → c ∉ glyph.codepoints

theorem lastOwner_concat {glyphs : List Glyph} {glyph : Glyph} {c object : Nat} :
    LastOwner (glyphs ++ [glyph]) c object ↔
      if c ∈ glyph.codepoints then object = glyphs.length else LastOwner glyphs c object := by
  have atEnd : (glyphs ++ [glyph])[glyphs.length]? = some glyph := by simp
  have below {index : Nat} (bound : index < glyphs.length) :
      (glyphs ++ [glyph])[index]? = glyphs[index]? := List.getElem?_append_left bound
  have bounded {index : Nat} {other : Glyph} (here : (glyphs ++ [glyph])[index]? = some other) :
      index < glyphs.length ∨ index = glyphs.length := by
    obtain ⟨bound, -⟩ := List.getElem?_eq_some_iff.mp here
    rw [List.length_append, List.length_singleton] at bound
    omega
  split
  next inGlyph =>
    constructor
    · rintro ⟨⟨other, here, -⟩, last⟩
      rcases bounded here with before | atLast
      · exact absurd inGlyph (last _ glyph before atEnd)
      · exact atLast
    · rintro rfl
      refine ⟨⟨glyph, atEnd, inGlyph⟩, ?_⟩
      intro later other behind here
      rcases bounded here with before | atLast <;> omega
  next notInGlyph =>
    constructor
    · rintro ⟨⟨other, here, owned⟩, last⟩
      rcases bounded here with before | rfl
      · refine ⟨⟨other, below before ▸ here, owned⟩, ?_⟩
        intro later next behind there
        obtain ⟨bound, -⟩ := List.getElem?_eq_some_iff.mp there
        exact last later next behind (below bound ▸ there)
      · rw [atEnd, Option.some.injEq] at here
        exact absurd (here ▸ owned) notInGlyph
    · rintro ⟨⟨other, here, owned⟩, last⟩
      obtain ⟨bound, -⟩ := List.getElem?_eq_some_iff.mp here
      refine ⟨⟨other, below bound ▸ here, owned⟩, ?_⟩
      intro later next behind there
      rcases bounded there with before | rfl
      · exact last later next behind (below before ▸ there)
      · rw [atEnd, Option.some.injEq] at there
        exact there ▸ notInGlyph

theorem LastOwner.exists {glyphs : List Glyph} {c : Nat}
    (owned : ∃ glyph ∈ glyphs, c ∈ glyph.codepoints) : ∃ object, LastOwner glyphs c object := by
  induction glyphs using List.reverseRecOn with
  | nil => simp at owned
  | append_singleton glyphs glyph ih =>
      by_cases here : c ∈ glyph.codepoints
      · exact ⟨glyphs.length, lastOwner_concat.mpr (by rw [if_pos here])⟩
      · obtain ⟨other, member, inOther⟩ := owned
        rcases List.mem_append.mp member with before | last
        · obtain ⟨object, owner⟩ := ih ⟨other, before, inOther⟩
          exact ⟨object, lastOwner_concat.mpr (by rw [if_neg here]; exact owner)⟩
        · rw [List.mem_singleton.mp last] at inOther
          exact absurd inOther here

/-- After some glyphs are mapped: every codepoint has the object of its last glyph. -/
structure Mapped (glyphs : List Glyph) (state : MergeState) : Prop where
  objects_eq : state.objects = glyphs.map fun glyph => ⟨[], glyph.data⟩
  keys_nodup : (state.fontCptMap.map Prod.fst).Nodup
  mem_iff : ∀ c object, (c, object) ∈ state.fontCptMap ↔ LastOwner glyphs c object

namespace Mapped

theorem nil : Mapped [] ⟨[], []⟩ where
  objects_eq := rfl
  keys_nodup := List.nodup_nil
  mem_iff c object := by
    refine ⟨by simp, ?_⟩
    rintro ⟨⟨glyph, here, -⟩, -⟩
    simp at here

theorem mapGlyph {glyphs : List Glyph} {state : MergeState} (mapped : Mapped glyphs state)
    (glyph : Glyph) : Mapped (glyphs ++ [glyph]) (mapGlyph state glyph) where
  objects_eq := by simp [PfoMerge.mapGlyph, mapped.objects_eq]
  keys_nodup := nodup_keys_foldl_setItem mapped.keys_nodup _
  mem_iff c object := by
    rw [PfoMerge.mapGlyph, mem_foldl_setItem, mapped.objects_eq, List.length_map,
      lastOwner_concat, mapped.mem_iff]

theorem foldl_mapGlyph {glyphs : List Glyph} {state : MergeState} (mapped : Mapped glyphs state)
    (later : List Glyph) : Mapped (glyphs ++ later) (later.foldl PfoMerge.mapGlyph state) := by
  induction later generalizing glyphs state with
  | nil => simpa using mapped
  | cons glyph later ih => simpa using ih (mapped.mapGlyph glyph)

end Mapped

/-! ## Collecting the objects -/

/-- After the codepoints of some items are appended to their objects. -/
structure Collected (dataOf : Nat → Option (List UInt8)) (items : List (Nat × Nat))
    (state : CollectState) : Prop where
  object : ∀ id, state.objects[id]? = (dataOf id).map fun data => ⟨codeptsAt items id, data⟩
  objects_nodup : (state.fontGlyphs.map Prod.snd).Nodup
  mem_objects : ∀ id, id ∈ state.fontGlyphs.map Prod.snd ↔ id ∈ items.map Prod.snd
  mem_items : ∀ entry ∈ state.fontGlyphs, entry ∈ items

namespace Collected

variable {dataOf : Nat → Option (List UInt8)} {items : List (Nat × Nat)} {state : CollectState}

theorem start (objects : List Glyph) (empty : ∀ glyph ∈ objects, glyph.codepoints = []) :
    Collected (fun id => objects[id]?.map Glyph.data) [] ⟨objects, []⟩ where
  object id := by
    cases here : objects[id]? with
    | none => simp
    | some glyph =>
        have none := empty glyph (List.mem_of_getElem? here)
        cases glyph
        simp_all [codeptsAt]
  objects_nodup := List.nodup_nil
  mem_objects := by simp
  mem_items := by simp

/-- The object of an item after its codepoint is appended. -/
theorem object_modify (collected : Collected dataOf items state) (item : Nat × Nat) (id : Nat) :
    (state.objects.modify item.2 fun glyph =>
        (⟨glyph.codepoints ++ [item.1], glyph.data⟩ : Glyph))[id]? =
      (dataOf id).map fun data => ⟨codeptsAt (items ++ [item]) id, data⟩ := by
  rw [List.getElem?_modify, collected.object id]
  by_cases same : item.2 = id
  · cases dataOf id <;> simp [same, codeptsAt_concat]
  · cases dataOf id <;> simp [same, codeptsAt_concat]

/-- Only the object itself is equal to an object with a new codepoint. -/
theorem any_equal_iff (fontGlyphs : List (Nat × Nat)) {item : Nat × Nat}
    (fresh : item.1 ∉ items.map Prod.fst) (known : (dataOf item.2).isSome) :
    (fontGlyphs.any fun entry =>
        (dataOf entry.2).map (fun data => (⟨codeptsAt (items ++ [item]) entry.2, data⟩ : Glyph)) ==
          (dataOf item.2).map fun data => ⟨codeptsAt (items ++ [item]) item.2, data⟩) = true ↔
      item.2 ∈ fontGlyphs.map Prod.snd := by
  obtain ⟨data, found⟩ := Option.isSome_iff_exists.mp known
  rw [List.any_eq_true, List.mem_map]
  constructor
  · rintro ⟨entry, member, equal⟩
    refine ⟨entry, member, ?_⟩
    rw [beq_iff_eq, found] at equal
    obtain ⟨other, -, equal⟩ := Option.map_eq_some_iff.mp equal
    have codepts : codeptsAt (items ++ [item]) entry.2 = codeptsAt (items ++ [item]) item.2 :=
      congrArg Glyph.codepoints equal
    have inItem : item.1 ∈ codeptsAt (items ++ [item]) item.2 := mem_codeptsAt.mpr (by simp)
    rw [← codepts, mem_codeptsAt, List.mem_append] at inItem
    rcases inItem with old | new
    · exact absurd (List.mem_map.mpr ⟨_, old, rfl⟩) fresh
    · have same := congrArg Prod.snd (List.mem_singleton.mp new)
      exact same
  · rintro ⟨entry, member, same⟩
    exact ⟨entry, member, by rw [same, beq_self_eq_true]⟩

theorem collectGlyph (collected : Collected dataOf items state) {item : Nat × Nat}
    (fresh : item.1 ∉ items.map Prod.fst) (known : (dataOf item.2).isSome) :
    Collected dataOf (items ++ [item]) (collectGlyph state item) := by
  have objects := collected.object_modify item
  have freshKey : item.1 ∉ state.fontGlyphs.map Prod.fst := by
    intro member
    obtain ⟨entry, inGlyphs, same⟩ := List.mem_map.mp member
    exact fresh (List.mem_map.mpr ⟨entry, collected.mem_items entry inGlyphs, same⟩)
  have equal := any_equal_iff state.fontGlyphs fresh known
  unfold PfoMerge.collectGlyph
  simp only [objects]
  by_cases present : item.2 ∈ state.fontGlyphs.map Prod.snd
  · rw [if_pos (equal.mpr present)]
    refine ⟨objects, collected.objects_nodup, ?_, ?_⟩
    · intro id
      rw [collected.mem_objects, List.map_append, List.mem_append]
      constructor
      · exact Or.inl
      · rintro (old | new)
        · exact old
        · rw [List.mem_singleton.mp new, ← collected.mem_objects]
          exact present
    · exact fun entry member => List.mem_append_left _ (collected.mem_items entry member)
  · rw [if_neg (equal.not.mpr present), setItem_fresh freshKey]
    refine ⟨objects, ?_, ?_, ?_⟩
    · rw [List.map_append, List.nodup_append_comm]
      exact List.nodup_cons.mpr ⟨present, collected.objects_nodup⟩
    · intro id
      rw [List.map_append, List.map_append, List.mem_append, List.mem_append,
        collected.mem_objects]
    · intro entry member
      rcases List.mem_append.mp member with old | new
      · exact List.mem_append_left _ (collected.mem_items entry old)
      · exact List.mem_append_right _ new

/-- After all items. -/
theorem foldl_collectGlyph (collected : Collected dataOf items state) {later : List (Nat × Nat)}
    (keys : ((items ++ later).map Prod.fst).Nodup)
    (known : ∀ item ∈ later, (dataOf item.2).isSome) :
    Collected dataOf (items ++ later) (later.foldl PfoMerge.collectGlyph state) := by
  induction later generalizing items state with
  | nil => simpa using collected
  | cons item later ih =>
      have fresh : item.1 ∉ items.map Prod.fst := by
        rw [List.map_append, List.map_cons, List.nodup_middle, List.nodup_cons] at keys
        exact fun member => keys.1 (List.mem_append_left _ member)
      have next := collected.collectGlyph fresh (known item (by simp))
      have done := ih next (by simpa using keys) fun other member => known other (by simp [member])
      simpa using done

/-- The glyph that is kept for an object. -/
theorem getD_object (collected : Collected dataOf items state) {id : Nat} {data : List UInt8}
    (found : dataOf id = some data) :
    state.objects.getD id ⟨[], []⟩ = ⟨codeptsAt items id, data⟩ := by
  rw [List.getD_eq_getElem?_getD, collected.object, found]
  rfl

section Values

variable (collected : Collected dataOf items state) (keys : (items.map Prod.fst).Nodup)
  (known : ∀ item ∈ items, (dataOf item.2).isSome)

include collected known

theorem codepoints_eq {entry : Nat × Nat} (member : entry ∈ state.fontGlyphs) :
    ∃ data, dataOf entry.2 = some data ∧
      state.objects.getD entry.2 ⟨[], []⟩ = ⟨codeptsAt items entry.2, data⟩ := by
  obtain ⟨data, found⟩ := Option.isSome_iff_exists.mp
    (known entry (collected.mem_items entry member))
  exact ⟨data, found, collected.getD_object found⟩

include keys

theorem nodup_codepoints :
    (state.fontGlyphs.flatMap fun entry =>
      (state.objects.getD entry.2 ⟨[], []⟩).codepoints).Nodup := by
  rw [List.nodup_flatMap]
  constructor
  · intro entry member
    obtain ⟨data, -, eq⟩ := collected.codepoints_eq known member
    rw [eq]
    exact keys.sublist (List.filter_sublist.map _)
  · have apart := List.pairwise_map.mp collected.objects_nodup
    refine apart.imp_of_mem ?_
    intro entry other member otherMember different c here there
    obtain ⟨data, -, eq⟩ := collected.codepoints_eq known member
    obtain ⟨otherData, -, otherEq⟩ := collected.codepoints_eq known otherMember
    simp only [eq, mem_codeptsAt] at here
    simp only [otherEq, mem_codeptsAt] at there
    have same := List.inj_on_of_nodup_map keys here there rfl
    exact different (Prod.mk.inj same).2

end Values

end Collected

/-! ## Merged fonts -/

namespace Font

/-- The record that a font has for a codepoint. -/
def record (font : Font) (c : Nat) : Option (List UInt8) :=
  recordOf (font.glyphs.map Prod.snd) c

/-- Codepoints of two bytes, each of them once, and glyphs with codepoints and a header. -/
structure WellFormed (font : Font) : Prop where
  codepoint_lt : ∀ entry ∈ font.glyphs, ∀ c ∈ entry.2.codepoints, c < 65536
  distinct : (font.glyphs.flatMap fun entry => entry.2.codepoints).Nodup
  nonempty : ∀ entry ∈ font.glyphs, entry.2.codepoints ≠ []
  long : ∀ entry ∈ font.glyphs, 5 ≤ entry.2.data.length

theorem WellFormed.distinct_values {font : Font} (wellFormed : font.WellFormed) :
    ((font.glyphs.map Prod.snd).flatMap Glyph.codepoints).Nodup := by
  rw [List.flatMap_map]
  exact wellFormed.distinct

end Font

/-- The last owner among the glyphs of two fonts is in the second font if it can be. -/
theorem LastOwner.record_eq {first second : List Glyph}
    (distinctFirst : (first.flatMap Glyph.codepoints).Nodup)
    (distinctSecond : (second.flatMap Glyph.codepoints).Nodup) {c object : Nat}
    (owner : LastOwner (first ++ second) c object) {glyph : Glyph}
    (here : (first ++ second)[object]? = some glyph) :
    (recordOf second c).or (recordOf first c) = some glyph.data := by
  obtain ⟨other, there, owned⟩ := owner.owns
  obtain rfl := Option.some.inj (here.symm.trans there)
  by_cases inSecond : ∃ later ∈ second, c ∈ later.codepoints
  · obtain ⟨later, member, inLater⟩ := inSecond
    obtain ⟨index, bound, rfl⟩ := List.getElem_of_mem member
    have behind : first.length ≤ object := by
      by_contra before
      refine owner.last (first.length + index) second[index] (by omega) ?_ inLater
      rw [List.getElem?_append_right (by omega), Nat.add_sub_cancel_left]
      exact List.getElem?_eq_getElem bound
    rw [List.getElem?_append_right behind] at here
    rw [recordOf_of_distinct distinctSecond (List.mem_of_getElem? here) owned]
    rfl
  · have none : recordOf second c = none :=
      recordOf_eq_none_iff.mpr fun later member inLater => inSecond ⟨later, member, inLater⟩
    have inFirst : glyph ∈ first := by
      rcases List.mem_append.mp (List.mem_of_getElem? here) with inFirst | later
      · exact inFirst
      · exact absurd ⟨glyph, later, owned⟩ inSecond
    rw [none, recordOf_of_distinct distinctFirst inFirst owned]
    rfl

/-- The items in any order, collected to glyphs. -/
theorem Mapped.collected {glyphs : List Glyph} {state : MergeState} (mapped : Mapped glyphs state)
    {items : List (Nat × Nat)} (perm : items.Perm state.fontCptMap) :
    Collected (fun id => glyphs[id]?.map Glyph.data) items
        (items.foldl collectGlyph ⟨state.objects, []⟩) ∧
      (items.map Prod.fst).Nodup ∧ ∀ item ∈ items, (glyphs[item.2]?.map Glyph.data).isSome := by
  have keys : (items.map Prod.fst).Nodup := (perm.map _).nodup_iff.mpr mapped.keys_nodup
  have known : ∀ item ∈ items, (glyphs[item.2]?.map Glyph.data).isSome := by
    intro item member
    obtain ⟨⟨glyph, here, -⟩, -⟩ := (mapped.mem_iff item.1 item.2).mp (perm.mem_iff.mp member)
    simp [here]
  refine ⟨?_, keys, known⟩
  have start := Collected.start state.objects (by simp [mapped.objects_eq])
  have dataEq : (fun id : Nat => state.objects[id]?.map Glyph.data) =
      fun id => glyphs[id]?.map Glyph.data := by
    funext id
    rw [mapped.objects_eq, List.getElem?_map, Option.map_map]
    rfl
  rw [dataEq] at start
  exact start.foldl_collectGlyph keys known

/-- What the glyphs of a merged font are, from the glyphs of both fonts: each codepoint stands
in one of them, with the data of its last owner. -/
structure MergedFrom (glyphs : List Glyph) (merged : List (Nat × Glyph)) : Prop where
  distinct : (merged.flatMap fun entry => entry.2.codepoints).Nodup
  nonempty : ∀ entry ∈ merged, entry.2.codepoints ≠ []
  data : ∀ entry ∈ merged, ∃ glyph ∈ glyphs, entry.2.data = glyph.data
  owned : ∀ entry ∈ merged, ∀ c ∈ entry.2.codepoints, ∃ glyph ∈ glyphs, c ∈ glyph.codepoints
  owner : ∀ c object glyph, LastOwner glyphs c object → glyphs[object]? = some glyph →
    ∃ entry ∈ merged, c ∈ entry.2.codepoints ∧ entry.2.data = glyph.data

theorem Mapped.mergedFrom {glyphs : List Glyph} {state : MergeState} (mapped : Mapped glyphs state)
    {items : List (Nat × Nat)} (perm : items.Perm state.fontCptMap) {merged : List (Nat × Glyph)}
    (order : merged.Perm
      ((items.foldl collectGlyph ⟨state.objects, []⟩).fontGlyphs.map fun entry =>
        (entry.1, (items.foldl collectGlyph ⟨state.objects, []⟩).objects.getD entry.2 ⟨[], []⟩))) :
    MergedFrom glyphs merged := by
  obtain ⟨collected, keys, known⟩ := mapped.collected perm
  have mem_items (c object : Nat) : (c, object) ∈ items ↔ LastOwner glyphs c object :=
    perm.mem_iff.trans (mapped.mem_iff c object)
  have entries : ∀ entry ∈ merged, ∃ item ∈ items, ∃ glyph ∈ glyphs,
      entry.2 = ⟨codeptsAt items item.2, glyph.data⟩ := by
    intro entry member
    obtain ⟨item, inState, rfl⟩ := List.mem_map.mp (order.mem_iff.mp member)
    obtain ⟨data, found, eq⟩ := collected.codepoints_eq known inState
    obtain ⟨glyph, here, rfl⟩ := Option.map_eq_some_iff.mp found
    exact ⟨item, collected.mem_items item inState, glyph, List.mem_of_getElem? here, eq⟩
  constructor
  · rw [(order.flatMap_right _).nodup_iff, List.flatMap_map]
    exact collected.nodup_codepoints keys known
  · intro entry member
    obtain ⟨item, inItems, glyph, -, eq⟩ := entries entry member
    rw [eq]
    exact List.ne_nil_of_mem (mem_codeptsAt.mpr inItems)
  · intro entry member
    obtain ⟨item, -, glyph, inGlyphs, eq⟩ := entries entry member
    exact ⟨glyph, inGlyphs, by rw [eq]⟩
  · intro entry member c here
    obtain ⟨item, -, glyph, -, eq⟩ := entries entry member
    rw [eq, mem_codeptsAt, mem_items] at here
    obtain ⟨other, there, otherOwned⟩ := here.owns
    exact ⟨other, List.mem_of_getElem? there, otherOwned⟩
  · intro c object glyph owner here
    have inItems := (mem_items c object).mpr owner
    obtain ⟨entry, inState, rfl⟩ := List.mem_map.mp
      ((collected.mem_objects object).mpr (List.mem_map.mpr ⟨_, inItems, rfl⟩))
    have found : glyphs[entry.2]?.map Glyph.data = some glyph.data := by
      rw [here]
      rfl
    refine ⟨_, order.mem_iff.mpr (List.mem_map_of_mem inState), ?_⟩
    rw [collected.getD_object found]
    exact ⟨mem_codeptsAt.mpr inItems, rfl⟩

section Merging

variable {font1 font2 font : Font} (wellFormed1 : font1.WellFormed) (wellFormed2 : font2.WellFormed)
  (merged : MergedFrom (font1.glyphs.map Prod.snd ++ font2.glyphs.map Prod.snd) font.glyphs)

include wellFormed1 wellFormed2 merged

theorem MergedFrom.wellFormed : font.WellFormed := by
  have glyphs (glyph : Glyph)
      (member : glyph ∈ font1.glyphs.map Prod.snd ++ font2.glyphs.map Prod.snd) :
      5 ≤ glyph.data.length ∧ ∀ c ∈ glyph.codepoints, c < 65536 := by
    rcases List.mem_append.mp member with first | second
    · obtain ⟨entry, inFont, rfl⟩ := List.mem_map.mp first
      exact ⟨wellFormed1.long entry inFont, wellFormed1.codepoint_lt entry inFont⟩
    · obtain ⟨entry, inFont, rfl⟩ := List.mem_map.mp second
      exact ⟨wellFormed2.long entry inFont, wellFormed2.codepoint_lt entry inFont⟩
  refine ⟨?_, merged.distinct, merged.nonempty, ?_⟩
  · intro entry member c here
    obtain ⟨glyph, inGlyphs, owned⟩ := merged.owned entry member c here
    exact (glyphs glyph inGlyphs).2 c owned
  · intro entry member
    obtain ⟨glyph, inGlyphs, eq⟩ := merged.data entry member
    rw [eq]
    exact (glyphs glyph inGlyphs).1

theorem MergedFrom.record_eq (c : Nat) :
    font.record c = (font2.record c).or (font1.record c) := by
  by_cases owned : ∃ glyph ∈ font1.glyphs.map Prod.snd ++ font2.glyphs.map Prod.snd,
      c ∈ glyph.codepoints
  · obtain ⟨object, owner⟩ := LastOwner.exists owned
    obtain ⟨glyph, here, -⟩ := owner.owns
    obtain ⟨entry, member, inEntry, dataEq⟩ := merged.owner c object glyph owner here
    have distinct : ((font.glyphs.map Prod.snd).flatMap Glyph.codepoints).Nodup :=
      (merged.wellFormed wellFormed1 wellFormed2).distinct_values
    rw [Font.record, recordOf_of_distinct distinct (List.mem_map_of_mem member) inEntry, dataEq]
    exact (owner.record_eq wellFormed1.distinct_values wellFormed2.distinct_values here).symm
  · have absent (glyphs : List Glyph) (within : ∀ glyph ∈ glyphs,
        glyph ∈ font1.glyphs.map Prod.snd ++ font2.glyphs.map Prod.snd) :
    recordOf glyphs c = none :=
      recordOf_eq_none_iff.mpr fun glyph member here => owned ⟨glyph, within glyph member, here⟩
    have none1 : font1.record c = none := absent _ fun _ => List.mem_append_left _
    have none2 : font2.record c = none := absent _ fun _ => List.mem_append_right _
    have none : font.record c = none := by
      apply recordOf_eq_none_iff.mpr
      intro glyph member here
      obtain ⟨entry, inMerged, rfl⟩ := List.mem_map.mp member
      exact owned (merged.owned entry inMerged c here)
    rw [none1, none2, none]
    rfl

end Merging

/-- A merged font is well-formed, and has the glyphs of the second font before those of the
first one. -/
theorem mergeFonts_ok (cptOrder : DictOrder (Nat × Nat)) (glyphOrder : DictOrder (Nat × Glyph))
    {font1 font2 : Font} (wellFormed1 : font1.WellFormed) (wellFormed2 : font2.WellFormed)
    (flags : font1.compressed = font2.compressed) :
    ∃ merged, mergeFonts cptOrder glyphOrder font1 font2 = .ok merged ∧ merged.WellFormed ∧
      merged.compressed = font1.compressed ∧
      ∀ c, merged.record c = (font2.record c).or (font1.record c) := by
  have mapped := Mapped.nil.foldl_mapGlyph
    (font1.glyphs.map Prod.snd ++ font2.glyphs.map Prod.snd)
  have merged := mapped.mergedFrom (cptOrder.perm _) (glyphOrder.perm _)
  rw [mergeFonts, if_pos flags]
  exact ⟨_, rfl, merged.wellFormed wellFormed1 wellFormed2, rfl,
    merged.record_eq wellFormed1 wellFormed2⟩

/-- What the last font that has a codepoint has for it. -/
def lastRecord (fonts : List Font) (c : Nat) : Option (List UInt8) :=
  fonts.reverse.findSome? fun font => font.record c

theorem lastRecord_concat (fonts : List Font) (font : Font) (c : Nat) :
    lastRecord (fonts ++ [font]) c = (font.record c).or (lastRecord fonts c) := by
  rw [lastRecord, List.reverse_append, List.reverse_singleton, List.singleton_append,
    List.findSome?_cons]
  cases font.record c <;> rfl

theorem foldlM_mergeFonts (cptOrder : DictOrder (Nat × Nat))
    (glyphOrder : DictOrder (Nat × Glyph)) {done later : List Font} {font : Font}
    (wellFormed : font.WellFormed) (records : ∀ c, font.record c = lastRecord done c)
    (wellFormedLater : ∀ other ∈ later, other.WellFormed)
    (flags : ∀ other ∈ later, font.compressed = other.compressed) :
    ∃ merged, later.foldlM (mergeFonts cptOrder glyphOrder) font = .ok merged ∧
      merged.WellFormed ∧ ∀ c, merged.record c = lastRecord (done ++ later) c := by
  induction later generalizing done font with
  | nil => exact ⟨font, rfl, wellFormed, by simpa using records⟩
  | cons other later ih =>
      obtain ⟨next, step, nextWellFormed, flag, nextRecords⟩ := mergeFonts_ok cptOrder glyphOrder
        wellFormed (wellFormedLater other (by simp)) (flags other (by simp))
      have doneRecords : ∀ c, next.record c = lastRecord (done ++ [other]) c :=
        fun c => by rw [nextRecords, lastRecord_concat, records]
      obtain ⟨merged, run, mergedWellFormed, mergedRecords⟩ := ih nextWellFormed doneRecords
        (fun third member => wellFormedLater third (by simp [member]))
        (fun third member => by rw [flag]; exact flags third (by simp [member]))
      refine ⟨merged, ?_, mergedWellFormed, by simpa using mergedRecords⟩
      rw [List.foldlM_cons, step]
      exact run

theorem mergeAll_ok (cptOrder : DictOrder (Nat × Nat)) (glyphOrder : DictOrder (Nat × Glyph))
    {fonts : List Font} (nonempty : fonts ≠ []) (wellFormed : ∀ font ∈ fonts, font.WellFormed)
    (flags : ∀ font ∈ fonts, ∀ other ∈ fonts, font.compressed = other.compressed) :
    ∃ merged, mergeAll cptOrder glyphOrder fonts = .ok merged ∧ merged.WellFormed ∧
      ∀ c, merged.record c = lastRecord fonts c := by
  cases fonts with
  | nil => exact absurd rfl nonempty
  | cons font fonts =>
      have records : ∀ c, font.record c = lastRecord [font] c := by
        intro c
        rw [← List.nil_append [font], lastRecord_concat]
        cases font.record c <;> rfl
      exact foldlM_mergeFonts cptOrder glyphOrder (wellFormed font (by simp)) records
        (fun other member => wellFormed other (by simp [member]))
        (fun other member => flags font (by simp) other (by simp [member]))

/-! ## Looking up a codepoint in a file -/

/-- The offsets that the hash table has for a codepoint. -/
def hashedLookup (pfo : List UInt8) (c : Nat) : Except PyError (List Nat) := do
  let header ← readHeader pfo
  let (tableSize, offset) ← header.readDirectoryItem pfo (c % hashtableDirectorySize)
  let items ← (List.range tableSize).mapM (header.readItem pfo offset)
  .ok ((items.filter fun item => item.1 == c).map Prod.snd)

def glyphSection (pfo : List UInt8) : Except PyError (List UInt8) := do
  let header ← readHeader pfo
  .ok (pfo.drop header.glyphsBase)

/-- The file has a codepoint once, at an offset where all of its record stands, or not at all. -/
def Renders (pfo : List UInt8) (c : Nat) : Option (List UInt8) → Prop
  | none => hashedLookup pfo c = .ok []
  | some data => ∃ offset glyphs, hashedLookup pfo c = .ok [offset] ∧
      glyphSection pfo = .ok glyphs ∧ data <+: glyphs.drop offset

theorem Font.Written.hashedLookup_eq {font : Font} {bytes : List UInt8}
    (written : font.Written bytes) (c : Nat) :
    hashedLookup bytes c =
      .ok ((font.pairs.filter fun pair => pair.1 == c).map Prod.snd) := by
  have inRange : c % hashtableDirectorySize < hashtableDirectorySize := Nat.mod_lt _ (by decide)
  have sameFilter : (bin font.pairs (c % hashtableDirectorySize)).filter (fun pair => pair.1 == c) =
      font.pairs.filter fun pair => pair.1 == c := by
    rw [bin, bucket, List.filter_filter]
    apply List.filter_congr
    intro pair _
    by_cases same : pair.1 = c <;> simp [same, binNo]
  have bytesEq := written.bytes_eq
  rw [hashedLookup, written.header_eq]
  subst bytesEq
  change (Header.readDirectoryItem _ _ _).bind _ = _
  rw [readDirectoryItem_pfoFile rfl written.fits inRange]
  change Except.bind
    ((List.range (bin font.pairs (c % hashtableDirectorySize)).length).mapM _) _ = _
  rw [mapM_range fun position pair here => readItem_pfoFile rfl rfl written.fits inRange here]
  change Except.ok _ = _
  rw [sameFilter]

theorem filter_key_eq_singleton {pairs : List (Nat × Nat)} (distinct : (pairs.map Prod.fst).Nodup)
    {pair : Nat × Nat} (member : pair ∈ pairs) :
    (pairs.filter fun other => other.1 == pair.1) = [pair] := by
  induction pairs with
  | nil => cases member
  | cons first pairs ih =>
      rw [List.map_cons, List.nodup_cons] at distinct
      rcases List.mem_cons.mp member with rfl | later
      · have others : (pairs.filter fun other => other.1 == pair.1) = [] := by
          rw [List.filter_eq_nil_iff]
          intro other inPairs same
          exact distinct.1 (List.mem_map.mpr ⟨other, inPairs, beq_iff_eq.mp same⟩)
        rw [List.filter_cons, if_pos (beq_self_eq_true _), others]
      · have different : ¬ (first.1 == pair.1) = true := by
          intro same
          exact distinct.1 (List.mem_map.mpr ⟨pair, later, (beq_iff_eq.mp same).symm⟩)
        rw [List.filter_cons, if_neg different, ih distinct.2 later]

/-- A written font has for every codepoint what the font has. -/
theorem Font.Written.renders {font : Font} {bytes : List UInt8} (written : font.Written bytes)
    (wellFormed : font.WellFormed) (c : Nat) : Renders bytes c (font.record c) := by
  have lookup := written.hashedLookup_eq c
  have distinct : (font.pairs.map Prod.fst).Nodup := by
    rw [(font.pairs_perm.map _).nodup_iff, map_fst_placedFrom,
      (font.sortedGlyphs_perm.flatMap_right _).nodup_iff]
    exact wellFormed.distinct_values
  have sorted := font.sortedGlyphs_perm
  by_cases assigned : ∃ glyph ∈ font.glyphs.map Prod.snd, c ∈ glyph.codepoints
  · obtain ⟨owner, member, here⟩ := assigned
    obtain ⟨offset, placed⟩ := exists_placed 4 (sorted.mem_iff.mpr member) here
    obtain ⟨glyph, inGlyphs, owned, rest, dropped⟩ := drop_glyphTableOf placed
    have record : font.record c = some glyph.data :=
      recordOf_of_distinct wellFormed.distinct_values (sorted.mem_iff.mp inGlyphs) owned
    rw [record]
    refine ⟨offset, font.glyphTable, ?_, ?_, rest, dropped.symm⟩
    · rw [lookup, filter_key_eq_singleton distinct (font.pairs_perm.mem_iff.mpr placed)]
      rfl
    · rw [glyphSection, written.header_eq]
      have bytesEq := written.bytes_eq
      subst bytesEq
      exact congrArg Except.ok (glyphsBase_pfoFile rfl rfl rfl 0)
  · have none : font.record c = none :=
      recordOf_eq_none_iff.mpr fun glyph member here => assigned ⟨glyph, member, here⟩
    have absent : (font.pairs.filter fun pair => pair.1 == c) = [] := by
      rw [List.filter_eq_nil_iff]
      intro pair member same
      obtain ⟨before, glyph, behind, split, here, -⟩ :=
        mem_placedFrom.mp (font.pairs_perm.mem_iff.mp member)
      exact assigned ⟨glyph, sorted.mem_iff.mp (by simp [split]), beq_iff_eq.mp same ▸ here⟩
    rw [none]
    exact lookup.trans (by rw [absent]; rfl)

/-- Merging fonts and writing the result either fails, at a full bucket or at a value that does not
fit, or writes a file that has for every codepoint the record of the last font that has it, in
whatever order the dictionaries are iterated. -/
theorem mergeAll_fontWrite (cptOrder : DictOrder (Nat × Nat))
    (glyphOrder : DictOrder (Nat × Glyph)) {fonts : List Font} (nonempty : fonts ≠ [])
    (wellFormed : ∀ font ∈ fonts, font.WellFormed)
    (flags : ∀ font ∈ fonts, ∀ other ∈ fonts, font.compressed = other.compressed) :
    ∃ merged, mergeAll cptOrder glyphOrder fonts = .ok merged ∧
      ((fontWrite merged = .error .assertionError ∧ merged.FullBucket) ∨
        (fontWrite merged = .error .structError ∧ merged.OutOfRange) ∨
        ∃ pfo, fontWrite merged = .ok pfo ∧ ∀ c, Renders pfo c (lastRecord fonts c)) := by
  obtain ⟨merged, run, mergedWellFormed, records⟩ :=
    mergeAll_ok cptOrder glyphOrder nonempty wellFormed flags
  refine ⟨merged, run, ?_⟩
  cases written : fontWrite merged with
  | error error =>
      rcases fontWrite_error mergedWellFormed.nonempty written with ⟨rfl, full⟩ | ⟨rfl, tooLarge⟩
      · exact Or.inl ⟨rfl, full⟩
      · exact Or.inr (Or.inl ⟨rfl, tooLarge⟩)
  | ok pfo =>
      refine Or.inr (Or.inr ⟨pfo, rfl, fun c => ?_⟩)
      rw [← records]
      exact (fontWrite_ok written).renders mergedWellFormed c

/-- Two codepoints that share a glyph, and a font that has its own glyph for one of them. -/
def overriddenFonts : List Font :=
  [⟨14, 0x25AF, false, [(4, ⟨[0x41, 0x140], [0, 0, 0, 0, 7]⟩)]⟩,
    ⟨18, 0x25AF, false, [(4, ⟨[0x140, 0x142], [0, 0, 0, 0, 9]⟩)]⟩]

def overriddenMerged : Font :=
  ⟨14, 0x25AF, false,
    [(0x142, ⟨[0x142, 0x140], [0, 0, 0, 0, 9]⟩), (0x41, ⟨[0x41], [0, 0, 0, 0, 7]⟩)]⟩

theorem mergeAll_fontWrite_overridden :
    ∃ merged pfo, mergeAll ⟨List.reverse, List.reverse_perm⟩ ⟨id, fun _ => .refl _⟩
        overriddenFonts = .ok merged ∧
      fontWrite merged = .ok pfo ∧ ∀ c, Renders pfo c (lastRecord overriddenFonts c) := by
  have wellFormed : ∀ font ∈ overriddenFonts, font.WellFormed := by
    intro font member
    simp only [overriddenFonts, List.mem_cons, List.not_mem_nil, or_false] at member
    rcases member with rfl | rfl
    · exact ⟨by decide, by decide, by decide, by decide⟩
    · exact ⟨by decide, by decide, by decide, by decide⟩
  obtain ⟨merged, run, outcome⟩ := mergeAll_fontWrite ⟨List.reverse, List.reverse_perm⟩
    ⟨id, fun _ => .refl _⟩ (by decide) wellFormed (by decide)
  have mergedOnce : mergeAll ⟨List.reverse, List.reverse_perm⟩ ⟨id, fun _ => .refl _⟩
      overriddenFonts = .ok overriddenMerged := by
    decide +kernel
  obtain rfl := Except.ok.inj (mergedOnce.symm.trans run)
  have fits : (fontWrite overriddenMerged).isOk := by decide +kernel
  rcases outcome with ⟨failed, -⟩ | ⟨failed, -⟩ | ⟨pfo, written, renders⟩
  · rw [failed] at fits
    cases fits
  · rw [failed] at fits
    cases fits
  · exact ⟨_, pfo, run, written, renders⟩

end PfoMerge

end Elbbep
