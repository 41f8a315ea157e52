import Elbbep.PackLutSemantics

/-!
# Requests for codepoints

While `pack_lut` runs, ligatures and glyphs ask for recycled codepoints, and are served in the order
in which they ask for the first time.  So it can be told from the forms table alone which codepoint
each of them is given, and whether there are enough.
-/

namespace Elbbep

open PythonStruct

/-! ## First come, first served -/

namespace FirstCome

variable {α β : Type} [DecidableEq α]

/-- A request that has been made before is not made again. -/
def ask (asked : List α) (request : α) : List α :=
  if request ∈ asked then asked else asked ++ [request]

/-- The first requests are given the first items of the pool. -/
def given (pool : List β) (asked : List α) (request : α) : Option β :=
  (asked.zip pool).lookup request

theorem ask_of_mem {asked : List α} {request : α} (known : request ∈ asked) :
    ask asked request = asked :=
  if_pos known

theorem ask_of_not_mem {asked : List α} {request : α} (new : request ∉ asked) :
    ask asked request = asked ++ [request] :=
  if_neg new

theorem isPrefix_ask (asked : List α) (request : α) : asked <+: ask asked request := by
  unfold ask
  split
  · exact List.prefix_refl asked
  · exact List.prefix_append asked [request]

theorem isPrefix_foldl_ask (asked requests : List α) : asked <+: requests.foldl ask asked := by
  induction requests generalizing asked with
  | nil => exact List.prefix_refl asked
  | cons request requests ih => exact (isPrefix_ask asked request).trans (ih _)

theorem length_le_foldl_ask (asked requests : List α) :
    asked.length ≤ (requests.foldl ask asked).length :=
  (isPrefix_foldl_ask asked requests).length_le

variable {pool : List β}

/-- What a request is given does not change when others are made later. -/
theorem given_of_isPrefix {asked later : List α} (begins : asked <+: later) {request : α} {item : β}
    (served : given pool asked request = some item) : given pool later request = some item := by
  obtain ⟨new, rfl⟩ := begins
  induction asked generalizing pool with
  | nil => cases served
  | cons first asked ih =>
      cases pool with
      | nil => cases served
      | cons head pool =>
          rw [given, List.zip_cons_cons, List.lookup_cons] at served
          rw [given, List.cons_append, List.zip_cons_cons, List.lookup_cons]
          cases same : request == first with
          | true =>
              rw [same] at served
              exact served
          | false =>
              rw [same] at served
              exact ih served

theorem given_eq_none {asked : List α} {request : α} (new : request ∉ asked) :
    given pool asked request = none := by
  rw [given, List.lookup_eq_none_iff]
  intro pair member
  have inAsked : pair.1 ∈ asked := (List.of_mem_zip member).1
  exact bne_iff_ne.mpr (ne_of_mem_of_not_mem inAsked new).symm

theorem given_isSome {asked : List α} (room : asked.length ≤ pool.length) {request : α}
    (known : request ∈ asked) : (given pool asked request).isSome = true := by
  rw [given, List.lookup_isSome_iff]
  have names : (asked.zip pool).map Prod.fst = asked := List.map_fst_zip room
  rw [← names] at known
  obtain ⟨pair, member, rfl⟩ := List.mem_map.mp known
  exact ⟨pair, member, beq_self_eq_true _⟩

/-- A new request is given the first item that is left. -/
theorem given_concat {asked : List α} {request : α} (new : request ∉ asked) {item : β}
    {rest : List β} (left : pool.drop asked.length = item :: rest) :
    given pool (asked ++ [request]) request = some item := by
  induction asked generalizing pool with
  | nil =>
      rw [List.length_nil, List.drop_zero] at left
      rw [left, given, List.nil_append, List.zip_cons_cons, List.lookup_cons, beq_self_eq_true]
  | cons first asked ih =>
      cases pool with
      | nil => cases left
      | cons head pool =>
          rw [List.mem_cons, not_or] at new
          rw [given, List.cons_append, List.zip_cons_cons, List.lookup_cons, beq_false_of_ne new.1]
          exact ih new.2 left

theorem given_concat_of_ne {asked : List α} {request new : α} (different : request ≠ new) :
    given pool (asked ++ [new]) request = given pool asked request := by
  induction asked generalizing pool with
  | nil =>
      cases pool with
      | nil => rfl
      | cons head pool =>
          rw [given, List.nil_append, List.zip_cons_cons, List.lookup_cons,
            beq_false_of_ne different]
          rfl
  | cons first asked ih =>
      cases pool with
      | nil => rfl
      | cons head pool =>
          rw [given, given, List.cons_append, List.zip_cons_cons, List.zip_cons_cons,
            List.lookup_cons, List.lookup_cons]
          cases request == first with
          | true => rfl
          | false => exact ih

theorem mem_foldl_ask {asked requests : List α} {request : α} :
    request ∈ requests.foldl ask asked ↔ request ∈ asked ∨ request ∈ requests := by
  induction requests generalizing asked with
  | nil => simp
  | cons first requests ih =>
      have step : request ∈ ask asked first ↔ request ∈ asked ∨ request = first := by
        unfold ask
        split
        next known =>
          constructor
          · exact Or.inl
          · rintro (here | rfl)
            · exact here
            · exact known
        next => rw [List.mem_append, List.mem_singleton]
      rw [List.foldl_cons, ih, step, List.mem_cons, or_assoc]

end FirstCome

/-! ## Codepoints -/

/-- Who asks for a recycled codepoint. -/
inductive CodepointRequest
  | ligature (key : List Char)
  | glyph (glyph : Nat)
  deriving DecidableEq, Repr

/-- A ligature asks for a codepoint of its own. -/
def keyRequests (key : List Char) : List CodepointRequest :=
  if key.length = 2 then [.ligature key] else []

/-- The forms of a key ask for their glyphs. -/
def requestsOf (item : CharacterForms) : List CodepointRequest :=
  keyRequests item.1 ++ item.2.map .glyph

/-- The requests of some keys, in the order in which they are first made. -/
def codepointRequests (items : List CharacterForms) : List CodepointRequest :=
  (items.flatMap requestsOf).foldl FirstCome.ask []

/-- The codepoint that a glyph is given. -/
def glyphCodept (asked : List CodepointRequest) (glyph : Nat) : Option Nat :=
  FirstCome.given scratchCodepoints asked (.glyph glyph)

/-- A key with a form whose codepoint is too far from the codepoint of its first form. -/
def FarForm (asked : List CodepointRequest) (item : CharacterForms) : Prop :=
  ∃ isolated ∈ item.2.head?, ∃ glyph ∈ item.2, ∃ base codept, glyphCodept asked isolated = some base ∧
    glyphCodept asked glyph = some codept ∧
    ((codept : Int) - base < -128 ∨ 127 < (codept : Int) - base)

theorem FarForm.of_isPrefix {asked later : List CodepointRequest} (begins : asked <+: later)
    {item : CharacterForms} (far : FarForm asked item) : FarForm later item := by
  obtain ⟨isolated, first, glyph, member, base, codept, baseEq, codeptEq, range⟩ := far
  exact ⟨isolated, first, glyph, member, base, codept, FirstCome.given_of_isPrefix begins baseEq,
    FirstCome.given_of_isPrefix begins codeptEq, range⟩

namespace PackState

/-- The state when some requests have been served. -/
structure Served (asked : List CodepointRequest) (state : PackState) : Prop where
  room : asked.length ≤ scratchCodepoints.length
  available : state.availableCodepts = scratchCodepoints.drop asked.length
  selected : ∀ glyph, state.selectedGlyphs.lookup glyph = glyphCodept asked glyph

theorem served_start : Served [] start :=
  ⟨Nat.zero_le _, rfl, fun _ => rfl⟩

variable {asked : List CodepointRequest} {state : PackState}

/-- There is a codepoint left, or all of them are given away. -/
theorem Served.nextCodept (served : state.Served asked) :
    (∃ codept rest, scratchCodepoints.drop asked.length = codept :: rest ∧
      state.nextCodept = .ok (codept, { state with
        availableCodepts := rest
        dirtiedCodepts := state.dirtiedCodepts ++ [codept] })) ∨
      (state.nextCodept = .error .stopIteration ∧ scratchCodepoints.length ≤ asked.length) := by
  rw [PackState.nextCodept, served.available]
  cases left : scratchCodepoints.drop asked.length with
  | nil => exact Or.inr ⟨rfl, List.drop_eq_nil_iff.mp left⟩
  | cons codept rest => exact Or.inl ⟨codept, rest, rfl, rfl⟩

theorem drop_succ_of_drop {α : Type} {items : List α} {count : Nat} {item : α} {rest : List α}
    (left : items.drop count = item :: rest) :
    count + 1 ≤ items.length ∧ rest = items.drop (count + 1) := by
  constructor
  · by_contra short
    rw [List.drop_eq_nil_of_le (by omega)] at left
    cases left
  · rw [← List.tail_drop, left, List.tail_cons]

theorem Served.ask_ligature (served : state.Served asked) {key : List Char}
    (new : .ligature key ∉ asked) {codept : Nat} {rest : List Nat}
    (left : scratchCodepoints.drop asked.length = codept :: rest) {next : PackState}
    (available : next.availableCodepts = rest)
    (selected : next.selectedGlyphs = state.selectedGlyphs) :
    next.Served (FirstCome.ask asked (.ligature key)) := by
  obtain ⟨room, restEq⟩ := drop_succ_of_drop left
  rw [FirstCome.ask_of_not_mem new]
  refine ⟨?_, ?_, fun glyph => ?_⟩
  · rw [List.length_append]
    exact room
  · rw [available, restEq, List.length_append]
    rfl
  · rw [selected, served.selected, glyphCodept, glyphCodept,
      FirstCome.given_concat_of_ne (by simp)]

/-- A glyph has its codepoint afterwards, or there are not enough. -/
theorem Served.selectGlyph (served : state.Served asked) (labelBase : String) {idx : Nat}
    (small : idx < 4) (glyph : Nat) :
    (∃ codept next, state.selectGlyph labelBase idx glyph = .ok (codept, next) ∧
      next.Served (FirstCome.ask asked (.glyph glyph))) ∨
      (state.selectGlyph labelBase idx glyph = .error .stopIteration ∧
        scratchCodepoints.length < (FirstCome.ask asked (.glyph glyph)).length) := by
  by_cases known : CodepointRequest.glyph glyph ∈ asked
  · obtain ⟨codept, found⟩ := Option.isSome_iff_exists.mp
      (FirstCome.given_isSome served.room known)
    have lookup : state.selectedGlyphs.lookup glyph = some codept :=
      (served.selected glyph).trans found
    rw [FirstCome.ask_of_mem known]
    refine Or.inl ⟨codept, state, ?_, served⟩
    simp only [PackState.selectGlyph, lookup]
  · have lookup : state.selectedGlyphs.lookup glyph = none :=
      (served.selected glyph).trans (FirstCome.given_eq_none known)
    rw [FirstCome.ask_of_not_mem known, List.length_append, List.length_singleton]
    obtain ⟨form, formEq⟩ : ∃ form, ["ISO", "INI", "MED", "FIN"][idx]? = some form :=
      ⟨_, List.getElem?_eq_getElem small⟩
    rcases served.nextCodept with ⟨codept, rest, left, run⟩ | ⟨run, full⟩
    · obtain ⟨room, restEq⟩ := drop_succ_of_drop left
      refine Or.inl ⟨codept, { state with
        availableCodepts := rest
        dirtiedCodepts := state.dirtiedCodepts ++ [codept]
        selectedGlyphs := state.selectedGlyphs ++ [(glyph, codept)]
        labels := state.labels ++ [(codept, labelBase ++ "-" ++ form)] }, ?_, ?_, ?_, fun other => ?_⟩
      · simp only [PackState.selectGlyph, lookup, run, bind, Except.bind, formEq]
      · rw [List.length_append]
        exact room
      · rw [restEq, List.length_append]
        rfl
      · by_cases same : other = glyph
        · subst same
          rw [List.lookup_append, lookup, Option.none_or, List.lookup_cons, beq_self_eq_true]
          exact (FirstCome.given_concat known left).symm
        · rw [List.lookup_append, served.selected, glyphCodept, glyphCodept,
            FirstCome.given_concat_of_ne (by simpa using same), List.lookup_cons,
            beq_false_of_ne same]
          exact Option.or_none
    · exact Or.inr ⟨by simp only [PackState.selectGlyph, lookup, run, bind, Except.bind], by omega⟩

/-- All forms of a letter are served, or there are not enough codepoints. -/
theorem Served.packForms (served : state.Served asked) (labelBase : String) {idx : Nat}
    {glyphs : List Nat} (small : idx + glyphs.length ≤ 4) (base : Option Nat)
    (lineParts : List Int) :
    (∃ parts next, packForms labelBase idx base lineParts glyphs state = .ok (parts, next) ∧
      next.Served ((glyphs.map .glyph).foldl FirstCome.ask asked)) ∨
      (packForms labelBase idx base lineParts glyphs state = .error .stopIteration ∧
        scratchCodepoints.length <
          ((glyphs.map CodepointRequest.glyph).foldl FirstCome.ask asked).length) := by
  induction glyphs generalizing asked idx base lineParts state with
  | nil => exact Or.inl ⟨lineParts, state, rfl, served⟩
  | cons glyph glyphs ih =>
      rw [List.length_cons] at small
      rw [List.map_cons, List.foldl_cons]
      rcases served.selectGlyph labelBase (show idx < 4 by omega) glyph with
        ⟨codept, next, run, servedNext⟩ | ⟨run, full⟩
      · have step (base' : Option Nat) (lineParts' : List Int) :=
          ih servedNext (show idx + 1 + glyphs.length ≤ 4 by omega) base' lineParts'
        simp only [PackState.packForms, run, bind, Except.bind]
        split
        · exact step _ _
        · exact step _ _
      · refine Or.inr ⟨by simp only [PackState.packForms, run, bind, Except.bind], ?_⟩
        exact full.trans_le (FirstCome.length_le_foldl_ask _ _)

theorem packLetters_fits {ch : List Char} (small : ∀ c ∈ ch, c.toNat < 65536) :
    ∃ bytes, packLetters ch = .ok bytes := by
  induction ch with
  | nil => exact ⟨[], rfl⟩
  | cons c cs ih =>
      rw [List.forall_mem_cons] at small
      obtain ⟨rest, run⟩ := ih small.2
      refine ⟨encodeH c.toNat ++ rest, ?_⟩
      rw [packLetters, packH_natCast, if_pos small.1, run]
      rfl

theorem packH_markedCodept {codept : Nat} (scratch : codept ∈ scratchCodepoints) :
    packH (markedCodept codept) = .ok (encodeH (markedCodept codept)) := by
  have unmarked : codept < 2 ^ 15 := by
    rw [mem_scratchCodepoints] at scratch
    omega
  have marked : markedCodept codept < 2 ^ 16 := Nat.or_lt_two_pow (by omega) (by decide)
  exact (packH_natCast _).trans (if_pos marked)

/-- A letter needs a name, and a ligature a codepoint. -/
theorem Served.trueCodept (served : state.Served asked)
    (unicodedataName : Char → Option String) {key : List Char}
    (length : key.length = 1 ∨ key.length = 2) (small : ∀ c ∈ key, c.toNat < 65536)
    (new : .ligature key ∉ asked) :
    (∃ codept labelBase next, state.trueCodept unicodedataName key = .ok (codept, labelBase, next) ∧
      codept < 65536 ∧ next.Served ((keyRequests key).foldl FirstCome.ask asked)) ∨
      (state.trueCodept unicodedataName key = .error .stopIteration ∧
        scratchCodepoints.length < ((keyRequests key).foldl FirstCome.ask asked).length) ∨
      (state.trueCodept unicodedataName key = .error .valueError ∧
        ∃ c, key = [c] ∧ unicodedataName c = none) := by
  match key, length with
  | [c], _ =>
      have single : keyRequests [c] = [] := rfl
      rw [single, List.foldl_nil]
      cases name : unicodedataName c with
      | none => exact Or.inr (Or.inr ⟨by simp only [PackState.trueCodept, name], c, rfl, name⟩)
      | some name' =>
          refine Or.inl ⟨c.toNat, name', state, by simp only [PackState.trueCodept, name], ?_, served⟩
          exact small c List.mem_cons_self
  | [a, b], _ =>
      have two : [a, b].length ≤ 2 := le_rfl
      have pair : keyRequests [a, b] = [.ligature [a, b]] := rfl
      obtain ⟨letters, lettersRun⟩ := packLetters_fits small
      rw [pair, List.foldl_cons, List.foldl_nil]
      rcases served.nextCodept with ⟨codept, rest, left, run⟩ | ⟨run, full⟩
      · have scratch : codept ∈ scratchCodepoints := by
          apply List.mem_of_mem_drop
          rw [left]
          exact List.mem_cons_self
        refine Or.inl ⟨codept, "LIG-" ++ String.ofList [a, b], { state with
          availableCodepts := rest
          dirtiedCodepts := state.dirtiedCodepts ++ [codept]
          ligData := state.ligData ++ letters ++ encodeH (markedCodept codept) }, ?_, ?_, ?_⟩
        · unfold PackState.trueCodept
          dsimp only
          rw [if_pos two, ok_bind run]
          dsimp only
          rw [ok_bind lettersRun, ok_bind (packH_markedCodept scratch)]
        · rw [mem_scratchCodepoints] at scratch
          omega
        · exact served.ask_ligature new left rfl rfl
      · refine Or.inr (Or.inl ⟨?_, ?_⟩)
        · simp only [PackState.trueCodept, if_pos two, run, bind, Except.bind]
        · rw [FirstCome.ask_of_not_mem new, List.length_append, List.length_singleton]
          omega

end PackState

/-- A line fails at a distance that does not fit. -/
theorem packLine_error {trueCodept isolated : Nat} (small : trueCodept < 65536)
    (smallForm : isolated < 65536) {initial medial final : Int} {error : PyError}
    (run : packLine [(trueCodept : Int), isolated, initial, medial, final] = .error error) :
    error = .structError ∧
      ∃ delta ∈ [initial, medial, final], delta < -128 ∨ 127 < delta := by
  rw [packLine, packH_natCast, packH_natCast, if_pos small, if_pos smallForm] at run
  rcases bind_error run with here | ⟨_, _, run⟩
  · cases here
  rcases bind_error run with here | ⟨_, _, run⟩
  · cases here
  rcases bind_error run with here | ⟨_, _, run⟩
  · obtain ⟨isStruct, range⟩ := packSignedB_error here
    exact ⟨isStruct, initial, by simp, range⟩
  rcases bind_error run with here | ⟨_, _, run⟩
  · obtain ⟨isStruct, range⟩ := packSignedB_error here
    exact ⟨isStruct, medial, by simp, range⟩
  rcases bind_error run with here | ⟨_, _, run⟩
  · obtain ⟨isStruct, range⟩ := packSignedB_error here
    exact ⟨isStruct, final, by simp, range⟩
  · cases run

namespace PackState

variable {asked : List CodepointRequest} {state : PackState}

/-- Why a key cannot be packed when these are the requests so far. -/
def PackError (unicodedataName : Char → Option String) (asked : List CodepointRequest)
    (item : CharacterForms) (error : PyError) : Prop :=
  (error = .stopIteration ∧ scratchCodepoints.length < asked.length) ∨
    (error = .structError ∧ FarForm asked item) ∨
    (error = .valueError ∧ ∃ c, item.1 = [c] ∧ unicodedataName c = none)

/-- The form at this distance is too far from the first form. -/
theorem Served.farForm {item : CharacterForms} (served : state.Served asked)
    {isolated initial medial final : Nat}
    (lookups : List.Forall₂ (fun glyph codept => state.selectedGlyphs.lookup glyph = some codept)
      item.2 [isolated, initial, medial, final]) {delta : Int}
    (member : delta ∈ [(initial : Int) - isolated, (medial : Int) - isolated,
      (final : Int) - isolated]) (range : delta < -128 ∨ 127 < delta) : FarForm asked item := by
  obtain ⟨g0, _, found0, others, glyphs⟩ := List.forall₂_cons_right_iff.mp lookups
  obtain ⟨g1, _, found1, rest, rfl⟩ := List.forall₂_cons_right_iff.mp others
  obtain ⟨g2, _, found2, last, rfl⟩ := List.forall₂_cons_right_iff.mp rest
  obtain ⟨g3, _, found3, nothing, rfl⟩ := List.forall₂_cons_right_iff.mp last
  obtain rfl := List.forall₂_nil_right_iff.mp nothing
  rw [served.selected] at found0 found1 found2 found3
  rw [FarForm, glyphs]
  simp only [List.mem_cons, List.not_mem_nil, or_false] at member
  rcases member with rfl | rfl | rfl
  · exact ⟨g0, rfl, g1, by simp, isolated, initial, found0, found1, range⟩
  · exact ⟨g0, rfl, g2, by simp, isolated, medial, found0, found2, range⟩
  · exact ⟨g0, rfl, g3, by simp, isolated, final, found0, found3, range⟩

theorem Served.packCharacter (unicodedataName : Char → Option String) {item : CharacterForms}
    {pairs : List (CharacterForms × ShaperLUTEntry)} (packed : state.Packed pairs)
    (served : state.Served asked) (length : item.1.length = 1 ∨ item.1.length = 2)
    (four : item.2.length = 4) (small : ∀ c ∈ item.1, c.toNat < 65536)
    (new : .ligature item.1 ∉ asked) :
    (∃ next, state.packCharacter unicodedataName item = .ok next ∧
      next.Served ((requestsOf item).foldl FirstCome.ask asked)) ∨
      ∃ error, state.packCharacter unicodedataName item = .error error ∧
        PackError unicodedataName ((requestsOf item).foldl FirstCome.ask asked) item error := by
  rw [requestsOf, List.foldl_append]
  unfold PackState.packCharacter
  rcases served.trueCodept unicodedataName length small new with
    ⟨codept, labelBase, middle, codeptRun, codeptSmall, servedMiddle⟩ | ⟨codeptRun, full⟩ |
      ⟨codeptRun, missing⟩
  · simp only [codeptRun, bind, Except.bind]
    rcases servedMiddle.packForms labelBase (show 0 + item.2.length ≤ 4 by omega) none
      [(codept : Int)] with ⟨parts, last, formsRun, servedLast⟩ | ⟨formsRun, full⟩
    · simp only [formsRun]
      obtain ⟨allocated, -⟩ := trueCodept_ok packed length codeptRun
      obtain ⟨isolated, initial, medial, final, selects, lookups, rfl⟩ :=
        packForms_four four allocated formsRun
      cases lineRun : packLine [(codept : Int), isolated, initial - isolated, medial - isolated,
          final - isolated] with
      | ok line =>
          exact Or.inl ⟨_, rfl, servedLast.room, servedLast.available, servedLast.selected⟩
      | error error =>
          have scratch {glyph codept : Nat} (found : last.selectedGlyphs.lookup glyph = some codept) :
              codept < 65536 := by
            have inPool := selects.allocated.dirtied_scratch (selects.allocated.lookup_dirtied found)
            rw [mem_scratchCodepoints] at inPool
            omega
          obtain ⟨_, _, found, -, -⟩ := List.forall₂_cons_right_iff.mp lookups
          obtain ⟨rfl, delta, member, range⟩ := packLine_error codeptSmall (scratch found) lineRun
          exact Or.inr ⟨_, rfl, Or.inr (Or.inl ⟨rfl, servedLast.farForm lookups member range⟩)⟩
    · exact Or.inr ⟨_, by simp only [formsRun], Or.inl ⟨rfl, full⟩⟩
  · refine Or.inr ⟨_, by simp only [codeptRun, bind, Except.bind], Or.inl ⟨rfl, ?_⟩⟩
    exact full.trans_le (FirstCome.length_le_foldl_ask _ _)
  · exact Or.inr ⟨_, by simp only [codeptRun, bind, Except.bind], Or.inr (Or.inr ⟨rfl, missing⟩)⟩

theorem PackError.of_isPrefix {unicodedataName : Char → Option String}
    {later : List CodepointRequest} {item : CharacterForms} {error : PyError}
    (begins : asked <+: later) (cause : PackError unicodedataName asked item error) :
    PackError unicodedataName later item error := by
  rcases cause with ⟨stop, full⟩ | ⟨isStruct, far⟩ | missing
  · exact Or.inl ⟨stop, full.trans_le begins.length_le⟩
  · exact Or.inr (Or.inl ⟨isStruct, far.of_isPrefix begins⟩)
  · exact Or.inr (Or.inr missing)

/-- Why some keys cannot be packed. -/
theorem packCharacters_error {unicodedataName : Char → Option String}
    {items : List CharacterForms} {pairs : List (CharacterForms × ShaperLUTEntry)}
    (packed : state.Packed pairs) (served : state.Served asked)
    (lengths : ∀ item ∈ items, item.1.length = 1 ∨ item.1.length = 2)
    (four : ∀ item ∈ items, item.2.length = 4)
    (small : ∀ item ∈ items, ∀ c ∈ item.1, c.toNat < 65536)
    (distinct : (items.map Prod.fst).Nodup)
    (new : ∀ item ∈ items, CodepointRequest.ligature item.1 ∉ asked) {error : PyError}
    (run : state.packCharacters unicodedataName items = .error error) :
    ∃ item ∈ items, PackError unicodedataName
      ((items.flatMap requestsOf).foldl FirstCome.ask asked) item error := by
  induction items generalizing asked pairs state with
  | nil => cases run
  | cons item items ih =>
      rw [List.forall_mem_cons] at lengths four small new
      rw [List.map_cons, List.nodup_cons] at distinct
      rw [List.flatMap_cons, List.foldl_append]
      rcases Served.packCharacter unicodedataName packed served lengths.1 four.1 small.1 new.1 with ⟨next, here, servedNext⟩ | ⟨failure, here, cause⟩
      · have rest : next.packCharacters unicodedataName items = .error error := by
          rw [packCharacters, ok_bind here] at run
          exact run
        obtain ⟨entry, packedNext⟩ := packCharacter_ok packed lengths.1 four.1 here
        have newNext : ∀ other ∈ items, CodepointRequest.ligature other.1 ∉
            (requestsOf item).foldl FirstCome.ask asked := by
          intro other member inAsked
          rcases FirstCome.mem_foldl_ask.mp inAsked with earlier | inItem
          · exact new.2 other member earlier
          · obtain ⟨-, same⟩ : item.1.length = 2 ∧ other.1 = item.1 := by
              simpa [requestsOf, keyRequests] using inItem
            exact distinct.1 (List.mem_map.mpr ⟨other, member, same⟩)
        obtain ⟨other, member, cause⟩ := ih packedNext servedNext lengths.2 four.2 small.2 distinct.2
          newNext rest
        exact ⟨other, List.mem_cons_of_mem _ member, cause⟩
      · rw [packCharacters, here] at run
        obtain rfl : failure = error := Except.error.inj run
        exact ⟨item, List.mem_cons_self, cause.of_isPrefix (FirstCome.isPrefix_foldl_ask _ _)⟩

end PackState

end Elbbep
