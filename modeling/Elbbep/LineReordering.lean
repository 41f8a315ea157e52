import Elbbep.BlockReversal

/-!
# Reordering a line, rune by rune

What `rtl_apply` does to a line, without its bytes and over any kind of runes.
A single pass with one rune of lookahead opens spans at right-to-left runes, grows
them, and emits them reversed.  The second half of the file describes the same
result without a pass: the runes that are left-to-right for sure stay in place,
and each stretch between them is reordered on its own.
-/

namespace Elbbep

open BlockReversal

/-- Directional classes of runes, with the mirror images of brackets. -/
structure Directions (α : Type*) where
  rtl : α → Bool
  neutral : α → Bool
  weak : α → Bool
  control : α → Bool
  mirror : α → α
  weak_not_rtl : ∀ c, weak c = true → rtl c = false
  weak_not_neutral : ∀ c, weak c = true → neutral c = false
  mirror_mirror : ∀ c, mirror (mirror c) = c
  rtl_mirror : ∀ c, rtl (mirror c) = rtl c
  neutral_mirror : ∀ c, neutral (mirror c) = neutral c
  weak_mirror : ∀ c, weak (mirror c) = weak c
  mirror_of_rtl : ∀ c, rtl c = true → mirror c = c
  mirror_of_not_neutral : ∀ c, neutral c = false → mirror c = c

/-- A span that is still growing: what stands before its last weak run, and that run.
A span without one has an empty run. -/
structure OpenSpan (α : Type*) where
  body : List α
  weakRun : List α

/-- A line up to some rune: what is settled, and the open span behind it. -/
structure LineState (α : Type*) where
  settled : List α
  span : Option (OpenSpan α)

namespace OpenSpan

variable {α : Type*}

def runes (span : OpenSpan α) : List α :=
  span.body ++ span.weakRun

/-- The span with its weak run turned round and closed. -/
def turned (span : OpenSpan α) : OpenSpan α :=
  ⟨span.body ++ span.weakRun.reverse, []⟩

/-- The span grown by a rune that does not begin a weak run. -/
def append (span : OpenSpan α) (c : α) : OpenSpan α :=
  match span.weakRun with
  | [] => ⟨span.body ++ [c], []⟩
  | _ => ⟨span.body, span.weakRun ++ [c]⟩

@[simp] theorem runes_append (span : OpenSpan α) (c : α) :
    (span.append c).runes = span.runes ++ [c] := by
  rcases span with ⟨body, _ | ⟨first, run⟩⟩ <;> simp [append, runes]

@[simp] theorem append_nil (body : List α) (c : α) :
    (OpenSpan.mk body []).append c = ⟨body ++ [c], []⟩ := rfl

end OpenSpan

/-- The runes of a line up to some rune, in the order in which they stand. -/
def LineState.runes {α : Type*} (state : LineState α) : List α :=
  match state.span with
  | none => state.settled
  | some span => state.settled ++ span.runes

namespace Directions

variable {α : Type*} (d : Directions α)

/-- A rune that separates weak runs. -/
def strong (c : α) : Bool :=
  d.rtl c && !d.neutral c

/-- A rune that is left-to-right for sure. -/
def anchor (c : α) : Bool :=
  !(d.rtl c || d.neutral c || d.weak c)

/-- A neutral rune with this rune behind it does not end a span. -/
def continues : Option α → Bool
  | none => true
  | some next => d.rtl next || d.neutral next || d.weak next || d.control next

/-- One turn of the loop. -/
def handleRune (state : LineState α) (c : α) (next : Option α) : LineState α :=
  match state.span with
  | none =>
      if d.rtl c && next.isSome then { state with span := some ⟨[c], []⟩ }
      else ⟨state.settled ++ [c], none⟩
  | some span =>
      let turned := if !d.weak c && !d.neutral c then span.turned else span
      if (d.neutral c || d.weak c) && d.continues next then
        if d.weak c then { state with span := some ⟨span.body, span.weakRun ++ [c]⟩ }
        else { state with span := some (span.append (d.mirror c)) }
      else if !d.rtl c then ⟨state.settled ++ turned.runes.reverse ++ [c], none⟩
      else { state with span := some (turned.append c) }

/-- The loop. -/
def handleRunes : LineState α → List α → LineState α
  | state, [] => state
  | state, c :: rest => handleRunes (d.handleRune state c rest.head?) rest

/-- The line with its last span closed. -/
def closeLine (state : LineState α) : List α :=
  match state.span with
  | none => state.settled
  | some span => state.settled ++ span.turned.runes.reverse

def reorder (line : List α) : List α :=
  closeLine (d.handleRunes ⟨[], none⟩ line)

/-! ## Stretches -/

/-- A region that is reversed as a whole, after its weak runs. -/
def reverseRegion (turnLast : Bool) (region : List α) : List α :=
  ((turnBlocks d.strong d.weak turnLast region).map d.mirror).reverse

/-- From the first right-to-left rune on, a stretch is reversed; only a last neutral or
weak rune stays in place if a visible anchor stands behind it. -/
def reorderRegion (visible : Bool) (region : List α) : List α :=
  match region.getLast? with
  | none => []
  | some last =>
      if visible && !d.rtl last then d.reverseRegion false region.dropLast ++ [last]
      else d.reverseRegion true region

def reorderStretch (visible : Bool) (stretch : List α) : List α :=
  (stretch.takeWhile fun c => !d.rtl c) ++
    d.reorderRegion visible (stretch.dropWhile fun c => !d.rtl c)

/-- For each stretch of a line, whether a visible anchor stands behind it. -/
def visibleAnchors (anchors : List α) : List Bool :=
  anchors.map (fun a => !d.control a) ++ [false]

variable {d}

theorem not_weak_of_rtl {c : α} (rtl : d.rtl c = true) : d.weak c = false := by
  cases weak : d.weak c with
  | false => rfl
  | true => rw [d.weak_not_rtl c weak] at rtl; cases rtl

theorem not_weak_of_neutral {c : α} (neutral : d.neutral c = true) : d.weak c = false := by
  cases weak : d.weak c with
  | false => rfl
  | true => rw [d.weak_not_neutral c weak] at neutral; cases neutral

theorem not_rtl_of_anchor {a : α} (anchor : d.anchor a = true) : d.rtl a = false := by
  simp only [Directions.anchor, Bool.not_eq_true', Bool.or_eq_false_iff] at anchor
  exact anchor.1.1

theorem continues_of_inside {next : α} (inside : d.anchor next = false) :
    d.continues (some next) = true := by
  rw [Directions.anchor, Bool.not_eq_false'] at inside
  rw [continues, inside, Bool.true_or]

theorem continues_anchor {a : α} (anchor : d.anchor a = true) :
    d.continues (some a) = d.control a := by
  rw [Directions.anchor, Bool.not_eq_true'] at anchor
  rw [continues, anchor, Bool.false_or]

/-- Outside of a span everything but right-to-left runes is passed over. -/
theorem handleRunes_outside {settled front : List α} (leftToRight : ∀ c ∈ front, d.rtl c = false)
    (rest : List α) :
    d.handleRunes ⟨settled, none⟩ (front ++ rest) =
      d.handleRunes ⟨settled ++ front, none⟩ rest := by
  induction front generalizing settled with
  | nil => simp
  | cons c front ih =>
      have step : d.handleRune ⟨settled, none⟩ c (front ++ rest).head? =
          ⟨settled ++ [c], none⟩ := by
        simp [handleRune, leftToRight c (by simp)]
      rw [List.cons_append, handleRunes, step, ih fun e member => leftToRight e (by simp [member])]
      simp

/-- An anchor closes the span and its weak run. -/
theorem handleRune_anchor {settled : List α} {span : OpenSpan α} {a : α}
    (anchor : d.anchor a = true)
    (next : Option α) :
    d.handleRune ⟨settled, some span⟩ a next =
      ⟨settled ++ span.turned.runes.reverse ++ [a], none⟩ := by
  obtain ⟨⟨notRtl, notNeutral⟩, notWeak⟩ : (d.rtl a = false ∧ d.neutral a = false) ∧
      d.weak a = false := by
    simpa [Directions.anchor] using anchor
  simp [handleRune, notRtl, notNeutral, notWeak]

/-- A neutral or weak rune in front of a visible anchor closes the span, but not its
weak run. -/
theorem handleRune_boundary {settled : List α} {span : OpenSpan α} {c : α} {next : Option α}
    (inside : d.anchor c = false) (notRtl : d.rtl c = false)
    (boundary : d.continues next = false) :
    d.handleRune ⟨settled, some span⟩ c next =
      ⟨settled ++ span.runes.reverse ++ [c], none⟩ := by
  have kept : (!d.weak c && !d.neutral c) = false := by
    cases weak : d.weak c <;> cases neutral : d.neutral c <;>
      simp [Directions.anchor, notRtl, weak, neutral] at inside ⊢
  simp [handleRune, notRtl, boundary, kept]

variable (d) in
/-- The span grown by a rune that does not close it. -/
def absorb (span : OpenSpan α) (c : α) : OpenSpan α :=
  if d.weak c then ⟨span.body, span.weakRun ++ [c]⟩
  else if d.neutral c then span.append (d.mirror c)
  else span.turned.append c

theorem handleRune_absorb {settled : List α} {span : OpenSpan α} {c : α} {next : Option α}
    (inside : d.anchor c = false) (goesOn : d.rtl c = true ∨ d.continues next = true) :
    d.handleRune ⟨settled, some span⟩ c next = ⟨settled, some (d.absorb span c)⟩ := by
  have disjointRtl := d.weak_not_rtl c
  have disjointNeutral := d.weak_not_neutral c
  have mirrorRtl := d.mirror_of_rtl c
  cases weak : d.weak c <;> cases neutral : d.neutral c <;> cases rtl : d.rtl c <;>
    cases continues : d.continues next <;>
    simp_all [handleRune, absorb, Directions.anchor]

/-- Runes of one stretch, none of which closes the span. -/
theorem handleRunes_absorb {settled : List α} {span : OpenSpan α} {inner rest : List α}
    (inside : ∀ c ∈ inner, d.anchor c = false)
    (goesOn : ∀ last ∈ inner.getLast?, d.rtl last = true ∨ d.continues rest.head? = true) :
    d.handleRunes ⟨settled, some span⟩ (inner ++ rest) =
      d.handleRunes ⟨settled, some (inner.foldl d.absorb span)⟩ rest := by
  induction inner generalizing span with
  | nil => rfl
  | cons c inner ih =>
      have goesOnHere : d.rtl c = true ∨ d.continues (inner ++ rest).head? = true := by
        cases inner with
        | nil => exact goesOn c (by simp)
        | cons next inner =>
            exact Or.inr (continues_of_inside (inside next (by simp)))
      rw [List.cons_append, handleRunes, handleRune_absorb (inside c (by simp)) goesOnHere,
        List.foldl_cons]
      refine ih (fun e member => inside e (by simp [member])) fun last member => ?_
      apply goesOn
      cases inner with
      | nil => simp at member
      | cons next inner => simpa using member

/-- A rune of a stretch that separates no weak runs is weak or neutral. -/
theorem neutral_of_inside {c : α} (inside : d.anchor c = false) (notStrong : d.strong c = false)
    (notWeak : d.weak c = false) : d.neutral c = true := by
  cases neutral : d.neutral c <;> cases rtl : d.rtl c <;>
    simp_all [Directions.anchor, Directions.strong]

theorem foldl_absorb_neutral {body front : List α} (notWeak : ∀ c ∈ front, d.weak c = false)
    (neutral : ∀ c ∈ front, d.neutral c = true) :
    front.foldl d.absorb ⟨body, []⟩ = ⟨body ++ front.map d.mirror, []⟩ := by
  induction front generalizing body with
  | nil => simp
  | cons c front ih =>
      have step : d.absorb ⟨body, []⟩ c = ⟨body ++ [d.mirror c], []⟩ := by
        simp [absorb, notWeak c (by simp), neutral c (by simp)]
      rw [List.foldl_cons, step, ih (fun e member => notWeak e (by simp [member]))
        fun e member => neutral e (by simp [member])]
      simp

/-- A weak run takes in everything up to the next strong rune. -/
theorem foldl_absorb_run {body run back : List α} (begun : run ≠ [])
    (within : ∀ c ∈ back, d.weak c = true ∨ d.neutral c = true) :
    back.foldl d.absorb ⟨body, run⟩ = ⟨body, run ++ back.map d.mirror⟩ := by
  induction back generalizing run with
  | nil => simp
  | cons c back ih =>
      have step : d.absorb ⟨body, run⟩ c = ⟨body, run ++ [d.mirror c]⟩ := by
        cases weak : d.weak c with
        | true => simp [absorb, weak, d.mirror_of_not_neutral c (d.weak_not_neutral c weak)]
        | false =>
            have neutral : d.neutral c = true := by simpa [weak] using within c (by simp)
            obtain ⟨first, run, rfl⟩ := List.exists_cons_of_ne_nil begun
            simp [absorb, weak, neutral, OpenSpan.append]
      rw [List.foldl_cons, step, ih (by simp) fun e member => within e (by simp [member])]
      simp

/-- One block between strong runes. -/
theorem foldl_absorb_block {body block : List α} (inside : ∀ c ∈ block, d.anchor c = false)
    (notStrong : ∀ c ∈ block, d.strong c = false) :
    ∃ front run, block.foldl d.absorb ⟨body, []⟩ = ⟨body ++ front, run⟩ ∧
      front ++ run = block.map d.mirror ∧
      front ++ run.reverse = (turnMarked d.weak block).map d.mirror := by
  rcases marked_cases d.weak block with none | ⟨front, c, back, rfl, before, here⟩
  · refine ⟨block.map d.mirror, [], foldl_absorb_neutral none fun c member =>
      neutral_of_inside (inside c member) (notStrong c member) (none c member), by simp, ?_⟩
    rw [turnMarked_of_unmarked none]
    simp
  · refine ⟨front.map d.mirror, (c :: back).map d.mirror, ?_, by simp, ?_⟩
    · have neutral : ∀ e ∈ front, d.neutral e = true := fun e member =>
        neutral_of_inside (inside e (by simp [member])) (notStrong e (by simp [member]))
          (before e member)
      have within : ∀ e ∈ back, d.weak e = true ∨ d.neutral e = true := by
        intro e member
        cases weak : d.weak e with
        | true => exact Or.inl rfl
        | false => exact Or.inr (neutral_of_inside (inside e (by simp [member]))
            (notStrong e (by simp [member])) weak)
      have first : d.absorb ⟨body ++ front.map d.mirror, []⟩ c =
          ⟨body ++ front.map d.mirror, [c]⟩ := by
        simp [absorb, here]
      rw [List.foldl_append, foldl_absorb_neutral before neutral, List.foldl_cons, first,
        foldl_absorb_run (by simp) within, List.map_cons,
        d.mirror_of_not_neutral c (d.weak_not_neutral c here)]
      rfl
    · rw [turnMarked_append before here]
      simp

/-- The span grown by a whole region. -/
theorem foldl_absorb_region {body : List α} {blocks : List (List α)} {separators : List α}
    (separated : Separated d.strong blocks separators)
    (inside : ∀ c ∈ interleave blocks separators, d.anchor c = false) :
    ∃ front run, (interleave blocks separators).foldl d.absorb ⟨body, []⟩ =
        ⟨body ++ front, run⟩ ∧
      front ++ run = (interleave (turnEach d.weak false blocks) separators).map d.mirror ∧
      front ++ run.reverse =
        (interleave (turnEach d.weak true blocks) separators).map d.mirror := by
  induction separated generalizing body with
  | single clear => exact foldl_absorb_block inside clear
  | @cons block separator blocks separators clear separating rest ih =>
      rw [interleave] at inside
      obtain ⟨front, run, fold, -, turned⟩ : ∃ front run,
          block.foldl d.absorb ⟨body, []⟩ = ⟨body ++ front, run⟩ ∧ _ :=
        foldl_absorb_block (fun c member => inside c (by simp [member])) clear
      obtain ⟨rtl, notNeutral⟩ : d.rtl separator = true ∧ d.neutral separator = false := by
        simpa [Directions.strong] using separating
      have notWeak := not_weak_of_rtl rtl
      have step : d.absorb ⟨body ++ front, run⟩ separator =
          ⟨body ++ (front ++ run.reverse ++ [separator]), []⟩ := by
        simp [absorb, notWeak, notNeutral, OpenSpan.turned]
      obtain ⟨more, moreRun, moreFold, moreKept, moreTurned⟩ : ∃ more moreRun,
          (interleave blocks separators).foldl d.absorb
            ⟨body ++ (front ++ run.reverse ++ [separator]), []⟩ =
              ⟨body ++ (front ++ run.reverse ++ [separator]) ++ more, moreRun⟩ ∧ _ :=
        ih fun c member => inside c (by simp [member])
      have turnedEach (turnLast : Bool) :
          interleave (turnEach d.weak turnLast (block :: blocks)) (separator :: separators) =
            turnMarked d.weak block ++ separator ::
              interleave (turnEach d.weak turnLast blocks) separators := by
        cases rest <;> rfl
      refine ⟨front ++ run.reverse ++ [separator] ++ more, moreRun, ?_, ?_, ?_⟩
      · rw [interleave, List.foldl_append, fold, List.foldl_cons, step, moreFold]
        simp
      · rw [turnedEach, List.append_assoc, moreKept, turned]
        simp [d.mirror_of_rtl separator rtl]
      · rw [turnedEach, List.append_assoc, moreTurned, turned]
        simp [d.mirror_of_rtl separator rtl]

section Region

variable {settled region rest : List α}

theorem reverse_runes_region (inside : ∀ c ∈ region, d.anchor c = false) :
    (region.foldl d.absorb ⟨[], []⟩).runes.reverse = d.reverseRegion false region ∧
      (region.foldl d.absorb ⟨[], []⟩).turned.runes.reverse = d.reverseRegion true region := by
  obtain ⟨blocks, separators, separated, rfl⟩ := exists_interleave d.strong region
  obtain ⟨front, run, fold, kept, turned⟩ : ∃ front run,
      (interleave blocks separators).foldl d.absorb ⟨[], []⟩ = ⟨[] ++ front, run⟩ ∧ _ :=
    foldl_absorb_region separated inside
  rw [fold, reverseRegion, reverseRegion, turnBlocks_interleave separated,
    turnBlocks_interleave separated, ← kept, ← turned]
  simp [OpenSpan.runes, OpenSpan.turned]

theorem absorb_first {c : α} (rtl : d.rtl c = true) : d.absorb ⟨[], []⟩ c = ⟨[c], []⟩ := by
  simp [absorb, not_weak_of_rtl rtl, d.mirror_of_rtl c rtl, OpenSpan.turned]

/-- A region that is not closed before its end becomes the open span. -/
theorem handleRunes_region {c : α} (rtl : d.rtl c = true)
    (inside : ∀ e ∈ region, d.anchor e = false)
    (more : region ++ rest ≠ [])
    (goesOn : ∀ last ∈ (c :: region).getLast?, d.rtl last = true ∨ d.continues rest.head? = true) :
    d.handleRunes ⟨settled, none⟩ (c :: region ++ rest) =
      d.handleRunes ⟨settled, some ((c :: region).foldl d.absorb ⟨[], []⟩)⟩ rest := by
  obtain ⟨next, tail, moreEq⟩ := List.exists_cons_of_ne_nil more
  have opened : d.handleRune ⟨settled, none⟩ c (region ++ rest).head? =
      ⟨settled, some ⟨[c], []⟩⟩ := by
    simp [handleRune, rtl, moreEq]
  rw [List.cons_append, handleRunes, opened, List.foldl_cons, absorb_first rtl]
  refine handleRunes_absorb inside fun last member => goesOn last ?_
  cases region with
  | nil => simp at member
  | cons next region => simpa using member

/-- A region closed early leaves its last rune in place. -/
theorem handleRunes_region_early {c last a : α} (rtl : d.rtl c = true)
    (inside : ∀ e ∈ c :: region, d.anchor e = false) (insideLast : d.anchor last = false)
    (notRtl : d.rtl last = false) (anchor : d.anchor a = true) (visible : d.control a = false) :
    d.handleRunes ⟨settled, none⟩ (c :: region ++ last :: a :: rest) =
      d.handleRunes ⟨settled ++ d.reverseRegion false (c :: region) ++ [last] ++ [a],
        none⟩ rest := by
  have boundary : d.continues (some a) = false := by rw [continues_anchor anchor, visible]
  have passes := not_rtl_of_anchor anchor
  have passed : d.handleRune ⟨settled ++ d.reverseRegion false (c :: region) ++ [last], none⟩ a
      rest.head? = ⟨settled ++ d.reverseRegion false (c :: region) ++ [last] ++ [a], none⟩ := by
    simp [handleRune, passes]
  have goesOn : d.continues (last :: a :: rest).head? = true := continues_of_inside insideLast
  rw [handleRunes_region rtl (fun e member => inside e (by simp [member])) (by simp)
      (fun _ _ => Or.inr goesOn), handleRunes, List.head?_cons,
    handleRune_boundary insideLast notRtl boundary, (reverse_runes_region inside).1, handleRunes,
    passed]

theorem handleRunes_region_anchor {c a : α} (rtl : d.rtl c = true)
    (inside : ∀ e ∈ c :: region, d.anchor e = false) (anchor : d.anchor a = true) :
    d.handleRunes ⟨settled, none⟩ (c :: region ++ a :: rest) =
      d.handleRunes ⟨settled ++ d.reorderRegion (!d.control a) (c :: region) ++ [a],
        none⟩ rest := by
  have whole (goesOn : ∀ e ∈ (c :: region).getLast?, d.rtl e = true ∨ d.control a = true) :
      d.handleRunes ⟨settled, none⟩ (c :: region ++ a :: rest) =
        d.handleRunes ⟨settled ++ d.reverseRegion true (c :: region) ++ [a], none⟩ rest := by
    rw [handleRunes_region rtl (fun e member => inside e (by simp [member])) (by simp)
      (by rwa [List.head?_cons, continues_anchor anchor]), handleRunes, handleRune_anchor anchor,
      (reverse_runes_region inside).2]
  rcases List.eq_nil_or_concat region with rfl | ⟨init, last, rfl⟩
  · rw [whole (by simp [rtl])]
    simp [reorderRegion, rtl]
  · rw [List.concat_eq_append] at inside whole ⊢
    have ends : (c :: (init ++ [last])).getLast? = some last := by
      rw [← List.cons_append, List.getLast?_concat]
    rw [ends] at whole
    rw [reorderRegion, ends]
    by_cases early : (!d.control a && !d.rtl last) = true
    · obtain ⟨visible, notRtl⟩ : d.control a = false ∧ d.rtl last = false := by simpa using early
      have split : c :: (init ++ [last]) ++ a :: rest = c :: init ++ last :: a :: rest := by simp
      rw [split, handleRunes_region_early rtl
        (fun e member => inside e (by simp at member ⊢; tauto))
        (inside last (by simp)) notRtl anchor visible]
      simp only [early, if_true]
      rw [← List.cons_append, List.dropLast_concat, ← List.append_assoc]
    · rw [whole]
      · simp only [early, Bool.false_eq_true, if_false]
      · intro e member
        rw [Option.mem_some_iff] at member
        rw [← member]
        cases rtlLast : d.rtl last <;> cases control : d.control a <;>
          simp [rtlLast, control] at early ⊢

theorem closeLine_region {c : α} (rtl : d.rtl c = true)
    (inside : ∀ e ∈ c :: region, d.anchor e = false) :
    closeLine (d.handleRunes ⟨settled, none⟩ (c :: region)) =
      settled ++ d.reorderRegion false (c :: region) := by
  obtain ⟨-, turnedRunes⟩ := reverse_runes_region inside
  have whole : d.reorderRegion false (c :: region) = d.reverseRegion true (c :: region) := by
    simp [reorderRegion, List.getLast?_cons]
  rw [whole, ← turnedRunes]
  cases region with
  | nil => simp [handleRunes, handleRune, closeLine, absorb_first rtl, OpenSpan.turned,
      OpenSpan.runes]
  | cons next region =>
      have run : d.handleRunes ⟨settled, none⟩ (c :: next :: region ++ []) = _ :=
        handleRunes_region rtl (fun e member => inside e (by simp at member ⊢; tauto)) (by simp)
          (fun _ _ => Or.inr rfl)
      rw [List.append_nil] at run
      rw [run]
      rfl

end Region

theorem reorderStretch_of_left {visible : Bool} {stretch : List α}
    (leftToRight : ∀ c ∈ stretch, d.rtl c = false) :
    d.reorderStretch visible stretch = stretch := by
  have all : ∀ c ∈ stretch, (!d.rtl c) = true := by simpa using leftToRight
  rw [reorderStretch, List.takeWhile_eq_self_iff.mpr all, List.dropWhile_eq_nil_iff.mpr all]
  simp [reorderRegion]

theorem reorderStretch_append {visible : Bool} {front back : List α} {c : α}
    (leftToRight : ∀ e ∈ front, d.rtl e = false) (rtl : d.rtl c = true) :
    d.reorderStretch visible (front ++ c :: back) =
      front ++ d.reorderRegion visible (c :: back) := by
  rw [reorderStretch, dropWhile_unmarked leftToRight rtl,
    List.takeWhile_append_of_pos (by simpa using leftToRight),
    List.takeWhile_cons_of_neg (by simp [rtl]), List.append_nil]

/-- A stretch with the anchor behind it. -/
theorem handleRunes_stretch {settled stretch rest : List α} {a : α}
    (inside : ∀ c ∈ stretch, d.anchor c = false) (anchor : d.anchor a = true) :
    d.handleRunes ⟨settled, none⟩ (stretch ++ a :: rest) =
      d.handleRunes ⟨settled ++ d.reorderStretch (!d.control a) stretch ++ [a], none⟩ rest := by
  rcases marked_cases d.rtl stretch with leftToRight | ⟨front, c, back, rfl, before, rtl⟩
  · have passes : ∀ e ∈ stretch ++ [a], d.rtl e = false := by
      simpa [or_imp, forall_and, not_rtl_of_anchor anchor] using leftToRight
    have split : stretch ++ a :: rest = (stretch ++ [a]) ++ rest := by simp
    rw [split, handleRunes_outside passes, reorderStretch_of_left leftToRight, List.append_assoc]
  · rw [List.append_assoc, handleRunes_outside before,
      handleRunes_region_anchor rtl (fun e member => inside e (by simp at member ⊢; tauto)) anchor,
      reorderStretch_append before rtl, List.append_assoc settled]

theorem closeLine_stretch {settled stretch : List α} (inside : ∀ c ∈ stretch, d.anchor c = false) :
    closeLine (d.handleRunes ⟨settled, none⟩ stretch) =
      settled ++ d.reorderStretch false stretch := by
  rcases marked_cases d.rtl stretch with leftToRight | ⟨front, c, back, rfl, before, rtl⟩
  · have passed : d.handleRunes ⟨settled, none⟩ (stretch ++ []) = _ :=
      handleRunes_outside leftToRight []
    rw [List.append_nil] at passed
    rw [passed, reorderStretch_of_left leftToRight]
    rfl
  · rw [handleRunes_outside before,
      closeLine_region rtl (fun e member => inside e (by simp at member ⊢; tauto)),
      reorderStretch_append before rtl, List.append_assoc]

/-- Stretches are reordered one by one, between anchors that stay. -/
theorem closeLine_interleave {settled : List α} {stretches : List (List α)} {anchors : List α}
    (separated : Separated d.anchor stretches anchors) :
    closeLine (d.handleRunes ⟨settled, none⟩ (interleave stretches anchors)) =
      settled ++ interleave
        (List.zipWith d.reorderStretch (d.visibleAnchors anchors) stretches) anchors := by
  induction separated generalizing settled with
  | single inside => exact closeLine_stretch inside
  | cons inside anchor _ ih =>
      rw [interleave, handleRunes_stretch inside anchor, ih]
      simp [visibleAnchors, interleave]

theorem reorder_eq (line : List α) :
    d.reorder line = interleave (List.zipWith d.reorderStretch
      (d.visibleAnchors (line.filter d.anchor)) (line.splitOnP d.anchor))
      (line.filter d.anchor) := by
  have run : closeLine (d.handleRunes ⟨[], none⟩ (interleave (line.splitOnP d.anchor)
      (line.filter d.anchor))) = _ := closeLine_interleave (separated_splitOnP d.anchor line)
  rw [interleave_splitOnP, List.nil_append] at run
  exact run

/-! ## Relabelled lines -/

section Relabelling

variable {β : Type*} {e : Directions β} {f : α → β}

/-- The relabelling `f` does not change how `c` is handled. -/
structure KeepsClasses (d : Directions α) (e : Directions β) (f : α → β) (c : α) : Prop where
  rtl : e.rtl (f c) = d.rtl c
  neutral : e.neutral (f c) = d.neutral c
  weak : e.weak (f c) = d.weak c
  control : e.control (f c) = d.control c
  mirror : e.mirror (f c) = f (d.mirror c)

/-- A state with all its runes relabelled. -/
def relabel (f : α → β) (state : LineState α) : LineState β where
  settled := state.settled.map f
  span := state.span.map fun span => ⟨span.body.map f, span.weakRun.map f⟩

theorem continues_map {next : Option α} (keeps : ∀ c ∈ next, KeepsClasses d e f c) :
    e.continues (next.map f) = d.continues next := by
  cases next with
  | none => rfl
  | some c =>
      have same := keeps c rfl
      simp only [Option.map_some, continues, same.rtl, same.neutral, same.weak, same.control]

theorem handleRune_relabel {state : LineState α} {c : α} {next : Option α}
    (keeps : KeepsClasses d e f c) (keepsNext : ∀ n ∈ next, KeepsClasses d e f n) :
    e.handleRune (relabel f state) (f c) (next.map f) =
      relabel f (d.handleRune state c next) := by
  rcases state with ⟨settled, _ | ⟨body, run⟩⟩
  · simp only [handleRune, relabel, Option.map_none, keeps.rtl, Option.isSome_map]
    split <;> simp
  · simp only [handleRune, relabel, Option.map_some, keeps.rtl, keeps.neutral, keeps.weak,
      keeps.mirror, continues_map keepsNext]
    have grown (n : α) : (OpenSpan.mk (body.map f) (run.map f)).append (f n) =
        ⟨((OpenSpan.mk body run).append n).body.map f,
          ((OpenSpan.mk body run).append n).weakRun.map f⟩ := by
      cases run <;> simp [OpenSpan.append]
    split
    · split
      · simp
      · simp [grown]
    · split
      · split <;> simp [OpenSpan.turned, OpenSpan.runes]
      · split
        · simp [OpenSpan.turned]
        · simp [grown]

theorem handleRunes_relabel {state : LineState α} {line : List α}
    (keeps : ∀ c ∈ line, KeepsClasses d e f c) :
    e.handleRunes (relabel f state) (line.map f) = relabel f (d.handleRunes state line) := by
  induction line generalizing state with
  | nil => rfl
  | cons c rest ih =>
      have keepsNext : ∀ n ∈ rest.head?, KeepsClasses d e f n :=
        fun n member => keeps n (List.mem_cons_of_mem c (List.mem_of_mem_head? member))
      rw [List.map_cons, handleRunes, handleRunes, List.head?_map,
        handleRune_relabel (keeps c (by simp)) keepsNext,
        ih fun n member => keeps n (by simp [member])]

/-- Reordering looks at the classes of runes only. -/
theorem reorder_map {line : List α} (keeps : ∀ c ∈ line, KeepsClasses d e f c) :
    e.reorder (line.map f) = (d.reorder line).map f := by
  have start : (⟨[], none⟩ : LineState β) = relabel f ⟨[], none⟩ := rfl
  rw [reorder, reorder, start, handleRunes_relabel keeps]
  generalize d.handleRunes ⟨[], none⟩ line = state
  rcases state with ⟨settled, _ | ⟨body, run⟩⟩ <;>
    simp [relabel, closeLine, OpenSpan.turned, OpenSpan.runes]

end Relabelling

end Directions

end Elbbep
