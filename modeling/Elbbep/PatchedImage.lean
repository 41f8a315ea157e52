import Elbbep.BranchEncoding

/-!
# The patched image

`finalize` splices a branch into the image for every hook.  Windows that do not overlap
leave each other alone, so the image is changed in the windows only, and every branch goes
to the symbol of its hook.
-/

namespace Elbbep

namespace PatchTools

open PythonStruct ThumbBranch

/-! ## Splicing -/

section Splicing

variable {bytes window : List UInt8} {address : Nat}

theorem length_splice (four : window.length = 4) (inside : address + 4 ≤ bytes.length) :
    (bytes.take address ++ window ++ bytes.drop (address + 4)).length = bytes.length := by
  simp only [List.length_append, List.length_take, List.length_drop, four]
  omega

theorem getElem?_splice (four : window.length = 4) (inside : address + 4 ≤ bytes.length) {i : Nat}
    (outside : i < address ∨ address + 4 ≤ i) :
    (bytes.take address ++ window ++ bytes.drop (address + 4))[i]? = bytes[i]? := by
  have taken : (bytes.take address).length = address := by
    rw [List.length_take]
    omega
  rcases outside with before | behind
  · rw [List.append_assoc, List.getElem?_append_left (by omega), List.getElem?_take_of_lt before]
  · rw [List.getElem?_append_right (by rw [List.length_append]; omega), List.length_append, taken,
      four, List.getElem?_drop]
    congr 1
    omega

theorem slice_splice (four : window.length = 4) (inside : address + 4 ≤ bytes.length) :
    slice (bytes.take address ++ window ++ bytes.drop (address + 4)) address (address + 4) =
      window := by
  have taken : (bytes.take address).length = address := by
    rw [List.length_take]
    omega
  rw [slice_eq_take_drop, List.append_assoc, List.drop_left' taken, List.take_left' four]

/-- What is read in a window depends on its bytes only. -/
theorem slice_congr {other : List UInt8}
    (same : ∀ i, address ≤ i → i < address + 4 → bytes[i]? = other[i]?) :
    slice bytes address (address + 4) = slice other address (address + 4) := by
  rw [slice_eq_take_drop, slice_eq_take_drop]
  apply List.ext_getElem?
  intro i
  by_cases here : i < 4
  · rw [List.getElem?_take_of_lt here, List.getElem?_take_of_lt here, List.getElem?_drop,
      List.getElem?_drop]
    exact same (address + i) (by omega) (by omega)
  · rw [List.getElem?_take_eq_none (by omega), List.getElem?_take_eq_none (by omega)]

end Splicing

/-! ## Hooks -/

/-- A queued branch. -/
structure Hook where
  address : Nat
  symbol : String
  link : Bool

def PatchOp.hook : PatchOp → Option Hook
  | .branchOffset address symbol link => some ⟨address, symbol, link⟩
  | _ => none

def hooks (opQueue : List PatchOp) : List Hook :=
  opQueue.filterMap PatchOp.hook

/-- Hooks whose windows do not overlap. -/
def Hook.Apart (hook other : Hook) : Prop :=
  hook.address + 4 ≤ other.address ∨ other.address + 4 ≤ hook.address

/-- The branch in a window. -/
def branchAt (image : List UInt8) (address : Nat) : Option WideBranch :=
  match slice image address (address + 4) with
  | [b0, b1, b2, b3] => decode (u16 b0 b1) (u16 b2 b3)
  | _ => none

/-- The bytes of the branch over a displacement. -/
def branchBytes (displacement : Int) (link : Bool) : List UInt8 :=
  encodeH (branchInstr displacement link >>> 16) ++
    encodeH (branchInstr displacement link % 2 ^ 16)

/-- How far a hook is from a symbol. -/
def Hook.displacement (hook : Hook) (target : Target) (symbolAddr : Nat) : Int :=
  (symbolAddr : Int) - target.microcodeOffset - hook.address - 4

theorem applyBranch_hook {target : Target} {symtab : String → Option Nat} {hook : Hook}
    {symbolAddr : Nat} (symbol : symtab hook.symbol = some symbolAddr) (bytes : List UInt8) :
    applyBranch target symtab bytes (.branchOffset hook.address hook.symbol hook.link) =
      .ok (bytes.take hook.address ++
        branchBytes (hook.displacement target symbolAddr) hook.link ++
        bytes.drop (hook.address + 4)) := by
  have small := (decode_branchInstr (hook.displacement target symbolAddr) hook.link).1
  have firstSmall : branchInstr (hook.displacement target symbolAddr) hook.link >>> 16 < 65536 := by
    rw [Nat.shiftRight_eq_div_pow]
    omega
  have secondSmall : branchInstr (hook.displacement target symbolAddr) hook.link % 2 ^ 16 < 65536 :=
    Nat.mod_lt _ (by decide)
  simp only [applyBranch, symbol, packH_natCast]
  rw [← Hook.displacement, if_pos firstSmall, if_pos secondSmall]
  rfl

theorem applyBranch_other {target : Target} {symtab : String → Option Nat} {op : PatchOp}
    (other : op.hook = none) (bytes : List UInt8) :
    applyBranch target symtab bytes op = .ok bytes := by
  cases op with
  | branchOffset address symbol link => cases other
  | _ => rfl

/-- The branches are spliced in one after the other; each stands in its window, and outside of the
windows nothing is changed. -/
theorem foldlM_applyBranch {target : Target} {symtab : String → Option Nat}
    {opQueue : List PatchOp} {bytes : List UInt8} {symbolAddr : Hook → Nat}
    (symbols : ∀ hook ∈ hooks opQueue, symtab hook.symbol = some (symbolAddr hook))
    (inside : ∀ hook ∈ hooks opQueue, hook.address + 4 ≤ bytes.length)
    (apart : (hooks opQueue).Pairwise Hook.Apart) :
    ∃ body, opQueue.foldlM (applyBranch target symtab) bytes = .ok body ∧
      body.length = bytes.length ∧
      (∀ i, (∀ hook ∈ hooks opQueue, i < hook.address ∨ hook.address + 4 ≤ i) →
        body[i]? = bytes[i]?) ∧
      ∀ hook ∈ hooks opQueue, slice body hook.address (hook.address + 4) =
        branchBytes (hook.displacement target (symbolAddr hook)) hook.link := by
  induction opQueue generalizing bytes with
  | nil => exact ⟨bytes, rfl, rfl, fun _ _ => rfl, by simp [hooks]⟩
  | cons op opQueue ih =>
      cases hookEq : op.hook with
      | none =>
          have same : hooks (op :: opQueue) = hooks opQueue := List.filterMap_cons_none hookEq
          rw [same] at symbols inside apart ⊢
          obtain ⟨body, run, rest⟩ := ih symbols inside apart
          refine ⟨body, ?_, rest⟩
          rw [List.foldlM_cons, applyBranch_other hookEq]
          exact run
      | some hook =>
          have opEq : op = .branchOffset hook.address hook.symbol hook.link := by
            cases op with
            | branchOffset address symbol link =>
                cases hookEq
                rfl
            | _ => cases hookEq
          have consEq : hooks (op :: opQueue) = hook :: hooks opQueue :=
            List.filterMap_cons_some hookEq
          rw [consEq] at symbols inside apart ⊢
          have four : (branchBytes (hook.displacement target (symbolAddr hook)) hook.link).length =
              4 := rfl
          have here := inside hook (by simp)
          obtain ⟨apartHere, apartRest⟩ := List.pairwise_cons.mp apart
          have spliced := length_splice four here
          obtain ⟨body, run, length, outside, windows⟩ :=
            ih (fun other member => symbols other (by simp [member]))
              (fun other member => by rw [spliced]; exact inside other (by simp [member])) apartRest
          refine ⟨body, ?_, length.trans spliced, ?_, ?_⟩
          · rw [List.foldlM_cons, opEq, applyBranch_hook (symbols hook (by simp))]
            exact run
          · intro i clear
            rw [outside i fun other member => clear other (by simp [member]),
              getElem?_splice four here (clear hook (by simp))]
          · intro other member
            rcases List.mem_cons.mp member with rfl | later
            · -- The later branches leave this window alone.
              rw [← slice_splice four here]
              apply slice_congr
              intro i above below
              apply outside
              intro later inLater
              rcases apartHere later inLater with before | behind
              · exact Or.inl (by omega)
              · exact Or.inr (by omega)
            · exact windows other later

theorem branchAt_of_slice {image : List UInt8} {address : Nat} {displacement : Int} {link : Bool}
    (window : slice image address (address + 4) = branchBytes displacement link) :
    branchAt image address = decode (branchInstr displacement link >>> 16)
      (branchInstr displacement link % 2 ^ 16) := by
  have small := (decode_branchInstr displacement link).1
  have firstSmall : branchInstr displacement link >>> 16 < 65536 := by
    rw [Nat.shiftRight_eq_div_pow]
    omega
  have secondSmall : branchInstr displacement link % 2 ^ 16 < 65536 := Nat.mod_lt _ (by decide)
  rw [branchAt, window]
  change decode (u16 _ _) (u16 _ _) = _
  rw [u16_encodeH firstSmall, u16_encodeH secondSmall]

/-! ## The image -/

namespace Patcher

theorem foldl_applyOverwrite {opQueue : List PatchOp}
    (branches : ∀ address content, PatchOp.overwrite address content ∉ opQueue)
    (bytes : List UInt8) : opQueue.foldl applyOverwrite bytes = bytes := by
  induction opQueue with
  | nil => rfl
  | cons op opQueue ih =>
      have unchanged : applyOverwrite bytes op = bytes := by
        cases op with
        | overwrite address content => exact absurd (by simp) (branches address content)
        | _ => rfl
      rw [List.foldl_cons, unchanged]
      exact ih fun address content member =>
        branches address content (List.mem_cons_of_mem _ member)

theorem maxImageSize_le (patcher : Patcher) : patcher.maxImageSize ≤ 2 ^ 20 := by
  unfold maxImageSize
  cases patcher.platform <;> (simp only []; omega)

/-- `finalize` after the branches are spliced in. -/
theorem finalize_eq {toolchain : Toolchain} {patcher : Patcher} {linked : Linked}
    (links : toolchain (composePatchH patcher.opQueue) (composePatchS patcher.opQueue)
      patcher.targetEnd = .ok linked) {body : List UInt8}
    (run : patcher.opQueue.foldlM (applyBranch patcher.target linked.symtab)
      (patcher.opQueue.foldl applyOverwrite patcher.targetBin) = .ok body) :
    patcher.finalize toolchain =
      if (alignPatch body ++ linked.bin ++ patcher.trailingBinContent).length ≤
          patcher.maxImageSize then
        .ok (alignPatch body ++ linked.bin ++ patcher.trailingBinContent)
      else .error .assertionError := by
  simp only [finalize, links, bind, Except.bind]
  rw [run]

/-- A branch to a symbol of the patch is short enough for the encoder, and goes forward. -/
theorem branchAt_symbol {image : List UInt8} {target : Target} {hook : Hook} {position : Nat}
    (ahead : hook.address + 4 < position) (near : position < 2 ^ 20)
    (even : (position - hook.address) % 2 = 0)
    (window : slice image hook.address (hook.address + 4) =
      branchBytes (hook.displacement target (target.microcodeOffset + position)) hook.link) :
    ∃ branch, branchAt image hook.address = some branch ∧ branch.link = hook.link ∧
      branch.destination hook.address = position := by
  have displacementEq : hook.displacement target (target.microcodeOffset + position) =
      (position : Int) - hook.address - 4 := by
    unfold Hook.displacement
    push_cast
    omega
  rw [displacementEq] at window
  refine ⟨⟨hook.link, (position : Int) - hook.address - 4⟩, ?_, rfl, ?_⟩
  · rw [branchAt_of_slice window, (decode_branchInstr _ hook.link).2]
    simp only [Option.some.injEq, WideBranch.mk.injEq, true_and]
    rw [if_pos (by omega)]
    omega
  · simp only [WideBranch.destination]
    omega

/-- `finalize` either finds that the image is too large, or rewrites the windows of the hooks and
appends the patch and the footer, and every hook goes to its symbol. -/
theorem finalize_hooks {toolchain : Toolchain} {patcher : Patcher} {linked : Linked}
    (aligned : patcher.targetBin.length % 4 = 0)
    (links : toolchain (composePatchH patcher.opQueue) (composePatchS patcher.opQueue)
      patcher.targetEnd = .ok linked)
    (branches : ∀ address content, PatchOp.overwrite address content ∉ patcher.opQueue)
    (even : ∀ hook ∈ hooks patcher.opQueue, hook.address % 2 = 0)
    (inside : ∀ hook ∈ hooks patcher.opQueue, hook.address + 4 < patcher.targetBin.length)
    (apart : (hooks patcher.opQueue).Pairwise Hook.Apart)
    (symbols : ∀ hook ∈ hooks patcher.opQueue, ∃ k, k % 2 = 0 ∧ k < linked.bin.length ∧
      linked.symtab hook.symbol =
        some (patcher.target.microcodeOffset + (patcher.targetBin.length + k))) :
    (patcher.maxImageSize < patcher.targetBin.length + linked.bin.length +
          patcher.trailingBinContent.length ∧
        patcher.finalize toolchain = .error .assertionError) ∨
      ∃ body final, final = body ++ linked.bin ++ patcher.trailingBinContent ∧
        patcher.finalize toolchain = .ok final ∧ final.length ≤ patcher.maxImageSize ∧
        body.length = patcher.targetBin.length ∧
        (∀ i, (∀ hook ∈ hooks patcher.opQueue, i < hook.address ∨ hook.address + 4 ≤ i) →
          body[i]? = patcher.targetBin[i]?) ∧
        ∀ hook ∈ hooks patcher.opQueue, ∃ branch symbolAddr,
          branchAt final hook.address = some branch ∧ branch.link = hook.link ∧
          linked.symtab hook.symbol = some symbolAddr ∧
          branch.destination hook.address =
            (symbolAddr : Int) - patcher.target.microcodeOffset := by
  have resolved : ∀ hook ∈ hooks patcher.opQueue,
      linked.symtab hook.symbol = some ((linked.symtab hook.symbol).getD 0) := by
    intro hook member
    obtain ⟨k, -, -, symbol⟩ := symbols hook member
    rw [symbol]
    rfl
  obtain ⟨body, run, length, outside, windows⟩ := foldlM_applyBranch resolved
    (fun hook member => Nat.le_of_lt (inside hook member)) apart
  have alignedBody : alignPatch body = body := if_neg (by omega)
  rw [← foldl_applyOverwrite branches patcher.targetBin] at run
  have finalEq := finalize_eq links run
  rw [alignedBody] at finalEq
  have sizeEq : (body ++ linked.bin ++ patcher.trailingBinContent).length =
      patcher.targetBin.length + linked.bin.length + patcher.trailingBinContent.length := by
    rw [List.length_append, List.length_append, length]
  by_cases fits : (body ++ linked.bin ++ patcher.trailingBinContent).length ≤ patcher.maxImageSize
  · rw [if_pos fits] at finalEq
    refine Or.inr ⟨body, _, rfl, finalEq, fits, length, outside, ?_⟩
    intro hook member
    obtain ⟨k, kEven, kInside, symbol⟩ := symbols hook member
    have here := inside hook member
    have hookEven := even hook member
    have limit := patcher.maxImageSize_le
    have window := windows hook member
    rw [symbol, Option.getD_some] at window
    have sameWindow : slice (body ++ linked.bin ++ patcher.trailingBinContent) hook.address
        (hook.address + 4) = slice body hook.address (hook.address + 4) := by
      apply slice_congr
      intro i _ below
      rw [List.append_assoc, List.getElem?_append_left (by omega)]
    obtain ⟨branch, branchEq, link, destination⟩ := branchAt_symbol (by omega) (by omega) (by omega)
      (sameWindow.trans window)
    refine ⟨branch, _, branchEq, link, symbol, ?_⟩
    rw [destination]
    push_cast
    omega
  · rw [if_neg fits] at finalEq
    exact Or.inl ⟨by omega, finalEq⟩

theorem hooks_inject (patcher : Patcher) (destSymbol : String) (markers : Markers) (asm : String) :
    hooks (patcher.inject destSymbol markers asm).opQueue =
      hooks patcher.opQueue ++ [⟨markers.jump, destSymbol ++ "__proxy", false⟩] := by
  simp only [inject, queue, hooks, List.filterMap_append]
  split <;> rfl

theorem hooks_wrap (patcher : Patcher) (destSymbol : String) (markers : Markers)
    (returnType : String) (passthru : Bool) :
    hooks (patcher.wrap destSymbol markers returnType passthru).opQueue =
      hooks patcher.opQueue ++ [⟨markers.jump, destSymbol, false⟩] := by
  simp only [wrap, queue, hooks, List.filterMap_append]
  cases passthru <;> rfl

/-- A wrapped procedure and an injected call in an image of 52 bytes. -/
def samplePatcher : Patcher :=
  ((⟨.aplite, .hardware, List.replicate 52 0, []⟩ : Patcher).wrap "draw" ⟨8, some 14⟩ "void"
    true).inject "unshape" ⟨16, none⟩ "NOP"

/-- The next multiple of an alignment. -/
def roundUp (value alignment : Nat) : Nat :=
  (value + alignment - 1) / alignment * alignment

/-- A patch of two returns, in a section that is aligned to four bytes. -/
def sampleToolchain : Toolchain := fun _ _ targetEnd =>
  .ok ⟨fun symbol => if symbol = "draw" then some (roundUp targetEnd 4)
    else if symbol = "unshape__proxy" then some (roundUp targetEnd 4 + 2) else none,
    [0x70, 0x47, 0x70, 0x47]⟩

theorem hooks_samplePatcher :
    hooks samplePatcher.opQueue = [⟨8, "draw", false⟩, ⟨16, "unshape__proxy", false⟩] := by
  rw [samplePatcher, hooks_inject, hooks_wrap]
  rfl

theorem overwrite_notMem_samplePatcher (address : Nat) (content : List UInt8) :
    PatchOp.overwrite address content ∉ samplePatcher.opQueue := by
  simp [samplePatcher, wrap, inject, queue]

theorem finalize_hooks_sample :
    ∃ body final, final = body ++ [0x70, 0x47, 0x70, 0x47] ++ List.replicate 47 0 ∧
      samplePatcher.finalize sampleToolchain = .ok final ∧
      ∃ first second : WideBranch, branchAt final 8 = some first ∧ first.destination 8 = 52 ∧
        branchAt final 16 = some second ∧ second.destination 16 = 54 := by
  have hooksEq := hooks_samplePatcher
  have hooked := @finalize_hooks sampleToolchain samplePatcher _ rfl rfl
    overwrite_notMem_samplePatcher (by rw [hooksEq]; decide) (by rw [hooksEq]; decide)
    (by rw [hooksEq]; simp [Hook.Apart]) (by
      rw [hooksEq]
      intro hook member
      rcases List.mem_pair.mp member with rfl | rfl
      · exact ⟨0, rfl, by decide, rfl⟩
      · exact ⟨2, rfl, by decide, rfl⟩)
  rcases hooked with ⟨large, -⟩ | ⟨body, final, finalEq, run, -, -, -, lands⟩
  · exact absurd large (by decide)
  · rw [hooksEq] at lands
    obtain ⟨first, firstAddr, firstAt, -, firstSymbol, firstTo⟩ :=
      lands ⟨8, "draw", false⟩ (by simp)
    obtain ⟨second, secondAddr, secondAt, -, secondSymbol, secondTo⟩ :=
      lands ⟨16, "unshape__proxy", false⟩ (by simp)
    obtain rfl := Option.some.inj firstSymbol
    obtain rfl := Option.some.inj secondSymbol
    exact ⟨body, final, finalEq, run, first, second, firstAt, firstTo, secondAt, secondTo⟩

/-! ## Where the patch is loaded -/

theorem length_foldl_applyOverwrite {opQueue : List PatchOp} {bytes : List UInt8}
    (inside : ∀ address content, PatchOp.overwrite address content ∈ opQueue →
      address + content.length ≤ bytes.length) :
    (opQueue.foldl applyOverwrite bytes).length = bytes.length := by
  induction opQueue generalizing bytes with
  | nil => rfl
  | cons op opQueue ih =>
      have same : (applyOverwrite bytes op).length = bytes.length := by
        cases op with
        | overwrite address content =>
            have here := inside address content (by simp)
            simp only [applyOverwrite, List.length_append, List.length_take, List.length_drop]
            omega
        | _ => rfl
      rw [List.foldl_cons, ih, same]
      intro address content member
      rw [same]
      exact inside address content (List.mem_cons_of_mem _ member)

theorem length_applyBranch {target : Target} {symtab : String → Option Nat} {op : PatchOp}
    {bytes after : List UInt8}
    (inside : ∀ hook, op.hook = some hook → hook.address + 4 ≤ bytes.length)
    (run : applyBranch target symtab bytes op = .ok after) : after.length = bytes.length := by
  cases op with
  | branchOffset address symbol link =>
      cases found : symtab symbol with
      | none =>
          simp only [applyBranch, found] at run
          cases run
      | some symbolAddr =>
          have eq := @applyBranch_hook target symtab ⟨address, symbol, link⟩ symbolAddr found bytes
          obtain rfl := Except.ok.inj (eq.symm.trans run)
          exact length_splice rfl (inside ⟨address, symbol, link⟩ rfl)
  | _ =>
      cases run
      rfl

theorem length_foldlM_applyBranch {target : Target} {symtab : String → Option Nat}
    {opQueue : List PatchOp} {bytes after : List UInt8}
    (inside : ∀ hook ∈ hooks opQueue, hook.address + 4 ≤ bytes.length)
    (run : opQueue.foldlM (applyBranch target symtab) bytes = .ok after) :
    after.length = bytes.length := by
  induction opQueue generalizing bytes with
  | nil =>
      cases run
      rfl
  | cons op opQueue ih =>
      rw [List.foldlM_cons] at run
      obtain ⟨next, step, run⟩ := bind_ok run
      have same := length_applyBranch (fun hook hookEq => inside hook
        (List.mem_filterMap.mpr ⟨op, by simp, hookEq⟩)) step
      rw [ih _ run, same]
      intro hook member
      rw [same]
      obtain ⟨other, inQueue, hookEq⟩ := List.mem_filterMap.mp member
      exact inside hook (List.mem_filterMap.mpr ⟨other, by simp [inQueue], hookEq⟩)

/-- The patch is appended where its section was linked to if and only if the image, padded to an
even length, ends at a multiple of the alignment of the section. -/
theorem finalize_loads_where_linked_iff {toolchain : Toolchain} {patcher : Patcher}
    {linked : Linked}
    (links : toolchain (composePatchH patcher.opQueue) (composePatchS patcher.opQueue)
      patcher.targetEnd = .ok linked)
    (overwritesInside : ∀ address content, PatchOp.overwrite address content ∈ patcher.opQueue →
      address + content.length ≤ patcher.targetBin.length)
    (hooksInside : ∀ hook ∈ hooks patcher.opQueue, hook.address + 4 ≤ patcher.targetBin.length)
    {final : List UInt8} (run : patcher.finalize toolchain = .ok final) {alignment : Nat}
    (alignments : alignment = 2 ∨ alignment = 4 ∨ alignment = 8) {sectionStart : Nat}
    (starts : sectionStart = roundUp patcher.targetEnd alignment) :
    (∃ body, final = body ++ linked.bin ++ patcher.trailingBinContent ∧
        body.length + patcher.target.microcodeOffset = sectionStart) ↔
      (patcher.targetBin.length + patcher.targetBin.length % 2) % alignment = 0 := by
  obtain ⟨other, linksOther, run⟩ := bind_ok run
  obtain rfl := Except.ok.inj (links.symm.trans linksOther)
  obtain ⟨body, branchRun, run⟩ := bind_ok run
  have overwritten := length_foldl_applyOverwrite overwritesInside
  have length := length_foldlM_applyBranch
    (fun hook member => by rw [overwritten]; exact hooksInside hook member) branchRun
  rw [overwritten] at length
  have finalEq : final = alignPatch body ++ linked.bin ++ patcher.trailingBinContent := by
    simp only at run
    split at run
    next => exact (Except.ok.inj run).symm
    next => cases run
  have padded : (alignPatch body).length =
      patcher.targetBin.length + patcher.targetBin.length % 2 := by
    unfold alignPatch
    split
    · rw [List.length_append, List.length_singleton]
      omega
    · omega
  -- Both memories start at a multiple of every alignment.
  obtain ⟨pages, offsetEq⟩ : ∃ pages, patcher.target.microcodeOffset = 8 * pages := by
    cases patcher.target with
    | hardware => exact ⟨0x1000800, rfl⟩
    | emulator => exact ⟨0x1000000, rfl⟩
  have position : (patcher.targetBin.length + patcher.targetBin.length % 2) +
      patcher.target.microcodeOffset = roundUp patcher.targetEnd alignment ↔
      (patcher.targetBin.length + patcher.targetBin.length % 2) % alignment = 0 := by
    rw [targetEnd, roundUp, offsetEq]
    rcases alignments with rfl | rfl | rfl <;> omega
  rw [← position, starts, finalEq]
  constructor
  · rintro ⟨front, split, linkedAt⟩
    have lengths := congrArg List.length split
    simp only [List.length_append, padded] at lengths
    omega
  · intro same
    exact ⟨alignPatch body, rfl, by rw [padded]; exact same⟩

theorem finalize_loads_sample :
    ∃ final body, samplePatcher.finalize sampleToolchain = .ok final ∧
      final = body ++ [0x70, 0x47, 0x70, 0x47] ++ samplePatcher.trailingBinContent ∧
      body.length + samplePatcher.target.microcodeOffset = roundUp samplePatcher.targetEnd 4 := by
  have run := eq_ok_of_isOk (show (samplePatcher.finalize sampleToolchain).isOk = true by
    decide +kernel) []
  have placed := @finalize_loads_where_linked_iff sampleToolchain samplePatcher _ rfl
    (fun address content member => absurd member (overwrite_notMem_samplePatcher address content))
    (by rw [hooks_samplePatcher]; decide) _ run 4 (by decide) _ rfl
  obtain ⟨body, finalEq, linkedAt⟩ := placed.mpr (by decide)
  exact ⟨_, body, run, finalEq, linkedAt⟩

/-- An image of 50 bytes, and a section that is aligned to four bytes. -/
theorem finalize_misplaces_patch :
    let patcher : Patcher := ⟨.aplite, .hardware, List.replicate 50 0, []⟩
    ∃ final, patcher.finalize sampleToolchain = .ok final ∧
      ¬ ∃ body, final = body ++ [0x70, 0x47, 0x70, 0x47] ++ patcher.trailingBinContent ∧
        body.length + patcher.target.microcodeOffset = roundUp patcher.targetEnd 4 := by
  refine ⟨List.replicate 50 0 ++ [0x70, 0x47, 0x70, 0x47] ++ List.replicate 47 0, rfl, ?_⟩
  rintro ⟨body, finalEq, linkedAt⟩
  have lengths := congrArg List.length finalEq
  have linked52 : body.length + 0x8004000 = 0x8004034 := linkedAt
  have appended50 : 101 = body.length + 4 + 47 := by
    simpa [trailingBinContent] using lengths
  omega

end Patcher

end PatchTools

end Elbbep
