import Elbbep.PfoMerge

/-!
# Folders

A folder as a list of its files.  A file is written over an older one of its name, and the files
whose names match a pattern come in an order of the machine's own.
-/

namespace Elbbep

open PfoMerge (DictOrder)

/-- A folder, as its files with their contents. -/
abbrev Folder (α β : Type) := List (α × β)

namespace Folder

variable {α β : Type} [DecidableEq α]

/-- A file is written, over an older one of that name. -/
def write (dir : Folder α β) (name : α) (contents : β) : Folder α β :=
  if name ∈ dir.map Prod.fst then
    dir.map fun file => if file.1 = name then (name, contents) else file
  else dir ++ [(name, contents)]

omit [DecidableEq α] in
/-- `glob.glob`, in the order in which the directory is listed. -/
def glob (listing : DictOrder (α × β)) (isMatch : α → Bool) (dir : Folder α β) : Folder α β :=
  (listing.iterate dir).filter fun file => isMatch file.1

/-- Some files are written, one after the other. -/
def writeAll (dir files : Folder α β) : Folder α β :=
  files.foldl (fun dir file => dir.write file.1 file.2) dir

/-! ## Writing -/

theorem write_nil (name : α) (contents : β) : write [] name contents = [(name, contents)] :=
  rfl

theorem mem_of_mem_write {dir : Folder α β} {name : α} {contents : β} {file : α × β}
    (member : file ∈ dir.write name contents) : file = (name, contents) ∨ file ∈ dir := by
  unfold write at member
  split at member
  next =>
    obtain ⟨other, inDir, rfl⟩ := List.mem_map.mp member
    split
    next => exact Or.inl rfl
    next => exact Or.inr inDir
  next =>
    rcases List.mem_append.mp member with inDir | new
    · exact Or.inr inDir
    · exact Or.inl (List.mem_singleton.mp new)

theorem mem_names_write (dir : Folder α β) (name : α) (contents : β) (other : α) :
    other ∈ (dir.write name contents).map Prod.fst ↔ other = name ∨ other ∈ dir.map Prod.fst := by
  unfold write
  split
  next known =>
    have names : (dir.map fun file => if file.1 = name then (name, contents) else file).map
        Prod.fst = dir.map Prod.fst := by
      rw [List.map_map]
      apply List.map_congr_left
      intro file _
      by_cases same : file.1 = name <;> simp [same]
    rw [names]
    exact ⟨Or.inr, fun either => either.elim (fun same => same ▸ known) id⟩
  next =>
    rw [List.map_append, List.mem_append, List.map_singleton, List.mem_singleton]
    exact or_comm

/-- Writing a file that is there changes nothing. -/
theorem write_of_mem {dir : Folder α β} (distinct : (dir.map Prod.fst).Nodup) {file : α × β}
    (member : file ∈ dir) : dir.write file.1 file.2 = dir := by
  rw [write, if_pos (List.mem_map_of_mem member)]
  refine (List.map_congr_left fun other inDir => ?_).trans (List.map_id dir)
  split
  next same => exact (List.inj_on_of_nodup_map distinct inDir member same).symm
  next => rfl

theorem writeAll_of_mem {dir files : Folder α β} (distinct : (dir.map Prod.fst).Nodup)
    (members : ∀ file ∈ files, file ∈ dir) : dir.writeAll files = dir := by
  induction files with
  | nil => rfl
  | cons file files ih =>
      rw [List.forall_mem_cons] at members
      rw [writeAll, List.foldl_cons, write_of_mem distinct members.1]
      exact ih members.2

/-- Files with different names are written behind each other. -/
theorem writeAll_eq_append {dir files : Folder α β}
    (distinct : ((dir ++ files).map Prod.fst).Nodup) : dir.writeAll files = dir ++ files := by
  induction files generalizing dir with
  | nil => exact (List.append_nil dir).symm
  | cons file files ih =>
      have new : file.1 ∉ dir.map Prod.fst := by
        rw [List.map_append, List.map_cons] at distinct
        have apart := List.disjoint_of_nodup_append distinct
        exact fun inDir => apart inDir List.mem_cons_self
      rw [List.append_cons] at distinct ⊢
      rw [writeAll, List.foldl_cons, write, if_neg new]
      exact ih distinct

theorem writeAll_nil {files : Folder α β} (distinct : (files.map Prod.fst).Nodup) :
    writeAll [] files = files :=
  writeAll_eq_append distinct

/-! ## Listing -/

omit [DecidableEq α]

variable {listing : DictOrder (α × β)} {isMatch : α → Bool}

theorem mem_glob {dir : Folder α β} {file : α × β} :
    file ∈ dir.glob listing isMatch ↔ file ∈ dir ∧ isMatch file.1 = true := by
  rw [glob, List.mem_filter, (listing.perm dir).mem_iff]

theorem nodup_glob {dir : Folder α β} (distinct : (dir.map Prod.fst).Nodup) :
    ((dir.glob listing isMatch).map Prod.fst).Nodup :=
  (((listing.perm dir).map Prod.fst).nodup_iff.mpr distinct).sublist
    (List.filter_sublist.map Prod.fst)

theorem glob_nil : glob listing isMatch [] = [] := by
  rw [glob, List.perm_nil.mp (listing.perm []), List.filter_nil]

theorem glob_singleton (file : α × β) :
    glob listing isMatch [file] = if isMatch file.1 then [file] else [] := by
  rw [glob, List.perm_singleton.mp (listing.perm [file]), List.filter_singleton]
  exact cond_eq_ite ..

end Folder

end Elbbep
