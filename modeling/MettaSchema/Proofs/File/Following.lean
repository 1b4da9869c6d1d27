import Mathlib.Data.List.Infix
import MettaSchema.File.Tree
import MettaSchema.Proofs.Success

/-!
# Following paths

Where a path leads.  Each of its parts stays at a place, goes back to the directory above, or goes
down to something that is there; and all directories that are passed are there.

* `Path.split_unite` — the texts between slashes can be put together and taken apart again.
* `FileTree.Step`, `FileTree.step_eq_ok` — all that a step can be.
* `FileTree.follow_fromRoot` — a path can be spelt from the root as well.
* `FileTree.Above` — all directories above a place are there; each step keeps it so.
* `FileTree.readText_eq_ok` — when a path leads to a text.
* `FileTree.exists_names_of_follow` — how a path leads to a file.
-/

namespace MettaSchema

namespace Path

/-! ## Parts -/

theorem split_ne_nil (s : List Char) : split s ≠ [] := by
  cases s with
  | nil => simp [split]
  | cons c s =>
    rw [split]
    split
    · simp
    · split <;> simp

/-- The first part is taken off. -/
theorem split_cons (c : Char) (s : List Char) : ∃ part more, split s = part :: more
    ∧ split (c :: s) = if c = '/' then [] :: part :: more else (c :: part) :: more := by
  obtain ⟨part, more, h⟩ := List.exists_cons_of_ne_nil (split_ne_nil s)
  exact ⟨part, more, h, by rw [split, h]⟩

theorem not_mem_split {s part : List Char} (h : part ∈ split s) : '/' ∉ part := by
  induction s generalizing part with
  | nil =>
    rw [List.mem_singleton.1 h]
    exact List.not_mem_nil
  | cons c s ih =>
    obtain ⟨first, more, hs, hsplit⟩ := split_cons c s
    rw [hsplit] at h
    rw [hs] at ih
    split at h
    · rcases List.mem_cons.1 h with rfl | h
      · exact List.not_mem_nil
      · exact ih h
    · rename_i hc
      rcases List.mem_cons.1 h with rfl | h
      · have hpart := ih List.mem_cons_self
        simp [Ne.symm hc, hpart]
      · exact ih (List.mem_cons_of_mem _ h)

theorem split_of_not_mem {s : List Char} (h : '/' ∉ s) : split s = [s] := by
  induction s with
  | nil => rfl
  | cons c s ih =>
    obtain ⟨hc, hs⟩ : '/' ≠ c ∧ '/' ∉ s := by simpa using h
    rw [split, ih hs]
    exact if_neg (Ne.symm hc)

theorem split_append_slash {part : List Char} (h : '/' ∉ part) (s : List Char) :
    split (part ++ '/' :: s) = part :: split s := by
  induction part with
  | nil =>
    obtain ⟨first, more, hs, hsplit⟩ := split_cons '/' s
    rw [List.nil_append, hsplit, hs, if_pos rfl]
  | cons c part ih =>
    obtain ⟨hc, hpart⟩ : '/' ≠ c ∧ '/' ∉ part := by simpa using h
    rw [List.cons_append, split, ih hpart]
    exact if_neg (Ne.symm hc)

/-- Texts with slashes in between are the parts of what they make up. -/
theorem split_unite {parts : List (List Char)} (hne : parts ≠ [])
    (h : ∀ part ∈ parts, '/' ∉ part) : split (unite parts) = parts := by
  induction parts with
  | nil => exact absurd rfl hne
  | cons part more ih =>
    obtain ⟨hpart, hmore⟩ := List.forall_mem_cons.1 h
    cases more with
    | nil => exact split_of_not_mem hpart
    | cons next more => rw [unite, split_append_slash hpart, ih (List.cons_ne_nil _ _) hmore]

/-- A path from the directory at a way, spelt from the root. -/
def fromRoot (way : Way) (path : String) : String :=
  String.ofList ('/' :: unite (way ++ parts path))

theorem parts_fromRoot {way : Way} (h : ∀ name ∈ way, '/' ∉ name) (path : String) :
    parts (fromRoot way path) = [] :: (way ++ parts path) := by
  obtain ⟨part, more, hsplit, hcons⟩ := split_cons '/' (unite (way ++ parts path))
  have hne : way ++ parts path ≠ [] := List.append_ne_nil_of_right_ne_nil _ (split_ne_nil _)
  have hslash : ∀ part ∈ way ++ parts path, '/' ∉ part :=
    List.forall_mem_append.2 ⟨h, fun part hpart => not_mem_split hpart⟩
  rw [parts, fromRoot, String.toList_ofList, hcons, if_pos rfl, ← hsplit, split_unite hne hslash]

end Path

namespace FileTree

variable {tree : FileTree} {path : String} {way way' : Way} {part : List Char}

/-! ## Steps -/

/-- The working directory is there, and so is all above it. -/
theorem node?_workingDirectory (h : way <+: tree.workingDirectory) :
    tree.node? way = some .directory :=
  if_pos h

theorem node?_root : tree.node? [] = some .directory := node?_workingDirectory List.nil_prefix

/-- All that a step from a directory can be. -/
inductive Step (tree : FileTree) (way : Way) (part : List Char) : Way → Prop
  /-- The part counts for nothing. -/
  | stay (hidle : Path.isIdle part = true) : Step tree way part way
  /-- Back to the directory above. -/
  | up (hup : part = ['.', '.']) : Step tree way part way.dropLast
  /-- Down to something that is there. -/
  | down (hsolid : Path.isIdle part = false) (hdown : part ≠ ['.', '.'])
      (hthere : (tree.node? (way ++ [part])).isSome = true) : Step tree way part (way ++ [part])

theorem step_eq_ok : tree.step way part = .ok way'
    ↔ tree.node? way = some .directory ∧ tree.Step way part way' := by
  unfold step
  constructor
  · intro h
    split at h
    · rename_i hnode
      refine ⟨hnode, ?_⟩
      split at h
      · rename_i hidle
        cases h
        exact .stay hidle
      · rename_i hidle
        split at h
        · rename_i hup
          cases h
          exact .up hup
        · rename_i hdown
          split at h <;> cases h
          rename_i hthere
          exact .down (Bool.eq_false_iff.2 hidle) hdown hthere
    · cases h
    · cases h
  · rintro ⟨hnode, hstep⟩
    rw [hnode]
    cases hstep with
    | stay hidle => simp [hidle]
    | up hup => simp [hup, Path.isIdle]
    | down hsolid hdown hthere => simp [hsolid, hdown, hthere]

/-- From a directory a name leads to what is there under it. -/
theorem step_name (hdirectory : tree.node? way = some .directory)
    (hsolid : Path.isIdle part = false) (hdown : part ≠ ['.', '.']) :
    tree.step way part = if (tree.node? (way ++ [part])).isSome = true
      then .ok (way ++ [part]) else .error .notFound := by
  simp only [step, hdirectory, hsolid, hdown, if_false, Bool.false_eq_true]

/-- The last step of a path is taken from the place to which the others lead. -/
theorem foldlM_concat {before : List (List Char)} (h : before.foldlM tree.step way = .ok way')
    (part : List Char) : (before ++ [part]).foldlM tree.step way = tree.step way' part := by
  rw [List.foldlM_append, h]
  cases hstep : tree.step way' part <;> simp [bind, Except.bind, pure, Except.pure, hstep]

theorem foldlM_concat_eq_ok {before : List (List Char)} {last : Way} :
    (before ++ [part]).foldlM tree.step way = .ok last
      ↔ ∃ place, before.foldlM tree.step way = .ok place ∧ tree.step place part = .ok last := by
  rw [List.foldlM_append, bind_eq_ok]
  simp only [List.foldlM_cons, List.foldlM_nil, bind_eq_ok, pure_eq_ok, exists_eq_right]

theorem follow_eq_ok : tree.follow path = .ok way
    ↔ path ≠ "" ∧ (Path.parts path).foldlM tree.step (tree.origin path) = .ok way := by
  unfold follow
  split <;> simp_all

/-! ## Paths from the root -/

/-- From the root the names of the working directory lead to it. -/
theorem foldlM_workingDirectory
    (hnames : ∀ name ∈ tree.workingDirectory, Path.isIdle name = false ∧ name ≠ ['.', '.'])
    (rest : Way) : ∀ {passed : Way}, passed ++ rest = tree.workingDirectory →
      rest.foldlM tree.step passed = .ok tree.workingDirectory := by
  induction rest with
  | nil =>
    intro passed hway
    rw [← hway, List.append_nil]
    rfl
  | cons name rest ih =>
    intro passed hway
    have hnext : passed ++ [name] ++ rest = tree.workingDirectory := by
      rw [List.append_assoc]
      exact hway
    obtain ⟨hsolid, hdown⟩ := hnames name (by simp [← hway])
    have hthere : tree.node? (passed ++ [name]) = some .directory :=
      node?_workingDirectory ⟨rest, hnext⟩
    have hstep : tree.step passed name = .ok (passed ++ [name]) :=
      step_eq_ok.2 ⟨node?_workingDirectory ⟨name :: rest, hway⟩,
        .down hsolid hdown (by rw [hthere]; rfl)⟩
    rw [List.foldlM_cons, hstep]
    exact ih hnext

/-- A path from the working directory leads where it leads when it is spelt from the root. -/
theorem follow_fromRoot
    (hnames : ∀ name ∈ tree.workingDirectory,
      Path.isIdle name = false ∧ name ≠ ['.', '.'] ∧ '/' ∉ name)
    (hpath : path ≠ "") (hrelative : Path.isAbsolute path = false) :
    tree.follow (Path.fromRoot tree.workingDirectory path) = tree.follow path := by
  have hparts : Path.parts (Path.fromRoot tree.workingDirectory path)
      = [] :: (tree.workingDirectory ++ Path.parts path) :=
    Path.parts_fromRoot (fun name hname => (hnames name hname).2.2) path
  have habsolute : Path.isAbsolute (Path.fromRoot tree.workingDirectory path) = true := by
    simp [Path.isAbsolute, Path.fromRoot]
  have hne : Path.fromRoot tree.workingDirectory path ≠ "" := by
    intro heq
    rw [heq] at habsolute
    cases habsolute
  have hroot : tree.step [] [] = .ok [] := step_eq_ok.2 ⟨node?_root, .stay rfl⟩
  have hworking : tree.workingDirectory.foldlM tree.step [] = .ok tree.workingDirectory :=
    foldlM_workingDirectory
      (fun name hname => ⟨(hnames name hname).1, (hnames name hname).2.1⟩) _ rfl
  rw [follow, follow, if_neg hne, if_neg hpath, origin, origin, habsolute, hrelative, hparts,
    List.foldlM_cons, if_pos rfl, hroot]
  simp only [bind, Except.bind, List.foldlM_append, hworking, Bool.false_eq_true, if_false]

/-! ## The directories above a place -/

/-- All directories on the way to a place are there. -/
def Above (tree : FileTree) (way : Way) : Prop :=
  ∀ above, above <+: way → above ≠ way → tree.node? above = some .directory

theorem above_origin (path : String) : tree.Above (tree.origin path) := by
  intro above habove hne
  unfold origin at habove
  split at habove
  · rw [List.prefix_nil.1 habove]
    exact node?_root
  · exact node?_workingDirectory habove

theorem Above.dropLast (h : tree.Above way) : tree.Above way.dropLast := by
  intro above habove hne
  refine h above (habove.trans way.dropLast_prefix) ?_
  rintro rfl
  exact hne (habove.eq_of_length_le (by rw [List.length_dropLast]; omega))

theorem Above.concat (h : tree.Above way) (hnode : tree.node? way = some .directory)
    (part : List Char) : tree.Above (way ++ [part]) := by
  intro above habove hne
  obtain heq | hshorter := List.prefix_concat_iff.1 habove
  · exact absurd heq hne
  · by_cases hway : above = way
    · rw [hway]
      exact hnode
    · exact h above hshorter hway

theorem Above.step (h : tree.Above way) (hstep : tree.step way part = .ok way') :
    tree.Above way' := by
  obtain ⟨hnode, hstep⟩ := step_eq_ok.1 hstep
  cases hstep with
  | stay => exact h
  | up => exact h.dropLast
  | down => exact h.concat hnode part

theorem Above.foldlM (h : tree.Above way) {parts : List (List Char)}
    (hparts : parts.foldlM tree.step way = .ok way') : tree.Above way' :=
  foldlM_invariant (P := tree.Above) (fun _ _ _ _ hway hstep => hway.step hstep) h hparts

/-- The directory above a directory is there; above the root there is the root. -/
theorem Above.node?_dropLast (h : tree.Above way) (hnode : tree.node? way = some .directory) :
    tree.node? way.dropLast = some .directory := by
  by_cases hway : way.dropLast = way
  · rw [hway, hnode]
  · exact h _ way.dropLast_prefix hway

/-- Only a name leads to a file. -/
theorem Above.solid_of_step (h : tree.Above way) (hstep : tree.step way part = .ok way')
    (hfile : tree.node? way' ≠ some .directory) :
    Path.isIdle part = false ∧ part ≠ ['.', '.'] ∧ way' = way ++ [part] := by
  obtain ⟨hnode, hstep⟩ := step_eq_ok.1 hstep
  cases hstep with
  | stay => exact absurd hnode hfile
  | up => exact absurd (h.node?_dropLast hnode) hfile
  | down hsolid hdown => exact ⟨hsolid, hdown, rfl⟩

end FileTree

/-! ## Names of files -/

namespace Path

/-- The last part of a path to a file: it counts for something and does not lead back. -/
structure Names (path : String) (before : List (List Char)) (name : List Char) : Prop where
  /-- It is the last part. -/
  parts : Path.parts path = before ++ [name]
  /-- It counts for something. -/
  solid : isIdle name = false
  /-- It does not lead back. -/
  down : name ≠ ['.', '.']

variable {path : String} {before : List (List Char)} {name : List Char}

theorem Names.ne_nil (h : Names path before name) : name ≠ [] := by
  rintro rfl
  cases h.solid

theorem Names.dropIdleEnd (h : Names path before name) :
    Path.dropIdleEnd (Path.parts path) = before ++ [name] := by
  rw [h.parts, Path.dropIdleEnd, List.reverse_append, List.reverse_singleton, List.singleton_append,
    List.dropWhile_cons_of_neg (by rw [h.solid]; exact Bool.false_ne_true), List.reverse_cons,
    List.reverse_reverse]

theorem Names.fileName? (h : Names path before name) :
    Path.fileName? path = some (String.ofList name) := by
  rw [Path.fileName?, h.dropIdleEnd, List.getLast?_concat]
  exact if_neg h.down

/-- A path with a name at its end is not empty. -/
theorem Names.ne_empty (h : Names path before name) : path ≠ "" := by
  rintro rfl
  have hempty : [] ++ [[]] = before ++ [name] := h.parts
  obtain ⟨-, hname⟩ := List.append_inj' hempty rfl
  exact h.ne_nil (List.singleton_inj.1 hname).symm

end Path

namespace FileTree

variable {tree : FileTree} {path : String} {way directory : Way} {before : List (List Char)}
  {name : List Char}

/-- The last part of a path is looked up where the others lead. -/
theorem follow_of_names (hnames : Path.Names path before name)
    (hbefore : before.foldlM tree.step (tree.origin path) = .ok directory) :
    tree.follow path = tree.step directory name := by
  rw [follow, if_neg hnames.ne_empty, hnames.parts, foldlM_concat hbefore]

/-- A path leads to a file by its last part, from a directory to which the other parts lead. -/
theorem exists_names_of_follow (hfollow : tree.follow path = .ok way)
    (hfile : tree.node? way ≠ some .directory) :
    ∃ before name directory, Path.Names path before name
      ∧ before.foldlM tree.step (tree.origin path) = .ok directory
      ∧ tree.node? directory = some .directory ∧ way = directory ++ [name] := by
  obtain ⟨-, hsteps⟩ := follow_eq_ok.1 hfollow
  obtain hnil | ⟨before, name, hparts⟩ := List.eq_nil_or_concat (Path.parts path)
  · exact absurd hnil (Path.split_ne_nil _)
  rw [List.concat_eq_append] at hparts
  rw [hparts, foldlM_concat_eq_ok] at hsteps
  obtain ⟨directory, hbefore, hstep⟩ := hsteps
  have habove : tree.Above directory := (above_origin path).foldlM hbefore
  obtain ⟨hsolid, hdown, hway⟩ := habove.solid_of_step hstep hfile
  exact ⟨before, name, directory, ⟨hparts, hsolid, hdown⟩, hbefore, (step_eq_ok.1 hstep).1, hway⟩

end FileTree

/-! ## Texts in files -/

theorem fromUTF8?_toUTF8 (text : String) : String.fromUTF8? text.toUTF8 = some text := by
  have hvalid : text.toUTF8.IsValidUTF8 := text.isValidUTF8
  unfold String.fromUTF8?
  rw [dif_pos hvalid]
  rfl

theorem toUTF8_of_fromUTF8? {content : ByteArray} {text : String}
    (h : String.fromUTF8? content = some text) : text.toUTF8 = content := by
  unfold String.fromUTF8? at h
  split at h <;> cases h
  rfl

namespace FileTree

variable {tree : FileTree} {path text : String}

theorem readText_eq_ok : tree.readText path = .ok text ↔
    ∃ way, tree.follow path = .ok way ∧ tree.node? way = some (.file text.toUTF8) := by
  unfold readText read
  cases tree.follow path with
  | error e => simp
  | ok way =>
    cases hnode : tree.node? way with
    | none => simp [hnode]
    | some node =>
      cases node with
      | directory => simp [hnode]
      | file content =>
        constructor
        · intro h
          refine ⟨way, rfl, ?_⟩
          simp only [hnode] at h
          split at h <;> cases h
          rename_i htext
          rw [hnode, toUTF8_of_fromUTF8? htext]
        · rintro ⟨_, ⟨⟩, hway⟩
          rw [hnode] at hway
          cases hway
          simp only [hnode, fromUTF8?_toUTF8]

theorem isFile_of_readText (h : tree.readText path = .ok text) : tree.isFile path = true := by
  unfold isFile
  unfold readText at h
  split at h
  · cases h
  · rename_i hread
    rw [hread]

/-- A path to a file ends with the name of the file. -/
theorem fileName?_of_readText (h : tree.readText path = .ok text) :
    ∃ name, Path.fileName? path = some name := by
  obtain ⟨way, hfollow, hnode⟩ := readText_eq_ok.1 h
  obtain ⟨before, name, directory, hnames, -⟩ :=
    exists_names_of_follow hfollow (by rw [hnode]; exact nofun)
  exact ⟨_, hnames.fileName?⟩

/-- What stands at a way and is no working directory is an entry. -/
theorem mem_entries_of_node? {way : Way} {content : ByteArray}
    (h : tree.node? way = some (.file content)) : (way, Node.file content) ∈ tree.entries := by
  unfold node? at h
  split at h
  · cases h
  · obtain ⟨l, r, hentries, -⟩ := List.lookup_eq_some_iff.1 h
    simp [hentries]

end FileTree

end MettaSchema
