import MettaSchema.Proofs.File.Following

/-!
# Writing files

A text that is written to a path is read there afterwards, and every other path leads to what it led
to before: the two trees of files differ at one place, where no directory is, and a path can only
end there.

* `FileTree.DiffersAt`, `FileTree.DiffersAt.follow` — trees that differ at one place, and the paths
  in them.
* `FileTree.newPlace_eq_ok`, `FileTree.writeText_eq_ok` — what is done when a text is written.
* `FileTree.Wrote`, `FileTree.wrote_writeText` — what is seen of it along paths.
-/

namespace MettaSchema

namespace FileTree

variable {tree tree' : FileTree} {way : Way}

/-! ## Trees that differ at one place -/

/-- Two trees with one working directory differ at most at one way, and neither has a directory
there. -/
structure DiffersAt (tree tree' : FileTree) (way : Way) : Prop where
  /-- They have the same working directory. -/
  workingDirectory : tree'.workingDirectory = tree.workingDirectory
  /-- Elsewhere they are the same. -/
  elsewhere : ∀ other, other ≠ way → tree'.node? other = tree.node? other
  /-- The first has no directory there. -/
  left : tree.node? way ≠ some .directory
  /-- The second has no directory there. -/
  right : tree'.node? way ≠ some .directory

theorem DiffersAt.symm (h : tree.DiffersAt tree' way) : tree'.DiffersAt tree way where
  workingDirectory := h.workingDirectory.symm
  elsewhere other hne := (h.elsewhere other hne).symm
  left := h.right
  right := h.left

/-- A step leads to the same place in every tree that has the directory it starts from and, if it
goes down, something where it ends. -/
theorem step_of_step {place place' : Way} {part : List Char}
    (h : tree.step place part = .ok place') (hstart : tree'.node? place = some .directory)
    (hend : (tree.node? place').isSome = true → (tree'.node? place').isSome = true) :
    tree'.step place part = .ok place' := by
  obtain ⟨-, hstep⟩ := step_eq_ok.1 h
  refine step_eq_ok.2 ⟨hstart, ?_⟩
  cases hstep with
  | stay hidle => exact .stay hidle
  | up hup => exact .up hup
  | down hsolid hdown hthere => exact .down hsolid hdown (hend hthere)

/-- Whatever comes before the last step of a path does not end where the trees differ, since there
is no directory. -/
theorem DiffersAt.foldlM_step (h : tree.DiffersAt tree' way) (start : Way)
    (parts : List (List Char)) {place : Way} (hsteps : parts.foldlM tree.step start = .ok place)
    (hplace : place = way → (tree'.node? way).isSome = true) :
    parts.foldlM tree'.step start = .ok place := by
  induction parts using List.reverseRecOn generalizing place with
  | nil => exact hsteps
  | append_singleton before part ih =>
    obtain ⟨last, hbefore, hlast⟩ := foldlM_concat_eq_ok.1 hsteps
    have hdirectory := (step_eq_ok.1 hlast).1
    have hne : last ≠ way := by
      rintro rfl
      exact h.left hdirectory
    have hlast' : tree'.step last part = .ok place := by
      refine step_of_step hlast (by rw [h.elsewhere last hne, hdirectory]) fun hsome => ?_
      by_cases hway : place = way
      · rw [hway]
        exact hplace hway
      · rw [h.elsewhere place hway]
        exact hsome
    rw [foldlM_concat (ih hbefore fun heq => absurd heq hne), hlast']

theorem DiffersAt.origin (h : tree.DiffersAt tree' way) : tree'.origin = tree.origin := by
  funext path
  rw [FileTree.origin, FileTree.origin, h.workingDirectory]

/-- A path leads to the same place in both trees, unless it leads where they differ. -/
theorem DiffersAt.follow (h : tree.DiffersAt tree' way) {path : String} {place : Way}
    (hfollow : tree.follow path = .ok place)
    (hplace : place = way → (tree'.node? way).isSome = true) : tree'.follow path = .ok place := by
  obtain ⟨hpath, hsteps⟩ := follow_eq_ok.1 hfollow
  refine follow_eq_ok.2 ⟨hpath, ?_⟩
  rw [h.origin]
  exact h.foldlM_step _ _ hsteps hplace

/-! ## Putting a file somewhere -/

theorem lookup_cons_ite (key : Way) (node : Node) (entries : List (Way × Node)) (other : Way) :
    ((key, node) :: entries).lookup other
      = if other = key then some node else entries.lookup other := by
  by_cases h : other = key
  · subst h
    simp
  · have hbeq : (other == key) = false := beq_false_of_ne h
    simp [List.lookup_cons, hbeq, h]

theorem lookup_set (node : Node) (entries : List (Way × Node)) (other : Way) :
    (set.go way node entries).lookup other
      = if other = way then some node else entries.lookup other := by
  induction entries with
  | nil => exact lookup_cons_ite way node [] other
  | cons entry entries ih =>
    obtain ⟨key, value⟩ := entry
    unfold set.go
    split
    · rename_i hkey
      obtain rfl : key = way := hkey
      rw [lookup_cons_ite, lookup_cons_ite]
      split <;> rfl
    · rename_i hkey
      rw [lookup_cons_ite, lookup_cons_ite, ih]
      by_cases h : other = way
      · subst h
        rw [if_neg (Ne.symm hkey), if_pos rfl, if_pos rfl]
      · rw [if_neg h, if_neg h]

theorem node?_set {node : Node} (h : tree.node? way ≠ some .directory) (other : Way) :
    (tree.set way node).node? other = if other = way then some node else tree.node? other := by
  have hway : ¬ way <+: tree.workingDirectory := fun hprefix => h (node?_workingDirectory hprefix)
  have hsame : (tree.set way node).workingDirectory = tree.workingDirectory := rfl
  unfold node?
  rw [hsame]
  by_cases hother : other <+: tree.workingDirectory
  · have hne : other ≠ way := by
      rintro rfl
      exact hway hother
    rw [if_pos hother, if_pos hother, if_neg hne]
  · rw [if_neg hother, if_neg hother]
    exact lookup_set node tree.entries other

theorem differsAt_set {content : ByteArray} (h : tree.node? way ≠ some .directory) :
    tree.DiffersAt (tree.set way (.file content)) way where
  workingDirectory := rfl
  elsewhere other hne := by rw [node?_set h, if_neg hne]
  left := h
  right := by
    rw [node?_set h, if_pos rfl]
    exact nofun

/-! ## Writing a text -/

/-- A path without a slash at its end is named by its last part. -/
theorem named_eq_parts {parts : List (List Char)}
    (h : parts.length ≤ (parts.reverse.dropWhile (· == [])).reverse.length) :
    (parts.reverse.dropWhile (· == [])).reverse = parts := by
  rw [List.length_reverse, ← List.length_reverse] at h
  rw [(List.dropWhile_suffix _).eq_of_length_le h, List.reverse_reverse]

/-- A new file is named by the last part of its path, in a directory to which the other parts
lead. -/
theorem newPlace_eq_ok {path : String} (h : tree.newPlace path = .ok way) :
    ∃ before name directory, Path.Names path before name
      ∧ before.foldlM tree.step (tree.origin path) = .ok directory
      ∧ tree.node? directory = some .directory ∧ way = directory ++ [name] := by
  unfold newPlace at h
  dsimp only at h
  split at h
  · cases h
  · rename_i name hlast
    obtain ⟨before, hnamed⟩ := List.getLast?_eq_some_iff.1 hlast
    rw [hnamed, List.dropLast_concat] at h
    split at h
    · cases h
    · rename_i directory hbefore
      split at h
      · rename_i hdirectory
        split at h
        · cases h
        · rename_i hname
          split at h
          · cases h
          · rename_i hlength
            cases h
            rw [named_eq_parts (by rw [hnamed]; exact Nat.le_of_not_lt hlength)] at hnamed
            simp only [Bool.or_eq_true, beq_iff_eq, not_or, Bool.not_eq_true] at hname
            exact ⟨before, name, directory, ⟨hnamed, hname.1, hname.2⟩, hbefore, hdirectory, rfl⟩
      · cases h
      · cases h

/-- A text is written to a place where no directory is, and the path leads there. -/
theorem writeText_eq_ok {path text : String} (h : tree.writeText path text = .ok tree') :
    ∃ way, tree' = tree.set way (.file text.toUTF8) ∧ tree.node? way ≠ some .directory
      ∧ tree'.follow path = .ok way := by
  unfold writeText at h
  split at h
  · rename_i way hfollow
    split at h <;> cases h
    rename_i content hnode
    have hfile : tree.node? way ≠ some .directory := by
      rw [hnode]
      exact nofun
    refine ⟨way, rfl, hfile, (differsAt_set hfile).follow hfollow fun _ => ?_⟩
    rw [node?_set hfile, if_pos rfl]
    rfl
  · rename_i hfollow
    split at h <;> cases h
    rename_i way hplace
    obtain ⟨before, name, directory, hnames, hbefore, hdirectory, rfl⟩ := newPlace_eq_ok hplace
    have hnone : tree.node? (directory ++ [name]) = none := by
      rw [follow_of_names hnames hbefore, step_name hdirectory hnames.solid hnames.down] at hfollow
      split at hfollow
      · cases hfollow
      · rename_i hsome
        simpa using hsome
    have hnew : tree.node? (directory ++ [name]) ≠ some .directory := by
      rw [hnone]
      exact nofun
    have hdiffers : tree.DiffersAt (tree.set (directory ++ [name]) (.file text.toUTF8))
        (directory ++ [name]) := differsAt_set hnew
    have hne : directory ≠ directory ++ [name] := by simp
    have hbefore' := hdiffers.foldlM_step _ _ hbefore fun heq => absurd heq hne
    rw [← hdiffers.origin] at hbefore'
    have hdirectory' := hdiffers.elsewhere directory hne
    refine ⟨_, rfl, hnew, ?_⟩
    rw [follow_of_names hnames hbefore',
      step_name (hdirectory'.trans hdirectory) hnames.solid hnames.down, node?_set hnew, if_pos rfl]
    rfl
  · cases h

/-! ## What is seen along paths -/

/-- What a path leads to, if it leads anywhere. -/
def nodeOf? (tree : FileTree) (path : String) : Option Node :=
  match tree.follow path with
  | .ok way => tree.node? way
  | .error _ => none

/-- The second tree is the first one after a text was written to a path. -/
structure Wrote (tree tree' : FileTree) (path text : String) : Prop where
  /-- The text is read along the path. -/
  content : tree'.readText path = .ok text
  /-- A path that does not lead to the file leads to what it led to before. -/
  others : ∀ other, tree'.follow other ≠ tree'.follow path →
    tree'.nodeOf? other = tree.nodeOf? other

/-- Where the trees do not differ, paths lead to the same in both. -/
theorem DiffersAt.nodeOf?_eq (h : tree.DiffersAt tree' way) (hsome : (tree'.node? way).isSome = true)
    {path : String} (hpath : tree'.follow path ≠ .ok way) :
    tree'.nodeOf? path = tree.nodeOf? path := by
  unfold nodeOf?
  cases hafter : tree'.follow path with
  | ok place =>
    have hne : place ≠ way := by
      rintro rfl
      exact hpath hafter
    rw [h.symm.follow hafter fun heq => absurd heq hne]
    exact h.elsewhere place hne
  | error e =>
    cases hbefore : tree.follow path with
    | ok place =>
      rw [h.follow hbefore fun _ => hsome] at hafter
      cases hafter
    | error e => rfl

/-- A text that was written to a path is read there, and all other paths lead to what they led to
before. -/
theorem wrote_writeText {path text : String} (h : tree.writeText path text = .ok tree') :
    tree.Wrote tree' path text := by
  obtain ⟨way, rfl, hnode, hfollow⟩ := writeText_eq_ok h
  have hfile : (tree.set way (.file text.toUTF8)).node? way = some (.file text.toUTF8) := by
    rw [node?_set hnode, if_pos rfl]
  refine ⟨readText_eq_ok.2 ⟨_, hfollow, hfile⟩, fun other hother => ?_⟩
  refine (differsAt_set hnode).nodeOf?_eq (by rw [hfile]; rfl) ?_
  rwa [hfollow] at hother

/-- A file keeps its content when another text is written, exactly if the path that is written to
does not lead to it. -/
theorem nodeOf?_eq_iff_of_writeText {path output content text : String}
    (hread : tree.readText path = .ok content) (hne : content ≠ text)
    (h : tree.writeText output text = .ok tree') :
    tree'.nodeOf? path = tree.nodeOf? path ↔ tree.follow path ≠ tree.follow output := by
  obtain ⟨way, rfl, hnode, hfollow⟩ := writeText_eq_ok h
  obtain ⟨place, hplace, hcontent⟩ := readText_eq_ok.1 hread
  have hdiffers : tree.DiffersAt (tree.set way (.file text.toUTF8)) way := differsAt_set hnode
  have hfile : (tree.set way (.file text.toUTF8)).node? way = some (.file text.toUTF8) := by
    rw [node?_set hnode, if_pos rfl]
  have hsome : ((tree.set way (.file text.toUTF8)).node? way).isSome = true := by
    rw [hfile]
    rfl
  have hafter := hdiffers.follow hplace fun _ => hsome
  by_cases hway : place = way
  · subst hway
    have hbefore : tree.follow output = .ok place :=
      hdiffers.symm.follow hfollow fun _ => by rw [hcontent]; rfl
    refine iff_of_false (fun heq => hne ?_) (fun hfollows => hfollows (hplace.trans hbefore.symm))
    simp only [nodeOf?, hafter, hplace, hfile, hcontent, Option.some.injEq, Node.file.injEq] at heq
    exact String.toByteArray_inj.1 heq.symm
  · refine iff_of_true (hdiffers.nodeOf?_eq hsome ?_) fun hsame => hway ?_
    · rw [hafter]
      exact fun heq => hway (Except.ok.inj heq)
    · have houtput := hdiffers.follow (hsame.symm.trans hplace) fun _ => hsome
      exact Except.ok.inj (houtput.symm.trans hfollow)

end FileTree

end MettaSchema
