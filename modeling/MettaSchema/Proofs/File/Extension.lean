import MettaSchema.Proofs.File.Writing

/-!
# Paths with another extension

A path to a file and the path with another extension lead into the same directory.  They lead to
the same place exactly if the file has the extension already.

* `Path.HasExtension`, `Path.stem_append_eq_iff` — when a new extension changes nothing.
* `Path.Names.withExtension` — only the last part of a path changes.
* `FileTree.follow_withExtension_eq_iff` — when both paths lead to the same place.
-/

namespace MettaSchema

namespace Path

/-! ## Parts -/

/-- An absolute path has nothing in front of its first slash. -/
theorem isAbsolute_eq {path : String} {before : List (List Char)} {name : List Char}
    (hparts : parts path = before ++ [name]) (hname : name ≠ []) :
    isAbsolute path = (before.head? == some []) := by
  rw [isAbsolute]
  rw [parts] at hparts
  cases hs : path.toList with
  | nil =>
    rw [hs, split] at hparts
    cases before with
    | nil => exact absurd (List.singleton_inj.1 hparts).symm hname
    | cons first before => simp at hparts
  | cons c s =>
    obtain ⟨part, more, -, hsplit⟩ := split_cons c s
    rw [hs, hsplit] at hparts
    by_cases hc : c = '/'
    · rw [if_pos hc] at hparts
      cases before with
      | nil => simp at hparts
      | cons first before =>
        obtain ⟨rfl, -⟩ := List.cons.inj hparts
        simp [hc]
    · rw [if_neg hc] at hparts
      cases before with
      | nil => simp [hc]
      | cons first before =>
        obtain ⟨rfl, -⟩ := List.cons.inj hparts
        simp [hc]

/-! ## Extensions -/

/-- The name of a file ends in a dot and the extension, and something stands in front of the
dot. -/
def HasExtension (name extension : List Char) : Prop :=
  ∃ stem, stem ≠ [] ∧ name = stem ++ '.' :: extension

/-- What stands in front of the last dot. -/
theorem stem_append {s extension : List Char} (hs : s ≠ []) (h : '.' ∉ extension) :
    stem (s ++ '.' :: extension) = s := by
  have hdots : ∀ c ∈ extension.reverse, (c != '.') = true := by
    intro c hc
    rw [bne_iff_ne]
    rintro rfl
    exact h (List.mem_reverse.1 hc)
  have hdrop : ((s ++ '.' :: extension).reverse.dropWhile (· != '.')) = '.' :: s.reverse := by
    rw [List.reverse_append, List.reverse_cons, List.append_assoc,
      List.dropWhile_append_of_pos hdots]
    rfl
  rw [stem, hdrop]
  obtain ⟨c, r, hr⟩ := List.exists_cons_of_ne_nil (List.reverse_ne_nil_iff.2 hs)
  simp only [List.drop_succ_cons, List.drop_zero, hr]
  rw [← hr, List.reverse_reverse]

theorem stem_ne_nil {name : List Char} (h : name ≠ []) : stem name ≠ [] := by
  unfold stem
  split
  · exact h
  · rename_i kept hkept
    exact List.reverse_ne_nil_iff.2 (by simpa using hkept)

/-- A new extension changes nothing exactly if it is there already. -/
theorem stem_append_eq_iff {name extension : List Char} (hname : name ≠ [])
    (h : '.' ∉ extension) : stem name ++ '.' :: extension = name ↔ HasExtension name extension := by
  constructor
  · intro heq
    exact ⟨stem name, stem_ne_nil hname, heq.symm⟩
  · rintro ⟨s, hs, rfl⟩
    rw [stem_append hs h]

theorem mem_of_mem_stem {name : List Char} {c : Char} (h : c ∈ stem name) : c ∈ name := by
  unfold stem at h
  split at h
  · exact h
  · have hmem := List.mem_of_mem_drop (List.mem_reverse.1 h)
    exact List.mem_reverse.1 ((List.dropWhile_sublist _).subset hmem)

variable {path : String} {before : List (List Char)} {name : List Char}

/-- With another extension only the last part of a path is another one. -/
theorem Names.withExtension (h : Names path before name) {extension : String}
    (hextension : '/' ∉ extension.toList) (hne : extension ≠ "") :
    Names (Path.withExtension path extension) before (stem name ++ '.' :: extension.toList) where
  parts := by
    have hslash : ∀ part ∈ before ++ [name], '/' ∉ part := fun part hpart =>
      not_mem_split (h.parts ▸ hpart : part ∈ Path.parts path)
    have hslash' : ∀ part ∈ before ++ [stem name ++ '.' :: extension.toList], '/' ∉ part := by
      rw [List.forall_mem_append, List.forall_mem_singleton] at hslash ⊢
      refine ⟨hslash.1, fun hmem => ?_⟩
      rcases List.mem_append.1 hmem with hmem | hmem
      · exact hslash.2 (mem_of_mem_stem hmem)
      · exact hextension ((List.mem_cons.1 hmem).resolve_left (by decide))
    rw [Path.withExtension, h.fileName?, h.dropIdleEnd, Path.parts]
    simp only [List.dropLast_concat, String.toList_ofList]
    exact split_unite (by simp) hslash'
  solid := by
    obtain ⟨c, s, hs⟩ := List.exists_cons_of_ne_nil (stem_ne_nil h.ne_nil)
    simp [isIdle, hs]
  down := by
    intro heq
    have hlength := congrArg List.length heq
    have hstem := List.length_pos_iff.2 (stem_ne_nil h.ne_nil)
    have hext : extension.toList ≠ [] := by simpa using hne
    have hpos := List.length_pos_iff.2 hext
    simp only [List.length_append, List.length_cons, List.length_nil] at hlength
    omega

end Path

namespace FileTree

variable {tree : FileTree} {path : String}

/-- Of a path to a file and the path with another extension, both lead to the same place exactly if
the file has this extension. -/
theorem follow_withExtension_eq_iff {extension text : String}
    (hread : tree.readText path = .ok text) (hslash : '/' ∉ extension.toList)
    (hdot : '.' ∉ extension.toList) (hne : extension ≠ "") :
    ∃ name, Path.fileName? path = some name
      ∧ (tree.follow path = tree.follow (Path.withExtension path extension)
        ↔ Path.HasExtension name.toList extension.toList) := by
  obtain ⟨way, hfollow, hfile⟩ := readText_eq_ok.1 hread
  obtain ⟨before, name, directory, hnames, hbefore, hdirectory, rfl⟩ :=
    exists_names_of_follow hfollow (by rw [hfile]; exact nofun)
  have hnames' := hnames.withExtension hslash hne
  have horigin : tree.origin (Path.withExtension path extension) = tree.origin path := by
    rw [origin, origin, Path.isAbsolute_eq hnames'.parts hnames'.ne_nil,
      Path.isAbsolute_eq hnames.parts hnames.ne_nil]
  have hfollow' : tree.follow (Path.withExtension path extension)
      = tree.step directory (Path.stem name ++ '.' :: extension.toList) :=
    follow_of_names hnames' (by rw [horigin, hbefore])
  refine ⟨String.ofList name, hnames.fileName?, ?_⟩
  rw [String.toList_ofList, ← Path.stem_append_eq_iff hnames.ne_nil hdot, hfollow, hfollow',
    step_name hdirectory hnames'.solid hnames'.down]
  constructor
  · intro heq
    split at heq
    · obtain ⟨-, hlast⟩ := List.append_inj' (Except.ok.inj heq) rfl
      exact (List.singleton_inj.1 hlast).symm
    · cases heq
  · intro heq
    have hsome : (tree.node? (directory ++ [name])).isSome = true := by
      rw [hfile]
      rfl
    rw [heq, if_pos hsome]

end FileTree

end MettaSchema
