import Mathlib.Data.List.Perm.Subperm
import Mathlib.Data.List.TakeWhile
import MettaSchema.Proofs.Import.Bundled
import MettaSchema.Proofs.Import.Written

/-!
# Looking up imports

Which file an import stands for, which files are reached in that way, and what has been loaded
when no import is left to be looked up.

* `Located` — a file that was found, with what its own imports depend on.
* `Search.Finds` — the file for which an import is taken.
* `Search.Reaches` — a file, what it imports, what that imports in turn, and so on.
* `Worklist.Tracks` — how the state of loading and the files loaded so far belong together.
* `Worklist.Tracks.step`, `Search.collect_tracks` — each lookup keeps it so, and so do all.
* `Search.collect_done` — no import is left when loading ends.
-/

namespace MettaSchema

/-! ## What an import stands for -/

/-- A file that was found, with what its own imports depend on. -/
structure Located where
  /-- What the file declares. -/
  file : FileDecl
  /-- The path that was imported, or the name of the file if it was asked for. -/
  name : String
  /-- The directory of the file, unless it is bundled. -/
  directory : Option String

namespace Located

/-- The file at a path that was asked for. -/
def root (path : String) (file : FileDecl) : Located :=
  ⟨file, file.name, some (Search.directoryOf path)⟩

/-- What the file imports. -/
def imports (found : Located) : List Wanted :=
  Worklist.wantedBy found.file found.name found.directory

theorem mem_imports {found : Located} {wanted : Wanted} :
    wanted ∈ found.imports ↔
      ∃ path ∈ found.file.imports, wanted = ⟨path, found.name, found.directory⟩ := by
  simp [imports, Worklist.wantedBy, eq_comm]

end Located

namespace Search

variable {search : Search} {tree : FileTree} {rootDirectory : String} {wanted : Wanted}

/-- The directories in which an import is looked for, the preferred one first. -/
def directories (search : Search) (rootDirectory : String) (wanted : Wanted) : List String :=
  search.includePaths ++ wanted.directory.toList ++ [rootDirectory]

/-- The file for which an import is taken: the one in the first directory that has one, and if
there is none the bundled one. -/
inductive Finds (search : Search) (tree : FileTree) (rootDirectory : String) (wanted : Wanted) :
    Located → Prop
  /-- A directory has the file, and those before it do not. -/
  | onDisk {before after : List String} {directory : String} {file : FileDecl}
      (hdirectories : search.directories rootDirectory wanted = before ++ directory :: after)
      (hbefore : ∀ d ∈ before, tree.isFile (Path.join d wanted.path) = false)
      (hfile : tree.isFile (Path.join directory wanted.path) = true)
      (htext : FileDecl.ofText (Path.join directory wanted.path)
        (tree.readText (Path.join directory wanted.path)) = .ok file) :
      Finds search tree rootDirectory wanted
        ⟨file, wanted.path, Path.parent? (Path.join directory wanted.path)⟩
  /-- No directory has the file. -/
  | bundled {file : FileDecl}
      (hnone : ∀ d ∈ search.directories rootDirectory wanted,
        tree.isFile (Path.join d wanted.path) = false)
      (hbundled : Bundled.file? wanted.path = some file) :
      Finds search tree rootDirectory wanted ⟨file, wanted.path, none⟩

theorem Finds.name_eq {found : Located} (h : search.Finds tree rootDirectory wanted found) :
    found.name = wanted.path := by
  cases h <;> rfl

/-- The first directory that has the file of an import. -/
def firstDirectory? (search : Search) (tree : FileTree) (rootDirectory : String)
    (wanted : Wanted) : Option String :=
  (search.directories rootDirectory wanted).find? fun d => tree.isFile (Path.join d wanted.path)

theorem finds_onDisk_iff {directory : String} {found : Located}
    (h : search.firstDirectory? tree rootDirectory wanted = some directory) :
    search.Finds tree rootDirectory wanted found ↔
      ∃ file, FileDecl.ofText (Path.join directory wanted.path)
          (tree.readText (Path.join directory wanted.path)) = .ok file
        ∧ found = ⟨file, wanted.path, Path.parent? (Path.join directory wanted.path)⟩ := by
  constructor
  · intro hfinds
    cases hfinds with
    | @onDisk before after directory' _ hdirectories hbefore hfile htext =>
      have hfirst : search.firstDirectory? tree rootDirectory wanted = some directory' :=
        List.find?_eq_some_iff_append.2
          ⟨hfile, before, after, hdirectories, fun d hd => by rw [hbefore d hd]; rfl⟩
      cases hfirst.symm.trans h
      exact ⟨_, htext, rfl⟩
    | bundled hnone hbundled =>
      obtain ⟨hfile, before, after, hdirectories, -⟩ := List.find?_eq_some_iff_append.1 h
      rw [hnone directory (by simp [hdirectories])] at hfile
      cases hfile
  · rintro ⟨file, htext, rfl⟩
    obtain ⟨hfile, before, after, hdirectories, hbefore⟩ := List.find?_eq_some_iff_append.1 h
    exact .onDisk hdirectories (fun d hd => by simpa using hbefore d hd) hfile htext

/-- A file in the directory that is searched first is found for every import of its path. -/
theorem finds_included {directory target text : String} {more : List String} {file : FileDecl}
    (hpaths : search.includePaths = directory :: more)
    (hread : tree.readText (Path.join directory target) = .ok text)
    (hfile : FileDecl.ofText (Path.join directory target) (.ok text) = .ok file)
    (hwanted : wanted.path = target) :
    search.Finds tree rootDirectory wanted
      ⟨file, target, Path.parent? (Path.join directory target)⟩ := by
  subst hwanted
  have hfirst : search.firstDirectory? tree rootDirectory wanted = some directory := by
    simp [firstDirectory?, directories, hpaths, FileTree.isFile_of_readText hread]
  refine (finds_onDisk_iff hfirst).2 ⟨file, ?_, rfl⟩
  rw [hread, hfile]

theorem finds_bundled_iff {found : Located}
    (h : search.firstDirectory? tree rootDirectory wanted = none) :
    search.Finds tree rootDirectory wanted found ↔
      ∃ file, Bundled.file? wanted.path = some file ∧ found = ⟨file, wanted.path, none⟩ := by
  have hnone : ∀ d ∈ search.directories rootDirectory wanted,
      tree.isFile (Path.join d wanted.path) = false := by
    simpa [firstDirectory?] using h
  constructor
  · intro hfinds
    cases hfinds with
    | @onDisk before after directory _ hdirectories _ hfile _ =>
      rw [hnone directory (by simp [hdirectories])] at hfile
      cases hfile
    | bundled _ hbundled => exact ⟨_, hbundled, rfl⟩
  · rintro ⟨file, hbundled, rfl⟩
    exact .bundled hnone hbundled

theorem Finds.unique {found found' : Located} (h : search.Finds tree rootDirectory wanted found)
    (h' : search.Finds tree rootDirectory wanted found') : found = found' := by
  cases hfirst : search.firstDirectory? tree rootDirectory wanted with
  | some directory =>
    obtain ⟨file, htext, rfl⟩ := (finds_onDisk_iff hfirst).1 h
    obtain ⟨file', htext', rfl⟩ := (finds_onDisk_iff hfirst).1 h'
    cases htext.symm.trans htext'
    rfl
  | none =>
    obtain ⟨file, hbundled, rfl⟩ := (finds_bundled_iff hfirst).1 h
    obtain ⟨file', hbundled', rfl⟩ := (finds_bundled_iff hfirst).1 h'
    cases hbundled.symm.trans hbundled'
    rfl

theorem find?_candidates : (search.candidates rootDirectory wanted).find? tree.isFile
    = (search.firstDirectory? tree rootDirectory wanted).map (Path.join · wanted.path) :=
  List.find?_map

/-- What is fetched is what is to be found. -/
theorem fetch_eq_ok_iff {file : FileDecl} {directory : Option String} :
    search.fetch tree rootDirectory wanted = .ok (file, directory) ↔
      search.Finds tree rootDirectory wanted ⟨file, wanted.path, directory⟩ := by
  rw [fetch_eq, find?_candidates]
  cases hfirst : search.firstDirectory? tree rootDirectory wanted with
  | some d =>
    rw [finds_onDisk_iff hfirst]
    simp only [Option.map_some, choose, bind_eq_ok, pure_eq_ok, Prod.mk.injEq, Located.mk.injEq]
    constructor
    · rintro ⟨_, htext, rfl, hparent⟩
      exact ⟨_, htext, rfl, trivial, hparent.symm⟩
    · rintro ⟨_, htext, rfl, -, hparent⟩
      exact ⟨_, htext, rfl, hparent.symm⟩
  | none =>
    rw [finds_bundled_iff hfirst]
    simp only [Option.map_none, choose]
    cases Bundled.file? wanted.path <;> simp [eq_comm]

/-- The files that are reached from a path: the file there, what it imports, what that imports in
turn, and so on. -/
inductive Reaches (search : Search) (tree : FileTree) (path : String) : Located → Prop
  /-- The file that was asked for. -/
  | root {file : FileDecl} (h : FileDecl.ofText path (tree.readText path) = .ok file) :
      Reaches search tree path (.root path file)
  /-- A file that is imported. -/
  | imported {importer found : Located} {wanted : Wanted}
      (hreaches : Reaches search tree path importer) (hwanted : wanted ∈ importer.imports)
      (hfinds : search.Finds tree (directoryOf path) wanted found) :
      Reaches search tree path found

/-- What a file that is found imports is written in the tree: bundled files import nothing. -/
theorem Finds.mem_imports {target : String} {found : Located}
    (h : search.Finds tree rootDirectory wanted found) (htarget : target ∈ found.file.imports) :
    target ∈ tree.imports := by
  cases h with
  | onDisk _ _ _ htext => exact FileDecl.mem_imports_of_ofText htext htarget
  | bundled _ hbundled =>
    rw [Bundled.imports_eq_nil hbundled] at htarget
    cases htarget

/-- What a file that is reached imports is written in the tree. -/
theorem Reaches.mem_imports {path target : String} {found : Located}
    (h : search.Reaches tree path found) (htarget : target ∈ found.file.imports) :
    target ∈ tree.imports := by
  cases h with
  | root htext => exact FileDecl.mem_imports_of_ofText htext htarget
  | imported _ _ hfinds => exact hfinds.mem_imports htarget

end Search

/-! ## What has been loaded -/

namespace Worklist

variable {search : Search} {tree : FileTree} {path : String} {root : Located}
  {imported : List Located} {work rest : Worklist} {wanted : Wanted}

theorem next?_eq_none_iff : work.next? = none ↔ ∀ w ∈ work.queue, w.path ∈ work.seen := by
  unfold next?
  cases h : work.queue.dropWhile fun w => work.seen.contains w.path with
  | nil => simpa [List.dropWhile_eq_nil_iff] using h
  | cons w queue =>
    simp only [reduceCtorEq, false_iff]
    intro hseen
    have hnil : (work.queue.dropWhile fun w => work.seen.contains w.path) = [] :=
      List.dropWhile_eq_nil_iff.2 fun w hw => by simpa using hseen w hw
    rw [hnil] at h
    cases h

/-- Imports are skipped until there is one that has not been looked up. -/
theorem next?_eq_some (h : work.next? = some (wanted, rest)) :
    ∃ skipped queue, work.queue = skipped ++ wanted :: queue
      ∧ (∀ w ∈ skipped, w.path ∈ work.seen) ∧ wanted.path ∉ work.seen
      ∧ rest = { work with queue, seen := wanted.path :: work.seen } := by
  unfold next? at h
  split at h
  · cases h
  · rename_i w queue hdrop
    cases h
    refine ⟨work.queue.takeWhile fun w => work.seen.contains w.path, queue, ?_, ?_, ?_, rfl⟩
    · rw [← hdrop, List.takeWhile_append_dropWhile]
    · intro w hw
      simpa using List.mem_takeWhile_imp hw
    · have hhead := List.head?_dropWhile_not (fun w => work.seen.contains w.path) work.queue
      rw [hdrop] at hhead
      simpa using hhead

/-- How the state of loading belongs to the files that were loaded, the root and then those that
were imported. -/
structure Tracks (search : Search) (tree : FileTree) (path : String) (root : Located)
    (imported : List Located) (work : Worklist) : Prop where
  /-- These are the files that were loaded. -/
  files : work.files = (root :: imported).map (·.file)
  /-- They are reached. -/
  reached : ∀ l ∈ root :: imported, search.Reaches tree path l
  /-- The paths that were looked up are those under which they were imported. -/
  seen : work.seen = (imported.map (·.name)).reverse
  /-- No path was looked up twice. -/
  distinct : (imported.map (·.name)).Nodup
  /-- Their imports have been looked up or are in the queue. -/
  pending : ∃ passed, (root :: imported).flatMap (·.imports) = passed ++ work.queue
    ∧ ∀ w ∈ passed, w.path ∈ work.seen
  /-- Each was found for the first import of its path. -/
  found : ∀ l ∈ imported, ∃ w, ((root :: imported).flatMap (·.imports)).find? (·.path == l.name)
    = some w ∧ search.Finds tree (Search.directoryOf path) w l

namespace Tracks

theorem start {file : FileDecl} (h : FileDecl.ofText path (tree.readText path) = .ok file) :
    Tracks search tree path (.root path file) [] (.start file (Search.directoryOf path)) where
  files := rfl
  reached := by
    intro l hl
    rw [List.mem_singleton.1 hl]
    exact .root h
  seen := rfl
  distinct := List.nodup_nil
  pending := ⟨[], by simp [Located.root, Located.imports, Worklist.start], nofun⟩
  found := nofun

/-- The next import is that of a file that was loaded. -/
theorem wanted_mem (h : Tracks search tree path root imported work)
    (hnext : work.next? = some (wanted, rest)) :
    wanted ∈ (root :: imported).flatMap (·.imports) := by
  obtain ⟨passed, hpending, -⟩ := h.pending
  obtain ⟨skipped, queue, hqueue, -⟩ := next?_eq_some hnext
  simp [hpending, hqueue]

/-- When no import is left, something was imported for every import. -/
theorem exists_imported (h : Tracks search tree path root imported work)
    (hnext : work.next? = none) {w : Wanted} (hw : w ∈ (root :: imported).flatMap (·.imports)) :
    ∃ l ∈ imported, l.name = w.path := by
  obtain ⟨passed, hpending, hpassed⟩ := h.pending
  have hseen : w.path ∈ work.seen := by
    rw [hpending] at hw
    rcases List.mem_append.1 hw with hw | hw
    · exact hpassed w hw
    · exact next?_eq_none_iff.1 hnext w hw
  rw [h.seen, List.mem_reverse] at hseen
  exact List.mem_map.1 hseen

theorem mem_imports {w : Wanted} (h : Tracks search tree path root imported work)
    (hw : w ∈ (root :: imported).flatMap (·.imports)) : w.path ∈ tree.imports := by
  obtain ⟨l, hl, hw⟩ := List.mem_flatMap.1 hw
  obtain ⟨target, htarget, rfl⟩ := Located.mem_imports.1 hw
  exact (h.reached l hl).mem_imports htarget

/-- As long as an import is left, fewer files have been imported than the tree has bytes. -/
theorem length_lt (h : Tracks search tree path root imported work)
    (hnext : work.next? = some (wanted, rest)) : imported.length < tree.size := by
  obtain ⟨-, -, -, -, hnew, -⟩ := next?_eq_some hnext
  rw [h.seen, List.mem_reverse] at hnew
  have hnodup : (wanted.path :: imported.map (·.name)).Nodup := List.nodup_cons.2 ⟨hnew, h.distinct⟩
  have hsubset : wanted.path :: imported.map (·.name) ⊆ tree.imports := by
    intro n hn
    rcases List.mem_cons.1 hn with rfl | hn
    · exact h.mem_imports (h.wanted_mem hnext)
    · obtain ⟨l, hl, rfl⟩ := List.mem_map.1 hn
      obtain ⟨w, hfirst, -⟩ := h.found l hl
      have hpath := List.find?_some hfirst
      rw [← beq_iff_eq.1 hpath]
      exact h.mem_imports (List.mem_of_find?_eq_some hfirst)
  have hlength := (List.subperm_of_subset hnodup hsubset).length_le
  have hbytes := tree.length_imports_le
  rw [List.length_cons, List.length_map] at hlength
  omega

/-- A lookup keeps the state of loading in order. -/
theorem step {found : Located} (h : Tracks search tree path root imported work)
    (hnext : work.next? = some (wanted, rest))
    (hfinds : search.Finds tree (Search.directoryOf path) wanted found) :
    Tracks search tree path root (imported ++ [found])
      (rest.add wanted found.file found.directory) := by
  obtain ⟨skipped, queue, hqueue, hskipped, hnew, rfl⟩ := next?_eq_some hnext
  obtain ⟨passed, hpending, hpassed⟩ := h.pending
  have hname : found.name = wanted.path := hfinds.name_eq
  have hnew' : found.name ∉ imported.map (·.name) := by
    rwa [h.seen, List.mem_reverse, ← hname] at hnew
  have hlooked : ∀ w ∈ passed ++ skipped, w.path ∈ work.seen :=
    List.forall_mem_append.2 ⟨hpassed, hskipped⟩
  have hmore : (root :: (imported ++ [found])).flatMap (·.imports)
      = (root :: imported).flatMap (·.imports) ++ found.imports := by simp
  have hall : (root :: imported).flatMap (·.imports) = passed ++ skipped ++ wanted :: queue := by
    rw [hpending, hqueue, List.append_assoc]
  refine ⟨?_, ?_, ?_, ?_, ?_, ?_⟩
  · simp [add, h.files]
  · rw [← List.cons_append, List.forall_mem_append]
    obtain ⟨l, hl, hwanted⟩ := List.mem_flatMap.1 (h.wanted_mem hnext)
    have hfound := Search.Reaches.imported (h.reached l hl) hwanted hfinds
    exact ⟨h.reached, by simpa using hfound⟩
  · simp [add, h.seen, hname]
  · rw [List.map_append, List.map_singleton, List.nodup_append]
    refine ⟨h.distinct, List.pairwise_singleton .., ?_⟩
    rintro n hn _ hfound rfl
    rw [List.mem_singleton.1 hfound] at hn
    exact hnew' hn
  · refine ⟨passed ++ skipped ++ [wanted], ?_, ?_⟩
    · rw [hmore, hall]
      simp [add, Located.imports, hname]
    · intro w hw
      rcases List.mem_append.1 hw with hw | hw
      · exact List.mem_cons_of_mem _ (hlooked w hw)
      · rw [List.mem_singleton.1 hw]
        exact List.mem_cons_self
  · intro l hl
    rw [hmore]
    rcases List.mem_append.1 hl with hl | hl
    · obtain ⟨w, hfirst, hw⟩ := h.found l hl
      exact ⟨w, by rw [List.find?_append, hfirst, Option.some_or], hw⟩
    · rw [List.mem_singleton.1 hl]
      -- the imports before this one have paths that were looked up, so it is the first of its path
      have hnone : (passed ++ skipped).find? (·.path == found.name) = none := by
        rw [List.find?_eq_none]
        intro w hw heq
        rw [hname] at heq
        exact hnew (beq_iff_eq.1 heq ▸ hlooked w hw)
      refine ⟨wanted, ?_, hfinds⟩
      rw [hall, List.find?_append, List.find?_append, hnone, Option.none_or,
        List.find?_cons_of_pos (by simp [hname]), Option.some_or]

end Tracks

end Worklist

namespace Search

open Worklist

variable {search : Search} {tree : FileTree} {path rootDirectory : String} {root : Located}
  {work work' : Worklist}

theorem collect_of_next?_eq_none (hnext : work.next? = none) (bound : Nat) :
    search.collect tree rootDirectory bound work = .ok work := by
  cases bound with
  | zero => exact collect_zero _ _ _ work
  | succ bound => rw [collect_succ, hnext]

theorem collect_of_finds {wanted : Wanted} {rest : Worklist} {found : Located}
    (hnext : work.next? = some (wanted, rest))
    (hfinds : search.Finds tree rootDirectory wanted found) (bound : Nat) :
    search.collect tree rootDirectory (bound + 1) work
      = search.collect tree rootDirectory bound
          (rest.add wanted found.file found.directory) := by
  have hfetch : search.fetch tree rootDirectory wanted
      = .ok (found.file, found.directory) := by
    rw [fetch_eq_ok_iff, ← hfinds.name_eq]
    exact hfinds
  simp only [collect_succ, hnext, hfetch, bind, Except.bind]

/-- However many imports are looked up, the state of loading stays in order.  It stops only when
there is no import left or when the bound is reached. -/
theorem collect_tracks (bound : Nat) :
    ∀ {imported : List Located} {work : Worklist}, Tracks search tree path root imported work →
      search.collect tree (directoryOf path) bound work = .ok work' →
        ∃ more, Tracks search tree path root (imported ++ more) work'
          ∧ (work'.next? = none ∨ more.length = bound) := by
  induction bound with
  | zero =>
    intro imported work h hcollect
    cases hcollect
    exact ⟨[], by simpa using h, .inr rfl⟩
  | succ bound ih =>
    intro imported work h hcollect
    rw [collect_succ] at hcollect
    split at hcollect
    · rename_i hnext
      cases hcollect
      exact ⟨[], by simpa using h, .inl hnext⟩
    · rename_i wanted rest hnext
      rw [bind_eq_ok] at hcollect
      obtain ⟨⟨file, directory⟩, hfetch, hcollect⟩ := hcollect
      obtain ⟨more, hmore, hdone⟩ := ih (h.step hnext (fetch_eq_ok_iff.1 hfetch)) hcollect
      refine ⟨⟨file, wanted.path, directory⟩ :: more, by simpa using hmore, hdone.imp id ?_⟩
      intro hlength
      rw [List.length_cons, hlength]

/-- Where every import of a file that is reached can be found, loading does not fail. -/
theorem collect_succeeds (hfound : ∀ l, search.Reaches tree path l → ∀ w ∈ l.imports,
    ∃ found, search.Finds tree (directoryOf path) w found) (bound : Nat) :
    ∀ {imported : List Located} {work : Worklist}, Tracks search tree path root imported work →
      ∃ work', search.collect tree (directoryOf path) bound work = .ok work' := by
  induction bound with
  | zero =>
    intro imported work h
    exact ⟨work, rfl⟩
  | succ bound ih =>
    intro imported work h
    cases hnext : work.next? with
    | none => exact ⟨work, collect_of_next?_eq_none hnext _⟩
    | some next =>
      obtain ⟨wanted, rest⟩ := next
      obtain ⟨l, hl, hwanted⟩ := List.mem_flatMap.1 (h.wanted_mem hnext)
      obtain ⟨found, hfinds⟩ := hfound l (h.reached l hl) wanted hwanted
      obtain ⟨work', hwork'⟩ := ih (h.step hnext hfinds)
      exact ⟨work', (collect_of_finds hnext hfinds bound).trans hwork'⟩

/-- When loading ends, no import is left: each path that is looked up is written in the tree, and
the tree has at least as many bytes as imports. -/
theorem collect_done {file : FileDecl}
    (hroot : FileDecl.ofText path (tree.readText path) = .ok file)
    (h : search.collect tree (directoryOf path) tree.size (.start file (directoryOf path))
      = .ok work) :
    ∃ imported, Tracks search tree path (.root path file) imported work ∧ work.next? = none := by
  obtain ⟨imported, htracks, hdone⟩ := collect_tracks tree.size (Tracks.start hroot) h
  rw [List.nil_append] at htracks
  refine ⟨imported, htracks, ?_⟩
  cases hnext : work.next? with
  | none => rfl
  | some next =>
    have hlt := htracks.length_lt hnext
    rcases hdone with hdone | hlength
    · rw [hdone] at hnext
      cases hnext
    · omega

end Search

end MettaSchema
