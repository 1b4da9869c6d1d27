import Mathlib.Data.Finset.Card
import MettaSchema.Proofs.Import.Worklist

/-!
# The end of loading

Loading takes the imports one by one from a queue that grows with every file that is read.  It
ends, whatever the files import: an import whose path was taken before is skipped, and there are
only so many paths written in the tree.

* `Turn` — what is done with an import that is taken from the queue.
* `Search.Runs` — the turns from some state of loading to the end, without any bound on them.
* `Search.exists_runs` — there is an end.  Each turn that takes a new path leaves fewer paths of
  the tree, and each other one a shorter queue.
* `Search.Runs.length_le`, `Search.Runs.nodup_paths` — how many turns there are, and that no path
  is looked up twice.
* `Search.load_ends` — all of this for the schema of a file.
-/

namespace MettaSchema

/-- What is done with an import that is taken from the queue. -/
inductive Turn
  /-- Nothing: its path was looked up before. -/
  | skipped (wanted : Wanted)
  /-- A file was found and read. -/
  | loaded (wanted : Wanted) (file : FileDecl)
  /-- No file was found, or it could not be read. -/
  | failed (wanted : Wanted)

namespace Turn

/-- The path that is looked up. -/
def path? : Turn → Option String
  | skipped _ => none
  | loaded wanted _ => some wanted.path
  | failed wanted => some wanted.path

/-- The file that is read. -/
def file? : Turn → Option FileDecl
  | loaded _ file => some file
  | _ => none

/-- The paths that are looked up, in this order. -/
def paths (turns : List Turn) : List String :=
  turns.filterMap path?

/-- How many imports the files have that are read. -/
def importCount (turns : List Turn) : Nat :=
  ((turns.filterMap file?).flatMap (·.imports)).length

variable {wanted : Wanted} {file : FileDecl} {turns : List Turn}

@[simp] theorem paths_nil : paths [] = [] := rfl

@[simp] theorem paths_skipped : paths (skipped wanted :: turns) = paths turns := rfl

@[simp] theorem paths_loaded :
    paths (loaded wanted file :: turns) = wanted.path :: paths turns := rfl

@[simp] theorem paths_failed : paths (failed wanted :: turns) = wanted.path :: paths turns := rfl

@[simp] theorem importCount_nil : importCount [] = 0 := rfl

@[simp] theorem importCount_skipped : importCount (skipped wanted :: turns) = importCount turns :=
  rfl

@[simp] theorem importCount_loaded :
    importCount (loaded wanted file :: turns) = file.imports.length + importCount turns := by
  simp [importCount, file?]

@[simp] theorem importCount_failed : importCount (failed wanted :: turns) = importCount turns :=
  rfl

end Turn

namespace Worklist

/-- The state without the first import, which has the given path. -/
def taken (work : Worklist) (path : String) (queue : List Wanted) : Worklist :=
  { work with queue, seen := path :: work.seen }

variable {work : Worklist} {wanted : Wanted} {queue : List Wanted}

theorem next?_of_seen (hqueue : work.queue = wanted :: queue) (hseen : wanted.path ∈ work.seen) :
    work.next? = ({ work with queue } : Worklist).next? := by
  have hcontains : work.seen.contains wanted.path = true := by simpa using hseen
  simp only [next?, hqueue, List.dropWhile_cons, hcontains, if_true]

theorem next?_of_new (hqueue : work.queue = wanted :: queue) (hnew : wanted.path ∉ work.seen) :
    work.next? = some (wanted, work.taken wanted.path queue) := by
  have hcontains : work.seen.contains wanted.path = false := by simpa using hnew
  simp only [next?, hqueue, List.dropWhile_cons, hcontains, Bool.false_eq_true, if_false, taken]

end Worklist

namespace Search

open Worklist

/-- The turns from some state of loading to the end, and the files that are loaded then or the
error.  In each turn the first import is taken from the queue, until it is empty. -/
inductive Runs (search : Search) (tree : FileTree) (rootDirectory : String) :
    Worklist → List Turn → Except SchemaError (List FileDecl) → Prop
  /-- The queue is empty. -/
  | done {work : Worklist} (hqueue : work.queue = []) :
      Runs search tree rootDirectory work [] (.ok work.files)
  /-- The path of the import was looked up before. -/
  | skip {work : Worklist} {wanted : Wanted} {queue : List Wanted} {turns : List Turn}
      {outcome : Except SchemaError (List FileDecl)}
      (hqueue : work.queue = wanted :: queue) (hseen : wanted.path ∈ work.seen)
      (hrest : Runs search tree rootDirectory { work with queue } turns outcome) :
      Runs search tree rootDirectory work (.skipped wanted :: turns) outcome
  /-- The import is looked up, and its file adds its own imports. -/
  | load {work : Worklist} {wanted : Wanted} {queue : List Wanted} {file : FileDecl}
      {directory : Option String} {turns : List Turn}
      {outcome : Except SchemaError (List FileDecl)}
      (hqueue : work.queue = wanted :: queue) (hnew : wanted.path ∉ work.seen)
      (hfetch : search.fetch tree rootDirectory wanted = .ok (file, directory))
      (hrest : Runs search tree rootDirectory
        ((work.taken wanted.path queue).add wanted file directory) turns outcome) :
      Runs search tree rootDirectory work (.loaded wanted file :: turns) outcome
  /-- The import is looked up in vain. -/
  | fail {work : Worklist} {wanted : Wanted} {queue : List Wanted} {e : SchemaError}
      (hqueue : work.queue = wanted :: queue) (hnew : wanted.path ∉ work.seen)
      (hfetch : search.fetch tree rootDirectory wanted = .error e) :
      Runs search tree rootDirectory work [.failed wanted] (.error e)

variable {search : Search} {tree : FileTree} {rootDirectory : String} {work : Worklist}
  {turns : List Turn} {outcome : Except SchemaError (List FileDecl)}

namespace Runs

/-- There is only one way on from a state. -/
theorem unique (h : search.Runs tree rootDirectory work turns outcome) :
    ∀ {turns' : List Turn} {outcome' : Except SchemaError (List FileDecl)},
      search.Runs tree rootDirectory work turns' outcome' → turns' = turns ∧ outcome' = outcome := by
  induction h with
  | done hqueue =>
    intro turns' outcome' h'
    cases h' with
    | done => exact ⟨rfl, rfl⟩
    | skip hqueue' | load hqueue' | fail hqueue' => simp [hqueue] at hqueue'
  | skip hqueue hseen _ ih =>
    intro turns' outcome' h'
    cases h' with
    | done hqueue' => simp [hqueue] at hqueue'
    | skip hqueue' _ hrest =>
      cases hqueue.symm.trans hqueue'
      obtain ⟨rfl, rfl⟩ := ih hrest
      exact ⟨rfl, rfl⟩
    | load hqueue' hnew | fail hqueue' hnew =>
      cases hqueue.symm.trans hqueue'
      exact absurd hseen hnew
  | load hqueue hnew hfetch _ ih =>
    intro turns' outcome' h'
    cases h' with
    | done hqueue' => simp [hqueue] at hqueue'
    | skip hqueue' hseen =>
      cases hqueue.symm.trans hqueue'
      exact absurd hseen hnew
    | load hqueue' _ hfetch' hrest =>
      cases hqueue.symm.trans hqueue'
      cases hfetch.symm.trans hfetch'
      obtain ⟨rfl, rfl⟩ := ih hrest
      exact ⟨rfl, rfl⟩
    | fail hqueue' _ hfetch' =>
      cases hqueue.symm.trans hqueue'
      cases hfetch.symm.trans hfetch'
  | fail hqueue hnew hfetch =>
    intro turns' outcome' h'
    cases h' with
    | done hqueue' => simp [hqueue] at hqueue'
    | skip hqueue' hseen =>
      cases hqueue.symm.trans hqueue'
      exact absurd hseen hnew
    | load hqueue' _ hfetch' =>
      cases hqueue.symm.trans hqueue'
      cases hfetch.symm.trans hfetch'
    | fail hqueue' _ hfetch' =>
      cases hqueue.symm.trans hqueue'
      cases hfetch.symm.trans hfetch'
      exact ⟨rfl, rfl⟩

/-- There are at most as many turns as imports in the queue and in the files that are read, and
exactly as many if loading does not fail. -/
theorem length_le (h : search.Runs tree rootDirectory work turns outcome) :
    turns.length ≤ work.queue.length + Turn.importCount turns
      ∧ (∀ files, outcome = .ok files →
        turns.length = work.queue.length + Turn.importCount turns) := by
  induction h with
  | done hqueue => simp [hqueue]
  | skip hqueue _ _ ih =>
    obtain ⟨hle, heq⟩ := ih
    dsimp only at hle heq
    simp only [hqueue, List.length_cons, Turn.importCount_skipped]
    exact ⟨by omega, fun files hfiles => by have := heq files hfiles; omega⟩
  | load hqueue _ _ _ ih =>
    obtain ⟨hle, heq⟩ := ih
    simp only [add, taken, wantedBy, List.length_append, List.length_map] at hle heq
    simp only [hqueue, List.length_cons, Turn.importCount_loaded]
    exact ⟨by omega, fun files hfiles => by have := heq files hfiles; omega⟩
  | fail hqueue =>
    simp only [hqueue, List.length_cons, List.length_nil, Turn.importCount_failed]
    exact ⟨by omega, by simp⟩

/-- No path is looked up twice, and none that was looked up before. -/
theorem nodup_paths (h : search.Runs tree rootDirectory work turns outcome) :
    (Turn.paths turns).Nodup ∧ ∀ path ∈ Turn.paths turns, path ∉ work.seen := by
  induction h with
  | done => simp
  | skip _ _ _ ih => simpa using ih
  | load _ hnew _ _ ih =>
    obtain ⟨hnodup, hunseen⟩ := ih
    simp only [add, taken, List.mem_cons, not_or] at hunseen
    rw [Turn.paths_loaded, List.nodup_cons, List.forall_mem_cons]
    exact ⟨⟨fun hmem => (hunseen _ hmem).1 rfl, hnodup⟩, hnew, fun p hp => (hunseen p hp).2⟩
  | fail _ hnew => simpa using hnew

/-- With a bound that is not below the number of lookups, the same files are loaded. -/
theorem collect (h : search.Runs tree rootDirectory work turns outcome) :
    ∀ {bound : Nat}, (Turn.paths turns).length ≤ bound →
      (search.collect tree rootDirectory bound work).map (·.files) = outcome := by
  induction h with
  | done hqueue =>
    intro bound _
    rw [collect_of_next?_eq_none (next?_eq_none_iff.2 (by simp [hqueue]))]
    rfl
  | @skip work wanted queue _ _ hqueue hseen _ ih =>
    intro bound hbound
    rw [← ih hbound]
    cases bound with
    | zero => rfl
    | succ bound =>
      rw [collect_succ, collect_succ, next?_of_seen hqueue hseen]
      cases ({ work with queue } : Worklist).next? <;> rfl
  | load hqueue hnew hfetch _ ih =>
    intro bound hbound
    rw [Turn.paths_loaded, List.length_cons] at hbound
    obtain ⟨bound, rfl⟩ := Nat.exists_eq_add_of_lt hbound
    rw [collect_succ, next?_of_new hqueue hnew]
    simp only [hfetch, bind, Except.bind]
    exact ih (by omega)
  | fail hqueue hnew hfetch =>
    intro bound hbound
    rw [Turn.paths_failed, List.length_cons] at hbound
    obtain ⟨bound, rfl⟩ := Nat.exists_eq_add_of_lt hbound
    rw [collect_succ, next?_of_new hqueue hnew]
    simp only [hfetch, bind, Except.bind]
    rfl

end Runs

/-! ## The end -/

/-- Every path in the queue is written in the tree. -/
def Written (tree : FileTree) (work : Worklist) : Prop :=
  ∀ wanted ∈ work.queue, wanted.path ∈ tree.imports

/-- The paths that are written in the tree and have not been looked up. -/
def unseen (tree : FileTree) (work : Worklist) : Finset String :=
  tree.imports.toFinset \ work.seen.toFinset

variable {wanted : Wanted} {queue : List Wanted}

theorem Written.start {path : String} {root : FileDecl}
    (hroot : FileDecl.ofText path (tree.readText path) = .ok root) (directory : String) :
    Written tree (.start root directory) := by
  intro wanted hwanted
  obtain ⟨target, htarget, rfl⟩ := List.mem_map.1 hwanted
  exact FileDecl.mem_imports_of_ofText hroot htarget

theorem Written.taken (h : Written tree work) (hqueue : work.queue = wanted :: queue)
    (path : String) : Written tree (work.taken path queue) :=
  fun w hw => h w (hqueue ▸ List.mem_cons_of_mem _ hw)

theorem Written.add (h : Written tree work) {file : FileDecl} {directory : Option String}
    (hfetch : search.fetch tree rootDirectory wanted = .ok (file, directory)) :
    Written tree (work.add wanted file directory) := by
  intro w hw
  rcases List.mem_append.1 hw with hw | hw
  · exact h w hw
  · obtain ⟨target, htarget, rfl⟩ := List.mem_map.1 hw
    exact (fetch_eq_ok_iff.1 hfetch).mem_imports htarget

/-- To look up a path that is written in the tree leaves fewer of them. -/
theorem card_unseen_lt (h : Written tree work) (hqueue : work.queue = wanted :: queue)
    (hnew : wanted.path ∉ work.seen) (file : FileDecl) (directory : Option String) :
    (unseen tree ((work.taken wanted.path queue).add wanted file directory)).card
      < (unseen tree work).card := by
  have hmem : wanted.path ∈ unseen tree work := by
    simpa [unseen, hnew] using h wanted (by simp [hqueue])
  refine Finset.card_lt_card (Finset.ssubset_iff_subset_ne.2 ⟨?_, ?_⟩)
  · exact Finset.sdiff_subset_sdiff subset_rfl (by simp [Worklist.add, Worklist.taken])
  · intro heq
    rw [← heq] at hmem
    simp [unseen, Worklist.add, Worklist.taken] at hmem

/-- Loading ends.  Either fewer paths of the tree are left to be looked up, or as many and the
queue is shorter. -/
theorem exists_runs (work : Worklist) (h : Written tree work) :
    ∃ turns outcome, search.Runs tree rootDirectory work turns outcome := by
  match hqueue : work.queue with
  | [] => exact ⟨_, _, .done hqueue⟩
  | wanted :: queue =>
    by_cases hseen : wanted.path ∈ work.seen
    · have hshorter : queue.length < work.queue.length := by simp [hqueue]
      have hrest : Written tree { work with queue } :=
        fun w hw => h w (hqueue ▸ List.mem_cons_of_mem _ hw)
      obtain ⟨turns, outcome, hruns⟩ := exists_runs { work with queue } hrest
      exact ⟨_, _, .skip hqueue hseen hruns⟩
    · cases hfetch : search.fetch tree rootDirectory wanted with
      | error e => exact ⟨_, _, .fail hqueue hseen hfetch⟩
      | ok found =>
        obtain ⟨file, directory⟩ := found
        have hfewer := card_unseen_lt h hqueue hseen file directory
        obtain ⟨turns, outcome, hruns⟩ := exists_runs
          ((work.taken wanted.path queue).add wanted file directory) ((h.taken hqueue _).add hfetch)
        exact ⟨_, _, .load hqueue hseen hfetch hruns⟩
termination_by ((unseen tree work).card, work.queue.length)
decreasing_by
  · exact Prod.Lex.right _ hshorter
  · exact Prod.Lex.left _ _ hfewer

/-- What is looked up is written in the tree. -/
theorem Runs.paths_subset (h : search.Runs tree rootDirectory work turns outcome) :
    Written tree work → Turn.paths turns ⊆ tree.imports := by
  induction h with
  | done => simp
  | skip hqueue _ _ ih =>
    intro hwritten
    exact ih fun w hw => hwritten w (hqueue ▸ List.mem_cons_of_mem _ hw)
  | load hqueue _ hfetch _ ih =>
    intro hwritten
    rw [Turn.paths_loaded, List.cons_subset]
    exact ⟨hwritten _ (by simp [hqueue]), ih ((hwritten.taken hqueue _).add hfetch)⟩
  | fail hqueue =>
    intro hwritten
    simpa using hwritten _ (by simp [hqueue] : _ ∈ _)

/-- The schema of a file is that of the file with the files that are loaded in some turns.  No more
paths are looked up in them than the tree has bytes, so the bound of the lookups is not met. -/
theorem Runs.load_eq {path : String} {root : FileDecl}
    (hroot : FileDecl.ofText path (tree.readText path) = .ok root)
    (h : search.Runs tree (directoryOf path) (.start root (directoryOf path)) turns outcome) :
    search.load tree path = outcome >>= fun files => root.build (.ofFiles files) := by
  have hbound : (Turn.paths turns).length ≤ tree.size :=
    ((List.subperm_of_subset h.nodup_paths.1
      (h.paths_subset (Written.start hroot (directoryOf path)))).length_le).trans
        tree.length_imports_le
  simp only [Search.load_eq, hroot, ← h.collect hbound, bind, Except.bind]
  cases search.collect tree (directoryOf path) tree.size (.start root (directoryOf path)) <;> rfl

/-- Loading a file always ends: the file cannot be read, and then nothing is looked up, or the
imports are taken one by one until none is left or one cannot be found or read.  This takes at most
as many turns as the file and the files that are read have imports, exactly as many unless loading
fails, and no path is looked up twice.  The schema is that of the file with the files that were
loaded in this way. -/
theorem load_ends (search : Search) (tree : FileTree) (path : String) :
    (∃ e, FileDecl.ofText path (tree.readText path) = .error e ∧ search.load tree path = .error e)
      ∨ ∃ root turns outcome, FileDecl.ofText path (tree.readText path) = .ok root
        ∧ search.Runs tree (directoryOf path) (.start root (directoryOf path)) turns outcome
        ∧ (∀ turns' outcome', search.Runs tree (directoryOf path)
            (.start root (directoryOf path)) turns' outcome' → turns' = turns ∧ outcome' = outcome)
        ∧ turns.length ≤ root.imports.length + Turn.importCount turns
        ∧ (∀ files, outcome = .ok files →
            turns.length = root.imports.length + Turn.importCount turns)
        ∧ (Turn.paths turns).Nodup
        ∧ search.load tree path = outcome >>= fun files => root.build (.ofFiles files) := by
  cases hroot : FileDecl.ofText path (tree.readText path) with
  | error e =>
    refine .inl ⟨e, rfl, ?_⟩
    simp only [load_eq, hroot, bind, Except.bind]
  | ok root =>
    obtain ⟨turns, outcome, hruns⟩ : ∃ turns outcome, search.Runs tree (directoryOf path) _ turns
        outcome := exists_runs _ (Written.start hroot (directoryOf path))
    have hqueue : (Worklist.start root (directoryOf path)).queue.length = root.imports.length := by
      simp [Worklist.start, Worklist.wantedBy]
    obtain ⟨hle, heq⟩ := hruns.length_le
    rw [hqueue] at hle heq
    obtain ⟨hnodup, -⟩ := hruns.nodup_paths
    exact .inr ⟨root, turns, outcome, rfl, hruns, fun _ _ => hruns.unique, hle, heq, hnodup,
      hruns.load_eq hroot⟩

end Search

end MettaSchema
