import Mathlib.Data.List.Forall2
import Mathlib.Data.Option.Basic
import MettaSchema.File.Tree

/-!
# Trees whose files have other contents

Where a path leads depends on the names in a tree and on what is a directory, not on what the files
hold.

* `FileTree.Corresponds` — the same names in both trees, and nodes that are related.
* `Node.SameSort` — two files, or two directories.
* `FileTree.Corresponds.follow`, `FileTree.Corresponds.isFile` — with nodes of the same sort, paths
  lead to the same places, and to files in both trees or in none.
-/

namespace MettaSchema

/-- Two trees have one working directory and the same names, and what stands at a name is
related. -/
structure FileTree.Corresponds (R : Node → Node → Prop) (tree tree' : FileTree) : Prop where
  /-- The same working directory. -/
  workingDirectory : tree'.workingDirectory = tree.workingDirectory
  /-- The same names, and nodes that are related. -/
  entries : List.Forall₂ (fun entry entry' => entry'.1 = entry.1 ∧ R entry.2 entry'.2)
    tree.entries tree'.entries

/-- Two files or two directories. -/
inductive Node.SameSort : Node → Node → Prop
  /-- Two files. -/
  | file (content content' : ByteArray) : SameSort (.file content) (.file content')
  /-- Two directories. -/
  | directory : SameSort .directory .directory

namespace FileTree.Corresponds

variable {R S : Node → Node → Prop} {tree tree' : FileTree}

theorem mono (h : Corresponds R tree tree') (hRS : ∀ node node', R node node' → S node node') :
    Corresponds S tree tree' where
  workingDirectory := h.workingDirectory
  entries := h.entries.imp fun _ _ hentry => ⟨hentry.1, hRS _ _ hentry.2⟩

/-- At each way stand related nodes, or nothing in both trees. -/
theorem node? (hdirectory : R .directory .directory) (h : Corresponds R tree tree') (way : Way) :
    Option.Rel R (tree.node? way) (tree'.node? way) := by
  obtain ⟨hworking, hentries⟩ := h
  unfold FileTree.node?
  rw [hworking]
  split
  · exact .some hdirectory
  · generalize tree.entries = entries, tree'.entries = entries' at hentries
    induction hentries with
    | nil => exact .none
    | @cons entry entry' _ _ hentry _ ih =>
      obtain ⟨way₁, node⟩ := entry
      obtain ⟨way₂, node'⟩ := entry'
      obtain ⟨rfl, hnode⟩ := hentry
      rw [List.lookup_cons, List.lookup_cons]
      cases way == way₂ with
      | true => exact .some hnode
      | false => exact ih

theorem step (h : Corresponds Node.SameSort tree tree') : tree'.step = tree.step := by
  funext way part
  have hthere : ∀ way, (tree'.node? way).isSome = (tree.node? way).isSome := by
    intro way
    have hway := h.node? .directory way
    generalize tree.node? way = node, tree'.node? way = node' at hway
    cases hway <;> rfl
  have hway := h.node? .directory way
  unfold FileTree.step
  simp only [hthere]
  generalize tree.node? way = node, tree'.node? way = node' at hway
  cases hway with
  | none => rfl
  | some hnode => cases hnode <;> rfl

/-- Paths lead to the same places. -/
theorem follow (h : Corresponds Node.SameSort tree tree') (path : String) :
    tree'.follow path = tree.follow path := by
  unfold FileTree.follow FileTree.origin
  rw [h.step, h.workingDirectory]

theorem isFile (h : Corresponds Node.SameSort tree tree') : tree'.isFile = tree.isFile := by
  funext path
  unfold FileTree.isFile FileTree.read
  rw [h.follow path]
  cases tree.follow path with
  | error e => rfl
  | ok way =>
    have hway := h.node? .directory way
    dsimp only
    generalize tree.node? way = node, tree'.node? way = node' at hway
    cases hway with
    | none => rfl
    | some hnode => cases hnode <;> rfl

end FileTree.Corresponds

end MettaSchema
