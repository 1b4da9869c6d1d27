import MettaSchema.Proofs.Grammar.Reading
import MettaSchema.Proofs.Grammar.Spacing
import MettaSchema.Statement

/-!
# What statements see of a tree

Statements are made from the tokens and the composite rules of a tree; blanks and
punctuation leave no trace in them.

* `Tree.skeleton`, `Tree.skeletonAll` — trees without blanks and punctuation.
* `Tree.RespacedAll` — the same trees with other blanks.
* `FileStatement.ofTrees?_skeleton` — the statements of a text are those of the skeleton.
-/

namespace MettaSchema

namespace Tree

/-! ## Skeletons -/

mutual

/-- What is left of a tree without blanks and punctuation. -/
def skeleton : Tree → List Tree
  | mark _ => []
  | blank _ => []
  | token rule text => [token rule text]
  | node rule parts => [node rule (skeletonAll parts)]

/-- What is left of a list of trees without blanks and punctuation. -/
def skeletonAll : List Tree → List Tree
  | [] => []
  | t :: rest => skeleton t ++ skeletonAll rest

end

@[simp] theorem skeletonAll_nil : skeletonAll [] = [] := rfl

@[simp] theorem skeletonAll_append (ts us : List Tree) :
    skeletonAll (ts ++ us) = skeletonAll ts ++ skeletonAll us := by
  induction ts with
  | nil => rfl
  | cons t ts ih => simp [skeletonAll, ih]

@[simp] theorem skeletonAll_ofBlanks (s : List Char) : skeletonAll (ofBlanks s) = [] := by
  cases s <;> rfl

/-! ## Other blanks -/

mutual

/-- The second tree is the first one with other gaps in place of its blanks. -/
def Respaced : Tree → Tree → Prop
  | mark s, mark t => t = s
  | blank _, blank t => Scan.Gap t
  | token rule s, token rule' t => rule' = rule ∧ t = s
  | node rule ps, node rule' qs => rule' = rule ∧ RespacedAll ps qs
  | _, _ => False

/-- The second list of trees is the first one with other gaps in place of its blanks. -/
def RespacedAll : List Tree → List Tree → Prop
  | [], [] => True
  | t :: ts, u :: us => Respaced t u ∧ RespacedAll ts us
  | _, _ => False

end

theorem RespacedAll.nil_left {us : List Tree} (h : RespacedAll [] us) : us = [] := by
  cases us with
  | nil => rfl
  | cons u us => exact h.elim

theorem RespacedAll.append_left {ts ts' us : List Tree} (h : RespacedAll (ts ++ ts') us) :
    ∃ vs vs', us = vs ++ vs' ∧ RespacedAll ts vs ∧ RespacedAll ts' vs' := by
  induction ts generalizing us with
  | nil => exact ⟨[], us, rfl, trivial, h⟩
  | cons t ts ih =>
    cases us with
    | nil => exact h.elim
    | cons u us =>
      obtain ⟨vs, vs', rfl, hvs, hvs'⟩ := ih h.2
      exact ⟨u :: vs, vs', rfl, ⟨h.1, hvs⟩, hvs'⟩

theorem RespacedAll.singleton {t : Tree} {us : List Tree} (h : RespacedAll [t] us) :
    ∃ u, us = [u] ∧ Respaced t u := by
  cases us with
  | nil => exact h.elim
  | cons u us =>
    obtain rfl := RespacedAll.nil_left h.2
    exact ⟨u, rfl, h.1⟩

/-- Blanks become a gap, and no blanks stay none. -/
theorem RespacedAll.ofBlanks {s : List Char} {us : List Tree} (h : RespacedAll (ofBlanks s) us) :
    (s = [] ∧ textAll us = []) ∨ (s ≠ [] ∧ Scan.Gap (textAll us)) := by
  cases s with
  | nil => exact .inl ⟨rfl, by rw [h.nil_left]; rfl⟩
  | cons c s =>
    obtain ⟨u, rfl, hu⟩ := h.singleton
    cases u with
    | blank t => exact .inr ⟨by simp, by simpa [textAll, text, Respaced] using hu⟩
    | _ => exact hu.elim

/-! ## Values in braces -/

mutual

/-- The option values in braces that a tree holds. -/
def values : Tree → List (List Char)
  | token rule text => if rule = .aggregate then [text] else []
  | node _ parts => valuesAll parts
  | _ => []

/-- The option values in braces that a list of trees holds. -/
def valuesAll : List Tree → List (List Char)
  | [] => []
  | t :: rest => values t ++ valuesAll rest

end

@[simp] theorem valuesAll_append (ts us : List Tree) :
    valuesAll (ts ++ us) = valuesAll ts ++ valuesAll us := by
  induction ts with
  | nil => rfl
  | cons t ts ih => simp [valuesAll, ih]

/-! ## Parts of a tree -/

theorem tokens_append (rule : Rule) (ts us : List Tree) :
    tokens rule (ts ++ us) = tokens rule ts ++ tokens rule us := by
  simp [tokens]

theorem tokens_skeletonAll (rule : Rule) (ts : List Tree) :
    tokens rule (skeletonAll ts) = tokens rule ts := by
  induction ts with
  | nil => rfl
  | cons t ts ih =>
    rw [skeletonAll, tokens_append, ih, ← List.singleton_append, tokens_append]
    cases t <;> rfl

theorem token?_skeletonAll (rule : Rule) (ts : List Tree) :
    token? rule (skeletonAll ts) = token? rule ts := by
  rw [token?, tokens_skeletonAll, token?]

theorem parts?_skeletonAll (rule : Rule) (ts : List Tree) :
    parts? rule (skeletonAll ts) = (parts? rule ts).map skeletonAll := by
  induction ts with
  | nil => rfl
  | cons t ts ih =>
    unfold parts? at ih ⊢
    rw [skeletonAll, List.findSome?_append, ih]
    cases t with
    | node r parts =>
      by_cases hr : r = rule <;> simp [skeleton, hr]
    | _ => simp [skeleton]

/-- A function that makes nothing of blanks and punctuation, and the same of a composite rule
and of its skeleton, makes the same of trees and of their skeletons. -/
theorem mapM_skeletonAll {α : Type} {f : Tree → Option (List α)} (hmark : ∀ s, f (mark s) = some [])
    (hblank : ∀ s, f (blank s) = some [])
    (hnode : ∀ rule parts, f (node rule (skeletonAll parts)) = f (node rule parts))
    (ts : List Tree) :
    ((skeletonAll ts).mapM f).map List.flatten = (ts.mapM f).map List.flatten := by
  induction ts with
  | nil => rfl
  | cons t ts ih =>
    simp only [skeletonAll, List.mapM_cons]
    cases t with
    | mark s | blank s =>
      simp only [skeleton, List.nil_append, ih, hmark, hblank]
      cases ts.mapM f <;> rfl
    | token rule text | node rule parts =>
      simp only [skeleton, List.singleton_append, List.mapM_cons, hnode]
      cases f _ with
      | none => rfl
      | some first =>
        cases hs : (skeletonAll ts).mapM f <;> cases ht : ts.mapM f <;> simp_all

end Tree

open MettaSchema.Tree

/-! ## Statements of a message body -/

theorem Label.ofParts_skeletonAll (ts : List Tree) :
    Label.ofParts (skeletonAll ts) = Label.ofParts ts := by
  rw [Label.ofParts, token?_skeletonAll, Label.ofParts]

namespace Statement

theorem field?_skeletonAll (ts : List Tree) : field? (skeletonAll ts) = field? ts := by
  simp only [field?, token?_skeletonAll, Label.ofParts_skeletonAll]

theorem map?_skeletonAll (ts : List Tree) : map? (skeletonAll ts) = map? ts := by
  simp only [map?, tokens_skeletonAll, token?_skeletonAll]

theorem enumValue?_skeletonAll (rule : Rule) (parts : List Tree) :
    enumValue? (.node rule (skeletonAll parts)) = enumValue? (.node rule parts) := by
  cases rule <;> simp only [enumValue?, token?_skeletonAll]

theorem enumParts?_skeletonAll (ts : List Tree) : enumParts? (skeletonAll ts) = enumParts? ts := by
  have h := mapM_skeletonAll (fun _ => rfl) (fun _ => rfl) enumValue?_skeletonAll ts
  simp only [enumParts?, token?_skeletonAll]
  cases hs : (skeletonAll ts).mapM enumValue? <;> cases ht : ts.mapM enumValue? <;> simp_all

theorem ofTrees?_append (ts us : List Tree) :
    ofTrees? (ts ++ us) = (do
      let first ← ofTrees? ts
      let more ← ofTrees? us
      return first ++ more) := by
  induction ts with
  | nil => cases h : ofTrees? us <;> simp [ofTrees?, h]
  | cons t ts ih =>
    simp only [List.cons_append, ofTrees?, ih]
    cases ofTree? t <;> cases ofTrees? ts <;> cases ofTrees? us <;> simp

theorem ofTrees?_singleton (t : Tree) : ofTrees? [t] = ofTree? t := by
  cases h : ofTree? t <;> simp [ofTrees?, h]

mutual

theorem ofTrees?_skeleton : ∀ t : Tree, ofTrees? (skeleton t) = ofTree? t
  | .mark _ => by simp [skeleton, ofTrees?, ofTree?]
  | .blank _ => by simp [skeleton, ofTrees?, ofTree?]
  | .token _ _ => by simp [skeleton, ofTrees?, ofTree?]
  | .node rule parts => by
    rw [skeleton, ofTrees?_singleton]
    have ih := ofTrees?_skeletonAll parts
    cases rule <;> simp [ofTree?, field?_skeletonAll, map?_skeletonAll, enumParts?_skeletonAll,
      token?_skeletonAll, Label.ofParts_skeletonAll, ih]

/-- The statements of a message body are those of its skeleton. -/
theorem ofTrees?_skeletonAll : ∀ ts : List Tree, ofTrees? (skeletonAll ts) = ofTrees? ts
  | [] => rfl
  | t :: ts => by
    rw [skeletonAll, ofTrees?_append, ofTrees?_skeleton t, ofTrees?_skeletonAll ts, ofTrees?]

end

end Statement

/-! ## Statements of a file -/

theorem MethodDecl.type?_skeletonAll (ts : List Tree) : type? (skeletonAll ts) = type? ts := by
  simp only [type?, token?_skeletonAll]

theorem MethodDecl.ofTree?_skeletonAll (rule : Rule) (parts : List Tree) :
    ofTree? (.node rule (skeletonAll parts)) = ofTree? (.node rule parts) := by
  cases rule with
  | rpc =>
    simp only [ofTree?, token?_skeletonAll, parts?_skeletonAll]
    cases parts? .rpcInput parts <;> cases parts? .rpcOutput parts <;>
      simp [MethodDecl.type?_skeletonAll]
  | _ => rfl

theorem ServiceDecl.ofParts?_skeletonAll (ts : List Tree) :
    ofParts? (skeletonAll ts) = ofParts? ts := by
  have h := mapM_skeletonAll (fun _ => rfl) (fun _ => rfl) MethodDecl.ofTree?_skeletonAll ts
  simp only [ofParts?, token?_skeletonAll]
  cases hs : (skeletonAll ts).mapM MethodDecl.ofTree? <;> cases ht : ts.mapM MethodDecl.ofTree? <;>
    simp_all

namespace FileStatement

theorem ofTree?_skeletonAll (rule : Rule) (parts : List Tree) :
    ofTree? (.node rule (skeletonAll parts)) = ofTree? (.node rule parts) := by
  cases rule <;> simp only [ofTree?, token?_skeletonAll, Statement.ofTrees?_skeletonAll,
    Statement.enumParts?_skeletonAll, ServiceDecl.ofParts?_skeletonAll]

/-- The statements of a file are those of its skeleton. -/
theorem ofTrees?_skeletonAll (ts : List Tree) : ofTrees? (skeletonAll ts) = ofTrees? ts := by
  simp only [ofTrees?, parts?_skeletonAll]
  cases parts? .proto ts with
  | none => rfl
  | some parts =>
    have h := mapM_skeletonAll (fun _ => rfl) (fun _ => rfl) ofTree?_skeletonAll parts
    simp only [Option.map_some]
    cases hs : (skeletonAll parts).mapM ofTree? <;> cases ht : parts.mapM ofTree? <;> simp_all

end FileStatement

end MettaSchema
