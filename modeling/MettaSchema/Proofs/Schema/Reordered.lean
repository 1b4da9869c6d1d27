import MettaSchema.Proofs.Schema.Permuted
import MettaSchema.Proofs.Schema.Restated

/-!
# The order of statements

Statements of a message body in another order declare the same in another order, and so do the
members of a choice without the choice.  The same holds of the statements of a file, apart from the
line that names the dialect and from a second package.

* `Statement.Reordered` — statements that declare the same in another order.
* `Statement.congruence_reordered` — so does what they are a part of.
* `FileDecl.merge` — a file and what is added to it.
* `FileDecl.merge_comm` — in which order something is added does not matter.
* `FileStatement.Reordered` — statements of a file that add the same in another order.
* `FileStatement.Reordered.of_perm` — so do statements with at most one package in any order.
-/

namespace MettaSchema

/-! ## Bodies -/

namespace Body.Permuted

theorem refl (body : Body) : body.Permuted body :=
  ⟨.refl _, .refl _, .refl _⟩

theorem trans {a b c : Body} (h : a.Permuted b) (h' : b.Permuted c) : a.Permuted c :=
  ⟨h.fields.trans h'.fields, h.messages.trans h'.messages, h.enums.trans h'.enums⟩

theorem append {a a' b b' : Body} (h : a.Permuted a') (h' : b.Permuted b') :
    (a ++ b).Permuted (a' ++ b') :=
  ⟨h.fields.append h'.fields, h.messages.append h'.messages, h.enums.append h'.enums⟩

theorem append_comm (a b : Body) : (a ++ b).Permuted (b ++ a) :=
  ⟨List.perm_append_comm, .of_perm List.perm_append_comm, List.perm_append_comm⟩

/-- Messages with permuted bodies. -/
theorem toMessage {body body' : Body} (h : body.Permuted body') (name : String) :
    MessageDecl.Permuted [body.toMessage name] [body'.toMessage name] :=
  .cons h.fields h.messages h.enums .nil

end Body.Permuted

theorem Body.append_empty (body : Body) : body ++ Body.empty = body := by
  simp [Body.append_eq, Body.empty]

namespace Statement

theorem declareAll_append_eq_ok {ss ts : List Statement} {body : Body} :
    declareAll (ss ++ ts) = .ok body
      ↔ ∃ a b, declareAll ss = .ok a ∧ declareAll ts = .ok b ∧ body = a ++ b := by
  constructor
  · intro h
    induction ss generalizing body with
    | nil => exact ⟨.empty, body, rfl, h, rfl⟩
    | cons s ss ih =>
      simp only [List.cons_append, declareAll, bind_eq_ok, pure_eq_ok] at h
      obtain ⟨first, hfirst, more, hmore, rfl⟩ := h
      obtain ⟨a, b, ha, hb, rfl⟩ := ih hmore
      refine ⟨first ++ a, b, ?_, hb, by simp only [Body.append_eq, List.append_assoc]⟩
      simp only [declareAll, bind_eq_ok, pure_eq_ok]
      exact ⟨first, hfirst, a, ha, rfl⟩
  · rintro ⟨a, b, ha, hb, rfl⟩
    exact declareAll_append ha hb

theorem declareAll_singleton (s : Statement) : declareAll [s] = s.declare := by
  cases h : s.declare with
  | error e => simp [declareAll, h, bind, Except.bind]
  | ok body => simp [declareAll, h, bind, Except.bind, pure, Except.pure, Body.append_empty]

/-- The second statements declare the same as the first in another order. -/
def Reordered (ss ss' : List Statement) : Prop :=
  ∀ body, declareAll ss = .ok body → ∃ body', declareAll ss' = .ok body' ∧ body.Permuted body'

namespace Reordered

theorem refl (ss : List Statement) : Reordered ss ss := fun body h => ⟨body, h, .refl body⟩

theorem trans {ss₁ ss₂ ss₃ : List Statement} (h : Reordered ss₁ ss₂) (h' : Reordered ss₂ ss₃) :
    Reordered ss₁ ss₃ := by
  intro body hbody
  obtain ⟨body₂, hbody₂, hpermuted⟩ := h body hbody
  obtain ⟨body₃, hbody₃, hpermuted'⟩ := h' body₂ hbody₂
  exact ⟨body₃, hbody₃, hpermuted.trans hpermuted'⟩

/-- Around the statements there may be others. -/
theorem append {ss ss' : List Statement} (front back : List Statement) (h : Reordered ss ss') :
    Reordered (front ++ (ss ++ back)) (front ++ (ss' ++ back)) := by
  intro body hbody
  obtain ⟨a, bc, ha, hbc, rfl⟩ := declareAll_append_eq_ok.1 hbody
  obtain ⟨b, c, hb, hc, rfl⟩ := declareAll_append_eq_ok.1 hbc
  obtain ⟨b', hb', hpermuted⟩ := h b hb
  exact ⟨a ++ (b' ++ c), declareAll_append ha (declareAll_append hb' hc),
    (Body.Permuted.refl a).append (hpermuted.append (.refl c))⟩

/-- Two statements can change places. -/
theorem swap (s s' : Statement) : Reordered [s, s'] [s', s] := by
  intro body hbody
  obtain ⟨a, b, ha, hb, rfl⟩ := (@declareAll_append_eq_ok [s] [s'] body).1 hbody
  exact ⟨b ++ a, declareAll_append hb ha, .append_comm a b⟩

theorem of_perm {ss ss' : List Statement} (h : ss.Perm ss') : Reordered ss ss' := by
  induction h with
  | nil => exact refl []
  | @cons s ss ss' _ ih => simpa using ih.append [s] []
  | swap s s' ss => exact (swap s' s).append [] ss
  | trans _ _ ih₁ ih₂ => exact ih₁.trans ih₂

/-- What a choice declares is what its members declare. -/
theorem oneof_members (members : List Statement) : Reordered [.oneof members] members := by
  intro body hbody
  rw [declareAll_singleton, declare] at hbody
  exact ⟨body, hbody, .refl body⟩

theorem members_oneof (members : List Statement) : Reordered members [.oneof members] := by
  intro body hbody
  refine ⟨body, ?_, .refl body⟩
  rwa [declareAll_singleton, declare]

end Reordered

/-- What a statement declares depends on the order of the statements in its body only by the order
of what is declared. -/
theorem congruence_reordered : Statement.Congruence Reordered where
  refl := .refl
  append := .append
  message name h := by
    intro body hbody
    simp only [declareAll_singleton, declare, bind_eq_ok, pure_eq_ok] at hbody ⊢
    obtain ⟨inner, hinner, rfl⟩ := hbody
    obtain ⟨inner', hinner', hpermuted⟩ := h inner hinner
    exact ⟨_, ⟨inner', hinner', rfl⟩, .refl _, hpermuted.toMessage name, .refl _⟩
  group label name number h := by
    intro body hbody
    simp only [declareAll_singleton, declare, bind_eq_ok, pure_eq_ok] at hbody ⊢
    obtain ⟨n, hn, inner, hinner, rfl⟩ := hbody
    obtain ⟨inner', hinner', hpermuted⟩ := h inner hinner
    exact ⟨_, ⟨n, hn, inner', hinner', rfl⟩, .refl _, hpermuted.toMessage name, .refl _⟩
  oneof {ss ss'} h :=
    ((Reordered.oneof_members ss).trans h).trans (.members_oneof ss')

end Statement

/-! ## Files -/

namespace FileDecl

theorem Permuted.refl (file : FileDecl) : file.Permuted file :=
  ⟨rfl, rfl, rfl, .refl _, .refl _, .refl _, .refl _⟩

theorem Permuted.trans {file₁ file₂ file₃ : FileDecl} (h : file₁.Permuted file₂)
    (h' : file₂.Permuted file₃) : file₁.Permuted file₃ where
  name_eq := h'.name_eq.trans h.name_eq
  dialect_eq := h'.dialect_eq.trans h.dialect_eq
  package_eq := h'.package_eq.trans h.package_eq
  imports := h.imports.trans h'.imports
  messages := h.messages.trans h'.messages
  enums := h.enums.trans h'.enums
  services := h.services.trans h'.services

/-- A file and what is added to it. -/
def merge (file more : FileDecl) : FileDecl where
  name := file.name
  dialect := file.dialect
  package := more.package.or file.package
  imports := file.imports ++ more.imports
  messages := file.messages ++ more.messages
  enums := file.enums ++ more.enums
  services := file.services ++ more.services

theorem Permuted.merge {file file' more more' : FileDecl} (h : file.Permuted file')
    (hmore : more.Permuted more') : (file.merge more).Permuted (file'.merge more') where
  name_eq := h.name_eq
  dialect_eq := h.dialect_eq
  package_eq := by simp only [FileDecl.merge, h.package_eq, hmore.package_eq]
  imports := h.imports.append hmore.imports
  messages := h.messages.append hmore.messages
  enums := h.enums.append hmore.enums
  services := h.services.append hmore.services

/-- In which order something is added to a file does not matter, provided that only one of both
names a package. -/
theorem merge_comm (file : FileDecl) {more more' : FileDecl}
    (h : more.package = none ∨ more'.package = none) :
    ((file.merge more).merge more').Permuted ((file.merge more').merge more) := by
  have hcomm {α : Type} (xs ys zs : List α) : (xs ++ ys ++ zs).Perm (xs ++ zs ++ ys) := by
    rw [List.append_assoc, List.append_assoc]
    exact List.perm_append_comm.append_left xs
  refine ⟨rfl, rfl, ?_, hcomm _ _ _, .of_perm (hcomm _ _ _), hcomm _ _ _, hcomm _ _ _⟩
  rcases h with h | h <;> simp [merge, h]

end FileDecl

namespace FileStatement

/-- Whether the statement names the dialect. -/
def isDialect : FileStatement → Bool
  | dialect _ => true
  | _ => false

/-- Whether the statement names a package. -/
def isPackage : FileStatement → Bool
  | package _ => true
  | _ => false

end FileStatement

namespace FileDecl

/-- What a statement adds does not depend on the file that it is added to. -/
theorem add_eq_merge (file : FileDecl) {s : FileStatement} (hs : s.isDialect = false) :
    file.add s = ((empty "").add s).map file.merge := by
  cases s with
  | dialect => cases hs
  | message name body =>
    cases h : Statement.declareAll body <;>
      simp [add, h, Except.map, merge, empty, bind, Except.bind, pure, Except.pure]
  | enum name values =>
    cases h : EnumDecl.ofStatement name values <;>
      simp [add, h, Except.map, merge, empty, bind, Except.bind, pure, Except.pure]
  | _ => simp [add, Except.map, merge, empty]

theorem add_eq_ok {file file' : FileDecl} {s : FileStatement} (hs : s.isDialect = false) :
    file.add s = .ok file' ↔ ∃ more, (empty "").add s = .ok more ∧ file.merge more = file' := by
  rw [add_eq_merge file hs]
  cases (empty "").add s <;> simp [Except.map]

/-- Only a package statement adds a package. -/
theorem package_add {more : FileDecl} {s : FileStatement} (hs : s.isPackage = false)
    (h : (empty "").add s = .ok more) : more.package = none := by
  cases added_of_add h with
  | package => cases hs
  | _ => rfl

/-- A statement adds the same to a file in another order. -/
theorem Permuted.add {file file' added : FileDecl} (h : file.Permuted file') {s : FileStatement}
    (hadd : file.add s = .ok added) :
    ∃ added', file'.add s = .ok added' ∧ added.Permuted added' := by
  cases hs : s.isDialect with
  | false =>
    obtain ⟨more, hmore, rfl⟩ := (add_eq_ok hs).1 hadd
    exact ⟨_, (add_eq_ok hs).2 ⟨more, hmore, rfl⟩, h.merge (.refl more)⟩
  | true =>
    cases added_of_add hadd with
    | @dialect literal dialect hdialect =>
      exact ⟨{ file' with dialect }, by simp [FileDecl.add, hdialect], h.name_eq, rfl, h.package_eq,
        h.imports, h.messages, h.enums, h.services⟩
    | _ => cases hs

/-- So do statements one after another. -/
theorem Permuted.foldlM {statements : List FileStatement} :
    ∀ {file file' added : FileDecl}, file.Permuted file' →
      statements.foldlM FileDecl.add file = .ok added →
      ∃ added', statements.foldlM FileDecl.add file' = .ok added' ∧ added.Permuted added' := by
  induction statements with
  | nil =>
    intro file file' added h hadded
    cases hadded
    exact ⟨file', rfl, h⟩
  | cons s statements ih =>
    intro file file' added h hadded
    rw [List.foldlM_cons, bind_eq_ok] at hadded
    obtain ⟨next, hnext, hadded⟩ := hadded
    obtain ⟨next', hnext', hpermuted⟩ := h.add hnext
    obtain ⟨added', hadded', hpermuted'⟩ := ih hpermuted hadded
    refine ⟨added', ?_, hpermuted'⟩
    rw [List.foldlM_cons, bind_eq_ok]
    exact ⟨next', hnext', hadded'⟩

end FileDecl

namespace FileStatement

/-- The second statements add the same to a file as the first, in another order. -/
def Reordered (xs xs' : List FileStatement) : Prop :=
  ∀ file added, xs.foldlM FileDecl.add file = .ok added →
    ∃ added', xs'.foldlM FileDecl.add file = .ok added' ∧ added.Permuted added'

namespace Reordered

theorem refl (xs : List FileStatement) : Reordered xs xs :=
  fun _ added h => ⟨added, h, .refl added⟩

theorem trans {xs₁ xs₂ xs₃ : List FileStatement} (h : Reordered xs₁ xs₂) (h' : Reordered xs₂ xs₃) :
    Reordered xs₁ xs₃ := by
  intro file added hadded
  obtain ⟨added₂, hadded₂, hpermuted⟩ := h file added hadded
  obtain ⟨added₃, hadded₃, hpermuted'⟩ := h' file added₂ hadded₂
  exact ⟨added₃, hadded₃, hpermuted.trans hpermuted'⟩

/-- Around the statements there may be others. -/
theorem append {xs xs' : List FileStatement} (front back : List FileStatement)
    (h : Reordered xs xs') : Reordered (front ++ (xs ++ back)) (front ++ (xs' ++ back)) := by
  intro file added hadded
  simp only [List.foldlM_append, bind_eq_ok] at hadded ⊢
  obtain ⟨first, hfirst, second, hsecond, hadded⟩ := hadded
  obtain ⟨second', hsecond', hpermuted⟩ := h first second hsecond
  obtain ⟨added', hadded', hpermuted'⟩ := hpermuted.foldlM hadded
  exact ⟨added', ⟨first, hfirst, second', hsecond', hadded'⟩, hpermuted'⟩

/-- A message can be changed in its body. -/
theorem message (name : String) {body body' : List Statement} (h : Statement.Reordered body body') :
    Reordered [.message name body] [.message name body'] := by
  intro file added hadded
  simp only [List.foldlM_cons, List.foldlM_nil, bind_pure, FileDecl.add, bind_eq_ok,
    pure_eq_ok] at hadded ⊢
  obtain ⟨inner, hinner, rfl⟩ := hadded
  obtain ⟨inner', hinner', hpermuted⟩ := h inner hinner
  exact ⟨_, ⟨inner', hinner', rfl⟩, rfl, rfl, rfl, .refl _,
    (hpermuted.toMessage name).append_left _, .refl _, .refl _⟩

theorem of_restated {xs xs' : List FileStatement} (h : Restated Statement.Reordered xs xs') :
    Reordered xs xs' := by
  cases h with
  | refl => exact refl xs
  | message front back name h => exact (message name h).append front back

/-- Two statements can change places unless one names the dialect or both a package. -/
theorem swap {s s' : FileStatement} (hs : s.isDialect = false) (hs' : s'.isDialect = false)
    (hpackage : s.isPackage = false ∨ s'.isPackage = false) : Reordered [s, s'] [s', s] := by
  intro file added hadded
  simp only [List.foldlM_cons, List.foldlM_nil, bind_pure, bind_eq_ok] at hadded ⊢
  obtain ⟨next, hnext, hadded⟩ := hadded
  obtain ⟨more, hmore, rfl⟩ := (FileDecl.add_eq_ok hs).1 hnext
  obtain ⟨more', hmore', rfl⟩ := (FileDecl.add_eq_ok hs').1 hadded
  have hnone : more.package = none ∨ more'.package = none :=
    hpackage.imp (fun h => FileDecl.package_add h hmore) fun h => FileDecl.package_add h hmore'
  exact ⟨_, ⟨file.merge more', (FileDecl.add_eq_ok hs').2 ⟨more', hmore', rfl⟩,
    (FileDecl.add_eq_ok hs).2 ⟨more, hmore, rfl⟩⟩, file.merge_comm hnone⟩

/-- Statements with at most one package among them can stand in any order. -/
theorem of_perm {xs xs' : List FileStatement} (h : xs.Perm xs') :
    (∀ s ∈ xs, s.isDialect = false) → xs.countP isPackage ≤ 1 → Reordered xs xs' := by
  induction h with
  | nil => exact fun _ _ => refl []
  | @cons s xs xs' _ ih =>
    intro hplain hcount
    have hrest : xs.countP isPackage ≤ 1 := (List.sublist_cons_self s xs).countP_le.trans hcount
    simpa using (ih (fun s hs => hplain s (by simp [hs])) hrest).append [s] []
  | swap s s' xs =>
    intro hplain hcount
    refine (swap (hplain s' (by simp)) (hplain s (by simp)) ?_).append [] xs
    cases hs : s.isPackage <;> cases hs' : s'.isPackage <;> simp_all
  | trans hperm _ ih₁ ih₂ =>
    intro hplain hcount
    refine (ih₁ hplain hcount).trans (ih₂ (fun s hs => hplain s (hperm.mem_iff.2 hs)) ?_)
    rwa [← hperm.countP_eq]

end Reordered

end FileStatement

end MettaSchema
