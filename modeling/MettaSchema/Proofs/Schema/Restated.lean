import MettaSchema.Proofs.Grammar.Slots
import MettaSchema.Proofs.Import.Written

/-!
# What an edit does to the statements

An edit somewhere inside a text changes the statements that it is about, and the statements around
them only in their bodies.

* `Statement.Congruence` — a relation that a part of some statements brings to the whole.
* `Tree.Restates` — an edit that changes the statements of a block by a relation.
* `FileStatement.mapM_ofTree?_within` — the statements of a file after an edit inside it.
* `FileStatement.ofText?_edited` — the statements of the new text are those of the new trees.
-/

namespace MettaSchema

open MettaSchema.Tree

/-- A relation of statements that holds of the whole when it holds of a part. -/
structure Statement.Congruence (S : List Statement → List Statement → Prop) : Prop where
  /-- Nothing is changed. -/
  refl (ss : List Statement) : S ss ss
  /-- The change is among other statements. -/
  append {ss ss' : List Statement} (front back : List Statement) (h : S ss ss') :
    S (front ++ (ss ++ back)) (front ++ (ss' ++ back))
  /-- The change is in the body of a message. -/
  message {ss ss' : List Statement} (name : String) (h : S ss ss') :
    S [.message name ss] [.message name ss']
  /-- The change is in the body of a group. -/
  group {ss ss' : List Statement} (label : Label) (name number : String) (h : S ss ss') :
    S [.group label name number ss] [.group label name number ss']
  /-- The change is among the members of a choice. -/
  oneof {ss ss' : List Statement} (h : S ss ss') : S [.oneof ss] [.oneof ss']

theorem Statement.congruence_eq : Statement.Congruence Eq where
  refl _ := rfl
  append _ _ h := by rw [h]
  message _ h := by rw [h]
  group _ _ _ h := by rw [h]
  oneof h := by rw [h]

/-- Statements of a file of which one message is changed in its body. -/
inductive FileStatement.Restated (S : List Statement → List Statement → Prop) :
    List FileStatement → List FileStatement → Prop
  /-- Nothing is changed. -/
  | refl (xs : List FileStatement) : Restated S xs xs
  /-- The body of a message is changed. -/
  | message (front back : List FileStatement) (name : String) {body body' : List Statement}
      (h : S body body') :
      Restated S (front ++ .message name body :: back) (front ++ .message name body' :: back)

theorem FileStatement.Restated.append {S : List Statement → List Statement → Prop}
    {xs xs' : List FileStatement} (h : Restated S xs xs') (front back : List FileStatement) :
    Restated S (front ++ (xs ++ back)) (front ++ (xs' ++ back)) := by
  cases h with
  | refl => exact .refl _
  | message front' back' name h => simpa using Restated.message (front ++ front') (back' ++ back) name h

namespace Tree

/-- An edit of the parts of blocks that changes the statements by a relation. -/
structure Restates (R : Rule → List Tree → List Tree → Prop)
    (S : List Statement → List Statement → Prop) : Prop where
  /-- The relation holds of the whole when it holds of a part. -/
  congruence : Statement.Congruence S
  /-- The rule is a block. -/
  isBlock {rule : Rule} {parts parts' : List Tree} (h : R rule parts parts') : rule.isBlock = true
  /-- The tokens stay the same. -/
  tokens_eq {rule : Rule} {parts parts' : List Tree} (h : R rule parts parts') (r : Rule) :
    tokens r parts' = tokens r parts
  /-- The statements of a message body or of a choice are changed by the relation. -/
  statements {rule : Rule} {parts parts' : List Tree} (h : R rule parts parts')
    (hrule : rule = .messageBody ∨ rule = .oneofDef) {ss : List Statement}
    (hss : Statement.ofTrees? parts = some ss) :
    ∃ ss', Statement.ofTrees? parts' = some ss' ∧ S ss ss'
  /-- The values of an enum stay the same. -/
  values {parts parts' : List Tree} (h : R .enumDef parts parts') :
    Statement.enumParts? parts' = Statement.enumParts? parts
  /-- The methods of a service stay the same. -/
  methods {parts parts' : List Tree} (h : R .serviceDef parts parts') :
    ServiceDecl.ofParts? parts' = ServiceDecl.ofParts? parts

variable {R : Rule → List Tree → List Tree → Prop} {S : List Statement → List Statement → Prop}

/-- Among the values of an enum and among the methods of a service there are no blocks. -/
theorem Within.not_among (hR : ∀ {rule parts parts'}, R rule parts parts' → rule.isBlock = true)
    {site : Site} (hsite : site = .enum ∨ site = .service) {ts vs : List Tree}
    (h : Within R ts vs) : ¬ FitsAll site ts := by
  have hplain : ∀ rule, site.Allows rule → rule.isBlock = false ∧ rule.site = .detail := by
    intro rule
    rcases hsite with rfl | rfl <;> cases rule <;> decide
  intro hfits
  obtain ⟨front, rule, parts, parts', back, rfl, -, hedit⟩ := h.exists_node
  obtain ⟨hallows, hparts⟩ := fitsAll_iff.1 hfits (node rule parts) (by simp)
  obtain ⟨hblock, hdetail⟩ := hplain rule hallows
  rcases hedit with hedit | hedit
  · rw [hR hedit] at hblock
    cases hblock
  · rw [hdetail] at hparts
    exact hedit.not_detail hR hparts

theorem tokens_node (r rule : Rule) (parts front back : List Tree) :
    tokens r (front ++ node rule parts :: back) = tokens r front ++ tokens r back := by
  simp [tokens]

theorem Within.tokens_eq {ts ts' : List Tree} (h : Within R ts ts') (r : Rule) :
    tokens r ts' = tokens r ts := by
  obtain ⟨front, rule, parts, parts', back, rfl, rfl, -⟩ := h.exists_node
  rw [tokens_node, tokens_node]

end Tree

namespace Statement

theorem ofTrees?_append_eq_some {ts us : List Tree} {ss : List Statement} :
    ofTrees? (ts ++ us) = some ss
      ↔ ∃ a b, ofTrees? ts = some a ∧ ofTrees? us = some b ∧ ss = a ++ b := by
  rw [ofTrees?_append]
  cases ofTrees? ts <;> cases ofTrees? us <;> simp [eq_comm]

variable {R : Rule → List Tree → List Tree → Prop} {S : List Statement → List Statement → Prop}

/-- The statements of a rule after an edit of its parts or inside them. -/
theorem ofTree?_restated (hR : Restates R S) {rule : Rule} {parts parts' : List Tree}
    (hfits : FitsAll rule.site parts) (hedit : R rule parts parts' ∨ Within R parts parts' ∧
      ∀ {ss}, ofTrees? parts = some ss → ∃ ss', ofTrees? parts' = some ss' ∧ S ss ss')
    {ss : List Statement} (hss : ofTree? (.node rule parts) = some ss) :
    ∃ ss', ofTree? (.node rule parts') = some ss' ∧ S ss ss' := by
  have htokens (r : Rule) : tokens r parts' = tokens r parts :=
    hedit.elim (fun h => hR.tokens_eq h r) fun h => h.1.tokens_eq r
  have htoken? (r : Rule) : token? r parts' = token? r parts := by rw [token?, htokens, token?]
  have hlabel : Label.ofParts parts' = Label.ofParts parts := by
    rw [Label.ofParts, htoken?, Label.ofParts]
  have hinside (hrule : rule.isBlock = false) : Within R parts parts' ∧
      ∀ {ss}, ofTrees? parts = some ss → ∃ ss', ofTrees? parts' = some ss' ∧ S ss ss' := by
    rcases hedit with h | h
    · rw [hR.isBlock h] at hrule
      cases hrule
    · exact h
  have hbody (hrule : rule = .messageBody ∨ rule = .oneofDef) {ss} (hss : ofTrees? parts = some ss) :
      ∃ ss', ofTrees? parts' = some ss' ∧ S ss ss' :=
    hedit.elim (fun h => hR.statements h hrule hss) fun h => h.2 hss
  cases ofTree?_eq_some.1 hss with
  | field | map => exact absurd hfits ((hinside rfl).1.not_detail hR.isBlock)
  | group hname hnumber hinner =>
    obtain ⟨body', hbody', h⟩ := (hinside rfl).2 hinner
    exact ⟨_, by simp [ofTree?, htoken?, hname, hnumber, hbody', hlabel], hR.congruence.group _ _ _ h⟩
  | oneof hmembers =>
    obtain ⟨members', hmembers', h⟩ := hbody (.inr rfl) hmembers
    exact ⟨_, by simp [ofTree?, hmembers'], hR.congruence.oneof h⟩
  | message hname hinner =>
    obtain ⟨body', hbody', h⟩ := (hinside rfl).2 hinner
    exact ⟨_, by simp [ofTree?, htoken?, hname, hbody'], hR.congruence.message _ h⟩
  | enum hvalues =>
    rcases hedit with h | h
    · exact ⟨_, by simp [ofTree?, hR.values h, hvalues], hR.congruence.refl _⟩
    · exact absurd hfits (h.1.not_among hR.isBlock (.inl rfl))
  | body hinner =>
    rw [ofTree?]
    exact hbody (.inl rfl) hinner
  | other hother => exact ⟨[], ofTree?_eq_some.2 (.other hother), hR.congruence.refl []⟩

/-- The statements of a message body after an edit inside it. -/
theorem ofTrees?_within (hR : Restates R S) {ts ts' : List Tree} (h : Within R ts ts') :
    ∀ {site : Site}, FitsAll site ts → ∀ {ss}, ofTrees? ts = some ss →
      ∃ ss', ofTrees? ts' = some ss' ∧ S ss ss' := by
  -- the rule that is edited, or that the edit is inside of, is one tree among others
  have hsplit {front back parts parts' : List Tree} {rule : Rule} {ss : List Statement}
      (hss : ofTrees? (front ++ .node rule parts :: back) = some ss)
      (hnode : ∀ {ss}, ofTree? (.node rule parts) = some ss →
        ∃ ss', ofTree? (.node rule parts') = some ss' ∧ S ss ss') :
      ∃ ss', ofTrees? (front ++ .node rule parts' :: back) = some ss' ∧ S ss ss' := by
    obtain ⟨a, bc, ha, hbc, rfl⟩ := ofTrees?_append_eq_some.1 hss
    obtain ⟨b, c, hb, hc, rfl⟩ := (@ofTrees?_append_eq_some [_] _ _).1 hbc
    rw [ofTrees?_singleton] at hb
    obtain ⟨b', hb', hS⟩ := hnode hb
    refine ⟨a ++ (b' ++ c), ofTrees?_append_eq_some.2 ⟨a, b' ++ c, ha, ?_, rfl⟩,
      hR.congruence.append a c hS⟩
    exact (@ofTrees?_append_eq_some [_] _ _).2 ⟨b', c, by rwa [ofTrees?_singleton], hc, rfl⟩
  induction h with
  | here front back h =>
    intro site hfits ss hss
    obtain ⟨-, hparts⟩ := (fitsAll_append.1 hfits).2.1
    exact hsplit hss (ofTree?_restated hR hparts (.inl h))
  | inside rule front back h ih =>
    intro site hfits ss hss
    obtain ⟨-, hparts⟩ := (fitsAll_append.1 hfits).2.1
    exact hsplit hss (ofTree?_restated hR hparts (.inr ⟨h, ih hparts⟩))

end Statement

namespace FileStatement

variable {R : Rule → List Tree → List Tree → Prop} {S : List Statement → List Statement → Prop}

/-- The statements of a part of a file after an edit of its parts or inside them. -/
theorem ofTree?_restated (hR : Restates R S) {rule : Rule} {parts parts' : List Tree}
    (hfits : FitsAll rule.site parts) (hedit : R rule parts parts' ∨ Within R parts parts')
    {xs : List FileStatement} (hxs : ofTree? (.node rule parts) = some xs) :
    ∃ xs', ofTree? (.node rule parts') = some xs' ∧ Restated S xs xs' := by
  have htoken? (r : Rule) : token? r parts' = token? r parts := by
    have htokens : tokens r parts' = tokens r parts :=
      hedit.elim (fun h => hR.tokens_eq h r) fun h => h.tokens_eq r
    rw [token?, htokens, token?]
  have hinside (hrule : rule.isBlock = false) : Within R parts parts' := by
    rcases hedit with h | h
    · rw [hR.isBlock h] at hrule
      cases hrule
    · exact h
  cases ofTree?_eq_some.1 hxs with
  | dialect | edition | imports | package =>
    exact absurd hfits ((hinside rfl).not_detail hR.isBlock)
  | message hname hbody =>
    obtain ⟨body', hbody', h⟩ := Statement.ofTrees?_within hR (hinside rfl) hfits hbody
    exact ⟨_, by simp [ofTree?, htoken?, hname, hbody'], .message [] [] _ h⟩
  | enum hvalues =>
    rcases hedit with h | h
    · exact ⟨_, by simp [ofTree?, hR.values h, hvalues], .refl _⟩
    · exact absurd hfits (h.not_among hR.isBlock (.inl rfl))
  | service hservice =>
    rcases hedit with h | h
    · exact ⟨_, by simp [ofTree?, hR.methods h, hservice], .refl _⟩
    · exact absurd hfits (h.not_among hR.isBlock (.inr rfl))
  | other hother => exact ⟨[], ofTree?_eq_some.2 (.other hother), .refl []⟩

/-- The statements of a file after an edit inside it. -/
theorem mapM_ofTree?_within (hR : Restates R S) {parts parts' : List Tree}
    (h : Within R parts parts') (hfits : FitsAll .file parts) {xss : List (List FileStatement)}
    (hxss : parts.mapM ofTree? = some xss) :
    ∃ xss', parts'.mapM ofTree? = some xss' ∧ Restated S xss.flatten xss'.flatten := by
  obtain ⟨front, rule, inner, inner', back, rfl, rfl, hedit⟩ := h.exists_node
  obtain ⟨-, hinner⟩ := (fitsAll_append.1 hfits).2.1
  simp only [List.mapM_append, List.mapM_cons, Option.bind_eq_bind, Option.bind_eq_some_iff,
    Option.pure_def, Option.some.injEq] at hxss
  obtain ⟨a, ha, bc, ⟨b, hb, c, hc, rfl⟩, rfl⟩ := hxss
  obtain ⟨b', hb', hrestated⟩ := ofTree?_restated hR hinner hedit hb
  refine ⟨a ++ b' :: c, by simp [ha, hb', hc], ?_⟩
  simpa using hrestated.append a.flatten c.flatten

/-- The statements of some parts of a file and of those behind them. -/
theorem mapM_ofTree?_append {ts us : List Tree} {xs : List FileStatement} :
    ((ts ++ us).mapM ofTree?).map List.flatten = some xs
      ↔ ∃ a b, (ts.mapM ofTree?).map List.flatten = some a
        ∧ (us.mapM ofTree?).map List.flatten = some b ∧ xs = a ++ b := by
  rw [List.mapM_append]
  cases ts.mapM ofTree? <;> cases us.mapM ofTree? <;> simp [eq_comm]

theorem mapM_ofTree?_ofBlanks (s : List Char) :
    ((ofBlanks s).mapM ofTree?).map List.flatten = some [] := by
  cases s <;> rfl

theorem ofTrees?_node (parts : List Tree) :
    ofTrees? [.node .proto parts] = (parts.mapM ofTree?).map List.flatten := by
  cases h : parts.mapM ofTree? <;> simp [ofTrees?, parts?, h]

theorem ofText?_of_parse {source : String} {trees : List Tree}
    (h : Proto.parse Proto.file source.toList = .ok trees) : ofText? source = ofTrees? trees := by
  rw [ofText?, h]

/-- The statements of a text after an edit are those of the edited trees. -/
theorem ofText?_edited {tame : Prop} (hR : Rereads tame R) {source : List Char}
    {trees trees' : List Tree} (h : Proto.parse Proto.file source = .ok trees)
    (hval : tame → ∀ v ∈ valuesAll trees, Scan.Braced v) (hedit : Within R trees trees') :
    ofText? (String.ofList (textAll trees')) = ofTrees? trees' := by
  obtain ⟨trees'', h', hskeleton⟩ := Proto.parse_file_edited hR h hval hedit
  rw [@ofText?_of_parse _ trees'' (by rw [String.toList_ofList, h']),
    ← ofTrees?_skeletonAll, hskeleton, ofTrees?_skeletonAll]

end FileStatement

end MettaSchema
