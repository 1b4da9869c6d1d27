import MettaSchema.Proofs.Schema.Restated

/-!
# Values of options

What stands in the value of an option says nothing about the schema: an edit inside such values
leaves the statements of a file as they are.

* `Statement.ofTrees?_constant` — the statements of a message body are the same.
* `FileStatement.ofTrees?_constant` — and so are the statements of a file.
-/

namespace MettaSchema

open MettaSchema.Tree

variable {R : Rule → List Tree → List Tree → Prop} {ts ts' : List Tree}

namespace Tree

theorem Within.token?_eq (h : Within R ts ts') (r : Rule) : token? r ts' = token? r ts := by
  rw [token?, h.tokens_eq, token?]

/-- What is made from each tree stays the same if it does where the edit is. -/
theorem Within.mapM_eq {α : Type} {f : Tree → Option α} (h : Within R ts ts')
    (hf : ∀ {rule parts parts'}, R rule parts parts' ∨ Within R parts parts' →
      f (node rule parts') = f (node rule parts)) : ts'.mapM f = ts.mapM f := by
  obtain ⟨front, rule, parts, parts', back, rfl, rfl, hedit⟩ := h.exists_node
  simp only [List.mapM_append, List.mapM_cons, hf hedit]

/-- What is made from the first rule of a name stays the same if it does where the edit is. -/
theorem Within.parts?_bind_eq {α : Type} {f : List Tree → Option α} {r : Rule}
    (h : Within R ts ts') (hf : ∀ {parts parts'}, R r parts parts' ∨ Within R parts parts' →
      f parts' = f parts) : (parts? r ts').bind f = (parts? r ts).bind f := by
  obtain ⟨front, rule, parts, parts', back, rfl, rfl, hedit⟩ := h.exists_node
  simp only [parts?, List.findSome?_append, List.findSome?_cons]
  by_cases hrule : rule = r
  · subst hrule
    cases List.findSome? _ front <;> simp [hf hedit]
  · simp [hrule]

end Tree

variable (hR : ∀ ⦃rule parts parts'⦄, R rule parts parts' → rule = .constant)

include hR

/-- Where the rule is not a value, the edit is further inside. -/
theorem Tree.within_of_ne {rule : Rule} (h : R rule ts ts' ∨ Within R ts ts')
    (hrule : rule ≠ .constant) : Within R ts ts' :=
  h.elim (fun h => absurd (hR h) hrule) id

namespace Statement

theorem enumParts?_constant (h : Within R ts ts') : enumParts? ts' = enumParts? ts := by
  have hvalues : ts'.mapM enumValue? = ts.mapM enumValue? := by
    refine h.mapM_eq fun {rule parts parts'} hedit => ?_
    cases rule with
    | enumValue =>
      have hinside := within_of_ne hR hedit (by decide)
      simp only [enumValue?, hinside.token?_eq]
    | _ => rfl
  simp only [enumParts?, h.token?_eq, hvalues]

/-- The statements of a message body after an edit inside the values of options. -/
theorem ofTrees?_constant (h : Within R ts ts') : ofTrees? ts' = ofTrees? ts := by
  -- one tree stands for the same statements as before, and the trees around it are not edited
  have hsplit {rule : Rule} {parts parts' : List Tree} (front back : List Tree)
      (hnode : ofTree? (.node rule parts') = ofTree? (.node rule parts)) :
      ofTrees? (front ++ .node rule parts' :: back)
        = ofTrees? (front ++ .node rule parts :: back) := by
    simp only [ofTrees?_append, ofTrees?, hnode]
  induction h with
  | here front back h =>
    obtain rfl := hR h
    exact hsplit front back rfl
  | inside rule front back h ih =>
    refine hsplit front back ?_
    have htokens := h.tokens_eq
    cases rule <;>
      simp only [ofTree?, field?, map?, Label.ofParts, token?, htokens, ih,
        enumParts?_constant hR h]

end Statement

/-- The methods of a service after an edit inside the values of options. -/
theorem ServiceDecl.ofParts?_constant (h : Within R ts ts') :
    ServiceDecl.ofParts? ts' = ServiceDecl.ofParts? ts := by
  have htype {ts ts' : List Tree} (h : Within R ts ts') :
      MethodDecl.type? ts' = MethodDecl.type? ts := by
    simp only [MethodDecl.type?, h.token?_eq]
  have hmethods : ts'.mapM MethodDecl.ofTree? = ts.mapM MethodDecl.ofTree? := by
    refine h.mapM_eq fun {rule parts parts'} hedit => ?_
    cases rule with
    | rpc =>
      have hinside := within_of_ne hR hedit (by decide)
      have hinput : (parts? .rpcInput parts').bind MethodDecl.type?
          = (parts? .rpcInput parts).bind MethodDecl.type? :=
        hinside.parts?_bind_eq fun h => htype (within_of_ne hR h (by decide))
      have houtput : (parts? .rpcOutput parts').bind MethodDecl.type?
          = (parts? .rpcOutput parts).bind MethodDecl.type? :=
        hinside.parts?_bind_eq fun h => htype (within_of_ne hR h (by decide))
      simp only [MethodDecl.ofTree?, hinside.token?_eq, Option.bind_eq_bind, ← Option.bind_assoc,
        hinput, houtput]
    | _ => rfl
  simp only [ServiceDecl.ofParts?, h.token?_eq, hmethods]

/-- The statements of a file after an edit inside the values of options. -/
theorem FileStatement.ofTrees?_constant (h : Within R ts ts') :
    FileStatement.ofTrees? ts' = FileStatement.ofTrees? ts := by
  have hstatement {rule : Rule} {parts parts' : List Tree}
      (hedit : R rule parts parts' ∨ Within R parts parts') :
      FileStatement.ofTree? (.node rule parts') = FileStatement.ofTree? (.node rule parts) := by
    by_cases hrule : rule = .constant
    · subst hrule
      rfl
    · have hinside := within_of_ne hR hedit hrule
      cases rule <;>
        simp only [ofTree?, hinside.token?_eq, Statement.ofTrees?_constant hR hinside,
          Statement.enumParts?_constant hR hinside, ServiceDecl.ofParts?_constant hR hinside]
  exact h.parts?_bind_eq fun hedit => by
    rw [(within_of_ne hR hedit (by decide)).mapM_eq hstatement]

end MettaSchema
