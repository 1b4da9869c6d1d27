import MettaSchema.Proofs.Grammar.Leaves
import MettaSchema.Proofs.Grammar.Sites
import MettaSchema.Proofs.Grammar.Skeleton

/-!
# The parts of a rule

A field has a type, a name and a number, a method takes something and returns something, and none
of them is there twice, whatever optional parts stand in between.  How often a part occurs can be
told from the phrase of the rule.

* `Constituent`, `Rule.parts` — the parts that cannot be missing, and how many there are of each.
* `Tree.nodesAll` — the composite rules of trees, at any depth.
* `Phrase.count?` — how often a part occurs in what is read as a phrase, if that is fixed.
* `Proto.Reads.count` — so often it does occur.
* `Proto.Reads.complete` — every composite rule that is read has its parts.
* `Proto.parse_file_complete`, `Proto.parse_file_closed` — so it is in an accepted file, where
  string literals are complete, too.
-/

namespace MettaSchema

/-! ## Parts -/

/-- Something that can stand directly inside a composite rule. -/
inductive Constituent where
  /-- A token. -/
  | token (rule : Rule)
  /-- A composite rule. -/
  | node (rule : Rule)
  deriving DecidableEq, Repr

/-- The parts that cannot be missing in a rule, and how many there are of each. -/
def Rule.parts : Rule → List (Constituent × Nat)
  | field => [(.token .typeName, 1), (.token .ident, 1), (.token .intLit, 1)]
  | mapField => [(.token .typeName, 2), (.token .ident, 1), (.token .intLit, 1)]
  | groupField => [(.token .ident, 1), (.token .intLit, 1), (.node .messageBody, 1)]
  | enumValue => [(.token .ident, 1), (.token .intLit, 1)]
  | messageDef => [(.token .ident, 1), (.node .messageBody, 1)]
  | enumDef | serviceDef | oneofDef => [(.token .ident, 1)]
  | rpc => [(.token .ident, 1), (.node .rpcInput, 1), (.node .rpcOutput, 1)]
  | rpcInput | rpcOutput => [(.token .typeName, 1)]
  | syntaxLine | editionLine | importLine => [(.token .strLit, 1)]
  | packageLine => [(.token .fullIdent, 1)]
  | _ => []

namespace Tree

/-- The parts of all composite rules of a name among some trees. -/
def partsAll (rule : Rule) (trees : List Tree) : List (List Tree) :=
  trees.filterMap fun
    | node r parts => if r = rule then some parts else none
    | _ => none

@[simp] theorem partsAll_append (rule : Rule) (ts us : List Tree) :
    partsAll rule (ts ++ us) = partsAll rule ts ++ partsAll rule us :=
  List.filterMap_append

@[simp] theorem tokens_ofBlanks (rule : Rule) (s : List Char) : tokens rule (ofBlanks s) = [] := by
  cases s <;> rfl

@[simp] theorem partsAll_ofBlanks (rule : Rule) (s : List Char) :
    partsAll rule (ofBlanks s) = [] := by
  cases s <;> rfl

theorem parts?_eq_head? (rule : Rule) (trees : List Tree) :
    parts? rule trees = (partsAll rule trees).head? :=
  List.head?_filterMap.symm

theorem mem_partsAll {rule : Rule} {parts trees : List Tree} :
    parts ∈ partsAll rule trees ↔ node rule parts ∈ trees := by
  rw [partsAll, List.mem_filterMap]
  constructor
  · rintro ⟨t, ht, hparts⟩
    cases t with
    | node r ps =>
      simp only [Option.ite_none_right_eq_some, Option.some.injEq] at hparts
      obtain ⟨rfl, rfl⟩ := hparts
      exact ht
    | _ => cases hparts
  · exact fun h => ⟨_, h, by simp⟩

mutual

/-- The composite rules of a tree, at any depth, with their parts. -/
def nodes : Tree → List (Rule × List Tree)
  | node rule parts => (rule, parts) :: nodesAll parts
  | _ => []

/-- The composite rules of a list of trees, at any depth, with their parts. -/
def nodesAll : List Tree → List (Rule × List Tree)
  | [] => []
  | t :: rest => nodes t ++ nodesAll rest

end

@[simp] theorem nodesAll_append (ts us : List Tree) :
    nodesAll (ts ++ us) = nodesAll ts ++ nodesAll us := by
  induction ts with
  | nil => rfl
  | cons t ts ih => simp [nodesAll, ih]

@[simp] theorem nodesAll_ofBlanks (s : List Char) : nodesAll (ofBlanks s) = [] := by
  cases s <;> rfl

theorem mem_nodesAll {n : Rule × List Tree} {ts : List Tree} :
    n ∈ nodesAll ts ↔ ∃ t ∈ ts, n ∈ t.nodes := by
  induction ts with
  | nil => simp [nodesAll]
  | cons t ts ih => simp [nodesAll, ih]

end Tree

/-- How often a part occurs among some trees. -/
def Constituent.count : Constituent → List Tree → Nat
  | token rule, trees => (Tree.tokens rule trees).length
  | node rule, trees => (Tree.partsAll rule trees).length

@[simp] theorem Constituent.count_append (part : Constituent) (ts us : List Tree) :
    part.count (ts ++ us) = part.count ts + part.count us := by
  cases part <;> simp [count, Tree.tokens_append]

@[simp] theorem Constituent.count_ofBlanks (part : Constituent) (s : List Char) :
    part.count (Tree.ofBlanks s) = 0 := by
  cases part <;> simp [count]

@[simp] theorem Constituent.count_nil (part : Constituent) : part.count [] = 0 := by
  cases part <;> rfl

theorem Constituent.count_token (part : Constituent) (rule : Rule) (text : List Char) :
    part.count [.token rule text] = if part = .token rule then 1 else 0 := by
  cases part with
  | token r => by_cases h : rule = r <;> simp [count, Tree.tokens, h, eq_comm]
  | node r => rfl

theorem Constituent.count_node (part : Constituent) (rule : Rule) (parts : List Tree) :
    part.count [.node rule parts] = if part = .node rule then 1 else 0 := by
  cases part with
  | token r => rfl
  | node r => by_cases h : rule = r <;> simp [count, Tree.partsAll, h, eq_comm]

/-- A composite rule has the parts that cannot be missing, and no more of them. -/
def Tree.Complete (n : Rule × List Tree) : Prop :=
  ∀ part ∈ n.1.parts, part.1.count n.2 = part.2

/-! ## Phrases -/

namespace Phrase

/-- How often a part occurs in what is read as the phrase, if the phrase fixes that. -/
def count? (part : Constituent) : Phrase → Option Nat
  | nothing => some 0
  | mark _ => some 0
  | token rule _ => some (if part = .token rule then 1 else 0)
  | node rule _ => some (if part = .node rule then 1 else 0)
  | seq p q => (p.count? part).bind fun m => (q.count? part).map (m + ·)
  | alt p q => if p.count? part = q.count? part then p.count? part else none
  | opt p => if p.count? part = some 0 then some 0 else none
  | star p => if p.count? part = some 0 then some 0 else none
  | body => some (if part = .node .messageBody then 1 else 0)

/-- Every composite rule in the phrase is spelt out with the parts that it cannot miss. -/
def Complete : Phrase → Prop
  | node rule p => (∀ part ∈ rule.parts, p.count? part.1 = some part.2) ∧ p.Complete
  | seq p q => p.Complete ∧ q.Complete
  | alt p q => p.Complete ∧ q.Complete
  | opt p => p.Complete
  | star p => p.Complete
  | _ => True

instance decidableComplete : (p : Phrase) → Decidable p.Complete
  | nothing => inferInstanceAs (Decidable True)
  | mark _ => inferInstanceAs (Decidable True)
  | token _ _ => inferInstanceAs (Decidable True)
  | body => inferInstanceAs (Decidable True)
  | node _ p =>
    have := decidableComplete p
    inferInstanceAs (Decidable (_ ∧ _))
  | seq p q | alt p q =>
    have := decidableComplete p
    have := decidableComplete q
    inferInstanceAs (Decidable (_ ∧ _))
  | opt p | star p => decidableComplete p

end Phrase

namespace Proto

theorem complete_messageBody : messageBody.Complete := by decide

theorem complete_file : file.Complete := by decide

/-- A part occurs as often as the phrase says.  What is repeated has to be without it. -/
theorem Reads.count {further : Bool} {p : Phrase} {s : List Char}
    {o : Option (List Tree × List Char)} (h : Reads further p s o) (part : Constituent) :
    ∀ trees r n, o = some (trees, r) → p.count? part = some n → (further = true → n = 0) →
      part.count trees = n := by
  induction h with
  | nothing s =>
    rintro trees r n ⟨⟩ hn -
    cases hn
    exact part.count_nil
  | mark_some hs =>
    rintro trees r n ⟨⟩ hn -
    cases hn
    cases part <;> rfl
  | token_some =>
    rintro trees r n ⟨⟩ hn -
    rw [← Option.some.inj hn, Constituent.count_token]
  | node_some =>
    rintro trees r n ⟨⟩ hn -
    rw [← Option.some.inj hn, Constituent.count_node]
  | seq_both _ _ ih₁ ih₂ =>
    rintro trees r n ⟨⟩ hn -
    simp only [Phrase.count?, Option.bind_eq_some_iff, Option.map_eq_some_iff] at hn
    obtain ⟨m, hm, k, hk, rfl⟩ := hn
    rw [Constituent.count_append, Constituent.count_append, Constituent.count_ofBlanks,
      Nat.add_zero, ih₁ _ _ m rfl hm nofun, ih₂ _ _ k rfl hk nofun]
  | alt_first _ ih =>
    intro trees r n ho hn
    simp only [Phrase.count?, Option.ite_none_right_eq_some] at hn
    exact ih trees r n ho hn.2
  | alt_second _ _ _ ih =>
    intro trees r n ho hn
    simp only [Phrase.count?, Option.ite_none_right_eq_some] at hn
    exact ih trees r n ho (hn.1 ▸ hn.2)
  | opt_some _ ih =>
    intro trees r n ho hn
    simp only [Phrase.count?, Option.ite_none_right_eq_some] at hn
    exact ih trees r n ho (hn.1.trans hn.2)
  | opt_none | star_none =>
    rintro trees r n ⟨⟩ hn -
    simp only [Phrase.count?, Option.ite_none_right_eq_some, Option.some.injEq] at hn
    rw [Constituent.count_nil, hn.2]
  | star_some _ _ ih₁ ih₂ =>
    rintro trees r n ⟨⟩ hn -
    simp only [Phrase.count?, Option.ite_none_right_eq_some, Option.some.injEq] at hn
    obtain ⟨hzero, rfl⟩ := hn
    rw [Constituent.count_append, ih₁ _ _ 0 rfl hzero nofun, ih₂ _ _ 0 rfl hzero fun _ => rfl]
  | body _ ih =>
    intro trees r n ho hn
    exact ih trees r n ho hn
  | more_none =>
    rintro trees r n ⟨⟩ - hzero
    rw [Constituent.count_nil, hzero rfl]
  | more_some _ _ ih₁ ih₂ =>
    rintro trees r n ⟨⟩ hn hzero
    obtain rfl := hzero rfl
    rw [Constituent.count_append, Constituent.count_append, Constituent.count_ofBlanks,
      ih₁ _ _ 0 rfl hn nofun, ih₂ _ _ 0 rfl hn fun _ => rfl]
  | _ => rintro trees r n ⟨⟩

/-- The composite rules that are read have their parts. -/
theorem Reads.complete {further : Bool} {p : Phrase} {s : List Char}
    {o : Option (List Tree × List Char)} (h : Reads further p s o) (hp : p.Complete) :
    ∀ trees r, o = some (trees, r) → ∀ n ∈ Tree.nodesAll trees, Tree.Complete n := by
  induction h with
  | nothing s | opt_none | star_none | more_none =>
    rintro trees r ⟨⟩
    nofun
  | mark_some hs | token_some hs =>
    rintro trees r ⟨⟩
    nofun
  | node_some h ih =>
    rintro trees r ⟨⟩ n hn
    rw [Tree.nodesAll, Tree.nodes, Tree.nodesAll, List.append_nil, List.mem_cons] at hn
    rcases hn with rfl | hn
    · exact fun part hpart => h.count part.1 _ _ part.2 rfl (hp.1 part hpart) nofun
    · exact ih hp.2 _ _ rfl n hn
  | seq_both _ _ ih₁ ih₂ =>
    rintro trees r ⟨⟩ n hn
    rw [Tree.nodesAll_append, Tree.nodesAll_append, Tree.nodesAll_ofBlanks, List.append_nil,
      List.mem_append] at hn
    exact hn.elim (ih₁ hp.1 _ _ rfl n) (ih₂ hp.2 _ _ rfl n)
  | alt_first _ ih => exact ih hp.1
  | alt_second _ _ _ ih => exact ih hp.2
  | opt_some _ ih => exact ih hp
  | star_some _ _ ih₁ ih₂ =>
    rintro trees r ⟨⟩ n hn
    rw [Tree.nodesAll_append, List.mem_append] at hn
    exact hn.elim (ih₁ hp _ _ rfl n) (ih₂ hp _ _ rfl n)
  | body _ ih => exact ih complete_messageBody
  | more_some _ _ ih₁ ih₂ =>
    rintro trees r ⟨⟩ n hn
    rw [Tree.nodesAll_append, Tree.nodesAll_append, Tree.nodesAll_ofBlanks, List.nil_append,
      List.mem_append] at hn
    exact hn.elim (ih₁ hp _ _ rfl n) (ih₂ hp _ _ rfl n)
  | _ => rintro trees r ⟨⟩

/-- The composite rules in an accepted file have their parts. -/
theorem parse_file_complete {source : List Char} {trees : List Tree}
    (h : parse file source = .ok trees) : ∀ n ∈ Tree.nodesAll trees, Tree.Complete n :=
  (reads_of_parse h).complete complete_file _ _ rfl

end Proto

/-! ## String literals -/

/-- String literals are complete. -/
def Rule.Closed (rule : Rule) (text : List Char) : Prop :=
  rule = .strLit → Scan.Literal text

namespace Proto

open Scan Phrase

theorem closed_of_ne {rule : Rule} (h : rule ≠ .strLit) (scan : Scanner) :
    scan.Gives rule.Closed :=
  fun _ _ _ _ heq => absurd heq h

theorem closed_strLit : Scan.strLit.Gives Rule.strLit.Closed :=
  fun _ _ _ h _ => (strLit_eq_some_iff.1 h).1

attribute [local simp] Phrase.Tokens Phrase.sequence Phrase.choice Phrase.separated punct
  keyword ident fullIdent typeName intLit number strLit aggregate optionName openBrace closeBrace
  emptyStatement constant optionStatement fieldOption fieldOptions range ranges reservedNames
  reserved extensions enumValue enumDef label field mapField groupField oneofDef extendDef
  messageDef

attribute [local simp] closed_of_ne closed_strLit

theorem closed_messageBody : messageBody.Tokens Rule.Closed := by
  simp [messageBody, messageElement]

theorem closed_file : file.Tokens Rule.Closed := by
  simp [file, syntaxLine, editionLine, topLevel, importLine, importModifier, packageLine,
    serviceDef, rpc, rpcInput, rpcOutput, rpcBody, stream]

/-- The string literals in an accepted file are complete. -/
theorem parse_file_closed {source : List Char} {trees : List Tree}
    (h : parse file source = .ok trees) :
    ∀ leaf ∈ Tree.leavesAll trees, leaf.1.Closed leaf.2 :=
  (reads_of_parse h).leaves closed_messageBody closed_file _ _ rfl

end Proto

end MettaSchema
