import MettaSchema.Proofs.Grammar.Reading
import MettaSchema.Proofs.Grammar.Spelling
import MettaSchema.Statement

/-!
# The tokens of a text

Whatever text is read, its names are spelt as names, its dotted names as dotted names, and no
token is empty but the one for the end of the input.

* `Tree.leavesAll` — the tokens of trees, at any depth.
* `Rule.Spelt` — how the tokens of a rule are spelt.
* `Phrase.Tokens`, `Proto.Reads.leaves` — what all scanners of a phrase give is said of all tokens
  that are read.
* `Proto.Reads.spelt` — so all tokens that are read are spelt as their rules ask.
* `Proto.parse_file_spelt` — the trees of a file make up its text and have only such tokens.
-/

namespace MettaSchema

/-! ## Tokens at any depth -/

namespace Tree

mutual

/-- The tokens of a tree, at any depth, with their rules. -/
def leaves : Tree → List (Rule × List Char)
  | mark _ => []
  | blank _ => []
  | token rule text => [(rule, text)]
  | node _ parts => leavesAll parts

/-- The tokens of a list of trees, at any depth, with their rules. -/
def leavesAll : List Tree → List (Rule × List Char)
  | [] => []
  | t :: rest => leaves t ++ leavesAll rest

end

@[simp] theorem leavesAll_append (ts us : List Tree) :
    leavesAll (ts ++ us) = leavesAll ts ++ leavesAll us := by
  induction ts with
  | nil => rfl
  | cons t ts ih => simp [leavesAll, ih]

@[simp] theorem leavesAll_ofBlanks (s : List Char) : leavesAll (ofBlanks s) = [] := by
  cases s <;> rfl

theorem mem_leavesAll {leaf : Rule × List Char} {ts : List Tree} :
    leaf ∈ leavesAll ts ↔ ∃ t ∈ ts, leaf ∈ t.leaves := by
  induction ts with
  | nil => simp [leavesAll]
  | cons t ts ih => simp [leavesAll, ih]

/-- The composite rule that is found among some trees is one of them. -/
theorem mem_of_parts? {rule : Rule} {parts ts : List Tree} (h : parts? rule ts = some parts) :
    node rule parts ∈ ts := by
  obtain ⟨t, ht, hparts⟩ := List.exists_of_findSome?_eq_some h
  cases t with
  | node rule' parts' =>
    simp only [Option.ite_none_right_eq_some, Option.some.injEq] at hparts
    obtain ⟨rfl, rfl⟩ := hparts
    exact ht
  | _ => cases hparts

/-- A token among some trees is one of their tokens at any depth. -/
theorem mem_leavesAll_of_mem_tokens {rule : Rule} {text : String} {ts : List Tree}
    (h : text ∈ tokens rule ts) : (rule, text.toList) ∈ leavesAll ts := by
  obtain ⟨t, ht, htext⟩ := List.mem_filterMap.1 h
  refine mem_leavesAll.2 ⟨t, ht, ?_⟩
  cases t with
  | token rule' text' =>
    simp only [Option.ite_none_right_eq_some, Option.some.injEq] at htext
    obtain ⟨rfl, rfl⟩ := htext
    simp [leaves]
  | _ => cases htext

theorem mem_leavesAll_of_token? {rule : Rule} {text : String} {ts : List Tree}
    (h : token? rule ts = some text) : (rule, text.toList) ∈ leavesAll ts :=
  mem_leavesAll_of_mem_tokens (List.mem_of_head? h)

mutual

/-- The text of a tree with a token that is not empty is not empty. -/
theorem text_ne_nil {leaf : Rule × List Char} (hne : leaf.2 ≠ []) :
    ∀ t : Tree, leaf ∈ t.leaves → t.text ≠ []
  | mark _, h => nomatch h
  | blank _, h => nomatch h
  | token rule text, h => by
    obtain rfl : leaf = (rule, text) := by simpa [leaves] using h
    exact hne
  | node _ parts, h => textAll_ne_nil hne parts h

theorem textAll_ne_nil {leaf : Rule × List Char} (hne : leaf.2 ≠ []) :
    ∀ ts : List Tree, leaf ∈ leavesAll ts → textAll ts ≠ []
  | [], h => nomatch h
  | t :: rest, h => by
    intro hnil
    obtain ⟨ht, hrest⟩ := List.append_eq_nil_iff.1 hnil
    rcases List.mem_append.1 h with h | h
    · exact text_ne_nil hne t h ht
    · exact textAll_ne_nil hne rest h hrest

end

end Tree

/-! ## How tokens are spelt -/

namespace Scan

theorem isName_of_ident {s t r : List Char} (h : ident s = some (t, r)) : isName t = true := by
  cases s with
  | nil => cases h
  | cons c s =>
    simp only [ident, Option.ite_none_right_eq_some, Option.some.injEq, Prod.mk.injEq] at h
    obtain ⟨hc, rfl, -⟩ := h
    rw [isName, hc, Bool.true_and]
    exact List.all_takeWhile

theorem startsWith_dottedTail {s : List Char} (h : startsWith isNameStart s = true) :
    startsWith isNameStart (dottedTail s).1 = true := by
  cases s with
  | nil => cases h
  | cons c s =>
    have hc : isNameStart c = true := h
    rw [dottedTail, isNameChar_of_isNameStart hc]
    exact hc

/-- What was taken as the tail of a dotted name is one on its own. -/
theorem dottedTail_taken (s : List Char) :
    dottedTail (dottedTail s).1 = ((dottedTail s).1, []) := by
  induction s with
  | nil => rfl
  | cons c s ih =>
    by_cases h : (isNameChar c || (c == '.' && startsWith isNameStart s)) = true
    · have htaken : (isNameChar c || (c == '.' && startsWith isNameStart (dottedTail s).1))
          = true := by
        simp only [Bool.or_eq_true, Bool.and_eq_true] at h ⊢
        exact h.imp id (And.imp_right startsWith_dottedTail)
      rw [dottedTail, if_pos h, push_fst, dottedTail, if_pos htaken, ih]
      rfl
    · rw [dottedTail, if_neg h]
      rfl

theorem dotted_of_taken {s t r : List Char} (h : dotted s = some (t, r)) : Dotted t := by
  cases s with
  | nil => cases h
  | cons c s =>
    simp only [dotted, Option.ite_none_right_eq_some, Option.some.injEq] at h
    obtain ⟨hc, htaken⟩ := h
    obtain ⟨rfl, -⟩ := Prod.mk.inj htaken
    have hname : isName [c] = true := by simpa [isName] using hc
    exact (Dotted.append_tail (dottedTail_taken s) (.name hname)).1

end Scan

/-- How the tokens of a rule are spelt.  Only the end of the input is empty. -/
def Rule.Spelt : Rule → List Char → Prop
  | ident, text => Scan.isName text = true
  | fullIdent, text => Scan.Dotted text
  | endOfInput, _ => True
  | _, text => text ≠ []

/-- The tokens of the rule are not empty. -/
theorem Rule.Spelt.ne_nil {rule : Rule} {text : List Char} (h : rule.Spelt text)
    (hrule : rule ≠ .endOfInput) : text ≠ [] := by
  rintro rfl
  cases rule with
  | endOfInput => exact hrule rfl
  | ident => cases h
  | fullIdent => exact Scan.Dotted.ne_nil h rfl
  | _ => exact h rfl

/-- The scanner takes only texts that are spelt as the rule asks. -/
def Scanner.Spelt (rule : Rule) (scan : Scanner) : Prop :=
  ∀ ⦃s t r : List Char⦄, scan s = some (t, r) → rule.Spelt t

/-- Every scanner of the phrase takes only texts that are spelt as its rule asks. -/
def Phrase.Spelt : Phrase → Prop
  | nothing => True
  | mark _ => True
  | token rule scan => scan.Spelt rule
  | node _ p => p.Spelt
  | seq p q => p.Spelt ∧ q.Spelt
  | alt p q => p.Spelt ∧ q.Spelt
  | opt p => p.Spelt
  | star p => p.Spelt
  | body => True

/-- All texts that the scanner takes have the property. -/
def Scanner.Gives (P : List Char → Prop) (scan : Scanner) : Prop :=
  ∀ ⦃s t r : List Char⦄, scan s = some (t, r) → P t

/-- Every scanner of the phrase takes only texts with a property that depends on its rule. -/
def Phrase.Tokens (P : Rule → List Char → Prop) : Phrase → Prop
  | nothing => True
  | mark _ => True
  | token rule scan => scan.Gives (P rule)
  | node _ p => p.Tokens P
  | seq p q => p.Tokens P ∧ q.Tokens P
  | alt p q => p.Tokens P ∧ q.Tokens P
  | opt p => p.Tokens P
  | star p => p.Tokens P
  | body => True

theorem Phrase.Spelt.tokens {p : Phrase} (h : p.Spelt) : p.Tokens Rule.Spelt := by
  induction p with
  | seq p q ihp ihq | alt p q ihp ihq => exact ⟨ihp h.1, ihq h.2⟩
  | node _ _ ih | opt _ ih | star _ ih => exact ih h
  | token => exact h
  | _ => trivial

namespace Scan

/-- A scanner that eats takes no empty token. -/
@[simp] theorem spelt_of_eats {rule : Rule} {scan : Scanner} (h : scan.Eats)
    (hident : rule ≠ .ident) (hfull : rule ≠ .fullIdent) : scan.Spelt rule := by
  intro s t r hs
  have hne := (h hs).2
  unfold Rule.Spelt
  split
  · exact absurd rfl hident
  · exact absurd rfl hfull
  · trivial
  · exact hne

@[simp] theorem spelt_ident : ident.Spelt .ident := fun _ _ _ h => isName_of_ident h

@[simp] theorem spelt_dotted : dotted.Spelt .fullIdent := fun _ _ _ h => dotted_of_taken h

@[simp] theorem spelt_endOfInput : endOfInput.Spelt .endOfInput := fun _ _ _ _ => trivial

end Scan

namespace Proto

open Scan Phrase

attribute [local simp] Phrase.Spelt Phrase.sequence Phrase.choice Phrase.separated punct
  keyword ident fullIdent typeName intLit number strLit aggregate optionName openBrace closeBrace
  emptyStatement constant optionStatement fieldOption fieldOptions range ranges reservedNames
  reserved extensions enumValue enumDef label field mapField groupField oneofDef extendDef
  messageDef

theorem spelt_messageBody : messageBody.Spelt := by
  simp [messageBody, messageElement]

theorem spelt_serviceDef : serviceDef.Spelt := by
  simp [serviceDef, rpc, rpcInput, rpcOutput, rpcBody, stream]

theorem spelt_file : file.Spelt := by
  simp [file, syntaxLine, editionLine, topLevel, importLine, importModifier, packageLine,
    spelt_serviceDef]

/-- All tokens that are read have a property that the scanners of the grammar give them. -/
theorem Reads.leaves {P : Rule → List Char → Prop} (hbody : messageBody.Tokens P) {further : Bool}
    {p : Phrase} {s : List Char} {o : Option (List Tree × List Char)} (h : Reads further p s o)
    (hp : p.Tokens P) :
    ∀ trees r, o = some (trees, r) → ∀ leaf ∈ Tree.leavesAll trees, P leaf.1 leaf.2 := by
  induction h with
  | nothing s =>
    rintro trees r ⟨⟩
    nofun
  | mark_some hs =>
    rintro trees r ⟨⟩
    nofun
  | token_some hs =>
    rintro trees r ⟨⟩ leaf hleaf
    obtain rfl : leaf = (_, _) := by simpa [Tree.leavesAll, Tree.leaves] using hleaf
    exact hp hs
  | node_some _ ih =>
    rintro trees r ⟨⟩ leaf hleaf
    exact ih hp _ _ rfl leaf (by simpa [Tree.leavesAll, Tree.leaves] using hleaf)
  | seq_both _ _ ih₁ ih₂ =>
    rintro trees r ⟨⟩ leaf hleaf
    rw [Tree.leavesAll_append, Tree.leavesAll_append, Tree.leavesAll_ofBlanks, List.append_nil,
      List.mem_append] at hleaf
    exact hleaf.elim (ih₁ hp.1 _ _ rfl leaf) (ih₂ hp.2 _ _ rfl leaf)
  | alt_first _ ih => exact ih hp.1
  | alt_second _ _ _ ih => exact ih hp.2
  | opt_some _ ih => exact ih hp
  | opt_none | star_none | more_none =>
    rintro trees r ⟨⟩
    nofun
  | star_some _ _ ih₁ ih₂ =>
    rintro trees r ⟨⟩ leaf hleaf
    rw [Tree.leavesAll_append, List.mem_append] at hleaf
    exact hleaf.elim (ih₁ hp _ _ rfl leaf) (ih₂ hp _ _ rfl leaf)
  | body _ ih => exact ih hbody
  | more_some _ _ ih₁ ih₂ =>
    rintro trees r ⟨⟩ leaf hleaf
    rw [Tree.leavesAll_append, Tree.leavesAll_append, Tree.leavesAll_ofBlanks, List.nil_append,
      List.mem_append] at hleaf
    exact hleaf.elim (ih₁ hp _ _ rfl leaf) (ih₂ hp _ _ rfl leaf)
  | _ => rintro trees r ⟨⟩

/-- All tokens that are read are spelt as their rules ask. -/
theorem Reads.spelt {further : Bool} {p : Phrase} {s : List Char}
    {o : Option (List Tree × List Char)} (h : Reads further p s o) (hp : p.Spelt) :
    ∀ trees r, o = some (trees, r) → ∀ leaf ∈ Tree.leavesAll trees, leaf.1.Spelt leaf.2 :=
  h.leaves spelt_messageBody.tokens hp.tokens

/-- The trees of a file make up its text, and their tokens are spelt as their rules ask. -/
theorem parse_file_spelt {source : List Char} {trees : List Tree}
    (h : parse file source = .ok trees) :
    (Tree.textAll trees).length ≤ source.length
      ∧ ∀ leaf ∈ Tree.leavesAll trees, leaf.1.Spelt leaf.2 := by
  unfold parse at h
  split at h
  · rename_i ts r hread
    cases h
    have hreads := (read_eq_iff sound_file).1 hread
    have htext := (hreads.text sound_file _ _ rfl).1
    refine ⟨?_, hreads.spelt spelt_file _ _ rfl⟩
    rw [← htext, List.length_append]
    omega
  · cases h

end Proto

end MettaSchema
