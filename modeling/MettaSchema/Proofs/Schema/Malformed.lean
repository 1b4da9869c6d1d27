import MettaSchema.Grammar.Span
import MettaSchema.Import.Search
import MettaSchema.Proofs.Grammar.Complete
import MettaSchema.Proofs.Schema.Definitions
import MettaSchema.Proofs.Schema.Violations

/-!
# No statement is malformed

Statements are made from the parts of trees, and a part that is missing would be an error.  It never
is: the grammar has no field without a type, a name and a number, and no method without something to
take and to return.

* `mapM_partsAll` — what is made from the composite rules of one name among some trees.
* `Statement.enumParts?_complete`, `ServiceDecl.ofParts?_complete` — nothing that an enum or a
  service is made of is left out.
* `FileStatement.exists_ofTrees?` — every accepted text has statements.
* `Scan.Cut` — a piece of a text, from one byte to another.
* `Formed` — whatever goes wrong, it is not a missing part.
* `Proto.Unbroken` — the trees of an accepted text have every part.
* `Schema.never_malformed` — no text and no file is refused for a missing part.
-/

namespace MettaSchema

/-! ## Parts that are there -/

namespace Tree

variable {rule part : Rule} {parts trees : List Tree}

theorem Complete.token (h : Complete (rule, parts)) (hpart : (.token part, 1) ∈ rule.parts) :
    ∃ text, tokens part parts = [text] ∧ token? part parts = some text := by
  obtain ⟨text, htext⟩ := List.length_eq_one_iff.1 (h _ hpart)
  exact ⟨text, htext, by rw [token?, htext, List.head?_cons]⟩

theorem Complete.node (h : Complete (rule, parts)) (hpart : (.node part, 1) ∈ rule.parts) :
    ∃ inner, partsAll part parts = [inner] ∧ parts? part parts = some inner := by
  obtain ⟨inner, hinner⟩ := List.length_eq_one_iff.1 (h _ hpart)
  exact ⟨inner, hinner, by rw [parts?_eq_head?, hinner, List.head?_cons]⟩

/-- The composite rules among some trees are among all composite rules there. -/
theorem mem_nodesAll_of_mem_partsAll (h : parts ∈ partsAll rule trees) :
    (rule, parts) ∈ nodesAll trees :=
  mem_nodesAll.2 ⟨_, mem_partsAll.1 h, List.mem_cons_self⟩

end Tree

/-- If a step gives one value for each composite rule of a name and none for any other tree, then
all trees together give the values of these rules in their order. -/
theorem mapM_partsAll {β : Type} {rule : Rule} {f : Tree → Option (List β)}
    {R : β → List Tree → Prop} {trees : List Tree}
    (hother : ∀ t, (∀ parts, t ≠ .node rule parts) → f t = some [])
    (hnode : ∀ parts ∈ Tree.partsAll rule trees, ∃ b, f (.node rule parts) = some [b] ∧ R b parts) :
    ∃ values, trees.mapM f = some values
      ∧ List.Forall₂ R values.flatten (Tree.partsAll rule trees) := by
  induction trees with
  | nil => exact ⟨[], rfl, .nil⟩
  | cons t trees ih =>
    obtain ⟨values, hvalues, hrel⟩ := ih fun parts hparts =>
      hnode parts (Tree.mem_partsAll.2 (List.mem_cons_of_mem t (Tree.mem_partsAll.1 hparts)))
    by_cases ht : ∃ parts, t = .node rule parts
    · obtain ⟨parts, rfl⟩ := ht
      obtain ⟨b, hb, hR⟩ := hnode parts (Tree.mem_partsAll.2 List.mem_cons_self)
      refine ⟨[b] :: values, by simp [hb, hvalues], ?_⟩
      rw [← List.singleton_append (l := trees), Tree.partsAll_append]
      simpa [Tree.partsAll] using List.Forall₂.cons hR hrel
    · have hnone : Tree.partsAll rule (t :: trees) = Tree.partsAll rule trees := by
        rw [← List.singleton_append (l := trees), Tree.partsAll_append]
        have hnil : Tree.partsAll rule [t] = [] :=
          List.eq_nil_iff_forall_not_mem.2 fun parts hparts =>
            ht ⟨parts, (List.mem_singleton.1 (Tree.mem_partsAll.1 hparts)).symm⟩
        rw [hnil, List.nil_append]
      refine ⟨[] :: values, by simp [hother t (not_exists.1 ht), hvalues], ?_⟩
      rw [hnone]
      exact hrel

/-! ## Enums and services -/

/-- The value of an enum has the name and the number that are written. -/
def Statement.WritesValue (value : String × String) (parts : List Tree) : Prop :=
  Tree.tokens .ident parts = [value.1] ∧ Tree.tokens .intLit parts = [value.2]

/-- The method has the name that is written, and what it takes and returns has the type that is
written. -/
structure MethodDecl.Writes (method : MethodDecl) (parts : List Tree) : Prop where
  /-- The name is written once. -/
  name : Tree.tokens .ident parts = [method.name]
  /-- What the method takes is written once. -/
  input : ∃ inner, Tree.partsAll .rpcInput parts = [inner]
    ∧ Tree.tokens .typeName inner = [method.input]
  /-- What the method returns is written once. -/
  output : ∃ inner, Tree.partsAll .rpcOutput parts = [inner]
    ∧ Tree.tokens .typeName inner = [method.output]

/-- Every value of an enum is taken over. -/
theorem Statement.enumParts?_complete {parts : List Tree}
    (h : ∀ n ∈ Tree.nodes (.node .enumDef parts), Tree.Complete n) :
    ∃ name values, enumParts? parts = some (name, values)
      ∧ List.Forall₂ WritesValue values (Tree.partsAll .enumValue parts) := by
  obtain ⟨hdef, hinside⟩ := List.forall_mem_cons.1 h
  obtain ⟨name, -, hname⟩ := hdef.token (.head _)
  have hother : ∀ t, (∀ inner, t ≠ .node .enumValue inner) → enumValue? t = some [] := by
    intro t ht
    unfold enumValue?
    split
    · exact absurd rfl (ht _)
    · rfl
  have hvalue : ∀ inner ∈ Tree.partsAll .enumValue parts,
      ∃ value, enumValue? (.node .enumValue inner) = some [value] ∧ WritesValue value inner := by
    intro inner hinner
    have hcomplete := hinside _ (Tree.mem_nodesAll_of_mem_partsAll hinner)
    obtain ⟨value, hvalue, hvalue'⟩ := hcomplete.token (.head _)
    obtain ⟨number, hnumber, hnumber'⟩ := hcomplete.token (.tail _ (.head _))
    exact ⟨(value, number), by simp [enumValue?, hvalue', hnumber'], hvalue, hnumber⟩
  obtain ⟨values, hvalues, hwrites⟩ := mapM_partsAll hother hvalue
  exact ⟨name, values.flatten, by simp [enumParts?, hname, hvalues], hwrites⟩

/-- What a method takes or returns has a type. -/
theorem MethodDecl.type?_complete {rule : Rule} {parts : List Tree}
    (hrule : (.token .typeName, 1) ∈ rule.parts) (h : Tree.Complete (rule, parts)) :
    ∃ type streaming, type? parts = some (type, streaming)
      ∧ Tree.tokens .typeName parts = [type] := by
  obtain ⟨type, htype, htype'⟩ := h.token hrule
  exact ⟨type, (Tree.token? .stream parts).isSome, by simp [type?, htype'], htype⟩

/-- Every method of a service is taken over, with the types of what it takes and returns. -/
theorem ServiceDecl.ofParts?_complete {parts : List Tree}
    (h : ∀ n ∈ Tree.nodes (.node .serviceDef parts), Tree.Complete n) :
    ∃ service, ofParts? parts = some service
      ∧ List.Forall₂ MethodDecl.Writes service.methods (Tree.partsAll .rpc parts) := by
  obtain ⟨hdef, hinside⟩ := List.forall_mem_cons.1 h
  obtain ⟨name, -, hname⟩ := hdef.token (.head _)
  have hother : ∀ t, (∀ inner, t ≠ .node .rpc inner) → MethodDecl.ofTree? t = some [] := by
    intro t ht
    unfold MethodDecl.ofTree?
    split
    · exact absurd rfl (ht _)
    · rfl
  have hmethod : ∀ inner ∈ Tree.partsAll .rpc parts,
      ∃ method, MethodDecl.ofTree? (.node .rpc inner) = some [method] ∧ method.Writes inner := by
    intro inner hinner
    have hnodes : ∀ n ∈ Tree.nodes (.node .rpc inner), Tree.Complete n := fun n hn =>
      hinside n (Tree.mem_nodesAll.2 ⟨_, Tree.mem_partsAll.1 hinner, hn⟩)
    obtain ⟨hrpc, hbelow⟩ := List.forall_mem_cons.1 hnodes
    obtain ⟨name, hname, hname'⟩ := hrpc.token (.head _)
    have hinput : (.node .rpcInput, 1) ∈ Rule.parts .rpc := .tail _ (.head _)
    have houtput : (.node .rpcOutput, 1) ∈ Rule.parts .rpc := .tail _ (.tail _ (.head _))
    obtain ⟨takes, htakes, htakes'⟩ := hrpc.node hinput
    obtain ⟨gives, hgives, hgives'⟩ := hrpc.node houtput
    obtain ⟨input, clientStreaming, hinput, hinput'⟩ := MethodDecl.type?_complete (.head _)
      (hbelow _ (Tree.mem_nodesAll_of_mem_partsAll (htakes ▸ List.mem_singleton_self takes)))
    obtain ⟨output, serverStreaming, houtput, houtput'⟩ := MethodDecl.type?_complete (.head _)
      (hbelow _ (Tree.mem_nodesAll_of_mem_partsAll (hgives ▸ List.mem_singleton_self gives)))
    refine ⟨⟨name, input, output, clientStreaming, serverStreaming⟩, ?_, hname,
      ⟨takes, htakes, hinput'⟩, ⟨gives, hgives, houtput'⟩⟩
    simp [MethodDecl.ofTree?, hname', htakes', hgives', hinput, houtput]
  obtain ⟨methods, hmethods, hwrites⟩ := mapM_partsAll hother hmethod
  exact ⟨⟨name, methods.flatten⟩, by simp [ofParts?, hname, hmethods], hwrites⟩

/-! ## Statements -/

namespace Statement

theorem field?_complete {parts : List Tree} (h : Tree.Complete (.field, parts)) :
    ∃ statement, field? parts = some statement := by
  obtain ⟨type, -, htype⟩ := h.token (.head _)
  obtain ⟨name, -, hname⟩ := h.token (.tail _ (.head _))
  obtain ⟨number, -, hnumber⟩ := h.token (.tail _ (.tail _ (.head _)))
  exact ⟨_, by simp [field?, htype, hname, hnumber]; rfl⟩

theorem map?_complete {parts : List Tree} (h : Tree.Complete (.mapField, parts)) :
    ∃ statement, map? parts = some statement := by
  obtain ⟨key, value, htypes⟩ := List.length_eq_two.1 (h _ (.head _))
  obtain ⟨name, -, hname⟩ := h.token (.tail _ (.head _))
  obtain ⟨number, -, hnumber⟩ := h.token (.tail _ (.tail _ (.head _)))
  exact ⟨_, by simp [map?, htypes, hname, hnumber]; rfl⟩

mutual

/-- A tree in which no rule lacks a part has statements. -/
theorem ofTree?_complete : ∀ t : Tree, (∀ n ∈ t.nodes, Tree.Complete n) →
    ∃ statements, ofTree? t = some statements
  | .mark _, _ | .blank _, _ | .token _ _, _ => ⟨[], by simp [ofTree?]⟩
  | .node rule parts, h => by
    obtain ⟨hnode, hinside⟩ := List.forall_mem_cons.1 h
    obtain ⟨body, hbody⟩ := ofTrees?_complete parts hinside
    cases rule with
    | field =>
      obtain ⟨statement, hstatement⟩ := field?_complete hnode
      exact ⟨[statement], by simp [ofTree?, hstatement]⟩
    | mapField =>
      obtain ⟨statement, hstatement⟩ := map?_complete hnode
      exact ⟨[statement], by simp [ofTree?, hstatement]⟩
    | groupField =>
      obtain ⟨name, -, hname⟩ := hnode.token (.head _)
      obtain ⟨number, -, hnumber⟩ := hnode.token (.tail _ (.head _))
      exact ⟨_, by simp [ofTree?, hname, hnumber, hbody]; rfl⟩
    | oneofDef => exact ⟨[oneof body], by simp [ofTree?, hbody]⟩
    | messageDef =>
      obtain ⟨name, -, hname⟩ := hnode.token (.head _)
      exact ⟨[message name body], by simp [ofTree?, hname, hbody]⟩
    | enumDef =>
      obtain ⟨name, values, henum, -⟩ := enumParts?_complete h
      exact ⟨[enum name values], by simp [ofTree?, henum]⟩
    | messageBody => exact ⟨body, by simp [ofTree?, hbody]⟩
    | _ => exact ⟨[], by simp [ofTree?]⟩

theorem ofTrees?_complete : ∀ ts : List Tree, (∀ n ∈ Tree.nodesAll ts, Tree.Complete n) →
    ∃ statements, ofTrees? ts = some statements
  | [], _ => ⟨[], by simp [ofTrees?]⟩
  | t :: ts, h => by
    obtain ⟨hfirst, hrest⟩ := List.forall_mem_append.1 h
    obtain ⟨first, hfirst⟩ := ofTree?_complete t hfirst
    obtain ⟨rest, hrest⟩ := ofTrees?_complete ts hrest
    exact ⟨first ++ rest, by simp [ofTrees?, hfirst, hrest]⟩

end

end Statement

namespace FileStatement

/-- A tree of a file in which no rule lacks a part has statements. -/
theorem ofTree?_complete {t : Tree} (h : ∀ n ∈ t.nodes, Tree.Complete n) :
    ∃ statements, ofTree? t = some statements := by
  cases t with
  | node rule parts =>
    obtain ⟨hnode, hinside⟩ := List.forall_mem_cons.1 h
    cases rule with
    | syntaxLine | editionLine | importLine | packageLine =>
      obtain ⟨text, -, htext⟩ := hnode.token (.head _)
      exact ⟨_, by simp [ofTree?, htext]; rfl⟩
    | messageDef =>
      obtain ⟨name, -, hname⟩ := hnode.token (.head _)
      obtain ⟨body, hbody⟩ := Statement.ofTrees?_complete parts hinside
      exact ⟨[message name body], by simp [ofTree?, hname, hbody]⟩
    | enumDef =>
      obtain ⟨name, values, henum, -⟩ := Statement.enumParts?_complete h
      exact ⟨[enum name values], by simp [ofTree?, henum]⟩
    | serviceDef =>
      obtain ⟨service, hservice, -⟩ := ServiceDecl.ofParts?_complete h
      exact ⟨[.service service], by simp [ofTree?, hservice]⟩
    | _ => exact ⟨[], rfl⟩
  | _ => exact ⟨[], rfl⟩

/-- An accepted text has statements. -/
theorem exists_ofTrees? {source : List Char} {trees : List Tree}
    (h : Proto.parse Proto.file source = .ok trees) :
    ∃ statements, ofTrees? trees = some statements := by
  obtain ⟨parts, rfl⟩ := Proto.parse_file_eq_node h
  have hcomplete := Proto.parse_file_complete h
  have hstatements : ∀ t ∈ parts, ∃ statements, ofTree? t = some statements := fun t ht =>
    ofTree?_complete fun n hn => hcomplete n (by
      simpa [Tree.nodesAll, Tree.nodes] using .inr (Tree.mem_nodesAll.2 ⟨t, ht, hn⟩))
  obtain ⟨statements, hmap⟩ := exists_mapM_eq_some hstatements
  exact ⟨statements.flatten, by simp [ofTrees?, Tree.parts?, hmap]⟩

end FileStatement

/-! ## Pieces of literals -/

namespace Scan

/-- The bytes of a text from `start` to `stop` are a piece of it: both are in the text, and no
character is cut. -/
def Cut (text : List Char) (start stop : Nat) (piece : List Char) : Prop :=
  ∃ before after, text = before ++ piece ++ after ∧ utf8Length before = start
    ∧ utf8Length (before ++ piece) = stop

theorem utf8Length_append (s t : List Char) : utf8Length (s ++ t) = utf8Length s + utf8Length t := by
  induction s with
  | nil => exact (Nat.zero_add _).symm
  | cons c s ih => rw [List.cons_append, utf8Length, utf8Length, ih, Nat.add_assoc]

theorem Quoted.exists_concat {quote : Char} {s : List Char} (h : Quoted quote s) :
    ∃ inside, s = inside ++ [quote] := by
  induction h with
  | close => exact ⟨[], rfl⟩
  | escape d _ ih =>
    obtain ⟨inside, rfl⟩ := ih
    exact ⟨'\\' :: d :: inside, rfl⟩
  | @char c _ _ _ _ _ ih =>
    obtain ⟨inside, rfl⟩ := ih
    exact ⟨c :: inside, rfl⟩

/-- The text of a string literal is what is left without its first and its last byte. -/
theorem Literal.cut {text : List Char} (h : Literal text) :
    Cut text 1 (utf8Length text - 1) text.tail.dropLast := by
  obtain ⟨quote, s, hquote, rfl, hs⟩ := h
  obtain ⟨inside, rfl⟩ := hs.exists_concat
  have hsize : quote.utf8Size = 1 := by rcases hquote with rfl | rfl <;> rfl
  refine ⟨[quote], [quote], by simp, by simp [utf8Length, hsize], ?_⟩
  simp [utf8Length, utf8Length_append, hsize, Nat.add_comm]

/-- The first byte of a text can be cut off if it is a zero. -/
theorem cut_zero (digits : List Char) :
    Cut ('0' :: digits) 1 (utf8Length ('0' :: digits)) digits :=
  ⟨['0'], [], by simp, rfl, rfl⟩

end Scan

/-! ## Errors -/

/-- Whatever goes wrong, it is not a missing part. -/
def Formed {α : Type} (x : Except SchemaError α) : Prop :=
  x ≠ .error .malformed

section Formed

variable {α β : Type}

theorem formed_ok (a : α) : Formed (.ok a) := nofun

theorem formed_error_iff {e : SchemaError} :
    Formed (.error e : Except SchemaError α) ↔ e ≠ .malformed := by
  simp [Formed]

theorem Formed.bind {x : Except SchemaError α} {f : α → Except SchemaError β} (hx : Formed x)
    (hf : ∀ a, Formed (f a)) : Formed (x >>= f) := by
  cases x with
  | error e =>
    intro h
    cases h
    exact hx rfl
  | ok a => exact hf a

theorem formed_foldlM {step : β → α → Except SchemaError β} (h : ∀ b a, Formed (step b a))
    (xs : List α) (b : β) : Formed (xs.foldlM step b) := by
  induction xs generalizing b with
  | nil => exact formed_ok b
  | cons x xs ih => exact (h b x).bind ih

end Formed

theorem Literal.formed_integer (literal : String) : Formed (integer literal) := by
  unfold integer
  split <;> nofun

theorem Literal.formed_fieldNumber (literal : String) : Formed (fieldNumber literal) := by
  unfold fieldNumber
  cases h : integer literal with
  | error e => exact formed_error_iff.2 (formed_error_iff.1 (h ▸ formed_integer literal))
  | ok n => dsimp only; split <;> nofun

theorem Literal.formed_enumNumber (literal : String) : Formed (enumNumber literal) := by
  unfold enumNumber
  cases h : integer literal with
  | error e => exact formed_error_iff.2 (formed_error_iff.1 (h ▸ formed_integer literal))
  | ok n => dsimp only; split <;> nofun

theorem EnumDecl.formed_values? (values : List (String × String)) : Formed (values? values) := by
  induction values with
  | nil => exact formed_ok []
  | cons value values ih =>
    exact (Literal.formed_enumNumber value.2).bind fun _ => ih.bind fun _ => formed_ok _

mutual

theorem Statement.formed_declare : ∀ statement : Statement, Formed statement.declare
  | .field .. => (Literal.formed_fieldNumber _).bind fun _ => formed_ok _
  | .map .. => (Literal.formed_fieldNumber _).bind fun _ => formed_ok _
  | .group _ _ _ body =>
    (Literal.formed_fieldNumber _).bind fun _ => (formed_declareAll body).bind fun _ => formed_ok _
  | .oneof members => formed_declareAll members
  | .message _ body => (formed_declareAll body).bind fun _ => formed_ok _
  | .enum _ values => ((EnumDecl.formed_values? values).bind fun _ => formed_ok _).bind fun _ =>
    formed_ok _

theorem Statement.formed_declareAll : ∀ statements : List Statement,
    Formed (Statement.declareAll statements)
  | [] => formed_ok _
  | statement :: rest =>
    (formed_declare statement).bind fun _ => (formed_declareAll rest).bind fun _ => formed_ok _

end

theorem FileDecl.formed_add (file : FileDecl) (statement : FileStatement) :
    Formed (file.add statement) := by
  cases statement with
  | dialect literal =>
    unfold add
    dsimp only
    split <;> nofun
  | edition | imports | package | service => nofun
  | message name body => exact (Statement.formed_declareAll body).bind fun _ => formed_ok _
  | enum name values =>
    exact ((EnumDecl.formed_values? values).bind fun _ => formed_ok _).bind fun _ => formed_ok _

/-- The declarations of a text are not refused for a missing part. -/
theorem FileDecl.formed_parse (name source : String) : Formed (parse name source) := by
  unfold parse
  split
  · nofun
  · rename_i trees htrees
    obtain ⟨statements, hstatements⟩ := FileStatement.exists_ofTrees? htrees
    rw [hstatements]
    exact formed_foldlM formed_add statements _

theorem FileDecl.formed_build (table : SymbolTable) (file : FileDecl) :
    Formed (file.build table) := by
  intro h
  obtain ⟨_, check, _, -, -, -, herror⟩ := (FileDecl.settle_build table file).error_iff _ |>.1 h
  cases check <;> cases herror

theorem Schema.formed_parse (name source : String) : Formed (Schema.parse name source) :=
  (FileDecl.formed_parse name source).bind fun _ => FileDecl.formed_build _ _

theorem FileDecl.formed_ofText (path : String) (text : Except FileError String) :
    Formed (ofText path text) := by
  cases text with
  | error e => nofun
  | ok text => exact formed_parse _ _

namespace Search

variable {search : Search} {tree : FileTree}

theorem formed_fetch (directory : String) (wanted : Wanted) :
    Formed (search.fetch tree directory wanted) := by
  rw [fetch_eq]
  unfold choose
  split
  · exact (FileDecl.formed_ofText _ _).bind fun _ => formed_ok _
  · split <;> nofun

theorem formed_collect (directory : String) (bound : Nat) (work : Worklist) :
    Formed (search.collect tree directory bound work) := by
  induction bound generalizing work with
  | zero => exact formed_ok work
  | succ bound ih =>
    rw [collect_succ]
    split
    · exact formed_ok work
    · exact (formed_fetch directory _).bind fun _ => ih _

theorem formed_load (path : String) : Formed (search.load tree path) := by
  rw [load_eq]
  exact (FileDecl.formed_ofText _ _).bind fun _ =>
    (formed_collect _ _ _).bind fun _ => FileDecl.formed_build _ _

end Search

/-! ## Accepted texts -/

namespace Tree

mutual

/-- What is inside a composite rule of a tree is inside the tree. -/
theorem inside_of_mem_nodes {n : Rule × List Tree} : ∀ t : Tree, n ∈ t.nodes →
    leavesAll n.2 ⊆ t.leaves ∧ nodesAll n.2 ⊆ t.nodes
  | mark _, h | blank _, h | token _ _, h => nomatch h
  | node rule parts, h => by
    rcases List.mem_cons.1 h with rfl | h
    · exact ⟨List.Subset.refl _, List.subset_cons_self _ _⟩
    · obtain ⟨hleaves, hnodes⟩ := inside_of_mem_nodesAll parts h
      exact ⟨hleaves, List.subset_cons_of_subset _ hnodes⟩

theorem inside_of_mem_nodesAll {n : Rule × List Tree} : ∀ ts : List Tree, n ∈ nodesAll ts →
    leavesAll n.2 ⊆ leavesAll ts ∧ nodesAll n.2 ⊆ nodesAll ts
  | [], h => nomatch h
  | t :: ts, h => by
    rcases List.mem_append.1 h with h | h
    · obtain ⟨hleaves, hnodes⟩ := inside_of_mem_nodes t h
      exact ⟨List.subset_append_of_subset_left _ hleaves,
        List.subset_append_of_subset_left _ hnodes⟩
    · obtain ⟨hleaves, hnodes⟩ := inside_of_mem_nodesAll ts h
      exact ⟨List.subset_append_of_subset_right _ hleaves,
        List.subset_append_of_subset_right _ hnodes⟩

end

/-- A type that is written inside a part of some trees is a token inside of them. -/
theorem typeName_mem_leavesAll {rule : Rule} {type : String} {inner parts trees : List Tree}
    {name : Rule} (hparts : (name, parts) ∈ nodesAll trees) (hinner : partsAll rule parts = [inner])
    (htype : tokens .typeName inner = [type]) : (.typeName, type.toList) ∈ leavesAll trees := by
  have hnode : (rule, inner) ∈ nodesAll parts :=
    mem_nodesAll_of_mem_partsAll (hinner ▸ List.mem_singleton_self inner)
  have hleaf : (.typeName, type.toList) ∈ leavesAll inner :=
    mem_leavesAll_of_mem_tokens (htype ▸ List.mem_singleton_self type)
  exact (inside_of_mem_nodesAll _ hparts).1 ((inside_of_mem_nodesAll _ hnode).1 hleaf)

end Tree

/-- The digits of an integer literal, without its sign. -/
def Literal.unsigned : List Char → List Char
  | '-' :: digits => digits
  | digits => digits

/-- The trees of a text have every part that statements are made of, and the text of every literal
can be taken out of it. -/
structure Proto.Unbroken (trees : List Tree) : Prop where
  /-- The whole text is one tree. -/
  root : ∃ parts, trees = [.node .proto parts]
  /-- Every rule has its parts. -/
  parts : ∀ n ∈ Tree.nodesAll trees, Tree.Complete n
  /-- The text has statements. -/
  statements : ∃ statements, FileStatement.ofTrees? trees = some statements
  /-- Every value of every enum is taken over. -/
  values : ∀ parts, (.enumDef, parts) ∈ Tree.nodesAll trees →
    ∃ name values, Statement.enumParts? parts = some (name, values)
      ∧ List.Forall₂ Statement.WritesValue values (Tree.partsAll .enumValue parts)
  /-- Every method of every service is taken over, and what it takes and returns has a name. -/
  methods : ∀ parts, (.serviceDef, parts) ∈ Tree.nodesAll trees →
    ∃ service, ServiceDecl.ofParts? parts = some service
      ∧ List.Forall₂ MethodDecl.Writes service.methods (Tree.partsAll .rpc parts)
      ∧ ∀ m ∈ service.methods, m.input ≠ "" ∧ m.output ≠ ""
  /-- The quotes of a string literal can be cut off. -/
  strings : ∀ text, (.strLit, text) ∈ Tree.leavesAll trees →
    Scan.Cut text 1 (utf8Length text - 1) text.tail.dropLast
  /-- The zero in front of an octal number can be cut off. -/
  numbers : ∀ text, (.intLit, text) ∈ Tree.leavesAll trees →
    ∀ digits, Literal.unsigned text = '0' :: digits →
      Scan.Cut ('0' :: digits) 1 (utf8Length ('0' :: digits)) digits

namespace Proto

variable {source : List Char} {trees : List Tree}

/-- The rules in and below a rule of an accepted text have their parts. -/
theorem complete_inside (h : parse file source = .ok trees) {n : Rule × List Tree}
    (hn : n ∈ Tree.nodesAll trees) : ∀ m ∈ Tree.nodes (.node n.1 n.2), Tree.Complete m := by
  have hcomplete := parse_file_complete h
  refine List.forall_mem_cons.2 ⟨hcomplete n hn, fun m hm => ?_⟩
  exact hcomplete m ((Tree.inside_of_mem_nodesAll trees hn).2 hm)

/-- What a method of an accepted text takes and returns has a name. -/
theorem method_ne_empty (h : parse file source = .ok trees) {method : MethodDecl}
    {parts : List Tree} (hparts : (.rpc, parts) ∈ Tree.nodesAll trees)
    (hwrites : method.Writes parts) : method.input ≠ "" ∧ method.output ≠ "" := by
  have hspelt {type : String} (hleaf : (.typeName, type.toList) ∈ Tree.leavesAll trees) :
      type ≠ "" := by
    rintro rfl
    exact Rule.Spelt.ne_nil ((parse_file_spelt h).2 _ hleaf) nofun rfl
  obtain ⟨takes, htakes, hinput⟩ := hwrites.input
  obtain ⟨gives, hgives, houtput⟩ := hwrites.output
  exact ⟨hspelt (Tree.typeName_mem_leavesAll hparts htakes hinput),
    hspelt (Tree.typeName_mem_leavesAll hparts hgives houtput)⟩

/-- The trees of an accepted text have every part. -/
theorem unbroken_of_parse (h : parse file source = .ok trees) : Unbroken trees where
  root := parse_file_eq_node h
  parts := parse_file_complete h
  statements := FileStatement.exists_ofTrees? h
  values parts hparts := Statement.enumParts?_complete (complete_inside h hparts)
  methods parts hparts := by
    obtain ⟨service, hservice, hwrites⟩ := ServiceDecl.ofParts?_complete (complete_inside h hparts)
    refine ⟨service, hservice, hwrites, fun m hm => ?_⟩
    obtain ⟨inner, hinner, hmethod⟩ := exists_mem_of_forall₂ hwrites hm
    have hnode := Tree.mem_nodesAll_of_mem_partsAll hinner
    exact method_ne_empty h ((Tree.inside_of_mem_nodesAll trees hparts).2 hnode) hmethod
  strings text htext := (parse_file_closed h _ htext rfl).cut
  numbers text _ digits _ := Scan.cut_zero digits

end Proto

/-- Nothing that statements are made of is ever missing: the trees of an accepted text have all
parts, and no text and no file is refused because a part is not there. -/
theorem Schema.never_malformed (name source : String) (search : Search) (tree : FileTree)
    (path : String) :
    (∀ trees, Proto.parse Proto.file source.toList = .ok trees → Proto.Unbroken trees)
    ∧ FileDecl.parse name source ≠ .error .malformed
    ∧ Schema.parse name source ≠ .error .malformed
    ∧ search.load tree path ≠ .error .malformed :=
  ⟨fun _ => Proto.unbroken_of_parse, FileDecl.formed_parse name source,
    Schema.formed_parse name source, Search.formed_load path⟩

/-- A text with a field, a map field, a group, an enum and a service. -/
def guideSource : String :=
  "import 'a'; message M \x7b int32 a = 017; map<string, .M> b = 2; group G = 3 \x7b\x7d" ++
  " enum E \x7b ON = 0; \x7d \x7d service S \x7b rpc Get (stream M) returns (.M); \x7d"

theorem Schema.never_malformed_guide :
    (∃ trees, Proto.parse Proto.file guideSource.toList = .ok trees ∧ Proto.Unbroken trees)
      ∧ FileDecl.parse "guide.proto" guideSource ≠ .error .malformed := by
  obtain ⟨hunbroken, hparse, -⟩ :=
    never_malformed "guide.proto" guideSource ⟨[]⟩ .empty "guide.proto"
  refine ⟨?_, hparse⟩
  have haccepted : (Proto.parse Proto.file guideSource.toList).toOption.isSome = true := by
    decide +kernel
  cases h : Proto.parse Proto.file guideSource.toList with
  | error e =>
    rw [h] at haccepted
    cases haccepted
  | ok trees => exact ⟨trees, rfl, hunbroken trees h⟩

end MettaSchema
