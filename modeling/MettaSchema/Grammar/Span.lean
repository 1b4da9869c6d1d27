import MettaSchema.Grammar.SyntaxError

/-!
# Spans

How a text is matched by a rule: the rules that were read, each with the bytes it
covers and the rules read inside it.

* `Span` — a rule, where it starts and stops, and its parts.
* `Tree.spans` — the spans of what was read.  Marks and blanks take up room and
  have no span.
* `Proto.spans` — the spans of a rule at the front of a text.
-/

namespace MettaSchema

/-- A rule that was read, and the bytes it covers. -/
inductive Span where
  /-- The rule, its first byte, the byte behind it, and the spans inside. -/
  | mk (rule : Rule) (start stop : Nat) (parts : List Span)
  deriving Repr, Inhabited

/-- How many bytes a text takes up when it is written in UTF-8. -/
def utf8Length : List Char → Nat
  | [] => 0
  | c :: s => c.utf8Size + utf8Length s

namespace Tree

mutual

/-- The spans of a tree whose text starts at the given byte, and the byte behind
it. -/
def spans (start : Nat) : Tree → List Span × Nat
  | mark text => ([], start + utf8Length text)
  | blank text => ([], start + utf8Length text)
  | token rule text =>
    let stop := start + utf8Length text
    ([.mk rule start stop []], stop)
  | node rule parts =>
    let (inner, stop) := spansAll start parts
    ([.mk rule start stop inner], stop)

/-- The spans of a list of trees, one behind the other. -/
def spansAll (start : Nat) : List Tree → List Span × Nat
  | [] => ([], start)
  | t :: rest =>
    let (first, middle) := spans start t
    let (others, stop) := spansAll middle rest
    (first ++ others, stop)

end

end Tree

namespace Proto

/-- The spans of a rule at the front of a text, or why the rule is not there. -/
def spans (rule : Rule) (source : String) : Except SyntaxError (List Span) :=
  match parse (phrase rule) source.toList with
  | .ok trees => .ok (Tree.spansAll 0 trees).1
  | .error e => .error e

end Proto

end MettaSchema
