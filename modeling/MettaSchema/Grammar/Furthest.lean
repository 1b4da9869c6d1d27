import MettaSchema.Grammar.Proto

/-!
# How far reading got

When a text cannot be read, the place to report is the one furthest into the
text at which a rule was refused, and the rules to report are those refused
there.

* `Furthest` — the furthest place so far and the rules refused there.
* `Furthest.refuse` — takes note of a refused rule.  A rule that was refused only
  because one rule inside it was, at the same place, is not noted: the inner rule
  says more.
* `Phrase.traceWith` — reads as `Phrase.readWith` does and keeps this record
  instead of the trees.  The rules inside a token are never noted.
-/

namespace MettaSchema

/-- The furthest place at which a rule was refused, and the rules refused there in
the order in which that happened. -/
structure Furthest where
  /-- How many characters stand before the place. -/
  offset : Nat
  /-- The rules refused there. -/
  refused : List Rule
  deriving DecidableEq, Repr, Inhabited

namespace Furthest

/-- The record before anything was tried. -/
def start : Furthest := ⟨0, []⟩

/-- How many rules are noted at a place. -/
def countAt (f : Furthest) (offset : Nat) : Nat :=
  if f.offset = offset then f.refused.length else 0

/-- Notes that a rule was refused at a place, where `earlier` rules were noted when
it was first tried there.  If trying it noted exactly one rule, that one stands for
it; otherwise the rule takes the place of what was noted since. -/
def refuse (f : Furthest) (rule : Rule) (offset earlier : Nat) : Furthest :=
  if f.countAt offset = earlier + 1 then f
  else if f.offset < offset then ⟨offset, [rule]⟩
  else if f.offset = offset then ⟨offset, f.refused.take earlier ++ [rule]⟩
  else f

end Furthest

/-- A place in a text: how many characters are before it and what comes after. -/
structure Cursor where
  /-- How many characters stand before the place. -/
  offset : Nat
  /-- What is left of the text. -/
  rest : List Char

namespace Cursor

/-- Steps over what a scanner takes. -/
def scan? (c : Cursor) (scan : Scanner) : Option Cursor :=
  (scan c.rest).map fun (text, rest) => ⟨c.offset + text.length, rest⟩

/-- Steps over blanks. -/
def skipBlanks (c : Cursor) : Cursor :=
  let (gap, rest) := Scan.blanks c.rest
  ⟨c.offset + gap.length, rest⟩

end Cursor

/-- Steps over a phrase and keeps the record of refused rules. -/
abbrev Tracer := Cursor → Furthest → Option Cursor × Furthest

namespace Phrase

/-- Steps over further parts of a repetition, as `Phrase.readMore` does. -/
def traceMore (one : Tracer) : List Char → Cursor → Furthest → Cursor × Furthest
  | [], c, f => (c, f)
  | _ :: bound, c, f =>
    match one c.skipBlanks f with
    | (none, g) => (c, g)
    | (some d, g) => traceMore one bound d g

/-- Steps over a repetition, as `Phrase.readMany` does. -/
def traceMany (one : Tracer) (c : Cursor) (f : Furthest) : Cursor × Furthest :=
  match one c f with
  | (none, g) => (c, g)
  | (some d, g) => traceMore one c.rest d g

/-- Steps over a phrase, where `inner` steps over the phrase that `Phrase.body`
names. -/
def traceWith (inner : Tracer) : Phrase → Tracer
  | nothing, c, f => (some c, f)
  | mark scan, c, f => (c.scan? scan, f)
  | token rule scan, c, f =>
    match c.scan? scan with
    | some d => (some d, f)
    | none => (none, f.refuse rule c.offset (f.countAt c.offset))
  | node rule content, c, f =>
    match traceWith inner content c f with
    | (some d, g) => (some d, g)
    | (none, g) => (none, g.refuse rule c.offset (f.countAt c.offset))
  | seq first second, c, f =>
    match traceWith inner first c f with
    | (none, g) => (none, g)
    | (some d, g) => traceWith inner second d.skipBlanks g
  | alt first second, c, f =>
    match traceWith inner first c f with
    | (none, g) => traceWith inner second c g
    | (some d, g) => (some d, g)
  | opt content, c, f =>
    match traceWith inner content c f with
    | (none, g) => (some c, g)
    | (some d, g) => (some d, g)
  | star content, c, f =>
    let (d, g) := traceMany (traceWith inner content) c f
    (some d, g)
  | body, c, f => inner c f

/-- Steps over a phrase in which `Phrase.body` names `knot`, nested at most `depth`
deep. -/
def traceAt (knot : Phrase) : Nat → Phrase → Tracer
  | 0, p => traceWith (fun _ f => (none, f)) p
  | depth + 1, p => traceWith (traceAt knot depth knot) p

end Phrase

namespace Proto

/-- The record that is left after trying to read a phrase of the schema grammar off
the front of a text. -/
def furthest (p : Phrase) (s : List Char) : Furthest :=
  (Phrase.traceAt messageBody s.length p ⟨0, s⟩ .start).2

end Proto

end MettaSchema
