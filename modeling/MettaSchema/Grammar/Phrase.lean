import MettaSchema.Grammar.Token
import MettaSchema.Grammar.Rule

/-!
# Phrases and how they are read

A phrase says how a text is put together from tokens.  Phrases are data, so the
grammar is written down once and used twice: to read a text and, when reading
fails, to find out how far it got.

* `Phrase` — sequences, ordered choices, optional and repeated parts of tokens.
  Between the members of a sequence and between repetitions blanks may stand.
* `Tree` — what reading yields.  Nothing is thrown away: `Tree.text` of the
  trees is the text that was read, blanks and comments included.
* `Phrase.readWith`, `Phrase.readAt` — reading.  A choice takes its first branch
  that can be read and never comes back to it; an optional part is taken if it
  can be; a repetition takes as many parts as it can.

A grammar may refer to one phrase from inside itself, by `Phrase.body`.
-/

namespace MettaSchema

/-- How a text is put together. -/
inductive Phrase where
  /-- Nothing at all. -/
  | nothing
  /-- Text that leaves no token behind, such as punctuation. -/
  | mark (scan : Scanner)
  /-- A token, which is the text of an atomic rule. -/
  | token (rule : Rule) (scan : Scanner)
  /-- The text of a composite rule. -/
  | node (rule : Rule) (content : Phrase)
  /-- One phrase, blanks, then another. -/
  | seq (first second : Phrase)
  /-- The first phrase if it can be read, otherwise the second. -/
  | alt (first second : Phrase)
  /-- The phrase if it can be read, otherwise nothing. -/
  | opt (content : Phrase)
  /-- The phrase as often as it can be read, with blanks in between. -/
  | star (content : Phrase)
  /-- The phrase to which the grammar refers from inside itself. -/
  | body

namespace Phrase

/-- Phrases one after another. -/
def sequence : List Phrase → Phrase
  | [] => nothing
  | [p] => p
  | p :: q :: rest => seq p (sequence (q :: rest))

/-- The first of the phrases that can be read. -/
def choice : List Phrase → Phrase
  | [] => mark fun _ => none
  | [p] => p
  | p :: q :: rest => alt p (choice (q :: rest))

/-- Punctuation: exactly the given text. -/
def punct (text : String) : Phrase :=
  mark (Scan.exactly text.toList)

/-- A phrase and further ones, each behind a separator. -/
def separated (separator : Phrase) (p : Phrase) : Phrase :=
  seq p (star (seq separator p))

end Phrase

/-! ## Trees -/

/-- The outcome of reading: every part of the text, in order. -/
inductive Tree where
  /-- Text that is no token. -/
  | mark (text : List Char)
  /-- Blanks and comments between tokens. -/
  | blank (text : List Char)
  /-- A token. -/
  | token (rule : Rule) (text : List Char)
  /-- A composite rule and its parts. -/
  | node (rule : Rule) (parts : List Tree)
  deriving Repr, Inhabited

namespace Tree

mutual

/-- The text from which a tree was read. -/
def text : Tree → List Char
  | mark text => text
  | blank text => text
  | token _ text => text
  | node _ parts => textAll parts

/-- The text from which a list of trees was read. -/
def textAll : List Tree → List Char
  | [] => []
  | t :: rest => text t ++ textAll rest

end

mutual

/-- Whether two trees are equal. -/
def same : Tree → Tree → Bool
  | mark s, mark s' => s == s'
  | blank s, blank s' => s == s'
  | token rule s, token rule' s' => rule == rule' && s == s'
  | node rule parts, node rule' parts' => rule == rule' && sameAll parts parts'
  | _, _ => false

/-- Whether two lists of trees are equal. -/
def sameAll : List Tree → List Tree → Bool
  | [], [] => true
  | t :: rest, t' :: rest' => same t t' && sameAll rest rest'
  | _, _ => false

end

mutual

theorem same_iff (t t' : Tree) : same t t' = true ↔ t = t' := by
  cases t with
  | node rule parts => cases t' <;> simp [same, sameAll_iff parts]
  | _ => cases t' <;> simp [same]

theorem sameAll_iff (ts ts' : List Tree) : sameAll ts ts' = true ↔ ts = ts' := by
  cases ts with
  | nil => cases ts' <;> simp [sameAll]
  | cons t rest => cases ts' <;> simp [sameAll, same_iff t, sameAll_iff rest]

end

instance : DecidableEq Tree := fun t t' => decidable_of_iff _ (same_iff t t')

/-- The blanks between two tokens, if there are any. -/
def ofBlanks : List Char → List Tree
  | [] => []
  | c :: s => [blank (c :: s)]

end Tree

/-! ## Reading -/

/-- Reads trees off the front of the input and answers them with the rest, or
fails. -/
abbrev Reader := List Char → Option (List Tree × List Char)

namespace Phrase

/-- Reads one more part and then further ones, each behind blanks.  Blanks with
no part behind them are left alone.  At most as many parts are read as the first
argument has characters. -/
def readMore (one : Reader) : List Char → List Char → List Tree × List Char
  | [], s => ([], s)
  | _ :: bound, s =>
    let (gap, s₁) := Scan.blanks s
    match one s₁ with
    | none => ([], s)
    | some (trees, s₂) =>
      let (more, s₃) := readMore one bound s₂
      (Tree.ofBlanks gap ++ trees ++ more, s₃)

/-- Reads as many parts as possible, with blanks in between. -/
def readMany (one : Reader) (s : List Char) : List Tree × List Char :=
  match one s with
  | none => ([], s)
  | some (trees, s₁) =>
    let (more, s₂) := readMore one s s₁
    (trees ++ more, s₂)

/-- Reads a phrase, where `inner` reads the phrase that `Phrase.body` names. -/
def readWith (inner : Reader) : Phrase → Reader
  | nothing, s => some ([], s)
  | mark scan, s => (scan s).map fun (text, rest) => ([Tree.mark text], rest)
  | token rule scan, s => (scan s).map fun (text, rest) => ([Tree.token rule text], rest)
  | node rule content, s =>
    (readWith inner content s).map fun (parts, rest) => ([Tree.node rule parts], rest)
  | seq first second, s =>
    match readWith inner first s with
    | none => none
    | some (trees, s₁) =>
      let (gap, s₂) := Scan.blanks s₁
      match readWith inner second s₂ with
      | none => none
      | some (more, s₃) => some (trees ++ Tree.ofBlanks gap ++ more, s₃)
  | alt first second, s =>
    match readWith inner first s with
    | none => readWith inner second s
    | some result => some result
  | opt content, s =>
    match readWith inner content s with
    | none => some ([], s)
    | some result => some result
  | star content, s => some (readMany (readWith inner content) s)
  | body, s => inner s

/-- Reads a phrase in which `Phrase.body` names `knot`, nested at most `depth`
deep. -/
def readAt (knot : Phrase) : Nat → Phrase → Reader
  | 0, p => readWith (fun _ => none) p
  | depth + 1, p => readWith (readAt knot depth knot) p

end Phrase

end MettaSchema
