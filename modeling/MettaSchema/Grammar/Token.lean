/-!
# Tokens

A token is the text that one atomic rule takes off the front of the input.  No
blank is skipped inside a token, and what follows a token never changes how much
of the input it takes: each scanner takes the one text that its rule allows, or
fails.

* `Scanner` — a function from the input to the text taken and the rest.
* `Scan.blanks` — the longest run of blanks and complete comments.
* `Scan.ident`, `Scan.dotted`, `Scan.typeName`, `Scan.optionName` — names.
* `Scan.intLit`, `Scan.number`, `Scan.strLit`, `Scan.aggregate` — values.
* `Scan.word`, `Scan.oneOfWords`, `Scan.stream` — words that end where a name
  would end.

Scanners recurse on the characters themselves, so they reduce on closed input.
-/

namespace MettaSchema

/-- Takes a text off the front of the input and answers it with the rest, or
fails. -/
abbrev Scanner := List Char → Option (List Char × List Char)

namespace Scan

/-! ## Characters -/

/-- The double quotation mark. -/
def doubleQuote : Char := '\x22'

/-- The single quotation mark. -/
def singleQuote : Char := '\x27'

/-- The opening brace. -/
def openBrace : Char := '\x7b'

/-- The closing brace. -/
def closeBrace : Char := '\x7d'

/-- Blank characters: space, tab, carriage return and line feed. -/
def isBlank (c : Char) : Bool :=
  c == ' ' || c == '\t' || c == '\r' || c == '\n'

/-- Characters that end a line. -/
def isLineEnd (c : Char) : Bool :=
  c == '\n' || c == '\r'

/-- Characters that can begin a name. -/
def isNameStart (c : Char) : Bool :=
  c.isAlpha || c == '_'

/-- Characters that can continue a name. -/
def isNameChar (c : Char) : Bool :=
  c.isAlphanum || c == '_'

/-- Octal digits. -/
def isOctDigit (c : Char) : Bool :=
  '0' ≤ c && c ≤ '7'

/-- Hexadecimal digits, in either case. -/
def isHexDigit (c : Char) : Bool :=
  c.isDigit || ('a' ≤ c && c ≤ 'f') || ('A' ≤ c && c ≤ 'F')

/-- Whether the text begins with a character of the given kind. -/
def startsWith (p : Char → Bool) : List Char → Bool
  | [] => false
  | c :: _ => p c

/-- Puts a character in front of the text taken. -/
def push (c : Char) (taken : List Char × List Char) : List Char × List Char :=
  (c :: taken.1, taken.2)

/-! ## Blanks -/

/-- Takes the text up to and including the first end mark of a block comment. -/
def blockEnd : Scanner
  | [] => none
  | [_] => none
  | c :: d :: s =>
    if c = '*' ∧ d = '/' then some ([c, d], s) else (blockEnd (d :: s)).map (push c)

/-- Takes one comment: from two slashes to just before the end of the line, or
from a slash and a star to the first star and slash after them. -/
def comment : Scanner
  | c :: d :: s =>
    if c = '/' ∧ d = '/' then
      some (c :: d :: s.takeWhile (!isLineEnd ·), s.dropWhile (!isLineEnd ·))
    else if c = '/' ∧ d = '*' then
      (blockEnd s).map fun taken => push c (push d taken)
    else none
  | _ => none

/-- Takes one blank character. -/
def blank : Scanner
  | c :: s => if isBlank c then some ([c], s) else none
  | [] => none

/-- Takes the longest run of blanks and comments, where the first `inside`
characters still belong to a comment that has been recognised. -/
def blanksFrom (inside : Nat) : List Char → List Char × List Char
  | [] => ([], [])
  | c :: s =>
    match inside with
    | k + 1 => push c (blanksFrom k s)
    | 0 =>
      if isBlank c then push c (blanksFrom 0 s)
      else
        match comment (c :: s) with
        | some (text, _) => push c (blanksFrom (text.length - 1) s)
        | none => ([], c :: s)

/-- Takes the longest run of blanks and complete comments, which may be empty. -/
def blanks (s : List Char) : List Char × List Char :=
  blanksFrom 0 s

/-! ## Words and punctuation -/

/-- Takes exactly the given text. -/
def exactly (text : List Char) : Scanner := fun s =>
  if text.isPrefixOf s then some (text, s.drop text.length) else none

/-- Takes what a scanner takes, provided the rest is as asked. -/
def before (scan : Scanner) (accept : List Char → Bool) : Scanner := fun s =>
  (scan s).filter fun taken => accept taken.2

/-- Takes the given word, unless a name would go on behind it. -/
def word (text : String) : Scanner :=
  before (exactly text.toList) fun rest => !startsWith isNameChar rest

/-- Takes one of the given words. -/
def oneOfWords (texts : List String) : Scanner := fun s =>
  texts.findSome? fun text => word text s

/-- Takes the word `stream`, provided a blank or a comment can follow it. -/
def stream : Scanner :=
  before (exactly "stream".toList) (startsWith fun c => isBlank c || c == '/')

/-- Takes one character of a name. -/
def nameChar : Scanner
  | c :: s => if isNameChar c then some ([c], s) else none
  | [] => none

/-! ## Names -/

/-- Takes the longest name. -/
def ident : Scanner
  | c :: s =>
    if isNameStart c then some (c :: s.takeWhile isNameChar, s.dropWhile isNameChar) else none
  | [] => none

/-- Takes what can continue a dotted name.  A dot belongs to the name only if
another name follows it. -/
def dottedTail : List Char → List Char × List Char
  | [] => ([], [])
  | c :: s =>
    if isNameChar c || (c == '.' && startsWith isNameStart s) then push c (dottedTail s)
    else ([], c :: s)

/-- Takes the longest sequence of names joined by dots. -/
def dotted : Scanner
  | c :: s => if isNameStart c then some (push c (dottedTail s)) else none
  | [] => none

/-- Takes a dotted name, with a leading dot if there is one. -/
def typeName : Scanner
  | c :: s => if c = '.' then (dotted s).map (push c) else dotted (c :: s)
  | [] => none

/-- Takes a name, or a type name in parentheses. -/
def optionPart : Scanner
  | c :: s =>
    if c = '(' then
      match typeName s with
      | some (text, d :: rest) =>
        if d = ')' then some (c :: (text ++ [d]), rest) else none
      | _ => none
    else ident (c :: s)
  | [] => none

/-- Takes further parts of the name of an option, each after a dot.  There are
at most as many as the first argument has characters. -/
def optionTail : List Char → List Char → List Char × List Char
  | _ :: bound, c :: s =>
    if c = '.' then
      match optionPart s with
      | some (text, rest) =>
        let (more, after) := optionTail bound rest
        (c :: (text ++ more), after)
      | none => ([], c :: s)
    else ([], c :: s)
  | _, s => ([], s)

/-- Takes the longest name of an option. -/
def optionName : Scanner := fun s =>
  (optionPart s).map fun (text, rest) =>
    let (more, after) := optionTail rest rest
    (text ++ more, after)

/-! ## Values -/

/-- Takes one of the given signs if there is one, then what the scanner takes. -/
def signed (signs : List Char) (scan : Scanner) : Scanner
  | c :: s => if signs.contains c then (scan s).map (push c) else scan (c :: s)
  | [] => scan []

/-- Takes the digits of an integer literal: hexadecimal after `0x`, octal after
`0`, decimal otherwise. -/
def magnitude : Scanner
  | [] => none
  | c :: s =>
    if c = '0' then
      match s with
      | x :: h :: r =>
        if (x == 'x' || x == 'X') && isHexDigit h then
          some (c :: x :: h :: r.takeWhile isHexDigit, r.dropWhile isHexDigit)
        else some (c :: s.takeWhile isOctDigit, s.dropWhile isOctDigit)
      | _ => some (c :: s.takeWhile isOctDigit, s.dropWhile isOctDigit)
    else if c.isDigit then some (c :: s.takeWhile Char.isDigit, s.dropWhile Char.isDigit)
    else none

/-- Takes an integer literal.  Neither a character of a name nor a dot may
follow it. -/
def intLit : Scanner :=
  before (signed ['-'] magnitude) fun rest => !startsWith (fun c => isNameChar c || c == '.') rest

/-- Takes what can continue a number: characters of names, dots, and a sign
directly after an exponent letter. -/
def numberTail : List Char → List Char × List Char
  | [] => ([], [])
  | [c] => if isNameChar c || c == '.' then ([c], []) else ([], [c])
  | c :: d :: s =>
    if (c == 'e' || c == 'E') && (d == '-' || d == '+') then push c (push d (numberTail s))
    else if isNameChar c || c == '.' then push c (numberTail (d :: s))
    else ([], c :: d :: s)

/-- Takes a number: a digit or a dot, then all that can continue it. -/
def number : Scanner :=
  signed ['-', '+'] fun s =>
    match s with
    | c :: s => if c.isDigit || c == '.' then some (push c (numberTail s)) else none
    | [] => none

/-- Takes the rest of a string literal, behind its opening quote.  A backslash
takes the next character with it, whatever that is; otherwise a line may not end
inside. -/
def quotedTail (quote : Char) : Scanner
  | [] => none
  | [c] => if c = quote then some ([c], []) else none
  | c :: d :: s =>
    if c = '\\' then (quotedTail quote s).map fun taken => push c (push d taken)
    else if c = quote then some ([c], d :: s)
    else if isLineEnd c then none
    else (quotedTail quote (d :: s)).map (push c)

/-- Takes a string literal. -/
def strLit : Scanner
  | c :: s =>
    if c = doubleQuote ∨ c = singleQuote then (quotedTail c s).map (push c) else none
  | [] => none

/-- Takes the rest of a value in braces that has `depth` further braces open
inside it, where the first `inside` characters still belong to a string literal
that has been recognised.  A quote that begins no string literal is an ordinary
character. -/
def braceTail (depth inside : Nat) : Scanner
  | [] => none
  | c :: s =>
    match inside with
    | k + 1 => (braceTail depth k s).map (push c)
    | 0 =>
      if c = closeBrace then
        match depth with
        | 0 => some ([c], s)
        | d + 1 => (braceTail d 0 s).map (push c)
      else if c = openBrace then (braceTail (depth + 1) 0 s).map (push c)
      else
        match strLit (c :: s) with
        | some (text, _) => (braceTail depth (text.length - 1) s).map (push c)
        | none => (braceTail depth 0 s).map (push c)

/-- Takes a value in braces, up to the brace that matches the opening one. -/
def aggregate : Scanner
  | c :: s => if c = openBrace then (braceTail 0 0 s).map (push c) else none
  | [] => none

/-- Takes nothing, at the end of the input only. -/
def endOfInput : Scanner
  | [] => some ([], [])
  | _ :: _ => none

end Scan

end MettaSchema
