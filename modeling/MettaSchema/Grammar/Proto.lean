import MettaSchema.Grammar.Phrase

/-!
# The grammar of schema files

The rules of the two dialects of the schema language, as phrases.  A message
body may contain message bodies; that is the only place where the grammar refers
to itself, and each body begins with a brace of its own, so a text nests at most
as deep as it is long.

* `Proto.file` — a whole file, up to the end of the input.
* `Proto.phrase` — the phrase of any rule.
* `Proto.read` — reads a phrase of this grammar off the front of a text.
-/

namespace MettaSchema

namespace Proto

open Phrase

/-! ## Names, literals and words -/

/-- A name. -/
def ident : Phrase := token .ident Scan.ident

/-- A dotted name. -/
def fullIdent : Phrase := token .fullIdent Scan.dotted

/-- A dotted name with or without a leading dot. -/
def typeName : Phrase := token .typeName Scan.typeName

/-- An integer literal. -/
def intLit : Phrase := token .intLit Scan.intLit

/-- A number of any kind. -/
def number : Phrase := token .number Scan.number

/-- A string literal. -/
def strLit : Phrase := token .strLit Scan.strLit

/-- An option value in braces. -/
def aggregate : Phrase := token .aggregate Scan.aggregate

/-- The name of an option. -/
def optionName : Phrase := token .optionName Scan.optionName

/-- A reserved word. -/
def keyword (rule : Rule) (text : String) : Phrase := token rule (Scan.word text)

/-- An opening brace. -/
def openBrace : Phrase := mark (Scan.exactly [Scan.openBrace])

/-- A closing brace. -/
def closeBrace : Phrase := mark (Scan.exactly [Scan.closeBrace])

/-- A lone semicolon. -/
def emptyStatement : Phrase := punct ";"

/-! ## Options -/

/-- The value of an option. -/
def constant : Phrase :=
  node .constant <| choice
    [aggregate,
     seq strLit (star strLit),
     intLit,
     number,
     seq (opt (choice [punct "-", punct "+"])) fullIdent]

/-- `option NAME = VALUE ;` -/
def optionStatement : Phrase :=
  node .optionStatement <| sequence
    [keyword .kwOption "option", optionName, punct "=", constant, punct ";"]

/-- `NAME = VALUE`, inside brackets. -/
def fieldOption : Phrase :=
  node .fieldOption <| sequence [optionName, punct "=", constant]

/-- `[ OPTION , … ]` -/
def fieldOptions : Phrase :=
  node .fieldOptions <| sequence
    [punct "[", fieldOption, star (seq (punct ",") fieldOption), punct "]"]

/-- A part of the name of an option, read on its own.  Blanks may stand between
the parentheses, and the names inside them are tokens. -/
def optionPart : Phrase :=
  choice
    [ident,
     sequence
      [punct "(", opt (punct "."), ident, star (seq (punct ".") ident), punct ")"]]

/-! ## Reserved and extension ranges -/

/-- `NUMBER` or `NUMBER to NUMBER` or `NUMBER to max` -/
def range : Phrase :=
  node .range <| seq intLit <|
    opt (seq (keyword .kwTo "to") (choice [intLit, keyword .kwMax "max"]))

/-- Ranges with commas in between. -/
def ranges : Phrase := node .ranges (separated (punct ",") range)

/-- Names, quoted or not, with commas in between. -/
def reservedNames : Phrase :=
  node .reservedNames (separated (punct ",") (choice [strLit, ident]))

/-- `reserved RANGES ;` or `reserved NAMES ;` -/
def reserved : Phrase :=
  node .reserved <| sequence
    [keyword .kwReserved "reserved", choice [ranges, reservedNames], punct ";"]

/-- `extensions RANGES [OPTIONS] ;` -/
def extensions : Phrase :=
  node .extensions <| sequence
    [keyword .kwExtensions "extensions", ranges, opt fieldOptions, punct ";"]

/-! ## Enums -/

/-- `NAME = NUMBER [OPTIONS] ;` -/
def enumValue : Phrase :=
  node .enumValue <| sequence [ident, punct "=", intLit, opt fieldOptions, punct ";"]

/-- `enum NAME { … }` -/
def enumDef : Phrase :=
  node .enumDef <| sequence
    [keyword .kwEnum "enum", ident, openBrace,
     star (choice [optionStatement, reserved, enumValue, emptyStatement]), closeBrace]

/-! ## Messages -/

/-- How often a field occurs. -/
def label : Phrase := token .label (Scan.oneOfWords ["optional", "required", "repeated"])

/-- `LABEL TYPE NAME = NUMBER [OPTIONS] ;` -/
def field : Phrase :=
  node .field <| sequence
    [opt label, typeName, ident, punct "=", intLit, opt fieldOptions, punct ";"]

/-- `map < TYPE , TYPE > NAME = NUMBER [OPTIONS] ;` -/
def mapField : Phrase :=
  node .mapField <| sequence
    [keyword .kwMap "map", punct "<", typeName, punct ",", typeName, punct ">", ident, punct "=",
     intLit, opt fieldOptions, punct ";"]

/-- `LABEL group NAME = NUMBER [OPTIONS] { … }` -/
def groupField : Phrase :=
  node .groupField <| sequence
    [opt label, keyword .kwGroup "group", ident, punct "=", intLit, opt fieldOptions, body]

/-- `oneof NAME { … }` -/
def oneofDef : Phrase :=
  node .oneofDef <| sequence
    [keyword .kwOneof "oneof", ident, openBrace,
     star (choice [optionStatement, groupField, field, emptyStatement]), closeBrace]

/-- `extend TYPE { … }` -/
def extendDef : Phrase :=
  node .extendDef <| sequence
    [keyword .kwExtend "extend", typeName, openBrace,
     star (choice [groupField, field, emptyStatement]), closeBrace]

/-- `message NAME { … }` -/
def messageDef : Phrase :=
  node .messageDef <| sequence [keyword .kwMessage "message", ident, body]

/-- A statement of a message body. -/
def messageElement : Phrase :=
  choice
    [optionStatement, reserved, extensions, messageDef, enumDef, extendDef, oneofDef, mapField,
     groupField, field, emptyStatement]

/-- The body of a message or of a group, to which the rules above refer. -/
def messageBody : Phrase :=
  node .messageBody <| sequence [openBrace, star messageElement, closeBrace]

/-! ## Services -/

/-- The word `stream` in front of a type. -/
def stream : Phrase := token .stream Scan.stream

/-- What a method takes. -/
def rpcInput : Phrase := node .rpcInput (seq (opt stream) typeName)

/-- What a method returns. -/
def rpcOutput : Phrase := node .rpcOutput (seq (opt stream) typeName)

/-- The options of a method, in braces. -/
def rpcBody : Phrase :=
  sequence [openBrace, star (choice [optionStatement, emptyStatement]), closeBrace]

/-- `rpc NAME ( INPUT ) returns ( OUTPUT )` and a body or a semicolon -/
def rpc : Phrase :=
  node .rpc <| sequence
    [keyword .kwRpc "rpc", ident, punct "(", rpcInput, punct ")", keyword .kwReturns "returns",
     punct "(", rpcOutput, punct ")", choice [rpcBody, punct ";"]]

/-- `service NAME { … }` -/
def serviceDef : Phrase :=
  node .serviceDef <| sequence
    [keyword .kwService "service", ident, openBrace,
     star (choice [optionStatement, rpc, emptyStatement]), closeBrace]

/-! ## Files -/

/-- `syntax = STRING ;` -/
def syntaxLine : Phrase :=
  node .syntaxLine <| sequence [keyword .kwSyntax "syntax", punct "=", strLit, punct ";"]

/-- `edition = STRING ;` -/
def editionLine : Phrase :=
  node .editionLine <| sequence [keyword .kwEdition "edition", punct "=", strLit, punct ";"]

/-- The words that may qualify an import. -/
def importModifier : Phrase := token .importModifier (Scan.oneOfWords ["public", "weak"])

/-- `import STRING ;` -/
def importLine : Phrase :=
  node .importLine <| sequence
    [keyword .kwImport "import", opt importModifier, strLit, punct ";"]

/-- `package NAME ;` -/
def packageLine : Phrase :=
  node .packageLine <| sequence [keyword .kwPackage "package", fullIdent, punct ";"]

/-- A statement of a file. -/
def topLevel : Phrase :=
  choice
    [importLine, packageLine, optionStatement, messageDef, enumDef, serviceDef, extendDef,
     emptyStatement]

/-- A whole file: blanks may stand before the first statement and behind the
last, and nothing else may. -/
def file : Phrase :=
  node .proto <| sequence
    [nothing, opt (choice [syntaxLine, editionLine]), star topLevel,
     token .endOfInput Scan.endOfInput]

/-! ## Reading -/

/-- The phrase of a rule. -/
def phrase : Rule → Phrase
  | .endOfInput => token .endOfInput Scan.endOfInput
  | .whitespace => mark Scan.blank
  | .comment => mark Scan.comment
  | .identChar => mark Scan.nameChar
  | .ident => ident
  | .fullIdent => fullIdent
  | .typeName => typeName
  | .intLit => intLit
  | .number => number
  | .strLit => strLit
  | .aggregate => aggregate
  | .constant => constant
  | .kwSyntax => keyword .kwSyntax "syntax"
  | .kwEdition => keyword .kwEdition "edition"
  | .kwImport => keyword .kwImport "import"
  | .kwPackage => keyword .kwPackage "package"
  | .kwOption => keyword .kwOption "option"
  | .kwMessage => keyword .kwMessage "message"
  | .kwEnum => keyword .kwEnum "enum"
  | .kwService => keyword .kwService "service"
  | .kwRpc => keyword .kwRpc "rpc"
  | .kwReturns => keyword .kwReturns "returns"
  | .kwOneof => keyword .kwOneof "oneof"
  | .kwMap => keyword .kwMap "map"
  | .kwGroup => keyword .kwGroup "group"
  | .kwExtend => keyword .kwExtend "extend"
  | .kwExtensions => keyword .kwExtensions "extensions"
  | .kwReserved => keyword .kwReserved "reserved"
  | .kwTo => keyword .kwTo "to"
  | .kwMax => keyword .kwMax "max"
  | .proto => file
  | .syntaxLine => syntaxLine
  | .editionLine => editionLine
  | .topLevel => topLevel
  | .emptyStatement => emptyStatement
  | .importLine => importLine
  | .importModifier => importModifier
  | .packageLine => packageLine
  | .optionName => optionName
  | .optionPart => optionPart
  | .optionStatement => optionStatement
  | .fieldOptions => fieldOptions
  | .fieldOption => fieldOption
  | .messageDef => messageDef
  | .messageBody => messageBody
  | .messageElement => messageElement
  | .label => label
  | .field => field
  | .mapField => mapField
  | .groupField => groupField
  | .oneofDef => oneofDef
  | .extendDef => extendDef
  | .extensions => extensions
  | .reserved => reserved
  | .ranges => ranges
  | .range => range
  | .reservedNames => reservedNames
  | .enumDef => enumDef
  | .enumValue => enumValue
  | .serviceDef => serviceDef
  | .rpc => rpc
  | .rpcInput => rpcInput
  | .rpcOutput => rpcOutput
  | .stream => stream
  | .rpcBody => rpcBody

/-- Reads a phrase of this grammar off the front of a text.  Every message body
takes a brace, so its length bounds how deep bodies can nest in it. -/
def read (p : Phrase) (s : List Char) : Option (List Tree × List Char) :=
  readAt messageBody s.length p s

end Proto

end MettaSchema
