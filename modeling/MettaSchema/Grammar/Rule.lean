/-!
# The rules of the schema grammar

Every construct of the schema language has a named rule.  The names are part of
what a reader of the library sees: they head the pairs of a match and they are
listed in syntax errors, in the order in which the grammar defines them.

* `Rule` — the rules, the end of the input first, then in grammar order.
* `Rule.name`, `Rule.ofName?` — their names, and the way back.
* `Rule.inGrammarOrder` — a set of rules, each once, in that order.
-/

namespace MettaSchema

/-- A rule of the schema grammar. -/
inductive Rule where
  /-- The end of the input. -/
  | endOfInput
  /-- One blank character. -/
  | whitespace
  /-- One comment. -/
  | comment
  /-- One character of a name. -/
  | identChar
  /-- A name. -/
  | ident
  /-- Names joined by dots. -/
  | fullIdent
  /-- Names joined by dots, perhaps after a leading dot. -/
  | typeName
  /-- An integer literal. -/
  | intLit
  /-- Any number, as it may stand in an option. -/
  | number
  /-- A string literal. -/
  | strLit
  /-- An option value in braces. -/
  | aggregate
  /-- An option value. -/
  | constant
  /-- The word `syntax`. -/
  | kwSyntax
  /-- The word `edition`. -/
  | kwEdition
  /-- The word `import`. -/
  | kwImport
  /-- The word `package`. -/
  | kwPackage
  /-- The word `option`. -/
  | kwOption
  /-- The word `message`. -/
  | kwMessage
  /-- The word `enum`. -/
  | kwEnum
  /-- The word `service`. -/
  | kwService
  /-- The word `rpc`. -/
  | kwRpc
  /-- The word `returns`. -/
  | kwReturns
  /-- The word `oneof`. -/
  | kwOneof
  /-- The word `map`. -/
  | kwMap
  /-- The word `group`. -/
  | kwGroup
  /-- The word `extend`. -/
  | kwExtend
  /-- The word `extensions`. -/
  | kwExtensions
  /-- The word `reserved`. -/
  | kwReserved
  /-- The word `to`. -/
  | kwTo
  /-- The word `max`. -/
  | kwMax
  /-- A whole schema file. -/
  | proto
  /-- The line that names the dialect. -/
  | syntaxLine
  /-- The line that names an edition. -/
  | editionLine
  /-- A statement of a file. -/
  | topLevel
  /-- A lone semicolon. -/
  | emptyStatement
  /-- An import statement. -/
  | importLine
  /-- The words that may qualify an import. -/
  | importModifier
  /-- A package statement. -/
  | packageLine
  /-- The name of an option. -/
  | optionName
  /-- One part of the name of an option. -/
  | optionPart
  /-- An option statement. -/
  | optionStatement
  /-- The options of a field, in brackets. -/
  | fieldOptions
  /-- One option of a field. -/
  | fieldOption
  /-- A message definition. -/
  | messageDef
  /-- The body of a message, in braces. -/
  | messageBody
  /-- A statement of a message body. -/
  | messageElement
  /-- How often a field occurs. -/
  | label
  /-- A plain field. -/
  | field
  /-- A map field. -/
  | mapField
  /-- A group: a field and a message in one. -/
  | groupField
  /-- A choice among fields. -/
  | oneofDef
  /-- Fields added to another message. -/
  | extendDef
  /-- Field numbers left to extensions. -/
  | extensions
  /-- Field numbers and names that may not be used. -/
  | reserved
  /-- Ranges of numbers, joined by commas. -/
  | ranges
  /-- One number, or a range of numbers. -/
  | range
  /-- Names that may not be used. -/
  | reservedNames
  /-- An enum definition. -/
  | enumDef
  /-- A value of an enum. -/
  | enumValue
  /-- A service definition. -/
  | serviceDef
  /-- A method of a service. -/
  | rpc
  /-- What a method takes. -/
  | rpcInput
  /-- What a method returns. -/
  | rpcOutput
  /-- The word `stream` in front of a type. -/
  | stream
  /-- The options of a method, in braces. -/
  | rpcBody
  deriving DecidableEq, Repr, Inhabited

namespace Rule

/-- All rules, in grammar order. -/
def all : List Rule :=
  [endOfInput, whitespace, comment, identChar, ident, fullIdent, typeName, intLit, number, strLit,
   aggregate, constant, kwSyntax, kwEdition, kwImport, kwPackage, kwOption, kwMessage, kwEnum,
   kwService, kwRpc, kwReturns, kwOneof, kwMap, kwGroup, kwExtend, kwExtensions, kwReserved, kwTo,
   kwMax, proto, syntaxLine, editionLine, topLevel, emptyStatement, importLine, importModifier,
   packageLine, optionName, optionPart, optionStatement, fieldOptions, fieldOption, messageDef,
   messageBody, messageElement, label, field, mapField, groupField, oneofDef, extendDef, extensions,
   reserved, ranges, range, reservedNames, enumDef, enumValue, serviceDef, rpc, rpcInput, rpcOutput,
   stream, rpcBody]

/-- The name of a rule, as pairs and syntax errors show it. -/
def name : Rule → String
  | endOfInput => "EOI"
  | whitespace => "WHITESPACE"
  | comment => "COMMENT"
  | identChar => "ident_char"
  | ident => "ident"
  | fullIdent => "full_ident"
  | typeName => "type_name"
  | intLit => "int_lit"
  | number => "number"
  | strLit => "str_lit"
  | aggregate => "aggregate"
  | constant => "constant"
  | kwSyntax => "kw_syntax"
  | kwEdition => "kw_edition"
  | kwImport => "kw_import"
  | kwPackage => "kw_package"
  | kwOption => "kw_option"
  | kwMessage => "kw_message"
  | kwEnum => "kw_enum"
  | kwService => "kw_service"
  | kwRpc => "kw_rpc"
  | kwReturns => "kw_returns"
  | kwOneof => "kw_oneof"
  | kwMap => "kw_map"
  | kwGroup => "kw_group"
  | kwExtend => "kw_extend"
  | kwExtensions => "kw_extensions"
  | kwReserved => "kw_reserved"
  | kwTo => "kw_to"
  | kwMax => "kw_max"
  | proto => "proto"
  | syntaxLine => "syntax"
  | editionLine => "edition"
  | topLevel => "top_level"
  | emptyStatement => "empty_statement"
  | importLine => "import"
  | importModifier => "import_modifier"
  | packageLine => "package"
  | optionName => "option_name"
  | optionPart => "option_part"
  | optionStatement => "option_statement"
  | fieldOptions => "field_options"
  | fieldOption => "field_option"
  | messageDef => "message_def"
  | messageBody => "message_body"
  | messageElement => "message_element"
  | label => "label"
  | field => "field"
  | mapField => "map_field"
  | groupField => "group_field"
  | oneofDef => "oneof_def"
  | extendDef => "extend_def"
  | extensions => "extensions"
  | reserved => "reserved"
  | ranges => "ranges"
  | range => "range"
  | reservedNames => "reserved_names"
  | enumDef => "enum_def"
  | enumValue => "enum_value"
  | serviceDef => "service_def"
  | rpc => "rpc"
  | rpcInput => "rpc_input"
  | rpcOutput => "rpc_output"
  | stream => "stream"
  | rpcBody => "rpc_body"

/-- The rule of a given name. -/
def ofName? (name : String) : Option Rule :=
  all.find? (·.name == name)

/-- The members of a list of rules, each once, in grammar order. -/
def inGrammarOrder (rules : List Rule) : List Rule :=
  all.filter (rules.contains ·)

end Rule

end MettaSchema
