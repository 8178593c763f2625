/-!
# Kinds of tokens and tree nodes

* **`Punct`**, **`Keyword`** — the fixed symbols and the reserved words, with their spellings.
* **`NodeKind`** — the kinds of inner nodes of the concrete tree.
* **`Kind`** — the kind of any token or node.  `Kind.describe` is its name in diagnostics, and
  `Kind.number` its place in the fixed enumeration `Kind.all`.
-/

namespace Bluespec

/-! ## Fixed symbols -/

/-- A fixed symbol. -/
inductive Punct
  | lparen | rparen | lbrace | rbrace | lbracket | rbracket | attrOpen | attrClose | semi | comma
  | dot | dotDot | colon | colonColon | hash | question | eq | eqEq | neq | lt | lte | gt | gte
  | shl | shr | larrow | plus | minus | star | slash | percent | bang | tilde | amp | tildeAmp
  | pipe | tildePipe | caret | caretTilde | tildeCaret | ampAmp | ampAmpAmp | pipePipe
deriving DecidableEq, Repr

namespace Punct

/-- Every fixed symbol, in the order of the enumeration. -/
def all : List Punct :=
  [.lparen, .rparen, .lbrace, .rbrace, .lbracket, .rbracket, .attrOpen, .attrClose, .semi, .comma,
   .dot, .dotDot, .colon, .colonColon, .hash, .question, .eq, .eqEq, .neq, .lt, .lte, .gt, .gte,
   .shl, .shr, .larrow, .plus, .minus, .star, .slash, .percent, .bang, .tilde, .amp, .tildeAmp,
   .pipe, .tildePipe, .caret, .caretTilde, .tildeCaret, .ampAmp, .ampAmpAmp, .pipePipe]

/-- The text of a symbol. -/
def spelling : Punct → String
  | .lparen => "("
  | .rparen => ")"
  | .lbrace => "\x7b"
  | .rbrace => "\x7d"
  | .lbracket => "["
  | .rbracket => "]"
  | .attrOpen => "(*"
  | .attrClose => "*)"
  | .semi => ";"
  | .comma => ","
  | .dot => "."
  | .dotDot => ".."
  | .colon => ":"
  | .colonColon => "::"
  | .hash => "#"
  | .question => "?"
  | .eq => "="
  | .eqEq => "=="
  | .neq => "!="
  | .lt => "<"
  | .lte => "<="
  | .gt => ">"
  | .gte => ">="
  | .shl => "<<"
  | .shr => ">>"
  | .larrow => "<-"
  | .plus => "+"
  | .minus => "-"
  | .star => "*"
  | .slash => "/"
  | .percent => "%"
  | .bang => "!"
  | .tilde => "~"
  | .amp => "&"
  | .tildeAmp => "~&"
  | .pipe => "|"
  | .tildePipe => "~|"
  | .caret => "^"
  | .caretTilde => "^~"
  | .tildeCaret => "~^"
  | .ampAmp => "&&"
  | .ampAmpAmp => "&&&"
  | .pipePipe => "||"

end Punct

/-! ## Reserved words -/

/-- A reserved word. -/
inductive Keyword
  | action | actionvalue | begin | bit | case | else_ | end_ | endaction | endactionvalue
  | endcase | endfunction | endinstance | endinterface | endmethod | endmodule | endpackage
  | endrule | endtypeclass | export_ | for_ | function | if_ | import_ | instance_ | interface
  | let_ | matches_ | method | module | numeric | package | parameter | provisos | return_ | rule
  | string | tagged | type | typeclass | typeDef | valueOf | while_
deriving DecidableEq, Repr

namespace Keyword

/-- Every reserved word, in the order of the enumeration. -/
def all : List Keyword :=
  [.action, .actionvalue, .begin, .bit, .case, .else_, .end_, .endaction, .endactionvalue,
   .endcase, .endfunction, .endinstance, .endinterface, .endmethod, .endmodule, .endpackage,
   .endrule, .endtypeclass, .export_, .for_, .function, .if_, .import_, .instance_, .interface,
   .let_, .matches_, .method, .module, .numeric, .package, .parameter, .provisos, .return_, .rule,
   .string, .tagged, .type, .typeclass, .typeDef, .valueOf, .while_]

/-- The text of a reserved word. -/
def spelling : Keyword → String
  | .action => "action"
  | .actionvalue => "actionvalue"
  | .begin => "begin"
  | .bit => "bit"
  | .case => "case"
  | .else_ => "else"
  | .end_ => "end"
  | .endaction => "endaction"
  | .endactionvalue => "endactionvalue"
  | .endcase => "endcase"
  | .endfunction => "endfunction"
  | .endinstance => "endinstance"
  | .endinterface => "endinterface"
  | .endmethod => "endmethod"
  | .endmodule => "endmodule"
  | .endpackage => "endpackage"
  | .endrule => "endrule"
  | .endtypeclass => "endtypeclass"
  | .export_ => "export"
  | .for_ => "for"
  | .function => "function"
  | .if_ => "if"
  | .import_ => "import"
  | .instance_ => "instance"
  | .interface => "interface"
  | .let_ => "let"
  | .matches_ => "matches"
  | .method => "method"
  | .module => "module"
  | .numeric => "numeric"
  | .package => "package"
  | .parameter => "parameter"
  | .provisos => "provisos"
  | .return_ => "return"
  | .rule => "rule"
  | .string => "string"
  | .tagged => "tagged"
  | .type => "type"
  | .typeclass => "typeclass"
  | .typeDef => "typedef"
  | .valueOf => "valueOf"
  | .while_ => "while"

/-- Whether the word closes a block or the body of a definition. -/
def isCloser : Keyword → Bool
  | .end_ | .endaction | .endactionvalue | .endcase | .endfunction | .endinstance | .endinterface
  | .endmethod | .endmodule | .endpackage | .endrule | .endtypeclass => true
  | _ => false

/-- The reserved word of a spelling.  The word for the value of a numeric type may be written without
its capital letter. -/
def ofSpelling? (text : String) : Option Keyword :=
  if text = "valueof" then some .valueOf else all.find? fun k => k.spelling == text

end Keyword

/-! ## Nodes and kinds -/

/-- The kind of an inner node of the concrete tree. -/
inductive NodeKind
  | sourceFile | package | exportDecl | importDecl | interfaceDecl | moduleDef | functionDef
  | varDecl | varAssign | rule | methodDef | subinterfaceDef
deriving DecidableEq, Repr

namespace NodeKind

/-- Every kind of node, in the order of the enumeration. -/
def all : List NodeKind :=
  [.sourceFile, .package, .exportDecl, .importDecl, .interfaceDecl, .moduleDef, .functionDef,
   .varDecl, .varAssign, .rule, .methodDef, .subinterfaceDef]

/-- The name of a kind of node. -/
def describe : NodeKind → String
  | .sourceFile => "source file"
  | .package => "package"
  | .exportDecl => "export declaration"
  | .importDecl => "import declaration"
  | .interfaceDecl => "interface declaration"
  | .moduleDef => "module definition"
  | .functionDef => "function definition"
  | .varDecl => "variable declaration"
  | .varAssign => "variable assignment"
  | .rule => "rule"
  | .methodDef => "method definition"
  | .subinterfaceDef => "subinterface definition"

end NodeKind

/-- The kind of a token or of a node of the concrete tree. -/
inductive Kind
  /-- A line or block comment. -/
  | comment
  /-- Blanks between tokens. -/
  | whitespace
  /-- A name of a value: `x`, `mkTop`. -/
  | ident
  /-- A name of a type: `Bit`, `Reg`. -/
  | typeIdent
  /-- A system name: `$display`. -/
  | systemIdent
  /-- An integer literal. -/
  | int
  /-- A fill literal. -/
  | fill
  /-- A real literal. -/
  | real
  /-- A string literal. -/
  | string
  /-- A fixed symbol. -/
  | punct (p : Punct)
  /-- A reserved word. -/
  | keyword (k : Keyword)
  /-- An inner node. -/
  | node (n : NodeKind)
  /-- Text that is no token. -/
  | error
deriving DecidableEq, Repr

namespace Kind

/-- Every kind, in the order of the enumeration. -/
def all : List Kind :=
  [.comment, .whitespace, .ident, .typeIdent, .systemIdent, .int, .fill, .real, .string] ++
    Punct.all.map .punct ++ Keyword.all.map .keyword ++ NodeKind.all.map .node ++ [.error]

/-- The place of a kind in the enumeration. -/
def number (k : Kind) : Nat := all.idxOf k

/-- The kind at a place of the enumeration; past the last one stands `error`. -/
def ofNumber (n : Nat) : Kind := all.getD n .error

/-- Blanks and comments: kept in the concrete tree, never seen by the grammar. -/
def isTrivia : Kind → Bool
  | .whitespace | .comment => true
  | _ => false

/-- Reserved words. -/
def isKeyword : Kind → Bool
  | .keyword _ => true
  | _ => false

/-- Reserved words that close a block or the body of a definition. -/
def isCloser : Kind → Bool
  | .keyword k => k.isCloser
  | _ => false

/-- The kind's name in diagnostics; symbols and words are quoted. -/
def describe : Kind → String
  | .comment => "comment"
  | .whitespace => "whitespace"
  | .ident => "identifier"
  | .typeIdent => "type identifier"
  | .systemIdent => "system identifier"
  | .int => "integer literal"
  | .fill => "fill literal"
  | .real => "real literal"
  | .string => "string literal"
  | .punct p => "`" ++ p.spelling ++ "`"
  | .keyword k => "`" ++ k.spelling ++ "`"
  | .node n => n.describe
  | .error => "invalid text"

/-- The name in diagnostics of what is found at a place, where nothing stands for the end of input. -/
def describeFound : Option Kind → String
  | none => "end of input"
  | some k => k.describe

/-- The kind of a word: a reserved word if it is one; else a capital as the first character that is no
underscore makes a type name, and anything else a value name. -/
def ofWord (text : String) : Kind :=
  match Keyword.ofSpelling? text with
  | some k => .keyword k
  | none =>
    match text.toList.find? (· != '_') with
    | some c => if c.isUpper then .typeIdent else .ident
    | none => .ident

end Kind

end Bluespec
