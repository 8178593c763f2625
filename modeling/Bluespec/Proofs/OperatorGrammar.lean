import Bluespec.Token
import Bluespec.Tree.Basic

/-!
# The operator grammar — phrases, their tokens and their trees

The expressions that are built from names, don't-care marks, parentheses, suffixes, operators and
conditionals have a reference grammar of their own.  A **`Phrase`** is one derivation of it, with a constructor
for each alternative of a rule; nothing here mentions how an expression is read.

* **`tier`** — the rows of the table of binary operators, the tightest first.
* **`Category`** — the nonterminals.  `ladder k` is the level on which the first `k` rows may stand outside
  parentheses; its rule is `ladder (k + 1) ::= ladder k (op ladder k)*`, read from the left.
* **`Phrase.tokens`** — the tokens a derivation derives.
* **`Phrase.value`** — the tree of a derivation.
-/

namespace Bluespec

/-! ## Tokens of the grammar -/

/-- A token that is one fixed symbol. -/
abbrev Mark (p : Punct) : Type := { t : Token // t.kind = .punct p }

/-- A token that is a name of a value. -/
abbrev Name : Type := { t : Token // t.kind = .ident }

/-- A token that stands for a unary operator. -/
abbrev UnaryMark (op : UnaryOp) : Type := { t : Token // UnaryOp.ofKind? t.kind = some op }

/-- A token that stands for a binary operator. -/
abbrev BinaryMark (op : BinaryOp) : Type := { t : Token // BinaryOp.ofKind? t.kind = some op }

/-! ## The table of binary operators -/

/-- The rows of the table, the tightest first. -/
def tiers : List (List BinaryOp) :=
  [[.mul, .div, .mod], [.add, .sub], [.shl, .shr], [.lt, .lte, .gt, .gte], [.eq, .neq], [.bitAnd],
   [.bitXor], [.bitXnor], [.bitOr], [.and], [.or]]

/-- One row of the table. -/
def tier (k : Nat) : List BinaryOp := tiers.getD k []

/-- The nonterminals of the operator grammar. -/
inductive Category
  /-- `expr ::= ladder | ladder (and ladder)* ? expr : expr`, with the mark `&&&` for `and` -/
  | expr
  /-- `conjuncts ::= (and ladder)*` -/
  | conjuncts
  /-- `ladder 0 ::= unary` and `ladder (k + 1) ::= ladder k links k` -/
  | ladder (k : Nat)
  /-- `links k ::= (op ladder k)*`, where `op` stands in row `k` -/
  | links (k : Nat)
  /-- `unary ::= op unary | atom suffixes` -/
  | unary
  /-- `atom ::= name | ? | ( expr )` -/
  | atom
  /-- `suffixes ::= (( args ) | [ expr ] | [ expr : expr ] | . name | . name ( args ))*`.  Right after `. name`
  no call may come (`call` is false): there parentheses make a method call. -/
  | suffixes (call : Bool)
  /-- `args ::= nothing | expr moreArgs` -/
  | args
  /-- `moreArgs ::= (, expr)*` -/
  | moreArgs

/-- A derivation of the operator grammar from a nonterminal. -/
inductive Phrase : Category → Type
  | plain (b : Phrase (.ladder 11)) : Phrase .expr
  | cond (first : Phrase (.ladder 11)) (more : Phrase .conjuncts) (question : Mark .question)
      (thenBranch : Phrase .expr) (colon : Mark .colon) (elseBranch : Phrase .expr) : Phrase .expr
  | noConjunct : Phrase .conjuncts
  | conjunct (sign : Mark .ampAmpAmp) (b : Phrase (.ladder 11)) (more : Phrase .conjuncts) :
      Phrase .conjuncts
  | tightest (u : Phrase .unary) : Phrase (.ladder 0)
  | chain {k : Nat} (first : Phrase (.ladder k)) (rest : Phrase (.links k)) : Phrase (.ladder (k + 1))
  | noLink {k : Nat} : Phrase (.links k)
  | link {k : Nat} (op : BinaryOp) (row : op ∈ tier k) (sign : BinaryMark op) (b : Phrase (.ladder k))
      (rest : Phrase (.links k)) : Phrase (.links k)
  | unary (op : UnaryOp) (sign : UnaryMark op) (u : Phrase .unary) : Phrase .unary
  | operand (a : Phrase .atom) (s : Phrase (.suffixes true)) : Phrase .unary
  | name (t : Name) : Phrase .atom
  | dontCare (t : Mark .question) : Phrase .atom
  | group (opening : Mark .lparen) (e : Phrase .expr) (closing : Mark .rparen) : Phrase .atom
  | noSuffix {call : Bool} : Phrase (.suffixes call)
  | call (opening : Mark .lparen) (args : Phrase .args) (closing : Mark .rparen)
      (rest : Phrase (.suffixes true)) : Phrase (.suffixes true)
  | bit {call : Bool} (opening : Mark .lbracket) (i : Phrase .expr) (closing : Mark .rbracket)
      (rest : Phrase (.suffixes true)) : Phrase (.suffixes call)
  | range {call : Bool} (opening : Mark .lbracket) (hi : Phrase .expr) (colon : Mark .colon)
      (lo : Phrase .expr) (closing : Mark .rbracket) (rest : Phrase (.suffixes true)) :
      Phrase (.suffixes call)
  | field {call : Bool} (dot : Mark .dot) (member : Name) (rest : Phrase (.suffixes false)) :
      Phrase (.suffixes call)
  | method {call : Bool} (dot : Mark .dot) (member : Name) (opening : Mark .lparen) (args : Phrase .args)
      (closing : Mark .rparen) (rest : Phrase (.suffixes true)) : Phrase (.suffixes call)
  | noArgs : Phrase .args
  | someArgs (e : Phrase .expr) (more : Phrase .moreArgs) : Phrase .args
  | noMoreArgs : Phrase .moreArgs
  | moreArgs (comma : Mark .comma) (e : Phrase .expr) (more : Phrase .moreArgs) : Phrase .moreArgs

namespace Phrase

/-- The tokens of a derivation, in order. -/
def tokens {n : Category} : Phrase n → List Token
  | plain b => b.tokens
  | cond first more question t colon e =>
      first.tokens ++ (more.tokens ++ question.val :: (t.tokens ++ colon.val :: e.tokens))
  | noConjunct => []
  | conjunct sign b more => sign.val :: (b.tokens ++ more.tokens)
  | tightest u => u.tokens
  | chain first rest => first.tokens ++ rest.tokens
  | noLink => []
  | link _ _ sign b rest => sign.val :: (b.tokens ++ rest.tokens)
  | unary _ sign u => sign.val :: u.tokens
  | operand a s => a.tokens ++ s.tokens
  | name t => [t.val]
  | dontCare t => [t.val]
  | group opening e closing => opening.val :: (e.tokens ++ [closing.val])
  | noSuffix => []
  | call opening args closing rest =>
      opening.val :: (args.tokens ++ closing.val :: rest.tokens)
  | bit opening i closing rest => opening.val :: (i.tokens ++ closing.val :: rest.tokens)
  | range opening hi colon lo closing rest =>
      opening.val :: (hi.tokens ++ colon.val :: (lo.tokens ++ closing.val :: rest.tokens))
  | field dot member rest => dot.val :: member.val :: rest.tokens
  | method dot member opening args closing rest =>
      dot.val :: member.val :: opening.val :: (args.tokens ++ closing.val :: rest.tokens)
  | noArgs => []
  | someArgs e more => e.tokens ++ more.tokens
  | noMoreArgs => []
  | moreArgs comma e more => comma.val :: (e.tokens ++ more.tokens)

end Phrase

/-! ## Trees -/

/-- What a derivation from a nonterminal denotes: a tree, trees in a row, or what is added to the tree on
its left. -/
abbrev Category.Value : Category → Type
  | .expr | .ladder _ | .unary | .atom => Expr
  | .links _ | .suffixes _ => Expr → Expr
  | .conjuncts | .args | .moreArgs => List Expr

/-- The span from an offset to the end of the last of some tokens. -/
def Span.through (start : Nat) (ts : List Token) : Span :=
  ⟨start, max ((ts.getLast?.map fun t => t.span.stop).getD 0) start⟩

theorem Span.through_concat (start : Nat) (ts : List Token) (t : Token) :
    Span.through start (ts ++ [t]) = .through start [t] := by
  rw [through, through, List.getLast?_concat, List.getLast?_singleton]

namespace Phrase

/-- The conditions of a conditional, with the span of all of them. -/
def predicate (first : Expr) (more : List Expr) (ts : List Token) : Predicate :=
  ⟨first :: more, if more.isEmpty then first.span else .through first.span.start ts⟩

/-- The tree of a derivation.  A binary operator takes all that stands on its left in its own row, and
parentheses only widen the span of what they hold. -/
def value {n : Category} : Phrase n → n.Value
  | plain b => b.value
  | cond first more _ t _ e =>
      ⟨.cond (predicate first.value more.value more.tokens) t.value e.value,
        .through (Expr.span first.value).start e.tokens⟩
  | noConjunct => []
  | conjunct _ b more => b.value :: more.value
  | tightest u => u.value
  | chain first rest => rest.value first.value
  | noLink => id
  | link op _ _ b rest => fun lhs : Expr =>
      rest.value ⟨.binary op lhs b.value, ⟨lhs.span.start, (Expr.span b.value).stop⟩⟩
  | unary op sign u => ⟨.unary op u.value, .through sign.val.span.start u.tokens⟩
  | operand a s => s.value a.value
  | name t => ⟨.var t.val.text, .through t.val.span.start [t.val]⟩
  | dontCare t => ⟨.dontCare, .through t.val.span.start [t.val]⟩
  | group opening e closing =>
      ⟨Expr.form e.value, .through opening.val.span.start [closing.val]⟩
  | noSuffix => id
  | call _ args closing rest => fun lhs : Expr =>
      rest.value ⟨.call lhs args.value, .through lhs.span.start [closing.val]⟩
  | bit _ i closing rest => fun lhs : Expr =>
      rest.value ⟨.select lhs i.value none, .through lhs.span.start [closing.val]⟩
  | range _ hi _ lo closing rest => fun lhs : Expr =>
      rest.value ⟨.select lhs hi.value (some lo.value), .through lhs.span.start [closing.val]⟩
  | field _ member rest => fun lhs : Expr =>
      rest.value ⟨.field lhs member.val.text, .through lhs.span.start [member.val]⟩
  | method _ member _ args closing rest => fun lhs : Expr =>
      rest.value ⟨.methodCall lhs member.val.text args.value, .through lhs.span.start [closing.val]⟩
  | noArgs => []
  | someArgs e more => e.value :: more.value
  | noMoreArgs => []
  | moreArgs _ e more => e.value :: more.value

end Phrase

/-! ## First tokens -/

/-- Whether a token begins a suffix of an operand. -/
def Kind.startsSuffix : Kind → Bool
  | .punct .lparen | .punct .lbracket | .punct .dot => true
  | _ => false

namespace Phrase

variable {cat : Category}

end Phrase

end Bluespec
