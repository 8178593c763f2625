import Bluespec.Kind

/-!
# Operators

* **`UnaryOp`**, **`BinaryOp`** — the operators with their symbols.
* **`UnaryOp.ofKind?`**, **`BinaryOp.ofKind?`** — the operator that a token stands for.
* **`BinaryOp.power`** — how tightly an operator binds; every binary operator associates to the left.
* **`conditionalPower`**, **`unaryPower`** — the powers below and above all of them.
-/

namespace Bluespec

/-- An operator with one operand. -/
inductive UnaryOp
  | plus | neg | not | bitNot | reduceAnd | reduceNand | reduceOr | reduceNor | reduceXor | reduceXnor
deriving DecidableEq, Repr

namespace UnaryOp

/-- The symbol of an operator. -/
def symbol : UnaryOp → String
  | plus => "+"
  | neg => "-"
  | not => "!"
  | bitNot => "~"
  | reduceAnd => "&"
  | reduceNand => "~&"
  | reduceOr => "|"
  | reduceNor => "~|"
  | reduceXor => "^"
  | reduceXnor => "^~"

/-- The operator that a token stands for before an operand. -/
def ofPunct? : Punct → Option UnaryOp
  | .plus => some plus
  | .minus => some neg
  | .bang => some not
  | .tilde => some bitNot
  | .amp => some reduceAnd
  | .tildeAmp => some reduceNand
  | .pipe => some reduceOr
  | .tildePipe => some reduceNor
  | .caret => some reduceXor
  | .caretTilde | .tildeCaret => some reduceXnor
  | _ => none

/-- The operator that a token of a kind stands for before an operand. -/
def ofKind? : Kind → Option UnaryOp
  | .punct p => ofPunct? p
  | _ => none

end UnaryOp

/-- An operator between two operands. -/
inductive BinaryOp
  | mul | div | mod | add | sub | shl | shr | lt | lte | gt | gte | eq | neq | bitAnd | bitXor | bitXnor
  | bitOr | and | or
deriving DecidableEq, Repr

namespace BinaryOp

/-- The symbol of an operator. -/
def symbol : BinaryOp → String
  | mul => "*"
  | div => "/"
  | mod => "%"
  | add => "+"
  | sub => "-"
  | shl => "<<"
  | shr => ">>"
  | lt => "<"
  | lte => "<="
  | gt => ">"
  | gte => ">="
  | eq => "=="
  | neq => "!="
  | bitAnd => "&"
  | bitXor => "^"
  | bitXnor => "^~"
  | bitOr => "|"
  | and => "&&"
  | or => "||"

/-- The operator that a token stands for after an operand. -/
def ofPunct? : Punct → Option BinaryOp
  | .star => some mul
  | .slash => some div
  | .percent => some mod
  | .plus => some add
  | .minus => some sub
  | .shl => some shl
  | .shr => some shr
  | .lt => some lt
  | .lte => some lte
  | .gt => some gt
  | .gte => some gte
  | .eqEq => some eq
  | .neq => some neq
  | .amp => some bitAnd
  | .caret => some bitXor
  | .caretTilde | .tildeCaret => some bitXnor
  | .pipe => some bitOr
  | .ampAmp => some and
  | .pipePipe => some or
  | _ => none

/-- The operator that a token of a kind stands for after an operand. -/
def ofKind? : Kind → Option BinaryOp
  | .punct p => ofPunct? p
  | _ => none

/-- How tightly an operator binds. -/
def power : BinaryOp → Nat
  | mul | div | mod => 120
  | add | sub => 110
  | shl | shr => 100
  | lt | lte | gt | gte => 90
  | eq | neq => 80
  | bitAnd => 70
  | bitXor => 60
  | bitXnor => 50
  | bitOr => 40
  | and => 30
  | or => 20

end BinaryOp

/-- How tightly the conditional operator binds: less than every binary operator. -/
def conditionalPower : Nat := 10

/-- How tightly a unary operator binds: more than every binary operator. -/
def unaryPower : Nat := 130

theorem conditionalPower_lt_power (op : BinaryOp) : conditionalPower < op.power := by
  cases op <;> decide

end Bluespec
