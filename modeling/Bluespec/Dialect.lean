/-!
# Statement dialects

The same statements appear in four surroundings, and each surrounding permits some leaf statements only.

* **`Dialect`** — the surroundings.
* **`Leaf`** — the statements whose place matters.
* **`Dialect.permits`** — the one table of what is permitted where.
-/

namespace Bluespec

/-- The surroundings of a statement. -/
inductive Dialect
  /-- Rules, action blocks and action methods. -/
  | action
  /-- Action blocks and methods that return a value. -/
  | actionValue
  /-- Blocks that stand for a value. -/
  | expression
  /-- Functions and value methods. -/
  | functionBody
deriving DecidableEq, Repr

/-- A statement that not every dialect permits. -/
inductive Leaf
  | registerWrite | bind | systemTask | return_ | exprStatement | actionBlock
deriving DecidableEq, Repr

namespace Dialect

/-- Whether the dialect permits the leaf statement.  Declarations, assignments, definitions, blocks and
conditionals are permitted everywhere. -/
def permits : Dialect → Leaf → Bool
  | .action, .return_ => false
  | .action, _ => true
  | .actionValue, _ => true
  | .expression, _ => false
  | .functionBody, .return_ => true
  | .functionBody, _ => false

/-- The surroundings in words. -/
def describe : Dialect → String
  | .action => "an action block"
  | .actionValue => "an actionvalue block"
  | .expression => "an expression block"
  | .functionBody => "a function body"

end Dialect

/-- The statement in words. -/
def Leaf.describe : Leaf → String
  | .registerWrite => "register write"
  | .bind => "`<-` binding"
  | .systemTask => "system task"
  | .return_ => "`return`"
  | .exprStatement => "expression statement"
  | .actionBlock => "action block"

end Bluespec
