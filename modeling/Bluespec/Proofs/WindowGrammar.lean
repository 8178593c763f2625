import Bluespec.Proofs.Windows

/-!
# Expressions and statements in a window

Types and expressions that begin in front of the semicolon of a window end in front of it, with as many brackets open as
before.  A statement that is read ends behind a semicolon of the window outside of brackets; one that fails leaves the
cursor in front of the last semicolon, or behind one.

* **`Window.Levels.expr`** — expressions, by levels of the grammar.
* **`Window.Ends`** — a parser that ends behind a semicolon; **`Window.Ends.innerStmt`** — statements.
-/

namespace Bluespec

open Bluespec.Parser

/-- A binary operator is no semicolon and no bracket. -/
theorem BinaryOp.levels {k : Kind} {op : BinaryOp} (h : BinaryOp.ofKind? k = some op) :
    k ≠ .punct .semi ∧ ∀ depth, Extent.depthAfter depth k = depth := by
  cases k with
  | punct p => cases p <;> first | exact ⟨by decide, fun _ => rfl⟩ | cases h
  | _ => cases h

/-- A unary operator is no semicolon and no bracket. -/
theorem UnaryOp.levels {k : Kind} {op : UnaryOp} (h : UnaryOp.ofKind? k = some op) :
    k ≠ .punct .semi ∧ ∀ depth, Extent.depthAfter depth k = depth := by
  cases k with
  | punct p => cases p <;> first | exact ⟨by decide, fun _ => rfl⟩ | cases h
  | _ => cases h

namespace Window

open Keeps

variable {w : Window} (hw : w.Plain) {depth : Nat} {g : Grammar}

/-- No reserved word comes next. -/
theorem not_plain_keyword {k : Kind} {word : Keyword} (hk : k.isPlain = true) : some k ≠ some (.keyword word) := by
  rintro h
  cases h
  cases hk

namespace Levels

include hw

/-! ## Types -/

theorem typeForm {inner : Parser TypeExpr} (h : ∀ depth, w.Levels depth inner) : w.Levels depth (typeForm inner) := by
  refine peek hw fun k hk => ?_
  split
  · refine (expectText hw (by decide)).weaken.bind fun name => accept hw (by decide) ?_ (value rfl)
    exact (expectPunct hw (by decide)).bind fun _ => (separated hw (h _)).bind fun _ =>
      (expectPunct hw (by decide)).bind fun _ => value rfl
  · exact (expectText hw (by decide)).weaken.bind fun _ => value rfl
  · refine (expect hw (by decide)).weaken.bind fun t => ?_
    split
    · exact value rfl
    · exact report (reports_report _ _ ⟨nofun, nofun⟩) fail
  · next heq => exact absurd heq (not_plain_keyword hk)
  · exact failExpected

theorem type : w.Levels depth type := by
  have hlimit : ∀ limit depth, w.Levels depth (typeUpTo limit) := by
    intro limit
    induction limit with
    | zero => exact fun _ => fail
    | succ limit ih => exact fun depth => look looks_offset fun start => (typeForm hw ih).bind fun _ => spanned fun _ => rfl
  exact fun c s hs hH => hlimit _ depth c s hs hH

/-! ## Lists in brackets and suffixes -/

variable (hg : ∀ depth min, w.Levels depth (g.innerExpr min))

include hg

theorem arguments : w.Levels depth g.arguments :=
  (expectPunct hw (by decide)).bind fun _ => enclosed hw (hg _ 0)

theorem fieldBind : w.Levels depth g.fieldBind :=
  look looks_offset fun _ => (expectText hw (by decide)).bind fun _ => (expectPunct hw (by decide)).bind fun _ =>
    (hg _ 0).bind fun _ => spanned fun _ => rfl

theorem fieldBinds : w.Levels depth g.fieldBinds :=
  (expectPunct hw (by decide)).bind fun _ => (separated hw (fieldBind hw hg)).bind fun _ =>
    (expectPunct hw (by decide)).bind fun _ => value rfl

theorem concatItems : w.Levels depth g.concatItems :=
  (expectPunct hw (by decide)).bind fun _ => (separated hw (hg _ 0)).bind fun _ =>
    (expectPunct hw (by decide)).bind fun _ => value rfl

theorem selection (base : Expr) : w.Keeps (· = some (.punct .lbracket)) depth (fun _ => w.At depth) (g.selection base) := by
  refine (skip hw (by decide)).bind fun _ => (hg _ 0).bind fun hi => ?_
  have hend : ∀ lo, w.Keeps any (depth + 1) (fun _ => w.At depth)
      (Parser.expectPunct .rbracket >>= fun _ => pure (ExprForm.select base hi lo)) := fun lo =>
    (expectPunct hw (by decide)).bind fun _ => value rfl
  exact accept hw (by decide) (optional (hg _ 0) hend) (optional (hg _ 0) hend)

theorem memberOf (receiver : Expr) : w.Keeps (· = some (.punct .dot)) depth (fun _ => w.At depth) (g.memberOf receiver) :=
  (skip hw (by decide)).bind fun _ => (expectText hw (by decide)).bind fun _ =>
    isNext hw (fun _ => (arguments hw hg).weaken.bind fun _ => value rfl) (value rfl)

theorem suffix (e : Expr) : w.Levels depth (g.suffix e) := by
  refine peek hw fun k hk => ?_
  split
  · exact (arguments hw hg).weaken.bind fun _ => spanned fun _ => rfl
  · next heq =>
    cases heq
    exact (selection hw hg e).bind fun _ => spanned fun _ => rfl
  · next heq =>
    cases heq
    exact (memberOf hw hg e).bind fun _ => spanned fun _ => rfl
  · exact value rfl

theorem suffixes (e : Expr) : w.Levels depth (g.suffixes e) := repeatUntil (suffix hw hg) e

/-! ## Operators -/

theorem furtherConjuncts (min : Nat) : w.Levels depth (g.furtherConjuncts min) := by
  refine repeatUntil (fun read => accept hw (by decide) ?_ ?_) []
  · exact (hg _ min).bind fun _ => value rfl
  · exact value rfl

theorem conditional (predicate : Predicate) : w.Levels depth (g.conditional predicate) :=
  (expectPunct hw (by decide)).bind fun _ => (hg _ 0).bind fun _ => (expectPunct hw (by decide)).bind fun _ =>
    (hg _ _).bind fun _ => spanned fun _ => rfl

theorem conjunctsOfConditional : w.Levels depth g.conjunctsOfConditional := by
  refine (furtherConjuncts hw hg _).bind fun others => look (looks_isNext _) fun b => ?_
  split
  · exact value rfl
  · exact fail

theorem chained (hmoves : g.Onward) (first : Expr) : w.Levels depth (g.chained first) := by
  refine (tentatively (conjunctsOfConditional hw hg) hmoves.conjunctsOfConditional).bind fun others => ?_
  cases others with
  | some others => exact look (looks_spanFrom _) fun _ => (conditional hw hg _).bind fun _ => value rfl
  | none => exact value rfl

theorem operation (hmoves : g.Onward) (min : Nat) (lhs : Expr) : w.Levels depth (g.operation min lhs) := by
  refine peek hw fun k hk => ?_
  split
  · split
    · exact (conditional hw hg _).weaken.bind fun _ => value rfl
    · exact value rfl
  · split
    · exact (chained hw hg hmoves lhs).weaken
    · exact value rfl
  · next heq => exact absurd heq (not_plain_keyword hk)
  · split
    · next op hop =>
      obtain ⟨hsemi, hdepth⟩ := BinaryOp.levels hop
      split
      · refine (skip hw hsemi).bind fun _ => ?_
        rw [hdepth]
        exact (hg _ _).bind fun _ => value rfl
      · exact value rfl
    · exact value rfl

theorem operations (hmoves : g.Onward) (min : Nat) (lhs : Expr) : w.Levels depth (g.operations min lhs) :=
  repeatUntil (operation hw hg hmoves min) lhs

/-! ## Expressions -/

omit hg in
/-- A literal of a kind that is no bracket. -/
theorem literal {k : Kind} (hsemi : k ≠ .punct .semi) (hdepth : Extent.depthAfter depth k = depth) :
    w.Levels depth (Grammar.literal k) := by
  refine (expect hw hsemi).bind fun t => ?_
  rw [hdepth]
  split
  · exact value rfl
  · exact report (reports_report _ _ ⟨nofun, nofun⟩) fail

omit hg in
/-- The arguments of a system task are stepped over as a group. -/
theorem skipParenthesized : w.Levels depth skipParenthesized := by
  refine isNext hw (fun _ c s hs hk => ?_) (value rfl)
  have hat := hs.advance_group hw hk rfl
  refine ⟨nofun, fun a s' hrun => ?_⟩
  cases hrun
  exact hat

omit hg in
theorem systemCall : w.Keeps (· = some .systemIdent) depth (fun _ => w.At depth) Grammar.systemCall :=
  look looks_offset fun _ => (skip hw (by decide)).bind fun _ => (skipParenthesized hw).bind fun _ =>
    still fun _ _ => ⟨rfl, rfl⟩

theorem primary : w.Levels depth g.primary := by
  refine look looks_offset fun start => peek hw fun k hk => ?_
  split
  · exact (expectText hw (by decide)).weaken.bind fun _ => spanned fun _ => rfl
  · refine (expectText hw (by decide)).weaken.bind fun name => isNext hw (fun _ => ?_) (spanned fun _ => rfl)
    exact (fieldBinds hw hg).weaken.bind fun _ => spanned fun _ => rfl
  · exact (literal hw (by decide) rfl).weaken.bind fun _ => spanned fun _ => rfl
  · exact (literal hw (by decide) rfl).weaken.bind fun _ => spanned fun _ => rfl
  · exact (literal hw (by decide) rfl).weaken.bind fun _ => spanned fun _ => rfl
  · exact (literal hw (by decide) rfl).weaken.bind fun _ => spanned fun _ => rfl
  · next heq =>
    cases heq
    exact (skip hw (by decide)).bind fun _ => spanned fun _ => rfl
  · next heq =>
    cases heq
    exact (skip hw (by decide)).bind fun _ => (hg _ 0).bind fun _ => (expectPunct hw (by decide)).bind fun _ =>
      spanned fun _ => rfl
  · exact (concatItems hw hg).weaken.bind fun _ => spanned fun _ => rfl
  · next heq => exact absurd heq (not_plain_keyword hk)
  · next heq => exact absurd heq (not_plain_keyword hk)
  · next heq => exact absurd heq (not_plain_keyword hk)
  · next heq => exact absurd heq (not_plain_keyword hk)
  · next heq => exact absurd heq (not_plain_keyword hk)
  · next heq => exact absurd heq (not_plain_keyword hk)
  · next heq =>
    cases heq
    exact (systemCall hw).bind fun _ => report (reports_unsupported _ _) fail
  · exact failExpected

theorem operand : w.Levels depth g.operand := (primary hw hg).bind fun _ => suffixes hw hg _

theorem unaryOperand (hmoves : g.Onward) (start : Nat) (op : UnaryOp) : w.Levels depth (g.unaryOperand start op) := by
  have hinner : w.Levels depth (g.innerExpr unaryPower >>= fun inner =>
      spanFrom start >>= fun span => pure (Expr.mk (.unary op inner) span)) := (hg _ _).bind fun _ => spanned fun _ => rfl
  unfold Grammar.unaryOperand
  split
  · refine look (looks_isNext _) fun b => ?_
    split
    · refine (primary hw hg).bind fun lit => ?_
      split
      · exact spanned fun _ => rfl
      · exact (suffixes hw hg lit).bind fun _ => (operations hw hg hmoves _ _).bind fun _ => spanned fun _ => rfl
    · exact hinner
  · exact hinner

theorem unary (hmoves : g.Onward) : w.Levels depth g.unary := by
  refine peek hw fun k hk => ?_
  split
  · exact (primary hw hg).weaken
  · next op hop =>
    obtain ⟨hsemi, hdepth⟩ := UnaryOp.levels hop
    refine look looks_offset fun start => (skip hw hsemi).bind fun _ => ?_
    rw [hdepth]
    exact unaryOperand hw hg hmoves start op

theorem expr (hmoves : g.Onward) (min : Nat) : w.Levels depth (g.expr min) :=
  (unary hw hg hmoves).bind fun _ => (suffixes hw hg _).bind fun _ => operations hw hg hmoves min _

omit hg in
/-- The inner expressions of a grammar, level by level. -/
theorem upTo : ∀ n depth min, w.Levels depth ((Grammar.upTo n).innerExpr min)
  | 0, _, _ => fail
  | n + 1, _, min => expr hw (upTo n) (Grammar.onward_upTo n) min

omit hg in
theorem innerExpr (depth min : Nat) : w.Levels depth (Grammar.full.innerExpr min) := fun c s hs hH =>
  expr hw (upTo hw s.rest.length) (Grammar.onward_upTo s.rest.length) min c s hs hH

end Levels

/-! ## Statements -/

/-- A parser that starts outside of brackets and ends behind a semicolon there. -/
abbrev Ends {α : Type} (w : Window) (p : Parser α) : Prop := w.Keeps any 0 (fun _ => w.Behind 0) p

namespace Ends

/-! ### The check against the dialect -/

theorem still_report (span : Span) (problem : SyntaxProblem) : Still (Parser.report span problem) := fun _ _ => ⟨rfl, rfl⟩

theorem still_permit (dialect : Dialect) (leaf : Leaf) (span : Span) : Still (permit dialect leaf span) := by
  unfold permit
  split
  · exact (still_report _ _).bind fun _ => .fail
  · exact .value _

theorem still_permitSimple (dialect : Dialect) (s : SimpleStmt) : Still (permitSimple dialect s) := by
  unfold permitSimple
  split
  · exact .value _
  · exact (still_permit _ _ _).bind fun _ => .value _

theorem still_atTypedDecl : Still atTypedDecl := fun c s => by rw [atTypedDecl_eq]; exact ⟨rfl, rfl⟩

include hw

/-- A system task is never read as a statement; a semicolon behind it is. -/
theorem systemTask (dialect : Dialect) : w.Keeps (· = some .systemIdent) 0 (fun _ => w.Behind 0)
    (Grammar.systemTask dialect >>= fun _ => (fail : Parser StmtForm)) := by
  rw [Grammar.systemTask, Parser.bind_assoc]
  refine (Levels.systemCall hw).bind fun span => ?_
  rw [Parser.bind_assoc]
  -- behind the system task nothing is read any more, and nothing is built
  have hreject : Still (permit dialect .systemTask span >>= fun _ => reportUnsupported span .systemCall) :=
    (still_permit _ _ _).bind fun _ => .report (reports_unsupported _ _)
  refine eatSemicolon.seq fun r c s hs => ⟨fun s' hrun => ?_, fun form s' hrun => ?_⟩
  · have hstill := (hreject.bind fun _ => Still.fail (α := StmtForm)) c s
    rw [hrun] at hstill
    cases r with
    | none => exact .inl ⟨0, hs.of_eq hstill.1 hstill.2⟩
    | some t => exact .inr (hs.of_eq hstill.1 hstill.2)
  · obtain ⟨_, s₁, -, hfail⟩ := bind_eq_some.mp hrun
    cases hfail

variable (hg : ∀ depth min, w.Levels depth (g.innerExpr min))

include hg

omit hw in
theorem valueAndSemicolon : w.Ends g.valueAndSemicolon :=
  (hg 0 0).bind fun _ => expectSemicolon.behind fun _ => .value _

theorem simpleTail (target : Expr) : w.Ends (g.simpleTail target) := by
  refine peek hw fun k hk => ?_
  split
  · next heq =>
    cases heq
    refine (skip hw (by decide)).bind fun _ => (valueAndSemicolon hg).behind fun value => ?_
    split
    · exact .spanned
    · exact (still_report _ _).bind fun _ => .fail
  · next heq =>
    cases heq
    exact (skip hw (by decide)).bind fun _ => (valueAndSemicolon hg).behind fun _ => .spanned
  · next heq =>
    cases heq
    split
    · exact (skip hw (by decide)).bind fun _ => (valueAndSemicolon hg).behind fun _ => .spanned
    · exact (still (still_report _ _)).bind fun _ => fail
  · next heq =>
    cases heq
    exact skipSemicolon.behind fun _ => .value _
  · exact failExpected

theorem dimensions : w.Levels depth g.dimensions := by
  refine repeatUntil (fun read => accept hw (by decide) ?_ ?_) []
  · exact (hg _ 0).bind fun _ => (expectPunct hw (by decide)).bind fun _ => value rfl
  · exact value rfl

theorem declaratorTail (name : Token) : w.Levels depth (g.declaratorTail name) := by
  refine (dimensions hw hg).bind fun dims => ?_
  have hend : ∀ init : Option Expr, w.Levels depth (spanFrom name.span.start >>= fun span =>
      pure (Declarator.mk name.text dims init span)) := fun init => spanned fun _ => rfl
  exact accept hw (by decide) (optional (hg _ 0) hend) (hend none)

theorem declarator : w.Levels depth g.declarator :=
  (expect hw (by decide)).bind fun _ => declaratorTail hw hg _

theorem typedStmt : w.Ends g.typedStmt := by
  refine look looks_offset fun start => (Levels.type hw).bind fun type => (expect hw (by decide)).bind fun name => ?_
  have hend : ∀ ds : List Declarator, w.Ends (Parser.expectPunct .semi >>= fun _ => spanFrom start >>= fun span =>
      pure (SimpleStmt.varDecl ⟨.typed type, ds, span⟩)) := fun ds => expectSemicolon.behind fun _ => .spanned
  refine accept hw (by decide) ((valueAndSemicolon hg).behind fun _ => .spanned) ?_
  refine (declaratorTail hw hg name).bind fun first => ?_
  exact accept hw (by decide) ((separated hw (declarator hw hg)).bind fun others => hend _) (hend [first])

theorem simple : w.Ends g.simple := by
  refine isNext hw nofun ((still still_atTypedDecl).bind fun typed => ?_)
  cases typed with
  | true => exact typedStmt hw hg
  | false => exact (Levels.operand hw hg).bind fun target => simpleTail hw hg target

theorem stmtForm (dialect : Dialect) : w.Ends (g.stmtForm dialect) := by
  refine peek hw fun k hk => ?_
  split
  · next heq => exact absurd heq (not_plain_keyword hk)
  · next heq => exact absurd heq (not_plain_keyword hk)
  · next heq => exact absurd heq (not_plain_keyword hk)
  · next heq => exact absurd heq (not_plain_keyword hk)
  · next heq => exact absurd heq (not_plain_keyword hk)
  · next heq => exact absurd heq (not_plain_keyword hk)
  · next heq => exact absurd heq (not_plain_keyword hk)
  · next heq => exact absurd heq (not_plain_keyword hk)
  · next heq =>
    cases heq
    exact systemTask hw dialect
  · next heq => exact absurd heq (not_plain_keyword hk)
  · next heq => exact absurd heq (not_plain_keyword hk)
  · next heq => cases heq
  · exact ((simple hw hg).behind fun _ => still_permitSimple _ _).weaken

theorem stmt (dialect : Dialect) : w.Ends (g.stmt dialect) := by
  have hattributes : w.Levels 0 skipAttributes := by
    refine repeatUntil (fun _ => isNext hw (fun hk => ?_) ?_) ()
    · cases hk
    · exact value rfl
  refine hattributes.bind fun _ => look looks_offset fun start => ?_
  exact (stmtForm hw hg dialect).behind fun form => .spanned

omit hg in
/-- A statement, with the grammar that refers to itself. -/
theorem innerStmt (dialect : Dialect) : w.Ends (Grammar.full.innerStmt dialect) := by
  intro c s hs hH
  rw [Grammar.full_stmt]
  exact stmt hw (Levels.innerExpr hw) dialect c s hs hH

end Ends

end Window

end Bluespec
