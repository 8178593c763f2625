import Bluespec.Proofs.BracketedExpressions
import Bluespec.Proofs.PermittedStatements

/-!
# Targets of assignments

What an assignment changes can be assigned to, in every tree that is read.  What a register write changes is not asked:
the target of `<=` may be any operand, while the same target before `=` is reported and nothing is built.

* **`Grammar.goes_assign`**, **`Grammar.goes_regWrite`** — a target, the symbol behind it, a value and a semicolon.
* **`ExprText.changeText`** — the text that changes any expression, in parentheses.
* **`assignment_targets`** — the targets of all assignments; which texts are read as assignments and register writes.
-/

namespace Bluespec

open Bluespec.Parser

/-! ## Statements that are read alone -/

/-- The assignments of an expression, at any depth. -/
def Expr.assigns (e : Expr) : List Assign := e.sites.flatMap Site.assigns

/-- The assignments of a statement of a dialect, at any depth. -/
def Stmt.assigns (dialect : Dialect) (s : Stmt) : List Assign := (s.sites dialect).flatMap Site.assigns

theorem assignable_append {as bs : List Assign} : Assignable (as ++ bs) ↔ Assignable as ∧ Assignable bs :=
  List.forall_mem_append

/-- The assignments of sound sites are to what can be assigned to. -/
theorem Sound.assignable {law : StmtLaw} {xs : List Site} (h : Sound law xs) : Assignable (xs.flatMap Site.assigns) :=
  List.forall_mem_flatMap.mpr fun x hx => (h x hx).1.2

theorem assignable_parse (source : String) (recovery : Recovery) : Assignable (parse source recovery).root.assigns := by
  have hsound := parse_sound .any source recovery
  refine assignable_append.mpr ⟨List.forall_mem_flatMap.mpr fun s hs => (hsound s hs).1, ?_⟩
  exact Sound.assignable (SourceUnit.allSites.mpr fun s hs => (hsound s hs).2)

theorem assignable_parseExpression {source : String} {e : Expr} (h : parseExpression source = .ok e) :
    Assignable e.assigns := by
  obtain ⟨-, s', hrun, -⟩ := parseOnly_eq_ok.mp h
  exact Sound.assignable (withGrammar_results .any (fun _ hg => hg.anyExpr 0) _ _ e s' hrun)

theorem assignable_parseStatement {source : String} {dialect : Dialect} {s : Stmt}
    (h : parseStatement dialect source = .ok s) : Assignable (s.assigns dialect) := by
  obtain ⟨-, s', hrun, -⟩ := parseOnly_eq_ok.mp h
  exact Sound.assignable (withGrammar_results .any (fun _ hg => hg.anyStmt dialect) _ _ s s' hrun)

/-! ## The symbol behind a target -/

namespace Grammar

variable {opening closing symbol semi : Token} {cs ts us rest : List Token} {e target value : Expr}

/-- An operand ends where no suffix follows. -/
theorem goes_operand (h : Goes full.primary cs ts e rest) (hrest : Unsuffixed rest) : Goes full.operand cs ts e rest :=
  h.then_ fun _ ns => ⟨ns, suffixes_of_head e hrest⟩

section Tail

variable (hsemi : semi.kind = .punct .semi) (hvalue : Goes (full.innerExpr 0) (symbol :: cs) us value [semi])

include hsemi hvalue

/-- A value and the semicolon behind it. -/
theorem goes_valueAndSemicolon : Goes full.valueAndSemicolon (symbol :: cs) (us ++ [semi]) value [] :=
  hvalue.bind ((Goes.expectPunct hsemi).cons .value)

/-- An assignment to what can be assigned to. -/
theorem goes_assign (hsymbol : symbol.kind = .punct .eq) (htarget : target.isLvalue = true) :
    Goes (full.simpleTail target) cs (symbol :: (us ++ [semi]))
      (.assign ⟨target, value, ⟨target.span.start, max semi.span.stop target.span.start⟩⟩) [] := by
  refine .peek ?_
  rw [hsymbol]
  refine .cons .skip ((goes_valueAndSemicolon hsemi hvalue).then_ ?_)
  rw [if_pos htarget, List.reverse_append]
  exact Goes.spanFrom.then_ .value

/-- A register write, whatever its target is. -/
theorem goes_regWrite (hsymbol : symbol.kind = .punct .lte) :
    Goes (full.simpleTail target) cs (symbol :: (us ++ [semi]))
      (.regWrite ⟨target, value, ⟨target.span.start, max semi.span.stop target.span.start⟩⟩) [] := by
  refine .peek ?_
  rw [hsymbol]
  exact .cons .skip ((goes_valueAndSemicolon hsemi hvalue).spanned)

/-- An assignment to something else is reported once it has been read, and is not built. -/
theorem simpleTail_of_invalidTarget (hsymbol : symbol.kind = .punct .eq) (htarget : target.isLvalue = false)
    (c : Setting) (ns : List NodeSpan) :
    ∃ s', full.simpleTail target c ⟨cs, symbol :: (us ++ [semi]), [], ns⟩ = (none, s') ∧
      s'.diagnostics = [⟨.grammar .invalidTarget, target.span⟩] := by
  obtain ⟨ns', hrun⟩ := goes_valueAndSemicolon hsemi hvalue c ns
  rw [List.append_nil] at hrun
  refine ⟨⟨(us ++ [semi]).reverse ++ symbol :: cs, [], [⟨.grammar .invalidTarget, target.span⟩], ns'⟩, ?_, rfl⟩
  rw [simpleTail, bind_of_some peek_cons, hsymbol]
  dsimp only
  rw [bind_of_some skip_cons, bind_of_some hrun, htarget, if_neg Bool.false_ne_true]
  rfl

end Tail

/-! ## Whole statements -/

section Statement

variable {dialect : Dialect} (ht : Inner.startsForm opening.kind = false) (htyped : startsTyped opening.kind = false)

include ht htyped

/-- A statement that begins with an operand. -/
theorem innerStmt_of_operand (c : Setting) (ns : List NodeSpan) :
    full.innerStmt dialect c ⟨cs, opening :: ts, [], ns⟩ = ((full.operand >>= full.simpleTail) >>=
      permitSimple dialect >>= fun form => spanFrom opening.span.start >>= fun span => pure (Stmt.mk form span)) c
        ⟨cs, opening :: ts, [], ns⟩ := by
  rw [innerStmt_eq, Inner.stmt_of_simple (show State.peek ⟨cs, opening :: ts, [], ns⟩ = some opening.kind from rfl) ht,
    show State.peek ⟨cs, opening :: ts, [], ns⟩ = some opening.kind from rfl, Option.any_some, htyped, Bool.false_and,
    if_neg Bool.false_ne_true]
  rfl

theorem goes_simpleStmt {s : SimpleStmt} (hleaf : ∀ leaf, s.leaf? = some leaf → dialect.permits leaf = true)
    (h : Goes (full.operand >>= full.simpleTail) cs (opening :: ts ++ [semi]) s rest) :
    Goes (full.innerStmt dialect) cs (opening :: ts ++ [semi])
      ⟨s.form, ⟨opening.span.start, max semi.span.stop opening.span.start⟩⟩ rest := by
  have hpermit : ∀ cs, Goes (permitSimple dialect s) cs [] s.form rest := by
    intro cs c ns
    refine ⟨ns, ?_⟩
    unfold permitSimple
    cases hs : s.leaf? with
    | none => rfl
    | some leaf =>
      refine bind_of_some (a := ()) ?_
      rw [permit, hleaf leaf hs]
      rfl
  have hform : Goes ((full.operand >>= full.simpleTail) >>= permitSimple dialect >>= fun form =>
      spanFrom opening.span.start >>= fun span => pure (Stmt.mk form span)) cs (opening :: ts ++ [semi]) _ rest :=
    (h.then_ (hpermit _)).spanned
  intro c ns
  obtain ⟨ns', hrun⟩ := hform c ns
  exact ⟨ns', (innerStmt_of_operand ht htyped c ns).trans hrun⟩

end Statement

end Grammar

/-- The diagnostics of a text without lexical errors for which nothing is built. -/
theorem parseOnly_of_reported {α : Type} {production : Parser α} {problem : SyntaxProblem} {text : String} {s' : State}
    {d : Diagnostic} (hlexical : LexicalError.ofText text = [])
    (hrun : production (.ofText text .collectAll) (.ofText text) = (none, s')) (hd : s'.diagnostics = [d]) :
    parseOnly production problem text = .error [d] := by
  refine parseOnly_of_report hlexical ?_
  rw [bind_of_none hrun]
  exact hd

/-! ## Texts -/

namespace ExprText

variable (x : ExprText) (p : Punct) (v : ExprText)

/-- The text that changes an expression in parentheses: a symbol, a value and a semicolon stand behind it. -/
def changeText : String := "(" ++ x.line ++ ") " ++ p.spelling ++ " " ++ v.line ++ ";"

/-- The number of bytes of such a text before its value. -/
def beforeValue : Nat := x.size + 5 + Text.byteSize p.spelling.toList

/-- The expression in parentheses, at the beginning of a text. -/
def inParens : Expr := ⟨(x.expr.move (· + 1)).form, ⟨0, x.size + 3⟩⟩

/-- The span of such a text. -/
def changeSpan : Span := ⟨0, x.beforeValue p + v.size + 2⟩

/-- What such a text changes, and to what. -/
def change : Assign := ⟨x.inParens, v.expr.move (· + x.beforeValue p), x.changeSpan p v⟩

/-- The tokens of such a text from the symbol on. -/
def valueTokens : List Token :=
  Lexed.symbolAt p (x.size + 4) :: (v.tokensAt (x.beforeValue p) ++ [Lexed.symbolAt .semi (x.beforeValue p + v.size + 1)])

/-- The tokens of such a text before the symbol. -/
def targetTokens : List Token := Lexed.symbolAt .lparen 0 :: x.tokensAt 1 ++ [Lexed.symbolAt .rparen (x.size + 2)]

theorem changeTokens_eq : x.targetTokens ++ x.valueTokens p v =
    Lexed.symbolAt .lparen 0 :: (x.tokensAt 1 ++ Lexed.symbolAt .rparen (x.size + 2) :: Lexed.symbolAt p (x.size + 4) ::
      v.tokensAt (x.beforeValue p)) ++ [Lexed.symbolAt .semi (x.beforeValue p + v.size + 1)] := by
  simp only [targetTokens, valueTokens, List.cons_append, List.append_assoc, List.nil_append]

theorem lexed_changeText : Lexed 0 (x.changeText p v).toList (x.targetTokens ++ x.valueTokens p v) [] := by
  have hx : Text.byteSize x.line.toList = x.size + 1 := x.size_piece
  have hv : Text.byteSize v.line.toList = v.size + 1 := v.size_piece
  have hsemi : Lexed (x.beforeValue p + v.size + 1) ";".toList
      [Lexed.symbolAt .semi (x.beforeValue p + v.size + 1)] [] :=
    .symbol (p := .semi) (by rw [List.append_nil]; exact Lexeme.longest?_last_symbol .semi)
  have hvalue : Lexed (x.beforeValue p) (v.line.toList ++ ";".toList) _ [] :=
    (v.piece.lexed _ _).appendAt (by rw [piece, hv, Nat.add_assoc]) hsemi
  have hsymbol : Lexed (x.size + 4) (p.spelling.toList ++ [' '] ++ (v.line.toList ++ ";".toList)) (x.valueTokens p v)
      [] := by
    refine (Lexed.symbolSpace p).appendAt ?_ hvalue
    rw [Text.byteSize_append, beforeValue]
    show x.size + 4 + (_ + 1) = _
    omega
  have hclosing : Lexed (x.size + 2) (") ".toList ++ (p.spelling.toList ++ [' '] ++ (v.line.toList ++ ";".toList)))
      (Lexed.symbolAt .rparen (x.size + 2) :: x.valueTokens p v) [] := (Lexed.symbolSpace .rparen).appendAt rfl hsymbol
  have hline : Lexed 1
      (x.line.toList ++ (") ".toList ++ (p.spelling.toList ++ [' '] ++ (v.line.toList ++ ";".toList)))) _ [] :=
    (x.piece.lexed _ _).appendAt (by rw [piece, hx, Nat.add_comm 1]) hclosing
  have hopening : ∀ more, Lexed 0 "(".toList [Lexed.symbolAt .lparen 0] (x.line.toList ++ more ++ []) := by
    intro more
    rw [List.append_assoc]
    exact .symbol (p := .lparen) (Lexeme.longest?_extended (by decide) (x.unstarred _))
  have hall := (hopening _).append hline
  rw [changeText, targetTokens]
  simp only [String.toList_append, List.append_assoc, List.cons_append, List.nil_append] at hall ⊢
  exact hall

/-! ### What such texts are read as -/

variable {x p v}

/-- The value, behind whatever else has been read. -/
theorem goes_value (cs : List Token) :
    Goes (Grammar.full.innerExpr 0) cs (v.tokensAt (x.beforeValue p)) (v.expr.move (· + x.beforeValue p))
      [Lexed.symbolAt .semi (x.beforeValue p + v.size + 1)] :=
  v.piece.goes _ _ _ (.cons rfl rfl [])

/-- The target, in front of a symbol that begins no suffix. -/
theorem goes_target (hp : (Kind.punct p).startsSuffix = false) (rest : List Token) :
    Goes Grammar.full.operand [] x.targetTokens x.inParens (x.valueTokens p v ++ rest) := by
  have hinner := x.piece.goes 1 [Lexed.symbolAt .lparen 0]
    (Lexed.symbolAt .rparen (x.size + 2) :: (x.valueTokens p v ++ rest)) (.cons rfl rfl _)
  have hparens := Grammar.goes_parens rfl rfl hinner
  refine Grammar.goes_operand hparens ?_
  rintro t ⟨⟩
  exact hp

/-- The text of a statement that its dialect permits. -/
theorem parseStatement_changeText {dialect : Dialect} {s : SimpleStmt} (hp : (Kind.punct p).startsSuffix = false)
    (hleaf : ∀ leaf, s.leaf? = some leaf → dialect.permits leaf = true)
    (h : ∀ cs, Goes (Grammar.full.simpleTail x.inParens) cs (x.valueTokens p v) s []) :
    parseStatement dialect (x.changeText p v) = .ok ⟨s.form, x.changeSpan p v⟩ := by
  obtain ⟨htokens, hlexical⟩ := (x.lexed_changeText p v).whole
  refine parseOnly_of_goes_all hlexical ?_
  have hboth := (goes_target hp []).bind (h _)
  have hspan : x.changeSpan p v = ⟨0, max (Lexed.symbolAt .semi (x.beforeValue p + v.size + 1)).span.stop 0⟩ := rfl
  rw [changeTokens_eq] at hboth htokens
  rw [htokens, hspan]
  exact Grammar.goes_simpleStmt rfl rfl hleaf hboth

theorem isLvalue_inParens : x.inParens.isLvalue = x.expr.isLvalue := by
  have hform : ∀ e : Expr, e.form.isLvalue = e.isLvalue := fun ⟨_, _⟩ => rfl
  exact (hform _).trans (Expr.isLvalue_move x.expr)

/-- An expression that can be assigned to is assigned to, in every dialect. -/
theorem parseStatement_assign (dialect : Dialect) (h : x.inParens.isLvalue = true) :
    parseStatement dialect (x.changeText .eq v) = .ok ⟨.assign (x.change .eq v), x.changeSpan .eq v⟩ := by
  refine parseStatement_changeText (s := .assign (x.change .eq v)) rfl nofun fun cs => ?_
  exact Grammar.goes_assign rfl (goes_value _) rfl h

/-- A register write is read where the dialect permits one, whatever its target is. -/
theorem parseStatement_regWrite {dialect : Dialect} (h : dialect.permits .registerWrite = true) :
    parseStatement dialect (x.changeText .lte v) = .ok ⟨.regWrite (x.change .lte v), x.changeSpan .lte v⟩ := by
  refine parseStatement_changeText (s := .regWrite (x.change .lte v)) rfl (fun leaf hleaf => ?_) fun cs => ?_
  · cases hleaf
    exact h
  · exact Grammar.goes_regWrite rfl (goes_value _) rfl

/-- Anything else is reported as a target, and the statement is not built. -/
theorem parseStatement_invalidTarget (dialect : Dialect) (h : x.inParens.isLvalue = false) :
    parseStatement dialect (x.changeText .eq v) = .error [⟨.grammar .invalidTarget, x.inParens.span⟩] := by
  obtain ⟨htokens, hlexical⟩ := (x.lexed_changeText .eq v).whole
  obtain ⟨ns, htarget⟩ := goes_target (x := x) (p := .eq) (v := v) rfl [] (.ofText (x.changeText .eq v) .collectAll) []
  have htail : ∃ s', Grammar.full.simpleTail x.inParens (.ofText (x.changeText .eq v) .collectAll)
      ⟨x.targetTokens.reverse ++ [], x.valueTokens .eq v, [], ns⟩ = (none, s') ∧
        s'.diagnostics = [⟨.grammar .invalidTarget, x.inParens.span⟩] :=
    Grammar.simpleTail_of_invalidTarget rfl (goes_value _) rfl h _ ns
  obtain ⟨s', htail, hreported⟩ := htail
  rw [List.append_nil (x.valueTokens .eq v)] at htarget
  have hboth := (bind_of_some htarget).trans htail
  refine parseOnly_of_reported hlexical ?_ hreported
  show Grammar.full.innerStmt dialect _ ⟨[], Token.significant (x.changeText .eq v), [], []⟩ = _
  rw [changeTokens_eq] at hboth
  rw [htokens, changeTokens_eq]
  exact (Grammar.innerStmt_of_operand rfl rfl _ []).trans (bind_of_none (bind_of_none hboth))

end ExprText

/-- All assignments of a tree change what can be assigned to, for every text, every dialect and both ways to deal with
problems.  Of the texts that change an expression in parentheses, `=` makes an assignment if the expression can be
assigned to, and is reported otherwise; `<=` makes a register write of it in any case. -/
theorem assignment_targets (source : String) (recovery : Recovery) (dialect : Dialect) (x v : ExprText) :
    (Assignable (parse source recovery).root.assigns ∧
      (∀ e, parseExpression source = .ok e → Assignable e.assigns) ∧
      ∀ s, parseStatement dialect source = .ok s → Assignable (s.assigns dialect)) ∧
    (x.expr.isLvalue = true →
      parseStatement dialect (x.changeText .eq v) = .ok ⟨.assign (x.change .eq v), x.changeSpan .eq v⟩) ∧
    (x.expr.isLvalue = false →
      parseStatement dialect (x.changeText .eq v) = .error [⟨.grammar .invalidTarget, x.inParens.span⟩]) ∧
    (dialect.permits .registerWrite = true →
      parseStatement dialect (x.changeText .lte v) = .ok ⟨.regWrite (x.change .lte v), x.changeSpan .lte v⟩) := by
  refine ⟨⟨assignable_parse source recovery, fun _ => assignable_parseExpression,
    fun _ => assignable_parseStatement⟩, ?_⟩
  rw [← x.isLvalue_inParens]
  exact ⟨ExprText.parseStatement_assign dialect, ExprText.parseStatement_invalidTarget dialect,
    ExprText.parseStatement_regWrite⟩

/-- A call of a name. -/
def ExprText.plainCall : ExprText := ⟨"f(x)", ⟨.call ⟨.var "f", ⟨0, 1⟩⟩ [⟨.var "x", ⟨2, 3⟩⟩], ⟨0, 4⟩⟩, rfl⟩

/-- A call cannot be assigned to, and a register write changes it nevertheless. -/
theorem assignment_targets_call :
    (ExprText.plainCall.expr.isLvalue = false ∧
      parseStatement .action (ExprText.plainCall.changeText .eq .plainCall) =
        .error [⟨.grammar .invalidTarget, ⟨0, 7⟩⟩]) ∧
    (Dialect.action.permits .registerWrite = true ∧
      parseStatement .action (ExprText.plainCall.changeText .lte .plainCall) =
        .ok ⟨.regWrite (ExprText.plainCall.change .lte .plainCall), ⟨0, 17⟩⟩) := by
  obtain ⟨-, -, hinvalid, hwrite⟩ := assignment_targets "" .collectAll .action .plainCall .plainCall
  exact ⟨⟨rfl, hinvalid rfl⟩, rfl, hwrite rfl⟩

/-- The target of a register write need not be one that can be assigned to. -/
theorem regWrite_of_call : ExprText.plainCall.expr.isLvalue = false ∧
    ∃ value, parseStatement .action "f(x) <= 1;" =
      .ok ⟨.regWrite ⟨ExprText.plainCall.expr, value, ⟨0, 10⟩⟩, ⟨0, 10⟩⟩ :=
  ⟨rfl, _, rfl⟩

end Bluespec
