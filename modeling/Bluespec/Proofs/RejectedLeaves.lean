import Bluespec.Proofs.GuardTexts
import Bluespec.Proofs.MemberTexts
import Bluespec.Proofs.NestedSpans

/-!
# Leaves that are rejected

A leaf that a dialect does not permit has been read to its end when it is rejected, and so has the call of a system
task.  So wherever the text of such a leaf stands, all of its tokens are read and it is reported once.

* **`StmtForm.check?`** — the leaf that a form of a statement is checked as, and the span that is reported.
* **`Grammar.stmt_of_leaf`** — what any dialect makes of a leaf that is read where all leaves are permitted.
* **`TaskCall`** — the tokens of a call of a system task.
* **`RejectedLeaf`** — a text that is a leaf, and that a dialect rejects with one diagnostic.
* **`RejectedLeaf.comesTo`** — the tokens of the text at any place.
-/

namespace Bluespec

open Bluespec.Parser

/-! ## Leaves in two dialects -/

/-- What an expression is checked as if it is a statement that begins with the token, and the span that is reported. -/
def Expr.check (first : Token) (e : Expr) : Leaf × Span :=
  if first.kind = .keyword .action ∨ first.kind = .keyword .actionvalue then (.actionBlock, first.span)
  else (.exprStatement, e.span)

/-- The leaf that a form of a statement is checked as, and the span that is reported if it may not stand there.  The
statement begins with the token. -/
def StmtForm.check? (first : Token) : StmtForm → Option (Leaf × Span)
  | .regWrite a => some (.registerWrite, a.span)
  | .bind b => some (.bind, b.span)
  | .return_ _ => some (.return_, first.span)
  | .expr e => some (e.check first)
  | _ => none

/-- Whether a form of a statement is a leaf. -/
def StmtForm.isLeaf : StmtForm → Bool
  | .regWrite _ | .bind _ | .return_ _ | .expr _ => true
  | _ => false

theorem StmtForm.exists_check {form : StmtForm} (h : form.isLeaf = true) (first : Token) :
    ∃ leaf span, form.check? first = some (leaf, span) := by
  cases form with
  | regWrite a => exact ⟨_, _, rfl⟩
  | bind b => exact ⟨_, _, rfl⟩
  | return_ e => exact ⟨_, _, rfl⟩
  | expr e => exact ⟨_, _, rfl⟩
  | _ => cases h

theorem Expr.check_move {e : Expr} {first : Token} {leaf : Leaf} {span : Span} (f : Nat → Nat)
    (h : e.check first = (leaf, span)) : (e.move f).check (first.move f) = (leaf, span.move f) := by
  unfold check at h ⊢
  show (if first.kind = _ ∨ first.kind = _ then _ else _) = _
  split at h
  · next haction =>
    cases h
    rw [if_pos haction]
    rfl
  · next haction =>
    cases h
    rw [if_neg haction, span_move]

theorem StmtForm.check?_move {form : StmtForm} {first : Token} {leaf : Leaf} {span : Span} (f : Nat → Nat)
    (h : form.check? first = some (leaf, span)) : (form.move f).check? (first.move f) = some (leaf, span.move f) := by
  cases form with
  | regWrite a =>
    obtain ⟨target, value, span⟩ := a
    cases h
    rfl
  | bind b =>
    obtain ⟨target, name, value, span⟩ := b
    cases h
    rfl
  | return_ e =>
    cases h
    rfl
  | expr e => exact congrArg some (Expr.check_move f (Option.some.inj h))
  | _ => cases h

namespace Grammar

variable {g : Grammar} {dialect : Dialect} {leaf : Leaf} {span : Span} {c : Setting} {s s' : State} {t : Token}
  {ts : List Token} {form : StmtForm}

/-- Where all leaves are permitted, none is rejected. -/
theorem permitSimple_actionValue (x : SimpleStmt) : permitSimple .actionValue x = pure x.form := by
  cases x <;> rfl

theorem permitSimple_of_leaf {x : SimpleStmt} (ht : ¬ (t.kind = .keyword .action ∨ t.kind = .keyword .actionvalue))
    (hleaf : x.form.check? t = some (leaf, span)) :
    permitSimple dialect x = permit dialect leaf span >>= fun _ => pure x.form := by
  cases x with
  | varDecl d => cases hleaf
  | assign a => cases hleaf
  | regWrite a => cases hleaf; rfl
  | bind b => cases hleaf; rfl
  | expr e =>
    rw [SimpleStmt.form, StmtForm.check?, Expr.check, if_neg ht] at hleaf
    cases hleaf
    rfl

theorem peekSpan_of_cons (hrest : s.rest = t :: ts) : peekSpan c s = (some t.span, s) := by
  show (some (s.peekSpan c), s) = _
  rw [State.peekSpan, hrest]
  rfl

theorem returnStmt_of_leaf (hrest : s.rest = t :: ts) (hform : g.returnStmt .actionValue c s = (some form, s'))
    (hleaf : form.check? t = some (leaf, span)) :
    g.returnStmt dialect c s = (permit dialect leaf span >>= fun _ => pure form) c s' := by
  rw [returnStmt, bind_of_some (peekSpan_of_cons hrest)] at hform ⊢
  obtain ⟨e, s₁, hreturned, hpermitted⟩ := bind_eq_some.mp hform
  cases hpermitted
  cases hleaf
  rw [bind_of_some hreturned]

theorem actionStmt_of_leaf (hrest : s.rest = t :: ts) (ht : t.kind = .keyword .action ∨ t.kind = .keyword .actionvalue)
    (hform : g.actionStmt .actionValue c s = (some form, s')) (hleaf : form.check? t = some (leaf, span)) :
    g.actionStmt dialect c s = (permit dialect leaf span >>= fun _ => pure form) c s' := by
  rw [actionStmt, bind_of_some (peekSpan_of_cons hrest)] at hform ⊢
  obtain ⟨e, s₁, hoperand, hform⟩ := bind_eq_some.mp hform
  obtain ⟨semi, s₂, hsemi, hpermitted⟩ := bind_eq_some.mp hform
  cases hpermitted
  rw [StmtForm.check?, Expr.check, if_pos ht] at hleaf
  cases hleaf
  rw [bind_of_some hoperand, bind_of_some hsemi]

/-- Which dialect a leaf is read in decides about nothing but whether it may stand there. -/
theorem stmtForm_of_leaf (hrest : s.rest = t :: ts) (hform : g.stmtForm .actionValue c s = (some form, s'))
    (hleaf : form.check? t = some (leaf, span)) :
    g.stmtForm dialect c s = (permit dialect leaf span >>= fun _ => pure form) c s' := by
  have hpeek : s.peek = some t.kind := by rw [State.peek, hrest]; rfl
  have hother : ∀ {q : Parser StmtForm} {r : Option StmtForm × State}, Results (fun form => form.check? t = none) q →
      q c s = (some form, s') → r = (permit dialect leaf span >>= fun _ => pure form) c s' := by
    intro q r hq hrun
    rw [hq c s form s' hrun] at hleaf
    cases hleaf
  have hif : Results (fun form => form.check? t = none) (g.ifStmt .actionValue) := by
    refine .bind fun _ => .bind fun _ => .bind fun _ => .bind fun more => ?_
    cases more <;> exact .bind fun _ => .value rfl
  rw [stmtForm, bind_of_some peek_eq] at hform ⊢
  revert hform
  generalize hk : s.peek = k
  split
  · exact hother (.bind fun _ => .value rfl)
  · exact hother hif
  · exact fun hform => returnStmt_of_leaf hrest hform hleaf
  · exact hother (.bind fun _ => .value rfl)
  · exact hother (.bind fun _ => .value rfl)
  · exact hother (.bind fun _ => .fail)
  · exact hother (.bind fun _ => .fail)
  · exact hother (.bind fun _ => .fail)
  · exact hother (.bind fun _ => .fail)
  · exact fun hform => actionStmt_of_leaf hrest (.inl (Option.some.inj (hpeek.symm.trans hk))) hform hleaf
  · exact fun hform => actionStmt_of_leaf hrest (.inr (Option.some.inj (hpeek.symm.trans hk))) hform hleaf
  · exact hother (.bind fun _ => .fail)
  · intro hform
    rename_i haction hvalue
    have hkind := Option.some.inj (hpeek.symm.trans hk)
    obtain ⟨x, s₁, hsimple, hpermitted⟩ := bind_eq_some.mp hform
    rw [permitSimple_actionValue] at hpermitted
    cases hpermitted
    rw [bind_of_some hsimple, permitSimple_of_leaf ?_ hleaf]
    rintro (h | h)
    · exact haction (hkind.symm.trans h)
    · exact hvalue (hkind.symm.trans h)

/-- A statement that is a leaf, in another dialect. -/
theorem stmt_of_leaf {st : Stmt} (hrest : s.rest = t :: ts) (hlacks : Lacks (.punct .attrOpen) s.rest)
    (hrun : g.stmt .actionValue c s = (some st, s')) (hleaf : st.form.check? t = some (leaf, span)) :
    g.stmt dialect c s = (permit dialect leaf span >>= fun _ => pure st) c s' := by
  rw [stmt, bind_of_some (Confined.skipAttributes_of_lacks hlacks), bind_of_some offset_eq] at hrun ⊢
  obtain ⟨form, s₁, hform, hdone⟩ := bind_eq_some.mp hrun
  cases hdone
  rw [bind_apply, stmtForm_of_leaf hrest hform hleaf]
  unfold permit
  cases dialect.permits leaf <;> rfl

end Grammar

/-! ## Calls of system tasks -/

/-- A group that ends in front of a token ends there whatever follows. -/
theorem Extent.balanced_append {depth : Nat} {ts : List Token} {t : Token} (h : balanced depth (ts ++ [t]) = ts.length)
    (rest : List Token) : balanced depth (ts ++ rest) = ts.length := by
  induction ts generalizing depth with
  | nil => exact absurd h (Nat.ne_of_gt (Closed.balanced_pos depth t []))
  | cons u us ih =>
    have hlast : us.length + 1 = 1 → us = [] := fun hlength => List.eq_nil_of_length_eq_zero (Nat.succ.inj hlength)
    rw [List.cons_append, List.length_cons] at h ⊢
    unfold balanced at h ⊢
    split at h
    · next hopening => rw [if_pos hopening, ih (Nat.succ.inj h)]
    · next hopening =>
      rw [if_neg hopening]
      split at h
      · next hclosing =>
        rw [if_pos hclosing]
        split at h
        · next hdepth => rw [if_pos hdepth, ← h]
        · next hdepth => rw [if_neg hdepth, ih (Nat.succ.inj h)]
      · next hclosing =>
        rw [if_neg hclosing]
        split at h
        · next hdepth => rw [if_pos hdepth, ← h]
        · next hdepth => rw [if_neg hdepth, ih (Nat.succ.inj h)]

/-- A call of a system task: its name, its arguments in parentheses if there are any, and a semicolon. -/
structure TaskCall where
  /-- The name. -/
  name : Token
  /-- The arguments. -/
  group : List Token
  /-- The semicolon. -/
  semi : Token
  /-- The name is one of a system task. -/
  isName : name.kind = .systemIdent
  /-- The arguments are one group. -/
  isGroup : group = [] ∨ ∃ opening us, group = opening :: us ∧ opening.kind = .punct .lparen ∧
    Extent.balanced 0 (group ++ [semi]) = group.length
  /-- The semicolon is one. -/
  isSemi : semi.kind = .punct .semi

namespace TaskCall

variable {dialect : Dialect} {c : Setting} {cs rest : List Token} {ds : List Diagnostic}

/-- The tokens of the call. -/
def tokens (x : TaskCall) : List Token := x.name :: x.group ++ [x.semi]

/-- The last token before the semicolon. -/
def last (x : TaskCall) : Token := (x.name :: x.group).getLast (List.cons_ne_nil _ _)

/-- From the name up to the end of the arguments. -/
def span (x : TaskCall) : Span := ⟨x.name.span.start, max x.last.span.stop x.name.span.start⟩

/-- What a dialect says about the call. -/
def report (dialect : Dialect) (x : TaskCall) : Diagnostic :=
  ⟨if dialect.permits .systemTask then .unsupported .systemCall else .grammar (.leafNotPermitted .systemTask dialect),
    x.span⟩

/-- The same call at another place. -/
def move (f : Nat → Nat) (x : TaskCall) : TaskCall where
  name := x.name.move f
  group := x.group.map (Token.move f)
  semi := x.semi.move f
  isName := x.isName
  isGroup := by
    rcases x.isGroup with hnone | ⟨opening, us, hgroup, hopening, hend⟩
    · exact .inl (by rw [hnone]; rfl)
    · refine .inr ⟨opening.move f, us.map (Token.move f), by rw [hgroup]; rfl, hopening, ?_⟩
      rw [List.length_map, ← hend]
      have hcounts := CountsKinds.balanced 0 f (x.group ++ [x.semi])
      rwa [List.map_append] at hcounts
  isSemi := x.isSemi

theorem tokens_move (f : Nat → Nat) (x : TaskCall) : (x.move f).tokens = x.tokens.map (Token.move f) := by
  rw [tokens, tokens, List.map_append]
  rfl

theorem report_move (k : Nat) (x : TaskCall) : (x.move (· + k)).report dialect = (x.report dialect).move (· + k) := by
  have hne : (x.name :: x.group).map (Token.move (· + k)) ≠ [] := List.cons_ne_nil _ _
  have hlast : (x.move (· + k)).last = x.last.move (· + k) := List.getLast_map hne
  have hspan : (x.move (· + k)).span = x.span.move (· + k) := by
    rw [span, hlast]
    exact congrArg (Span.mk _) (Nat.add_max_add_right _ _ k)
  rw [report, hspan]
  rfl

/-- The arguments are stepped over as one group. -/
theorem comesTo_arguments (x : TaskCall) :
    ComesTo c skipParenthesized cs x.group ds (some ()) ds (x.semi :: rest) := by
  intro ns
  refine ⟨ns, ?_⟩
  rcases x.isGroup with hnone | ⟨opening, us, hgroup, hopening, hend⟩
  · rw [hnone]
    exact bind_of_some (isNext_of_head (Lacks.cons x.isSemi (by decide) rest))
  · have hnext : isNext (.punct .lparen) c ⟨cs, x.group ++ x.semi :: rest, ds, ns⟩ =
        (some true, ⟨cs, x.group ++ x.semi :: rest, ds, ns⟩) := by
      rw [hgroup, List.cons_append]
      exact isNext_of_kind hopening
    have hextent := Extent.balanced_append hend (x.semi :: rest)
    rw [skipParenthesized, bind_of_some hnext]
    show (some (), State.advance ⟨cs, x.group ++ x.semi :: rest, ds, ns⟩ (Extent.balanced 0 (x.group ++ x.semi :: rest))) = _
    rw [hextent, State.advance_length]

theorem comesTo_systemCall (x : TaskCall) :
    ComesTo c Grammar.systemCall cs (x.name :: x.group) ds (some x.span) ds (x.semi :: rest) := by
  have hlast : (x.group.reverse ++ x.name :: cs).head? = some x.last := by
    have hfirst : (x.group.reverse ++ x.name :: cs).head? = (x.name :: x.group).reverse.head? := by
      rw [List.reverse_cons]
      cases x.group.reverse <;> rfl
    rw [hfirst, List.head?_reverse]
    exact List.getLast?_eq_some_getLast _
  have hspan : State.spanFrom ⟨x.group.reverse ++ x.name :: cs, x.semi :: rest, ds, []⟩ x.name.span.start = x.span := by
    rw [State.spanFrom, State.lastEnd, hlast]
    rfl
  rw [← hspan]
  exact .offset (.cons .skip (x.comesTo_arguments.then_ .spanFrom))

/-- The call is reported, as a leaf that is not permitted or as something that is not supported. -/
theorem comesTo_report (x : TaskCall) :
    ComesTo c (permit dialect .systemTask x.span >>= fun _ => reportUnsupported x.span .systemCall >>= fun _ =>
      (fail : Parser StmtForm)) cs [] ds none (x.report dialect :: ds) rest := by
  intro ns
  refine ⟨ns, ?_⟩
  unfold report permit
  cases dialect.permits .systemTask <;> rfl

/-- All tokens of the call are read, and it is reported. -/
theorem comesTo (x : TaskCall) :
    ComesTo c (Grammar.full.innerStmt dialect) cs x.tokens ds none (x.report dialect :: ds) rest := by
  have hsemi : ComesTo c (eat (.punct .semi)) (x.group.reverse ++ x.name :: cs) [x.semi] ds (some (some x.semi)) ds rest :=
    fun ns => ⟨ns, eat_of_kind x.isSemi⟩
  have htask : ComesTo c (Grammar.systemTask dialect >>= fun _ => (fail : Parser StmtForm)) cs
      x.tokens ds none (x.report dialect :: ds) rest := by
    simp only [Grammar.systemTask, Parser.bind_assoc]
    refine x.comesTo_systemCall.bind ?_
    rw [List.reverse_cons, List.append_assoc]
    exact hsemi.then_ x.comesTo_report
  have hform : ComesTo c (Grammar.full.stmtForm dialect) cs x.tokens ds none
      (x.report dialect :: ds) rest := by
    refine .peek ?_
    rw [x.isName]
    exact htask
  rw [Grammar.innerStmt_eq]
  exact .skipAttributes (.cons x.isName (by decide) _) (.offset hform.failed)

end TaskCall

/-! ## Runs behind reports -/

namespace Parser

variable {c : Setting}

theorem runsAbove_innerStmt (dialect : Dialect) (hc : c.recovery = .collectAll) (s : State) :
    RunsAbove (Grammar.full.innerStmt dialect) c s := by
  have hlevel := inherited_reporting.level (Nat.le_refl s.rest.length) (Nat.le_refl s.rest.length)
  have hstmt : Holds reporting (Grade.free (s.rest.length + 1) false) (fun _ => Mark.reading) []
      ((Grammar.upTo s.rest.length).stmt dialect) ((Grammar.upTo s.rest.length).stmt dialect) fun st => [] ++ st.declared :=
    inherited_reporting.stmt hlevel dialect
  exact (hstmt.trait c s hc ⟨Nat.lt_succ_self _, trivial⟩).congr fun _ => rfl

theorem runsAbove_parenPredicate (hc : c.recovery = .collectAll) (s : State) :
    RunsAbove Grammar.full.parenPredicate c s := by
  have hadmits : ∀ ds, (Grade.free (s.rest.length + 1) true).Admits (s.withDiagnostics ds) :=
    fun _ => ⟨Nat.lt_succ_self _, trivial⟩
  have hlevel := inherited_reporting.level (Nat.le_refl s.rest.length) (Nat.le_refl s.rest.length)
  have hreporting : Outset reporting s.rest.length [] (Grammar.upTo s.rest.length).parenPredicate
      (Grammar.upTo s.rest.length).parenPredicate fun p => [] ++ p.declared := inherited_reporting.parenPredicate hlevel
  have hsame : Outset sameRuns s.rest.length [] (Grammar.upTo s.rest.length).parenPredicate Grammar.full.parenPredicate
      fun p => [] ++ p.declared := Inherited.parenPredicate inherited_sameRuns (level_full (Nat.le_refl _))
  exact (hreporting.trait c s hc (hadmits s.diagnostics)).congr fun ds => (hsame.sameRun (hadmits ds)).symm

end Parser

/-! ## Whole texts -/

section Texts

variable {α : Type} {production : Parser α} {problem : SyntaxProblem} {text : String} {r : Option α} {ds : List Diagnostic}

/-- Behind the last token of a text nothing more is reported. -/
theorem reported_of_comesTo (h : ComesTo (.ofText text .collectAll) production [] (Token.significant text) [] r ds []) :
    ((production >>= atEndOrReport) (.ofText text .collectAll) (.ofText text)).2.diagnostics = ds := by
  obtain ⟨ns, hrun⟩ := h []
  rw [List.append_nil] at hrun
  replace hrun : production (.ofText text .collectAll) (.ofText text) = _ := hrun
  rw [bind_apply, hrun]
  cases r <;> rfl

/-- A text whose tokens are all read is rejected for what has been reported. -/
theorem parseOnly_of_comesTo (hlexical : LexicalError.ofText text = [])
    (h : ComesTo (.ofText text .collectAll) production [] (Token.significant text) [] r ds []) (hds : ds ≠ []) :
    parseOnly production problem text = .error (Diagnostic.sortByStart ds.reverse) :=
  parseOnly_of_reports hlexical (reported_of_comesTo h) hds

end Texts

/-! ## Texts of leaves -/

mutual

/-- Whether a statement is open is the same at another place. -/
theorem Stmt.isOpen_move (f : Nat → Nat) : ∀ s : Stmt, (s.move f).isOpen = s.isOpen
  | ⟨form, _⟩ => form.isOpen_move f

theorem StmtForm.isOpen_move (f : Nat → Nat) : ∀ form : StmtForm, (form.move f).isOpen = form.isOpen
  | .cond _ _ none => rfl
  | .cond _ _ (some b) => b.isOpen_move f
  | .varDecl _ | .assign _ | .regWrite _ | .bind _ | .expr _ | .return_ _ | .block _ | .function _ | .module _ => rfl

end

theorem EndsBefore.stmtStops {s : Stmt} {rest : List Token} (h : EndsBefore s.endsBare s.isOpen rest) (k : Nat) :
    StmtStops (s.move (· + k)) rest := by
  rw [← Stmt.endsBare_move k, ← Stmt.isOpen_move (· + k)] at h
  exact h

/-- A text that is a leaf: a statement that is one where all leaves are permitted, or a call of a system task. -/
inductive LeafText (text : String)
  | stmt (s : Stmt) (read : parseStatement .actionValue text = .ok s) (isLeaf : s.form.isLeaf = true)
  | task (call : TaskCall) (lexical : LexicalError.ofText text = []) (tokens : Token.significant text = call.tokens)

namespace LeafText

variable {text : String} {dialect : Dialect} {s : Stmt} {d : Diagnostic}

/-- Whether the text ends where its last expression does. -/
def endsBare : LeafText text → Bool
  | stmt s _ _ => s.endsBare
  | task _ _ _ => false

theorem lexical : LeafText text → LexicalError.ofText text = []
  | stmt _ read _ => (parseOnly_eq_ok.mp read).1
  | task _ hlexical _ => hlexical

/-- A leaf that is read where all leaves are permitted is read to its end where it is not, and reported. -/
theorem comesTo_of_check {c : Setting} {cs ts rest : List Token} {t : Token} {ds : List Diagnostic} {leaf : Leaf}
    {span : Span} (h : ComesTo c (Grammar.full.innerStmt .actionValue) cs (t :: ts) ds (some s) ds rest)
    (ht : t.kind ≠ .punct .attrOpen) (hleaf : s.form.check? t = some (leaf, span))
    (hforbidden : dialect.permits leaf = false) :
    ComesTo c (Grammar.full.innerStmt dialect) cs (t :: ts) ds none
      (⟨.grammar (.leafNotPermitted leaf dialect), span⟩ :: ds) rest := by
  intro ns
  obtain ⟨ns', hrun⟩ := h ns
  have hlacks : Lacks (.punct .attrOpen) (t :: ts ++ rest) := .cons rfl ht _
  rw [Grammar.innerStmt_eq] at hrun ⊢
  refine ⟨ns', ?_⟩
  rw [Grammar.stmt_of_leaf rfl hlacks hrun hleaf]
  unfold permit
  rw [hforbidden]
  rfl

/-- The leaf that a dialect rejects is the one that it does not permit. -/
theorem forbidden_of_rejected (read : parseStatement .actionValue text = .ok s) (isLeaf : s.form.isLeaf = true)
    (hrejected : parseStatement dialect text = .error [d]) :
    ∃ t us leaf span, Token.significant text = t :: us ∧ t.kind ≠ .punct .attrOpen ∧
      s.form.check? t = some (leaf, span) ∧ dialect.permits leaf = false ∧
      d = ⟨.grammar (.leafNotPermitted leaf dialect), span⟩ := by
  obtain ⟨t, us, hcons⟩ := exists_first_of_parseOnly (fun tokens n => (inner_full tokens n).stmt .actionValue) read
  obtain ⟨leaf, span, hleaf⟩ := StmtForm.exists_check isLeaf t
  obtain ⟨hlexical, s', hrun, hend, hclean⟩ := parseOnly_eq_ok.mp read
  have hread : Grammar.full.innerStmt .actionValue (.ofText text .collectAll) (.ofText text) = (some s, s') := hrun
  have hstmt := hread
  rw [Grammar.innerStmt_eq] at hstmt
  have hlacks := Grammar.unattributed hstmt hclean
  have ht : t.kind ≠ .punct .attrOpen := hlacks t (congrArg List.head? hcons)
  refine ⟨t, us, leaf, span, hcons, ht, hleaf, ?_⟩
  have hother : Grammar.full.innerStmt dialect (.ofText text .collectAll) (.ofText text) = _ :=
    (congrFun₂ (Grammar.innerStmt_eq dialect) _ _).trans (Grammar.stmt_of_leaf hcons hlacks hstmt hleaf)
  cases hpermits : dialect.permits leaf with
  | true =>
    have haccepted : parseStatement dialect text = .ok s := by
      refine parseOnly_eq_ok.mpr ⟨hlexical, s', hother.trans ?_, hend, hclean⟩
      unfold permit
      rw [hpermits]
      rfl
    rw [haccepted] at hrejected
    cases hrejected
  | false =>
    have hgoes : Goes (Grammar.full.innerStmt .actionValue) [] (Token.significant text) s [] :=
      goes_of_run (fun tokens n => (inner_full tokens n).stmt .actionValue) hread hend hclean [] [] nofun
    rw [hcons] at hgoes
    have hfailed := comesTo_of_check (.of_goes (c := .ofText text .collectAll) hgoes) ht hleaf hpermits
    rw [← hcons] at hfailed
    refine ⟨rfl, ?_⟩
    cases hrejected.symm.trans (parseOnly_of_report hlexical (reported_of_comesTo hfailed))
    rfl

end LeafText

/-- A leaf that a dialect rejects with one diagnostic.  Its last token ends a statement. -/
structure RejectedLeaf (dialect : Dialect) where
  /-- The text. -/
  text : String
  /-- What the dialect says about the text. -/
  diagnostic : Diagnostic
  /-- The dialect says nothing else about it. -/
  rejected : parseStatement dialect text = .error [diagnostic]
  /-- The text is a leaf. -/
  leaf : LeafText text
  /-- The last token of the text is a semicolon, or closes a block. -/
  ended : endsAtBoundary (Token.significant text).reverse = true

namespace RejectedLeaf

variable {dialect : Dialect} (x : RejectedLeaf dialect)

theorem lexical : LexicalError.ofText x.text = [] := x.leaf.lexical

/-- The tokens of the text at an offset. -/
def tokensAt (offset : Nat) : List Token := (Token.significant x.text).map (Token.move (· + offset))

/-- The first token of the text begins a statement. -/
theorem starts (offset : Nat) : ∃ t us, x.tokensAt offset = t :: us ∧ t.kind.startsNoStmt = false := by
  obtain ⟨text, d, -, leaf, -⟩ := x
  cases leaf with
  | stmt s read isLeaf => exact StmtText.starts ⟨text, s, read⟩ offset
  | task call hlexical htokens =>
    refine ⟨call.name.move (· + offset), (call.group ++ [call.semi]).map (Token.move (· + offset)), ?_, ?_⟩
    · rw [tokensAt, htokens]
      rfl
    · show call.name.kind.startsNoStmt = false
      rw [call.isName]
      rfl

/-- What a dialect says about the call of a system task that it rejects. -/
theorem eq_of_task {text : String} {call : TaskCall} {d : Diagnostic} (hlexical : LexicalError.ofText text = [])
    (htokens : Token.significant text = call.tokens) (hrejected : parseStatement dialect text = .error [d]) :
    d = call.report dialect := by
  have hfailed : ComesTo (.ofText text .collectAll) (Grammar.full.innerStmt dialect) [] (Token.significant text) [] none
      [call.report dialect] [] := htokens ▸ call.comesTo
  cases hrejected.symm.trans (parseOnly_of_report hlexical (reported_of_comesTo hfailed))
  rfl

/-- Wherever the text stands, all of its tokens are read and it is reported once. -/
theorem comesTo (offset : Nat) (cs : List Token) {rest : List Token} (hrest : EndsBefore x.leaf.endsBare false rest)
    {c : Setting} {ds : List Diagnostic} (hgo : c.GoesOn ds) :
    ComesTo c (Grammar.full.innerStmt dialect) cs (x.tokensAt offset) ds none
      (x.diagnostic.move (· + offset) :: ds) rest := by
  cases hleaf : x.leaf with
  | stmt s read isLeaf =>
    rw [hleaf] at hrest
    obtain ⟨t, us, leaf, span, hcons, ht, hcheck, hforbidden, hd⟩ := LeafText.forbidden_of_rejected read isLeaf x.rejected
    obtain ⟨form, stmtSpan⟩ := s
    have hopen : Stmt.isOpen ⟨form, stmtSpan⟩ = false := by cases form <;> first | rfl | cases isLeaf
    have hstops : StmtStops (Stmt.move (· + offset) ⟨form, stmtSpan⟩) rest := by
      refine EndsBefore.stmtStops ?_ offset
      rw [hopen]
      exact hrest
    have hread := (Stmt.goes_of_parseStatement read offset cs hstops).comesTo hgo (runsAbove_innerStmt .actionValue)
    rw [hcons] at hread
    rw [tokensAt, hcons, hd]
    exact LeafText.comesTo_of_check hread ht (StmtForm.check?_move _ hcheck) hforbidden
  | task call hlexical htokens =>
    rw [tokensAt, htokens, eq_of_task hlexical htokens x.rejected, ← TaskCall.tokens_move, ← TaskCall.report_move]
    exact TaskCall.comesTo _

/-- What is said about the text is said about a place in it. -/
theorem start_le : x.diagnostic.span.start ≤ Text.byteSize x.text.toList := by
  have hend : EndsBefore x.leaf.endsBare false [] := nofun
  obtain ⟨ns, hrun⟩ := x.comesTo (c := .ofText x.text .collectAll) 0 [] hend (.inl rfl) []
  rw [List.append_nil, tokensAt, show (Token.significant x.text).map (Token.move (· + 0)) = _ from List.map_id _] at hrun
  have hbefore : (State.ofText x.text).Before (.ofText x.text .collectAll) (Token.significant x.text) 0 :=
    ⟨Token.ordered_significant x.text, Nat.zero_le _, rfl, rfl, fun _ hd => absurd hd List.not_mem_nil⟩
  have hwalk : Walk (.ofText x.text .collectAll) (Token.significant x.text) 0 (Grammar.full.innerStmt dialect)
      fun j s => SpanTree.Row (Token.significant x.text) 0 j [s.spans] := walk_withGrammar fun _ hg => walk_stmt hg dialect 0
  obtain ⟨j, -, hafter, -⟩ := hwalk _ _ _ hbefore hrun
  have hbounded := Span.Fits.bounded (hafter.fits _ List.mem_cons_self)
  have hle := hbounded.start.le
  rwa [Nat.zero_add] at hle

end RejectedLeaf

end Bluespec
