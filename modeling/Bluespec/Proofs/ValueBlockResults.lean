import Bluespec.Proofs.BracketedExpressions

/-!
# Results of blocks

The result of a block is read as an operand, and then as what operators make of it.  So a text that is one expression is
the result of a block if it begins with an operand; if it begins with a unary operator it is not read there.

* **`Grammar.blockItem_of_expr`** — an expression that begins with an operand is read as a result.
* **`Grammar.dirty_valueBlock`** — a unary operator is reported where a result is to begin.
* **`parseExpression_valueBlock`** — the texts that are the result of a block, and those that are not.
-/

namespace Bluespec

open Bluespec.Parser

/-- No operand begins with a word that closes something. -/
theorem Kind.not_isCloser_of_primary {k : Kind} (h : k.startsPrimary = true) : k.isCloser = false := by
  cases k with
  | keyword w => cases w <;> first | rfl | cases h
  | _ => rfl

namespace Grammar

variable {c : Setting} {s s' : State} {e : Expr} {k : Kind}

/-! ## Expressions that begin with an operand -/

/-- An expression that begins with no unary operator is an operand with operations. -/
theorem exists_operand_of_expr (hpeek : s.peek = some k) (hk : UnaryOp.ofKind? k = none)
    (h : full.innerExpr 0 c s = (some e, s')) :
    ∃ target s₁, full.innerOperand c s = (some target, s₁) ∧ full.operations 0 target c s₁ = (some e, s') := by
  rw [innerExpr_eq] at h
  obtain ⟨u, s₁, hunary, h⟩ := bind_eq_some.mp h
  obtain ⟨target, s₂, hsuffixes, hoperations⟩ := bind_eq_some.mp h
  rw [unary, bind_of_some peek_eq, hpeek, Option.bind_some, hk] at hunary
  refine ⟨target, s₂, ?_, hoperations⟩
  rw [innerOperand_eq, operand, bind_of_some hunary]
  exact hsuffixes

/-- No system call is read as an operand. -/
theorem primary_of_systemIdent (hpeek : s.peek = some .systemIdent) : (full.primary c s).1 = none := by
  rcases hrun : full.primary c s with ⟨_ | e, s'⟩
  · rfl
  · rw [primary, bind_of_some offset_eq, bind_of_some peek_eq, hpeek] at hrun
    obtain ⟨span, s₁, -, hrun⟩ := bind_eq_some.mp hrun
    obtain ⟨u, s₂, -, hrun⟩ := bind_eq_some.mp hrun
    cases hrun

/-- An operand begins like a primary, and with no system call. -/
theorem operand_starts (hpeek : s.peek = some k) (h : full.innerOperand c s = (some e, s')) :
    k.startsPrimary = true ∧ k ≠ .systemIdent := by
  rw [innerOperand_eq] at h
  obtain ⟨e₀, s₀, hprimary, -⟩ := bind_eq_some.mp h
  obtain ⟨k', hpeek', hk⟩ := primary_head hprimary
  rw [hpeek] at hpeek'
  cases hpeek'
  refine ⟨hk, ?_⟩
  rintro rfl
  have hnone := primary_of_systemIdent (c := c) hpeek
  rw [hprimary] at hnone
  cases hnone

/-- No statement of a block begins like an operand, but for the word that opens a block. -/
theorem startsStmt_of_operand (hpeek : s.peek = some k) (hbegin : k ≠ .keyword .begin)
    (h : full.innerOperand c s = (some e, s')) : startsStmt k = false := by
  obtain ⟨hk, hsystem⟩ := operand_starts hpeek h
  cases k with
  | punct p => cases p <;> first | rfl | cases hk
  | keyword w => cases w <;> first | rfl | exact absurd rfl hbegin | cases hk
  | systemIdent => exact absurd rfl hsystem
  | _ => rfl

/-- An expression ends with the name of a type if parameters or another name stand behind it. -/
theorem rest_of_typeIdent {t t' : Token} {cs ts : List Token} {ds : List Diagnostic} {ns : List NodeSpan}
    (hk : t.kind = .typeIdent) (hk' : t'.kind = .punct .hash ∨ t'.kind = .ident)
    (h : full.innerExpr 0 c ⟨cs, t :: t' :: ts, ds, ns⟩ = (some e, s')) : s'.rest = t' :: ts := by
  have hbrace : Lacks (.punct .lbrace) (t' :: ts) := by
    rintro t₀ ⟨⟩
    rcases hk' with hk' | hk' <;> rw [hk'] <;> decide
  have hstops : Unsuffixed (t' :: ts) := by
    rintro t₀ ⟨⟩
    rcases hk' with hk' | hk' <;> rw [hk'] <;> rfl
  have hsettled : Settled 0 c ⟨t :: cs, t' :: ts, ds, ns⟩ := by
    rintro t₀ ⟨⟩
    rcases hk' with hk' | hk' <;> rw [hk'] <;> exact ⟨nofun, nofun, nofun, nofun⟩
  obtain ⟨e₀, hname⟩ : ∃ e₀, full.operand c ⟨cs, t :: t' :: ts, ds, ns⟩ = (some e₀, ⟨t :: cs, t' :: ts, ds, ns⟩) :=
    operand_of_typeIdent hk hbrace hstops
  have hpeek : State.peek ⟨cs, t :: t' :: ts, ds, ns⟩ = some .typeIdent := congrArg some hk
  obtain ⟨target, s₁, hoperand, hoperations⟩ := exists_operand_of_expr hpeek rfl h
  rw [innerOperand_eq, hname] at hoperand
  cases hoperand
  rw [operations_of_settled hsettled] at hoperations
  cases hoperations
  rfl

/-- An expression with nothing behind it that goes on with it is no declaration with a type. -/
theorem not_typed_of_expr (hpeek : s.peek = some k) (hprimary : k.startsPrimary = true)
    (h : full.innerExpr 0 c s = (some e, s')) (hends : ExprEnds s'.rest) :
    (s.peek.any startsTyped && typeAndName c s) = false := by
  obtain ⟨cs, ts, ds, ns⟩ := s
  by_cases htype : k = .typeIdent
  · obtain ⟨t, ts, rfl⟩ : ∃ t us, ts = t :: us := by
      cases ts with
      | nil => cases hpeek
      | cons t us => exact ⟨t, us, rfl⟩
    have hk : t.kind = .typeIdent := (Option.some.inj hpeek).trans htype
    have hrest : ∀ k', k' = .punct .hash ∨ k' = .ident → Lacks k' ts := by
      rintro k' hk' t' ht' rfl
      obtain ⟨us, rfl⟩ : ∃ us, ts = t' :: us := List.head?_eq_some_iff.mp ht'
      have hend := rest_of_typeIdent hk hk' h
      have hkind := hends t' (by rw [hend]; rfl)
      rcases hk' with hk' | hk' <;> rw [hk'] at hkind <;> cases hkind
    rw [typeAndName_of_typeIdent hk (hrest _ (.inl rfl))]
    cases ts with
    | nil => exact Bool.and_false _
    | cons t' us =>
      have hne : t'.kind ≠ .ident := hrest _ (.inr rfl) t' rfl
      have hname : ((t' :: us).head?.map Token.kind == some .ident) = false := by
        rw [List.head?_cons, Option.map_some]
        exact beq_false_of_ne fun heq => hne (Option.some.inj heq)
      rw [hname, Bool.and_false]
  · have huntyped : startsTyped k = false := by
      cases k with
      | typeIdent => exact absurd rfl htype
      | keyword w => cases w <;> first | rfl | cases hprimary
      | _ => rfl
    rw [hpeek, Option.any_some, huntyped, Bool.false_and]

/-- No operation comes where an assignment may follow, or a semicolon. -/
theorem settled_of_endsTarget (h : Inner.endsTarget s.peek = true) : Settled 0 c s := by
  intro t ht
  have hpeek : s.peek = some t.kind := congrArg (Option.map Token.kind) ht
  rw [hpeek] at h
  unfold Inner.endsTarget at h
  split at h
  · next heq => rw [Option.some.inj heq]; exact ⟨nofun, nofun, nofun, nofun⟩
  · next heq => rw [Option.some.inj heq]; exact ⟨nofun, nofun, nofun, nofun⟩
  · next heq => rw [Option.some.inj heq]; exact ⟨nofun, nofun, nofun, nofun⟩
  · cases h

/-- An item that begins with an operand. -/
theorem blockItem_of_operand {target : Expr} {s₁ : State} (hstmt : (s.peek.map startsStmt).getD false = false)
    (htyped : (s.peek.any startsTyped && typeAndName c s) = false)
    (hoperand : full.innerOperand c s = (some target, s₁)) :
    full.blockItem c s = (if Inner.endsTarget s₁.peek = true then
      Inner.assignTail full (s.peekSpan c).start target s₁.peek else Inner.resultTail full target) c s₁ := by
  have hstarted : Inner.startedOperand full c s = (some ((s.peekSpan c).start, target), s₁) := by
    rw [Inner.startedOperand, bind_of_some offset_eq, bind_of_some hoperand]
    rfl
  have hdecl : atTypedDecl c s = (some false, s) := by rw [atTypedDecl_eq, htyped]
  rw [Inner.blockItem_eq, bind_of_some peek_eq, hstmt, if_neg Bool.false_ne_true,
    bind_of_some hdecl, if_neg Bool.false_ne_true, Inner.operandItem, bind_of_some hstarted,
    bind_of_some peek_eq]
  by_cases htarget : Inner.endsTarget s₁.peek = true
  · rw [if_pos htarget, if_pos htarget]
    rfl
  · rw [if_neg htarget, if_neg htarget]

/-- An expression that begins with an operand, and that is followed by the word that closes the block, with or without a
semicolon, is read as the result of the block. -/
theorem blockItem_of_expr {s'' : State} {o : Option Token} {closing : Token} {rest : List Token}
    (hpeek : s.peek = some k) (hk : UnaryOp.ofKind? k = none) (hbegin : k ≠ .keyword .begin)
    (h : full.innerExpr 0 c s = (some e, s')) (hclosing : closing.kind = .keyword .end_)
    (hrest : s'.rest = closing :: rest ∨ ∃ semi : Token, semi.kind = .punct .semi ∧ s'.rest = semi :: closing :: rest)
    (heat : eat (.punct .semi) c s' = (some o, s'')) : full.blockItem c s = (some (.result e), s'') := by
  obtain ⟨target, s₁, hoperand, hoperations⟩ := exists_operand_of_expr hpeek hk h
  have hends : ExprEnds s'.rest := by
    rcases hrest with hrest | ⟨semi, hsemi, hrest⟩
    · rw [hrest]
      exact .cons hclosing rfl _
    · rw [hrest]
      exact .cons hsemi rfl _
  have hstmt : (s.peek.map startsStmt).getD false = false := by
    rw [hpeek]
    exact startsStmt_of_operand hpeek hbegin hoperand
  have htyped := not_typed_of_expr hpeek (operand_starts hpeek hoperand).1 h hends
  rw [blockItem_of_operand hstmt htyped hoperand]
  by_cases htarget : Inner.endsTarget s₁.peek = true
  · rw [operations_of_settled (settled_of_endsTarget htarget)] at hoperations
    cases hoperations
    obtain ⟨cs, ts, ds, ns⟩ := s'
    rcases hrest with hrest | ⟨semi, hsemi, hrest⟩
    · cases hrest
      rw [show State.peek ⟨cs, closing :: rest, ds, ns⟩ = some closing.kind from rfl, hclosing] at htarget
      cases htarget
    · cases hrest
      rw [eat_of_kind hsemi] at heat
      cases heat
      have hsecond : ask (fun s => s.nth 1) c ⟨cs, semi :: closing :: rest, ds, ns⟩ =
          (some (some (.keyword .end_)), ⟨cs, semi :: closing :: rest, ds, ns⟩) := by
        rw [← hclosing]
        rfl
      rw [if_pos htarget, show State.peek ⟨cs, semi :: closing :: rest, ds, ns⟩ = some semi.kind from rfl, hsemi,
        Inner.assignTail, bind_of_some hsecond]
      rfl
  · rw [if_neg htarget, Inner.resultTail, bind_of_some hoperations, bind_of_some heat]
    rfl

/-! ## Blocks with nothing but a result -/

/-- The first token is one that an operand begins with, and opens no block. -/
def BeginsOperand (ts : List Token) : Prop :=
  ∃ t us, ts = t :: us ∧ t.kind.startsPrimary = true ∧ t.kind ≠ .keyword .begin

/-- Nothing, or a semicolon. -/
def SemicolonAtMost (tail : List Token) : Prop := tail = [] ∨ ∃ semi : Token, semi.kind = .punct .semi ∧ tail = [semi]

section Given

variable {opening closing : Token} {cs ts tail : List Token} (hclosing : closing.kind = .keyword .end_)
  (htail : SemicolonAtMost tail) (hfirst : BeginsOperand ts)

include hclosing htail hfirst

/-- Tokens that are read as an expression, and that begin with an operand, are read as the result of a block. -/
theorem goes_blockItem (h : Goes (full.innerExpr 0) cs ts e (tail ++ [closing])) :
    Goes full.blockItem cs (ts ++ tail) (.result e) [closing] := by
  intro c ns
  obtain ⟨ns', hexpr⟩ := h c ns
  obtain ⟨t, us, rfl, hprimary, hbegin⟩ := hfirst
  have hunary := UnaryOp.ofKind?_of_primary hprimary
  refine ⟨ns', ?_⟩
  rw [List.append_assoc, List.reverse_append, List.append_assoc]
  rcases htail with rfl | ⟨semi, hsemi, rfl⟩
  · have heat : eat (.punct .semi) c ⟨(t :: us).reverse ++ cs, [closing], [], ns'⟩ =
        (some none, ⟨(t :: us).reverse ++ cs, [closing], [], ns'⟩) := by
      refine if_neg ?_
      rw [hclosing]
      decide
    exact blockItem_of_expr rfl hunary hbegin hexpr hclosing (.inl rfl) heat
  · exact blockItem_of_expr rfl hunary hbegin hexpr hclosing (.inr ⟨semi, hsemi, rfl⟩) (eat_of_kind hsemi)

theorem goes_blockItems (h : Goes (full.innerExpr 0) cs ts e (tail ++ [closing])) :
    Goes full.blockItems cs (ts ++ tail) ([], e) [closing] := by
  have hround : Goes (full.blockRound []) cs (ts ++ tail) (.done ([], e)) [closing] := by
    refine .look (a := false) (fun c ns => ?_) (.look (a := false) (fun c ns => ?_) ?_)
    · exact congrArg (fun b => (some b, _)) (halts_of_clean rfl)
    · obtain ⟨t, us, rfl, hprimary, -⟩ := hfirst
      exact congrArg (fun b => (some b, _)) (Kind.not_isCloser_of_primary hprimary)
    · exact (goes_blockItem hclosing htail hfirst h).resuming.then_ .value
  intro c ns
  obtain ⟨ns', hrun⟩ := hround c ns
  exact ⟨ns', repeatUntil_of_leads .refl hrun⟩

/-- A block of nothing but an expression that begins with an operand. -/
theorem goes_valueBlock (hopening : opening.kind = .keyword .begin)
    (h : Goes (full.innerExpr 0) [opening] ts e (tail ++ [closing])) :
    Goes full.primary [] (opening :: (ts ++ tail) ++ [closing])
      ⟨.valueBlock ⟨none, none⟩ [] e, ⟨opening.span.start, max closing.span.stop opening.span.start⟩⟩ [] := by
  have hcolon : Lacks (.punct .colon) ((ts ++ tail) ++ [closing] ++ []) := by
    obtain ⟨t, us, rfl, hprimary, -⟩ := hfirst
    rintro t' ⟨⟩ hk
    rw [hk] at hprimary
    cases hprimary
  have hblock : Goes full.valueBlock [] (opening :: (ts ++ tail) ++ [closing]) (.valueBlock ⟨none, none⟩ [] e) [] :=
    .cons (.expectKeyword hopening) ((Goes.noLabel hcolon).bind ((goes_blockItems hclosing htail hfirst h).bind
      (.cons (.expectKeyword hclosing) ((Goes.noLabel .nil).then_ .value))))
  refine .offset (.peek ?_)
  rw [hopening]
  exact hblock.spanned

end Given

/-! ## Expressions that begin with a unary operator -/

/-- Where a report has been made, whatever comes after does not take it back. -/
theorem dirty_bind {α β : Type} {p : Parser α} {f : α → Parser β} (h : (p c s).2.diagnostics ≠ [])
    (hf : ∀ a, Moving (f a)) : ((p >>= f) c s).2.diagnostics ≠ [] := by
  rw [bind_apply]
  rcases hrun : p c s with ⟨_ | a, s₁⟩
  · rw [hrun] at h
    exact h
  · rw [hrun] at h
    exact (hf a c s₁).dirty h

/-- A unary operator is reported where an item of a block is to begin. -/
theorem blockItem_of_unary (hpeek : s.peek = some k) (hk : (UnaryOp.ofKind? k).isSome = true) :
    ∃ s₁, full.blockItem c s = (none, s₁) ∧ s₁.diagnostics ≠ [] := by
  have hkind : startsStmt k = false ∧ startsTyped k = false ∧
      full.primary c s = failExpected .expression c s := by
    rw [primary, bind_of_some offset_eq, bind_of_some peek_eq, hpeek]
    cases k with
    | punct p => cases p <;> first | exact ⟨rfl, rfl, rfl⟩ | cases hk
    | _ => cases hk
  obtain ⟨hstmt, htyped, hprimary⟩ := hkind
  obtain ⟨s₁, hfail, hdirty⟩ : ∃ s₁, full.primary c s = (none, s₁) ∧ s₁.diagnostics ≠ [] :=
    ⟨_, hprimary, List.cons_ne_nil _ _⟩
  have hoperand : full.innerOperand c s = (none, s₁) := by rw [innerOperand_eq, operand, bind_of_none hfail]
  have hstarted : Inner.startedOperand full c s = (none, s₁) := by
    rw [Inner.startedOperand, bind_of_some offset_eq,
      bind_of_none hoperand]
  have hdecl : atTypedDecl c s = (some false, s) := by
    rw [atTypedDecl_eq, hpeek, Option.any_some, htyped, Bool.false_and]
  refine ⟨s₁, ?_, hdirty⟩
  rw [Inner.blockItem_eq, bind_of_some peek_eq, hpeek, Option.map_some,
    Option.getD_some, hstmt, if_neg Bool.false_ne_true, bind_of_some hdecl, if_neg Bool.false_ne_true,
    Inner.operandItem, bind_of_none hstarted]

/-- What is reported at the first item of a block is not taken back. -/
theorem dirty_blockItems (hclean : s.diagnostics = []) (hpeek : s.peek = some k)
    (hk : (UnaryOp.ofKind? k).isSome = true) : (full.blockItems c s).2.diagnostics ≠ [] := by
  obtain ⟨s₁, hitem, hdirty⟩ := blockItem_of_unary (c := c) hpeek hk
  have hopen : s.atCloser = false := by
    have hcloser : k.isCloser = false := by
      cases k with
      | punct p => rfl
      | _ => cases hk
    rw [State.atCloser, hpeek]
    exact hcloser
  have hresuming : resuming full.blockItem c s = (some none, resumeState s s₁) := by rw [resuming, hitem]
  have hround : full.blockRound [] c s = (some (.again []), resumeState s s₁) := by
    rw [blockRound, bind_of_some (show halted c s = (some (s.halts c), s) from rfl), halts_of_clean hclean,
      if_neg Bool.false_ne_true, bind_of_some (show ask State.atCloser c s = (some s.atCloser, s) from rfl), hopen,
      if_neg Bool.false_ne_true, bind_of_some hresuming]
    rfl
  have hrounds : ∀ read, Moving (full.blockRound read) := fun read => ((Inner.zero []).itemRound_confined read).moves
  show (roundsUpTo full.blockRound (s.rest.length + 1) [] c s).2.diagnostics ≠ []
  rw [roundsUpTo, bind_of_some hround]
  exact (Moving.roundsUpTo hrounds _ _ c _).dirty ((State.Moves.resumeState s s₁).dirty hdirty)

/-- A block whose first item begins with a unary operator is not read without diagnostics. -/
theorem dirty_valueBlock {opening t : Token} {ts : List Token} {ns : List NodeSpan}
    (h : full.innerExpr 0 c ⟨[], opening :: t :: ts, [], ns⟩ = (some e, s')) (hopening : opening.kind = .keyword .begin)
    (ht : (UnaryOp.ofKind? t.kind).isSome = true) : s'.diagnostics ≠ [] := by
  have hcolon : Lacks (.punct .colon) (t :: ts) := by
    rintro t' ⟨⟩ hk
    rw [hk] at ht
    cases ht
  have hlabel : label c ⟨[opening], t :: ts, [], ns⟩ = (some none, ⟨[opening], t :: ts, [], ns⟩) := by
    rw [label, bind_of_some (accept_of_head hcolon)]
    rfl
  have hblock : (full.valueBlock c ⟨[], opening :: t :: ts, [], ns⟩).2.diagnostics ≠ [] := by
    rw [valueBlock, bind_of_some (expectKeyword_of_kind hopening), bind_of_some hlabel]
    refine dirty_bind (dirty_blockItems rfl rfl ht) fun r => ?_
    exact (Moving.expectKeyword _).bind fun _ => Moving.label.bind fun _ => .value _
  have hprimary : (full.primary c ⟨[], opening :: t :: ts, [], ns⟩).2.diagnostics ≠ [] := by
    rw [primary, bind_of_some offset_cons, bind_of_some peek_cons, hopening]
    exact dirty_bind hblock fun form => .bind (.look fun _ _ => rfl) fun span => .value _
  have hunary : (full.unary c ⟨[], opening :: t :: ts, [], ns⟩).2.diagnostics ≠ [] := by
    rw [unary, bind_of_some peek_cons, hopening]
    exact hprimary
  have hexpr := dirty_bind hunary fun u =>
    .bind (Grammar.onward_full.suffixes u) fun e => Grammar.onward_full.operations 0 e
  rw [innerExpr_eq] at h
  exact fun hclean => hexpr ((congrArg (·.2.diagnostics) h).trans hclean)

end Grammar

/-! ## Whole texts -/

/-- The word that opens a block. -/
def beginWord : Identifier (.keyword .begin) := ⟨'b', "egin".toList, rfl, List.all_eq_true.mp rfl, rfl⟩

/-- The word that closes a block. -/
def endWord : Identifier (.keyword .end_) := ⟨'e', "nd".toList, rfl, List.all_eq_true.mp rfl, rfl⟩

/-- The word that closes a block is read as such, also behind a semicolon. -/
theorem exists_closing {closing : String} (h : closing = "end" ∨ closing = "; end") (offset : Nat) :
    ∃ tail last, Lexed offset closing.toList (tail ++ [last]) [] ∧ last.kind = .keyword .end_ ∧
      last.span.stop = offset + Text.byteSize closing.toList ∧ Grammar.SemicolonAtMost tail := by
  have hword : ∀ offset, Lexed offset "end".toList [Lexed.nameAt endWord offset] [] := fun _ => .name endWord rfl nofun
  rcases h with rfl | rfl
  · exact ⟨[], _, hword offset, rfl, rfl, .inl rfl⟩
  · refine ⟨[Lexed.symbolAt .semi offset], _, (Lexed.symbolSpace .semi).append (hword _), rfl, ?_, .inr ⟨_, rfl, rfl⟩⟩
    exact Nat.add_assoc _ _ _

namespace ExprText

variable (x : ExprText)

/-- The text of a block of nothing but a result. -/
def blockText (closing : String) : String := "begin " ++ x.line ++ closing

theorem lexed_blockText {closing : String} {ts : List Token} (h : Lexed (6 + (x.size + 1)) closing.toList ts []) :
    Lexed 0 (x.blockText closing).toList (Lexed.nameAt beginWord 0 :: (x.tokensAt 6 ++ ts)) [] := by
  have hopening : Lexed 0 "begin ".toList [Lexed.nameAt beginWord 0] (x.line.toList ++ closing.toList ++ []) :=
    (Lexed.name beginWord rfl (fun d hd => by cases hd; rfl)).append .space
  have hline : Lexed 6 x.line.toList (x.tokensAt 6) (closing.toList ++ []) := x.piece.lexed 6 _
  have hsize : Text.byteSize x.line.toList = x.size + 1 := x.size_piece
  rw [blockText, String.toList_append, String.toList_append, List.append_assoc]
  rw [← hsize] at h
  exact hopening.append (hline.append h)

/-- No unary operator stands at the beginning of the text. -/
def Plain : Prop := ∀ t ∈ (Token.significant x.text).head?, UnaryOp.ofKind? t.kind = none

theorem beginsOperand (hplain : x.Plain) (hbegin : Lacks (.keyword .begin) (Token.significant x.text)) :
    Grammar.BeginsOperand (x.tokensAt 6) := by
  obtain ⟨t, us, hcons, hstarts⟩ := x.exists_first
  rw [Plain, hcons] at hplain
  rw [hcons] at hbegin
  refine ⟨t.move (· + 6), us.map (Token.move (· + 6)), ?_, ?_, hbegin t rfl⟩
  · rw [tokensAt, hcons]
    rfl
  · rw [Kind.startsExpr, hplain t rfl] at hstarts
    exact (Bool.or_false _).symm.trans hstarts

end ExprText

section Results

variable {x : ExprText} {closing : String} (hclosing : closing = "end" ∨ closing = "; end")

include hclosing

/-- A text that begins with an operand is read as the result of a block. -/
theorem readsAs_valueBlock (hplain : x.Plain) (hbegin : Lacks (.keyword .begin) (Token.significant x.text)) :
    ReadsAs (x.blockText closing) (.valueBlock ⟨none, none⟩ [] (x.expr.move (· + 6))) := by
  obtain ⟨tail, last, hlexed, hlast, hstop, htail⟩ := exists_closing hclosing (6 + (x.size + 1))
  have hexpr : Goes (Grammar.full.innerExpr 0) [Lexed.nameAt beginWord 0] (x.tokensAt 6) (x.expr.move (· + 6))
      (tail ++ [last]) := by
    refine x.piece.goes 6 _ _ ?_
    rcases htail with rfl | ⟨semi, hsemi, rfl⟩
    · exact .cons hlast rfl _
    · exact .cons hsemi rfl _
  have hblock := Grammar.goes_of_primary (Grammar.goes_valueBlock hlast htail (x.beginsOperand hplain hbegin) rfl hexpr)
  have hsize : max last.span.stop (Lexed.nameAt beginWord 0).span.start = Text.byteSize (x.blockText closing).toList := by
    have hline : Text.byteSize x.line.toList = x.size + 1 := x.size_piece
    have hword : Text.byteSize "begin ".toList = 6 := rfl
    rw [ExprText.blockText, String.toList_append, String.toList_append, Text.byteSize_append, Text.byteSize_append, hline,
      hword, hstop]
    exact Nat.max_eq_left (Nat.zero_le _)
  rw [hsize, List.cons_append, List.append_assoc] at hblock
  exact readsAs_of_goes (x.lexed_blockText hlexed) hblock

/-- A text that begins with a unary operator is not read there. -/
theorem error_valueBlock (hplain : ¬ x.Plain) : ∃ ds, parseExpression (x.blockText closing) = .error ds := by
  cases hread : parseExpression (x.blockText closing) with
  | error ds => exact ⟨ds, rfl⟩
  | ok e =>
    refine absurd (fun t ht => ?_) hplain
    obtain ⟨tail, last, hlexed, -⟩ := exists_closing hclosing (6 + (x.size + 1))
    obtain ⟨-, s', hrun, -, hclean⟩ := parseOnly_eq_ok.mp hread
    obtain ⟨us, hcons⟩ := List.head?_eq_some_iff.mp ht
    have htokens : Token.significant (x.blockText closing) = Lexed.nameAt beginWord 0 :: t.move (· + 6) ::
        (us.map (Token.move (· + 6)) ++ (tail ++ [last])) := by
      rw [(x.lexed_blockText hlexed).whole.1, ExprText.tokensAt, hcons]
      rfl
    replace hrun : Grammar.full.innerExpr 0 (.ofText (x.blockText closing) .collectAll)
        ⟨[], Token.significant (x.blockText closing), [], []⟩ = _ := hrun
    rw [htokens] at hrun
    by_contra hunary
    exact Grammar.dirty_valueBlock hrun rfl (Option.isSome_iff_ne_none.mpr hunary) hclean

end Results

/-- A text that is one expression, and that does not begin with the word that opens a block, is read as the result of a
block if it begins with no unary operator; if it does, the block is rejected. -/
theorem parseExpression_valueBlock {x : ExprText} (hbegin : Lacks (.keyword .begin) (Token.significant x.text)) :
    ∀ closing ∈ ["end", "; end"],
      (x.Plain → ReadsAs (x.blockText closing) (.valueBlock ⟨none, none⟩ [] (x.expr.move (· + 6)))) ∧
        (¬ x.Plain → ∃ ds, parseExpression (x.blockText closing) = .error ds) := by
  intro closing hmem
  have hclosing : closing = "end" ∨ closing = "; end" :=
    (List.mem_cons.mp hmem).imp_right fun h => List.mem_singleton.mp h
  exact ⟨fun hplain => readsAs_valueBlock hclosing hplain hbegin, error_valueBlock hclosing⟩

/-- A name. -/
def ExprText.plainName : ExprText := ⟨"a", ⟨.var "a", ⟨0, 1⟩⟩, rfl⟩

theorem parseExpression_valueBlock_name :
    Lacks (.keyword .begin) (Token.significant ExprText.plainName.text) ∧ ExprText.plainName.Plain ∧
      ReadsAs (ExprText.plainName.blockText "end") (.valueBlock ⟨none, none⟩ [] (ExprText.plainName.expr.move (· + 6))) := by
  have hbegin : Lacks (.keyword .begin) (Token.significant ExprText.plainName.text) := by
    rintro t ⟨⟩
    decide
  have hplain : ExprText.plainName.Plain := by
    rintro t ⟨⟩
    rfl
  exact ⟨hbegin, hplain, (parseExpression_valueBlock hbegin "end" List.mem_cons_self).1 hplain⟩

/-- The negation of a name is an expression, and it is rejected as the result of a block. -/
theorem parseExpression_negated_result : (∃ e, parseExpression "!a" = .ok e) ∧
    ¬ ∃ e, parseExpression "begin !a\nend" = .ok e := by
  have hrejected : ∃ ds, parseExpression "begin !a\nend" = .error ds := ⟨_, rfl⟩
  refine ⟨⟨_, rfl⟩, fun ⟨e, he⟩ => ?_⟩
  obtain ⟨ds, hds⟩ := hrejected
  rw [he] at hds
  cases hds

end Bluespec
