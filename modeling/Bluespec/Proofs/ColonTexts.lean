import Bluespec.Proofs.BracketedExpressions
import Bluespec.Proofs.ColonExpressions

/-!
# Texts of expressions in front of a colon

A colon stands behind the first branch of a conditional and behind the first bound of a range.  Any expression can stand
before it, unless its last word closes a block: that word takes the colon for its label.

* **`ExprText.goes_colon`**, **`ExprText.trips_colon`** — the tokens of a text in front of a colon.
* **`ExprText.EndsBefore`** — what stands behind a text is not taken into its last comment.
* **`colon_behind_expression`** — which conditionals and ranges are read, and as what.
-/

namespace Bluespec

open Bluespec.Parser

/-! ## The productions with a colon -/

namespace Grammar

variable {question colon opening closing last name : Token} {cs ts us rest : List Token} {e e' a b : Expr}

/-- A primary is an expression, where nothing follows or a token with which none goes on. -/
theorem goes_of_primaryBefore {min : Nat} (h : Goes full.primary cs ts e rest) (hrest : Stops min rest) :
    Goes (full.innerExpr min) cs ts e rest := by
  intro c ns
  obtain ⟨ns', hrun⟩ := h c ns
  have hoperated : Operated full.unary min c ⟨cs, ts ++ rest, [], ns⟩ e ⟨ts.reverse ++ cs, rest, [], ns'⟩ :=
    ⟨e, _, ⟨e, _, isUnary_primary _ _ _ _ hrun, .refl⟩, fun t ht => (hrest t ht).1, .refl⟩
  refine ⟨ns', ?_⟩
  rw [innerExpr_eq]
  exact hoperated.run (operation_of_stops hrest e)

section Conditional

variable (hquestion : question.kind = .punct .question)

include hquestion

theorem operation_of_conditional (c : Setting) (ns : List NodeSpan) :
    full.operation 0 e c ⟨cs, question :: ts, [], ns⟩ =
      (full.conditional ⟨[e], e.span⟩ >>= fun e' => pure (Round.again e' : Round Expr Expr)) c
        ⟨cs, question :: ts, [], ns⟩ := by
  rw [operation_of_question e hquestion, if_pos (Nat.zero_le _)]

/-- The two branches of a conditional. -/
theorem goes_branches (p : Predicate) (hcolon : colon.kind = .punct .colon)
    (hthen : Goes (full.innerExpr 0) (question :: cs) ts a (colon :: (us ++ [last])))
    (helse : Goes (full.innerExpr conditionalPower) (colon :: (ts.reverse ++ question :: cs)) (us ++ [last]) b []) :
    Goes (full.conditional p) cs (question :: (ts ++ colon :: (us ++ [last])))
      ⟨.cond p a b, ⟨p.span.start, max last.span.stop p.span.start⟩⟩ [] := by
  rw [← List.append_nil (colon :: (us ++ [last]))] at hthen
  exact .cons (.expectPunct hquestion) (hthen.bind (.cons (.expectPunct hcolon) helse.spanned))

/-- A conditional behind its condition. -/
theorem goes_conditional (hcolon : colon.kind = .punct .colon)
    (hthen : Goes (full.innerExpr 0) (question :: cs) ts a (colon :: (us ++ [last])))
    (helse : Goes (full.innerExpr conditionalPower) (colon :: (ts.reverse ++ question :: cs)) (us ++ [last]) b []) :
    Goes (full.operation 0 e) cs (question :: (ts ++ colon :: (us ++ [last])))
      (.again ⟨.cond ⟨[e], e.span⟩ a b, ⟨e.span.start, max last.span.stop e.span.start⟩⟩) [] := by
  have hround : Goes (full.conditional ⟨[e], e.span⟩ >>= fun e' => pure (Round.again e' : Round Expr Expr)) cs
      (question :: (ts ++ colon :: (us ++ [last])))
      (.again ⟨.cond ⟨[e], e.span⟩ a b, ⟨e.span.start, max last.span.stop e.span.start⟩⟩) [] :=
    (goes_branches hquestion ⟨[e], e.span⟩ hcolon hthen helse).then_ .value
  intro c ns
  obtain ⟨ns', hrun⟩ := hround c ns
  exact ⟨ns', (operation_of_conditional hquestion c ns).trans hrun⟩

/-- A report in the first branch is one of the conditional. -/
theorem trips_conditional (hthen : Trips (full.innerExpr 0) (question :: cs) (ts ++ rest)) :
    Trips (full.operation 0 e) cs (question :: (ts ++ rest)) := by
  have hmoves : ∀ min, Moving (full.innerExpr min) := onward_full.expr
  have hbranches : Trips (full.conditional ⟨[e], e.span⟩) cs ([question] ++ (ts ++ rest)) := by
    refine .after (.expectPunct hquestion) (hthen.bind fun a => ?_)
    exact (Moving.expectPunct _).bind fun _ => (hmoves _).bind fun _ => .bind (.look fun _ _ => rfl) fun _ => .value _
  intro c ns
  rw [operation_of_conditional hquestion]
  exact (hbranches.bind fun _ => .value _) c ns

end Conditional

/-- A primary and one operation are an expression. -/
theorem goes_of_operation (h : Goes full.primary [] ts e us) (hus : Unsuffixed us) (hne : us ≠ [])
    (h' : Goes (full.operation 0 e) ts.reverse us (.again e') []) : Goes (full.innerExpr 0) [] (ts ++ us) e' [] := by
  intro c ns
  obtain ⟨ns₁, hprimary⟩ := h c ns
  obtain ⟨ns', hround⟩ := h' c ns₁
  rw [List.append_nil] at hprimary hround
  have hleads : Leads (full.operation 0) c e ⟨ts.reverse, us, [], ns₁⟩ e' ⟨us.reverse ++ ts.reverse, [], [], ns'⟩ :=
    .one hround (List.length_pos_iff.mpr hne)
  have hoperated : Operated full.unary 0 c ⟨[], ts ++ us, [], ns⟩ e' ⟨us.reverse ++ ts.reverse, [], [], ns'⟩ :=
    ⟨e, _, ⟨e, _, isUnary_primary _ _ _ _ hprimary, .refl⟩, hus, hleads⟩
  refine ⟨ns', ?_⟩
  rw [innerExpr_eq, List.append_nil, List.append_nil, List.reverse_append]
  exact hoperated.run rfl

/-- A report in the first operation is one of the expression. -/
theorem trips_of_operation (h : Goes full.primary [] ts e us) (hus : Unsuffixed us)
    (h' : Trips (full.operation 0 e) ts.reverse us) : Trips (full.innerExpr 0) [] (ts ++ us) := by
  intro c ns
  obtain ⟨ns₁, hprimary⟩ := h c ns
  rw [List.append_nil] at hprimary
  have hoperated : Operated full.unary 0 c ⟨[], ts ++ us, [], ns⟩ e ⟨ts.reverse, us, [], ns₁⟩ :=
    ⟨e, _, ⟨e, _, isUnary_primary _ _ _ _ hprimary, .refl⟩, hus, .refl⟩
  have hassoc : full.expr 0 = (full.unary >>= full.suffixes) >>= full.operations 0 := by
    simp only [Grammar.expr, Parser.bind_assoc]
  rw [innerExpr_eq, hassoc]
  exact hoperated.dirty (h' c ns₁)

section Range

variable (hopening : opening.kind = .punct .lbracket)

include hopening

/-- A range of bits. -/
theorem goes_range (hcolon : colon.kind = .punct .colon) (hclosing : closing.kind = .punct .rbracket)
    (hhi : Goes (full.innerExpr 0) (opening :: cs) ts a (colon :: (us ++ [closing])))
    (hlo : Goes (full.innerExpr 0) (colon :: (ts.reverse ++ opening :: cs)) us b [closing]) :
    Goes (full.suffix e) cs (opening :: (ts ++ colon :: (us ++ [closing])))
      (.again ⟨.select e a (some b), ⟨e.span.start, max closing.span.stop e.span.start⟩⟩) [] := by
  rw [← List.append_nil (colon :: (us ++ [closing]))] at hhi
  have hbound : Goes (some <$> full.innerExpr 0) (colon :: (ts.reverse ++ opening :: cs)) us (some b) [closing] :=
    hlo.then_ .value
  have hbounds : Goes (full.selection e) cs (opening :: (ts ++ colon :: (us ++ [closing]))) (.select e a (some b)) [] :=
    .cons .skip (hhi.bind (.cons (.accept hcolon) (hbound.bind (.cons (.expectPunct hclosing) .value))))
  have hlast : opening :: (ts ++ colon :: (us ++ [closing])) = opening :: (ts ++ colon :: us) ++ [closing] := by
    rw [List.cons_append, List.append_assoc, List.cons_append]
  refine .peek ?_
  rw [hopening]
  rw [hlast] at hbounds ⊢
  exact hbounds.spanned

/-- A report in the first bound is one of the range. -/
theorem trips_range (hhi : Trips (full.innerExpr 0) (opening :: cs) (ts ++ rest)) :
    Trips (full.suffix e) cs (opening :: (ts ++ rest)) := by
  have hlo : Moving (some <$> full.innerExpr 0) := (onward_full.expr 0).bind fun _ => .value _
  have hend : ∀ hi lo, Moving (expectPunct .rbracket >>= fun _ => pure (ExprForm.select e hi lo)) := fun _ _ =>
    (Moving.expectPunct _).bind fun _ => .value _
  have hbounds : Trips (full.selection e) cs ([opening] ++ (ts ++ rest)) := by
    refine .after .skip (hhi.bind fun a => (Moving.accept _).bind fun found => ?_)
    cases found with
    | true => exact hlo.bind (hend a)
    | false => exact (Moving.value none).bind (hend a)
  intro c ns
  rw [suffix_of_lbracket e hopening]
  exact (hbounds.bind fun _ => .bind (.look fun _ _ => rfl) fun _ => .value _) c ns

end Range

/-- A report in the first suffix of a primary is one of the expression. -/
theorem trips_of_suffix (h : Goes full.primary [] ts e us) (h' : Trips (full.suffix e) ts.reverse us) :
    Trips (full.innerExpr 0) [] (ts ++ us) := by
  intro c ns
  obtain ⟨ns₁, hprimary⟩ := h c ns
  rw [List.append_nil] at hprimary
  have hsuffixes : (full.suffixes e c ⟨ts.reverse, us, [], ns₁⟩).2.diagnostics ≠ [] :=
    repeatUntil_dirty (fun e => Grammar.onward_full.suffix e) .refl (h' c ns₁)
  rw [innerExpr_eq, expr, bind_of_some (isUnary_primary _ _ _ _ hprimary), bind_apply]
  rcases hrun : full.suffixes e c ⟨ts.reverse, us, [], ns₁⟩ with ⟨_ | e₁, s₁⟩
  · rw [hrun] at hsuffixes
    exact hsuffixes
  · rw [hrun] at hsuffixes
    exact (Grammar.onward_full.operations 0 e₁ c s₁).dirty hsuffixes

end Grammar

/-- A text whose tokens lead to a report is read as no expression. -/
theorem not_ok_of_dirty {text : String} (e : Expr)
    (h : (Grammar.full.innerExpr 0 (.ofText text .collectAll) (.ofText text)).2.diagnostics ≠ []) :
    parseExpression text ≠ .ok e := by
  intro hok
  obtain ⟨-, s', hrun, -, hclean⟩ := parseOnly_eq_ok.mp hok
  rw [show Grammar.full.innerExpr 0 _ _ = (some e, s') from hrun] at h
  exact h hclean

theorem not_ok_of_trips {text : String} (h : Trips (Grammar.full.innerExpr 0) [] (Token.significant text)) (e : Expr) :
    parseExpression text ≠ .ok e :=
  not_ok_of_dirty e (h (.ofText text .collectAll) [])

/-! ## Texts in front of a colon -/

/-- A symbol at another place. -/
theorem Lexed.move_symbolAt (p : Punct) (offset k : Nat) :
    (symbolAt p offset).move (· + k) = symbolAt p (k + offset) := by
  show (⟨.punct p, p.spelling, ⟨offset + k, offset + Text.byteSize p.spelling.toList + k⟩⟩ : Token) =
    ⟨.punct p, p.spelling, ⟨k + offset, k + offset + Text.byteSize p.spelling.toList⟩⟩
  rw [Nat.add_right_comm, Nat.add_comm offset k]

namespace ExprText

variable (x : ExprText)

/-- Whether the last token of the text is a closing word. -/
def endsClosed : Bool := Bluespec.endsClosed (Token.significant x.text)

theorem endsClosed_tokensAt (offset : Nat) : Bluespec.endsClosed (x.tokensAt offset) = x.endsClosed := by
  rw [Bluespec.endsClosed, tokensAt, List.getLast?_map, Option.any_map]
  rfl

/-- A text in front of a colon is read as its expression, or it takes the colon for the label of its last word. -/
theorem outcome_colon (offset : Nat) (cs : List Token) {rest : List Token} (hrest : AtColon rest) :
    ColonOutcome (Grammar.full.innerExpr 0) cs (x.tokensAt offset) (x.expr.move (· + offset)) rest := by
  obtain ⟨s', hrun, hend, hclean⟩ := run_of_parseOnly (Grammar.tracks_expr offset) x.read
  obtain ⟨-, -, houtcome⟩ := ((innerColon_full _ _).expr 0).runs _ _ _ _
    ⟨Nat.lt_succ_self _, List.suffix_refl _, trivial⟩ hrun hclean hend
  exact houtcome cs rest nofun hrest

/-- What stands behind the text is read as if it stood alone, and the text as well: no comment at the end of the text
takes it in. -/
def EndsBefore (more : String) : Prop :=
  LexicalError.ofText (x.text ++ more) = [] ∧
    Token.significant (x.text ++ more) = Token.significant x.text ++ (Token.significant more).map (Token.move (· + x.size))

instance (more : String) : Decidable (x.EndsBefore more) := inferInstanceAs (Decidable (_ ∧ _))

/-- A text that ends with a line end ends before whatever stands behind it. -/
theorem endsBefore_of_line {text more : String} (h : x.text = text ++ "\n") (htext : LexicalError.ofText text = [])
    (hmore : LexicalError.ofText more = []) : x.EndsBefore more := by
  have hlexed : ∀ rest, Lexed 0 x.text.toList ((Token.significant text).map (Token.move (· + 0))) rest := by
    intro rest
    rw [h, String.toList_append]
    exact .line htext
  obtain ⟨htokens, -⟩ := (hlexed []).whole
  have hboth := hlexed more.toList
  refine ⟨?_, ?_⟩
  · rw [LexicalError.ofText, String.toList_append, hboth.errors, Item.errors_at, hmore]
    rfl
  · have hall := hboth.tokens
    rw [Item.significant_at, Nat.zero_add, ← htokens, ← String.toList_append] at hall
    exact hall

theorem unstarred_text (more : List Char) : ∀ d ∈ (x.text.toList ++ more).head?, d ≠ '*' := by
  obtain ⟨t, us, hcons, -⟩ := x.exists_first
  cases htext : x.text.toList with
  | nil =>
    rw [Token.significant, Token.ofText, htext] at hcons
    cases hcons
  | cons c cs =>
    have hline := x.unstarred []
    rw [line, String.toList_append, htext] at hline
    exact hline

/-- The text and what stands behind it, at the end of another text. -/
theorem lexed_endsBefore {more : String} (h : x.EndsBefore more) (offset : Nat) :
    Lexed offset (x.text ++ more).toList (x.tokensAt offset ++
      ((Token.significant more).map (Token.move (· + x.size))).map (Token.move (· + offset))) [] where
  tokens := by
    rw [List.append_nil, Item.significant_at, h.2, List.map_append, tokensAt]
    exact (List.append_nil _).symm
  errors := by
    rw [List.append_nil, Item.errors_at, h.1]
    rfl

/-- The text on a line of its own, with a colon and a parenthesis below it. -/
def colonText : String := x.line ++ " : ("

/-- The number of bytes of that text before the parenthesis. -/
def beforeParen : Nat := x.size + 4

theorem byteSize_colonText : Text.byteSize x.colonText.toList = x.beforeParen + 1 := by
  have hline : Text.byteSize x.line.toList = x.size + 1 := x.size_piece
  rw [colonText, String.toList_append, Text.byteSize_append, hline]
  rfl

/-- The colon and the parenthesis of that text, where it stands at an offset. -/
def colonTokens (offset : Nat) : List Token :=
  [Lexed.symbolAt .colon (offset + (x.size + 2)), Lexed.symbolAt .lparen (offset + x.beforeParen)]

theorem lexed_colonText (offset : Nat) {rest : List Char} (hrest : ∀ d ∈ rest.head?, d ≠ '*') :
    Lexed offset x.colonText.toList (x.tokensAt offset ++ x.colonTokens offset) rest := by
  have hline : Text.byteSize x.line.toList = x.size + 1 := x.size_piece
  have hparen : Lexed (offset + x.beforeParen) "(".toList [Lexed.symbolAt .lparen (offset + x.beforeParen)] rest :=
    .symbol (p := .lparen) (Lexeme.longest?_extended (by decide) hrest)
  have hcolon : Lexed (offset + (x.size + 2)) (": ".toList ++ "(".toList) (x.colonTokens offset) rest :=
    (Lexed.symbolSpace .colon).appendAt rfl hparen
  have hbelow : Lexed (offset + (x.size + 1)) ([' '] ++ (": ".toList ++ "(".toList)) ([] ++ x.colonTokens offset) rest :=
    Lexed.space.appendAt rfl hcolon
  rw [colonText, String.toList_append]
  exact (x.piece.lexed offset _).appendAt (by rw [piece, hline]) hbelow

end ExprText

/-! ## Conditionals and ranges -/

/-- A name in parentheses at the beginning of a text, as an expression. -/
def Identifier.condition (c : Identifier .ident) : Expr := ⟨.var c.text, ⟨0, Text.byteSize c.text.toList + 2⟩⟩

/-- The tokens of such a condition. -/
def Identifier.conditionTokens (c : Identifier .ident) : List Token :=
  [Lexed.symbolAt .lparen 0, Lexed.nameAt c 1, Lexed.symbolAt .rparen (Text.byteSize c.text.toList + 1)]

/-- The question mark behind such a condition. -/
def Identifier.question (c : Identifier .ident) : Token := Lexed.symbolAt .question (Text.byteSize c.text.toList + 3)

theorem Identifier.goes_condition (c : Identifier .ident) (rest : List Token) :
    Goes Grammar.full.primary [] c.conditionTokens c.condition rest := by
  have hname : Goes (Grammar.full.innerExpr 0) [Lexed.symbolAt .lparen 0] [Lexed.nameAt c 1] _
      (Lexed.symbolAt .rparen (Text.byteSize c.text.toList + 1) :: rest) :=
    Grammar.goes_of_primaryBefore (Grammar.goes_name rfl) (ExprEnds.cons rfl rfl _).stops
  exact Grammar.goes_parens rfl rfl hname

theorem Identifier.lexed_condition (c : Identifier .ident) (rest : List Char) :
    Lexed 0 ("(" ++ c.text ++ ") ? ").toList (c.conditionTokens ++ [c.question]) rest := by
  have hquestion : Lexed (Text.byteSize c.text.toList + 3) "? ".toList [c.question] rest := .symbolSpace .question
  have hclosing : Lexed (Text.byteSize c.text.toList + 1) (") ".toList ++ "? ".toList)
      (Lexed.symbolAt .rparen (Text.byteSize c.text.toList + 1) :: [c.question]) rest :=
    (Lexed.symbolSpace .rparen).appendAt rfl hquestion
  have hname : Lexed 1 (c.text.toList ++ (") ".toList ++ "? ".toList))
      (Lexed.nameAt c 1 :: Lexed.symbolAt .rparen (Text.byteSize c.text.toList + 1) :: [c.question]) rest :=
    (Lexed.name c rfl (fun d hd => by cases hd; rfl)).appendAt (Nat.add_comm _ _) hclosing
  have hopening : Lexed 0 "(".toList [Lexed.symbolAt .lparen 0] (c.text.toList ++ (") ".toList ++ "? ".toList) ++ rest) := by
    refine .symbol (p := .lparen) (Lexeme.longest?_extended (c := '*') (by decide) fun d hd hstar => ?_)
    have hstarts := c.starts
    rw [Identifier.text, String.toList_ofList] at hd
    cases hd
    rw [hstar] at hstarts
    cases hstarts
  have hall := hopening.append hname
  simp only [String.toList_append, List.append_assoc] at hall ⊢
  exact hall

namespace ExprText

variable (c base : Identifier .ident) (t f : ExprText)

/-- A conditional: a name is its condition, `t` its first branch and `f`, in parentheses, its second one. -/
def conditionalText : String := "(" ++ c.text ++ ") ? " ++ t.line ++ " : (" ++ f.text ++ ")"

/-- A range of bits of a name from `t` to `f`, in parentheses. -/
def rangeText : String := base.text ++ "[" ++ t.line ++ " : (" ++ f.text ++ ")]"

/-- The expression in parentheses, where these stand at an offset. -/
def inParensAt (x : ExprText) (offset : Nat) : Expr :=
  ⟨(x.expr.move (· + (offset + 1))).form, ⟨offset, offset + x.size + 2⟩⟩

/-- The tokens of the text and the parenthesis behind it, where the text stands at an offset. -/
def closedTokens (x : ExprText) (offset : Nat) : List Token :=
  x.tokensAt offset ++ [Lexed.symbolAt .rparen (offset + x.size)]

theorem goes_inParensAt (x : ExprText) (offset : Nat) {min : Nat} {cs rest : List Token} (hrest : ExprEnds rest) :
    Goes (Grammar.full.innerExpr min) cs (Lexed.symbolAt .lparen offset :: x.closedTokens (offset + 1))
      (x.inParensAt offset) rest := by
  have hinner := x.piece.goes (offset + 1) (Lexed.symbolAt .lparen offset :: cs)
    (Lexed.symbolAt .rparen (offset + 1 + x.size) :: rest) (.cons rfl rfl _)
  have hstop : max (offset + 1 + x.size + 1) offset = offset + x.size + 2 := by omega
  have hparens : Goes Grammar.full.primary cs (Lexed.symbolAt .lparen offset :: x.closedTokens (offset + 1))
      ⟨(x.expr.move (· + (offset + 1))).form, ⟨offset, max (offset + 1 + x.size + 1) offset⟩⟩ rest :=
    Grammar.goes_parens rfl rfl hinner
  rw [hstop] at hparens
  exact Grammar.goes_of_primaryBefore hparens hrest.stops

/-- The text behind a parenthesis and the brackets that close it, at the end of another text. -/
theorem lexed_closed {x : ExprText} {more : String} {ps : List Token} (h : x.EndsBefore more)
    (hmore : Token.significant more = ps) (offset : Nat) :
    Lexed offset (x.text ++ more).toList (x.tokensAt offset ++ ps.map (Token.move (· + (offset + x.size)))) [] := by
  have hall := x.lexed_endsBefore h offset
  have hmove : Token.move (· + offset) ∘ Token.move (· + x.size) = Token.move (· + (offset + x.size)) := by
    funext t
    simp only [Function.comp, Token.move, Span.move, Nat.add_assoc, Nat.add_comm x.size]
  rw [List.map_map, hmove, hmore] at hall
  exact hall

/-- Where the first branch of a conditional stands. -/
def branchOffset : Nat := Text.byteSize c.text.toList + 5

/-- Where the first bound of a range stands. -/
def boundOffset : Nat := Text.byteSize base.text.toList + 1

/-- The tokens of a conditional up to the parenthesis. -/
theorem lexed_conditional {rest : List Char} (hrest : ∀ d ∈ rest.head?, d ≠ '*') :
    Lexed 0 ("(" ++ c.text ++ ") ? " ++ t.colonText).toList
      (c.conditionTokens ++ c.question :: (t.tokensAt (branchOffset c) ++ t.colonTokens (branchOffset c))) rest := by
  have hsize : 0 + Text.byteSize ("(" ++ c.text ++ ") ? ").toList = branchOffset c := by
    rw [String.toList_append, String.toList_append, Text.byteSize_append, Text.byteSize_append, branchOffset]
    show 0 + (1 + _ + 4) = _
    omega
  have hall := (c.lexed_condition _).appendAt hsize (t.lexed_colonText _ hrest)
  rw [← String.toList_append, List.append_assoc] at hall
  exact hall

/-- The tokens of a range up to the parenthesis. -/
theorem lexed_range {rest : List Char} (hrest : ∀ d ∈ rest.head?, d ≠ '*') :
    Lexed 0 (base.text ++ "[" ++ t.colonText).toList
      (Lexed.nameAt base 0 :: Lexed.symbolAt .lbracket (Text.byteSize base.text.toList) ::
        (t.tokensAt (boundOffset base) ++ t.colonTokens (boundOffset base))) rest := by
  have hopening : Lexed (Text.byteSize base.text.toList) "[".toList
      [Lexed.symbolAt .lbracket (Text.byteSize base.text.toList)] (t.colonText.toList ++ rest) :=
    .symbol (p := .lbracket) (Lexeme.longest?_bracket (by decide) _)
  rw [String.toList_append, String.toList_append, List.append_assoc]
  exact lexed_behind_name base rfl (fun d hd => by cases hd; rfl) (hopening.append (t.lexed_colonText _ hrest))

theorem conditionalText_eq : conditionalText c t f = "(" ++ c.text ++ ") ? " ++ t.colonText ++ (f.text ++ ")") := by
  simp only [conditionalText, colonText, String.append_assoc]

theorem rangeText_eq : rangeText base t f = base.text ++ "[" ++ t.colonText ++ (f.text ++ ")]") := by
  simp only [rangeText, colonText, String.append_assoc]

/-- Where the second branch of a conditional stands, and how long such a text is. -/
theorem byteSize_conditional : Text.byteSize ("(" ++ c.text ++ ") ? " ++ t.colonText).toList =
    branchOffset c + t.beforeParen + 1 := by
  rw [String.toList_append, String.toList_append, String.toList_append, Text.byteSize_append, Text.byteSize_append,
    Text.byteSize_append, t.byteSize_colonText, branchOffset]
  show 1 + _ + 4 + (_ + 1) = _
  omega

theorem byteSize_range : Text.byteSize (base.text ++ "[" ++ t.colonText).toList =
    boundOffset base + t.beforeParen + 1 := by
  rw [String.toList_append, String.toList_append, Text.byteSize_append, Text.byteSize_append, t.byteSize_colonText,
    boundOffset]
  show _ + 1 + (_ + 1) = _
  omega

/-- The colon and the parenthesis behind a text, and what stands behind them. -/
theorem atColon (offset : Nat) (us : List Token) : AtColon (t.colonTokens offset ++ us) :=
  ⟨_, _, rfl, rfl, fun _ ht => by cases ht; exact nofun, fun _ ht => by cases ht; exact nofun⟩

/-! ### Texts that are read -/

section Read

variable {c base t f} (ht : t.endsClosed = false)

include ht

theorem goes_beforeColon (offset : Nat) (cs us : List Token) : Goes (Grammar.full.innerExpr 0) cs (t.tokensAt offset)
    (t.expr.move (· + offset)) (t.colonTokens offset ++ us) :=
  (t.outcome_colon offset cs (t.atColon offset us)).goes ((t.endsClosed_tokensAt offset).trans ht)

theorem readsAs_conditional (hf : f.EndsBefore ")") : ReadsAs (conditionalText c t f)
    (.cond ⟨[c.condition], c.condition.span⟩ (t.expr.move (· + branchOffset c))
      (f.inParensAt (branchOffset c + t.beforeParen))) := by
  have hclosing : Token.significant ")" = [Lexed.symbolAt .rparen 0] := rfl
  have hbefore : ∀ d ∈ ((f.text ++ ")").toList ++ []).head?, d ≠ '*' := by
    rw [List.append_nil, String.toList_append]
    exact f.unstarred_text _
  have hlexed := (lexed_conditional c t hbefore).appendAt ((Nat.zero_add _).trans (byteSize_conditional c t))
    (lexed_closed hf hclosing _)
  rw [← String.toList_append, ← conditionalText_eq, List.map_singleton, Lexed.move_symbolAt, List.append_assoc,
    List.cons_append, List.append_assoc] at hlexed
  have hthen : Goes (Grammar.full.innerExpr 0) (c.question :: c.conditionTokens.reverse) (t.tokensAt (branchOffset c))
      (t.expr.move (· + branchOffset c)) (Lexed.symbolAt .colon (branchOffset c + (t.size + 2)) ::
        ((Lexed.symbolAt .lparen (branchOffset c + t.beforeParen) :: f.tokensAt (branchOffset c + t.beforeParen + 1)) ++
          [Lexed.symbolAt .rparen (branchOffset c + t.beforeParen + 1 + f.size)])) := goes_beforeColon ht _ _ _
  have hround := Grammar.goes_conditional (e := c.condition) rfl rfl hthen (f.goes_inParensAt _ nofun)
  have hgoes := Grammar.goes_of_operation (c.goes_condition _) (by rintro _ ⟨⟩; rfl) (List.cons_ne_nil _ _) hround
  have hsize : max (Lexed.symbolAt .rparen (branchOffset c + t.beforeParen + 1 + f.size)).span.stop
      c.condition.span.start = Text.byteSize (conditionalText c t f).toList := by
    rw [conditionalText_eq, String.toList_append, Text.byteSize_append, byteSize_conditional, String.toList_append,
      Text.byteSize_append]
    exact Nat.max_eq_left (Nat.zero_le _)
  rw [hsize] at hgoes
  exact readsAs_of_goes hlexed hgoes

theorem readsAs_range (hf : f.EndsBefore ")]") : ReadsAs (rangeText base t f)
    (.select base.var (t.expr.move (· + boundOffset base))
      (some (f.inParensAt (boundOffset base + t.beforeParen)))) := by
  have hclosing : Token.significant ")]" = [Lexed.symbolAt .rparen 0, Lexed.symbolAt .rbracket 1] := rfl
  have hbefore : ∀ d ∈ ((f.text ++ ")]").toList ++ []).head?, d ≠ '*' := by
    rw [List.append_nil, String.toList_append]
    exact f.unstarred_text _
  have hlexed := (lexed_range base t hbefore).appendAt ((Nat.zero_add _).trans (byteSize_range base t))
    (lexed_closed hf hclosing _)
  rw [← String.toList_append, ← rangeText_eq, List.map_cons, List.map_singleton, Lexed.move_symbolAt,
    Lexed.move_symbolAt, List.cons_append, List.cons_append, List.append_assoc] at hlexed
  have hhi : Goes (Grammar.full.innerExpr 0) [Lexed.symbolAt .lbracket (Text.byteSize base.text.toList), Lexed.nameAt base 0]
      (t.tokensAt (boundOffset base)) (t.expr.move (· + boundOffset base))
      (Lexed.symbolAt .colon (boundOffset base + (t.size + 2)) ::
        ((Lexed.symbolAt .lparen (boundOffset base + t.beforeParen) ::
            f.closedTokens (boundOffset base + t.beforeParen + 1)) ++
          [Lexed.symbolAt .rbracket (boundOffset base + t.beforeParen + 1 + f.size + 1)])) := goes_beforeColon ht _ _ _
  have hrange := Grammar.goes_range (e := base.var) rfl rfl rfl hhi (f.goes_inParensAt _ (.cons rfl rfl []))
  have hgoes := Grammar.goes_of_suffix (base.goes_var _) hrange (List.cons_ne_nil _ _)
  have hsize : max (Lexed.symbolAt .rbracket (boundOffset base + t.beforeParen + 1 + f.size + 1)).span.stop
      base.var.span.start = Text.byteSize (rangeText base t f).toList := by
    rw [rangeText_eq, String.toList_append, Text.byteSize_append, byteSize_range, String.toList_append,
      Text.byteSize_append]
    exact Nat.max_eq_left (Nat.zero_le _)
  rw [hsize] at hgoes
  refine readsAs_of_goes ?_ hgoes
  rw [ExprText.closedTokens, List.cons_append, List.append_assoc]
  exact hlexed

end Read

/-! ### Texts that are rejected -/

section Rejected

variable {c base t f} (ht : t.endsClosed = true)

include ht

theorem trips_beforeColon (offset : Nat) (cs us : List Token) :
    Trips (Grammar.full.innerExpr 0) cs (t.tokensAt offset ++ (t.colonTokens offset ++ us)) :=
  (t.outcome_colon offset cs (t.atColon offset us)).trips ((t.endsClosed_tokensAt offset).trans ht)

theorem rejects_conditional (e : Expr) : parseExpression (conditionalText c t f) ≠ .ok e := by
  obtain ⟨us, htokens⟩ : ∃ us, Token.significant (conditionalText c t f) = c.conditionTokens ++ c.question ::
      (t.tokensAt (branchOffset c) ++ (t.colonTokens (branchOffset c) ++ us)) := by
    have hall := (lexed_conditional c t (f.unstarred_text ")".toList)).tokens
    rw [← String.toList_append, ← String.toList_append, ← conditionalText_eq, List.append_assoc, List.cons_append,
      List.append_assoc] at hall
    exact ⟨_, hall⟩
  have htrips : Trips (Grammar.full.innerExpr 0) [] (Token.significant (conditionalText c t f)) := by
    rw [htokens]
    refine Grammar.trips_of_operation (c.goes_condition _) (by rintro _ ⟨⟩; rfl) ?_
    exact Grammar.trips_conditional rfl (trips_beforeColon ht _ _ _)
  exact not_ok_of_trips htrips e

theorem rejects_range (e : Expr) : parseExpression (rangeText base t f) ≠ .ok e := by
  obtain ⟨us, htokens⟩ : ∃ us, Token.significant (rangeText base t f) = [Lexed.nameAt base 0] ++
      Lexed.symbolAt .lbracket (Text.byteSize base.text.toList) ::
        (t.tokensAt (boundOffset base) ++ (t.colonTokens (boundOffset base) ++ us)) := by
    have hall := (lexed_range base t (f.unstarred_text ")]".toList)).tokens
    rw [← String.toList_append, ← String.toList_append, ← rangeText_eq, List.cons_append, List.cons_append,
      List.append_assoc] at hall
    exact ⟨_, hall⟩
  have htrips : Trips (Grammar.full.innerExpr 0) [] (Token.significant (rangeText base t f)) := by
    rw [htokens]
    exact Grammar.trips_of_suffix (base.goes_var _) (Grammar.trips_range rfl (trips_beforeColon ht _ _ _))
  exact not_ok_of_trips htrips e

end Rejected

end ExprText

/-- What stands in front of a colon decides what the colon is.  Any expression whose last word closes no block stands
before the colon of a conditional and of a range, and what stands behind the colon in parentheses is the second branch
or bound, as long as no comment at its end takes the closing parenthesis in.  With an expression whose last word closes
a block, no such text is read. -/
theorem colon_behind_expression (c base : Identifier .ident) (t f : ExprText) :
    (t.endsClosed = false →
      (f.EndsBefore ")" → ReadsAs (ExprText.conditionalText c t f)
        (.cond ⟨[c.condition], c.condition.span⟩ (t.expr.move (· + ExprText.branchOffset c))
          (f.inParensAt (ExprText.branchOffset c + t.beforeParen)))) ∧
      (f.EndsBefore ")]" → ReadsAs (ExprText.rangeText base t f)
        (.select base.var (t.expr.move (· + ExprText.boundOffset base))
          (some (f.inParensAt (ExprText.boundOffset base + t.beforeParen)))))) ∧
    (t.endsClosed = true →
      (∀ e, parseExpression (ExprText.conditionalText c t f) ≠ .ok e) ∧
      ∀ e, parseExpression (ExprText.rangeText base t f) ≠ .ok e) :=
  ⟨fun ht => ⟨ExprText.readsAs_conditional ht, ExprText.readsAs_range ht⟩,
    fun ht => ⟨ExprText.rejects_conditional ht, ExprText.rejects_range ht⟩⟩

/-- A name of one letter. -/
def Identifier.letter (x : Char) (hstarts : Lexeme.isWordStart x = true)
    (hword : Kind.ofWord (String.ofList [x]) = .ident) : Identifier .ident := ⟨x, [], hstarts, nofun, hword⟩

/-- A block whose closing word has a label. -/
def ExprText.labelledBlock : ExprText := ⟨"begin : l a end : l", _, rfl⟩

/-- A block whose closing word has no label. -/
def ExprText.plainBlock : ExprText := ⟨"begin a\nend", _, rfl⟩

/-- A name. -/
def ExprText.bareName : ExprText := ⟨"b", ⟨.var "b", ⟨0, 1⟩⟩, rfl⟩

/-- A block with a label stands before a colon, and one without is rejected there. -/
theorem colon_behind_blocks :
    (ExprText.labelledBlock.endsClosed = false ∧ ExprText.bareName.EndsBefore ")" ∧
      ReadsAs (ExprText.conditionalText (.letter 'c' rfl rfl) .labelledBlock .bareName)
        (.cond ⟨[⟨.var "c", ⟨0, 3⟩⟩], ⟨0, 3⟩⟩ (ExprText.labelledBlock.expr.move (· + 6)) ⟨.var "b", ⟨29, 32⟩⟩)) ∧
    (ExprText.plainBlock.endsClosed = true ∧
      ∀ e, parseExpression (ExprText.rangeText (.letter 'a' rfl rfl) .plainBlock .bareName) ≠ .ok e) := by
  have hlabelled := colon_behind_expression (.letter 'c' rfl rfl) (.letter 'a' rfl rfl) .labelledBlock .bareName
  have hplain := colon_behind_expression (.letter 'c' rfl rfl) (.letter 'a' rfl rfl) .plainBlock .bareName
  have hname : ExprText.bareName.EndsBefore ")" := by decide
  exact ⟨⟨rfl, hname, (hlabelled.1 rfl).1 hname⟩, rfl, (hplain.2 rfl).2⟩

/-- Not every expression stands before a colon or behind it: a closing word takes the colon for its label, and a comment
takes the closing parenthesis in. -/
theorem colon_taken_in :
    ((∃ e, parseExpression "begin a\nend" = .ok e) ∧ (∃ e, parseExpression "b" = .ok e) ∧
      ∀ e, parseExpression "(c) ? begin a\nend\n : (b)" ≠ .ok e) ∧
    ((∃ e, parseExpression "a" = .ok e) ∧ (∃ e, parseExpression "b // x" = .ok e) ∧
      ∀ e, parseExpression "(c) ? a\n : (b // x)" ≠ .ok e) := by
  refine ⟨⟨⟨_, rfl⟩, ⟨_, rfl⟩, ?_⟩, ⟨_, rfl⟩, ⟨_, rfl⟩, ?_⟩
  · exact ExprText.rejects_conditional (c := .letter 'c' rfl rfl) (t := .plainBlock) (f := .bareName) rfl
  · exact fun e => not_ok_of_dirty e (by decide +kernel)

end Bluespec
