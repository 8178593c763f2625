import Bluespec.Proofs.Pieces

/-!
# Expressions in brackets

A text that is one expression is the same expression between brackets: in parentheses, as an argument of a call, as a
part of a concatenation, as a selected bit and as the value of a field.

* **`Grammar.goes_parens`**, **`Grammar.goes_call`**, … — a bracket, what stands behind it and the bracket that closes it.
* **`ReadsAs`** — a text is read as an expression of a form.
* **`parseExpression_bracketed`** — texts of expressions in all six contexts.
-/

namespace Bluespec

open Bluespec.Parser

/-! ## Productions with brackets -/

namespace Grammar

variable {opening closing name : Token} {ts : List Token}

/-- A primary is an expression. -/
theorem goes_of_primary {cs : List Token} {e : Expr} (h : Goes full.primary cs ts e []) :
    Goes (full.innerExpr 0) cs ts e [] := by
  intro c ns
  obtain ⟨ns', hrun⟩ := h c ns
  have hsuffixed : Suffixed full.primary c ⟨cs, ts ++ [], [], ns⟩ e _ := ⟨e, _, hrun, .refl⟩
  refine ⟨ns', ?_⟩
  rw [innerExpr_eq]
  exact hsuffixed.expr isUnary_primary rfl

/-- A primary that is one token, and one suffix, are an expression. -/
theorem goes_of_suffix {e e' : Expr} (h : Goes full.primary [] [name] e ts)
    (h' : Goes (full.suffix e) [name] ts (.again e') []) (hne : ts ≠ []) :
    Goes (full.innerExpr 0) [] (name :: ts) e' [] := by
  intro c ns
  obtain ⟨ns₁, hprimary⟩ := h c ns
  obtain ⟨ns', hsuffix⟩ := h' c ns₁
  rw [List.append_nil] at hsuffix
  have hleads : Leads full.suffix c e ⟨[name], ts, [], ns₁⟩ e' ⟨ts.reverse ++ [name], [], [], ns'⟩ :=
    .one hsuffix (List.length_pos_iff.mpr hne)
  refine ⟨ns', ?_⟩
  rw [innerExpr_eq, List.append_nil, List.append_nil, List.reverse_cons]
  exact Suffixed.expr isUnary_primary ⟨e, _, hprimary, hleads⟩ rfl

/-- A name is a primary. -/
theorem goes_name {cs rest : List Token} (hname : name.kind = .ident) :
    Goes full.primary cs [name] ⟨.var name.text, ⟨name.span.start, max name.span.stop name.span.start⟩⟩ rest :=
  fun _ ns => ⟨ns, primary_of_ident hname⟩

/-- An expression in parentheses. -/
theorem goes_parens {cs rest : List Token} {e : Expr} (hopening : opening.kind = .punct .lparen)
    (hclosing : closing.kind = .punct .rparen) (h : Goes (full.innerExpr 0) (opening :: cs) ts e (closing :: rest)) :
    Goes full.primary cs (opening :: ts ++ [closing])
      ⟨e.form, ⟨opening.span.start, max closing.span.stop opening.span.start⟩⟩ rest := by
  refine .offset (.peek ?_)
  rw [hopening]
  exact .cons .skip (h.bind ((Goes.expectPunct hclosing).cons (Goes.spanFrom.then_ .value)))

/-- Expressions with commas between them in braces. -/
theorem goes_concat {es : List Expr} (hopening : opening.kind = .punct .lbrace) (hclosing : closing.kind = .punct .rbrace)
    (h : Goes (separated .comma (full.innerExpr 0)) [opening] ts es [closing]) :
    Goes full.primary [] (opening :: ts ++ [closing])
      ⟨.concat es, ⟨opening.span.start, max closing.span.stop opening.span.start⟩⟩ [] := by
  have hitems : Goes full.concatItems [] (opening :: ts ++ [closing]) es [] :=
    .cons (.expectPunct hopening) (h.bind ((Goes.expectPunct hclosing).cons .value))
  refine .offset (.peek ?_)
  rw [hopening]
  exact hitems.spanned

/-- Fields with commas between them in braces. -/
theorem goes_fieldBinds {cs : List Token} {members : List FieldBind} (hopening : opening.kind = .punct .lbrace)
    (hclosing : closing.kind = .punct .rbrace)
    (h : Goes (separated .comma full.fieldBind) (opening :: cs) ts members [closing]) :
    Goes full.fieldBinds cs (opening :: ts ++ [closing]) members [] :=
  .cons (.expectPunct hopening) (h.bind ((Goes.expectPunct hclosing).cons .value))

/-- Fields behind the name of a type. -/
theorem goes_struct {members : List FieldBind} (hname : name.kind = .typeIdent) (hopening : opening.kind = .punct .lbrace)
    (hclosing : closing.kind = .punct .rbrace)
    (h : Goes (separated .comma full.fieldBind) [opening, name] ts members [closing]) :
    Goes full.primary [] (name :: (opening :: ts ++ [closing]))
      ⟨.struct name.text members, ⟨name.span.start, max closing.span.stop name.span.start⟩⟩ [] := by
  refine .offset (.peek ?_)
  rw [hname]
  refine .cons (.expectText hname) (.look (fun _ _ => isNext_of_kind hopening) ?_)
  exact (goes_fieldBinds hopening hclosing h).spanned

/-- The arguments of a call. -/
theorem goes_arguments {cs : List Token} {es : List Expr} (hopening : opening.kind = .punct .lparen)
    (hclosing : closing.kind = .punct .rparen) (hfirst : Lacks (.punct .rparen) (ts ++ [closing]))
    (h : Goes (separated .comma (full.innerExpr 0)) (opening :: cs) ts es [closing]) :
    Goes full.arguments cs (opening :: ts ++ [closing]) es [] := by
  refine .cons (.expectPunct hopening) ((Goes.accept_of_lacks ?_).bind ?_)
  · rw [List.append_nil]
    exact hfirst
  · exact h.bind ((Goes.expectPunct hclosing).cons .value)

/-- A call. -/
theorem goes_call {callee : Expr} {cs : List Token} {es : List Expr} (hopening : opening.kind = .punct .lparen)
    (h : Goes full.arguments cs (opening :: ts ++ [closing]) es []) :
    Goes (full.suffix callee) cs (opening :: ts ++ [closing])
      (.again ⟨.call callee es, ⟨callee.span.start, max closing.span.stop callee.span.start⟩⟩) [] := by
  refine .peek ?_
  rw [hopening]
  exact h.spanned

/-- A call of a method. -/
theorem goes_methodCall {receiver : Expr} {dot : Token} {cs : List Token} {es : List Expr}
    (hdot : dot.kind = .punct .dot) (hname : name.kind = .ident) (hopening : opening.kind = .punct .lparen)
    (h : Goes full.arguments (name :: dot :: cs) (opening :: ts ++ [closing]) es []) :
    Goes (full.suffix receiver) cs (dot :: name :: (opening :: ts ++ [closing]))
      (.again ⟨.methodCall receiver name.text es, ⟨receiver.span.start, max closing.span.stop receiver.span.start⟩⟩)
      [] := by
  have hmember : Goes (full.memberOf receiver) cs ((dot :: name :: opening :: ts) ++ [closing])
      (.methodCall receiver name.text es) [] :=
    .cons .skip (.cons (.expectText hname) (.look (fun _ _ => isNext_of_kind hopening) (h.then_ .value)))
  refine .peek ?_
  rw [hdot]
  exact hmember.spanned

/-- A selected bit. -/
theorem goes_select {base index : Expr} {cs : List Token} (hopening : opening.kind = .punct .lbracket)
    (hclosing : closing.kind = .punct .rbracket) (h : Goes (full.innerExpr 0) (opening :: cs) ts index [closing]) :
    Goes (full.suffix base) cs (opening :: ts ++ [closing])
      (.again ⟨.select base index none, ⟨base.span.start, max closing.span.stop base.span.start⟩⟩) [] := by
  have hcolon : Lacks (.punct .colon) [closing] := .cons hclosing (by decide) []
  have hselection : Goes (full.selection base) cs (opening :: ts ++ [closing]) (.select base index none) [] :=
    .cons .skip (h.bind (.look (fun _ _ => accept_of_head hcolon) ((Goes.expectPunct hclosing).cons .value)))
  refine .peek ?_
  rw [hopening]
  exact hselection.spanned

end Grammar

/-! ## Whole texts -/

/-- A text is read as one expression of a form, from its first to its last character. -/
def ReadsAs (text : String) (form : ExprForm) : Prop :=
  parseExpression text = .ok ⟨form, ⟨0, Text.byteSize text.toList⟩⟩

/-- A name at the beginning of a text, as an expression. -/
def Identifier.var (x : Identifier .ident) : Expr := ⟨.var x.text, ⟨0, Text.byteSize x.text.toList⟩⟩

/-- A text is read as its tokens are. -/
theorem readsAs_of_goes {text : String} {ts : List Token} {form : ExprForm} (hlexed : Lexed 0 text.toList ts [])
    (hgoes : Goes (Grammar.full.innerExpr 0) [] ts ⟨form, ⟨0, Text.byteSize text.toList⟩⟩ []) : ReadsAs text form := by
  obtain ⟨htokens, hlexical⟩ := hlexed.whole
  refine parseOnly_of_goes_all hlexical ?_
  rw [htokens]
  exact hgoes

/-- A text that is closed by a bracket is read as its tokens are. -/
theorem readsAs_of_lexed {before : String} {p : Punct} {ts : List Token} {form : ExprForm}
    (hp : p ∈ [Punct.rparen, .lbrace, .rbrace, .lbracket, .rbracket])
    (hlexed : Lexed 0 before.toList ts p.spelling.toList)
    (hgoes : Goes (Grammar.full.innerExpr 0) [] (ts ++ [Lexed.symbolAt p (Text.byteSize before.toList)])
      ⟨form, ⟨0, max (Lexed.symbolAt p (Text.byteSize before.toList)).span.stop 0⟩⟩ []) :
    ReadsAs (before ++ p.spelling) form := by
  have hclosing : Lexed (0 + Text.byteSize before.toList) p.spelling.toList
      [Lexed.symbolAt p (Text.byteSize before.toList)] [] := by
    rw [Nat.zero_add]
    exact .symbol (Lexeme.longest?_bracket hp [])
  have hall : Lexed 0 (before ++ p.spelling).toList (ts ++ [Lexed.symbolAt p (Text.byteSize before.toList)]) [] := by
    rw [String.toList_append]
    refine .append ?_ hclosing
    rw [List.append_nil]
    exact hlexed
  have hsize : max (Lexed.symbolAt p (Text.byteSize before.toList)).span.stop 0 =
      Text.byteSize (before ++ p.spelling).toList := by
    rw [String.toList_append, Text.byteSize_append]
    exact Nat.max_eq_left (Nat.zero_le _)
  rw [hsize] at hgoes
  exact readsAs_of_goes hall hgoes

variable (x : Piece (Grammar.full.innerExpr 0)) (xs : List (Piece (Grammar.full.innerExpr 0)))

theorem readsAs_parens : ReadsAs ("(" ++ x.text ++ ")") (x.valueAt 1).form := by
  have hopening : Lexed 0 "(".toList [Lexed.symbolAt .lparen 0] (x.text.toList ++ ")".toList) :=
    .symbol (p := .lparen) (Lexeme.longest?_extended (by decide) (x.unstarred _))
  have hlexed : Lexed 0 ("(" ++ x.text).toList (Lexed.symbolAt .lparen 0 :: x.tokensAt 1) ")".toList := by
    rw [String.toList_append]
    exact hopening.append (x.lexed 1 _)
  have hinner := x.goes 1 [Lexed.symbolAt .lparen 0] [Lexed.symbolAt .rparen (Text.byteSize ("(" ++ x.text).toList)]
    (.cons rfl rfl [])
  exact readsAs_of_lexed (p := .rparen) (by decide) hlexed (Grammar.goes_of_primary (Grammar.goes_parens rfl rfl hinner))

theorem readsAs_concat :
    ReadsAs ("\x7b" ++ Piece.listText (x :: xs) ++ "\x7d") (.concat (Piece.listValues 1 (x :: xs))) := by
  have hopening : Lexed 0 "\x7b".toList [Lexed.symbolAt .lbrace 0] ((Piece.listText (x :: xs)).toList ++ "\x7d".toList) :=
    .symbol (p := .lbrace) (Lexeme.longest?_bracket (by decide) _)
  have hlexed : Lexed 0 ("\x7b" ++ Piece.listText (x :: xs)).toList
      (Lexed.symbolAt .lbrace 0 :: Piece.listTokens 1 (x :: xs)) "\x7d".toList := by
    rw [String.toList_append]
    exact hopening.append (Piece.lexed_list x xs 1 _)
  have hitems : Goes (separated .comma (Grammar.full.innerExpr 0)) [Lexed.symbolAt .lbrace 0]
      (Piece.listTokens 1 (x :: xs)) (Piece.listValues 1 (x :: xs))
      [Lexed.symbolAt .rbrace (Text.byteSize ("\x7b" ++ Piece.listText (x :: xs)).toList)] :=
    Piece.goes_list (.cons rfl rfl []) (.cons (k := .punct .rbrace) rfl (by decide) []) x xs 1 _
  exact readsAs_of_lexed (p := .rbrace) (by decide) hlexed (Grammar.goes_of_primary (Grammar.goes_concat rfl rfl hitems))

/-- A name at the beginning of a text, and what stands behind it. -/
theorem lexed_behind_name {kind : Kind} (f : Identifier kind) (hkind : (!kind.isTrivia && kind != .error) = true)
    {cs rest : List Char} {ts : List Token} (hcs : ∀ d ∈ (cs ++ rest).head?, Lexeme.isWordPart d = false)
    (h : Lexed (Text.byteSize f.text.toList) cs ts rest) :
    Lexed 0 (f.text.toList ++ cs) (Lexed.nameAt f 0 :: ts) rest := by
  refine (Lexed.name f hkind hcs).append ?_
  rw [Nat.zero_add]
  exact h

theorem readsAs_struct (type : Identifier .typeIdent) (m : Piece Grammar.full.fieldBind)
    (ms : List (Piece Grammar.full.fieldBind)) :
    ReadsAs (type.text ++ "\x7b" ++ Piece.listText (m :: ms) ++ "\x7d")
      (.struct type.text (Piece.listValues (Text.byteSize type.text.toList + 1) (m :: ms))) := by
  have hopening : Lexed (Text.byteSize type.text.toList) "\x7b".toList
      [Lexed.symbolAt .lbrace (Text.byteSize type.text.toList)] ((Piece.listText (m :: ms)).toList ++ "\x7d".toList) :=
    .symbol (p := .lbrace) (Lexeme.longest?_bracket (by decide) _)
  have hlexed : Lexed 0 (type.text ++ "\x7b" ++ Piece.listText (m :: ms)).toList
      (Lexed.nameAt type 0 :: Lexed.symbolAt .lbrace (Text.byteSize type.text.toList) ::
        Piece.listTokens (Text.byteSize type.text.toList + 1) (m :: ms)) "\x7d".toList := by
    rw [String.toList_append, String.toList_append, List.append_assoc]
    exact lexed_behind_name type rfl (fun d hd => by cases hd; rfl) (hopening.append (Piece.lexed_list m ms _ _))
  have hmembers : Goes (separated .comma Grammar.full.fieldBind)
      [Lexed.symbolAt .lbrace (Text.byteSize type.text.toList), Lexed.nameAt type 0]
      (Piece.listTokens (Text.byteSize type.text.toList + 1) (m :: ms))
      (Piece.listValues (Text.byteSize type.text.toList + 1) (m :: ms))
      [Lexed.symbolAt .rbrace (Text.byteSize (type.text ++ "\x7b" ++ Piece.listText (m :: ms)).toList)] :=
    Piece.goes_list (.cons rfl rfl []) (.cons (k := .punct .rbrace) rfl (by decide) []) m ms _ _
  exact readsAs_of_lexed (p := .rbrace) (by decide) hlexed
    (Grammar.goes_of_primary (Grammar.goes_struct rfl rfl rfl hmembers))

/-- A name at the beginning of a text is a primary. -/
theorem Identifier.goes_var (f : Identifier .ident) (rest : List Token) :
    Goes Grammar.full.primary [] [Lexed.nameAt f 0] f.var rest := by
  have hspan : max (Lexed.nameAt f 0).span.stop 0 = Text.byteSize f.text.toList := by
    rw [Nat.max_eq_left (Nat.zero_le _)]
    exact Nat.zero_add _
  have hname : Goes Grammar.full.primary [] [Lexed.nameAt f 0]
      ⟨.var f.text, ⟨0, max (Lexed.nameAt f 0).span.stop 0⟩⟩ rest := Grammar.goes_name rfl
  rw [hspan] at hname
  exact hname

theorem readsAs_select (base : Identifier .ident) :
    ReadsAs (base.text ++ "[" ++ x.text ++ "]")
      (.select base.var (x.valueAt (Text.byteSize base.text.toList + 1)) none) := by
  have hopening : Lexed (Text.byteSize base.text.toList) "[".toList
      [Lexed.symbolAt .lbracket (Text.byteSize base.text.toList)] (x.text.toList ++ "]".toList) :=
    .symbol (p := .lbracket) (Lexeme.longest?_bracket (by decide) _)
  have hlexed : Lexed 0 (base.text ++ "[" ++ x.text).toList
      (Lexed.nameAt base 0 :: Lexed.symbolAt .lbracket (Text.byteSize base.text.toList) ::
        x.tokensAt (Text.byteSize base.text.toList + 1)) "]".toList := by
    rw [String.toList_append, String.toList_append, List.append_assoc]
    exact lexed_behind_name base rfl (fun d hd => by cases hd; rfl) (hopening.append (x.lexed _ _))
  have hindex := x.goes (Text.byteSize base.text.toList + 1)
    [Lexed.symbolAt .lbracket (Text.byteSize base.text.toList), Lexed.nameAt base 0]
    [Lexed.symbolAt .rbracket (Text.byteSize (base.text ++ "[" ++ x.text).toList)] (.cons rfl rfl [])
  have hexpr := Grammar.goes_of_suffix (base.goes_var _) (Grammar.goes_select rfl rfl hindex) (List.cons_ne_nil _ _)
  exact readsAs_of_lexed (p := .rbracket) (by decide) hlexed hexpr

/-- A name ends before a parenthesis. -/
theorem not_isWordPart_lparen (text : String) (rest : List Char) :
    ∀ d ∈ (("(" ++ text).toList ++ rest).head?, Lexeme.isWordPart d = false := by
  intro d hd
  rw [String.toList_append] at hd
  cases hd
  rfl

/-- The arguments of a call at an offset. -/
theorem lexed_arguments (offset : Nat) (rest : List Char) :
    Lexed offset ("(" ++ Piece.listText (x :: xs)).toList
      (Lexed.symbolAt .lparen offset :: Piece.listTokens (offset + 1) (x :: xs)) rest := by
  have hopening : Lexed offset "(".toList [Lexed.symbolAt .lparen offset] ((Piece.listText (x :: xs)).toList ++ rest) :=
    .symbol (p := .lparen) (Lexeme.longest?_extended (by decide) (Piece.unstarred_list x xs _))
  rw [String.toList_append]
  exact hopening.append (Piece.lexed_list x xs _ _)

theorem goes_arguments (offset stop : Nat) (cs : List Token) :
    Goes Grammar.full.arguments cs
      (Lexed.symbolAt .lparen offset :: Piece.listTokens (offset + 1) (x :: xs) ++ [Lexed.symbolAt .rparen stop])
      (Piece.listValues (offset + 1) (x :: xs)) [] :=
  Grammar.goes_arguments rfl rfl (Piece.lacks_rparen x xs _ _)
    (Piece.goes_list (.cons rfl rfl []) (.cons (k := .punct .rparen) rfl (by decide) []) x xs _ _)

theorem readsAs_call (f : Identifier .ident) :
    ReadsAs (f.text ++ ("(" ++ Piece.listText (x :: xs)) ++ ")")
      (.call f.var (Piece.listValues (Text.byteSize f.text.toList + 1) (x :: xs))) := by
  have hlexed : Lexed 0 (f.text ++ ("(" ++ Piece.listText (x :: xs))).toList
      (Lexed.nameAt f 0 :: Lexed.symbolAt .lparen (Text.byteSize f.text.toList) ::
        Piece.listTokens (Text.byteSize f.text.toList + 1) (x :: xs)) ")".toList := by
    rw [String.toList_append]
    exact lexed_behind_name f rfl (not_isWordPart_lparen _ _) (lexed_arguments x xs _ _)
  have harguments := goes_arguments x xs (Text.byteSize f.text.toList)
    (Text.byteSize (f.text ++ ("(" ++ Piece.listText (x :: xs))).toList) [Lexed.nameAt f 0]
  have hexpr := Grammar.goes_of_suffix (f.goes_var _) (Grammar.goes_call rfl harguments) (List.cons_ne_nil _ _)
  exact readsAs_of_lexed (p := .rparen) (by decide) hlexed hexpr

theorem readsAs_methodCall (receiver method : Identifier .ident) :
    ReadsAs (receiver.text ++ ("." ++ (method.text ++ ("(" ++ Piece.listText (x :: xs)))) ++ ")")
      (.methodCall receiver.var method.text
        (Piece.listValues (Text.byteSize receiver.text.toList + 1 + Text.byteSize method.text.toList + 1) (x :: xs))) := by
  have hdot : Lexed (Text.byteSize receiver.text.toList) ".".toList
      [Lexed.symbolAt .dot (Text.byteSize receiver.text.toList)]
      ((method.text ++ ("(" ++ Piece.listText (x :: xs))).toList ++ ")".toList) := by
    refine .symbol (p := .dot) (Lexeme.longest?_extended (c := '.') (by decide) ?_)
    rintro d hd rfl
    have hstarts := method.starts
    rw [String.toList_append, Identifier.text, String.toList_ofList] at hd
    rw [Option.some.inj hd] at hstarts
    cases hstarts
  have hmethod : Lexed (Text.byteSize receiver.text.toList + 1) method.text.toList
      [Lexed.nameAt method (Text.byteSize receiver.text.toList + 1)]
      (("(" ++ Piece.listText (x :: xs)).toList ++ ")".toList) := .name method rfl (not_isWordPart_lparen _ _)
  have hlexed : Lexed 0 (receiver.text ++ ("." ++ (method.text ++ ("(" ++ Piece.listText (x :: xs))))).toList
      (Lexed.nameAt receiver 0 :: Lexed.symbolAt .dot (Text.byteSize receiver.text.toList) ::
        Lexed.nameAt method (Text.byteSize receiver.text.toList + 1) ::
        Lexed.symbolAt .lparen (Text.byteSize receiver.text.toList + 1 + Text.byteSize method.text.toList) ::
        Piece.listTokens (Text.byteSize receiver.text.toList + 1 + Text.byteSize method.text.toList + 1) (x :: xs))
      ")".toList := by
    rw [String.toList_append, String.toList_append]
    refine lexed_behind_name receiver rfl (fun d hd => by cases hd; rfl) (hdot.append ?_)
    rw [String.toList_append]
    exact hmethod.append (lexed_arguments x xs _ _)
  have harguments := goes_arguments x xs (Text.byteSize receiver.text.toList + 1 + Text.byteSize method.text.toList)
    (Text.byteSize (receiver.text ++ ("." ++ (method.text ++ ("(" ++ Piece.listText (x :: xs))))).toList)
    [Lexed.nameAt method (Text.byteSize receiver.text.toList + 1),
      Lexed.symbolAt .dot (Text.byteSize receiver.text.toList), Lexed.nameAt receiver 0]
  have hexpr := Grammar.goes_of_suffix (receiver.goes_var _) (Grammar.goes_methodCall rfl rfl rfl harguments)
    (List.cons_ne_nil _ _)
  exact readsAs_of_lexed (p := .rparen) (by decide) hlexed hexpr

/-- Texts of expressions between brackets, each with a line end, are read as their expressions: in parentheses, as the
arguments of a call and of a call of a method, as the parts of a concatenation, as a selected bit, and as the values of
fields. -/
theorem parseExpression_bracketed (x : ExprText) (xs : List ExprText) (m : FieldText) (ms : List FieldText)
    (f receiver method base : Identifier .ident) (type : Identifier .typeIdent) :
    ReadsAs ("(" ++ x.line ++ ")") (x.expr.move (· + 1)).form ∧
    ReadsAs (f.text ++ "(" ++ ExprText.lines (x :: xs) ++ ")")
      (.call f.var (ExprText.exprsAt (Text.byteSize f.text.toList + 1) (x :: xs))) ∧
    ReadsAs (receiver.text ++ "." ++ method.text ++ "(" ++ ExprText.lines (x :: xs) ++ ")")
      (.methodCall receiver.var method.text
        (ExprText.exprsAt (Text.byteSize receiver.text.toList + 1 + Text.byteSize method.text.toList + 1) (x :: xs))) ∧
    ReadsAs ("\x7b" ++ ExprText.lines (x :: xs) ++ "\x7d") (.concat (ExprText.exprsAt 1 (x :: xs))) ∧
    ReadsAs (base.text ++ "[" ++ x.line ++ "]")
      (.select base.var (x.expr.move (· + (Text.byteSize base.text.toList + 1))) none) ∧
    ReadsAs (type.text ++ "\x7b" ++ FieldText.lines (m :: ms) ++ "\x7d")
      (.struct type.text (FieldText.bindsAt (Text.byteSize type.text.toList + 1) (m :: ms))) := by
  refine ⟨readsAs_parens x.piece, ?_, ?_, ?_, readsAs_select x.piece base, ?_⟩
  · have hcall := readsAs_call x.piece (xs.map ExprText.piece) f
    rw [← ExprText.listText_piece, ← ExprText.listValues_piece]
    simp only [String.append_assoc] at hcall ⊢
    exact hcall
  · have hcall := readsAs_methodCall x.piece (xs.map ExprText.piece) receiver method
    rw [← ExprText.listText_piece, ← ExprText.listValues_piece]
    simp only [String.append_assoc] at hcall ⊢
    exact hcall
  · rw [← ExprText.listText_piece, ← ExprText.listValues_piece]
    exact readsAs_concat x.piece (xs.map ExprText.piece)
  · rw [← FieldText.listText_piece, ← FieldText.listValues_piece]
    exact readsAs_struct type m.piece (ms.map FieldText.piece)

example : ReadsAs "f(a // first\n, b\n)" (.call ⟨.var "f", ⟨0, 1⟩⟩ [⟨.var "a", ⟨2, 3⟩⟩, ⟨.var "b", ⟨15, 16⟩⟩]) := rfl

end Bluespec
