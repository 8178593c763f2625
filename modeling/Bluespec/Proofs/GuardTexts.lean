import Bluespec.Proofs.Conditions
import Bluespec.Proofs.DeclarationNodes
import Bluespec.Proofs.JoinedUnits
import Bluespec.Proofs.StatementSequences

/-!
# Texts of conditions

Texts of conditions with marks between them are read alike wherever conditions stand: as the condition of an `if`, as
the guard of a rule or of a method, and as the predicate of a conditional.

* **`ConditionTexts`** — texts of conditions in a row.
* **`ConditionTexts.goes_parenPredicate`**, **`ConditionTexts.goes_conditional`** — their tokens in parentheses, and in
  front of the branches of a conditional.
* **`Grammar.goes_ifStmt`**, **`Grammar.goes_ruleDef`**, **`Grammar.goes_methodDef`** — what conditions guard.
* **`condition_chains`** — all four places, with the declarations inside the conditions recorded once.
-/

namespace Bluespec

open Bluespec.Parser

/-! ## Texts -/

namespace ExprText

/-- The text on a line of its own in parentheses. -/
def parens (x : ExprText) : ExprText := ⟨"(" ++ x.line ++ ")", _, readsAs_parens x.piece⟩

/-- Parentheses around an expression keep it from being a conditional. -/
theorem isConditional_parens (x : ExprText) : x.parens.expr.isConditional = false := by
  show Expr.isConditional ⟨(x.expr.move (· + 1)).form, ⟨0, _⟩⟩ = false
  obtain ⟨form, span⟩ := x.expr
  cases form with
  | cond p a b =>
    obtain ⟨es, span⟩ := p
    exact beq_eq_false_iff_ne.mpr (Nat.succ_ne_zero span.start).symm
  | select base hi lo => cases lo <;> rfl
  | _ => rfl

/-- The tokens of the text in parentheses, where these stand at an offset. -/
def parensTokens (x : ExprText) (offset : Nat) : List Token :=
  Lexed.symbolAt .lparen offset :: (x.tokensAt (offset + 1) ++ [Lexed.symbolAt .rparen (offset + (x.size + 2))])

theorem lexed_parens (x : ExprText) (offset : Nat) (rest : List Char) :
    Lexed offset x.parens.text.toList (x.parensTokens offset) rest := by
  have hopening : Lexed offset "(".toList [Lexed.symbolAt .lparen offset] (x.line.toList ++ ")".toList ++ rest) := by
    rw [List.append_assoc]
    exact .symbol (p := .lparen) (Lexeme.longest?_extended (by decide) (x.unstarred _))
  have hclosing : Lexed (offset + (x.size + 2)) ")".toList [Lexed.symbolAt .rparen (offset + (x.size + 2))] rest :=
    .symbol (p := .rparen) (Lexeme.longest?_bracket (by decide) _)
  have hline : Text.byteSize x.line.toList = x.size + 1 := x.size_piece
  rw [show x.parens.text = "(" ++ x.line ++ ")" from rfl, String.toList_append, String.toList_append, List.append_assoc]
  exact hopening.append ((x.piece.lexed (offset + 1) _).appendAt (by rw [piece, hline]; omega) hclosing)

/-- The text in parentheses is its expression, in front of whatever goes on with none. -/
theorem goes_parens (x : ExprText) (offset : Nat) {min : Nat} (cs : List Token) {rest : List Token}
    (hrest : Stops min rest) :
    Goes (Grammar.full.innerExpr min) cs (x.parensTokens offset)
      ⟨(x.expr.move (· + (offset + 1))).form, ⟨offset, max (offset + (x.size + 2) + 1) offset⟩⟩ rest :=
  Grammar.goes_of_primaryBefore (Grammar.goes_parens rfl rfl (x.piece.goes (offset + 1) _ _ (.cons rfl rfl _))) hrest

/-- Texts with line ends, each behind the mark between two conditions. -/
def furtherText : List ExprText → String
  | [] => ""
  | x :: xs => "&&& " ++ x.line ++ furtherText xs

/-- Their tokens, where the first mark stands at `offset`. -/
def furtherTokens (offset : Nat) : List ExprText → List Token
  | [] => []
  | x :: xs => Lexed.symbolAt .ampAmpAmp offset ::
      (x.tokensAt (offset + 4) ++ furtherTokens (offset + 4 + (x.size + 1)) xs)

/-- Their expressions, where the first mark stands at `offset`. -/
def furtherExprs (offset : Nat) : List ExprText → List Expr
  | [] => []
  | x :: xs => x.expr.move (· + (offset + 4)) :: furtherExprs (offset + 4 + (x.size + 1)) xs

theorem lexed_line (x : ExprText) (offset : Nat) (rest : List Char) :
    Lexed offset x.line.toList (x.tokensAt offset) rest := x.piece.lexed offset rest

theorem lexed_further (xs : List ExprText) (offset : Nat) (rest : List Char) :
    Lexed offset (furtherText xs).toList (furtherTokens offset xs) rest := by
  induction xs generalizing offset with
  | nil => exact ⟨rfl, rfl⟩
  | cons x xs ih =>
    rw [furtherText, String.toList_append, String.toList_append, List.append_assoc]
    refine (Lexed.symbolSpace .ampAmpAmp).append ((x.lexed_line _ _).appendAt ?_ (ih _))
    rw [show Text.byteSize x.line.toList = x.size + 1 from x.size_piece]
    rfl

theorem further {xs : List ExprText} (h : ∀ x ∈ xs, x.expr.isConditional = false) (offset : Nat) :
    Further (furtherTokens offset xs) (furtherExprs offset xs) := by
  induction xs generalizing offset with
  | nil => exact .nil
  | cons x xs ih =>
    obtain ⟨hfirst, hothers⟩ := List.forall_mem_cons.mp h
    exact .cons rfl (x.isCondition hfirst _) (ih hothers _)

end ExprText

/-- Texts of conditions in a row.  None of them is a conditional without parentheses around it. -/
structure ConditionTexts where
  /-- The first condition. -/
  first : ExprText
  /-- The others. -/
  others : List ExprText
  /-- No condition is a conditional. -/
  plain : ∀ x ∈ first :: others, x.expr.isConditional = false

namespace ConditionTexts

variable (x : ConditionTexts)

/-- The conditions with line ends, and with a mark between two of them. -/
def text : String := x.first.line ++ ExprText.furtherText x.others

/-- The number of bytes of that text. -/
def size : Nat := Text.byteSize x.text.toList

/-- The tokens of that text at an offset. -/
def tokensAt (offset : Nat) : List Token :=
  x.first.tokensAt offset ++ ExprText.furtherTokens (offset + (x.first.size + 1)) x.others

/-- The conditions, where the text stands at an offset. -/
def exprsAt (offset : Nat) : List Expr :=
  x.first.expr.move (· + offset) :: ExprText.furtherExprs (offset + (x.first.size + 1)) x.others

theorem lexed (offset : Nat) (rest : List Char) : Lexed offset x.text.toList (x.tokensAt offset) rest := by
  rw [text, String.toList_append]
  refine (x.first.lexed_line _ _).appendAt ?_ (ExprText.lexed_further _ _ _)
  rw [show Text.byteSize x.first.line.toList = x.first.size + 1 from x.first.size_piece]

theorem unstarred (more : List Char) : ∀ d ∈ (x.text.toList ++ more).head?, d ≠ '*' := by
  rw [text, String.toList_append, List.append_assoc]
  exact x.first.unstarred _

theorem isCondition (offset : Nat) : IsCondition (x.first.tokensAt offset) (x.first.expr.move (· + offset)) :=
  x.first.isCondition (x.plain x.first List.mem_cons_self) offset

theorem further (offset : Nat) : Further (ExprText.furtherTokens offset x.others) (ExprText.furtherExprs offset x.others) :=
  ExprText.further (fun y hy => x.plain y (List.mem_cons_of_mem _ hy)) offset

/-- The conditions in parentheses, or what stands for the closing one, between two other texts. -/
def guarded (before more : String) : String := before ++ "(" ++ x.text ++ more

theorem lexed_guarded {before more : String} {offset place : Nat} {ts us : List Token} {rest : List Char}
    (hbefore : ∀ rest, Lexed offset before.toList ts rest) (hplace : offset + Text.byteSize before.toList = place)
    (hmore : Lexed (place + 1 + x.size) more.toList us rest) :
    Lexed offset (x.guarded before more).toList
      (ts ++ Lexed.symbolAt .lparen place :: (x.tokensAt (place + 1) ++ us)) rest := by
  have hopening : Lexed place "(".toList [Lexed.symbolAt .lparen place] (x.text.toList ++ more.toList ++ rest) := by
    rw [List.append_assoc]
    exact .symbol (p := .lparen) (Lexeme.longest?_extended (by decide) (x.unstarred _))
  have hguard := hopening.append ((x.lexed (place + 1) _).append hmore)
  rw [guarded, String.toList_append, String.toList_append, String.toList_append, List.append_assoc, List.append_assoc]
  exact (hbefore _).appendAt hplace hguard

/-- The conditions in parentheses are a predicate. -/
theorem goes_parenPredicate (offset : Nat) (closing : Token) (hclosing : closing.kind = .punct .rparen) :
    ∃ span, ∀ cs rest, Goes Grammar.full.parenPredicate cs
      (Lexed.symbolAt .lparen offset :: (x.tokensAt (offset + 1) ++ [closing])) ⟨x.exprsAt (offset + 1), span⟩ rest :=
  (x.further _).goes_parenPredicate rfl hclosing (x.isCondition _)

end ConditionTexts

/-! ## What conditions guard -/

/-- The word of a conditional statement. -/
def Identifier.if_ : Identifier (.keyword .if_) := ⟨'i', ['f'], rfl, List.all_eq_true.mp rfl, rfl⟩

/-- The word of a rule. -/
def Identifier.rule : Identifier (.keyword .rule) := ⟨'r', ['u', 'l', 'e'], rfl, List.all_eq_true.mp rfl, rfl⟩

/-- The word of a method. -/
def Identifier.method : Identifier (.keyword .method) :=
  ⟨'m', ['e', 't', 'h', 'o', 'd'], rfl, List.all_eq_true.mp rfl, rfl⟩

theorem Identifier.toList_space {kind : Kind} (x : Identifier kind) :
    (x.text ++ " ").toList = x.first :: x.others ++ [' '] := by
  rw [String.toList_append, text, String.toList_ofList]
  rfl

namespace Grammar

variable {word name opening semi closing : Token} {cs ts us rest : List Token} {p : Predicate}

/-- A statement behind conditions in parentheses. -/
theorem goes_ifStmt {dialect : Dialect} {st : Stmt} (hword : word.kind = .keyword .if_)
    (hguard : Goes full.parenPredicate [word] ts p us)
    (hst : Goes (full.innerStmt dialect) (ts.reverse ++ [word]) us st []) :
    ∃ span, Goes (full.innerStmt dialect) [] (word :: (ts ++ us)) ⟨.cond p st none, span⟩ [] := by
  have hbranch : Goes (full.ifStmt dialect) [] (word :: (ts ++ us)) (.cond p st none) [] := by
    rw [← List.append_nil us] at hguard
    exact .cons .skip (hguard.bind (hst.then_ ((Goes.accept_of_lacks .nil).then_ .value)))
  have hform : Goes (full.stmtForm dialect) [] (word :: (ts ++ us)) (.cond p st none) [] := by
    refine .peek ?_
    rw [hword]
    exact hbranch
  obtain ⟨span, hspan⟩ := exists_spanFrom (List.cons_ne_nil word (ts ++ us)) word.span.start
  refine ⟨span, ?_⟩
  rw [innerStmt_eq]
  exact .skipAttributes (.cons hword (by decide) _) (.offset (hform.then_ ((hspan [] []).then_ .value)))

/-- The closing word of a definition without a label. -/
theorem goes_ending {word : Keyword} {kind : NodeKind} {start : Nat} (hclosing : closing.kind = .keyword word)
    (hrest : Lacks (.punct .colon) rest) :
    Goes (ending word kind start) cs [closing] (none, ⟨start, max closing.span.stop start⟩) rest :=
  .cons (.expectKeyword hclosing) ((Goes.noLabel hrest).then_ (Goes.spanFrom.then_ (Goes.record.then_ .value)))

/-- The body of a definition that has no statements. -/
theorem goes_noBody {dialect : Dialect} {word : Keyword} (hclosing : closing.kind = .keyword word)
    (hword : word.isCloser = true) :
    Goes (full.body dialect word) cs [] (.stmts dialect []) (closing :: rest) := by
  have hend : Closing (closing :: rest) := by
    rintro t ⟨⟩
    rw [hclosing]
    exact hword
  have hlone : ∀ c ns, atLoneBlock word c ⟨cs, closing :: rest, [], ns⟩ =
      (some false, ⟨cs, closing :: rest, [], ns⟩) := by
    intro c ns
    refine congrArg (fun b => (some b, _)) ?_
    have hne : closing.kind ≠ .keyword .action ∧ closing.kind ≠ .keyword .actionvalue := by
      rw [hclosing]
      constructor <;> rintro ⟨⟩ <;> cases hword
    simp [State.isNext, State.peek, hne]
  exact .look hlone ((Goes.value (a := none)).bind ((Goes.items (fun _ => .nil) hend).then_ .value))

/-- A rule that has conditions and no statements. -/
theorem goes_ruleDef (hname : name.kind = .ident)
    (hopening : opening.kind = .punct .lparen) (hsemi : semi.kind = .punct .semi)
    (hclosing : closing.kind = .keyword .endrule) (hrest : Lacks (.punct .colon) rest)
    (hguard : Goes full.parenPredicate (name :: word :: cs) (opening :: ts) p (semi :: closing :: rest)) :
    Goes full.ruleDef cs (word :: name :: (opening :: ts ++ [semi, closing]))
      ⟨name.text, some p, [], none, ⟨word.span.start, max closing.span.stop word.span.start⟩⟩ rest := by
  have hend : Closing (closing :: rest) := by
    rintro t ⟨⟩
    rw [hclosing]
    rfl
  have hsome : Goes (some <$> full.parenPredicate) (name :: word :: cs) (opening :: ts) (some p)
      ([semi] ++ closing :: rest) := hguard.then_ .value
  have hheader : Goes full.ruleHeader cs (word :: name :: (opening :: ts ++ [semi])) (name.text, some p)
      (closing :: rest) :=
    .cons .skip (.cons (.expectText hname) (.look (fun _ _ => isNext_of_kind hopening)
      (hsome.bind ((Goes.expectPunct hsemi).cons .value))))
  have hall : word :: name :: (opening :: ts ++ [semi, closing]) =
      word :: name :: (opening :: ts ++ [semi]) ++ ([] ++ [closing]) := by simp
  refine .offset ?_
  rw [hall]
  exact (Goes.header hheader).bind ((Goes.items (fun _ => .nil) hend).bind ((goes_ending hclosing hrest).then_ .value))

/-- A method that has conditions, no result, no formals and no statements. -/
theorem goes_methodDef {guarding : Token} (hname : name.kind = .ident)
    (hguarding : guarding.kind = .keyword .if_) (hsemi : semi.kind = .punct .semi)
    (hclosing : closing.kind = .keyword .endmethod) (hrest : Lacks (.punct .colon) rest)
    (hguard : Goes full.parenPredicate (guarding :: name :: word :: cs) ts p (semi :: closing :: rest)) :
    Goes full.methodDef cs (word :: name :: guarding :: (ts ++ [semi, closing]))
      ⟨none, name.text, [], some p, .stmts .action [], none,
        ⟨word.span.start, max closing.span.stop word.span.start⟩⟩ rest := by
  have hend : Closing (closing :: rest) := by
    rintro t ⟨⟩
    rw [hclosing]
    rfl
  have hsome : Goes (some <$> full.parenPredicate) (guarding :: name :: word :: cs) ts (some p)
      ([semi] ++ closing :: rest) := hguard.then_ .value
  have hnamed : ∀ c ns us, atMethodName c ⟨word :: cs, name :: guarding :: us, [], ns⟩ =
      (some true, ⟨word :: cs, name :: guarding :: us, [], ns⟩) := by
    intro c ns us
    refine congrArg (fun b => (some b, _)) ?_
    simp [State.isNext, State.peek, State.nth, hname, hguarding]
  have hheader : Goes full.methodHeader cs (word :: name :: guarding :: (ts ++ [semi]))
      (none, name.text, [], some p) (closing :: rest) := by
    refine .cons .skip (.look (fun c ns => hnamed c ns _) (.look (fun _ _ => rfl) (.cons (.expectText hname) ?_)))
    refine .look (a := []) (fun c ns => ?_)
      (.cons (.accept hguarding) (hsome.bind ((Goes.expectPunct hsemi).cons .value)))
    exact bind_of_some (isNext_of_head (Lacks.cons hguarding (by decide) _))
  have hall : word :: name :: guarding :: (ts ++ [semi, closing]) =
      word :: name :: guarding :: (ts ++ [semi]) ++ ([] ++ [closing]) := by simp
  refine .offset ?_
  rw [hall]
  exact (Goes.header hheader).bind ((goes_noBody hclosing rfl).bind ((goes_ending hclosing hrest).then_ .value))

/-- A member of a module that begins with the word of a rule is one, and the same for a method. -/
theorem goes_moduleStmt_rule {d : RuleDef} (hword : word.kind = .keyword .rule)
    (h : Goes full.ruleDef cs (word :: ts) d rest) : Goes full.moduleStmt cs (word :: ts) (.rule d) rest := by
  refine .skipAttributes (.cons hword (by decide) _) (.peek ?_)
  rw [hword]
  exact h.then_ .value

theorem goes_moduleStmt_method {d : MethodDef} (hword : word.kind = .keyword .method)
    (h : Goes full.methodDef cs (word :: ts) d rest) : Goes full.moduleStmt cs (word :: ts) (.method d) rest := by
  refine .skipAttributes (.cons hword (by decide) _) (.peek ?_)
  rw [hword]
  exact h.then_ .value

/-- The header of a module that has a name only. -/
theorem goes_moduleHeader (hname : name.kind = .ident) (hsemi : semi.kind = .punct .semi) :
    Goes moduleHeader cs [word, name, semi] (none, name.text, [], []) rest := by
  have hcontext : Goes moduleContext (word :: cs) [] none ([name, semi] ++ rest) := fun _ ns =>
    ⟨ns, bind_of_some (accept_of_head (Lacks.cons hname (by decide) _))⟩
  have hparams : Goes moduleParams (name :: word :: cs) [] [] ([semi] ++ rest) := fun _ ns =>
    ⟨ns, bind_of_some (accept_of_head (Lacks.cons hsemi (by decide) _))⟩
  have hargs : Goes moduleArgs (name :: word :: cs) [] [] ([semi] ++ rest) := fun _ ns =>
    ⟨ns, bind_of_some (accept_of_head (Lacks.cons hsemi (by decide) _))⟩
  have hprovisos : Goes skipProvisos (name :: word :: cs) [] () ([semi] ++ rest) := fun _ ns =>
    ⟨ns, bind_of_some (isNext_of_head (Lacks.cons hsemi (by decide) _))⟩
  exact .cons .skip (hcontext.bind (.cons (.expectText hname) (hparams.bind (hargs.bind (hprovisos.bind
    (.cons (.expectPunct hsemi) .value))))))

/-- A module with one member. -/
theorem goes_moduleDef {st : ModuleStmt} (hname : name.kind = .ident) (hsemi : semi.kind = .punct .semi)
    (hclosing : closing.kind = .keyword .endmodule) (hrest : Lacks (.punct .colon) rest)
    (hfirst : ∃ t us, ts = t :: us ∧ t.kind.isCloser = false)
    (hst : Goes full.moduleStmt (semi :: name :: word :: cs) ts st (closing :: rest)) :
    Goes full.moduleDef cs (word :: name :: semi :: (ts ++ [closing]))
      ⟨none, name.text, [], [], [st], none, ⟨word.span.start, max closing.span.stop word.span.start⟩⟩ rest := by
  have hend : Closing (closing :: rest) := by
    rintro t ⟨⟩
    rw [hclosing]
    rfl
  have hitems : ∀ c, Loops c full.moduleStmt (semi :: name :: word :: cs) ts [] [st] [] (closing :: rest) := by
    obtain ⟨t, us, rfl, ht⟩ := hfirst
    exact fun c => .read (.inr rfl) ht (.of_goes hst)
  have hheader : Goes (header .endmodule moduleHeader) cs [word, name, semi] (none, name.text, [], [])
      (ts ++ [closing] ++ rest) := (goes_moduleHeader hname hsemi).header
  exact .offset (hheader.bind ((Goes.items hitems hend).bind ((goes_ending hclosing hrest).then_ .value)))

end Grammar

/-- A module is a statement of a package. -/
theorem Parser.goes_packageStmt_module {word : Token} {cs ts rest : List Token} {d : ModuleDef}
    (hword : word.kind = .keyword .module) (h : Goes Grammar.full.moduleDef cs (word :: ts) d rest) :
    Goes packageStmt cs (word :: ts) (.module d) rest := by
  have hmodule : Goes (withGrammar Grammar.moduleDef) cs (word :: ts) d rest := by
    intro c ns
    obtain ⟨ns', hrun⟩ := h c ns
    exact ⟨ns', (Grammar.full_moduleDef ⟨word, _, rfl⟩).trans hrun⟩
  refine .skipAttributes (.cons hword (by decide) _) (.peek ?_)
  rw [hword]
  exact hmodule.then_ .value

/-! ## Sources -/

/-- The text of a module with one member. -/
def moduleText (member : String) : String := "module m;\n" ++ member ++ "endmodule\n"

/-- The source unit of a module with one member. -/
def moduleUnit (member : ModuleStmt) (span : Span) : SourceUnit :=
  .items ⟨[], [], [.module ⟨none, "m", [], [], [member], none, span⟩]⟩

/-- The tokens of a member of a module decide what the text of the module is read as. -/
theorem parse_module {member : String} {t : Token} {ts : List Token} {st : ModuleStmt} (recovery : Recovery)
    (hlexed : ∀ rest, Lexed 10 member.toList (t :: ts) rest) (hfirst : t.kind.isCloser = false)
    (hst : ∀ closing cs rest, closing.kind = .keyword .endmodule →
      Goes Grammar.full.moduleStmt cs (t :: ts) st (closing :: rest)) :
    (parse (moduleText member) recovery).diagnostics = [] ∧
      ∃ span, (parse (moduleText member) recovery).root = moduleUnit st span := by
  let word : Token := ⟨.keyword .module, "module", ⟨0, 6⟩⟩
  let name : Token := ⟨.ident, "m", ⟨7, 8⟩⟩
  let semi : Token := ⟨.punct .semi, ";", ⟨8, 9⟩⟩
  let closing : Token := Token.move (· + (10 + Text.byteSize member.toList)) ⟨.keyword .endmodule, "endmodule", ⟨0, 9⟩⟩
  have hheader : Lexed 0 ("module m;".toList ++ ['\n']) [word, name, semi]
      (member.toList ++ ("endmodule".toList ++ ['\n']) ++ []) := .line rfl
  have hclosing : Lexed (10 + Text.byteSize member.toList) ("endmodule".toList ++ ['\n']) [closing] [] := .line rfl
  have hall : Lexed 0 (moduleText member).toList (word :: name :: semi :: (t :: ts ++ [closing])) [] := by
    rw [moduleText, String.toList_append, String.toList_append, List.append_assoc]
    exact hheader.appendAt rfl ((hlexed _).append hclosing)
  obtain ⟨htokens, hlexical⟩ := hall.whole
  have hitem : ReadsItem (.keyword .module) (Token.significant (moduleText member))
      ⟨[], [], [.module ⟨none, "m", [], [], [st], none, ⟨0, max closing.span.stop 0⟩⟩]⟩ := by
    intro body cs rest hrest
    rw [htokens, packageItem_stmt (by decide) (by decide) rfl, PackageBody.append_stmts]
    exact (goes_packageStmt_module rfl (Grammar.goes_moduleDef rfl rfl rfl hrest ⟨t, ts, rfl, hfirst⟩
      (hst closing _ rest rfl))).resuming.then_ .value
  rw [htokens] at hitem
  have hbare : Lacks (.keyword .package) (Token.significant (moduleText member)) := by
    rw [htokens]
    exact .cons rfl (by decide) _
  have hitems : ReadsItems (Token.significant (moduleText member)) _ := htokens ▸ hitem.alone
  exact And.imp_right (fun hroot => ⟨_, hroot⟩) (parse_of_readsItems hlexical hbare hitems)

namespace ConditionTexts

variable (x : ConditionTexts)

section Definitions

variable (name : Identifier .ident)

/-- A rule with conditions. -/
def ruleText : String := x.guarded ("rule " ++ (name.text ++ " ")) ");\nendrule\n"

/-- A method with conditions. -/
def methodText : String := x.guarded ("method " ++ (name.text ++ " " ++ "if ")) ");\nendmethod\n"

/-- Where the parenthesis of a rule stands in a module. -/
def rulePlace : Nat := Text.byteSize name.text.toList + 16

/-- Where the parenthesis of a method stands in a module. -/
def methodPlace : Nat := Text.byteSize name.text.toList + 21

/-- The conditions of a rule are its guard. -/
theorem parse_rule (recovery : Recovery) :
    (parse (moduleText (x.ruleText name)) recovery).diagnostics = [] ∧
      ∃ guard span unit, (parse (moduleText (x.ruleText name)) recovery).root =
        moduleUnit (.rule ⟨name.text, some ⟨x.exprsAt (rulePlace name + 1), guard⟩, [], none, span⟩) unit := by
  let place := Token.move (· + (rulePlace name + 1 + x.size))
  let closed : Token := place ⟨.punct .rparen, ")", ⟨0, 1⟩⟩
  let semi : Token := place ⟨.punct .semi, ";", ⟨1, 2⟩⟩
  let closing : Token := place ⟨.keyword .endrule, "endrule", ⟨3, 10⟩⟩
  have hbefore : ∀ rest, Lexed 10 ("rule " ++ (name.text ++ " ")).toList
      ([Lexed.nameAt .rule 10] ++ [Lexed.nameAt name 15]) rest := by
    intro rest
    have hname : Lexed 15 (name.text ++ " ").toList [Lexed.nameAt name 15] rest := .nameSpace name rfl name.toList_space
    rw [String.toList_append]
    exact (Lexed.nameSpace .rule rfl rfl).appendAt rfl hname
  have hplace : 10 + Text.byteSize ("rule " ++ (name.text ++ " ")).toList = rulePlace name := by
    rw [String.toList_append, String.toList_append, Text.byteSize_append, Text.byteSize_append, rulePlace]
    show 10 + (5 + (_ + 1)) = _
    omega
  have hlexed : ∀ rest, Lexed 10 (x.ruleText name).toList ([Lexed.nameAt .rule 10] ++ [Lexed.nameAt name 15] ++
      Lexed.symbolAt .lparen (rulePlace name) :: (x.tokensAt (rulePlace name + 1) ++ [closed, semi, closing])) rest :=
    fun rest => x.lexed_guarded hbefore hplace (.line (show LexicalError.ofText ");\nendrule" = [] from rfl))
  obtain ⟨guard, hguard⟩ := x.goes_parenPredicate (rulePlace name) closed rfl
  have hrule : ∀ last cs rest, last.kind = .keyword .endmodule → Goes Grammar.full.moduleStmt cs
      (Lexed.nameAt .rule 10 :: Lexed.nameAt name 15 :: (Lexed.symbolAt .lparen (rulePlace name) ::
        (x.tokensAt (rulePlace name + 1) ++ [closed, semi, closing])))
      (.rule ⟨name.text, some ⟨x.exprsAt (rulePlace name + 1), guard⟩, [], none, ⟨10, max closing.span.stop 10⟩⟩)
      (last :: rest) := by
    intro last cs rest hlast
    have hgoes := Grammar.goes_ruleDef rfl rfl (show semi.kind = .punct .semi from rfl)
      (show closing.kind = .keyword .endrule from rfl) (.cons hlast (by decide) rest)
      (hguard (Lexed.nameAt name 15 :: Lexed.nameAt .rule 10 :: cs) _)
    rw [List.cons_append, List.append_assoc] at hgoes
    exact Grammar.goes_moduleStmt_rule rfl hgoes
  obtain ⟨hclean, unit, hroot⟩ := parse_module recovery hlexed rfl hrule
  exact ⟨hclean, guard, _, unit, hroot⟩

/-- The conditions of a method are its guard. -/
theorem parse_method (recovery : Recovery) :
    (parse (moduleText (x.methodText name)) recovery).diagnostics = [] ∧
      ∃ guard span unit, (parse (moduleText (x.methodText name)) recovery).root =
        moduleUnit (.method ⟨none, name.text, [], some ⟨x.exprsAt (methodPlace name + 1), guard⟩, .stmts .action [], none,
          span⟩) unit := by
  let place := Token.move (· + (methodPlace name + 1 + x.size))
  let closed : Token := place ⟨.punct .rparen, ")", ⟨0, 1⟩⟩
  let semi : Token := place ⟨.punct .semi, ";", ⟨1, 2⟩⟩
  let closing : Token := place ⟨.keyword .endmethod, "endmethod", ⟨3, 12⟩⟩
  have hbefore : ∀ rest, Lexed 10 ("method " ++ (name.text ++ " " ++ "if ")).toList
      ([Lexed.nameAt .method 10] ++ ([Lexed.nameAt name 17] ++
        [Lexed.nameAt .if_ (17 + Text.byteSize (name.text ++ " ").toList)])) rest := by
    intro rest
    rw [String.toList_append, String.toList_append]
    have hname : Lexed 17 ((name.text ++ " ").toList ++ "if ".toList)
        ([Lexed.nameAt name 17] ++ [Lexed.nameAt .if_ (17 + Text.byteSize (name.text ++ " ").toList)]) rest :=
      (Lexed.nameSpace name rfl name.toList_space).append (.nameSpace .if_ rfl rfl)
    exact (Lexed.nameSpace .method rfl rfl).appendAt rfl hname
  have hplace : 10 + Text.byteSize ("method " ++ (name.text ++ " " ++ "if ")).toList = methodPlace name := by
    rw [String.toList_append, String.toList_append, String.toList_append, Text.byteSize_append, Text.byteSize_append,
      Text.byteSize_append, methodPlace]
    show 10 + (7 + (_ + 1 + 3)) = _
    omega
  have hlexed : ∀ rest, Lexed 10 (x.methodText name).toList ([Lexed.nameAt .method 10] ++ ([Lexed.nameAt name 17] ++
      [Lexed.nameAt .if_ (17 + Text.byteSize (name.text ++ " ").toList)]) ++
        Lexed.symbolAt .lparen (methodPlace name) :: (x.tokensAt (methodPlace name + 1) ++ [closed, semi, closing])) rest :=
    fun rest => x.lexed_guarded hbefore hplace (.line (show LexicalError.ofText ");\nendmethod" = [] from rfl))
  obtain ⟨guard, hguard⟩ := x.goes_parenPredicate (methodPlace name) closed rfl
  have hmethod : ∀ last cs rest, last.kind = .keyword .endmodule → Goes Grammar.full.moduleStmt cs
      (Lexed.nameAt .method 10 :: Lexed.nameAt name 17 ::
        Lexed.nameAt .if_ (17 + Text.byteSize (name.text ++ " ").toList) ::
          (Lexed.symbolAt .lparen (methodPlace name) :: (x.tokensAt (methodPlace name + 1) ++ [closed, semi, closing])))
      (.method ⟨none, name.text, [], some ⟨x.exprsAt (methodPlace name + 1), guard⟩, .stmts .action [], none,
        ⟨10, max closing.span.stop 10⟩⟩) (last :: rest) := by
    intro last cs rest hlast
    have hgoes := Grammar.goes_methodDef rfl rfl (show semi.kind = .punct .semi from rfl)
      (show closing.kind = .keyword .endmethod from rfl) (.cons hlast (by decide) rest)
      (hguard (Lexed.nameAt .if_ (17 + Text.byteSize (name.text ++ " ").toList) :: Lexed.nameAt name 17 ::
        Lexed.nameAt .method 10 :: cs) _)
    rw [List.cons_append, List.append_assoc] at hgoes
    exact Grammar.goes_moduleStmt_method rfl hgoes
  obtain ⟨hclean, unit, hroot⟩ := parse_module recovery hlexed rfl hmethod
  exact ⟨hclean, guard, _, unit, hroot⟩

end Definitions

/-- The text of an `if` with conditions. -/
def ifText {dialect : Dialect} (s : StmtText dialect) : String := x.guarded "if " (") " ++ (s.text ++ "\n"))

/-- The conditions of an `if` are its predicate. -/
theorem parse_if {dialect : Dialect} (s : StmtText dialect) :
    ∃ guard span, parseStatement dialect (x.ifText s) =
      .ok ⟨.cond ⟨x.exprsAt 4, guard⟩ (s.stmt.move (· + (4 + x.size + 2))) none, span⟩ := by
  let closed : Token := Lexed.symbolAt .rparen (4 + x.size)
  have hmore : Lexed (4 + x.size) (") " ++ (s.text ++ "\n")).toList ([closed] ++ s.tokensAt (4 + x.size + 2)) [] := by
    rw [String.toList_append, String.toList_append]
    exact (Lexed.symbolSpace .rparen).append (.line s.lexical)
  have hlexed : Lexed 0 (x.ifText s).toList (Lexed.nameAt .if_ 0 :: (Lexed.symbolAt .lparen 3 ::
      (x.tokensAt 4 ++ ([closed] ++ s.tokensAt (4 + x.size + 2))))) [] :=
    x.lexed_guarded (fun _ => .nameSpace .if_ rfl rfl) rfl hmore
  obtain ⟨htokens, hlexical⟩ := hlexed.whole
  obtain ⟨guard, hguard⟩ := x.goes_parenPredicate 3 closed rfl
  have hstmt := fun cs => Stmt.goes_of_parseStatement s.read (4 + x.size + 2) cs (show StmtStops _ [] from nofun)
  have hword : (Lexed.nameAt .if_ 0).kind = .keyword .if_ := rfl
  obtain ⟨span, hif⟩ := Grammar.goes_ifStmt hword (hguard _ _) (hstmt _)
  refine ⟨guard, span, parseOnly_of_goes_all hlexical ?_⟩
  rw [htokens]
  rw [List.cons_append, List.append_assoc] at hif
  exact hif

/-- A conditional behind conditions, with parentheses around its first branch. -/
def conditionalText (t f : ExprText) : String := x.text ++ ("? " ++ (t.parens.text ++ (" : " ++ f.line)))

/-- The tokens of such a conditional behind its conditions. -/
def branchTokens (t f : ExprText) : List Token :=
  Lexed.symbolAt .question x.size :: (t.parensTokens (x.size + 2) ++
    Lexed.symbolAt .colon (x.size + t.size + 6) :: f.tokensAt (x.size + t.size + 8))

theorem lexed_conditional (t f : ExprText) :
    Lexed 0 (x.conditionalText t f).toList (x.tokensAt 0 ++ x.branchTokens t f) [] := by
  have hparens : Text.byteSize t.parens.text.toList = t.size + 3 := by
    have hline : Text.byteSize t.line.toList = t.size + 1 := t.size_piece
    rw [show t.parens.text = "(" ++ t.line ++ ")" from rfl, String.toList_append, String.toList_append,
      Text.byteSize_append, Text.byteSize_append, hline]
    show 1 + (t.size + 1) + 1 = _
    omega
  have hcolon : Lexed (x.size + t.size + 5) ([' '] ++ (": ".toList ++ f.line.toList))
      ([] ++ ([Lexed.symbolAt .colon (x.size + t.size + 6)] ++ f.tokensAt (x.size + t.size + 8))) [] :=
    Lexed.space.appendAt rfl ((Lexed.symbolSpace .colon).appendAt rfl (f.lexed_line _ _))
  have hbranch := (t.lexed_parens (x.size + 2) _).appendAt (by rw [hparens]; omega) hcolon
  have hmark : ∀ rest, Lexed x.size "? ".toList [Lexed.symbolAt .question x.size] rest := fun _ => .symbolSpace .question
  have hquestion := (hmark _).appendAt (show x.size + Text.byteSize "? ".toList = x.size + 2 from rfl) hbranch
  rw [conditionalText, String.toList_append, String.toList_append, String.toList_append, String.toList_append]
  exact (x.lexed 0 _).appendAt (Nat.zero_add _) hquestion

/-- The conditions of a conditional are its predicate. -/
theorem parse_conditional (t f : ExprText) :
    ∃ predicate first span, parseExpression (x.conditionalText t f) =
      .ok ⟨.cond ⟨x.exprsAt 0, predicate⟩ ⟨(t.expr.move (· + (x.size + 3))).form, first⟩
        (f.expr.move (· + (x.size + t.size + 8))), span⟩ := by
  obtain ⟨htokens, hlexical⟩ := (x.lexed_conditional t f).whole
  obtain ⟨us, last, hf, -⟩ := f.exists_last
  have hsecond : f.tokensAt (x.size + t.size + 8) = us.map (Token.move (· + (x.size + t.size + 8))) ++
      [last.move (· + (x.size + t.size + 8))] := by rw [ExprText.tokensAt, hf, List.map_append, List.map_singleton]
  have hstop : Stops 0 (Lexed.symbolAt .colon (x.size + t.size + 6) :: f.tokensAt (x.size + t.size + 8)) := by
    rintro _ ⟨⟩
    exact ⟨rfl, rfl⟩
  have hthen := fun cs => t.goes_parens (x.size + 2) cs hstop
  have helse : ∀ cs, Goes (Grammar.full.innerExpr conditionalPower) cs (f.tokensAt (x.size + t.size + 8))
      (f.expr.move (· + (x.size + t.size + 8))) [] := by
    intro cs
    rw [Grammar.innerExpr_conditionalPower]
    exact Expr.goes_of_parseExpression f.read _ cs .nil
  rw [hsecond] at hthen helse
  obtain ⟨predicate, hbranches⟩ := (x.further (0 + (x.first.size + 1))).goes_conditional (x.first.expr.move (· + 0))
    (x.first.tokensAt 0).reverse (show (Lexed.symbolAt .question x.size).kind = .punct .question from rfl) rfl (hthen _)
    (helse _)
  have hstops : OperandStops (ExprText.furtherTokens (0 + (x.first.size + 1)) x.others ++ x.branchTokens t f) :=
    (x.further _).operandStops (by rintro _ ⟨⟩; exact .inl rfl)
  rw [branchTokens, hsecond] at hstops htokens
  have hgoes := Grammar.goes_of_condition ((x.isCondition 0).above [] _ hstops) (by simp) hbranches
  rw [← List.append_assoc] at hgoes
  rw [← tokensAt, ← htokens] at hgoes
  exact ⟨predicate, _, _, parseOnly_of_goes_all hlexical hgoes⟩

/-! ## Declarations inside conditions -/

/-- The declarations inside the conditions of a statement are its own. -/
theorem declared_cond {es : List Expr} {guard span : Span} {st : Stmt} {d : NodeSpan}
    (hd : d ∈ es.flatMap Expr.declared) : d ∈ (⟨.cond ⟨es, guard⟩ st none, span⟩ : Stmt).declared := by
  rw [← Expr.declaredIn_eq] at hd
  exact List.mem_append_left _ hd

/-- The declarations inside the member of a module have one node each. -/
theorem exists_node_of_member {text : String} {recovery : Recovery} {member : ModuleStmt} {unit : Span} {d : NodeSpan}
    (hroot : (parse text recovery).root = moduleUnit member unit) (hd : d ∈ member.declared) :
    ∃ p, (parse text recovery).concrete.nodesFor d = [p] := by
  have hall : d ∈ (parse text recovery).root.declared := by
    rw [hroot]
    simp [moduleUnit, SourceUnit.declared, PackageBody.declared, PackageStmt.declared, ModuleDef.declared,
      ModuleStmt.declaredIn, hd]
  obtain ⟨p, hp, -⟩ := (parse_declarationNodes text recovery).2.1 d hall
  exact ⟨p, hp⟩

end ConditionTexts

open ConditionTexts in
/-- Conditions in a row, none of them a conditional without parentheses around it, are read alike everywhere: as the
predicate of an `if` of any dialect, as the guard of a rule and of a method, and as the predicate of one conditional in
front of its branches.  There are no diagnostics, the conditions are those of their texts, and each declaration inside
them is recorded once. -/
theorem condition_chains (x : ConditionTexts) :
    (∀ (dialect : Dialect) (s : StmtText dialect),
      (∃ guard span, parseStatement dialect (x.ifText s) =
        .ok ⟨.cond ⟨x.exprsAt 4, guard⟩ (s.stmt.move (· + (4 + x.size + 2))) none, span⟩) ∧
      ∀ d ∈ (x.exprsAt 4).flatMap Expr.declared,
        (recordedIn (withGrammar fun g => g.stmt dialect) (x.ifText s)).count d = 1) ∧
    (∀ (name : Identifier .ident) (recovery : Recovery),
      (parse (moduleText (x.ruleText name)) recovery).diagnostics = [] ∧
      (∃ guard span unit, (parse (moduleText (x.ruleText name)) recovery).root =
        moduleUnit (.rule ⟨name.text, some ⟨x.exprsAt (rulePlace name + 1), guard⟩, [], none, span⟩) unit) ∧
      ∀ d ∈ (x.exprsAt (rulePlace name + 1)).flatMap Expr.declared,
        ∃ p, (parse (moduleText (x.ruleText name)) recovery).concrete.nodesFor d = [p]) ∧
    (∀ (name : Identifier .ident) (recovery : Recovery),
      (parse (moduleText (x.methodText name)) recovery).diagnostics = [] ∧
      (∃ guard span unit, (parse (moduleText (x.methodText name)) recovery).root =
        moduleUnit (.method ⟨none, name.text, [], some ⟨x.exprsAt (methodPlace name + 1), guard⟩, .stmts .action [], none,
          span⟩) unit) ∧
      ∀ d ∈ (x.exprsAt (methodPlace name + 1)).flatMap Expr.declared,
        ∃ p, (parse (moduleText (x.methodText name)) recovery).concrete.nodesFor d = [p]) ∧
    ∀ t f : ExprText,
      (∃ predicate first span, parseExpression (x.conditionalText t f) =
        .ok ⟨.cond ⟨x.exprsAt 0, predicate⟩ ⟨(t.expr.move (· + (x.size + 3))).form, first⟩
          (f.expr.move (· + (x.size + t.size + 8))), span⟩) ∧
      ∀ d ∈ (x.exprsAt 0).flatMap Expr.declared,
        (recordedIn (withGrammar fun g => g.expr 0) (x.conditionalText t f)).count d = 1 := by
  refine ⟨fun dialect s => ?_, fun name recovery => ?_, fun name recovery => ?_, fun t f => ?_⟩
  · obtain ⟨guard, span, hread⟩ := x.parse_if s
    exact ⟨⟨guard, span, hread⟩, fun d hd => count_recordedIn_stmt hread (declared_cond hd)⟩
  · obtain ⟨hclean, guard, span, unit, hroot⟩ := x.parse_rule name recovery
    refine ⟨hclean, ⟨guard, span, unit, hroot⟩, fun d hd => exists_node_of_member hroot ?_⟩
    rw [← Expr.declaredIn_eq] at hd
    exact List.mem_append_left _ (List.mem_append_left _ hd)
  · obtain ⟨hclean, guard, span, unit, hroot⟩ := x.parse_method name recovery
    refine ⟨hclean, ⟨guard, span, unit, hroot⟩, fun d hd => exists_node_of_member hroot ?_⟩
    rw [← Expr.declaredIn_eq] at hd
    exact List.mem_append_left _ (List.mem_append_left _ hd)
  · obtain ⟨predicate, first, span, hread⟩ := x.parse_conditional t f
    refine ⟨⟨predicate, first, span, hread⟩, fun d hd => count_recordedIn_expr hread ?_⟩
    rw [← Expr.declaredIn_eq] at hd
    exact List.mem_append_left _ (List.mem_append_left _ hd)

/-- A conditional. -/
def ExprText.plainConditional : ExprText :=
  ⟨"a ? b : c", ⟨.cond ⟨[⟨.var "a", ⟨0, 1⟩⟩], ⟨0, 1⟩⟩ ⟨.var "b", ⟨4, 5⟩⟩ ⟨.var "c", ⟨8, 9⟩⟩, ⟨0, 9⟩⟩, rfl⟩

/-- A block with a function inside it. -/
def ExprText.definingBlock : ExprText where
  text := "begin function a f(); endfunction f end"
  expr := ⟨.valueBlock ⟨none, none⟩
    [⟨.function ⟨⟨.var "a", ⟨15, 16⟩⟩, "f", [], .stmts .functionBody [], none, ⟨6, 33⟩⟩, ⟨6, 33⟩⟩] ⟨.var "f", ⟨34, 35⟩⟩,
    ⟨0, 39⟩⟩
  read := rfl

/-- Two conditions: a conditional in parentheses, and a block with a function inside it. -/
def ConditionTexts.nested : ConditionTexts where
  first := ExprText.plainConditional.parens
  others := [.definingBlock]
  plain := List.forall_mem_cons.mpr ⟨ExprText.isConditional_parens _, List.forall_mem_singleton.mpr rfl⟩

/-- As the guard of a rule they have one node for the function. -/
theorem condition_chains_nested :
    (⟨.functionDef, ⟨41, 68⟩⟩ : NodeSpan) ∈ (ConditionTexts.nested.exprsAt 18).flatMap Expr.declared ∧
      ∃ p, (parse (moduleText (ConditionTexts.nested.ruleText (.letter 'r' rfl rfl))) .collectAll).concrete.nodesFor
        ⟨.functionDef, ⟨41, 68⟩⟩ = [p] := by
  have hmem : (⟨.functionDef, ⟨41, 68⟩⟩ : NodeSpan) ∈ (ConditionTexts.nested.exprsAt 18).flatMap Expr.declared := by
    decide +kernel
  exact ⟨hmem, ((condition_chains .nested).2.1 (.letter 'r' rfl rfl) .collectAll).2.2 _ hmem⟩

end Bluespec
