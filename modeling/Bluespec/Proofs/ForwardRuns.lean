import Bluespec.Proofs.Judgement
import Bluespec.Proofs.Running

/-!
# Runs that only move forward

A run keeps the tokens, never moves the cursor back, and puts its diagnostics and its declarations on top of those
that are there.  This holds of every run, whatever the state it starts in and whether it yields a value or not.  A
parser that is tried and rewound only fits in because the runs inside it are like that: rewinding cuts lists to
their old lengths, and what is left is what was there before.

* **`lookahead_eq`**, **`tentatively_of_none`** — rewinding leads back to where such a run started.
* **`Moving`** — a parser of such runs, with one rule for each way to put parsers together, and for types, formals
  and all else that needs no grammar.
* **`atTypedDecl_eq`** — whether a declaration with a type comes next is answered without a trace.
-/

namespace Bluespec

namespace Parser

variable {α β : Type}

/-- Every run moves forward. -/
def Moving (p : Parser α) : Prop := ∀ c (s : State), s.Moves (p c s).2

theorem Moving.of_run {p : Parser α} (h : Moving p) {c : Setting} {s s' : State} {r : Option α}
    (hrun : p c s = (r, s')) : s.Moves s' := by
  have hmoves := h c s
  rw [hrun] at hmoves
  exact hmoves

/-! ## Rewinding -/

section Rewinding

variable {p : Parser α} {c : Setting} {s s' : State}

theorem tentatively_of_some {a : α} (h : p c s = (some a, s')) : tentatively p c s = (some (some a), s') := by
  rw [tentatively, h]

/-- A run that has moved forward and failed is taken back. -/
theorem tentatively_of_none (hmoves : s.Moves s') (h : p c s = (none, s')) : tentatively p c s = (some none, s) := by
  rw [tentatively, h]
  exact congrArg (some none, ·) hmoves.rewind

/-- A run that moves forward is taken back after it has given its answer. -/
theorem lookahead_eq (h : s.Moves (p c s).2) : lookahead p c s = (some (p c s).1, s) :=
  congrArg (some (p c s).1, ·) h.rewind

end Rewinding

/-- Resuming only moves the cursor. -/
theorem State.Moves.resumeState (s s' : State) : s'.Moves (resumeState s s') := by
  unfold Parser.resumeState
  split
  · exact .advance _ _
  · exact .refl _

/-! ## Putting parsers together -/

namespace Moving

variable {p : Parser α} {f : α → Parser β}

/-! ### Values and failure -/

theorem value (a : α) : Moving (pure a) := fun _ s => .refl s

theorem fail : Moving (fail : Parser α) := fun _ s => .refl s

theorem bind (h : Moving p) (hf : ∀ a, Moving (f a)) : Moving (p >>= f) := by
  intro c s
  rw [bind_apply]
  rcases hrun : p c s with ⟨_ | a, s'⟩
  · exact h.of_run hrun
  · exact (h.of_run hrun).trans (hf a c s')

theorem map (h : Moving p) (g : α → β) : Moving (g <$> p) := h.bind fun a => .value (g a)

/-- One of two parsers, and what comes after it. -/
theorem choice {b : Bool} {q : Parser α} (h : Moving p) (hq : Moving q) (hf : ∀ a, Moving (f a)) :
    Moving (if b then p >>= f else q >>= f) := by
  cases b with
  | true => exact h.bind hf
  | false => exact hq.bind hf

/-- A part that may be left out. -/
theorem optional {b : Bool} {f : Option α → Parser β} (h : Moving p) (hf : ∀ r, Moving (f r)) :
    Moving (if b then some <$> p >>= f else pure none >>= f) := (h.map some).choice (value none) hf

/-! ### Looking and reporting -/

theorem look {q : Parser α} (h : ∀ c s, (q c s).2 = s) : Moving q := fun c s => by rw [h]; exact .refl s

theorem ask (f : State → α) : Moving (ask f) := look fun _ _ => rfl

theorem peek : Moving peek := look fun _ _ => rfl

theorem isNext (k : Kind) : Moving (isNext k) := look fun _ _ => rfl

theorem peekSpan : Moving peekSpan := look fun _ _ => rfl

theorem offset : Moving offset := look fun _ _ => rfl

theorem spanFrom (start : Nat) : Moving (spanFrom start) := look fun _ _ => rfl

theorem halted : Moving halted := look fun _ _ => rfl

theorem report (span : Span) (problem : SyntaxProblem) : Moving (report span problem) := fun _ s => .reported s _

theorem reportUnsupported (span : Span) (construct : Construct) : Moving (reportUnsupported span construct) :=
  fun _ s => .reported s _

theorem reportExpected (what : Expectation) : Moving (reportExpected what) := fun _ s => .reported s _

theorem failExpected (what : Expectation) : Moving (failExpected what : Parser α) :=
  (reportExpected what).bind fun _ => fail

theorem reportFail (span : Span) (problem : SyntaxProblem) :
    Moving (Parser.report span problem >>= fun _ => (Parser.fail : Parser α)) := (report _ _).bind fun _ => fail

theorem record (kind : NodeKind) (span : Span) : Moving (record kind span) := fun _ s => .record s _ _

/-- A tree with the span of what was read for it. -/
theorem spanned (start : Nat) (tree : Span → α) : Moving (Parser.spanFrom start >>= fun span => pure (tree span)) :=
  (spanFrom start).bind fun _ => value _

/-! ### Reading -/

theorem skip : Moving skip := fun _ s => .step s

theorem skipExtent (extent : List Token → Nat) : Moving (skipExtent extent) := fun _ s => .advance s _

theorem eat (k : Kind) : Moving (eat k) := by
  intro c s
  obtain ⟨cs, rest, ds, ns⟩ := s
  cases rest with
  | nil => exact .refl _
  | cons t ts =>
    by_cases hk : t.kind = k
    · rw [eat_of_kind hk]
      exact .step ⟨cs, t :: ts, ds, ns⟩
    · rw [show Parser.eat k c ⟨cs, t :: ts, ds, ns⟩ = (some none, ⟨cs, t :: ts, ds, ns⟩) from if_neg hk]
      exact .refl _

theorem accept (k : Kind) : Moving (accept k) := (eat k).bind fun t => .value t.isSome

theorem expect (k : Kind) : Moving (expect k) := by
  refine (eat k).bind fun t => ?_
  cases t with
  | none => exact .failExpected _
  | some t => exact .value t

theorem expectText (k : Kind) : Moving (expectText k) := (expect k).map Token.text

theorem expectPunct (p : Punct) : Moving (expectPunct p) := (expect _).bind fun _ => .value ()

theorem expectKeyword (w : Keyword) : Moving (expectKeyword w) := (expect _).bind fun _ => .value ()

/-! ### Attempts -/

theorem attempt (h : Moving p) : Moving (attempt p) := h

theorem resuming (h : Moving p) : Moving (resuming p) := by
  intro c s
  rw [Parser.resuming]
  rcases hrun : p c s with ⟨_ | a, s₁⟩
  · exact (h.of_run hrun).trans (.resumeState s s₁)
  · exact h.of_run hrun

/-- A parser that is run for its answer moves nothing. -/
theorem lookahead (h : Moving p) : Moving (lookahead p) := look fun c s => by rw [lookahead_eq (h c s)]

/-- A parser that is tried moves forward or moves nothing. -/
theorem tentatively (h : Moving p) : Moving (tentatively p) := by
  intro c s
  rcases hrun : p c s with ⟨_ | a, s₁⟩
  · rw [tentatively_of_none (h.of_run hrun) hrun]
    exact .refl s
  · rw [tentatively_of_some hrun]
    exact h.of_run hrun

/-! ### Loops -/

theorem roundsUpTo {round : α → Parser (Round α β)} (h : ∀ a, Moving (round a)) (limit : Nat) (a : α) :
    Moving (roundsUpTo round limit a) := by
  induction limit generalizing a with
  | zero => exact fail
  | succ limit ih =>
    refine (h a).bind fun r => ?_
    cases r with
    | again a' => exact ih a'
    | done b => exact value b

theorem repeatUntil {round : α → Parser (Round α β)} (h : ∀ a, Moving (round a)) (a : α) :
    Moving (repeatUntil round a) := fun c s => roundsUpTo h _ a c s

theorem separatedUpTo {separator : Punct} (h : Moving p) (limit : Nat) :
    Moving (separatedUpTo separator p limit) := by
  induction limit with
  | zero => exact fail
  | succ limit ih =>
    refine h.bind fun a => (accept _).bind fun more => ?_
    cases more with
    | true => exact ih.bind fun as => value (a :: as)
    | false => exact value [a]

theorem separated {separator : Punct} (h : Moving p) : Moving (separated separator p) :=
  fun c s => h.separatedUpTo _ c s

theorem enclosed {close : Punct} (h : Moving p) : Moving (enclosed close p) := by
  refine (accept _).bind fun closed => ?_
  cases closed with
  | true => exact value []
  | false => exact h.separated.bind fun as => (expectPunct close).bind fun _ => value as

theorem itemsUpTo (h : Moving p) (limit : Nat) : Moving (itemsUpTo p limit) := by
  induction limit with
  | zero => exact fail
  | succ limit ih =>
    refine (ask _).bind fun closes => halted.bind fun halts => ?_
    cases closes || halts with
    | true => exact value []
    | false => exact h.resuming.bind fun a => ih.bind fun as => value (a.toList ++ as)

theorem items (h : Moving p) : Moving (items p) := fun c s => h.itemsUpTo _ c s

/-! ### Labels, attribute instances and headers -/

theorem skipParenthesized : Moving skipParenthesized := by
  refine (isNext _).bind fun opens => ?_
  cases opens with
  | true => exact skipExtent _
  | false => exact value ()

theorem label : Moving label := by
  refine (accept _).bind fun colon => ?_
  cases colon with
  | false => exact value none
  | true =>
    refine (eat _).bind fun name => ?_
    cases name with
    | some t => exact value _
    | none =>
      refine (eat _).bind fun name => ?_
      cases name with
      | some t => exact value _
      | none => exact (reportExpected _).bind fun _ => value none

theorem skipAttributes : Moving skipAttributes := by
  refine repeatUntil (fun _ => (isNext _).bind fun opens => ?_) ()
  cases opens with
  | false => exact value _
  | true =>
    refine offset.bind fun start => (skipExtent _).bind fun _ => ?_
    exact (spanFrom start).bind fun span => (reportUnsupported span _).bind fun _ => value _

theorem abandon (closing : Keyword) : Moving (abandon closing) := by
  refine (skipExtent _).bind fun _ => (accept _).bind fun closed => ?_
  cases closed with
  | true => exact label.bind fun _ => value ()
  | false => exact value ()

theorem header (closing : Keyword) (h : Moving p) : Moving (header closing p) := by
  refine h.attempt.bind fun r => ?_
  cases r with
  | some a => exact value a
  | none => exact (abandon closing).bind fun _ => fail

/-- The closing word of a definition, which is then recorded. -/
theorem ending (closing : Keyword) (kind : NodeKind) (start : Nat) : Moving (Grammar.ending closing kind start) :=
  (expectKeyword closing).bind fun _ => label.bind fun _ => (spanFrom start).bind fun span =>
    (record kind span).bind fun _ => value _

/-- A definition: a header, what is between it and the closing word, and the closing word. -/
theorem definition {γ : Type} {rest : α → Parser β} {closing : Keyword} {kind : NodeKind}
    {tree : α → β → Option Label × Span → γ} (hp : Moving p) (hrest : ∀ a, Moving (rest a)) :
    Moving (Parser.offset >>= fun start => Parser.header closing p >>= fun a => rest a >>= fun b =>
      Grammar.ending closing kind start >>= fun e => pure (tree a b e)) :=
  offset.bind fun start => (hp.header closing).bind fun a => (hrest a).bind fun _ =>
    (ending closing kind start).bind fun _ => value _

/-! ## Types and formals -/

theorem bitBound : Moving bitBound := by
  refine (expect _).bind fun t => ?_
  split
  · exact value _
  · exact reportFail _ _

theorem typeForm {inner : Parser TypeExpr} (h : Moving inner) : Moving (typeForm inner) := by
  refine peek.bind fun k => ?_
  split
  · refine (expectText _).bind fun name => (accept _).bind fun marked => ?_
    cases marked with
    | true =>
      exact (expectPunct _).bind fun _ => h.separated.bind fun _ => (expectPunct _).bind fun _ => value _
    | false => exact value _
  · exact (expectText _).bind fun _ => value _
  · refine (expect _).bind fun t => ?_
    split
    · exact value _
    · exact reportFail _ _
  · refine skip.bind fun _ => (accept _).bind fun bounded => ?_
    cases bounded with
    | true =>
      exact bitBound.bind fun _ => (expectPunct _).bind fun _ => bitBound.bind fun _ => (expectPunct _).bind fun _ =>
        value _
    | false => exact value _
  · exact failExpected _

theorem typeUpTo (limit : Nat) : Moving (typeUpTo limit) := by
  induction limit with
  | zero => exact fail
  | succ limit ih => exact offset.bind fun start => (typeForm ih).bind fun form => spanned start (TypeExpr.mk form)

theorem type : Moving type := fun c s => typeUpTo _ c s

theorem atTypedDecl : Moving atTypedDecl := by
  refine peek.bind fun k => ?_
  split
  · exact (type.bind fun _ => isNext _).lookahead.bind fun _ => value _
  · exact (type.bind fun _ => isNext _).lookahead.bind fun _ => value _
  · exact value _

theorem typeFormal : Moving typeFormal := by
  have hkind : Moving typeFormalKind := by
    refine (accept _).bind fun numeric => ?_
    cases numeric with
    | true => exact value _
    | false => exact (accept _).bind fun _ => value _
  exact offset.bind fun start => hkind.bind fun _ => (expectKeyword _).bind fun _ => (expectText _).bind fun _ =>
    spanned start _

theorem typeFormals : Moving typeFormals :=
  (expectPunct _).bind fun _ => (expectPunct _).bind fun _ => typeFormal.separated.bind fun _ =>
    (expectPunct _).bind fun _ => value _

theorem formal (untyped : Bool) : Moving (formal untyped) := by
  have hrest : ∀ (start : Nat) (type : Option TypeExpr), Moving
      (Parser.expectText .ident >>= fun name => Parser.spanFrom start >>= fun span =>
        pure (Formal.mk type name span)) := fun start _ => (expectText _).bind fun _ => spanned start _
  refine skipAttributes.bind fun _ => offset.bind fun start => ?_
  cases untyped with
  | false => exact (type.map some).bind (hrest start)
  | true =>
    refine (ask _).bind fun bare => ?_
    cases bare with
    | true => exact (value none).bind (hrest start)
    | false => exact (type.map some).bind (hrest start)

theorem formals (untyped : Bool) : Moving (formals untyped) :=
  (expectPunct _).bind fun _ => (formal untyped).enclosed

theorem formalsIfAny (untyped : Bool) : Moving (formalsIfAny untyped) := by
  refine (isNext _).bind fun opens => ?_
  cases opens with
  | true => exact formals untyped
  | false => exact value []

theorem moduleParam : Moving moduleParam :=
  skipAttributes.bind fun _ => offset.bind fun start => (accept _).bind fun _ => type.bind fun _ =>
    (expectText _).bind fun _ => spanned start _

theorem moduleParams : Moving moduleParams := by
  refine (accept _).bind fun marked => ?_
  cases marked with
  | true =>
    exact (expectPunct _).bind fun _ => moduleParam.separated.bind fun _ => (expectPunct _).bind fun _ => value _
  | false => exact value []

theorem moduleArg : Moving moduleArg :=
  skipAttributes.bind fun _ => offset.bind fun start => type.bind fun _ => (eat _).bind fun _ => spanned start _

theorem moduleArgs : Moving moduleArgs := by
  refine (accept _).bind fun opens => ?_
  cases opens with
  | true => exact moduleArg.enclosed
  | false => exact value []

theorem skipProvisos : Moving skipProvisos := by
  refine (isNext _).bind fun follows => ?_
  cases follows with
  | false => exact value ()
  | true =>
    exact offset.bind fun start => skip.bind fun _ => skipParenthesized.bind fun _ => (spanFrom start).bind fun span =>
      reportUnsupported span _

/-! ## What stands at a place -/

theorem permit (dialect : Dialect) (leaf : Leaf) (span : Span) : Moving (permit dialect leaf span) := by
  unfold Parser.permit
  split
  · exact reportFail _ _
  · exact value _

theorem permitSimple (dialect : Dialect) (stmt : SimpleStmt) : Moving (permitSimple dialect stmt) := by
  unfold Parser.permitSimple
  split
  · exact value _
  · exact (permit _ _ _).bind fun _ => value _

theorem failMisplaced (stmt : SimpleStmt) (place : Place) : Moving (failMisplaced stmt place : Parser α) :=
  reportFail _ _

/-! ## Literals and system names -/

theorem literal (k : Kind) : Moving (Grammar.literal k) := by
  refine (expect k).bind fun t => ?_
  split
  · exact value _
  · exact reportFail _ _

theorem systemCall : Moving Grammar.systemCall :=
  offset.bind fun start => skip.bind fun _ => skipParenthesized.bind fun _ => spanFrom start

theorem systemTask (dialect : Dialect) : Moving (Grammar.systemTask dialect) :=
  systemCall.bind fun span => (eat _).bind fun _ => (permit _ _ span).bind fun _ => reportUnsupported span _

/-! ## Headers without expressions -/

theorem functionHeader : Moving Grammar.functionHeader :=
  skip.bind fun _ => type.bind fun _ => (expectText _).bind fun _ => (formalsIfAny false).bind fun _ =>
    skipProvisos.bind fun _ => (expectPunct _).bind fun _ => value _

theorem subinterfaceHeader : Moving Grammar.subinterfaceHeader :=
  skip.bind fun _ => type.bind fun _ => (expectText _).bind fun _ => (expectPunct _).bind fun _ => value _

theorem moduleContext : Moving Grammar.moduleContext := by
  refine (accept _).bind fun opens => ?_
  cases opens with
  | true => exact type.bind fun _ => (expectPunct _).bind fun _ => value _
  | false => exact value none

theorem moduleHeader : Moving Grammar.moduleHeader :=
  skip.bind fun _ => moduleContext.bind fun _ => (expectText _).bind fun _ => moduleParams.bind fun _ =>
    moduleArgs.bind fun _ => skipProvisos.bind fun _ => (expectPunct _).bind fun _ => value _

end Moving

/-! ## Declarations with a type -/

/-- Whether a token can be the first one of a declaration with a type. -/
def startsTyped : Kind → Bool
  | .typeIdent | .keyword .bit => true
  | _ => false

/-- Whether the text of a type comes next, with a name after it. -/
def typeAndName (c : Setting) (s : State) : Bool :=
  match type c s with
  | (some _, s') => s'.isNext .ident
  | (none, _) => false

/-- Whether a declaration with a type comes next is always answered, and what has been read for the answer is taken
back. -/
theorem atTypedDecl_eq (c : Setting) (s : State) :
    atTypedDecl c s = (some ((s.peek.any startsTyped) && typeAndName c s), s) := by
  rw [atTypedDecl, bind_of_some peek_eq]
  have hread : Moving (type >>= fun _ => isNext .ident) := Moving.type.bind fun _ => .isNext _
  have hnamed : (do
      let named ← lookahead do
        let _ ← type
        isNext .ident
      return named.getD false : Parser Bool) c s = (some (typeAndName c s), s) := by
    rw [typeAndName, bind_of_some (lookahead_eq (hread c s)), bind_apply]
    rcases type c s with ⟨_ | ty, s'⟩ <;> rfl
  rcases hpeek : s.peek with _ | k
  · rfl
  · rw [Option.any_some]
    cases k with
    | typeIdent => exact hnamed
    | keyword w =>
      cases w with
      | bit => exact hnamed
      | _ => rfl
    | _ => rfl

end Parser

end Bluespec
