import Bluespec.Proofs.ReportedRuns
import Mathlib.Data.List.Chain

/-!
# Statements in sequence

Texts that are read as one statement each are read as the statements of a block, on lines of their own between the
words of the block.  Only a parenthesis behind an action block without a semicolon is read as a call of the block.

* **`Kind.startsNoStmt`** — tokens with which no statement begins, so that they cannot be mistaken for one.
* **`StmtText`** — a text that is one statement; **`StmtText.Separate`** — the next text does not continue it.
* **`parseStatement_block`** — the block of such texts has their statements.
-/

namespace Bluespec

open Bluespec.Parser

/-! ## First tokens -/

/-- Whether no statement begins with a token of the kind: it closes a block, or goes on with what stands before it. -/
def Kind.startsNoStmt : Kind → Bool
  | .punct .colon | .punct .semi | .punct .lbracket | .punct .dot | .keyword .else_ => true
  | k => k.isCloser

/-- A closing word goes on with no statement. -/
theorem EndsBefore.closing {bare opened : Bool} {rest : List Token} (h : Closing rest) : EndsBefore bare opened rest := by
  intro t ht
  have hcloser := h t ht
  refine ⟨⟨?_, ?_, ?_⟩, fun _ => ?_⟩
  · intro hk
    rw [hk] at hcloser
    cases hcloser
  · intro hk
    rw [hk] at hcloser
    cases hcloser
  · intro _ hk
    rw [hk] at hcloser
    cases hcloser
  · rw [← Bool.not_eq_true]
    intro hsuffix
    rcases Kind.eq_of_startsSuffix hsuffix with hk | hk | hk <;> rw [hk] at hcloser <;> cases hcloser

/-- The first token of a statement goes on with another one only as a parenthesis behind a bare end. -/
theorem EndsBefore.of_starts {bare opened : Bool} {t : Token} (h : t.kind.startsNoStmt = false)
    (hbare : bare = true → t.kind ≠ .punct .lparen) (rest : List Token) : EndsBefore bare opened (t :: rest) := by
  rintro t' ⟨⟩
  have hne : ∀ k : Kind, k.startsNoStmt = true → t.kind ≠ k := by
    intro k hk heq
    rw [heq] at h
    exact Bool.false_ne_true (h.symm.trans hk)
  refine ⟨⟨hne _ rfl, hne _ rfl, fun _ => hne _ rfl⟩, fun hends => ?_⟩
  rw [← Bool.not_eq_true]
  intro hsuffix
  rcases Kind.eq_of_startsSuffix hsuffix with hk | hk | hk
  · exact hbare hends hk
  · exact hne _ rfl hk
  · exact hne _ rfl hk

/-- No colon comes where a statement begins. -/
theorem Parser.Lacks.of_starts {t : Token} (h : t.kind.startsNoStmt = false) (rest : List Token) :
    Lacks (.punct .colon) (t :: rest) := .cons rfl (fun hk => by rw [hk] at h; cases h) rest

theorem Kind.not_isCloser_of_starts {k : Kind} (h : k.startsNoStmt = false) : k.isCloser = false := by
  rw [← Bool.not_eq_true]
  intro hcloser
  cases k with
  | keyword w => cases w <;> first | exact absurd hcloser (by decide) | exact absurd h (by decide)
  | _ => cases hcloser

/-- Where no statement begins, none is read. -/
theorem Grammar.startsNoStmt_of_stmt {g : Grammar} {dialect : Dialect} {c : Setting} {s s' : State} {st : Stmt} {k : Kind}
    (h : g.stmt dialect c s = (some st, s')) (hpeek : s.peek = some k) : k.startsNoStmt = false := by
  rw [← Bool.not_eq_true]
  intro hk
  have hfirst : Inner.startsForm k = false ∧ startsTyped k = false ∧ (g.primary c s).1 = none := by
    rw [Grammar.primary, bind_of_some offset_eq, bind_of_some peek_eq, hpeek]
    cases k with
    | punct p => cases p <;> first | exact absurd hk (by decide) | exact ⟨rfl, rfl, rfl⟩
    | keyword w => cases w <;> first | exact absurd hk (by decide) | exact ⟨rfl, rfl, rfl⟩
    | _ => cases hk
  obtain ⟨hform, htyped, hprimary⟩ := hfirst
  rw [Inner.stmt_of_simple hpeek hform, hpeek, Option.any_some, htyped, Bool.false_and, if_neg Bool.false_ne_true,
    Parser.bind_assoc, Parser.bind_assoc] at h
  obtain ⟨e, s₁, hoperand, -⟩ := bind_eq_some.mp h
  obtain ⟨e₀, s₀, hrun, -⟩ := bind_eq_some.mp hoperand
  rw [hrun] at hprimary
  cases hprimary

/-! ## Tokens of statements -/

/-- Whether a statement ends where its last expression does is the same at another place. -/
theorem Stmt.endsBare_move (k : Nat) (s : Stmt) : (s.move (· + k)).endsBare = s.endsBare := by
  induction s using Stmt.endsBare.induct with
  | case1 e span =>
    show (span.stop + k == (e.move (· + k)).span.stop) = (span.stop == e.span.stop)
    rw [Expr.span_move]
    exact Bool.eq_iff_iff.mpr (by simp [Span.move])
  | case2 predicate a span ih => exact ih
  | case3 predicate a b span ih => exact ih
  | case4 s hexpr hthen helse =>
    obtain ⟨form, span⟩ := s
    cases form with
    | expr e => exact (hexpr e span rfl).elim
    | cond predicate a b =>
      cases b with
      | none => exact (hthen predicate a span rfl).elim
      | some b => exact (helse predicate a b span rfl).elim
    | _ => rfl

/-! ## Blocks -/

/-- A block is read up to its closing word if its statements are. -/
theorem Grammar.comesTo_block {dialect : Dialect} {c : Setting} {opening closing : Token} {cs ts rest : List Token}
    {as : List Stmt} {ds ds' : List Diagnostic} (hopening : opening.kind = .keyword .begin)
    (hclosing : closing.kind = .keyword .end_) (hunlabelled : Lacks (.punct .colon) (ts ++ closing :: rest))
    (hrest : Lacks (.punct .colon) rest)
    (hitems : ComesTo c (items (full.innerStmt dialect)) (opening :: cs) ts ds (some as) ds' (closing :: rest)) :
    ComesTo c (full.block dialect .begin .end_) cs (opening :: (ts ++ [closing])) ds
      (some ⟨⟨none, none⟩, as, ⟨opening.span.start, max closing.span.stop opening.span.start⟩, dialect⟩) ds' rest := by
  have hlabel : ComesTo c label (opening :: cs) [] ds (some none) ds (ts ++ [closing] ++ rest) := by
    rw [List.append_assoc]
    exact .noLabel hunlabelled
  have hspan : ComesTo c (spanFrom opening.span.start) (closing :: (ts.reverse ++ opening :: cs)) [] ds'
      (some ⟨opening.span.start, max closing.span.stop opening.span.start⟩) ds' rest := .spanFrom
  exact .offset (.cons (.expectKeyword hopening) (hlabel.bind (hitems.bind (.cons (.expectKeyword hclosing)
    ((ComesTo.noLabel hrest).then_ (hspan.then_ .value))))))

/-- A text that is read as one statement of a dialect. -/
structure StmtText (dialect : Dialect) where
  /-- The text. -/
  text : String
  /-- The statement. -/
  stmt : Stmt
  /-- The text is read as the statement. -/
  read : parseStatement dialect text = .ok stmt

namespace StmtText

variable {dialect : Dialect}

/-- The second text does not continue the statement of the first one: if that ends with an action block and without a
semicolon, then no parenthesis comes next. -/
def Separate (x y : StmtText dialect) : Prop :=
  x.stmt.endsBare = true → ∀ t ∈ (Token.significant y.text).head?, t.kind ≠ .punct .lparen

/-- The statements of texts on lines of their own, the first of them at `offset`. -/
def stmtsAt (offset : Nat) : List (StmtText dialect) → List Stmt
  | [] => []
  | x :: xs => x.stmt.move (· + offset) :: stmtsAt (offset + Text.byteSize x.text.toList + 1) xs

/-- Texts on lines of their own between the words of a block. -/
def blockLines (xs : List (StmtText dialect)) : List String := "begin" :: (xs.map text ++ ["end"])

/-- The text of a block. -/
def blockText (xs : List (StmtText dialect)) : String := "\n".intercalate (blockLines xs)

theorem lexical (x : StmtText dialect) : LexicalError.ofText x.text = [] := (parseOnly_eq_ok.mp x.read).1

/-- The tokens of a text at an offset. -/
def tokensAt (x : StmtText dialect) (offset : Nat) : List Token :=
  (Token.significant x.text).map (Token.move (· + offset))

/-- A text has a first token, and a statement is read that begins with it. -/
theorem exists_run (x : StmtText dialect) :
    ∃ t us, Token.significant x.text = t :: us ∧
      ∃ c s s', State.peek s = some t.kind ∧ Grammar.full.stmt dialect c s = (some x.stmt, s') := by
  obtain ⟨t, us, hcons⟩ := exists_first_of_parseOnly (fun tokens n => (inner_full tokens n).stmt dialect) x.read
  obtain ⟨-, s', hrun, -⟩ := parseOnly_eq_ok.mp x.read
  have hpeek : State.peek (.ofText x.text) = some t.kind := by
    show Option.map Token.kind (Token.significant x.text).head? = _
    rw [hcons]
    rfl
  replace hrun : Grammar.full.innerStmt dialect _ _ = _ := hrun
  rw [Grammar.innerStmt_eq] at hrun
  exact ⟨t, us, hcons, _, _, s', hpeek, hrun⟩

/-- The first token of a text begins a statement. -/
theorem starts (x : StmtText dialect) (offset : Nat) :
    ∃ t us, x.tokensAt offset = t :: us ∧ t.kind.startsNoStmt = false := by
  obtain ⟨t, us, hcons, _, _, _, hpeek, hrun⟩ := x.exists_run
  refine ⟨t.move (· + offset), us.map (Token.move (· + offset)), ?_, Grammar.startsNoStmt_of_stmt hrun hpeek⟩
  rw [tokensAt, hcons]
  rfl

/-- The tokens of texts on lines of their own are read as their statements. -/
theorem loops_onLines {xs : List (StmtText dialect)} (h : xs.IsChain Separate) {rest : List Token}
    (hrest : ∀ s, StmtStops s rest) (offset : Nat) (cs : List Token) (c : Setting) :
    Loops c (Grammar.full.innerStmt dialect) cs (Token.onLines offset (xs.map text)) [] (stmtsAt offset xs) [] rest := by
  induction xs generalizing offset cs with
  | nil => exact .nil
  | cons x xs ih =>
    have hstops : StmtStops (x.stmt.move (· + offset))
        (Token.onLines (offset + Text.byteSize x.text.toList + 1) (xs.map text) ++ rest) := by
      cases xs with
      | nil => exact hrest _
      | cons y ys =>
        obtain ⟨t, us, hcons, ht⟩ := y.starts (offset + Text.byteSize x.text.toList + 1)
        rw [tokensAt] at hcons
        rw [List.map_cons, Token.onLines, hcons]
        refine EndsBefore.of_starts ht (fun hbare => ?_) _
        rw [Stmt.endsBare_move] at hbare
        obtain ⟨t', ts, htokens, rfl, -⟩ := List.map_eq_cons_iff.mp hcons
        exact h.rel hbare t' (by rw [htokens]; rfl)
    obtain ⟨t, us, hcons, ht⟩ := x.starts offset
    have hread := ComesTo.of_goes (c := c) (Stmt.goes_of_parseStatement x.read offset cs hstops)
    rw [← tokensAt, hcons] at hread
    have hfirst := Loops.read (.inr rfl) (Kind.not_isCloser_of_starts ht) hread
    rw [← hcons] at hfirst
    exact hfirst.append (ih h.tail _ _)

/-- No label comes before statements. -/
theorem lacks_onLines (offset : Nat) (xs : List (StmtText dialect)) {rest : List Token} (hrest : Lacks (.punct .colon) rest) :
    Lacks (.punct .colon) (Token.onLines offset (xs.map text) ++ rest) := by
  cases xs with
  | nil => exact hrest
  | cons x xs =>
    obtain ⟨t, us, hcons, hstarts⟩ := x.starts offset
    rw [tokensAt] at hcons
    rw [List.map_cons, Token.onLines, hcons]
    exact .of_starts hstarts _

end StmtText

/-- A call of a name. -/
def StmtText.plainCall : StmtText .action where
  text := "f(x);"
  stmt := ⟨.expr ⟨.call ⟨.var "f", ⟨0, 1⟩⟩ [⟨.var "x", ⟨2, 3⟩⟩], ⟨0, 4⟩⟩, ⟨0, 5⟩⟩
  read := rfl

end Bluespec
