import Bluespec.Proofs.FaithfulSpans

/-!
# Runs over given tokens

What a text says when it is read alone it says to the parser wherever its tokens stand, as long as nothing that
follows goes on with it.  So a text is read that is put together from such texts and single tokens.

* **`Goes.token`**, **`Goes.look`**, … — single tokens.
* **`goes_separatedUpTo_cons`** — lists.
* **`Expr.goes_of_parseExpression`**, **`Stmt.goes_of_parseStatement`** — the tokens of a text that is one expression
  or one statement.
* **`parseOnly_of_goes_all`** — a text is read as its tokens are.
-/

namespace Bluespec

open Bluespec.Parser

namespace Parser

variable {α β : Type} {p : Parser α} {a : α} {b : β} {cs ts ts' rest : List Token} {t : Token} {limit : Nat}

/-! ## Single tokens -/

theorem Lacks.nil {k : Kind} : Lacks k [] := nofun

theorem Lacks.append {k : Kind} (h : Lacks k ts) (h' : Lacks k rest) : Lacks k (ts ++ rest) := by
  cases ts with
  | nil => exact h'
  | cons t ts => exact h

theorem Lacks.move {k : Kind} {f : Nat → Nat} (h : Lacks k ts) : Lacks k (ts.map (Token.move f)) := by
  cases ts with
  | nil => exact nofun
  | cons t ts =>
    rintro t' ⟨⟩
    exact h t rfl

theorem Lacks.cons {k k' : Kind} (ht : t.kind = k) (hk : k ≠ k') (rest : List Token) : Lacks k' (t :: rest) := by
  rintro t' ⟨⟩
  rw [ht]
  exact hk

namespace Goes

/-- A parser of one token, and one of the tokens after it. -/
theorem cons {f : α → Parser β} (h : Goes p cs [t] a (ts ++ rest)) (h' : Goes (f a) (t :: cs) ts b rest) :
    Goes (p >>= f) cs (t :: ts) b rest := by
  have hboth : Goes (p >>= f) cs ([t] ++ ts) b rest := h.bind h'
  exact hboth

/-- A parser of tokens, and one that only makes something of what was read. -/
theorem then_ {f : α → Parser β} (h : Goes p cs ts a rest) (h' : Goes (f a) (ts.reverse ++ cs) [] b rest) :
    Goes (p >>= f) cs ts b rest := by
  have hboth : Goes (p >>= f) cs (ts ++ []) b rest := h.bind h'
  rwa [List.append_nil] at hboth

theorem expectPunct {symbol : Punct} (h : t.kind = .punct symbol) : Goes (expectPunct symbol) cs [t] () rest :=
  fun _ ns => ⟨ns, expectPunct_of_kind h⟩

theorem expectKeyword {word : Keyword} (h : t.kind = .keyword word) : Goes (expectKeyword word) cs [t] () rest :=
  fun _ ns => ⟨ns, expectKeyword_of_kind h⟩

theorem expectText {k : Kind} (h : t.kind = k) : Goes (expectText k) cs [t] t.text rest :=
  fun _ ns => ⟨ns, expectText_of_kind h⟩

theorem skip : Goes skip cs [t] () rest := fun _ ns => ⟨ns, rfl⟩

theorem accept {k : Kind} (h : t.kind = k) : Goes (accept k) cs [t] true rest := fun _ ns => ⟨ns, accept_of_kind h⟩

theorem accept_of_lacks {k : Kind} (h : Lacks k rest) : Goes (Parser.accept k) cs [] false rest :=
  fun _ ns => ⟨ns, accept_of_head h⟩

/-- Where no colon comes next there is no label. -/
theorem noLabel (h : Lacks (.punct .colon) rest) : Goes label cs [] none rest := (accept_of_lacks h).then_ .value

/-- Attribute instances are skipped where there are none. -/
theorem skipAttributes {f : Unit → Parser β} (hlacks : Lacks (.punct .attrOpen) (ts ++ rest)) (h : Goes (f ()) cs ts b rest) :
    Goes (skipAttributes >>= f) cs ts b rest := .look (fun _ _ => Confined.skipAttributes_of_lacks hlacks) h

/-- What is read is read, if its failure would only be noted. -/
theorem attempt (h : Goes p cs ts a rest) : Goes (attempt p) cs ts (some a) rest := by
  intro c ns
  obtain ⟨ns', hp⟩ := h c ns
  exact ⟨ns', by rw [Parser.attempt, hp]⟩

/-- What is read is read, if reading would resume behind its failure. -/
theorem resuming (h : Goes p cs ts a rest) : Goes (resuming p) cs ts (some a) rest := by
  intro c ns
  obtain ⟨ns', hp⟩ := h c ns
  exact ⟨ns', by rw [Parser.resuming, hp]⟩

/-- What is read of a header is read, if its failure would end the definition. -/
theorem header {closing : Keyword} (h : Goes p cs ts a rest) : Goes (header closing p) cs ts a rest :=
  h.attempt.then_ .value

/-- A declaration is recorded. -/
theorem record {kind : NodeKind} {span : Span} : Goes (record kind span) cs [] () rest := by
  intro c ns
  obtain ⟨ns', hrecord⟩ := State.record_eq ⟨cs, rest, [], ns⟩ kind span
  exact ⟨ns', congrArg (some (), ·) hrecord⟩

/-- The place of the next token. -/
theorem offset {f : Nat → Parser β} (h : Goes (f t.span.start) cs (t :: ts) b rest) :
    Goes (offset >>= f) cs (t :: ts) b rest := .look (fun _ _ => rfl) h

/-- The kind of the next token. -/
theorem peek {f : Option Kind → Parser β} (h : Goes (f (some t.kind)) cs (t :: ts) b rest) :
    Goes (peek >>= f) cs (t :: ts) b rest := .look (fun _ _ => rfl) h

/-- The span that ends with the last token read. -/
theorem spanFrom {start : Nat} : Goes (spanFrom start) (t :: cs) [] ⟨start, max t.span.stop start⟩ rest :=
  fun _ ns => ⟨ns, rfl⟩

/-- What was read, with the span that ends with the last token. -/
theorem spanned {f : α → Span → β} {start : Nat} (h : Goes p cs (ts ++ [t]) a rest) :
    Goes (p >>= fun a => Parser.spanFrom start >>= fun span => pure (f a span)) cs (ts ++ [t])
      (f a ⟨start, max t.span.stop start⟩) rest := by
  refine h.then_ ?_
  rw [List.reverse_append]
  exact Goes.spanFrom.then_ .value

end Goes

/-! ## Lists -/

/-- One item that no separator follows. -/
theorem goes_separatedUpTo_one {separator : Punct} (h : Goes p cs ts a rest) (hrest : Lacks (.punct separator) rest) :
    Goes (separatedUpTo separator p (limit + 1)) cs ts [a] rest :=
  h.then_ ((Goes.accept_of_lacks hrest).then_ .value)

/-- One item before a separator and others. -/
theorem goes_separatedUpTo_cons {separator : Punct} {as : List α} (h : Goes p cs ts a (t :: (ts' ++ rest)))
    (ht : t.kind = .punct separator) (h' : Goes (separatedUpTo separator p limit) (t :: (ts.reverse ++ cs)) ts' as rest) :
    Goes (separatedUpTo separator p (limit + 1)) cs (ts ++ t :: ts') (a :: as) rest :=
  h.bind (Goes.cons (.accept ht) (h'.then_ .value))

end Parser

/-! ## Whole texts -/

variable {α : Type} {production : Parser α} {problem : SyntaxProblem} {text : String} {a : α}

/-- A text without lexical errors whose tokens are all read is read as they are. -/
theorem parseOnly_of_goes_all (hlexical : LexicalError.ofText text = [])
    (h : Goes production [] (Token.significant text) a []) : parseOnly production problem text = .ok a := by
  obtain ⟨ns, hrun⟩ := h (.ofText text .collectAll) []
  rw [List.append_nil] at hrun
  exact parseOnly_eq_ok.mpr ⟨hlexical, _, hrun, rfl, rfl⟩

/-- A text that holds one thing is read alike at another place. -/
theorem run_of_parseOnly {move : α → α} {k : Nat} (htracks : Tracks (.shift k) 0 (By move) production production)
    (h : parseOnly production problem text = .ok a) :
    ∃ s', production ⟨Text.byteSize text.toList + k, .collectAll⟩
        (.start ((Token.significant text).map (Token.move (· + k)))) = (some (move a), s') ∧
      s'.rest = [] ∧ s'.diagnostics = [] := by
  obtain ⟨-, s₁, hrun, hend, hclean⟩ := parseOnly_eq_ok.mp h
  have halike := alike_ofText (.shift k) text .collectAll (fun _ _ => trivial) trivial
  obtain ⟨hrel, hafter, -⟩ := htracks _ _ _ _ halike (Nat.zero_le _)
  rw [hrun] at hrel hafter
  refine ⟨_, Prod.ext (Tracks.rel_by.mp hrel) rfl, hafter.rest.trans ?_, hafter.diagnostics.trans ?_⟩
  · exact List.map_eq_nil_iff.mpr hend
  · exact List.map_eq_nil_iff.mpr hclean

section Confined

variable {stops : α → List Token → Prop} {P : List Token → α → Prop}
  (hconfined : ∀ tokens n, Confined tokens n any true false stops (P tokens) production)

include hconfined

/-- Tokens that are read as one thing when they stand alone are read as this thing wherever they stand, before what does
not continue it. -/
theorem goes_of_run {c : Setting} {ts : List Token} {s' : State} (hrun : production c (.start ts) = (some a, s'))
    (hend : s'.rest = []) (hclean : s'.diagnostics = []) (cs rest : List Token) (hrest : stops a rest) :
    Goes production cs ts a rest := by
  obtain ⟨-, ts', -, hts⟩ := (hconfined _ _).runs _ _ _ _ ⟨Nat.lt_succ_self _, List.suffix_refl _, trivial⟩ hrun hclean
  obtain rfl : ts = ts' := by
    have hall := hts.took.rest
    rwa [hend, List.append_nil] at hall
  exact hts.again cs rest nofun (.inr hrest)

/-- The same for the tokens of a text that holds one thing, at another place. -/
theorem goes_of_parseOnly {move : α → α} {k : Nat} (htracks : Tracks (.shift k) 0 (By move) production production)
    (h : parseOnly production problem text = .ok a) (cs rest : List Token) (hrest : stops (move a) rest) :
    Goes production cs ((Token.significant text).map (Token.move (· + k))) (move a) rest := by
  obtain ⟨s', hrun, hend, hclean⟩ := run_of_parseOnly htracks h
  exact goes_of_run hconfined hrun hend hclean cs rest hrest

/-- A text that holds one thing has a first token. -/
theorem exists_first_of_parseOnly (h : parseOnly production problem text = .ok a) :
    ∃ t us, Token.significant text = t :: us := by
  obtain ⟨-, s', hrun, hend, hclean⟩ := parseOnly_eq_ok.mp h
  obtain ⟨-, ts, -, hts⟩ := (hconfined _ _).runs _ _ _ _ ⟨Nat.lt_succ_self _, List.suffix_refl _, trivial⟩ hrun hclean
  have hall := hts.took.rest
  rw [hend, List.append_nil] at hall
  obtain ⟨t, us, hcons⟩ := List.exists_cons_of_ne_nil (hts.reads rfl)
  exact ⟨t, us, hall.trans hcons⟩

end Confined

theorem Grammar.tracks_expr (k : Nat) : Tracks (.shift k) 0 (By (Expr.move (· + k))) (full.innerExpr 0)
    (full.innerExpr 0) :=
  .withGrammar fun level => ((Grammar.Tracked.upTo _ level).expr 0).weaken (Nat.le_refl 0) fun _ _ _ _ he => he.1

theorem Grammar.tracks_stmt (k : Nat) (dialect : Dialect) : Tracks (.shift k) 0 (By (Stmt.move (· + k)))
    (full.innerStmt dialect) (full.innerStmt dialect) :=
  .withGrammar fun level => (Grammar.Tracked.upTo _ level).stmt dialect

/-- The tokens of a text that is one expression are read as this expression wherever they stand. -/
theorem Expr.goes_of_parseExpression {e : Expr} (h : parseExpression text = .ok e) (k : Nat) (cs : List Token)
    {rest : List Token} (hrest : ExprStops 0 rest) :
    Goes (Grammar.full.innerExpr 0) cs ((Token.significant text).map (Token.move (· + k))) (e.move (· + k)) rest :=
  goes_of_parseOnly (fun tokens n => (inner_full tokens n).expr 0) (Grammar.tracks_expr k) h cs rest hrest

/-- The tokens of a text that is one statement are read as this statement wherever they stand. -/
theorem Stmt.goes_of_parseStatement {dialect : Dialect} {s : Stmt} (h : parseStatement dialect text = .ok s) (k : Nat)
    (cs : List Token) {rest : List Token} (hrest : StmtStops (s.move (· + k)) rest) :
    Goes (Grammar.full.innerStmt dialect) cs ((Token.significant text).map (Token.move (· + k))) (s.move (· + k)) rest :=
  goes_of_parseOnly (fun tokens n => (inner_full tokens n).stmt dialect) (Grammar.tracks_stmt k dialect) h cs rest hrest

end Bluespec
