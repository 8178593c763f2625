import Bluespec.Proofs.FailureReports
import Bluespec.Proofs.RepeatedRuns
import Bluespec.Proofs.ReportedUnits

/-!
# Stopping at the first problem

Where only the first problem is wanted, every loop stops once there is one.  So the run goes with the one that collects
all problems up to the first of them, and that one stays at the bottom of what both report.  The only way apart is a
chain of conditions that is tried: if something in it is reported, one run may take the chain and the other one may not,
and what a chain that is not taken has reported is forgotten.

* **`Parser.EndAlike`** — how the two runs end: in the same way without diagnostics, or with the same diagnostic first.
* **`ChainsAgree`** — at no place of a source the two runs differ in whether they take a chain;
  **`chainsAgree_of_no_question`** — as where no question mark stands behind an operator that joins conditions.
* **`Parser.inherited_agreeing`** — then the two runs agree, for all parsers.
* **`parse_first_error`** — what the two modes report for a source.
-/

namespace Bluespec

namespace Parser

open Grade Mark

variable {α β : Type} {c c' : Setting} {s s' : State}

/-! ## Two runs -/

/-- Two runs end in the same way without diagnostics, or with the same diagnostic first. -/
inductive EndAlike : Option α × State → Option α × State → Prop
  | same {out : Option α × State} (h : out.2.diagnostics = []) : EndAlike out out
  | apart {out out' : Option α × State} (d : Diagnostic) (h : [d] <:+ out.2.diagnostics)
      (h' : [d] <:+ out'.2.diagnostics) : EndAlike out out'

namespace EndAlike

theorem refl (out : Option α × State) : EndAlike out out := by
  by_cases h : out.2.diagnostics = []
  · exact .same h
  · have hfirst : [out.2.diagnostics.getLast h] <:+ out.2.diagnostics := ⟨_, List.dropLast_concat_getLast h⟩
    exact .apart _ hfirst hfirst

theorem of_eq {out out' : Option α × State} (h : out = out') : EndAlike out out' := h ▸ refl out

/-- What one run reports first, the other one reports too. -/
theorem first_mem {out out' : Option α × State} (h : EndAlike out out') (hne : out'.2.diagnostics ≠ []) :
    out'.2.diagnostics.getLast hne ∈ out.2.diagnostics := by
  cases h with
  | same => exact List.getLast_mem hne
  | apart d hd hd' =>
    rw [← hd'.getLast (List.cons_ne_nil d [])]
    exact hd.mem List.mem_cons_self

/-- A parser that adds nothing to what another one reports. -/
theorem map {p : Parser α} {q : Parser β} (hp : EndAlike (p c s) (p c' s))
    (hsame : p c s = p c' s → q c s = q c' s)
    (hq : ∀ c, (q c s).2.diagnostics = (p c s).2.diagnostics) : EndAlike (q c s) (q c' s) := by
  generalize hout : p c s = out at *
  generalize hout' : p c' s = out' at *
  cases hp with
  | same h => exact .of_eq (hsame rfl)
  | apart d h h' =>
    rw [← hout, ← hq] at h
    rw [← hout', ← hq] at h'
    exact .apart d h h'

/-- Two parsers in a row: what is reported first stays first. -/
theorem bind {p : Parser α} {f : α → Parser β} (hp : EndAlike (p c s) (p c' s))
    (hmoves : (p c s).2.Moves ((p >>= f) c s).2) (hmoves' : (p c' s).2.Moves ((p >>= f) c' s).2)
    (hf : ∀ a s₁, p c s = (some a, s₁) → s₁.diagnostics = [] → EndAlike (f a c s₁) (f a c' s₁)) :
    EndAlike ((p >>= f) c s) ((p >>= f) c' s) := by
  generalize hout : p c s = out at *
  generalize hout' : p c' s = out' at *
  cases hp with
  | apart d h h' => exact .apart d (h.trans hmoves.diagnostics) (h'.trans hmoves'.diagnostics)
  | same h =>
    obtain ⟨r, s₁⟩ := out
    cases r with
    | none => rw [bind_of_none hout, bind_of_none hout']; exact .same h
    | some a => rw [bind_of_some hout, bind_of_some hout']; exact hf a s₁ rfl h

/-- Parsers that are both taken, or both taken back. -/
theorem tentatively {p : Parser α} (hp : EndAlike (p c s) (p c' s)) (hmoves : s.Moves (p c s).2)
    (hmoves' : s.Moves (p c' s).2) (htakes : (p c s).1.isSome = (p c' s).1.isSome) :
    EndAlike (tentatively p c s) (tentatively p c' s) := by
  rcases hrun : p c s with ⟨_ | a, s₁⟩ <;> rcases hrun' : p c' s with ⟨_ | a', s₁'⟩ <;>
    rw [hrun, hrun'] at hp htakes <;> rw [hrun] at hmoves <;> rw [hrun'] at hmoves'
  · rw [tentatively_of_none hmoves hrun, tentatively_of_none hmoves' hrun']
    exact refl _
  · cases htakes
  · cases htakes
  · rw [tentatively_of_some hrun, tentatively_of_some hrun']
    cases hp with
    | same h => exact refl _
    | apart d h h' => exact .apart d h h'

end EndAlike

/-! ## Chains of conditions -/

/-- Among some tokens, wherever nothing has been reported, a chain of conditions is taken where all problems are
collected exactly if it is taken where only the first one is wanted. -/
def TakesAlike (sourceEnd : Nat) (tokens : List Token) : Prop :=
  ∀ s : State, s.tokens = tokens → s.diagnostics = [] →
    (withGrammar Grammar.conjunctsOfConditional ⟨sourceEnd, .collectAll⟩ s).1.isSome =
      (withGrammar Grammar.conjunctsOfConditional ⟨sourceEnd, .firstError⟩ s).1.isSome

/-- The two runs over some tokens agree wherever they start without diagnostics. -/
def agreeing (sourceEnd : Nat) (tokens : List Token) : Trait := fun _ γ _ p _ _ =>
  ∀ s, γ.Admits s → s.tokens = tokens → s.diagnostics = [] →
    EndAlike (p ⟨sourceEnd, .collectAll⟩ s) (p ⟨sourceEnd, .firstError⟩ s)

theorem diagnostics_resuming {p : Parser α} : (resuming p c s).2.diagnostics = (p c s).2.diagnostics := by
  rw [resuming]
  rcases p c s with ⟨_ | a, s'⟩
  · exact diagnostics_resumeState s s'
  · rfl

/-- What comes second only moves on from where the first parser has ended. -/
theorem moves_bind {p : Parser α} {f : α → Parser β}
    (hf : ∀ a s₁, p c s = (some a, s₁) → s₁.Moves (f a c s₁).2) : (p c s).2.Moves ((p >>= f) c s).2 := by
  rw [bind_apply]
  rcases hrun : p c s with ⟨_ | a, s₁⟩
  · exact .refl s₁
  · exact hf a s₁ hrun

theorem EndAlike.noting {p : Parser α} (hp : EndAlike (p c s) (p c' s)) (node? : α → Option NodeSpan) :
    EndAlike ((p >>= noting node?) c s) ((p >>= noting node?) c' s) := by
  have hnoting : ∀ a, Moving (Parser.noting node? a) := by
    intro a
    unfold Parser.noting
    cases node? a with
    | none => exact .value a
    | some m => exact (Moving.record _ _).bind fun _ => .value a
  refine hp.bind (moves_bind fun a s₁ _ => hnoting a _ s₁) (moves_bind fun a s₁ _ => hnoting a _ s₁) fun a s₁ _ _ => ?_
  unfold Parser.noting
  cases node? a <;> exact refl _

/-- Whether a chain is taken is told by the run over its conditions. -/
theorem conjuncts_of_eq {g : Grammar}
    (h : g.furtherConjuncts (conditionalPower + 1) c s = g.furtherConjuncts (conditionalPower + 1) c' s) :
    g.conjunctsOfConditional c s = g.conjunctsOfConditional c' s := by
  rcases hrun : g.furtherConjuncts (conditionalPower + 1) c s with ⟨_ | es, s'⟩
  · rw [conjuncts_of_none hrun, conjuncts_of_none (h ▸ hrun)]
  · rw [conjuncts_of_some hrun, conjuncts_of_some (h ▸ hrun)]

/-- A chain is read in the same way with any grammar that has enough levels. -/
theorem conjuncts_of_deep {g : Grammar} {n : Nat} (hg : g.Deep n) (hs : s.rest.length ≤ n) :
    g.conjunctsOfConditional c s = withGrammar Grammar.conjunctsOfConditional c s := by
  have hadmits : (free (s.rest.length + 1) true).Admits s := ⟨Nat.lt_succ_self _, trivial⟩
  refine conjunctsOfConditional_congr ?_
  cases hg with
  | upTo h =>
    have hlevel := Inherited.level inherited_sameRuns (Nat.le_trans hs h) (Nat.le_refl s.rest.length)
    exact (closed_sameRuns.furtherConjuncts hlevel _).sameRun hadmits
  | full => exact ((closed_sameRuns.furtherConjuncts (level_full (Nat.le_refl _)) _).sameRun hadmits).symm

variable {sourceEnd : Nat} {tokens : List Token}

theorem closed_agreeing : Closed (agreeing sourceEnd tokens) where
  vacuous hbound s hs := absurd hs.1 (by rw [hbound]; exact Nat.not_lt_zero _)
  weaken hγ hp s hs := hp s (hγ.admits s hs)
  value _ s _ _ _ := .refl _
  failure _ s _ _ _ := .refl _
  looks hq hf s hs htokens hclean := by
    rw [bind_apply, bind_apply, hq, hq]
    exact (hf _).trait s ⟨hs.1, hs.2, sourceEnd, rfl⟩ htokens hclean
  reports hr s _ _ _ := .of_eq (by rw [hr.run, hr.run])
  skips s _ _ _ := .refl _
  eats s _ _ _ := .refl _
  binds hp hf s hs htokens hclean := by
    have hmoves := fun c => moves_bind fun a s₁ hrun => ((hf a).steady c s₁ (hp.steady.after hs hrun)).1
    refine .bind (hp.trait s hs htokens hclean) (hmoves _) (hmoves _) fun a s₁ hrun hclean₁ => ?_
    exact (hf a).trait s₁ (hp.steady.after hs hrun) ((hp.steady.moves hs hrun).tokens.trans htokens) hclean₁

theorem inherited_agreeing (hchains : TakesAlike sourceEnd tokens) : Inherited (agreeing sourceEnd tokens) where
  toClosed := closed_agreeing
  discards _ hp := hp
  halts _ hfalse s hs htokens hclean := by
    have hruns : ∀ c, halted c s = (some false, s) := fun c => congrArg (fun b => (some b, s)) (halts_of_clean hclean)
    rw [bind_of_some (hruns _), bind_of_some (hruns _)]
    exact hfalse.trait s hs htokens hclean
  attempts hp s hs htokens hclean := (hp.trait s hs htokens hclean).map (fun h => by rw [attempt, attempt, h]) fun _ => rfl
  resumes hp s hs htokens hclean :=
    (hp.trait s hs htokens hclean).map (fun h => by rw [resuming, resuming, h]) fun _ => diagnostics_resuming
  looksAhead hplain _ _ s _ _ _ := by
    refine .of_eq ?_
    rw [lookahead, lookahead, hplain ⟨sourceEnd, .collectAll⟩ ⟨sourceEnd, .firstError⟩ s rfl]
  records _ _ hp s hs htokens hclean := (hp.trait s hs htokens hclean).noting _
  lists s _ _ _ := .of_eq rfl
  chains hg hread s hs htokens hclean := by
    have hmoves := fun c => conjuncts_state (c := c) ▸ (hread.steady c s hs).1
    have hconjuncts := (hread.trait s hs htokens hclean).map conjuncts_of_eq fun _ =>
      congrArg State.diagnostics conjuncts_state
    refine hconjuncts.tentatively (hmoves _) (hmoves _) ?_
    rw [conjuncts_of_deep hg (Nat.le_of_lt_succ hs.1), conjuncts_of_deep hg (Nat.le_of_lt_succ hs.1)]
    exact hchains s htokens hclean

end Parser

/-! ## Places of a source -/

open Bluespec.Parser

variable {source : String} {recovery : Recovery}

/-- At no place of a source it matters for a chain of conditions whether all problems are wanted or only the first one:
the chain is taken in both modes or in neither. -/
def ChainsAgree (source : String) : Prop :=
  ∀ i ≤ (Token.significant source).length,
    (withGrammar Grammar.conjunctsOfConditional (.ofText source .collectAll) ((State.ofText source).advance i)).1.isSome =
      (withGrammar Grammar.conjunctsOfConditional (.ofText source .firstError) ((State.ofText source).advance i)).1.isSome

instance : DecidablePred ChainsAgree := fun source =>
  inferInstanceAs (Decidable (∀ i ≤ (Token.significant source).length, _ = _))

/-- Where nothing has been reported, what has been recorded does not matter for a chain. -/
theorem isSome_conjuncts {s : State} (htokens : s.tokens = Token.significant source) (hclean : s.diagnostics = []) :
    (withGrammar Grammar.conjunctsOfConditional (.ofText source recovery) s).1.isSome =
      (withGrammar Grammar.conjunctsOfConditional (.ofText source recovery)
        ((State.ofText source).advance s.consumed.length)).1.isSome := by
  obtain ⟨cs, rest, ds, ns⟩ := s
  subst hclean
  have hplace : (State.ofText source).advance cs.length = ⟨cs, rest, [], []⟩ := by
    have hadvance := State.advance_length [] cs.reverse rest [] []
    rw [List.length_reverse, List.reverse_reverse, List.append_nil] at hadvance
    rw [← hadvance]
    exact congrArg (fun ts => State.advance ⟨[], ts, [], []⟩ cs.length) htokens.symm
  have hself := ((alike_self source recovery).advance cs.length).1
  rw [hplace] at hself ⊢
  have hnodes : Alike ⟨id, fun _ => True, id⟩ (.ofText source recovery) ⟨cs, rest, [], []⟩ (.ofText source recovery)
      ⟨cs, rest, [], ns⟩ := ⟨hself.sourceEnd, hself.recovery, hself.consumed, hself.rest, hself.diagnostics, hself.ordered,
    hself.inside, hself.starts, hself.startsEnd, hself.lastEnd, hself.behind, hself.inTurn⟩
  have hrel := (Tracks.withGrammar (fun level => (Grammar.Tracked.upTo _ level).conjunctsOfConditional) _ _ _ _ hnodes
    (Nat.zero_le _)).1
  rw [Tracks.rel_by.mp hrel, Option.isSome_map]

theorem takesAlike_of_chainsAgree (h : ChainsAgree source) :
    TakesAlike (Text.byteSize source.toList) (Token.significant source) := by
  intro s htokens hclean
  have hle : s.consumed.length ≤ (Token.significant source).length := by
    rw [← htokens, State.tokens, List.length_append, List.length_reverse]
    exact Nat.le_add_right _ _
  exact (isSome_conjuncts htokens hclean).trans ((h _ hle).trans (isSome_conjuncts htokens hclean).symm)

/-- A chain that is taken begins with an operator that joins conditions, and a question mark comes behind it. -/
theorem question_of_conjuncts {c : Setting} {s s' : State} {es : List Expr}
    (h : withGrammar Grammar.conjunctsOfConditional c s = (some es, s')) :
    ∃ t ts, s.rest = t :: ts ∧ t.kind = .punct .ampAmpAmp ∧ ∃ u ∈ ts, u.kind = .punct .question := by
  rw [← conjuncts_of_deep .full (Nat.le_refl _)] at h
  obtain ⟨hread, hne, hpeek⟩ := Grammar.conjunctsOfConditional_eq_some.mp h
  rcases Confined.eat_cases (.punct .ampAmpAmp) c s with ⟨t, ts, hrest, hk, -⟩ | ⟨hhead, -⟩
  · rw [Grammar.furtherConjuncts_of_and hrest hk] at hread
    have hmoves : Moving (Grammar.full.innerExpr (conditionalPower + 1) >>= fun e =>
        Grammar.full.furtherConjuncts (conditionalPower + 1) >>= fun es => pure (e :: es)) :=
      (Grammar.onward_full.expr _).bind fun e => (Grammar.onward_full.furtherConjuncts _).bind fun es => .value _
    have hbehind : s.step.rest = ts := (List.cons.inj (hrest.symm.trans (State.Took.step hrest).rest)).2.symm
    obtain ⟨u, hu, hquestion⟩ := Option.map_eq_some_iff.mp hpeek
    refine ⟨t, ts, hrest, hk, u, ?_, hquestion⟩
    rw [← hbehind]
    exact (hmoves.of_run hread).rest.mem (List.mem_of_mem_head? hu)
  · rw [Grammar.furtherConjuncts_of_head hhead] at hread
    cases hread
    exact absurd rfl hne

/-- No chain is taken where no question mark is behind an operator that joins conditions. -/
theorem chainsAgree_of_no_question
    (h : (Token.significant source).Pairwise fun t u => t.kind = .punct .ampAmpAmp → u.kind ≠ .punct .question) :
    ChainsAgree source := by
  have hnone : ∀ c i, (withGrammar Grammar.conjunctsOfConditional c ((State.ofText source).advance i)).1 = none := by
    intro c i
    rcases hrun : withGrammar Grammar.conjunctsOfConditional c ((State.ofText source).advance i) with ⟨_ | es, s'⟩
    · rfl
    · obtain ⟨t, ts, hrest, ht, u, hu, hquestion⟩ := question_of_conjuncts hrun
      have hsuffix : t :: ts <:+ Token.significant source := by
        rw [← hrest, State.advance_rest]
        exact List.drop_suffix i _
      exact absurd hquestion (List.rel_of_pairwise_cons (h.sublist hsuffix.sublist) hu ht)
  exact fun i _ => by rw [hnone, hnone]

/-! ## Whole sources -/

/-- A problem with the text of a token is the first one, whatever else there is. -/
theorem parse_of_lexical {e : LexicalError} {es : List LexicalError} (h : LexicalError.ofText source = e :: es) :
    (parse source .firstError).diagnostics = [.ofLexicalError e] ∧
      Diagnostic.ofLexicalError e ∈ (parse source .collectAll).diagnostics := by
  unfold parse
  rw [h]
  refine ⟨Diagnostic.sortByStart_singleton _, ?_⟩
  exact (Diagnostic.sortByStart_perm _).mem_iff.mpr (List.mem_append_left _ List.mem_cons_self)

/-- Where the text of every token is right, the problem that is reported first is the only one. -/
theorem parse_of_first {d : Diagnostic} (hlexical : LexicalError.ofText source = [])
    (h : [d] <:+ (sourceUnit (.ofText source .firstError) (.ofText source)).2.diagnostics) :
    (parse source .firstError).diagnostics = [d] := by
  obtain ⟨later, hlater⟩ := h
  unfold parse
  dsimp only
  rw [hlexical, if_neg (fun hstops => by cases hstops.2), ← hlater]
  show Diagnostic.sortByStart (([] ++ (later ++ [d]).reverse).take 1) = [d]
  rw [List.reverse_append, List.nil_append]
  exact Diagnostic.sortByStart_singleton d

/-- A source without diagnostics in either mode has none in the other one, and then both modes give the same trees.
Otherwise there is exactly one diagnostic where only the first one is wanted; and where it does not matter for the chains
of conditions in which mode they are read, it is one of those that are collected. -/
theorem parse_first_error (source : String) :
    ((parse source .firstError).diagnostics = [] ↔ (parse source .collectAll).diagnostics = []) ∧
    ((parse source .collectAll).diagnostics = [] → parse source .firstError = parse source .collectAll) ∧
    ((parse source .collectAll).diagnostics ≠ [] → ∃ d, (parse source .firstError).diagnostics = [d] ∧
      (ChainsAgree source → d ∈ (parse source .collectAll).diagnostics)) := by
  have hclean : (parse source .firstError).diagnostics = [] → (parse source .collectAll).diagnostics = [] := fun h =>
    (congrArg Parsed.diagnostics (parse_eq_of_clean h .collectAll)).trans h
  refine ⟨⟨hclean, fun h => ?_⟩, fun h => parse_eq_of_clean h .firstError, fun hdirty => ?_⟩
  · exact (congrArg Parsed.diagnostics (parse_eq_of_clean h .firstError)).trans h
  cases hlexical : LexicalError.ofText source with
  | cons e es => exact ⟨_, (parse_of_lexical hlexical).1, fun _ => (parse_of_lexical hlexical).2⟩
  | nil =>
    have hreported : (sourceUnit (.ofText source .firstError) (.ofText source)).2.diagnostics ≠ [] := fun h =>
      hdirty (hclean (clean_of_sourceUnit hlexical h))
    have hfirst : [_] <:+ _ := ⟨_, List.dropLast_concat_getLast hreported⟩
    refine ⟨_, parse_of_first hlexical hfirst, fun hchains => ?_⟩
    have hagreeing : Holds (agreeing (Text.byteSize source.toList) (Token.significant source))
        (.free ((State.ofText source).rest.length + 1) false) (fun _ => .nothing) [] sourceUnit sourceUnit
        fun u => [] ++ u.declared := (inherited_agreeing (takesAlike_of_chainsAgree hchains)).sourceUnit
    have hagree : EndAlike (sourceUnit (.ofText source .collectAll) (.ofText source))
        (sourceUnit (.ofText source .firstError) (.ofText source)) :=
      hagreeing.trait (.ofText source) ⟨Nat.lt_succ_self _, trivial⟩ rfl rfl
    rw [(parse_of_sourceUnit hlexical).1]
    exact (Diagnostic.sortByStart_perm _).mem_iff.mpr (List.mem_reverse.mpr (hagree.first_mem hreported))

/-- A chain that is taken, and two problems behind it. -/
theorem parse_first_error_taken_chain :
    ∃ d, (parse "x = a &&& begin b end ? 1 : ;\ny = ;" .firstError).diagnostics = [d] ∧
      d ∈ (parse "x = a &&& begin b end ? 1 : ;\ny = ;" .collectAll).diagnostics := by
  have hdirty : (parse "x = a &&& begin b end ? 1 : ;\ny = ;" .collectAll).diagnostics ≠ [] := fun h => by
    obtain ⟨-, s', hrun, hdone, -⟩ := parse_clean h
    have hrun' := congrArg (·.2.diagnostics) hrun
    exact absurd (hrun'.trans hdone) (by decide +kernel)
  obtain ⟨d, honly, hagree⟩ := (parse_first_error "x = a &&& begin b end ? 1 : ;\ny = ;").2.2 hdirty
  exact ⟨d, honly, hagree (by decide +kernel)⟩

/-- A block within a chain is left at its first problem, so that the chain is not taken where only that problem is
wanted; it is forgotten together with the chain. -/
theorem parse_first_error_forgotten :
    (parse "x = a &&& begin let; 3 end ? b : c;" .firstError).diagnostics =
        [⟨.grammar (.expected (.kind (.punct .semi)) (some (.punct .ampAmpAmp))), ⟨6, 9⟩⟩] ∧
      (parse "x = a &&& begin let; 3 end ? b : c;" .collectAll).diagnostics =
        [⟨.grammar (.expected (.kind .ident) (some (.punct .semi))), ⟨19, 20⟩⟩] := by
  have hlexical : LexicalError.ofText "x = a &&& begin let; 3 end ? b : c;" = [] := by decide +kernel
  have hrun : (sourceUnit (.ofText "x = a &&& begin let; 3 end ? b : c;" .collectAll)
      (.ofText "x = a &&& begin let; 3 end ? b : c;")).2.diagnostics =
        [⟨.grammar (.expected (.kind .ident) (some (.punct .semi))), ⟨19, 20⟩⟩] := by
    decide +kernel
  refine ⟨parse_of_first hlexical (by decide +kernel), ?_⟩
  rw [(parse_of_sourceUnit hlexical).1, hrun]
  exact Diagnostic.sortByStart_singleton _

end Bluespec
