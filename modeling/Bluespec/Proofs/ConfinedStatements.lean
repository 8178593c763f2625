import Bluespec.Proofs.ConfinedOperators
import Bluespec.Proofs.PermittedStatements

/-!
# Lists, predicates and simple statements are confined

* **`Inner.fieldBinds`**, **`Inner.concatItems`** — bracketed lists.
* **`Inner.parenPredicate`** — conditions that must all hold.
* **`Inner.simpleTail`**, **`Inner.letStmt`**, **`Inner.typedStmt`** — the parts of simple statements.
-/

namespace Bluespec

open Bluespec.Parser

namespace Parser

variable {β : Type} {tokens : List Token} {n : Nat} {H : Option Kind → Prop} {r u : Bool} {F : β → List Token → Prop}
  {Q : β → Prop}

/-! ## Permission -/

theorem Confined.permit {dialect : Dialect} {leaf : Leaf} {span : Span} {f : Unit → Parser β}
    (hf : Confined tokens n H r u F Q (f ())) :
    Confined tokens n H r u F Q (Parser.permit dialect leaf span >>= f) := by
  unfold Parser.permit
  cases dialect.permits leaf with
  | true => exact hf
  | false =>
    refine .dirty (.bind ((Moving.report _ _).bind fun _ => .fail) fun _ => hf.moves) ?_
    exact ((Complains.report _ _).bind fun _ => .fail).bind fun _ => hf.moves

theorem Confined.permitSimple {dialect : Dialect} {stmt : SimpleStmt} {f : StmtForm → Parser β}
    (hf : Confined tokens n H r u F Q (f stmt.form)) :
    Confined tokens n H r u F Q (Parser.permitSimple dialect stmt >>= f) := by
  unfold Parser.permitSimple
  split
  · exact hf
  · rw [bind_assoc]
    exact .permit hf

end Parser

namespace Inner

variable {tokens : List Token} {n : Nat} {H : Option Kind → Prop} {u : Bool}

/-! ## Bracketed lists -/

theorem fieldBind (h : Inner tokens n) : Confined tokens n any true true (fun _ => ExprStops 0)
    (fun m => AllSites (Site.Alone tokens) m.sites) Grammar.full.fieldBind := by
  refine .offset fun start => ?_
  refine .seq true .any (.expectText rfl) fun field => ?_
  refine .seq true .any (.expectPunct rfl) fun _ => ?_
  exact .keep false .same (h.expr 0).part fun value => .spanned fun span hvalue => hvalue

theorem fieldBinds (h : Inner tokens n) : Confined tokens n H true u anything
    (fun ms => ∀ m ∈ ms, AllSites (Site.Alone tokens) m.sites) Grammar.full.fieldBinds := by
  refine .seq true .any (.expectPunct rfl) fun _ => ?_
  refine .keep true .reads (.separated h.fieldBind rfl) fun members => ?_
  exact .seq false .any (.expectPunct rfl) fun _ => .ret id

theorem concatItems (h : Inner tokens n) : Confined tokens (n + 1) H true u anything
    (fun es => ∀ e ∈ es, AllSites (Site.Alone tokens) e.sites) Grammar.full.concatItems := by
  refine .enter true .any (.expectPunct rfl) fun _ => ?_
  refine .keep true .reads (.separated (h.expr 0).part rfl) fun items => ?_
  exact .seq false .any (.expectPunct rfl) fun _ => .ret id

/-! ## Predicates -/

/-- One condition, and further ones. -/
def conjuncts (g : Grammar) : Parser (List Expr) := do
  let first ← g.innerExpr 0
  let others ← g.furtherConjuncts 0
  return first :: others

theorem conjuncts_confined (h : Inner tokens n) : Confined tokens n any true true never
    (fun es => ∀ e ∈ es, AllSites (Site.Alone tokens) e.sites) (conjuncts Grammar.full) where
  moves := (h.expr 0).moves.bind fun _ => (Grammar.onward_full.furtherConjuncts 0).bind fun _ => .value _
  fails c s s' hs hrun := by
    rcases hfirst : Grammar.full.innerExpr 0 c s with ⟨_ | e, s₁⟩
    · rw [conjuncts, bind_of_none hfirst] at hrun
      cases hrun
      exact (h.expr 0).fails c s s' hs hfirst
    · rw [conjuncts, bind_of_some hfirst] at hrun
      have hsteady := steady_furtherConjuncts 0 s₁.rest.length
      rcases hmore : Grammar.full.furtherConjuncts 0 c s₁ with ⟨_ | es, s₂⟩
      · rw [bind_of_none hmore] at hrun
        cases hrun
        exact hsteady.dirty ⟨Nat.lt_succ_self _, trivial⟩ hmore
      · rw [bind_of_some hmore] at hrun
        cases hrun
  runs c s es s' hs hrun hclean := by
    obtain ⟨e, s₁, hfirst, hrun⟩ := bind_eq_some.mp hrun
    obtain ⟨es', s₂, hmore, hrun⟩ := bind_eq_some.mp hrun
    obtain ⟨rfl, rfl⟩ := pure_eq_some.mp hrun
    have hmoves : s₁.Moves s₂ := (Grammar.onward_full.furtherConjuncts 0).of_run hmore
    obtain ⟨hsites, ts, hcommon, hts⟩ := (h.expr 0).runs c s e s₁ hs hfirst (hmoves.clean hclean)
    have hlater := hs.later hts.took (Nat.le_add_right n ts.length)
    obtain ⟨ts', hts'⟩ := h.conditionsBelow hlater.bound hlater.within hmore hclean
    have hnext : ∀ rest, SameNext s₂.rest rest → SameNext s₁.rest (ts' ++ rest) ∨ ExprStops 0 (ts' ++ rest) := fun _ =>
      hts'.next (.inr ⟨rfl, h.dropsElsewhere⟩) hfirst hmore hclean hlater.bound hlater.within
    refine ⟨List.forall_mem_cons.mpr ⟨hsites, hts'.sites⟩, ts ++ ts', ?_, hts.took.append hts'.took,
      hts.shape.append hts'.shape, fun _ => List.append_ne_nil_of_left_ne_nil (hts.reads rfl) _,
      fun cs rest _ hrest c' ns => ?_⟩
    · intro t ht
      obtain ⟨t', us, rfl⟩ := List.exists_cons_of_ne_nil (hts.reads rfl)
      exact hcommon t ht
    · have hsame := hrest.elim id fun hnever => hnever.elim
      obtain ⟨ns₁, hgo⟩ := hts.again cs (ts' ++ rest) nofun (hnext rest hsame) c' ns
      obtain ⟨ns₂, hgo'⟩ := hts'.again (ts.reverse ++ cs) rest hsame c' ns₁
      refine ⟨ns₂, ?_⟩
      rw [List.append_assoc, conjuncts, bind_of_some hgo, bind_of_some hgo', List.reverse_append, List.append_assoc]
      rfl

theorem predicate_eq (g : Grammar) : g.predicate = (do
    let start ← offset
    let es ← conjuncts g
    return ⟨es, ← spanFrom start⟩) := by
  simp only [Grammar.predicate, conjuncts, Parser.bind_assoc, Parser.pure_bind]

theorem parenPredicate (h : Inner tokens n) : Confined tokens n H true u anything
    (fun p => AllSites (Site.Alone tokens) p.sites) Grammar.full.parenPredicate := by
  refine .seq true .any (.expectPunct rfl) fun _ => ?_
  have hpredicate : Confined tokens n any true true never (fun p => AllSites (Site.Alone tokens) p.sites)
      Grammar.full.predicate := by
    rw [predicate_eq]
    refine .offset fun start => ?_
    exact .keep false .never h.conjuncts_confined fun es => .spanned fun span hes => Expr.allSitesIn.mpr hes
  exact .keep true .reads hpredicate fun p => .seq false .any (.expectPunct rfl) fun _ => .ret id

/-! ## Simple statements -/

theorem valueAndSemicolon (h : Inner tokens n) : Confined tokens n any true true anything
    (fun e => AllSites (Site.Alone tokens) e.sites) Grammar.full.valueAndSemicolon :=
  .keep true .reads (h.expr 0).part fun _ => .seq false .any (.expectPunct rfl) fun _ => .ret id

theorem simpleTail (h : Inner tokens n) (target : Expr) : Confined tokens n any true true anything
    (fun x => AllSites (Site.Alone tokens) target.sites → AllSites (Site.Alone tokens) x.sites)
    (Grammar.full.simpleTail target) := by
  refine .peek fun k => ?_
  split
  · refine .seq true .reads (.skip rfl) fun _ => .keep false .any h.valueAndSemicolon fun _ => ?_
    split
    · exact .spanned fun span hvalue htarget => allSites_append.mpr ⟨htarget, hvalue⟩
    · exact .reportFail _ _
  · refine .seq true .reads (.skip rfl) fun _ => .keep false .any h.valueAndSemicolon fun value => ?_
    exact .spanned fun span hvalue htarget => allSites_append.mpr ⟨htarget, hvalue⟩
  · split
    · refine .seq true .reads (.skip rfl) fun _ => .keep false .any h.valueAndSemicolon fun value => ?_
      exact .spanned fun span hvalue _ => hvalue
    · exact .reportFail _ _
  · exact .seq false .any (.skip rfl) fun _ => .ret id
  · exact .failExpected _

theorem letStmt (h : Inner tokens n) : Confined tokens (n + 1) (· = some (.keyword .let_)) true u anything
    (fun x => AllSites (Site.Alone tokens) x.sites) Grammar.full.letStmt := by
  refine .offset fun start => ?_
  refine .enter true .any (.skip rfl) fun _ => .seq true .any (.expect rfl) fun name => ?_
  refine .accept rfl (.inl rfl) (.maybe (r := true) ?_) ?_
  · exact .keep false .any h.valueAndSemicolon fun value => .spanned fun span hvalue => hvalue
  · refine .seq true .any (.expectPunct rfl) fun _ => .keep true .reads (h.expr 0).part fun init => ?_
    refine .spanSoFar fun written => .seq false .any (.expectPunct rfl) fun _ => .spanned fun span hinit => ?_
    refine Declarator.allSitesIn.mpr (List.forall_mem_singleton.mpr ?_)
    exact Declarator.allSites.mpr ⟨nofun, fun e he => Option.mem_some.mp he ▸ hinit⟩

/-- One more dimension of an array, or their end. -/
def dimensionRound (g : Grammar) (read : List Expr) : Parser (Round (List Expr) (List Expr)) := do
  if ← accept (.punct .lbracket) then
    let dim ← g.innerExpr 0
    expectPunct .rbracket
    return .again (read ++ [dim])
  else return .done read

theorem dimensions (h : Inner tokens n) : Confined tokens n any false true (fun _ => Lacks (.punct .lbracket))
    (fun es => ∀ e ∈ es, AllSites (Site.Alone tokens) e.sites) Grammar.full.dimensions := by
  have hround : ∀ read : List Expr, Confined tokens n any false true (fun _ => Lacks (.punct .lbracket))
      (fun x => (∀ e ∈ read, AllSites (Site.Alone tokens) e.sites) →
        Round.Ends (fun es => ∀ e ∈ es, AllSites (Site.Alone tokens) e.sites)
          (fun es => ∀ e ∈ es, AllSites (Site.Alone tokens) e.sites) x) (dimensionRound Grammar.full read) := by
    intro read
    refine .accept rfl (.inr fun _ _ h => h) (.maybe (r := true) ?_) (.ret id)
    refine .keep true .reads (h.expr 0).part fun dim => .seq false .any (.expectPunct rfl) fun _ => .ret ?_
    exact fun hdim hread => List.forall_mem_append.mpr ⟨hread, List.forall_mem_singleton.mpr hdim⟩
  have hless : ∀ read c s read' s', dimensionRound Grammar.full read c s = (some (.again read'), s') →
      s'.rest.length < s.rest.length := by
    intro read c s read' s' hrun
    obtain ⟨b, s₁, haccept, hrun⟩ := bind_eq_some.mp hrun
    cases b with
    | false => cases hrun
    | true =>
      obtain ⟨dim, s₂, hdim, hrun⟩ := bind_eq_some.mp hrun
      obtain ⟨_, s₃, hclose, hrun⟩ := bind_eq_some.mp hrun
      cases hrun
      have hle := ((Grammar.onward_full.expr 0).of_run hdim).length_le
      have hle' := ((Moving.expectPunct _).of_run hclose).length_le
      rcases accept_eq_some haccept with ⟨-, t, -, hrest⟩ | ⟨hno, -⟩
      · rw [hrest, List.length_cons]
        omega
      · cases hno
  exact (Confined.rounds hround hless (fun _ _ h => h) (.inr fun _ _ _ h => h) []).imp fun es hes => hes nofun

theorem declaratorTail (h : Inner tokens n) (name : Token) : Confined tokens n any false true
    (fun _ rest => Lacks (.punct .lbracket) rest ∧ Lacks (.punct .eq) rest ∧ ExprStops 0 rest)
    (fun d => AllSites (Site.Alone tokens) d.sites) (Grammar.full.declaratorTail name) := by
  refine .passKeep (.inr fun _ _ _ h => h.1) h.dimensions fun dims => ?_
  have hend : ∀ init : Option Expr, Confined tokens n any false true
      (fun _ rest => Lacks (.punct .lbracket) rest ∧ Lacks (.punct .eq) rest ∧ ExprStops 0 rest)
      (fun d => (∀ e ∈ init, AllSites (Site.Alone tokens) e.sites) →
        (∀ e ∈ dims, AllSites (Site.Alone tokens) e.sites) → AllSites (Site.Alone tokens) d.sites)
      (spanFrom name.span.start >>= fun span => pure (Declarator.mk name.text dims init span)) :=
    fun init => .spanned fun span hinit hdims => Declarator.allSites.mpr ⟨hdims, hinit⟩
  refine .accept rfl (.inr fun _ _ h => h.2.1) (.maybe (r := true) ?_) ((hend none).imp fun d hd => hd nofun)
  exact .keep false (.inr fun _ _ _ h => h.2.2) (h.optional 0) hend

theorem declarator (h : Inner tokens n) : Confined tokens n any true true
    (fun _ rest => Lacks (.punct .lbracket) rest ∧ Lacks (.punct .eq) rest ∧ ExprStops 0 rest)
    (fun d => AllSites (Site.Alone tokens) d.sites) Grammar.full.declarator :=
  .seq false .any (.expect rfl) fun name => h.declaratorTail name

/-- What comes after the type and the first name of a declaration. -/
def typedRest (g : Grammar) (start : Nat) (type : TypeExpr) (name : Token) : Parser SimpleStmt := do
  if ← accept (.punct .larrow) then
    let value ← g.valueAndSemicolon
    return .bind ⟨some (.typed type), name.text, value, ← spanFrom start⟩
  else
    let first ← g.declaratorTail name
    let others ← if ← accept (.punct .comma) then separated .comma g.declarator else pure []
    expectPunct .semi
    return .varDecl ⟨.typed type, first :: others, ← spanFrom start⟩

theorem typedRest_confined (h : Inner tokens n) (start : Nat) (type : TypeExpr) (name : Token) :
    Confined tokens n any true true anything (fun x => AllSites (Site.Alone tokens) x.sites)
      (typedRest Grammar.full start type name) := by
  refine .accept rfl (.inl rfl) (.maybe (r := true) ?_) ?_
  · exact .keep false .any h.valueAndSemicolon fun value => .spanned fun span hvalue => hvalue
  · refine .passKeep .reads (h.declaratorTail name) fun first => ?_
    have hend : ∀ others : List Declarator, Confined tokens n any true true anything
        (fun x => (∀ d ∈ others, AllSites (Site.Alone tokens) d.sites) →
          AllSites (Site.Alone tokens) first.sites → AllSites (Site.Alone tokens) x.sites)
        (expectPunct .semi >>= fun _ => spanFrom start >>= fun span =>
          pure (SimpleStmt.varDecl ⟨.typed type, first :: others, span⟩)) := by
      refine fun others => .seq false .any (.expectPunct rfl) fun _ => .spanned fun span hothers hfirst => ?_
      exact Declarator.allSitesIn.mpr (List.forall_mem_cons.mpr ⟨hfirst, hothers⟩)
    refine .accept rfl (.inl rfl) (.maybe (r := true) ?_) ((hend []).imp fun x hx => hx nofun)
    exact .keep true .reads (.separated h.declarator rfl) hend

theorem typedStmt (h : Inner tokens n) : Confined tokens (n + 1) H true u anything
    (fun x => AllSites (Site.Alone tokens) x.sites) Grammar.full.typedStmt := by
  refine .offset fun start => ?_
  refine .enter true .reads .type fun type => .seq true .any (.expect rfl) fun name => ?_
  exact h.typedRest_confined start type name

end Inner

end Bluespec
