import Bluespec.Proofs.ConfinedTypes
import Bluespec.Proofs.OperatorSteps
import Bluespec.Proofs.Sites

/-!
# Operands are confined

An expression is read in rounds: an operand takes its suffixes, and then the operations on it.  After each round there
is an expression whose own tokens lead to it.

* **`Site.Alone`** — a site whose own tokens lead to it; **`Inner`** — the inner productions yield such sites.
* **`Stmt.endsBare`**, **`Stmt.isOpen`**, **`StmtStops`** — what goes on with a statement: a suffix behind a bare end, or
  an `else` behind a conditional with one branch.
* **`Reached`** — an expression that some rounds have led to.
* **`Inner.suffixed`** — operands with their suffixes.
-/

namespace Bluespec

open Bluespec.Parser

/-! ## Sites that are read alone -/

/-- The tokens of the site are all that it takes to read it. -/
def Site.Alone (tokens : List Token) : Site → Prop
  | .expr e => ∃ ts, ts ≠ [] ∧ ts <:+: tokens ∧ Goes (Grammar.full.expr 0) [] ts e []
  | .stmt dialect s => ∃ ts, ts ≠ [] ∧ ts <:+: tokens ∧ Goes (Grammar.full.stmt dialect) [] ts s []

/-- Whether no expression goes on with a token of the kind: it separates expressions, or closes what they stand in. -/
def Kind.endsExpr : Kind → Bool
  | .punct .comma | .punct .semi | .punct .rparen | .punct .rbracket | .punct .rbrace => true
  | k => k.isCloser

/-- Whether what stands before a token of the kind may be a condition of a conditional. -/
def Kind.asks : Kind → Bool
  | .punct .question | .punct .ampAmpAmp => true
  | _ => false

/-- Nothing follows, or a mark behind a condition, or a token with which no expression goes on. -/
def OperandStops (rest : List Token) : Prop := ∀ t ∈ rest.head?, t.kind.asks = true ∨ t.kind.endsExpr = true

/-- No suffix follows. -/
def Unsuffixed (rest : List Token) : Prop := ∀ t ∈ rest.head?, t.kind.startsSuffix = false

/-- The conditions that follow do not lead to a conditional. -/
def Dropped (rest : List Token) : Prop :=
  ∀ c cs ns, (Grammar.full.conjunctsOfConditional c ⟨cs, rest, [], ns⟩).1 = none

/-- Nothing follows an expression whose operators bind at least as tightly as `min`, or a token with which none goes on,
or a mark behind a condition that belongs to something around it. -/
def ExprStops (min : Nat) (rest : List Token) : Prop :=
  ∀ t ∈ rest.head?, t.kind.endsExpr = true ∨
    t.kind.asks = true ∧ (min ≤ conditionalPower → t.kind = .punct .ampAmpAmp ∧ Dropped rest)

/-- Whether the text of a statement ends where its last expression does. -/
def Stmt.endsBare : Stmt → Bool
  | ⟨.expr e, span⟩ => span.stop == e.span.stop
  | ⟨.cond _ a none, _⟩ => a.endsBare
  | ⟨.cond _ _ (some b), _⟩ => b.endsBare
  | _ => false

mutual

/-- Whether an `else` behind a statement would belong to it. -/
def Stmt.isOpen : Stmt → Bool
  | ⟨form, _⟩ => form.isOpen

/-- Whether a form of a statement ends with a conditional that has one branch. -/
def StmtForm.isOpen : StmtForm → Bool
  | .cond _ _ none => true
  | .cond _ _ (some b) => b.isOpen
  | _ => false

end

/-- What follows goes on with nothing that ends with an expression, or with a conditional that has one branch. -/
def EndsBefore (bare opened : Bool) (rest : List Token) : Prop :=
  ∀ t ∈ rest.head?, (t.kind ≠ .punct .colon ∧ t.kind ≠ .punct .semi ∧ (opened = true → t.kind ≠ .keyword .else_)) ∧
    (bare = true → t.kind.startsSuffix = false)

/-- What follows does not continue a statement. -/
def StmtStops (s : Stmt) (rest : List Token) : Prop := EndsBefore s.endsBare s.isOpen rest

/-- Where an open end stops any end does. -/
theorem EndsBefore.of_open {bare opened : Bool} {rest : List Token} (h : EndsBefore bare true rest) :
    EndsBefore bare opened rest :=
  fun t ht => ⟨⟨(h t ht).1.1, (h t ht).1.2.1, fun _ => (h t ht).1.2.2 rfl⟩, (h t ht).2⟩

/-- The one branch of a conditional stops wherever the conditional does. -/
theorem StmtStops.onlyBranch {p : Predicate} {a : Stmt} {span : Span} {rest : List Token}
    (h : StmtStops ⟨.cond p a none, span⟩ rest) : StmtStops a rest := EndsBefore.of_open h

theorem OperandStops.lacks {rest : List Token} (h : OperandStops rest) {k : Kind} (hasks : k.asks = false)
    (hends : k.endsExpr = false) : Lacks k rest := by
  rintro t ht rfl
  rcases h t ht with hk | hk
  · exact Bool.false_ne_true (hasks.symm.trans hk)
  · exact Bool.false_ne_true (hends.symm.trans hk)

theorem OperandStops.unsuffixed {rest : List Token} (h : OperandStops rest) : Unsuffixed rest := by
  intro t ht
  rw [← Bool.not_eq_true]
  intro hsuffix
  rcases Kind.eq_of_startsSuffix hsuffix with hk | hk | hk <;> exact h.lacks rfl rfl t ht hk

/-- Where an operator that binds more tightly than a conditional looks for its operand. -/
theorem OperandStops.exprStops {rest : List Token} (h : OperandStops rest) {min : Nat} (hmin : conditionalPower < min) :
    ExprStops min rest :=
  fun t ht => (h t ht).symm.imp_right fun hk => ⟨hk, fun hle => absurd hmin (Nat.not_lt.mpr hle)⟩

theorem ExprStops.operandStops {min : Nat} {rest : List Token} (h : ExprStops min rest) : OperandStops rest :=
  fun t ht => (h t ht).symm.imp_left And.left

theorem ExprStops.nil {min : Nat} : ExprStops min [] := nofun

/-- The inner productions are confined, and all sites in what they yield are read alone. -/
structure Inner (tokens : List Token) (n : Nat) : Prop where
  expr : ∀ min, Confined tokens n any true false (fun _ => ExprStops min)
    (fun e => AllSites (Site.Alone tokens) e.sites) (Grammar.full.innerExpr min)
  operand : Confined tokens n any true false (fun _ => OperandStops) (fun e => AllSites (Site.Alone tokens) e.sites)
    Grammar.full.innerOperand
  stmt : ∀ dialect, Confined tokens n any true false StmtStops
    (fun s => AllSites (Site.Alone tokens) (s.sites dialect)) (Grammar.full.innerStmt dialect)
  method : Confined tokens n (· = some (.keyword .method)) true false never
    (fun d => AllSites (Site.Alone tokens) d.sites) Grammar.full.innerMethod
  subinterface : Confined tokens n (· = some (.keyword .interface)) true false never
    (fun d => AllSites (Site.Alone tokens) d.sites) Grammar.full.innerSubinterface
  module : Confined tokens n (· = some (.keyword .module)) true false never
    (fun d => AllSites (Site.Alone tokens) d.sites) Grammar.full.innerModule

namespace Parser

variable {α β : Type} {tokens : List Token} {n : Nat} {H : Option Kind → Prop} {r u : Bool}

open Grade Mark

/-- A production of the grammar that refers to itself is steady. -/
theorem Holds.steady_full {γ : Grade} {mark : α → Mark} {before : List NodeSpan} {p p' : Parser α}
    {after : α → List NodeSpan} (h : Holds sameRuns γ mark before p p' after) : Steady γ mark p' := by
  intro c s hs
  rw [← h.trait c s hs]
  exact h.steady c s hs

/-- A steady parser moves forward and fails only with a diagnostic, so its clean runs are all there is to look at. -/
theorem Confined.of_steady {F : α → List Token → Prop} {P : α → Prop} {p : Parser α} {mark : α → Mark}
    {past : Bool} (h : ∀ k, Steady (free (k + 1) past) mark p)
    (hruns : ∀ c s a s', Starts tokens n H s → p c s = (some a, s') → s'.diagnostics = [] →
      P a ∧ ∃ ts, (∀ t ∈ ts.head?, t.kind.isCommon = true) ∧ Contained Neutral p r u (F a) a s ts s') :
    Confined tokens n H r u F P p where
  moves _ s := (h s.rest.length _ s ⟨Nat.lt_succ_self _, trivial⟩).1
  fails _ s _ _ hrun := (h s.rest.length).dirty ⟨Nat.lt_succ_self _, trivial⟩ hrun
  runs := hruns

theorem steady_operand (k : Nat) : Steady (free (k + 1) true) (fun _ => reading) Grammar.full.operand :=
  have hoperand : Holds sameRuns (free (k + 1) true) (fun _ => reading) [] (Grammar.upTo k).operand
      Grammar.full.operand fun e => [] ++ e.declared :=
    Inherited.operand inherited_sameRuns (level_full (Nat.le_refl k))
  hoperand.steady_full

theorem steady_stmt (dialect : Dialect) (k : Nat) :
    Steady (free (k + 1) false) (fun _ => reading) (Grammar.full.stmt dialect) :=
  have hstmt : Holds sameRuns (free (k + 1) false) (fun _ => reading) [] ((Grammar.upTo k).stmt dialect)
      (Grammar.full.stmt dialect) fun s => [] ++ s.declared :=
    Inherited.stmt inherited_sameRuns (level_full (Nat.le_refl k)) dialect
  hstmt.steady_full

theorem steady_suffix (e : Expr) (k : Nat) : Steady (free (k + 1) true) roundMark (Grammar.full.suffix e) :=
  have hsuffix : Holds sameRuns (free (k + 1) true) roundMark ([] ++ e.declared) ((Grammar.upTo k).suffix e)
      (Grammar.full.suffix e) _ := Inherited.suffix inherited_sameRuns (level_full (Nat.le_refl k)) e
  hsuffix.steady_full

theorem steady_suffixedUnary (k : Nat) :
    Steady (free (k + 1) true) (fun _ => reading) (Grammar.full.unary >>= Grammar.full.suffixes) :=
  have hsuffixed : Outset sameRuns k [] ((Grammar.upTo k).unary >>= (Grammar.upTo k).suffixes)
      (Grammar.full.unary >>= Grammar.full.suffixes) fun e => [] ++ e.declared :=
    closed_sameRuns.read (Inherited.unary inherited_sameRuns (level_full (Nat.le_refl k))) fun e =>
      closed_sameRuns.outset (Inherited.suffixes inherited_sameRuns (level_full (Nat.le_refl k)) e)
  hsuffixed.steady_full

theorem steady_operation (min : Nat) (e : Expr) (k : Nat) :
    Steady (free (k + 1) true) roundMark (Grammar.full.operation min e) :=
  have hoperation : Holds sameRuns (free (k + 1) true) roundMark ([] ++ e.declared) ((Grammar.upTo k).operation min e)
      (Grammar.full.operation min e) _ := Inherited.operation inherited_sameRuns (level_full (Nat.le_refl k)) min e
  hoperation.steady_full

theorem steady_operations (min : Nat) (e : Expr) (k : Nat) :
    Steady (free (k + 1) true) (fun _ => nothing) (Grammar.full.operations min e) :=
  have hoperations : Holds sameRuns (free (k + 1) true) (fun _ => nothing) ([] ++ e.declared)
      ((Grammar.upTo k).operations min e) (Grammar.full.operations min e) _ :=
    Inherited.operations inherited_sameRuns (level_full (Nat.le_refl k)) min e
  hoperations.steady_full

theorem steady_furtherConjuncts (min : Nat) (k : Nat) :
    Steady (free (k + 1) true) (fun _ => nothing) (Grammar.full.furtherConjuncts min) :=
  have hconjuncts : Holds sameRuns (free (k + 1) true) (fun _ => nothing) []
      ((Grammar.upTo k).furtherConjuncts min) (Grammar.full.furtherConjuncts min) _ :=
    Closed.furtherConjuncts closed_sameRuns (level_full (Nat.le_refl k)) min
  hconjuncts.steady_full

end Parser

/-! ## The inner productions -/

namespace Grammar

theorem innerOperand_eq : full.innerOperand = full.operand := by
  funext c s
  exact full_operand

theorem innerStmt_eq (dialect : Dialect) : full.innerStmt dialect = full.stmt dialect := by
  funext c s
  exact full_stmt dialect

end Grammar

/-- Nothing is asked of runs over fewer than no tokens. -/
theorem Inner.zero (tokens : List Token) : Inner tokens 0 where
  expr min := .vacuous (Grammar.onward_full.expr min)
  operand := .vacuous Grammar.onward_full.operand
  stmt dialect := .vacuous (Grammar.onward_full.stmt dialect)
  method := .vacuous Grammar.onward_full.method
  subinterface := .vacuous Grammar.onward_full.subinterface
  module := .vacuous Grammar.onward_full.module

/-! ## Suffixes -/

theorem Grammar.suffix_eq (g : Grammar) (e : Expr) : g.suffix e = (do
    if ← isNext (.punct .lparen) then
      let args ← g.arguments
      return .again ⟨.call e args, ← spanFrom e.span.start⟩
    else if ← isNext (.punct .lbracket) then
      let form ← g.selection e
      return .again ⟨form, ← spanFrom e.span.start⟩
    else if ← isNext (.punct .dot) then
      let form ← g.memberOf e
      return .again ⟨form, ← spanFrom e.span.start⟩
    else return .done e : Parser (Round Expr Expr)) := by
  funext c s
  obtain ⟨cs, rest, ds, ns⟩ := s
  have hother : ∀ {k : Kind} (p q : Parser (Round Expr Expr)), (∀ t ∈ rest.head?, t.kind ≠ k) →
      (isNext k >>= fun b => if b = true then p else q) c ⟨cs, rest, ds, ns⟩ = q c ⟨cs, rest, ds, ns⟩ :=
    fun p q h => bind_of_some (isNext_of_head h)
  by_cases hstops : Unsuffixed rest
  · have hne : ∀ {k : Kind}, k.startsSuffix = true → ∀ t ∈ rest.head?, t.kind ≠ k := by
      rintro k hk t ht rfl
      rw [hstops t ht] at hk
      cases hk
    rw [suffix_of_head e hstops, hother _ _ (hne rfl), hother _ _ (hne rfl), hother _ _ (hne rfl)]
    rfl
  · cases rest with
    | nil => exact absurd (fun _ h => by cases h) hstops
    | cons t rest =>
      have hstarts : t.kind.startsSuffix = true := by
        rw [← Bool.not_eq_false]
        intro hk
        exact hstops fun t' ht => by cases ht; exact hk
      have hne : ∀ {k : Kind}, t.kind ≠ k → ∀ t' ∈ (t :: rest).head?, t'.kind ≠ k := by
        rintro k hk t' ht
        cases ht
        exact hk
      rcases Kind.eq_of_startsSuffix hstarts with hk | hk | hk
      · rw [bind_of_some (isNext_of_kind hk)]
        simp only [suffix, bind_of_some peek_cons, hk]
        rfl
      · rw [hother _ _ (hne (by rw [hk]; decide)), bind_of_some (isNext_of_kind hk), suffix_of_lbracket e hk]
        rfl
      · rw [hother _ _ (hne (by rw [hk]; decide)), hother _ _ (hne (by rw [hk]; decide)),
          bind_of_some (isNext_of_kind hk), suffix_of_dot e hk]
        rfl

/-- What a round of suffixes makes of an expression. -/
def Suffixes (tokens : List Token) (e : Expr) : Round Expr Expr → Prop
  | .again e' => AllSites (Site.Alone tokens) e.sites → AllSites (Site.Alone tokens) e'.form.sites
  | .done e' => e' = e

namespace Inner

variable {tokens : List Token} {n : Nat}

theorem arguments (h : Inner tokens n) : Confined tokens n any true false anything
    (fun args => ∀ a ∈ args, AllSites (Site.Alone tokens) a.sites) Grammar.full.arguments :=
  .seq true .reads (.expectPunct rfl) fun _ => .enclosed (h.expr 0).part rfl

theorem optional (h : Inner tokens n) (min : Nat) : Confined tokens n any true true (fun _ => ExprStops min)
    (fun r => ∀ e ∈ r, AllSites (Site.Alone tokens) e.sites) (some <$> Grammar.full.innerExpr min) := by
  refine (h.expr min).part.map some .same fun e he => ?_
  rintro e' ⟨⟩
  exact he

theorem selection (h : Inner tokens n) (base : Expr) :
    Confined tokens n (· = some (.punct .lbracket)) true false anything
      (fun form => AllSites (Site.Alone tokens) base.sites → AllSites (Site.Alone tokens) form.sites)
      (Grammar.full.selection base) := by
  have hend : ∀ hi lo, Confined tokens n any true true anything
      (fun form => (∀ e ∈ lo, AllSites (Site.Alone tokens) e.sites) → AllSites (Site.Alone tokens) hi.sites →
        AllSites (Site.Alone tokens) base.sites → AllSites (Site.Alone tokens) form.sites)
      (expectPunct .rbracket >>= fun _ => pure (ExprForm.select base hi lo)) := by
    refine fun hi lo => .seq false .any (.expectPunct rfl) fun _ => .ret fun hlo hhi hbase => ?_
    exact ExprForm.allSites_select.mpr ⟨⟨hbase, hhi⟩, hlo⟩
  refine .seq true .reads (.skip rfl) fun _ => ?_
  refine .keep true .reads (h.expr 0).part fun hi => ?_
  refine .accept rfl (.inl rfl) (.maybe (r := true) ?_) ((hend hi none).imp fun _ hform => hform nofun)
  exact .keep true .reads (h.optional 0) (hend hi)

theorem memberOf (h : Inner tokens n) (receiver : Expr) : Confined tokens n (· = some (.punct .dot)) true false
    (fun _ => Lacks (.punct .lparen))
    (fun form => AllSites (Site.Alone tokens) receiver.sites → AllSites (Site.Alone tokens) form.sites)
    (Grammar.full.memberOf receiver) := by
  refine .seq true .reads (.skip rfl) fun _ => .seq false .any (.expectText rfl) fun name => ?_
  refine .isNext (.inr fun _ _ h => h) ?_ (.ret id)
  refine .keep false .any h.arguments.part fun args => .ret fun hargs hreceiver => ?_
  exact allSites_append.mpr ⟨hreceiver, Expr.allSitesIn.mpr hargs⟩

theorem suffix (h : Inner tokens n) (e : Expr) : Confined tokens n any false true (fun _ => Unsuffixed)
    (Suffixes tokens e) (Grammar.full.suffix e) := by
  have hlacks : ∀ {k : Kind}, k.startsSuffix = true → ∀ rest, Unsuffixed rest → Lacks k rest := by
    rintro k hk rest hrest t ht rfl
    rw [hrest t ht] at hk
    cases hk
  rw [Grammar.suffix_eq]
  refine .isNext (.inr fun _ => hlacks rfl) ?_ ?_
  · refine .keep false .any h.arguments.part fun args => .spanned fun span hargs he => ?_
    exact allSites_append.mpr ⟨he, Expr.allSitesIn.mpr hargs⟩
  refine .isNext (.inr fun _ => hlacks rfl) ?_ ?_
  · exact .keep false .any (h.selection e).behind fun form => .spanned fun span hform he => hform he
  refine .isNext (.inr fun _ => hlacks rfl) ?_ (.ret rfl)
  refine .keep false (.inr fun _ _ => hlacks rfl) (h.memberOf e).behind fun form => ?_
  exact .spanned fun span hform he => hform he

end Inner

/-! ## Expressions that rounds have led to -/

/-- How an expression came about: the tokens between two states were read for it. -/
abbrev History : Type := Setting → State → Expr → State → Prop

/-- An operand and rounds of suffixes. -/
def Suffixed (p : Parser Expr) : History := fun c s e s' =>
  ∃ e₀ s₀, p c s = (some e₀, s₀) ∧ Leads Grammar.full.suffix c e₀ s₀ e s'

/-- An operand, its suffixes and rounds of operations. -/
def Operated (p : Parser Expr) (min : Nat) : History := fun c s e s' =>
  ∃ e₁ s₁, Suffixed p c s e₁ s₁ ∧ Unsuffixed s₁.rest ∧ Leads (Grammar.full.operation min) c e₁ s₁ e s'

theorem Suffixed.run {p : Parser Expr} {c : Setting} {s s' : State} {e : Expr} (h : Suffixed p c s e s')
    (hstops : Unsuffixed s'.rest) : (p >>= Grammar.full.suffixes) c s = (some e, s') := by
  obtain ⟨e₀, s₀, hp, hleads⟩ := h
  rw [bind_of_some hp]
  exact repeatUntil_of_leads hleads (Grammar.suffix_of_head e hstops)

theorem suffix_reads {e e' : Expr} {c : Setting} {s s' : State}
    (h : Grammar.full.suffix e c s = (some (.again e'), s')) : s'.rest.length < s.rest.length :=
  ((steady_suffix e s.rest.length).tells ⟨Nat.lt_succ_self _, trivial⟩ h).read rfl

/-- An operand that has been read with its suffixes. -/
theorem Suffixed.of_run {p : Parser Expr} {c : Setting} {s s' : State} {e : Expr}
    (h : (p >>= Grammar.full.suffixes) c s = (some e, s')) : Suffixed p c s e s' ∧ Unsuffixed s'.rest := by
  obtain ⟨e₀, s₀, hfirst, hloop⟩ := bind_eq_some.mp h
  obtain ⟨e₁, s₁, hleads, hdone⟩ := leads_of_repeatUntil (fun _ _ _ _ => suffix_reads) hloop
  obtain ⟨rfl, rfl, hstops⟩ := Grammar.eq_of_suffix_done hdone
  exact ⟨⟨e₀, s₀, hfirst, hleads⟩, hstops⟩

theorem Operated.run {p : Parser Expr} {min : Nat} {c : Setting} {s s' : State} {e : Expr}
    (h : Operated p min c s e s') (hdone : Grammar.full.operation min e c s' = (some (.done e), s')) :
    (p >>= fun e₀ => Grammar.full.suffixes e₀ >>= Grammar.full.operations min) c s = (some e, s') := by
  obtain ⟨e₁, s₁, hsuffixed, hstops, hleads⟩ := h
  rw [← bind_assoc, bind_of_some (hsuffixed.run hstops)]
  exact repeatUntil_of_leads hleads hdone

/-- An expression that some tokens lead to, wherever else they stand before a rest at which they end. -/
structure Reached (R : History) (stops : List Token → Prop) (s : State) (ts : List Token) (e : Expr) (s' : State) :
    Prop where
  took : s.Took ts s'
  shape : Neutral ts
  reads : ts ≠ []
  head : ∀ t ∈ ts.head?, t.kind.isCommon = true
  again : ∀ c cs rest ns, SameNext s'.rest rest ∨ stops rest →
    ∃ ns', R c ⟨cs, ts ++ rest, [], ns⟩ e ⟨ts.reverse ++ cs, rest, [], ns'⟩

namespace Reached

variable {R R' : History} {G F : List Token → Prop} {s s₁ s₂ : State} {ts ts' : List Token} {e e' : Expr}

theorem weaken (h : Reached R G s ts e s₁) (hF : ∀ rest, F rest → G rest)
    (hR : ∀ c cs rest ns ns', SameNext s₁.rest rest ∨ F rest →
      R c ⟨cs, ts ++ rest, [], ns⟩ e ⟨ts.reverse ++ cs, rest, [], ns'⟩ →
        R' c ⟨cs, ts ++ rest, [], ns⟩ e ⟨ts.reverse ++ cs, rest, [], ns'⟩) : Reached R' F s ts e s₁ where
  took := h.took
  shape := h.shape
  reads := h.reads
  head := h.head
  again c cs rest ns hrest := by
    obtain ⟨ns', hrun⟩ := h.again c cs rest ns (hrest.imp_right (hF rest))
    exact ⟨ns', hR c cs rest ns ns' hrest hrun⟩

/-- One more round. -/
theorem round {round : Expr → Parser (Round Expr Expr)} {r : Bool} (h : Reached R G s ts e s₁)
    (hts : Contained Neutral (round e) r true F (.again e') s₁ ts' s₂) (hne : ts' ≠ [])
    (hnext : ∀ rest, SameNext s₂.rest rest ∨ F rest → SameNext s₁.rest (ts' ++ rest) ∨ G (ts' ++ rest))
    (hR : ∀ {c s s₁ s₂}, R c s e s₁ → round e c s₁ = (some (.again e'), s₂) →
      s₂.rest.length < s₁.rest.length → R c s e' s₂) : Reached R F s (ts ++ ts') e' s₂ where
  took := h.took.append hts.took
  shape := h.shape.append hts.shape
  reads := List.append_ne_nil_of_left_ne_nil h.reads _
  head t ht := by
    obtain ⟨t', us, hcons⟩ := List.exists_cons_of_ne_nil h.reads
    rw [hcons] at ht
    exact h.head t (by rw [hcons]; exact ht)
  again c cs rest ns hrest := by
    obtain ⟨ns₁, hrun⟩ := h.again c cs (ts' ++ rest) ns (hnext rest hrest)
    have hlast : lastStop (ts.reverse ++ cs) = lastStop s₁.consumed := by
      rw [h.took.consumed]
      exact lastStop_reverse_append h.reads _ _
    obtain ⟨ns₂, hround⟩ := hts.again _ rest (fun _ => hlast) hrest c ns₁
    refine ⟨ns₂, ?_⟩
    rw [List.append_assoc, List.reverse_append, List.append_assoc]
    refine hR hrun hround ?_
    show rest.length < (ts' ++ rest).length
    rw [List.length_append]
    have hpos := List.length_pos_iff.mpr hne
    omega

theorem contained {p : Parser Expr} (h : Reached R G s ts e s₁)
    (hrun : ∀ {c s s'}, R c s e s' → SameNext s₁.rest s'.rest ∨ G s'.rest → p c s = (some e, s')) :
    Contained Neutral p true false G e s ts s₁ where
  took := h.took
  shape := h.shape
  reads _ := h.reads
  again cs rest _ hrest c ns := by
    obtain ⟨ns', hR⟩ := h.again c cs rest ns hrest
    exact ⟨ns', hrun hR hrest⟩

end Reached

/-! ## Operands with suffixes -/

/-- An operation that binds tightly enough does so for every lower bound. -/
theorem Grammar.operation_mono {g : Grammar} {min : Nat} {e e' : Expr} {c : Setting} {s s' : State}
    (h : g.operation min e c s = (some (.again e'), s')) : g.operation 0 e c s = (some (.again e'), s') := by
  obtain ⟨cs, rest, ds, ns⟩ := s
  cases rest with
  | nil => cases h
  | cons t rest =>
    by_cases hq : t.kind = .punct .question
    · rw [operation_of_question e hq] at h ⊢
      split at h
      · exact h
      · cases h
    by_cases ha : t.kind = .punct .ampAmpAmp
    · rw [operation_of_and e ha] at h ⊢
      split at h
      · exact h
      · cases h
    by_cases hm : t.kind = .keyword .matches_
    · simp only [operation, bind_of_some peek_cons, hm] at h ⊢
      exact h
    rw [operation_of_ne e hq ha hm] at h ⊢
    cases hop : BinaryOp.ofKind? t.kind with
    | none =>
      rw [hop] at h
      cases h
    | some op =>
      rw [hop] at h
      simp only at h ⊢
      split at h
      · exact h
      · cases h

theorem Parser.Leads.operation_mono {min : Nat} {c : Setting} {e e' : Expr} {s s' : State}
    (h : Leads (Grammar.full.operation min) c e s e' s') : Leads (Grammar.full.operation 0) c e s e' s' := by
  induction h with
  | refl => exact .refl
  | step hround less _ ih => exact .step (Grammar.operation_mono hround) less ih

section Rounds

variable {tokens : List Token} {n : Nat} {p : Parser Expr} {G : List Token → Prop}

/-- What the operand of an expression is read with: its runs are those of an operand behind unary operators. -/
def IsUnary (p : Parser Expr) : Prop := ∀ c s e s', p c s = (some e, s') → Grammar.full.unary c s = (some e, s')

theorem Operated.expr {min : Nat} {c : Setting} {s s' : State} {e : Expr} (hp : IsUnary p)
    (h : Operated p min c s e s') (hend : s'.rest = []) : Grammar.full.expr 0 c s = (some e, s') := by
  obtain ⟨e₁, s₁, ⟨e₀, s₀, hrun, hsuffixes⟩, hstops, hleads⟩ := h
  have hunary : Operated Grammar.full.unary 0 c s e s' :=
    ⟨e₁, s₁, ⟨e₀, s₀, hp _ _ _ _ hrun, hsuffixes⟩, hstops, hleads.operation_mono⟩
  obtain ⟨cs, rest, ds, ns⟩ := s'
  cases hend
  exact hunary.run rfl

theorem Suffixed.expr {c : Setting} {s s' : State} {e : Expr} (hp : IsUnary p)
    (h : Suffixed p c s e s') (hend : s'.rest = []) : Grammar.full.expr 0 c s = (some e, s') :=
  have hoperated : Operated p 0 c s e s' := ⟨e, s', h, by rw [hend]; exact nofun, .refl⟩
  hoperated.expr hp hend

/-- The tokens that lead to an expression are all that it takes. -/
theorem Reached.alone {R : History} {s s' : State} {ts : List Token} {e : Expr} (h : Reached R G s ts e s')
    (hG : G []) (hs : s.rest <:+ tokens)
    (hR : ∀ {c s s'}, R c s e s' → s'.rest = [] → Grammar.full.expr 0 c s = (some e, s')) :
    Site.Alone tokens (.expr e) := by
  refine ⟨ts, h.reads, ?_, fun c ns => ?_⟩
  · obtain ⟨us, hus⟩ := hs
    exact ⟨us, s'.rest, by rw [← hus, h.took.rest, List.append_assoc]⟩
  · obtain ⟨ns', hrun⟩ := h.again c [] [] ns (.inr hG)
    exact ⟨ns', hR hrun rfl⟩

/-- The operand that an expression begins with. -/
theorem Reached.first {H : Option Kind → Prop} {c : Setting} {s s' : State} {e : Expr}
    (hp : Confined tokens (n + 1) H true false (fun _ => G) (fun e => AllSites (Site.Alone tokens) e.form.sites) p)
    (hs : Starts tokens (n + 1) H s) (hrun : p c s = (some e, s')) (hclean : s'.diagnostics = []) :
    AllSites (Site.Alone tokens) e.form.sites ∧ ∃ ts, Reached (Suffixed p) G s ts e s' := by
  obtain ⟨hsites, ts, hcommon, hts⟩ := hp.runs c s e s' hs hrun hclean
  refine ⟨hsites, ts, hts.took, hts.shape, hts.reads rfl, hcommon, fun c cs rest ns hrest => ?_⟩
  obtain ⟨ns', hgo⟩ := hts.again cs rest nofun hrest c ns
  exact ⟨ns', e, _, hgo, .refl⟩

/-- Rounds of suffixes on an operand lead to an expression. -/
theorem Inner.reached_suffixes (h : Inner tokens n) {H : Option Kind → Prop} {c : Setting} {s s₀ s' : State} {e₀ e : Expr}
    (hp : Confined tokens (n + 1) H true false (fun _ => G) (fun e => AllSites (Site.Alone tokens) e.form.sites) p)
    (hunary : IsUnary p) (hG : G []) (hs : Starts tokens (n + 1) H s) (hfirst : p c s = (some e₀, s₀))
    (hleads : Leads Grammar.full.suffix c e₀ s₀ e s') (hclean : s'.diagnostics = []) :
    AllSites (Site.Alone tokens) e.sites ∧
      ∃ ts, Reached (Suffixed p) (fun rest => G rest ∧ Unsuffixed rest) s ts e s' := by
  let motive (e : Expr) (s₁ : State) : Prop := s₁.diagnostics = [] → AllSites (Site.Alone tokens) e.sites ∧
    ∃ ts, Reached (Suffixed p) (fun rest => G rest ∧ Unsuffixed rest) s ts e s₁
  have hstart : motive e₀ s₀ := by
    intro hclean
    obtain ⟨hsites, ts, hreached⟩ := Reached.first hp hs hfirst hclean
    have halone := hreached.alone hG hs.within fun hR => hR.expr hunary
    exact ⟨Expr.allSites.mpr ⟨halone, hsites⟩, ts, hreached.weaken (fun _ hrest => hrest.1) fun _ _ _ _ _ _ => id⟩
  have hkeep : ∀ e s₁ e' s₂, motive e s₁ → Grammar.full.suffix e c s₁ = (some (.again e'), s₂) → motive e' s₂ := by
    intro e s₁ e' s₂ hmotive hround hclean
    have hmoves : s₁.Moves s₂ := (Grammar.onward_full.suffix e).of_run hround
    obtain ⟨hsites, ts, hreached⟩ := hmotive (hmoves.clean hclean)
    have hbound := hreached.took.length_lt hreached.reads
    obtain ⟨hform, ts', hcommon, hts⟩ := (h.suffix e).runs c s₁ _ s₂
      ⟨Nat.lt_of_lt_of_le hbound (Nat.le_of_lt_succ hs.bound), hreached.took.suffix.trans hs.within, trivial⟩
      hround hclean
    have hless := suffix_reads hround
    have hne : ts' ≠ [] := by
      rintro rfl
      rw [show s₁.rest = s₂.rest from hts.took.rest] at hless
      exact Nat.lt_irrefl _ hless
    obtain ⟨t, us, rfl⟩ := List.exists_cons_of_ne_nil hne
    have hnext : Reached (Suffixed p) Unsuffixed s (ts ++ t :: us) e' s₂ := by
      refine hreached.round hts hne (fun rest _ => .inl ?_) ?_
      · rw [hts.took.rest]
        exact .of_cons (hcommon t rfl)
      · rintro c s s₁ s₂ ⟨e₀, s₀, hp, hleads⟩ hround hless
        exact ⟨e₀, s₀, hp, hleads.trans (.one hround hless)⟩
    have halone := hnext.alone nofun hs.within fun hR => hR.expr hunary
    exact ⟨Expr.allSites.mpr ⟨halone, hform hsites⟩, _, hnext.weaken (fun _ hrest => hrest.2) fun _ _ _ _ _ _ => id⟩
  exact hleads.keeps hkeep hstart hclean

/-- An operand takes its suffixes. -/
theorem Inner.reached_suffixed (h : Inner tokens n) {H : Option Kind → Prop} {c : Setting} {s s' : State} {e : Expr}
    (hp : Confined tokens (n + 1) H true false (fun _ => G) (fun e => AllSites (Site.Alone tokens) e.form.sites) p)
    (hunary : IsUnary p) (hG : G []) (hs : Starts tokens (n + 1) H s)
    (hrun : (p >>= Grammar.full.suffixes) c s = (some e, s')) (hclean : s'.diagnostics = []) :
    AllSites (Site.Alone tokens) e.sites ∧ Unsuffixed s'.rest ∧
      ∃ ts, Reached (Suffixed p) (fun rest => G rest ∧ Unsuffixed rest) s ts e s' := by
  obtain ⟨⟨e₀, s₀, hfirst, hleads⟩, hstops⟩ := Suffixed.of_run hrun
  obtain ⟨hsites, hreached⟩ := h.reached_suffixes hp hunary hG hs hfirst hleads hclean
  exact ⟨hsites, hstops, hreached⟩

/-- An operand with its suffixes is confined if what begins it is. -/
theorem Inner.suffixed (h : Inner tokens n) {H : Option Kind → Prop} {mark : Expr → Parser.Mark}
    (hp : Confined tokens (n + 1) H true false (fun _ => G) (fun e => AllSites (Site.Alone tokens) e.form.sites) p)
    (hunary : IsUnary p) (hG : G [])
    (hsteady : ∀ k, Steady (.free (k + 1) true) mark (p >>= Grammar.full.suffixes)) :
    Confined tokens (n + 1) H true false (fun _ rest => G rest ∧ Unsuffixed rest)
      (fun e => AllSites (Site.Alone tokens) e.sites) (p >>= Grammar.full.suffixes) := by
  refine .of_steady hsteady fun c s e s' hs hrun hclean => ?_
  obtain ⟨hsites, hstops, ts, hreached⟩ := h.reached_suffixed hp hunary hG hs hrun hclean
  refine ⟨hsites, ts, hreached.head, hreached.contained fun hR hrest => hR.run ?_⟩
  rcases hrest with hsame | hrest
  · intro t ht
    exact hstops t (by rw [← hsame.head]; exact ht)
  · exact hrest.2

end Rounds

/-! ## Operands by their first token -/

section Heads

variable {g : Grammar} {c : Setting} {s s' : State} {e : Expr}

/-- Whether a token of the kind can be the first one of a primary. -/
def Kind.startsPrimary : Kind → Bool
  | .ident | .typeIdent | .int | .real | .string | .fill | .systemIdent => true
  | .punct .question | .punct .lparen | .punct .lbrace => true
  | .keyword .begin | .keyword .action | .keyword .actionvalue | .keyword .tagged | .keyword .interface
  | .keyword .valueOf => true
  | _ => false

theorem UnaryOp.ofKind?_of_primary {k : Kind} (h : k.startsPrimary = true) : UnaryOp.ofKind? k = none := by
  cases k with
  | punct p => cases p <;> first | rfl | cases h
  | _ => rfl

/-- What is known of a value by the next token. -/
theorem Parser.Results.peeking {α : Type} {f : Option Kind → Parser α} {P : Option Kind → α → Prop}
    (h : ∀ k, Results (P k) (f k)) {c : Setting} {s s' : State} {a : α} (hrun : (peek >>= f) c s = (some a, s')) :
    P s.peek a :=
  h s.peek c s a s' hrun

theorem Grammar.primary_head (h : g.primary c s = (some e, s')) : ∃ k, s.peek = some k ∧ k.startsPrimary = true := by
  obtain ⟨start, s₁, hstart, h⟩ := bind_eq_some.mp h
  cases hstart
  refine Results.peeking (P := fun k _ => ∃ k', k = some k' ∧ k'.startsPrimary = true) (fun k => ?_) h
  split <;> first | exact fun _ _ _ _ _ => ⟨_, rfl, rfl⟩ | exact .bind fun _ => .fail

theorem isUnary_primary : IsUnary Grammar.full.primary := by
  intro c s e s' h
  obtain ⟨k, hpeek, hk⟩ := Grammar.primary_head h
  rw [Grammar.unary, bind_of_some peek_eq, hpeek, Option.bind_some,
    UnaryOp.ofKind?_of_primary hk]
  exact h

/-- A name of a type that nothing belongs to is an operand. -/
theorem Grammar.operand_of_typeIdent {t : Token} {cs ts : List Token} {ds : List Diagnostic} {ns : List NodeSpan}
    (hk : t.kind = .typeIdent) (hbrace : Lacks (.punct .lbrace) ts) (hstops : Unsuffixed ts) :
    ∃ e, g.operand c ⟨cs, t :: ts, ds, ns⟩ = (some e, ⟨t :: cs, ts, ds, ns⟩) := by
  have hprimary : ∃ e, g.primary c ⟨cs, t :: ts, ds, ns⟩ = (some e, ⟨t :: cs, ts, ds, ns⟩) := by
    rw [primary, bind_of_some offset_cons, bind_of_some peek_cons]
    simp only [hk]
    rw [bind_of_some (expectText_of_kind hk), bind_of_some (isNext_of_head hbrace)]
    exact ⟨_, rfl⟩
  obtain ⟨e, hprimary⟩ := hprimary
  refine ⟨e, ?_⟩
  rw [operand, bind_of_some hprimary]
  exact suffixes_of_head e hstops

end Heads

end Bluespec
