import Bluespec.Parse
import Bluespec.Proofs.DefinitionTraits
import Bluespec.Proofs.Sites

/-!
# Statements stand where they may

Every statement of a tree is permitted by the dialect it stands in, at any depth and whether or not problems were
found on the way.

* **`Site.Permitted`** — what the table of permissions says of a statement; **`Site.InPlace`** — the same in words.
* **`Site.Sound`** — a statement is permitted, assigns only to what can be assigned to, and keeps a **`StmtLaw`** that
  holds of what is read at any level.
* **`Grammar.Permits`** — the inner parsers of a grammar yield sound trees; **`Grammar.Permits.next`** — then so do
  those one level up.  **`parse_sound`** — so all trees of a source unit are sound.
* **`parse_permitted`** — every statement of a source unit is permitted where it stands.
-/

namespace Bluespec

/-- The leaf that a statement is, if it is one.  An action block is for its effect, as an expression is. -/
def StmtForm.leaf? : StmtForm → Option Leaf
  | .regWrite _ => some .registerWrite
  | .bind _ => some .bind
  | .expr _ => some .exprStatement
  | .return_ _ => some .return_
  | _ => none

/-- The statements of a block are of the dialect that the form around it asks for. -/
def ExprForm.Fits : ExprForm → Prop
  | .actionBlock b => b.dialect = .action
  | .actionValueBlock b => b.dialect = .actionValue
  | _ => True

/-- A form of a statement is no leaf that its dialect forbids, and a block is of the same dialect. -/
def StmtForm.Fits (dialect : Dialect) (form : StmtForm) : Prop :=
  (∀ leaf, form.leaf? = some leaf → dialect.permits leaf = true) ∧ ∀ b, form = .block b → b.dialect = dialect

/-- An expression or a statement may stand where it does. -/
def Site.Permitted : Site → Prop
  | .expr e => e.form.Fits
  | .stmt dialect s => s.form.Fits dialect

/-- Register writes, bindings and expressions for their effect stand where actions are; values are returned from
functions and where actions have a value. -/
def Site.InPlace : Site → Prop
  | .stmt dialect ⟨.regWrite _, _⟩ | .stmt dialect ⟨.bind _, _⟩ | .stmt dialect ⟨.expr _, _⟩ =>
    dialect = .action ∨ dialect = .actionValue
  | .stmt dialect ⟨.return_ _, _⟩ => dialect = .actionValue ∨ dialect = .functionBody
  | _ => True

theorem Dialect.acts_of_permits {dialect : Dialect} {leaf : Leaf}
    (hleaf : leaf ∈ [.registerWrite, .bind, .exprStatement]) (h : dialect.permits leaf = true) :
    dialect = .action ∨ dialect = .actionValue := by
  cases dialect with
  | action => exact .inl rfl
  | actionValue => exact .inr rfl
  | expression => cases h
  | functionBody =>
    cases leaf with
    | return_ => exact absurd hleaf (by decide)
    | _ => cases h

theorem Dialect.returns_of_permits {dialect : Dialect} (h : dialect.permits .return_ = true) :
    dialect = .actionValue ∨ dialect = .functionBody := by
  cases dialect with
  | actionValue => exact .inl rfl
  | functionBody => exact .inr rfl
  | _ => cases h

/-- What the table of permissions says of statements. -/
theorem Site.inPlace {x : Site} (h : x.Permitted) : x.InPlace := by
  cases x with
  | expr e => exact trivial
  | stmt dialect s =>
    obtain ⟨form, span⟩ := s
    have hleaf := h.1
    cases form with
    | regWrite a => exact Dialect.acts_of_permits (by decide) (hleaf _ rfl)
    | bind b => exact Dialect.acts_of_permits (by decide) (hleaf _ rfl)
    | expr e => exact Dialect.acts_of_permits (by decide) (hleaf _ rfl)
    | return_ e => exact Dialect.returns_of_permits (hleaf _ rfl)
    | _ => exact trivial

/-- A dialect permits all kinds of statements for their effect, or none. -/
theorem Dialect.permits_actionBlock (dialect : Dialect) :
    dialect.permits .actionBlock = dialect.permits .exprStatement := by
  cases dialect <;> rfl

/-- The sites inside a simple statement. -/
def SimpleStmt.sites : SimpleStmt → List Site
  | .varDecl d => d.sites
  | .assign a => a.sites
  | .regWrite a => a.sites
  | .bind b => b.sites
  | .expr e => e.sites

theorem SimpleStmt.sites_form (s : SimpleStmt) (dialect : Dialect) : s.form.sites dialect = s.sites := by
  cases s <;> rfl

theorem SimpleStmt.leaf?_form (s : SimpleStmt) : s.form.leaf? = s.leaf? := by
  cases s <;> rfl

/-- All statements at sites are permitted. -/
abbrev Permitted (xs : List Site) : Prop := AllSites Site.Permitted xs

/-! ## Sound trees -/

/-- What assignments change can be assigned to. -/
def Assignable (as : List Assign) : Prop := ∀ a ∈ as, a.target.isLvalue = true

/-- What is asked of the statements of a dialect, besides that they may stand where they do. -/
abbrev StmtLaw := Dialect → Stmt → Prop

section Sound

variable (law : StmtLaw)

/-- A law holds of a statement. -/
def Site.Keeps : Site → Prop
  | .expr _ => True
  | .stmt dialect s => law dialect s

/-- An expression or a statement may stand where it does, and changes only what can be assigned to; a law holds of a
statement. -/
def Site.Sound (x : Site) : Prop := (x.Permitted ∧ Assignable x.assigns) ∧ x.Keeps law

/-- All expressions and statements at sites are sound. -/
abbrev Sound (xs : List Site) : Prop := AllSites (Site.Sound law) xs

/-- A form may stand in an expression, and what is inside it is sound. -/
def ExprForm.Sound (form : ExprForm) : Prop := form.Fits ∧ AllSites (Site.Sound law) form.sites

/-- A form may stand in a statement of a dialect and changes only what can be assigned to, and what is inside it is
sound. -/
def StmtForm.Sound (dialect : Dialect) (form : StmtForm) : Prop :=
  (form.Fits dialect ∧ Assignable form.assigns) ∧ AllSites (Site.Sound law) (form.sites dialect)

/-- A simple statement changes only what can be assigned to, and what is inside it is sound. -/
def SimpleStmt.Sound (s : SimpleStmt) : Prop := Assignable s.form.assigns ∧ AllSites (Site.Sound law) s.sites

/-- A module changes only what can be assigned to, and what is inside it is sound. -/
def ModuleDef.Sound (d : ModuleDef) : Prop := Assignable d.assigns ∧ AllSites (Site.Sound law) d.sites

/-- A statement of a module changes only what can be assigned to, and what is inside it is sound. -/
def ModuleStmt.Sound (s : ModuleStmt) : Prop := Assignable s.assigns ∧ AllSites (Site.Sound law) s.sites

/-- A statement of a package changes only what can be assigned to, and what is inside it is sound. -/
def PackageStmt.Sound (s : PackageStmt) : Prop := Assignable s.assigns ∧ AllSites (Site.Sound law) s.sites

end Sound

variable {law : StmtLaw}

theorem assignable_nil : Assignable [] := nofun

theorem ModuleStmt.assignable_in {ss : List ModuleStmt} (h : ∀ s ∈ ss, Assignable s.assigns) :
    Assignable (ModuleStmt.assignsIn ss) := by
  induction ss with
  | nil => exact assignable_nil
  | cons s ss ih =>
    have hcons := List.forall_mem_cons.mp h
    exact List.forall_mem_append.mpr ⟨hcons.1, ih hcons.2⟩

theorem ModuleDef.sound {d : ModuleDef} (h : ∀ s ∈ d.stmts, s.Sound law) : d.Sound law := by
  cases d
  exact ⟨ModuleStmt.assignable_in fun s hs => (h s hs).1, ModuleStmt.allSitesIn.mpr fun s hs => (h s hs).2⟩

theorem Expr.sound {e : Expr} : Sound law e.sites ↔ e.form.Sound law :=
  Expr.allSites.trans (and_congr_left fun _ => (and_iff_left trivial).trans (and_iff_left nofun))

theorem Stmt.sound {dialect : Dialect} {s : Stmt} :
    Sound law (s.sites dialect) ↔ law dialect s ∧ s.form.Sound law dialect :=
  Stmt.allSites.trans ⟨fun h => ⟨h.1.2, h.1.1, h.2⟩, fun h => ⟨⟨h.2.1, h.1⟩, h.2.2⟩⟩

namespace Parser

variable {α β : Type}

/-! ## Values of parsers -/

namespace Results

variable {P : α → Prop} {Q P' : β → Prop} {p : Parser β}

theorem seq {f : β → Parser α} (h : Results Q p) (hf : ∀ b, Q b → Results P (f b)) : Results P (p >>= f) := by
  intro c s a s' hrun
  obtain ⟨b, s₁, hb, hf'⟩ := bind_eq_some.mp hrun
  exact hf b (h c s b s₁ hb) c s₁ a s' hf'

theorem imp (h : Results Q p) (hQ : ∀ b, Q b → P' b) : Results P' p :=
  fun c s b s' hrun => hQ b (h c s b s' hrun)

theorem map {f : β → α} (h : Results Q p) (hf : ∀ b, Q b → P (f b)) : Results P (f <$> p) :=
  h.seq fun b hb => .value (hf b hb)

/-- A part that may be left out. -/
theorem optional {b : Bool} {f : Option β → Parser α} (h : Results Q p)
    (hf : ∀ r, (∀ a ∈ r, Q a) → Results P (f r)) :
    Results P (if b then some <$> p >>= f else pure none >>= f) := by
  have hsome : Results (fun r => ∀ a ∈ r, Q a) (some <$> p) := h.map fun a ha r hr => by cases hr; exact ha
  cases b with
  | true => exact hsome.seq hf
  | false => exact hf none nofun

theorem attempt (h : Results Q p) : Results (fun r => ∀ a ∈ r, Q a) (attempt p) := by
  intro c s a s' hrun b hb
  cases hrun
  exact h c s b (p c s).2 (Prod.ext hb rfl)

theorem tentatively (h : Results Q p) : Results (fun r => ∀ a ∈ r, Q a) (tentatively p) := by
  intro c s a s' hrun b hb
  unfold Parser.tentatively at hrun
  split at hrun
  · cases hrun
    cases hb
    exact h c s b _ ‹_›
  · cases hrun
    cases hb

theorem resuming (h : Results Q p) : Results (fun r => ∀ a ∈ r, Q a) (resuming p) := by
  intro c s a s' hrun b hb
  unfold Parser.resuming at hrun
  split at hrun
  · cases hrun
    cases hb
    exact h c s b _ ‹_›
  · cases hrun
    cases hb

theorem loop {round : β → Parser (Round β α)} (h : ∀ b, Q b → Results (Round.Ends Q P) (round b)) {b : β} (hb : Q b) :
    Results P (Parser.repeatUntil round b) := by
  intro c s a s' hrun
  obtain ⟨b', s₁, hkept, hdone⟩ := repeatUntil_induct (motive := fun b _ => Q b)
    (fun b s b' s' hQ hround => h b hQ c s _ s' hround) hb hrun
  exact h b' hkept c s₁ _ s' hdone

theorem separatedUpTo {separator : Punct} (h : Results Q p) (limit : Nat) :
    Results (fun as => ∀ a ∈ as, Q a) (separatedUpTo separator p limit) := by
  induction limit with
  | zero => exact .fail
  | succ limit ih =>
    refine h.seq fun a ha => .bind fun more => ?_
    cases more with
    | false => exact .value (List.forall_mem_singleton.mpr ha)
    | true => exact ih.seq fun as has => .value (List.forall_mem_cons.mpr ⟨ha, has⟩)

theorem separated {separator : Punct} (h : Results Q p) : Results (fun as => ∀ a ∈ as, Q a) (separated separator p) :=
  fun c s => h.separatedUpTo (s.rest.length + 1) c s

theorem enclosed {close : Punct} (h : Results Q p) : Results (fun as => ∀ a ∈ as, Q a) (enclosed close p) := by
  refine .bind fun b => ?_
  cases b with
  | true => exact .value nofun
  | false => exact h.separated.seq fun as has => .bind fun _ => .value has

theorem itemsUpTo (h : Results Q p) (limit : Nat) : Results (fun as => ∀ a ∈ as, Q a) (itemsUpTo p limit) := by
  induction limit with
  | zero => exact .fail
  | succ limit ih =>
    refine .bind fun closed => .bind fun stopped => ?_
    split
    · exact .value nofun
    · refine h.resuming.seq fun first hfirst => ih.seq fun others hothers => .value ?_
      exact List.forall_mem_append.mpr ⟨fun a ha => hfirst a (Option.mem_toList.mp ha), hothers⟩

theorem items (h : Results Q p) : Results (fun as => ∀ a ∈ as, Q a) (items p) :=
  fun c s => h.itemsUpTo (s.rest.length + 1) c s

theorem header {closing : Keyword} (h : Results Q p) : Results Q (header closing p) := by
  refine h.attempt.seq fun r hr => ?_
  cases r with
  | some a => exact .value (hr a rfl)
  | none => exact .bind fun _ => .fail

end Results

/-- What a permission check lets pass is permitted. -/
theorem permit_results {dialect : Dialect} {leaf : Leaf} {span : Span} :
    Results (fun _ => dialect.permits leaf = true) (permit dialect leaf span) := by
  unfold permit
  cases dialect.permits leaf with
  | true => exact .value rfl
  | false => exact .bind fun _ => .fail

theorem permitSimple_results {dialect : Dialect} {s : SimpleStmt} (h : s.Sound law) :
    Results (fun form => form = s.form ∧ form.Sound law dialect) (permitSimple dialect s) := by
  have hsites : Sound law (s.form.sites dialect) := by rw [s.sites_form]; exact h.2
  have hblock : ∀ b, s.form = .block b → b.dialect = dialect := by
    intro b hb
    cases s <;> cases hb
  have hform : (∀ leaf, s.leaf? = some leaf → dialect.permits leaf = true) → StmtForm.Sound law dialect s.form :=
    fun hleaf => ⟨⟨⟨s.leaf?_form ▸ hleaf, hblock⟩, h.1⟩, hsites⟩
  unfold permitSimple
  cases hs : s.leaf? with
  | none => exact .value ⟨rfl, hform fun leaf hleaf => by rw [hs] at hleaf; cases hleaf⟩
  | some leaf =>
    refine permit_results.seq fun _ hpermits => .value ⟨rfl, hform fun leaf' hleaf => ?_⟩
    rw [hs] at hleaf
    cases hleaf
    exact hpermits

end Parser

/-! ## Grammars -/

/-- A law that holds of simple statements, and of the statements that are read at any level. -/
structure StmtLaw.Holds (law : StmtLaw) : Prop where
  simple (dialect : Dialect) (s : SimpleStmt) (span : Span) : law dialect ⟨s.form, span⟩
  read (n : Nat) (dialect : Dialect) : Parser.Results (law dialect) ((Grammar.upTo n).stmt dialect)

/-- The law that asks for nothing. -/
def StmtLaw.any : StmtLaw := fun _ _ => True

theorem StmtLaw.Holds.any : StmtLaw.any.Holds :=
  ⟨fun _ _ _ => trivial, fun _ _ _ _ _ _ _ => trivial⟩

/-- The inner parsers of a grammar yield sound trees only, and a law holds of the statements of the grammar. -/
structure Grammar.Permits (law : StmtLaw) (g : Grammar) : Prop where
  expr (min : Nat) : Parser.Results (fun e => Sound law e.sites) (g.innerExpr min)
  operand : Parser.Results (fun e => Sound law e.sites) g.innerOperand
  stmt (dialect : Dialect) : Parser.Results (fun s => Sound law (s.sites dialect)) (g.innerStmt dialect)
  method : Parser.Results (fun d => Sound law d.sites) g.innerMethod
  subinterface : Parser.Results (fun d => Sound law d.sites) g.innerSubinterface
  module : Parser.Results (ModuleDef.Sound law) g.innerModule
  simpleLaw (dialect : Dialect) (s : SimpleStmt) (span : Span) : law dialect ⟨s.form, span⟩
  stmtLaw (dialect : Dialect) : Parser.Results (law dialect) (g.stmt dialect)

/-- The rest of a body, behind the action block that stands alone in it if there is one. -/
def Grammar.bodyAfter (g : Grammar) (dialect : Dialect) : Option Expr → Parser Body
  | some e => do
    let _ ← Parser.eat (.punct .semi)
    return .block e
  | none => return .stmts dialect (← Parser.items (g.innerStmt dialect))

theorem Grammar.body_eq_bodyAfter (g : Grammar) (dialect : Dialect) (closing : Keyword) : g.body dialect closing = (do
    let block ← if ← Grammar.atLoneBlock closing then Parser.resuming g.primary else pure none
    g.bodyAfter dialect block) := rfl

namespace Grammar.Permits

open Bluespec.Parser

variable {g : Grammar}

/-! ### Operands and operators -/

theorem arguments (h : g.Permits law) : Results (fun es => ∀ e ∈ es, Sound law e.sites) g.arguments :=
  .bind fun _ => (h.expr 0).enclosed

theorem fieldBind (h : g.Permits law) : Results (fun m => Sound law m.sites) g.fieldBind :=
  .bind fun _ => .bind fun _ => .bind fun _ => (h.expr 0).seq fun _ he => .bind fun _ => .value he

theorem fieldBinds (h : g.Permits law) : Results (fun ms => ∀ m ∈ ms, Sound law m.sites) g.fieldBinds :=
  .bind fun _ => h.fieldBind.separated.seq fun _ hms => .bind fun _ => .value hms

theorem concatItems (h : g.Permits law) : Results (fun es => ∀ e ∈ es, Sound law e.sites) g.concatItems :=
  .bind fun _ => (h.expr 0).separated.seq fun _ hes => .bind fun _ => .value hes

theorem selection (h : g.Permits law) {base : Expr} (hbase : Sound law base.sites) :
    Results (ExprForm.Sound law) (g.selection base) := by
  refine .bind fun _ => (h.expr 0).seq fun hi hhi => .bind fun b => ?_
  refine (h.expr 0).optional fun lo hlo => .bind fun _ => .value ?_
  exact ⟨trivial, ExprForm.allSites_select.mpr ⟨⟨hbase, hhi⟩, hlo⟩⟩

theorem memberOf (h : g.Permits law) {receiver : Expr} (hreceiver : Sound law receiver.sites) :
    Results (ExprForm.Sound law) (g.memberOf receiver) := by
  refine .bind fun _ => .bind fun name => .bind fun b => ?_
  cases b with
  | true =>
    refine h.arguments.seq fun args hargs => .value ?_
    exact ⟨trivial, allSites_append.mpr ⟨hreceiver, Expr.allSitesIn.mpr hargs⟩⟩
  | false => exact .value ⟨trivial, hreceiver⟩

theorem suffix (h : g.Permits law) {e : Expr} (he : Sound law e.sites) :
    Results (Round.Ends (fun e => Sound law e.sites) fun e => Sound law e.sites) (g.suffix e) := by
  refine .bind fun k => ?_
  split
  · refine h.arguments.seq fun args hargs => .bind fun _ => .value (Expr.sound.mpr ?_)
    exact ⟨trivial, allSites_append.mpr ⟨he, Expr.allSitesIn.mpr hargs⟩⟩
  · exact (h.selection he).seq fun f hf => .bind fun _ => .value (Expr.sound.mpr hf)
  · exact (h.memberOf he).seq fun f hf => .bind fun _ => .value (Expr.sound.mpr hf)
  · exact .value he

theorem suffixes (h : g.Permits law) {e : Expr} (he : Sound law e.sites) :
    Results (fun e => Sound law e.sites) (g.suffixes e) :=
  .loop (fun _ hb => h.suffix hb) he

theorem furtherConjuncts (h : g.Permits law) (min : Nat) :
    Results (fun es => ∀ e ∈ es, Sound law e.sites) (g.furtherConjuncts min) := by
  refine .loop (Q := fun es => ∀ e ∈ es, Sound law e.sites) (fun es hes => .bind fun b => ?_) nofun
  cases b with
  | true =>
    exact (h.expr min).seq fun e he => .value (List.forall_mem_append.mpr ⟨hes, List.forall_mem_singleton.mpr he⟩)
  | false => exact .value hes

theorem conditional (h : g.Permits law) {p : Predicate} (hp : Sound law p.sites) :
    Results (fun e => Sound law e.sites) (g.conditional p) := by
  refine .bind fun _ => (h.expr 0).seq fun a ha => .bind fun _ => (h.expr _).seq fun b hb => .bind fun _ => ?_
  exact .value (Expr.sound.mpr ⟨trivial, allSites_append.mpr ⟨allSites_append.mpr ⟨hp, ha⟩, hb⟩⟩)

theorem conjunctsOfConditional (h : g.Permits law) :
    Results (fun es => ∀ e ∈ es, Sound law e.sites) g.conjunctsOfConditional := by
  refine (h.furtherConjuncts _).seq fun es hes => .bind fun b => ?_
  split
  · exact .value hes
  · exact .fail

theorem operation (h : g.Permits law) (min : Nat) {lhs : Expr} (hlhs : Sound law lhs.sites) :
    Results (Round.Ends (fun e => Sound law e.sites) fun e => Sound law e.sites) (g.operation min lhs) := by
  have hpredicate : ∀ {others : List Expr} {span : Span}, (∀ e ∈ others, Sound law e.sites) →
      Sound law (Predicate.sites ⟨lhs :: others, span⟩) := by
    intro others span hothers
    exact Expr.allSitesIn.mpr (List.forall_mem_cons.mpr ⟨hlhs, hothers⟩)
  have hnone : ∀ e ∈ ([] : List Expr), Sound law e.sites := List.forall_mem_nil _
  refine .bind fun k => ?_
  split
  · split
    · exact (h.conditional (hpredicate hnone)).seq fun e he => .value he
    · exact .value hlhs
  · split
    · refine h.conjunctsOfConditional.tentatively.seq fun others hothers => ?_
      cases others with
      | some others =>
        exact .bind fun span => (h.conditional (hpredicate (hothers others rfl))).seq fun e he => .value he
      | none => exact .value hlhs
    · exact .value hlhs
  · exact .bind fun _ => .bind fun _ => .bind fun _ => .fail
  · split
    · split
      · exact .bind fun _ => (h.expr _).seq fun rhs hrhs =>
          .value (Expr.sound.mpr ⟨trivial, allSites_append.mpr ⟨hlhs, hrhs⟩⟩)
      · exact .value hlhs
    · exact .value hlhs

theorem operations (h : g.Permits law) (min : Nat) {lhs : Expr} (hlhs : Sound law lhs.sites) :
    Results (fun e => Sound law e.sites) (g.operations min lhs) :=
  .loop (fun _ hb => h.operation min hb) hlhs

/-! ### Simple statements -/

theorem valueAndSemicolon (h : g.Permits law) : Results (fun e => Sound law e.sites) g.valueAndSemicolon :=
  (h.expr 0).seq fun _ he => .bind fun _ => .value he

theorem simpleTail (h : g.Permits law) {target : Expr} (ht : Sound law target.sites) :
    Results (SimpleStmt.Sound law) (g.simpleTail target) := by
  have hboth : ∀ {value : Expr}, Sound law value.sites → Sound law (target.sites ++ value.sites) :=
    fun hvalue => allSites_append.mpr ⟨ht, hvalue⟩
  refine .bind fun k => ?_
  split
  · refine .bind fun _ => h.valueAndSemicolon.seq fun value hvalue => ?_
    split
    · next htarget =>
      exact .bind fun _ => .value ⟨List.forall_mem_singleton.mpr htarget, hboth hvalue⟩
    · exact .bind fun _ => .fail
  · refine .bind fun _ => h.valueAndSemicolon.seq fun value hvalue => .bind fun _ => ?_
    exact .value ⟨assignable_nil, hboth hvalue⟩
  · split
    · exact .bind fun _ => h.valueAndSemicolon.seq fun value hvalue => .bind fun _ => .value ⟨assignable_nil, hvalue⟩
    · exact .bind fun _ => .fail
  · exact .bind fun _ => .value ⟨assignable_nil, ht⟩
  · exact .bind fun _ => .fail

theorem letStmt (h : g.Permits law) : Results (SimpleStmt.Sound law) g.letStmt := by
  refine .bind fun _ => .bind fun _ => .bind fun name => .bind fun b => ?_
  cases b with
  | true => exact h.valueAndSemicolon.seq fun value hvalue => .bind fun _ => .value ⟨assignable_nil, hvalue⟩
  | false =>
    refine .bind fun _ => (h.expr 0).seq fun init hinit => .bind fun _ => .bind fun _ => .bind fun _ => .value ?_
    refine ⟨assignable_nil, ?_⟩
    refine Declarator.allSitesIn.mpr (List.forall_mem_singleton.mpr (Declarator.allSites.mpr ⟨nofun, fun e he => ?_⟩))
    cases he
    exact hinit

theorem dimensions (h : g.Permits law) : Results (fun es => ∀ e ∈ es, Sound law e.sites) g.dimensions := by
  refine .loop (Q := fun es => ∀ e ∈ es, Sound law e.sites) (fun es hes => .bind fun b => ?_) nofun
  cases b with
  | true =>
    refine (h.expr 0).seq fun e he => .bind fun _ => .value ?_
    exact List.forall_mem_append.mpr ⟨hes, List.forall_mem_singleton.mpr he⟩
  | false => exact .value hes

theorem declaratorTail (h : g.Permits law) (name : Token) :
    Results (fun d => Sound law d.sites) (g.declaratorTail name) := by
  refine h.dimensions.seq fun dims hdims => .bind fun b => (h.expr 0).optional fun init hinit => .bind fun _ => ?_
  exact .value (Declarator.allSites.mpr ⟨hdims, hinit⟩)

theorem typedStmt (h : g.Permits law) : Results (SimpleStmt.Sound law) g.typedStmt := by
  refine .bind fun _ => .bind fun type => .bind fun name => .bind fun b => ?_
  cases b with
  | true => exact h.valueAndSemicolon.seq fun value hvalue => .bind fun _ => .value ⟨assignable_nil, hvalue⟩
  | false =>
    refine (h.declaratorTail name).seq fun first hfirst => .bind fun more => ?_
    have hdone : ∀ {others : List Declarator}, (∀ d ∈ others, Sound law d.sites) →
        Sound law (Declarator.sitesIn (first :: others)) := by
      intro others hothers
      exact Declarator.allSitesIn.mpr (List.forall_mem_cons.mpr ⟨hfirst, hothers⟩)
    cases more with
    | true =>
      have hdeclarator : Results (fun d => Sound law d.sites) g.declarator := .bind fun name => h.declaratorTail name
      exact hdeclarator.separated.seq fun others hothers =>
        .bind fun _ => .bind fun _ => .value ⟨assignable_nil, hdone hothers⟩
    | false =>
      have hnone : Results (fun ds => ∀ d ∈ ds, Sound law d.sites) (pure ([] : List Declarator)) := .value nofun
      refine hnone.seq fun others hothers => ?_
      exact .bind fun _ => .bind fun _ => .value ⟨assignable_nil, hdone hothers⟩

/-! ### Blocks -/

theorem block (h : g.Permits law) (dialect : Dialect) (opening closing : Keyword) :
    Results (fun b => b.dialect = dialect ∧ Sound law b.sites) (g.block dialect opening closing) := by
  refine .bind fun _ => .bind fun _ => .bind fun _ => (h.stmt dialect).items.seq fun ss hss => ?_
  exact .bind fun _ => .bind fun _ => .bind fun _ => .value ⟨rfl, Stmt.allSitesIn.mpr hss⟩

/-- What stands in a block with a result is permitted there. -/
def ItemPermitted (law : StmtLaw) : BlockItem → Prop
  | .stmt s => Sound law (s.sites .expression)
  | .result e => Sound law e.sites

theorem blockStmtTail (h : g.Permits law) (start : Nat) {target : Expr} (ht : Sound law target.sites) :
    Results (ItemPermitted law) (g.blockStmtTail start target) := by
  refine (h.simpleTail ht).seq fun simple hsimple => (permitSimple_results hsimple).seq fun form hform => ?_
  exact .bind fun span => .value (Stmt.sound.mpr ⟨hform.1 ▸ h.simpleLaw .expression simple span, hform.2⟩)

theorem blockItem (h : g.Permits law) : Results (ItemPermitted law) g.blockItem := by
  refine .bind fun b => ?_
  cases b with
  | true => exact (h.stmt .expression).seq fun s hs => .value hs
  | false =>
    refine .bind fun start => h.operand.seq fun target ht => .bind fun k => ?_
    split
    · exact h.blockStmtTail start ht
    · exact h.blockStmtTail start ht
    · refine .bind fun next => ?_
      split
      · exact .bind fun _ => .value ht
      · exact h.blockStmtTail start ht
    · exact (h.operations 0 ht).seq fun result hresult => .bind fun _ => .value hresult

theorem blockItems (h : g.Permits law) :
    Results (fun r => (∀ s ∈ r.1, Sound law (s.sites .expression)) ∧ Sound law r.2.sites) g.blockItems := by
  refine .loop (Q := fun ss => ∀ s ∈ ss, Sound law (s.sites .expression)) (fun read hread => ?_) nofun
  refine .bind fun stopped => ?_
  split
  · exact .fail
  refine .bind fun closed => ?_
  split
  · exact .bind fun _ => .fail
  refine h.blockItem.resuming.seq fun item hitem => ?_
  split
  · exact .value hread
  · exact .value (List.forall_mem_append.mpr ⟨hread, List.forall_mem_singleton.mpr (hitem _ rfl)⟩)
  · exact .value ⟨hread, hitem _ rfl⟩

theorem valueBlock (h : g.Permits law) : Results (ExprForm.Sound law) g.valueBlock := by
  refine .bind fun _ => .bind fun _ => h.blockItems.seq fun r hr => .bind fun _ => .bind fun _ => .value ?_
  exact ⟨trivial, allSites_append.mpr ⟨Stmt.allSitesIn.mpr hr.1, hr.2⟩⟩

theorem interfaceStmt (h : g.Permits law) : Results (fun s => Sound law s.sites) g.interfaceStmt := by
  refine .bind fun _ => .bind fun k => ?_
  split
  · exact h.method.seq fun d hd => .value hd
  · exact h.subinterface.seq fun d hd => .value hd
  · exact (h.stmt .expression).seq fun s hs => .value hs

theorem interfaceExpr (h : g.Permits law) : Results (ExprForm.Sound law) g.interfaceExpr := by
  refine .bind fun _ => .bind fun _ => .bind fun _ => h.interfaceStmt.items.seq fun ss hss => ?_
  exact .bind fun _ => .bind fun _ => .value ⟨trivial, InterfaceStmt.allSitesIn.mpr hss⟩

/-! ### Expressions -/

theorem payload (h : g.Permits law) : Results (fun p => Sound law p.sites) g.payload := by
  refine .bind fun k => ?_
  split
  · exact h.fieldBinds.seq fun ms hms => .value (FieldBind.allSitesIn.mpr hms)
  · split
    · exact h.operand.seq fun e he => .value he
    · exact .value allSites_nil
  · exact .value allSites_nil

/-- An expression around a form of permitted parts. -/
theorem spanned {start : Nat} {form : ExprForm} (hform : form.Sound law) :
    Results (fun e : Expr => Sound law e.sites) (spanFrom start >>= fun span => pure ⟨form, span⟩) :=
  .bind fun _ => .value (Expr.sound.mpr hform)

theorem primary (h : g.Permits law) : Results (fun e => Sound law e.sites) g.primary := by
  refine .bind fun start => .bind fun k => ?_
  split
  · exact .bind fun _ => spanned ⟨trivial, allSites_nil⟩
  · refine .bind fun name => .bind fun b => ?_
    split
    · exact h.fieldBinds.seq fun ms hms => spanned ⟨trivial, FieldBind.allSitesIn.mpr hms⟩
    · exact spanned ⟨trivial, allSites_nil⟩
  · exact .bind fun _ => spanned ⟨trivial, allSites_nil⟩
  · exact .bind fun _ => spanned ⟨trivial, allSites_nil⟩
  · exact .bind fun _ => spanned ⟨trivial, allSites_nil⟩
  · exact .bind fun _ => spanned ⟨trivial, allSites_nil⟩
  · exact .bind fun _ => spanned ⟨trivial, allSites_nil⟩
  · exact .bind fun _ => (h.expr 0).seq fun e he => .bind fun _ => spanned (Expr.sound.mp he)
  · exact h.concatItems.seq fun es hes => spanned ⟨trivial, Expr.allSitesIn.mpr hes⟩
  · exact h.valueBlock.seq fun f hf => spanned hf
  · exact (h.block _ _ _).seq fun b hb => spanned hb
  · exact (h.block _ _ _).seq fun b hb => spanned hb
  · exact .bind fun _ => .bind fun _ => h.payload.seq fun p hp => spanned ⟨trivial, hp⟩
  · exact h.interfaceExpr.seq fun f hf => spanned hf
  · exact .bind fun _ => .bind fun _ => .bind fun _ => .bind fun _ => spanned ⟨trivial, allSites_nil⟩
  · exact .bind fun _ => .bind fun _ => .fail
  · exact .bind fun _ => .fail

theorem unaryOperand (h : g.Permits law) (start : Nat) (op : UnaryOp) :
    Results (fun e => Sound law e.sites) (g.unaryOperand start op) := by
  have hinner : Results (fun e : Expr => Sound law e.sites) (g.innerExpr unaryPower >>= fun inner =>
      spanFrom start >>= fun span => pure ⟨.unary op inner, span⟩) :=
    (h.expr unaryPower).seq fun inner hinner => spanned ⟨trivial, hinner⟩
  unfold Grammar.unaryOperand
  split
  · refine .bind fun b => ?_
    split
    · refine h.primary.seq fun lit hlit => ?_
      split
      · next sign form hform =>
        refine spanned ?_
        unfold ExprForm.withSign? at hform
        split at hform
        · split at hform
          · cases hform
            exact ⟨trivial, allSites_nil⟩
          · cases hform
        · cases hform
      · exact (h.suffixes hlit).seq fun e he => (h.operations unaryPower he).seq fun inner hinner => spanned ⟨trivial, hinner⟩
    · exact hinner
  · exact hinner

theorem unary (h : g.Permits law) : Results (fun e => Sound law e.sites) g.unary := by
  refine .bind fun k => ?_
  split
  · exact h.primary
  · exact .bind fun start => .bind fun _ => h.unaryOperand start _

theorem anyExpr (h : g.Permits law) (min : Nat) : Results (fun e => Sound law e.sites) (g.expr min) :=
  h.unary.seq fun _ he => (h.suffixes he).seq fun _ he => h.operations min he

theorem predicate (h : g.Permits law) : Results (fun p => Sound law p.sites) g.predicate := by
  refine .bind fun start => (h.expr 0).seq fun first hfirst => (h.furtherConjuncts 0).seq fun others hothers => ?_
  exact .bind fun span => .value (Expr.allSitesIn.mpr (List.forall_mem_cons.mpr ⟨hfirst, hothers⟩))

theorem parenPredicate (h : g.Permits law) : Results (fun p => Sound law p.sites) g.parenPredicate :=
  .bind fun _ => h.predicate.seq fun _ hp => .bind fun _ => .value hp

/-! ### Definitions -/

theorem simple (h : g.Permits law) : Results (SimpleStmt.Sound law) g.simple := by
  refine .bind fun b => ?_
  split
  · exact h.letStmt
  refine .bind fun b => ?_
  split
  · exact h.typedStmt
  · exact (h.primary.seq fun _ he => h.suffixes he).seq fun e he => h.simpleTail he

theorem returned (h : g.Permits law) : Results (fun e => Sound law e.sites) g.returned :=
  .bind fun _ => h.valueAndSemicolon

theorem bodyAfter (h : g.Permits law) (dialect : Dialect) {block : Option Expr}
    (hblock : ∀ e ∈ block, Sound law e.sites) : Results (fun b => Sound law b.sites) (g.bodyAfter dialect block) := by
  cases block with
  | some e => exact .bind fun _ => .value (hblock e rfl)
  | none => exact (h.stmt dialect).items.seq fun ss hss => .value (Stmt.allSitesIn.mpr hss)

theorem body (h : g.Permits law) (dialect : Dialect) (closing : Keyword) :
    Results (fun b => Sound law b.sites) (g.body dialect closing) := by
  rw [body_eq_bodyAfter]
  have hnone : ∀ e ∈ (none : Option Expr), Sound law e.sites := fun e he => by cases he
  refine .bind fun b => ?_
  split
  · exact h.primary.resuming.seq fun _ he => h.bodyAfter dialect he
  · exact h.bodyAfter dialect hnone

theorem functionDef (h : g.Permits law) : Results (fun d => Sound law d.sites) g.functionDef :=
  .bind fun _ => .bind fun _ => (h.body _ _).seq fun _ hb => .bind fun _ => .value hb

theorem methodHeader (h : g.Permits law) : Results (fun r => ∀ p ∈ r.2.2.2, Sound law p.sites) g.methodHeader := by
  refine .bind fun _ => .bind fun bare => ?_
  have hrest : ∀ result : Option TypeExpr, Results (fun r => ∀ p ∈ r.2.2.2, Sound law p.sites) (do
      let name ← expectText .ident
      let formals ← formalsIfAny true
      let guard ← if ← accept (.keyword .if_) then some <$> g.parenPredicate else pure none
      expectPunct .semi
      return (result, name, formals, guard)) := fun result =>
    .bind fun name => .bind fun formals => .bind fun b => h.parenPredicate.optional fun guard hguard =>
      .bind fun _ => .value hguard
  split
  · exact .bind hrest
  · exact .bind hrest

theorem methodDef (h : g.Permits law) : Results (fun d => Sound law d.sites) g.methodDef := by
  refine .bind fun _ => h.methodHeader.header.seq fun r hr => (h.body _ _).seq fun b hb => .bind fun _ => ?_
  exact .value (MethodDef.allSites.mpr ⟨hr, hb⟩)

theorem ruleHeader (h : g.Permits law) : Results (fun r => ∀ p ∈ r.2, Sound law p.sites) g.ruleHeader :=
  .bind fun _ => .bind fun _ => .bind fun _ => h.parenPredicate.optional fun _ hguard => .bind fun _ => .value hguard

theorem ruleDef (h : g.Permits law) : Results (fun d => Sound law d.sites) g.ruleDef := by
  refine .bind fun _ => h.ruleHeader.header.seq fun r hr => (h.stmt .action).items.seq fun ss hss => .bind fun _ => ?_
  exact .value (RuleDef.allSites.mpr ⟨hr, hss⟩)

theorem subinterfaceDef (h : g.Permits law) : Results (fun d => Sound law d.sites) g.subinterfaceDef :=
  .bind fun _ => .bind fun _ => h.interfaceStmt.items.seq fun _ hss => .bind fun _ =>
    .value (InterfaceStmt.allSitesIn.mpr hss)

theorem simpleModuleStmt (h : g.Permits law) : Results (ModuleStmt.Sound law) g.simpleModuleStmt := by
  refine h.simple.seq fun s hs => ?_
  split
  · exact .bind fun _ => .value hs
  · exact .bind fun _ => .value hs
  · exact .value hs
  · exact .value hs
  · exact .bind fun _ => .fail

theorem moduleStmt (h : g.Permits law) : Results (ModuleStmt.Sound law) g.moduleStmt := by
  refine .bind fun _ => .bind fun k => ?_
  split
  · exact h.methodDef.seq fun d hd => .value ⟨assignable_nil, hd⟩
  · exact h.subinterfaceDef.seq fun d hd => .value ⟨assignable_nil, hd⟩
  · exact h.ruleDef.seq fun d hd => .value ⟨assignable_nil, hd⟩
  · exact h.returned.seq fun e he => .value ⟨assignable_nil, he⟩
  · exact h.functionDef.seq fun d hd => .value ⟨assignable_nil, hd⟩
  · exact h.module.seq fun d hd => .value hd
  · exact .bind fun _ => .fail
  · exact .bind fun _ => .fail
  · exact .bind fun _ => .fail
  · exact .bind fun _ => .bind fun _ => .bind fun _ => .fail
  · exact h.simpleModuleStmt

theorem moduleDef (h : g.Permits law) : Results (ModuleDef.Sound law) g.moduleDef :=
  .bind fun _ => .bind fun _ => h.moduleStmt.items.seq fun _ hss => .bind fun _ => .value (ModuleDef.sound hss)

/-! ### Statements -/

theorem ifStmt (h : g.Permits law) (dialect : Dialect) : Results (StmtForm.Sound law dialect) (g.ifStmt dialect) := by
  refine .bind fun _ => h.parenPredicate.seq fun p hp => (h.stmt dialect).seq fun a ha => .bind fun b => ?_
  exact (h.stmt dialect).optional fun b hb =>
    .value ⟨⟨⟨nofun, nofun⟩, assignable_nil⟩, StmtForm.allSites_cond.mpr ⟨⟨hp, ha⟩, hb⟩⟩

theorem returnStmt (h : g.Permits law) (dialect : Dialect) :
    Results (StmtForm.Sound law dialect) (g.returnStmt dialect) := by
  refine .bind fun _ => h.returned.seq fun e he => permit_results.seq fun _ hpermits => .value ?_
  refine ⟨⟨⟨fun leaf hleaf => ?_, nofun⟩, assignable_nil⟩, he⟩
  cases hleaf
  exact hpermits

theorem actionStmt (h : g.Permits law) (dialect : Dialect) :
    Results (StmtForm.Sound law dialect) (g.actionStmt dialect) := by
  refine .bind fun _ => (h.primary.seq fun _ he => h.suffixes he).seq fun e he => .bind fun _ => ?_
  refine permit_results.seq fun _ hpermits => .value ⟨⟨⟨fun leaf hleaf => ?_, nofun⟩, assignable_nil⟩, he⟩
  cases hleaf
  exact dialect.permits_actionBlock ▸ hpermits

theorem stmtForm (h : g.Permits law) (dialect : Dialect) :
    Results (StmtForm.Sound law dialect) (g.stmtForm dialect) := by
  refine .bind fun k => ?_
  split
  · refine (h.block _ _ _).seq fun b hb => .value ⟨⟨⟨nofun, fun _ heq => ?_⟩, assignable_nil⟩, hb.2⟩
    cases heq
    exact hb.1
  · exact h.ifStmt dialect
  · exact h.returnStmt dialect
  · exact h.functionDef.seq fun d hd => .value ⟨⟨⟨nofun, nofun⟩, assignable_nil⟩, hd⟩
  · exact h.moduleDef.seq fun d hd => .value ⟨⟨⟨nofun, nofun⟩, hd.1⟩, hd.2⟩
  · exact .bind fun _ => .fail
  · exact .bind fun _ => .fail
  · exact .bind fun _ => .fail
  · exact .bind fun _ => .fail
  · exact h.actionStmt dialect
  · exact h.actionStmt dialect
  · exact .bind fun _ => .fail
  · exact h.simple.seq fun s hs => (permitSimple_results hs).imp fun _ => And.right

theorem anyStmt (h : g.Permits law) (dialect : Dialect) :
    Results (fun s => Sound law (s.sites dialect)) (g.stmt dialect) := by
  have hform : Results (fun s : Stmt => s.form.Sound law dialect) (g.stmt dialect) :=
    .bind fun _ => .bind fun _ => (h.stmtForm dialect).seq fun _ hform => .bind fun _ => .value hform
  intro c s a s' hrun
  exact Stmt.sound.mpr ⟨h.stmtLaw dialect c s a s' hrun, hform c s a s' hrun⟩

/-! ### Levels -/

/-- What the inner parsers yield is permitted one level up as well. -/
theorem next (h : g.Permits law) (hlaw : ∀ dialect, Results (law dialect) (g.next.stmt dialect)) :
    g.next.Permits law where
  expr := h.anyExpr
  operand := h.primary.seq fun _ he => h.suffixes he
  stmt := h.anyStmt
  method := h.methodDef
  subinterface := h.subinterfaceDef
  module := h.moduleDef
  simpleLaw := h.simpleLaw
  stmtLaw := hlaw

theorem upTo (hlaw : law.Holds) : ∀ n, (Grammar.upTo n).Permits law
  | 0 => ⟨fun _ => .fail, .fail, fun _ => .fail, .fail, .fail, .fail, hlaw.simple, hlaw.read 0⟩
  | n + 1 => (upTo hlaw n).next (hlaw.read (n + 1))

end Grammar.Permits

/-! ## Source units -/

namespace Parser

open Grammar

theorem withGrammar_results {α : Type} {P : α → Prop} {production : Grammar → Parser α}
    (hlaw : law.Holds) (h : ∀ g, g.Permits law → Results P (production g)) : Results P (withGrammar production) :=
  fun c s => h _ (.upTo hlaw s.rest.length) c s

theorem simplePackageStmt_results (hlaw : law.Holds) : Results (PackageStmt.Sound law) simplePackageStmt := by
  refine (withGrammar_results hlaw fun _ h => h.simple).seq fun s hs => ?_
  split
  · exact .bind fun _ => .value hs
  · exact .bind fun _ => .value hs
  · exact .bind fun _ => .fail

theorem packageStmt_results (hlaw : law.Holds) : Results (PackageStmt.Sound law) packageStmt := by
  refine .bind fun _ => .bind fun k => ?_
  split
  · exact .bind fun _ => .value ⟨assignable_nil, allSites_nil⟩
  · exact (withGrammar_results hlaw fun _ h => h.moduleDef).seq fun d hd => .value hd
  · exact (withGrammar_results hlaw fun _ h => h.functionDef).seq fun d hd => .value ⟨assignable_nil, hd⟩
  · exact .bind fun _ => .fail
  · exact .bind fun _ => .fail
  · exact .bind fun _ => .fail
  · exact .bind fun _ => .fail
  · exact simplePackageStmt_results hlaw

theorem packageItem_results (hlaw : law.Holds) {b : PackageBody} (h : ∀ s ∈ b.stmts, s.Sound law) (k : Kind) :
    Results (fun b => ∀ s ∈ b.stmts, s.Sound law) (packageItem b k) := by
  unfold packageItem
  split
  · exact .bind fun _ => .value h
  · exact .bind fun _ => .value h
  · split
    · exact .bind fun _ => .bind fun _ => .bind fun _ => .value h
    · refine (packageStmt_results hlaw).resuming.seq fun s hs => .value ?_
      exact List.forall_mem_append.mpr ⟨h, fun a ha => hs a (Option.mem_toList.mp ha)⟩

theorem packageBody_results (hlaw : law.Holds) (inPackage : Bool) :
    Results (fun b => ∀ s ∈ b.stmts, s.Sound law) (packageBody inPackage) := by
  refine .loop (Q := fun b => ∀ s ∈ b.stmts, s.Sound law) (fun b hb => .bind fun stopped => ?_) nofun
  split
  · exact .value hb
  refine .bind fun k => ?_
  split
  · exact .value hb
  · split
    · exact .value hb
    · exact (packageItem_results hlaw hb _).seq fun b hb => .value hb

theorem sourceUnit_results (hlaw : law.Holds) : Results (fun u => ∀ s ∈ u.body.stmts, s.Sound law) sourceUnit := by
  refine .bind fun b => ?_
  split
  · have hpackage : Results (fun p => ∀ s ∈ p.body.stmts, s.Sound law) package :=
      .bind fun _ => .bind fun _ => (packageBody_results hlaw true).seq fun b hb => .bind fun _ => .bind fun _ =>
        .bind fun _ => .value hb
    refine hpackage.seq fun p hp => .bind fun ended => .bind fun stopped => ?_
    split
    · exact .bind fun _ => .value hp
    · exact .value hp
  · exact (packageBody_results hlaw false).seq fun b hb => .value hb

end Parser

/-- All trees of a source unit are sound, in both ways to deal with problems and whether or not there are any. -/
theorem parse_sound (hlaw : law.Holds) (source : String) (recovery : Recovery) :
    ∀ s ∈ (parse source recovery).root.body.stmts, s.Sound law := by
  unfold parse
  dsimp only
  split
  · exact List.forall_mem_nil _
  · cases hrun : Parser.sourceUnit (.ofText source recovery) (.ofText source) with
    | mk r s' =>
      cases r with
      | none => exact List.forall_mem_nil _
      | some u => exact Parser.sourceUnit_results hlaw _ _ u s' hrun

theorem SourceUnit.allSites {P : Site → Prop} {u : SourceUnit} :
    AllSites P u.sites ↔ ∀ s ∈ u.body.stmts, AllSites P s.sites := by
  cases u with
  | package p => exact PackageBody.allSites
  | items b => exact PackageBody.allSites

/-- Every statement of a source unit is permitted by the dialect it stands in, at any depth, in both ways to deal
with problems and whether or not there are any. -/
theorem parse_permitted (source : String) (recovery : Recovery) :
    AllSites (fun x => x.Permitted ∧ x.InPlace) (parse source recovery).root.sites := by
  have hpermitted : Permitted (parse source recovery).root.sites :=
    SourceUnit.allSites.mpr fun s hs x hx => ((parse_sound .any source recovery s hs).2 x hx).1.1
  exact fun x hx => ⟨hpermitted x hx, Site.inPlace (hpermitted x hx)⟩

end Bluespec
