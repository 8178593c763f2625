import Bluespec.Proofs.SupportedConstructs

/-!
# The functions and methods of a tree

A function or a method is defined in a module, in an interface, in a package, or as a statement of a dialect.  In a
tree without diagnostics each of them was read where its word stands.

* **`Definition`** — a function or a method; **`SourceUnit.definitions`** lists those of a tree at any depth.
* **`Parser.ReadIn`** — a value that a run without diagnostics over some of the tokens yields.
* **`definitions_readIn`** — the functions and methods of a tree without diagnostics.
-/

namespace Bluespec

open Bluespec.Parser

/-! ## The definitions of a tree -/

/-- A function or a method. -/
inductive Definition
  | function (d : FunctionDef)
  | method (d : MethodDef)

mutual

/-- The methods of an interface and of the interfaces directly in it. -/
def SubinterfaceDef.definitions : SubinterfaceDef → List Definition
  | ⟨_, _, ss, _, _⟩ => InterfaceStmt.definitionsIn ss

/-- The method that a statement of an interface is, or those of the interface that it defines. -/
def InterfaceStmt.definitions : InterfaceStmt → List Definition
  | .method d => [.method d]
  | .subinterface d => d.definitions
  | .stmt _ => []

/-- The methods of statements of an interface. -/
def InterfaceStmt.definitionsIn : List InterfaceStmt → List Definition
  | [] => []
  | s :: ss => s.definitions ++ InterfaceStmt.definitionsIn ss

end

mutual

/-- The functions and methods of a module, and of the modules and interfaces directly in it. -/
def ModuleDef.definitions : ModuleDef → List Definition
  | ⟨_, _, _, _, ss, _, _⟩ => ModuleStmt.definitionsIn ss

/-- The definition that a statement of a module is, or those of the module or interface that it defines. -/
def ModuleStmt.definitions : ModuleStmt → List Definition
  | .method d => [.method d]
  | .subinterface d => d.definitions
  | .function d => [.function d]
  | .module d => d.definitions
  | _ => []

/-- The definitions of statements of a module. -/
def ModuleStmt.definitionsIn : List ModuleStmt → List Definition
  | [] => []
  | s :: ss => s.definitions ++ ModuleStmt.definitionsIn ss

end

/-- The methods of an interface that stands for a value. -/
def ExprForm.definitions : ExprForm → List Definition
  | .interfaceExpr _ ss _ => InterfaceStmt.definitionsIn ss
  | _ => []

/-- The function that a form of a statement is, or the definitions of the module that it defines. -/
def StmtForm.definitions : StmtForm → List Definition
  | .function d => [.function d]
  | .module d => d.definitions
  | _ => []

/-- The definitions of a site, without those of the sites inside it. -/
def Site.definitions : Site → List Definition
  | .expr e => e.form.definitions
  | .stmt _ s => s.form.definitions

/-- The function that a statement of a package is, or the definitions of the module that it defines. -/
def PackageStmt.definitions : PackageStmt → List Definition
  | .function d => [.function d]
  | .module d => d.definitions
  | _ => []

/-- The functions and methods of a source unit, at any depth. -/
def SourceUnit.definitions (u : SourceUnit) : List Definition :=
  u.body.stmts.flatMap PackageStmt.definitions ++ u.sites.flatMap Site.definitions

/-! ## Values that are read among tokens -/

namespace Parser

variable {α β γ δ : Type} {tokens tokens' : List Token} {H : Option Kind → Prop} {p item : Parser α} {a : α}
  {c : Setting} {s s' : State}

/-- A run over some of the tokens, with a first one of a known kind, yields the value without diagnostics. -/
def ReadIn (tokens : List Token) (H : Option Kind → Prop) (p : Parser α) (a : α) : Prop :=
  ∃ c s s', s.rest <:+: tokens ∧ H s.peek ∧ p c s = (some a, s') ∧ s'.diagnostics = []

theorem ReadIn.mono (h : ReadIn tokens H p a) (htokens : tokens <:+: tokens') : ReadIn tokens' H p a := by
  obtain ⟨c, s, s', hs, hrun⟩ := h
  exact ⟨c, s, s', hs.trans htokens, hrun⟩

theorem State.Moves.within (h : s.Moves s') (hs : s.rest <:+: tokens) : s'.rest <:+: tokens :=
  h.rest.isInfix.trans hs

theorem ReadIn.congr (h : ReadIn tokens H p a) {q : Parser α} (hq : ∀ c s, H s.peek → p c s = q c s) :
    ReadIn tokens H q a := by
  obtain ⟨c, s, s', hs, hhead, hrun, hclean⟩ := h
  exact ⟨c, s, s', hs, hhead, hq c s hhead ▸ hrun, hclean⟩

/-- What the runs of a parser without diagnostics over some of the tokens yield has a property. -/
def Shows (tokens : List Token) (H : Option Kind → Prop) (P : α → Prop) (p : Parser α) : Prop :=
  ∀ a, ReadIn tokens H p a → P a

namespace Shows

variable {P : α → Prop} {f : β → Parser α} {q : Parser β}

theorem of_results (h : Results P p) : Shows tokens H P p := by
  rintro a ⟨c, s, s', -, -, hrun, -⟩
  exact h c s a s' hrun

theorem after (hq : Moving q) (hf : ∀ b, Shows tokens any P (f b)) : Shows tokens H P (q >>= f) := by
  rintro a ⟨c, s, s', hs, -, hrun, hclean⟩
  obtain ⟨b, s₁, hfirst, hrest⟩ := bind_eq_some.mp hrun
  exact hf b a ⟨c, s₁, s', (hq.of_run hfirst).within hs, trivial, hrest, hclean⟩

/-- What is yielded is made of the value of a part. -/
theorem seq {Q : β → Prop} (h : Shows tokens H Q q) (hmoves : ∀ b, Moving (f b)) (hf : ∀ b, Q b → Results P (f b)) :
    Shows tokens H P (q >>= f) := by
  rintro a ⟨c, s, s', hs, hhead, hrun, hclean⟩
  obtain ⟨b, s₁, hq, hrest⟩ := bind_eq_some.mp hrun
  exact hf b (h b ⟨c, s, s₁, hs, hhead, hq, ((hmoves b).of_run hrest).clean hclean⟩) c s₁ a s' hrest

theorem last {g : β → α} (h : Shows tokens H (fun b => P (g b)) q) : Shows tokens H P (q >>= fun b => pure (g b)) :=
  h.seq (fun _ => .value _) fun _ hb => .value hb

theorem peek {f : Option Kind → Parser α} (hf : ∀ k, Shows tokens (· = k) P (f k)) :
    Shows tokens H P (Parser.peek >>= f) := by
  rintro a ⟨c, s, s', hs, -, hrun, hclean⟩
  rw [bind_of_some peek_eq] at hrun
  exact hf s.peek a ⟨c, s, s', hs, rfl, hrun, hclean⟩

theorem anywhere (h : Shows tokens any P p) : Shows tokens H P p := by
  rintro a ⟨c, s, s', hs, -, hrun⟩
  exact h a ⟨c, s, s', hs, trivial, hrun⟩

/-- Behind a token that is skipped fewer tokens are left. -/
theorem skipped {k : Kind} {f : Unit → Parser α}
    (hf : ∀ tokens', tokens'.length < tokens.length → tokens' <:+: tokens → Shows tokens' any P (f ())) :
    Shows tokens (· = some k) P (skip >>= f) := by
  rintro a ⟨c, ⟨cs, rest, ds, ns⟩, s', hs, hhead, hrun, hclean⟩
  cases rest with
  | nil => cases hhead
  | cons t ts =>
    have hlt : ts.length < tokens.length := Nat.lt_of_lt_of_le (Nat.lt_succ_self _) hs.length_le
    exact hf ts hlt ((List.suffix_cons t ts).isInfix.trans hs) a ⟨c, _, s', List.infix_refl ts, trivial, hrun, hclean⟩

end Shows

/-- Items without diagnostics have been read one by one. -/
theorem readIn_itemsUpTo (hitem : Moving item) (hfails : ∀ c s s', item c s = (none, s') → s'.diagnostics ≠ [])
    {limit : Nat} {as : List α} (hs : s.rest <:+: tokens) (h : itemsUpTo item limit c s = (some as, s'))
    (hclean : s'.diagnostics = []) : ∀ a ∈ as, ReadIn tokens any item a := by
  induction limit generalizing s as with
  | zero => cases h
  | succ limit ih =>
    rw [itemsUpTo, Confined.unlessCloser_apply] at h
    split at h
    · cases h
      exact fun _ ha => absurd ha List.not_mem_nil
    · obtain ⟨first, s₁, hfirst, h⟩ := bind_eq_some.mp h
      obtain ⟨others, s₂, hothers, h⟩ := bind_eq_some.mp h
      cases h
      have hmoves := (Moving.itemsUpTo hitem limit).of_run hothers
      have hclean₁ := hmoves.clean hclean
      obtain ⟨a, rfl, hrun⟩ := Confined.resuming_clean (hfails c s) hfirst hclean₁
      refine List.forall_mem_cons.mpr ⟨⟨c, s, s₁, hs, trivial, hrun, hclean₁⟩, ?_⟩
      exact ih ((hitem.of_run hrun).within hs) hothers

theorem Shows.items {r u : Bool} {F : α → List Token → Prop} {P : List Token → α → Prop}
    (hitem : ∀ tokens n, Confined tokens n any r u F (P tokens) item) :
    Shows tokens H (fun as => ∀ a ∈ as, ReadIn tokens any item a) (items item) := by
  rintro as ⟨c, s, s', hs, -, hrun, hclean⟩
  refine readIn_itemsUpTo (hitem [] 0).moves (fun c s s' hnone => ?_) hs hrun hclean
  exact (hitem s.rest _).fails c s s' ⟨Nat.lt_succ_self _, List.suffix_refl _, trivial⟩ hnone

end Parser

/-- The definition has been read among the tokens, beginning with its word. -/
def Definition.ReadIn (tokens : List Token) : Definition → Prop
  | .function d => Parser.ReadIn tokens (· = some (.keyword .function)) Grammar.full.functionDef d
  | .method d => Parser.ReadIn tokens (· = some (.keyword .method)) Grammar.full.methodDef d

theorem Definition.ReadIn.mono {tokens tokens' : List Token} {d : Definition} (h : d.ReadIn tokens)
    (htokens : tokens <:+: tokens') : d.ReadIn tokens' := by
  cases d with
  | function d =>
    have hread : Parser.ReadIn tokens (· = some (.keyword .function)) Grammar.full.functionDef d := h
    exact hread.mono htokens
  | method d =>
    have hread : Parser.ReadIn tokens (· = some (.keyword .method)) Grammar.full.methodDef d := h
    exact hread.mono htokens

/-! ## Interfaces -/

variable {tokens : List Token}

/-- A statement of an interface that defines something has been read as that definition. -/
def InterfaceStmt.Read (tokens : List Token) : InterfaceStmt → Prop
  | .method d => ReadIn tokens (· = some (.keyword .method)) Grammar.full.methodDef d
  | .subinterface d => ReadIn tokens (· = some (.keyword .interface)) Grammar.full.subinterfaceDef d
  | .stmt _ => True

theorem InterfaceStmt.shows_read : Shows tokens any (InterfaceStmt.Read tokens) Grammar.full.interfaceStmt := by
  refine .after Moving.skipAttributes fun _ => .peek fun k => ?_
  split
  · exact .last fun d h => h.congr fun _ _ hk => Grammar.full_methodDef (State.headed_of_peek hk)
  · exact .last fun d h => h.congr fun _ _ hk => Grammar.full_subinterfaceDef (State.headed_of_peek hk)
  · exact .last fun _ _ => trivial

theorem SubinterfaceDef.shows_read : Shows tokens (· = some (.keyword .interface))
    (fun d => ∀ s ∈ d.stmts, ReadIn tokens any Grammar.full.interfaceStmt s) Grammar.full.subinterfaceDef := by
  have hheader : Confined [] 0 (· = some (.keyword .interface)) true false anything (fun _ => True)
      (header .endinterface Grammar.subinterfaceHeader) := .header Inner.subinterfaceHeader
  refine .after (.look fun _ _ => rfl) fun start => .after hheader.moves fun x => ?_
  refine (Shows.items fun tokens n => (inner_full tokens n).interfaceStmt).seq (fun ss => ?_) fun ss hss => ?_
  · exact (Moving.ending _ _ _).bind fun _ => .value _
  · exact .bind fun _ => .value hss

mutual

theorem SubinterfaceDef.definitions_readIn : ∀ d : SubinterfaceDef,
    ReadIn tokens (· = some (.keyword .interface)) Grammar.full.subinterfaceDef d → ∀ x ∈ d.definitions, x.ReadIn tokens
  | ⟨_, _, ss, _, _⟩, h => InterfaceStmt.definitionsIn_readIn ss (SubinterfaceDef.shows_read _ h)

theorem InterfaceStmt.definitions_readIn : ∀ s : InterfaceStmt,
    ReadIn tokens any Grammar.full.interfaceStmt s → ∀ x ∈ s.definitions, x.ReadIn tokens
  | .method _, h => List.forall_mem_singleton.mpr (InterfaceStmt.shows_read _ h)
  | .subinterface d, h => SubinterfaceDef.definitions_readIn d (InterfaceStmt.shows_read _ h)
  | .stmt _, _ => nofun

theorem InterfaceStmt.definitionsIn_readIn : ∀ ss : List InterfaceStmt,
    (∀ s ∈ ss, ReadIn tokens any Grammar.full.interfaceStmt s) →
      ∀ x ∈ InterfaceStmt.definitionsIn ss, x.ReadIn tokens
  | [], _ => nofun
  | s :: ss, h => by
    obtain ⟨hfirst, hothers⟩ := List.forall_mem_cons.mp h
    exact List.forall_mem_append.mpr
      ⟨InterfaceStmt.definitions_readIn s hfirst, InterfaceStmt.definitionsIn_readIn ss hothers⟩

end

/-! ## Modules -/

/-- A statement of a module that defines something has been read as that definition. -/
def ModuleStmt.Read (tokens : List Token) : ModuleStmt → Prop
  | .method d => ReadIn tokens (· = some (.keyword .method)) Grammar.full.methodDef d
  | .subinterface d => ReadIn tokens (· = some (.keyword .interface)) Grammar.full.subinterfaceDef d
  | .function d => ReadIn tokens (· = some (.keyword .function)) Grammar.full.functionDef d
  | .module d => ReadIn tokens (· = some (.keyword .module)) Grammar.full.moduleDef d
  | _ => True

theorem ModuleStmt.shows_read : Shows tokens any (ModuleStmt.Read tokens) Grammar.full.moduleStmt := by
  refine .after Moving.skipAttributes fun _ => .peek fun k => ?_
  split
  · exact .last fun d h => h
  · exact .last fun d h => h
  · exact .last fun _ _ => trivial
  · exact .last fun _ _ => trivial
  · exact .last fun d h => h
  · exact .last fun d h => h.congr fun _ _ hk => Grammar.full_moduleDef (State.headed_of_peek hk)
  · exact .of_results (.bind fun _ => .fail)
  · exact .of_results (.bind fun _ => .fail)
  · exact .of_results (.bind fun _ => .fail)
  · exact .of_results (.bind fun _ => .bind fun _ => .bind fun _ => .fail)
  · refine .of_results (.bind fun x => ?_)
    split
    · exact .bind fun _ => .value trivial
    · exact .bind fun _ => .value trivial
    · exact .value trivial
    · exact .value trivial
    · exact .bind fun _ => .fail

theorem ModuleDef.shows_read : Shows tokens (· = some (.keyword .module))
    (fun d => ∀ s ∈ d.stmts, ReadIn tokens any Grammar.full.moduleStmt s) Grammar.full.moduleDef := by
  have hheader : Confined [] 0 (· = some (.keyword .module)) true false never (fun _ => True)
      (header .endmodule Grammar.moduleHeader) := .header Inner.moduleHeader
  refine .after (.look fun _ _ => rfl) fun start => .after hheader.moves fun x => ?_
  refine (Shows.items fun tokens n => (inner_full tokens n).moduleStmt).seq (fun ss => ?_) fun ss hss => ?_
  · exact (Moving.ending _ _ _).bind fun _ => .value _
  · exact .bind fun _ => .value hss

mutual

theorem ModuleDef.definitions_readIn : ∀ d : ModuleDef,
    ReadIn tokens (· = some (.keyword .module)) Grammar.full.moduleDef d → ∀ x ∈ d.definitions, x.ReadIn tokens
  | ⟨_, _, _, _, ss, _, _⟩, h => ModuleStmt.definitionsIn_readIn ss (ModuleDef.shows_read _ h)

theorem ModuleStmt.definitions_readIn : ∀ s : ModuleStmt, s.Read tokens → ∀ x ∈ s.definitions, x.ReadIn tokens
  | .method _, h | .function _, h => List.forall_mem_singleton.mpr h
  | .subinterface d, h => SubinterfaceDef.definitions_readIn d h
  | .module d, h => ModuleDef.definitions_readIn d h
  | .rule _, _ | .return_ _, _ | .varDecl _, _ | .bind _, _ | .assign _, _ | .expr _, _ => nofun

theorem ModuleStmt.definitionsIn_readIn : ∀ ss : List ModuleStmt,
    (∀ s ∈ ss, ReadIn tokens any Grammar.full.moduleStmt s) → ∀ x ∈ ModuleStmt.definitionsIn ss, x.ReadIn tokens
  | [], _ => nofun
  | s :: ss, h => by
    obtain ⟨hfirst, hothers⟩ := List.forall_mem_cons.mp h
    exact List.forall_mem_append.mpr
      ⟨ModuleStmt.definitions_readIn s (ModuleStmt.shows_read s hfirst), ModuleStmt.definitionsIn_readIn ss hothers⟩

end

/-! ## Statements of a dialect -/

/-- What a form defines has been read among the tokens. -/
def StmtForm.Read (tokens : List Token) (form : StmtForm) : Prop := ∀ x ∈ form.definitions, x.ReadIn tokens

theorem StmtForm.read_of_nil {form : StmtForm} (h : form.definitions = []) : form.Read tokens :=
  fun x hx => by rw [h] at hx; cases hx

theorem StmtForm.read_simple (s : SimpleStmt) : s.form.Read tokens := by
  cases s <;> exact read_of_nil rfl

theorem permitSimple_read (dialect : Dialect) (s : SimpleStmt) :
    Results (StmtForm.Read tokens) (permitSimple dialect s) := by
  unfold permitSimple
  cases s.leaf? with
  | none => exact .value (StmtForm.read_simple s)
  | some leaf => exact .bind fun _ => .value (StmtForm.read_simple s)

theorem StmtForm.shows_read (dialect : Dialect) :
    Shows tokens any (StmtForm.Read tokens) (Grammar.full.stmtForm dialect) := by
  refine .peek fun k => ?_
  split
  · exact .last fun _ _ => read_of_nil rfl
  · refine .of_results (.bind fun _ => .bind fun _ => .bind fun _ => .bind fun more => ?_)
    split <;> exact .bind fun _ => .value (read_of_nil rfl)
  · exact .of_results (.bind fun _ => .bind fun _ => .bind fun _ => .value (read_of_nil rfl))
  · exact .last fun d h => List.forall_mem_singleton.mpr h
  · exact .last fun d h => ModuleDef.definitions_readIn d h
  · exact .of_results (.bind fun _ => .fail)
  · exact .of_results (.bind fun _ => .fail)
  · exact .of_results (.bind fun _ => .fail)
  · exact .of_results (.bind fun _ => .fail)
  · exact .of_results (.bind fun _ => .bind fun _ => .bind fun _ => .bind fun _ => .value (read_of_nil rfl))
  · exact .of_results (.bind fun _ => .bind fun _ => .bind fun _ => .bind fun _ => .value (read_of_nil rfl))
  · exact .of_results (.bind fun _ => .fail)
  · exact .of_results (.bind fun s => permitSimple_read dialect s)

theorem Stmt.shows_read (dialect : Dialect) :
    Shows tokens any (fun s => s.form.Read tokens) (Grammar.full.stmt dialect) := by
  refine .after Moving.skipAttributes fun _ => .after (.look fun _ _ => rfl) fun start => ?_
  refine (StmtForm.shows_read dialect).seq (fun form => ?_) fun form hform => .bind fun span => .value hform
  exact .bind (.look fun _ _ => rfl) fun _ => .value _

/-! ## Expressions -/

/-- What an expression defines has been read among the tokens. -/
def Expr.Read (tokens : List Token) (e : Expr) : Prop := ∀ x ∈ e.form.definitions, x.ReadIn tokens

namespace Expr

theorem read_of_nil {e : Expr} (h : e.form.definitions = []) : e.Read tokens :=
  fun x hx => by rw [h] at hx; cases hx

/-- An expression around a form that defines nothing. -/
theorem spanned_read {form : ExprForm} {start : Nat} (h : form.definitions = []) :
    Results (Read tokens) (spanFrom start >>= fun span => pure ⟨form, span⟩) :=
  .bind fun _ => .value (read_of_nil h)

theorem selection_definitions (base : Expr) :
    Results (fun form => form.definitions = []) (Grammar.full.selection base) := by
  refine .bind fun _ => .bind fun hi => .bind fun b => ?_
  split <;> exact .bind fun lo => .bind fun _ => .value rfl

theorem memberOf_definitions (base : Expr) :
    Results (fun form => form.definitions = []) (Grammar.full.memberOf base) := by
  refine .bind fun _ => .bind fun name => .bind fun b => ?_
  split
  · exact .bind fun _ => .value rfl
  · exact .value rfl

theorem valueBlock_definitions : Results (fun form => form.definitions = []) Grammar.full.valueBlock :=
  .bind fun _ => .bind fun _ => .bind fun _ => .bind fun _ => .bind fun _ => .value rfl

theorem suffixes_read {e : Expr} (h : e.Read tokens) : Results (Read tokens) (Grammar.full.suffixes e) := by
  refine .loop (Q := Read tokens) (fun e he => .bind fun k => ?_) h
  split
  · exact .bind fun args => .bind fun span => .value (read_of_nil rfl)
  · exact (selection_definitions e).seq fun form hform => .bind fun span => .value (read_of_nil hform)
  · exact (memberOf_definitions e).seq fun form hform => .bind fun span => .value (read_of_nil hform)
  · exact .value he

theorem conditional_read (p : Predicate) : Results (Read tokens) (Grammar.full.conditional p) :=
  .bind fun _ => .bind fun _ => .bind fun _ => .bind fun _ => .bind fun _ => .value (read_of_nil rfl)

theorem operations_read {e : Expr} (h : e.Read tokens) (min : Nat) :
    Results (Read tokens) (Grammar.full.operations min e) := by
  refine .loop (Q := Read tokens) (fun e he => .bind fun k => ?_) h
  split
  · split
    · exact (conditional_read _).seq fun e he => .value he
    · exact .value he
  · split
    · refine .bind fun others => ?_
      cases others with
      | some others => exact .bind fun span => (conditional_read _).seq fun e he => .value he
      | none => exact .value he
    · exact .value he
  · exact .bind fun _ => .bind fun _ => .bind fun _ => .fail
  · split
    · split
      · exact .bind fun _ => .bind fun _ => .value (read_of_nil rfl)
      · exact .value he
    · exact .value he

theorem unaryOperand_read (start : Nat) (op : UnaryOp) :
    Results (Read tokens) (Grammar.full.unaryOperand start op) := by
  have hinner : Results (Read tokens) (Grammar.full.innerExpr unaryPower >>= fun inner =>
      spanFrom start >>= fun span => pure ⟨.unary op inner, span⟩) := .bind fun _ => spanned_read rfl
  unfold Grammar.unaryOperand
  split
  · refine .bind fun b => ?_
    split
    · refine .bind fun lit => ?_
      split
      · next sign form hform =>
        refine spanned_read ?_
        unfold ExprForm.withSign? at hform
        split at hform
        · split at hform
          · cases hform
            rfl
          · cases hform
        · cases hform
      · exact .bind fun _ => .bind fun _ => spanned_read rfl
    · exact hinner
  · exact hinner

theorem interfaceExpr_shows : Shows tokens (· = some (.keyword .interface))
    (fun form => ∀ x ∈ form.definitions, x.ReadIn tokens) Grammar.full.interfaceExpr := by
  have htype : Confined [] 0 any true true never (fun _ => True) type := .type
  refine .after (fun _ s => .step s) fun _ => .after htype.moves fun type => .after (.expectPunct _) fun _ => ?_
  refine (Shows.items fun tokens n => (inner_full tokens n).interfaceStmt).seq (fun ss => ?_) fun ss hss => ?_
  · exact (Moving.expectKeyword _).bind fun _ => Moving.label.bind fun _ => .value _
  · exact .bind fun _ => .bind fun _ => .value (InterfaceStmt.definitionsIn_readIn ss hss)

/-- Only parentheses stand around an expression that defines something, and less is left behind them. -/
theorem primary_shows (hinner : ∀ tokens' : List Token, tokens'.length < tokens.length → tokens' <:+: tokens →
    Shows tokens' any (Read tokens') (Grammar.full.innerExpr 0)) :
    Shows tokens any (Read tokens) Grammar.full.primary := by
  have hform : ∀ (H : Option Kind → Prop) (start : Nat) (p : Parser ExprForm),
      Shows tokens H (fun form => ∀ x ∈ form.definitions, x.ReadIn tokens) p →
      Shows tokens H (Read tokens) (p >>= fun form => spanFrom start >>= fun span => pure ⟨form, span⟩) :=
    fun H start p hp => hp.seq (fun form => .bind (.look fun _ _ => rfl) fun _ => .value _) fun form h =>
      .bind fun _ => .value h
  refine .after (.look fun _ _ => rfl) fun start => .peek fun k => ?_
  split
  · exact .of_results (.bind fun _ => spanned_read rfl)
  · refine .of_results (.bind fun name => .bind fun b => ?_)
    split
    · exact .bind fun _ => spanned_read rfl
    · exact spanned_read rfl
  · exact .of_results (.bind fun _ => spanned_read rfl)
  · exact .of_results (.bind fun _ => spanned_read rfl)
  · exact .of_results (.bind fun _ => spanned_read rfl)
  · exact .of_results (.bind fun _ => spanned_read rfl)
  · exact .of_results (.bind fun _ => spanned_read rfl)
  · refine .skipped fun tokens' hlt htokens => (hinner tokens' hlt htokens).seq (fun inner => ?_) fun inner h => ?_
    · exact (Moving.expectPunct _).bind fun _ => .bind (.look fun _ _ => rfl) fun _ => .value _
    · exact .bind fun _ => .bind fun _ => .value fun x hx => (h x hx).mono htokens
  · exact .of_results (.bind fun _ => spanned_read rfl)
  · exact .of_results (valueBlock_definitions.seq fun form h => spanned_read h)
  · exact .of_results (.bind fun _ => spanned_read rfl)
  · exact .of_results (.bind fun _ => spanned_read rfl)
  · exact .of_results (.bind fun _ => .bind fun _ => .bind fun _ => spanned_read rfl)
  · exact hform _ start _ interfaceExpr_shows
  · exact .of_results (.bind fun _ => .bind fun _ => .bind fun _ => .bind fun _ => spanned_read rfl)
  · exact .of_results (.bind fun _ => .bind fun _ => .fail)
  · exact .of_results (.bind fun _ => .fail)

theorem expr_shows (tokens : List Token) (min : Nat) : Shows tokens any (Read tokens) (Grammar.full.expr min) := by
  induction hlength : tokens.length using Nat.strongRecOn generalizing tokens min with
  | ind n ih =>
    subst hlength
    have hprimary : Shows tokens any (Read tokens) Grammar.full.primary := primary_shows fun tokens' hlt htokens => by
      rw [Grammar.innerExpr_eq]
      exact ih tokens'.length hlt tokens' 0 rfl
    have hunary : Shows tokens any (Read tokens) Grammar.full.unary := by
      refine .peek fun k => ?_
      split
      · exact hprimary.anywhere
      · exact .of_results (.bind fun start => .bind fun _ => unaryOperand_read start _)
    refine hunary.seq (fun e => ?_) fun e he => (suffixes_read he).seq fun e he => operations_read he min
    exact .bind (Grammar.onward_full.suffixes e) fun e => Grammar.onward_full.operations min e

end Expr

/-! ## Sites and packages -/

theorem Parser.ReadIn.of_goes {α : Type} {p : Parser α} {a : α} {ts : List Token} (h : Goes p [] ts a [])
    (hts : ts <:+: tokens) : ReadIn tokens any p a := by
  obtain ⟨ns, hrun⟩ := h ⟨0, .collectAll⟩ []
  exact ⟨_, _, _, (List.append_nil ts).symm ▸ hts, trivial, hrun, rfl⟩

theorem Site.read {x : Site} (h : x.Alone tokens) : ∀ d ∈ x.definitions, d.ReadIn tokens := by
  cases x with
  | expr e =>
    obtain ⟨ts, -, hts, hgoes⟩ := h
    exact Expr.expr_shows tokens 0 e (.of_goes hgoes hts)
  | stmt dialect s =>
    obtain ⟨ts, -, hts, hgoes⟩ := h
    exact Stmt.shows_read dialect s (.of_goes hgoes hts)

/-- What a statement of a package defines has been read among the tokens. -/
def PackageStmt.Read (tokens : List Token) (s : PackageStmt) : Prop := ∀ x ∈ s.definitions, x.ReadIn tokens

theorem PackageStmt.shows_read : Shows tokens any (PackageStmt.Read tokens) packageStmt := by
  refine .after Moving.skipAttributes fun _ => .peek fun k => ?_
  split
  · exact .last fun _ _ => nofun
  · refine .last fun d h => ModuleDef.definitions_readIn d ?_
    exact h.congr fun _ _ hk => Grammar.full_moduleDef (State.headed_of_peek hk)
  · refine .last fun d h => List.forall_mem_singleton.mpr ?_
    exact h.congr fun _ _ hk => Grammar.full_functionDef (State.headed_of_peek hk)
  · exact .of_results (.bind fun _ => .fail)
  · exact .of_results (.bind fun _ => .fail)
  · exact .of_results (.bind fun _ => .fail)
  · exact .of_results fun _ _ _ _ hrun => by cases hrun
  · refine .of_results (.bind fun x => ?_)
    split
    · exact .bind fun _ => .value nofun
    · exact .bind fun _ => .value nofun
    · exact .bind fun _ => .fail

theorem Parser.Confined.shown {α : Type} {n : Nat} {H : Option Kind → Prop} {r u : Bool} {F : α → List Token → Prop}
    {P Q : α → Prop} {p : Parser α} (h : Confined tokens n H r u F P p) (hp : Shows tokens H Q p) :
    Confined tokens n H r u F Q p where
  moves := h.moves
  fails := h.fails
  runs c s a s' hs hrun hclean := by
    obtain ⟨-, hts⟩ := h.runs c s a s' hs hrun hclean
    exact ⟨hp a ⟨c, s, s', hs.within.isInfix, hs.head, hrun, hclean⟩, hts⟩

/-- Every function and method of a source without diagnostics, at any depth, has been read where its word stands. -/
theorem definitions_readIn {source : String} {recovery : Recovery} (h : (parse source recovery).diagnostics = []) :
    ∀ d ∈ (parse source recovery).root.definitions, d.ReadIn (Token.significant source) := by
  obtain ⟨-, s', hrun, hclean, -⟩ := parse_clean h
  refine List.forall_mem_append.mpr ⟨List.forall_mem_flatMap.mpr ?_, List.forall_mem_flatMap.mpr fun x hx => ?_⟩
  · have hunit : CleanRuns (Token.significant source) any _ sourceUnit :=
      CleanRuns.unit fun n => Inner.packageStmt.shown PackageStmt.shows_read
    exact (hunit.runs _ _ _ _ (List.suffix_refl _) trivial hrun hclean).1
  · exact Site.read (alone_of_clean h x hx)

end Bluespec
