import Bluespec.Proofs.DefinitionRuns
import Bluespec.Proofs.GivenTokens

/-!
# Lone action blocks

Before anything of the body of a function or method is read, action words are counted to see whether one action block
reaches to the closing word.  In a source without diagnostics the counting is never wrong, whatever is nested in the
block: it foretells what is read.

* **`LoneBlock`** — tokens that are one action block, with or without a semicolon behind it.
* **`Definition.Written`** — the tokens of a function or method: those of the header, of the body, and its closing word
  with the label behind it.
* **`Definition.HasDialect`** — the dialect of the statements in a function or method.
* **`bodies_of_lone_blocks`** — the bodies in a source without diagnostics.
-/

namespace Bluespec

open Bluespec.Parser

/-! ## Action blocks -/

/-- The two sorts of action blocks: the dialect of the statements, the words around them, and what the block is as an
expression. -/
inductive IsActionBlock : Dialect → Keyword → Keyword → (Block → ExprForm) → Prop
  | action : IsActionBlock .action .action .endaction .actionBlock
  | actionValue : IsActionBlock .actionValue .actionvalue .endactionvalue .actionValueBlock

/-- Tokens that are read as an action block when they stand alone, and what they are as an expression. -/
inductive ActionBlock (ts : List Token) : ExprForm → Prop
  | intro {dialect : Dialect} {opening closing : Keyword} {make : Block → ExprForm} {b : Block}
      (sort : IsActionBlock dialect opening closing make)
      (reads : Goes (Grammar.full.block dialect opening closing) [] ts b []) : ActionBlock ts (make b)

/-- No token, or one of a kind. -/
def IsOptional (k : Kind) (ts : List Token) : Prop := ts = [] ∨ ∃ t, ts = [t] ∧ t.kind = k

/-- Tokens that are one action block, with or without a semicolon behind it. -/
def LoneBlock (ts : List Token) (form : ExprForm) : Prop :=
  ∃ us semi, ts = us ++ semi ∧ ActionBlock us form ∧ IsOptional (.punct .semi) semi

namespace IsActionBlock

variable {dialect : Dialect} {opening closing : Keyword} {make : Block → ExprForm} {b : Block} {c : Setting}
  {s s' : State} {ts rest : List Token}

theorem opens (h : IsActionBlock dialect opening closing make) : opening = .action ∨ opening = .actionvalue := by
  cases h
  · exact .inl rfl
  · exact .inr rfl

theorem closes (h : IsActionBlock dialect opening closing make) : closing = .endaction ∨ closing = .endactionvalue := by
  cases h
  · exact .inl rfl
  · exact .inr rfl

theorem confined (h : IsActionBlock dialect opening closing make) (tokens : List Token) (n : Nat) :
    Confined tokens n any true false (fun _ => Lacks (.punct .colon)) (fun b => AllSites (Site.Alone tokens) b.sites)
      (Grammar.full.block dialect opening closing) :=
  ((inner_full tokens n).block dialect (.inr ⟨h.opens, h.closes⟩)).lower

/-- Behind the word of an action block a primary is this block. -/
theorem primary (h : IsActionBlock dialect opening closing make) (hs : s.peek = some (.keyword opening)) (c : Setting) :
    Grammar.full.primary c s = (offset >>= fun start => Grammar.full.block dialect opening closing >>= fun b =>
      spanFrom start >>= fun span => pure ⟨make b, span⟩) c s := by
  rw [Grammar.primary, bind_of_some (show offset c s = (some _, s) from rfl), bind_of_some peek_eq, hs,
    bind_of_some (show offset c s = (some _, s) from rfl)]
  cases h <;> rfl

/-- The tokens of a block, wherever they stand. -/
theorem anywhere (h : IsActionBlock dialect opening closing make)
    (hreads : Goes (Grammar.full.block dialect opening closing) [] ts b []) (cs : List Token)
    (hrest : Lacks (.punct .colon) rest) : Goes (Grammar.full.block dialect opening closing) cs ts b rest := by
  obtain ⟨ns, hrun⟩ := hreads ⟨0, .collectAll⟩ []
  rw [List.append_nil] at hrun
  exact goes_of_run h.confined hrun rfl rfl cs rest hrest

/-- A block that has been read is read alike when its tokens stand alone. -/
theorem alone (h : IsActionBlock dialect opening closing make)
    (hrun : Grammar.full.block dialect opening closing c s = (some b, s')) (hclean : s'.diagnostics = []) :
    ∃ ts, s.Took ts s' ∧ Goes (Grammar.full.block dialect opening closing) [] ts b [] := by
  obtain ⟨-, ts, -, hts⟩ := (h.confined s.rest _).runs c s b s' ⟨Nat.lt_succ_self _, List.suffix_refl _, trivial⟩ hrun hclean
  exact ⟨ts, hts.took, hts.again [] [] nofun (.inr .nil)⟩

/-- Counting action words leads behind the block. -/
theorem counted (h : IsActionBlock dialect opening closing make)
    (hreads : Goes (Grammar.full.block dialect opening closing) [] ts b []) (hrest : Lacks (.punct .colon) rest) :
    ∃ t us, ts = t :: us ∧ t.kind = .keyword opening ∧
      afterActionBlock (ts ++ rest) = (afterSemicolon rest).head?.map Token.kind := by
  obtain ⟨ns, hrun⟩ := hreads ⟨0, .collectAll⟩ []
  have hstarts : Starts ts (ts.length + 1) any ⟨[], ts ++ [], [], []⟩ := by
    rw [List.append_nil]
    exact ⟨Nat.lt_succ_self _, List.suffix_refl _, trivial⟩
  obtain ⟨us, htook, t, vs, t', lab, rfl, ht, ht', hvs, hlab⟩ := (inner_full ts _).block_took hstarts hrun rfl
  obtain rfl : ts = t :: (vs ++ t' :: lab) := List.append_cancel_right htook.rest
  have hlab' : IsLabel lab rest := hlab.imp_left fun ⟨hnil, _⟩ => ⟨hnil, hrest⟩
  exact ⟨t, _, rfl, ht, afterActionBlock_append h.opens h.closes ht ht' hvs hlab'⟩

end IsActionBlock

theorem IsActionBlock.of_head {k : Option Kind} (h : Inner.AtAction k) : ∃ dialect opening closing make,
    IsActionBlock dialect opening closing make ∧ k = some (.keyword opening) := by
  rcases h with hk | hk
  · exact ⟨_, _, _, _, .action, hk⟩
  · exact ⟨_, _, _, _, .actionValue, hk⟩

namespace ActionBlock

variable {us rest : List Token} {form : ExprForm} {c : Setting} {s s' : State} {e : Expr}

/-- An action block as a primary. -/
theorem goes_primary (h : ActionBlock us form) (cs : List Token) (hrest : Lacks (.punct .colon) rest) :
    ∃ span, Goes Grammar.full.primary cs us ⟨form, span⟩ rest := by
  obtain @⟨dialect, opening, closing, make, b, hsort, hreads⟩ := h
  obtain ⟨t, ts, rfl, ht, -⟩ := hsort.counted hreads hrest
  have hblock := hsort.anywhere hreads cs hrest
  obtain hnil | ⟨vs, last, hlast⟩ := List.eq_nil_or_concat' (t :: ts)
  · cases hnil
  rw [hlast] at hblock
  have hspanned : Goes (Grammar.full.block dialect opening closing >>= fun b => spanFrom t.span.start >>= fun span =>
      pure (Expr.mk (make b) span)) cs (vs ++ [last]) ⟨make b, _⟩ rest := hblock.spanned
  rw [← hlast] at hspanned
  refine ⟨⟨t.span.start, max last.span.stop t.span.start⟩, fun c ns => ?_⟩
  have hpeek : State.peek ⟨cs, t :: ts ++ rest, [], ns⟩ = some (.keyword opening) := congrArg some ht
  rw [hsort.primary hpeek]
  exact hspanned.offset c ns

/-- What is read as a primary where an action block begins. -/
theorem of_primary (haction : Inner.AtAction s.peek) (hrun : Grammar.full.primary c s = (some e, s'))
    (hclean : s'.diagnostics = []) : ∃ ts, s.Took ts s' ∧ ActionBlock ts e.form := by
  obtain ⟨dialect, opening, closing, make, hsort, hk⟩ := IsActionBlock.of_head haction
  rw [hsort.primary hk] at hrun
  obtain ⟨start, s₀, hstart, hrun⟩ := bind_eq_some.mp hrun
  cases hstart
  obtain ⟨b, s₁, hblock, hdone⟩ := bind_eq_some.mp hrun
  cases hdone
  obtain ⟨ts, htook, hgoes⟩ := hsort.alone hblock hclean
  exact ⟨ts, htook, .intro hsort hgoes⟩

end ActionBlock

/-! ## Lone blocks -/

namespace IsOptional

variable {k : Kind} {cs ts rest : List Token} {c : Setting} {s s' : State} {x : Option Token}

theorem goes_eat (h : IsOptional k ts) (hrest : Lacks k rest) : ∃ x, Goes (eat k) cs ts x rest := by
  rcases h with rfl | ⟨t, rfl, ht⟩
  · refine ⟨none, fun c ns => ⟨ns, ?_⟩⟩
    rcases Confined.eat_cases k c ⟨cs, [] ++ rest, [], ns⟩ with ⟨t, us, hcons, ht, -⟩ | ⟨-, heat⟩
    · have hcons' : rest = t :: us := hcons
      rw [hcons'] at hrest
      exact absurd ht (hrest t rfl)
    · exact heat
  · exact ⟨some t, fun c ns => ⟨ns, eat_of_kind ht⟩⟩

theorem of_eat (h : eat k c s = (some x, s')) : ∃ ts, s.Took ts s' ∧ IsOptional k ts := by
  rcases Confined.eat_cases k c s with ⟨t, us, hcons, ht, heat⟩ | ⟨-, heat⟩
  · rw [heat] at h
    cases h
    exact ⟨[t], .step hcons, .inr ⟨t, rfl, ht⟩⟩
  · rw [heat] at h
    cases h
    exact ⟨[], .nil s, .inl rfl⟩

end IsOptional

namespace LoneBlock

variable {body rest : List Token} {form : ExprForm} {closing : Keyword} {word : Token} {dialect : Dialect}
  {c : Setting} {s s' : State} {b : Body}

/-- A lone block in front of the closing word is read as such, for the counting foretells it. -/
theorem goes_body (h : LoneBlock body form) (hword : word.kind = .keyword closing) (cs : List Token) :
    ∃ span, Goes (Grammar.full.body dialect closing) cs body (.block ⟨form, span⟩) (word :: rest) := by
  obtain ⟨us, semi, rfl, hblock, hsemi⟩ := h
  have hpunct : ∀ p, Kind.keyword closing ≠ .punct p := by rintro p ⟨⟩
  have hcolon : Lacks (.punct .colon) (semi ++ word :: rest) := by
    rcases hsemi with rfl | ⟨t, rfl, ht⟩
    · exact .cons hword (hpunct _) _
    · exact .cons ht (by decide) _
  have hnext : (afterSemicolon (semi ++ word :: rest)).head?.map Token.kind = some (.keyword closing) := by
    rw [← hword]
    rcases hsemi with rfl | ⟨t, rfl, ht⟩
    · rw [List.nil_append, afterSemicolon, if_neg (hword ▸ hpunct _)]
      rfl
    · rw [List.singleton_append, afterSemicolon, if_pos ht]
      rfl
  obtain ⟨span, hprimary⟩ := hblock.goes_primary cs hcolon
  obtain ⟨x, heat⟩ := hsemi.goes_eat (.cons hword (hpunct _) rest)
  have hlone : Inner.loneAnswer closing (us ++ (semi ++ word :: rest)) = true := by
    obtain ⟨hsort, hreads⟩ := hblock
    obtain ⟨t, ts, rfl, ht, hafter⟩ := hsort.counted hreads hcolon
    rw [Inner.loneAnswer, hafter, hnext, beq_self_eq_true, Bool.and_true, List.cons_append, List.head?_cons,
      Option.map_some, ht]
    cases hsort <;> rfl
  have hread : Goes (Inner.blockBody Grammar.full dialect) cs (us ++ semi) (.block ⟨form, span⟩) (word :: rest) :=
    hprimary.resuming.bind (heat.then_ .value)
  have hfound : ∀ c ns, Grammar.atLoneBlock closing c ⟨cs, us ++ semi ++ word :: rest, [], ns⟩ =
      (some true, ⟨cs, us ++ semi ++ word :: rest, [], ns⟩) := fun c ns => by
    rw [Inner.atLoneBlock_eq, List.append_assoc, hlone]
  refine ⟨span, ?_⟩
  rw [Inner.body_eq]
  exact .look hfound hread

/-- A body that has been read as one action block. -/
theorem of_blockBody (haction : Inner.AtAction s.peek)
    (hrun : Inner.blockBody Grammar.full dialect c s = (some b, s')) (hclean : s'.diagnostics = []) :
    ∃ ts form span, s.Took ts s' ∧ b = .block ⟨form, span⟩ ∧ LoneBlock ts form := by
  have hinner := inner_full s.rest s.rest.length
  have hstarts : Starts s.rest (s.rest.length + 1) any s := ⟨Nat.lt_succ_self _, List.suffix_refl _, trivial⟩
  obtain ⟨⟨form, span⟩, s₁, x, rfl, hprimary, heat⟩ := hinner.blockBody_eq_some hstarts hrun hclean
  obtain ⟨us, hus, hblock⟩ := ActionBlock.of_primary haction hprimary (((Moving.eat _).of_run heat).clean hclean)
  obtain ⟨semi, hsemi, hoptional⟩ := IsOptional.of_eat heat
  exact ⟨us ++ semi, form, span, hus.append hsemi, rfl, us, semi, rfl, hblock, hoptional⟩

end LoneBlock

/-! ## Bodies -/

/-- The tokens of a body and what they are read as: a lone block as such, and anything else as statements of the
dialect. -/
structure BodyTokens (dialect : Dialect) (cs body : List Token) (b : Body) (rest : List Token) : Prop where
  block : ∀ form, (∃ span, b = .block ⟨form, span⟩) ↔ LoneBlock body form
  stmts : (∀ form, ¬ LoneBlock body form) →
    ∃ ss, b = .stmts dialect ss ∧ Goes (items (Grammar.full.innerStmt dialect)) cs body ss rest

theorem atAction_of_loneAnswer {closing : Keyword} {s : State} (h : Inner.loneAnswer closing s.rest = true) :
    Inner.AtAction s.peek := by
  obtain ⟨hhead, -⟩ := Bool.and_eq_true_iff.mp h
  exact (Bool.or_eq_true_iff.mp hhead).imp eq_of_beq eq_of_beq

theorem Parser.SameNext.append {ts rest rest' : List Token} (h : SameNext rest rest')
    (hcommon : ∀ t ∈ ts.head?, t.kind.isCommon = true) : SameNext (ts ++ rest) (ts ++ rest') := by
  cases ts with
  | nil => exact h
  | cons t ts => exact .of_cons (hcommon t rfl)

variable {dialect : Dialect} {closing : Keyword} {c : Setting} {s s' : State} {b : Body}

/-- What a body without diagnostics has been read from. -/
theorem body_took (hrun : Grammar.full.body dialect closing c s = (some b, s')) (hclean : s'.diagnostics = []) :
    ∃ ts, s.Took ts s' ∧ (∀ t ∈ ts.head?, t.kind.isCommon = true) ∧
      ((∃ form span, b = .block ⟨form, span⟩ ∧ LoneBlock ts form) ∨
        ∃ ss, b = .stmts dialect ss ∧ ∀ cs rest, lastStop cs = lastStop s.consumed → SameNext s'.rest rest →
          Goes (items (Grammar.full.innerStmt dialect)) cs ts ss rest) := by
  have hinner := inner_full s.rest (s.rest.length + 1)
  have hstarts : Starts s.rest (s.rest.length + 1) any s := ⟨Nat.lt_succ_self _, List.suffix_refl _, trivial⟩
  obtain ⟨-, ts, hcommon, hts⟩ := (hinner.body dialect closing).runs c s b s' hstarts hrun hclean
  refine ⟨ts, hts.took, hcommon, ?_⟩
  rw [Inner.body_eq, bind_of_some (Inner.atLoneBlock_eq closing c s)] at hrun
  cases hlone : Inner.loneAnswer closing s.rest with
  | true =>
    rw [hlone, if_pos rfl] at hrun
    obtain ⟨us, form, span, hus, hb, hblock⟩ := LoneBlock.of_blockBody (atAction_of_loneAnswer hlone) hrun hclean
    exact .inl ⟨form, span, hb, hts.took.unique hus ▸ hblock⟩
  | false =>
    rw [hlone, if_neg Bool.false_ne_true] at hrun
    obtain ⟨ss, s₁, hitems, hdone⟩ := bind_eq_some.mp hrun
    cases hdone
    have hconfined : Confined s.rest (s.rest.length + 1) any false true never _ (items (Grammar.full.innerStmt dialect)) :=
      .items (hinner.stmt dialect).part (advances_stmt dialect)
    obtain ⟨-, us, -, hus⟩ := hconfined.runs c s ss s' hstarts hitems hclean
    refine .inr ⟨ss, rfl, fun cs rest hcs hrest => ?_⟩
    rw [hts.took.unique hus.took]
    exact hus.again cs rest (fun _ => hcs) (.inl hrest)

/-- The body in front of its closing word. -/
theorem bodyTokens_of_run {cs body rest rest' : List Token} {word : Token}
    (hrun : Grammar.full.body dialect closing c s = (some b, s')) (hclean : s'.diagnostics = []) (hbody : s.Took body s')
    (hrest : s'.rest = word :: rest) (hword : word.kind = .keyword closing)
    (hcommon : word.kind.isCommon = true) (hcs : lastStop cs = lastStop s.consumed) :
    BodyTokens dialect cs body b (word :: rest') := by
  obtain ⟨ts, hts, -, hread⟩ := body_took hrun hclean
  obtain rfl := hbody.unique hts
  have hlone : ∀ {form}, LoneBlock body form → ∃ span, b = .block ⟨form, span⟩ := by
    intro form hblock
    have hmoves : Moving (Grammar.full.body dialect closing) := ((inner_full [] 0).body dialect closing).moves
    have hs : s = ⟨s.consumed, body ++ word :: rest, [], s.nodes⟩ := by
      rw [← hrest, ← hbody.rest, ← (hmoves.of_run hrun).clean hclean]
    obtain ⟨span, hgoes⟩ := hblock.goes_body hword s.consumed
    obtain ⟨ns, hagain⟩ := hgoes c s.nodes
    rw [← hs, hrun] at hagain
    cases hagain
    exact ⟨span, rfl⟩
  refine ⟨fun form => ⟨?_, hlone⟩, fun hnone => ?_⟩
  · rintro ⟨span, rfl⟩
    obtain ⟨form', span', hb, hblock⟩ | ⟨ss, hb, -⟩ := hread
    · cases hb
      exact hblock
    · cases hb
  · obtain ⟨form, span, -, hblock⟩ | ⟨ss, hb, hgoes⟩ := hread
    · exact absurd hblock (hnone form)
    · exact ⟨ss, hb, hgoes cs _ hcs (hrest ▸ .of_cons hcommon)⟩

/-! ## Definitions -/

/-- Every value is yielded behind a token of a kind. -/
def Parser.EndsWith {α : Type} (k : Kind) (p : Parser α) : Prop :=
  ∀ c s a s', p c s = (some a, s') → ∃ t ts, s'.consumed = t :: ts ∧ t.kind = k

namespace Parser.EndsWith

variable {α β : Type} {k : Kind} {p : Parser α} {f : α → Parser β}

theorem last (hf : ∀ a, EndsWith k (f a)) : EndsWith k (p >>= f) := by
  intro c s b s' hrun
  obtain ⟨a, s₁, -, hrest⟩ := bind_eq_some.mp hrun
  exact hf a c s₁ b s' hrest

theorem expectPunct (symbol : Punct) (a : α) : EndsWith (.punct symbol) (expectPunct symbol >>= fun _ => pure a) := by
  intro c s a s' hrun
  obtain ⟨x, s₁, hexpect, hdone⟩ := bind_eq_some.mp hrun
  cases hdone
  obtain ⟨t, s₂, hread, hdone⟩ := bind_eq_some.mp hexpect
  cases hdone
  obtain ⟨ht, htook⟩ := expect_took hread
  exact ⟨t, s.consumed, htook.consumed, ht⟩

end Parser.EndsWith

theorem endsWith_functionHeader : EndsWith (.punct .semi) Grammar.functionHeader :=
  .last fun _ => .last fun _ => .last fun _ => .last fun _ => .last fun _ => .expectPunct _ _

theorem endsWith_methodHeader : EndsWith (.punct .semi) Grammar.full.methodHeader := by
  have hguard : ∀ (result : Option TypeExpr) (name : String) (formals : List Formal) (guard : Parser (Option Predicate)),
      EndsWith (.punct .semi)
        (guard >>= fun guard => expectPunct .semi >>= fun _ => pure (result, name, formals, guard)) :=
    fun result name formals guard => .last fun guard => .expectPunct _ _
  refine .last fun _ => .last fun named => ?_
  split <;>
  · refine .last fun result => .last fun name => .last fun formals => .last fun guarded => ?_
    split <;> exact hguard result name formals _

/-- The parts of the tokens of a definition: a header that ends with a semicolon, a body, and the closing word with the
label behind it. -/
structure Parts {α : Type} (read : Parser α) (closing : Keyword) (x : α) (l : Option Label) (head body : List Token)
    (word : Token) (lab : List Token) : Prop where
  header : Goes read [] head x (body ++ word :: lab)
  semicolon : ∃ ts t, head = ts ++ [t] ∧ t.kind = .punct .semi
  closes : word.kind = .keyword closing
  labelled : Goes label [word] lab l []

theorem Parser.State.took_record (s : State) (kind : NodeKind) (span : Span) : s.Took [] (s.record kind span) := by
  obtain ⟨ns, hrecord⟩ := s.record_eq kind span
  rw [hrecord]
  exact ⟨rfl, rfl⟩

/-- The closing word of a definition and its label. -/
theorem ending_took {kind : NodeKind} {start : Nat} {e : Option Label × Span}
    (hrun : Grammar.ending closing kind start c s = (some e, s')) (hclean : s'.diagnostics = []) :
    ∃ word lab, s.Took (word :: lab) s' ∧ word.kind = .keyword closing ∧ Goes label [word] lab e.1 [] := by
  obtain ⟨_, s₁, hexpect, hrun⟩ := bind_eq_some.mp hrun
  obtain ⟨l, s₂, hlabel, hrun⟩ := bind_eq_some.mp hrun
  obtain ⟨span, s₃, hspan, hrun⟩ := bind_eq_some.mp hrun
  cases hspan
  obtain ⟨_, s₄, hrecord, hdone⟩ := bind_eq_some.mp hrun
  cases hdone
  cases hrecord
  have hclean₂ : s₂.diagnostics = [] := (State.Moves.record s₂ kind _).clean hclean
  obtain ⟨word, hword, htook⟩ := expectKeyword_took hexpect
  have hconfined : Confined s₁.rest (s₁.rest.length + 1) any false false (fun _ => Lacks (.punct .colon)) _ label := .label
  have hstarts : Starts s₁.rest (s₁.rest.length + 1) any s₁ := ⟨Nat.lt_succ_self _, List.suffix_refl _, trivial⟩
  obtain ⟨-, lab, -, hlab⟩ := hconfined.runs c s₁ l s₂ hstarts hlabel hclean₂
  have hrecorded := hlab.took.append (State.took_record s₂ kind (s₂.spanFrom start))
  rw [List.append_nil] at hrecorded
  exact ⟨word, lab, htook.append hrecorded, hword, hlab.again [word] [] nofun (.inr .nil)⟩

/-- What functions and methods have in common: a header, a body whose dialect the header tells, and an end. -/
def bodied {α δ : Type} (read : Parser α) (dialect : α → Dialect) (closing : Keyword) (kind : NodeKind)
    (make : α → Body → Option Label → Span → δ) : Parser δ := do
  let start ← offset
  let x ← Parser.header closing read
  let b ← Grammar.full.body (dialect x) closing
  let e ← Grammar.ending closing kind start
  return make x b e.1 e.2

theorem functionDef_eq : Grammar.full.functionDef =
    bodied Grammar.functionHeader (fun _ => .functionBody) .endfunction .functionDef
      fun x b l span => ⟨x.1, x.2.1, x.2.2, b, l, span⟩ := rfl

theorem methodDef_eq : Grammar.full.methodDef =
    bodied Grammar.full.methodHeader (fun x => Grammar.methodDialect x.1) .endmethod .methodDef
      fun x b l span => ⟨x.1, x.2.1, x.2.2.1, x.2.2.2, b, l, span⟩ := rfl

/-- The parts of a function or method that has been read. -/
theorem bodied_parts {α δ : Type} {H : Option Kind → Prop} {F : α → List Token → Prop}
    {P : List Token → α → Prop} {Q : List Token → δ → Prop} {read : Parser α} {dialect : α → Dialect} {kind : NodeKind}
    {make : α → Body → Option Label → Span → δ} {d : δ} {tokens : List Token}
    (hclosing : (Kind.keyword closing).isCalm = true) (hsemi : EndsWith (.punct .semi) read)
    (hread : ∀ tokens n, Confined tokens (n + 1) H true false F (P tokens) read)
    (hwhole : ∀ tokens n, Confined tokens (n + 1) H true false (fun _ => Lacks (.punct .colon)) (Q tokens)
      (bodied read dialect closing kind make))
    (h : ReadIn tokens H (bodied read dialect closing kind make) d) :
    ∃ x b l span head body word lab, d = make x b l span ∧ head ++ (body ++ word :: lab) <:+: tokens ∧
      Goes (bodied read dialect closing kind make) [] (head ++ (body ++ word :: lab)) d [] ∧
      Parts read closing x l head body word lab ∧ BodyTokens (dialect x) head.reverse body b (word :: lab) := by
  obtain ⟨c, s, s', hs, hhead, hrun, hclean⟩ := h
  have hstarts : Starts s.rest (s.rest.length + 1) H s := ⟨Nat.lt_succ_self _, List.suffix_refl _, hhead⟩
  obtain ⟨-, ts, -, hwhole⟩ := (hwhole s.rest _).runs c s d s' hstarts hrun hclean
  obtain ⟨start, s₀, hstart, hrun⟩ := bind_eq_some.mp hrun
  cases hstart
  obtain ⟨x, s₁, hheader, hrun⟩ := bind_eq_some.mp hrun
  obtain ⟨b, s₂, hbody, hrun⟩ := bind_eq_some.mp hrun
  obtain ⟨e, s₃, hending, hdone⟩ := bind_eq_some.mp hrun
  cases hdone
  rw [Confined.header_eq_some] at hheader
  have hmoves : Moving (Grammar.full.body (dialect x) closing) := ((inner_full [] 0).body _ closing).moves
  have hclean₂ := ((Moving.ending _ kind _).of_run hending).clean hclean
  have hclean₁ := (hmoves.of_run hbody).clean hclean₂
  obtain ⟨-, head, -, hts⟩ := (hread s.rest _).runs c s x s₁ hstarts hheader hclean₁
  obtain ⟨body, htook, hcommon, -⟩ := body_took hbody hclean₂
  obtain ⟨word, lab, hend, hword, hlabel⟩ := ending_took hending hclean
  have hcalm : word.kind.isCommon = true := hword ▸ Kind.common_of_calm hclosing
  have hnext : SameNext s₁.rest (body ++ word :: lab) := by
    rw [htook.rest, hend.rest, List.cons_append]
    exact (SameNext.of_cons hcalm).append hcommon
  have hstop : lastStop head.reverse = lastStop s₁.consumed := by
    have hsame := lastStop_reverse_append (hts.reads rfl) [] s.consumed
    rwa [List.append_nil, ← hts.took.consumed] at hsame
  have htokens := hts.took.append (htook.append hend)
  refine ⟨x, b, e.1, e.2, head, body, word, lab, rfl, ?_, ?_, ?_, ?_⟩
  · exact List.IsInfix.trans ⟨[], s'.rest, htokens.rest.symm⟩ hs
  · rw [← hwhole.took.unique htokens]
    exact hwhole.again [] [] nofun (.inr .nil)
  · obtain ⟨t, cs, hconsumed, ht⟩ := hsemi c s x s₁ hheader
    obtain hnil | ⟨ts, last, rfl⟩ := List.eq_nil_or_concat' head
    · exact absurd hnil (hts.reads rfl)
    · rw [hts.took.consumed, List.reverse_append] at hconsumed
      cases hconsumed
      exact ⟨hts.again [] _ nofun (.inl hnext), ⟨ts, t, rfl, ht⟩, hword, hlabel⟩
  · exact bodyTokens_of_run hbody hclean₂ htook hend.rest hword hcalm hstop

namespace Definition

/-- The body. -/
def body : Definition → Body
  | .function d => d.body
  | .method d => d.body

/-- The tokens are those of the definition, and fall into its parts. -/
def Written (d : Definition) (head body : List Token) (word : Token) (lab : List Token) : Prop :=
  match d with
  | .function d =>
    Goes Grammar.full.functionDef [] (head ++ (body ++ word :: lab)) d [] ∧
      Parts Grammar.functionHeader .endfunction (d.result, d.name, d.formals) d.endLabel head body word lab
  | .method d =>
    Goes Grammar.full.methodDef [] (head ++ (body ++ word :: lab)) d [] ∧
      Parts Grammar.full.methodHeader .endmethod (d.result, d.name, d.formals, d.guard) d.endLabel head body word lab

/-- The dialect of the statements in a function or method. -/
inductive HasDialect : Definition → Dialect → Prop
  | function (d : FunctionDef) : HasDialect (.function d) .functionBody
  | untyped {d : MethodDef} (h : d.result = none) : HasDialect (.method d) .action
  | action {d : MethodDef} {type : TypeExpr} (h : d.result = some type) (hname : type.name? = some "Action") :
      HasDialect (.method d) .action
  | actionValue {d : MethodDef} {type : TypeExpr} (h : d.result = some type) (hname : type.name? = some "ActionValue") :
      HasDialect (.method d) .actionValue
  | value {d : MethodDef} {type : TypeExpr} (h : d.result = some type) (haction : type.name? ≠ some "Action")
      (hactionValue : type.name? ≠ some "ActionValue") : HasDialect (.method d) .functionBody

theorem hasDialect_method (d : MethodDef) : HasDialect (.method d) (Grammar.methodDialect d.result) := by
  cases hresult : d.result with
  | none => exact .untyped hresult
  | some type =>
    rw [Grammar.methodDialect]
    split
    · next haction => exact .action hresult haction
    · next haction =>
      split
      · next hactionValue => exact .actionValue hresult hactionValue
      · next hactionValue => exact .value hresult haction hactionValue

/-- A definition that has been read, its parts and its body. -/
theorem ReadIn.exists_parts {tokens : List Token} {d : Definition} (h : d.ReadIn tokens) :
    ∃ dialect head body word lab, head ++ (body ++ word :: lab) <:+: tokens ∧ d.Written head body word lab ∧
      d.HasDialect dialect ∧ BodyTokens dialect head.reverse body d.body (word :: lab) := by
  cases d with
  | function d =>
    have hread : Parser.ReadIn tokens (· = some (.keyword .function)) Grammar.full.functionDef d := h
    rw [functionDef_eq] at hread
    obtain ⟨x, b, l, span, head, body, word, lab, rfl, hwithin, hgoes, hparts, hbody⟩ :=
      bodied_parts rfl endsWith_functionHeader (fun _ _ => Inner.functionHeader)
        (fun tokens n => (inner_full tokens n).functionDef) hread
    exact ⟨_, head, body, word, lab, hwithin, ⟨hgoes, hparts⟩, .function _, hbody⟩
  | method d =>
    have hread : Parser.ReadIn tokens (· = some (.keyword .method)) Grammar.full.methodDef d := h
    rw [methodDef_eq] at hread
    obtain ⟨x, b, l, span, head, body, word, lab, rfl, hwithin, hgoes, hparts, hbody⟩ :=
      bodied_parts rfl endsWith_methodHeader (fun tokens n => (inner_full tokens n).methodHeader)
        (fun tokens n => (inner_full tokens n).methodDef) hread
    exact ⟨_, head, body, word, lab, hwithin, ⟨hgoes, hparts⟩, hasDialect_method _, hbody⟩

end Definition

/-! ## Whole sources -/

/-- In a source without diagnostics the body of a function or method is an action block exactly if the tokens between the
semicolon of its header and its closing word are one such block, and statements of the dialect of its result otherwise. -/
theorem bodies_of_lone_blocks {source : String} {recovery : Recovery} (h : (parse source recovery).diagnostics = []) :
    ∀ d ∈ (parse source recovery).root.definitions, ∃ dialect head body word lab,
      head ++ (body ++ word :: lab) <:+: Token.significant source ∧ d.Written head body word lab ∧ d.HasDialect dialect ∧
        BodyTokens dialect head.reverse body d.body (word :: lab) := by
  intro d hd
  have hread : d.ReadIn (Token.significant source) := definitions_readIn h d hd
  exact hread.exists_parts

theorem bodies_of_lone_blocks_nested :
    let source := "module m; method f; action action endaction endaction : b; endmethod " ++
      "method g; action endaction x <= 1; endmethod endmodule"
    (parse source .collectAll).diagnostics = [] ∧ (parse source .collectAll).root.definitions.length = 2 ∧
      ∀ d ∈ (parse source .collectAll).root.definitions, ∃ dialect head body word lab,
        head ++ (body ++ word :: lab) <:+: Token.significant source ∧ d.Written head body word lab ∧
          d.HasDialect dialect ∧ BodyTokens dialect head.reverse body d.body (word :: lab) := by
  intro source
  have hruns : (parse source .collectAll).diagnostics.length = 0 ∧
      (parse source .collectAll).root.definitions.length = 2 := by decide +kernel
  have hclean : (parse source .collectAll).diagnostics = [] := List.length_eq_zero_iff.mp hruns.1
  exact ⟨hclean, hruns.2, bodies_of_lone_blocks hclean⟩

end Bluespec
