import Bluespec.Proofs.ConfinedUnits
import Bluespec.Proofs.Layout
import Bluespec.Proofs.LoopProgress
import Bluespec.Proofs.MovedLists

/-!
# What is read without diagnostics

Text that belongs to no supported construct is stepped over, but never silently: a run without diagnostics reads
tokens of supported constructs only.

* **`Parser.CleanRuns`** — what is known of the runs of a parser without diagnostics; with one rule for each way to put
  parsers together.
* **`Parser.CleanRuns.unit`** — the runs for a whole unit, with the statements of the package;
  **`Parser.CleanRuns.sourceUnit`** — with the expressions and statements in it.
* **`alone_of_clean`**, **`supported_of_clean`** — sources without diagnostics.
-/

namespace Bluespec

/-! ## Lists of names -/

namespace ListReader

variable {α β : Type}

/-- What is read of a row belongs to supported constructs. -/
def ReadsSupported (p : ListReader α) : Prop :=
  ∀ stop ts r, p stop ts = .ok r → ∃ us, ts = us ++ r.rest ∧ ∀ t ∈ us, t.kind.isSupported = true

namespace ReadsSupported

theorem value (a : α) : ReadsSupported (pure a) := by
  rintro stop ts r ⟨⟩
  exact ⟨[], rfl, fun _ ht => absurd ht List.not_mem_nil⟩

theorem bind {p : ListReader α} {q : α → ListReader β} (hp : ReadsSupported p) (hq : ∀ a, ReadsSupported (q a)) :
    ReadsSupported (p >>= q) := by
  intro stop ts r h
  obtain ⟨r₁, r₂, hfirst, hrest, -, hr⟩ := bind_eq_ok h
  obtain ⟨us, hus, hsupported⟩ := hp stop ts r₁ hfirst
  obtain ⟨vs, hvs, hsupported'⟩ := hq r₁.value stop r₁.rest r₂ hrest
  exact ⟨us ++ vs, by rw [hus, hvs, hr, List.append_assoc], List.forall_mem_append.mpr ⟨hsupported, hsupported'⟩⟩

theorem symbol {k : Kind} (hk : k.isSupported = true) : ReadsSupported (symbol k) := by
  intro stop ts r h
  obtain ⟨t, hts, hkind⟩ := symbol_eq_ok h
  exact ⟨[t], hts, List.forall_mem_singleton.mpr (hkind ▸ hk)⟩

theorem name {kinds : List Kind} (hkinds : ∀ k ∈ kinds, k.isSupported = true) : ReadsSupported (name kinds) := by
  intro stop ts r h
  obtain ⟨t, hts, hkind, -⟩ := name_eq_ok h
  exact ⟨[t], hts, List.forall_mem_singleton.mpr (hkinds _ hkind)⟩

theorem orElse {p q : ListReader α} (hp : ReadsSupported p) (hq : ReadsSupported q) : ReadsSupported (orElse p q) :=
  fun stop ts r h => (orElse_eq_ok h).elim (hp stop ts r) (hq stop ts r)

theorem optional {p : ListReader α} (hp : ReadsSupported p) : ReadsSupported (optional p) := by
  intro stop ts r h
  obtain ⟨r₁, hfirst, -, hr⟩ | ⟨-, hr⟩ := optional_eq_ok h
  · rw [hr]
    exact hp stop ts r₁ hfirst
  · exact ⟨[], hr.symm, fun _ ht => absurd ht List.not_mem_nil⟩

theorem furtherItems {item : ListReader α} (hitem : ReadsSupported item) (limit : Nat) :
    ReadsSupported (furtherItems item limit) := by
  induction limit with
  | zero => exact value []
  | succ limit ih =>
    intro stop ts r h
    have hnextReads : ReadsSupported (nextItem item) := (symbol rfl).bind fun _ => hitem
    obtain ⟨-, hr⟩ | ⟨r₁, r₂, hnext, hrest, -, hr⟩ := furtherItems_eq_ok h
    · exact ⟨[], hr.symm, fun _ ht => absurd ht List.not_mem_nil⟩
    · obtain ⟨us, hus, hsupported⟩ := hnextReads stop ts r₁ hnext
      obtain ⟨vs, hvs, hsupported'⟩ := ih stop r₁.rest r₂ hrest
      exact ⟨us ++ vs, by rw [hus, hvs, hr, List.append_assoc], List.forall_mem_append.mpr ⟨hsupported, hsupported'⟩⟩

theorem listOf {item : ListReader α} (hitem : ReadsSupported item) : ReadsSupported (listOf item) := by
  intro stop ts r h
  have hlist : ReadsSupported (item >>= fun first => ListReader.furtherItems item ts.length >>= fun others =>
      pure (first :: others)) := hitem.bind fun _ => (furtherItems hitem _).bind fun _ => value _
  exact hlist stop ts r h

theorem packageRef : ReadsSupported packageRef :=
  (name (by decide)).bind fun _ => (symbol rfl).bind fun _ => (symbol rfl).bind fun _ => value _

theorem exportItem : ReadsSupported exportItem := by
  have hmark : ReadsSupported membersMark := (symbol rfl).bind fun _ => (symbol rfl).bind fun _ => symbol rfl
  have hname : ReadsSupported exportedName := (name (by decide)).bind fun _ => (optional hmark).bind fun _ => value _
  exact orElse (packageRef.bind fun _ => value _) hname

theorem exportItems : ReadsSupported exportItems :=
  (symbol rfl).bind fun _ => (listOf exportItem).bind fun _ => (symbol rfl).bind fun _ => value _

theorem importedPackages : ReadsSupported importedPackages :=
  (symbol rfl).bind fun _ => (listOf packageRef).bind fun _ => (symbol rfl).bind fun _ => value _

/-- A row that is read as a whole belongs to supported constructs. -/
theorem run {p : ListReader α} (hp : ReadsSupported p) {stop : Nat} {ts : List Token} {a : α}
    (h : p.run stop ts = .ok a) : ∀ t ∈ ts, t.kind.isSupported = true := by
  obtain ⟨r, hread, -, hrest⟩ := run_eq_ok h
  obtain ⟨us, hus, hsupported⟩ := hp stop ts r hread
  rw [hus, hrest, List.append_nil]
  exact hsupported

end ReadsSupported

end ListReader

/-! ## Runs without diagnostics -/

namespace Parser

variable {α β : Type} {tokens : List Token} {H : Option Kind → Prop} {P : α → Prop} {Q : β → Prop} {p : Parser α}
  {f : α → Parser β}

/-- The tokens between two states belong to supported constructs. -/
def State.Passed (s s' : State) : Prop := ∃ ts, s.rest = ts ++ s'.rest ∧ ∀ t ∈ ts, t.kind.isSupported = true

namespace State.Passed

variable {s s₁ s' : State}

theorem refl (s : State) : s.Passed s := ⟨[], rfl, fun _ ht => absurd ht List.not_mem_nil⟩

theorem trans (h : s.Passed s₁) (h' : s₁.Passed s') : s.Passed s' := by
  obtain ⟨ts, hts, hsupported⟩ := h
  obtain ⟨us, hus, hsupported'⟩ := h'
  exact ⟨ts ++ us, by rw [hts, hus, List.append_assoc], List.forall_mem_append.mpr ⟨hsupported, hsupported'⟩⟩

theorem within (h : s.Passed s') (hs : s.rest <:+ tokens) : s'.rest <:+ tokens := by
  obtain ⟨ts, hts, -⟩ := h
  exact List.IsSuffix.trans ⟨ts, hts.symm⟩ hs

end State.Passed

theorem State.record_rest (s : State) (kind : NodeKind) (span : Span) : (s.record kind span).rest = s.rest := by
  obtain ⟨ns, hrecord⟩ := s.record_eq kind span
  rw [hrecord]

/-- What a parser does where it leaves no diagnostic: it reads tokens of supported constructs, and what it yields has a
property. -/
structure CleanRuns (tokens : List Token) (H : Option Kind → Prop) (P : α → Prop) (p : Parser α) : Prop where
  moves : Moving p
  runs : ∀ c s a s', s.rest <:+ tokens → H s.peek → p c s = (some a, s') → s'.diagnostics = [] → P a ∧ s.Passed s'

namespace CleanRuns

theorem ret {a : α} (h : P a) : CleanRuns tokens H P (pure a) := by
  refine ⟨.value a, fun c s b s' _ _ hrun _ => ?_⟩
  cases hrun
  exact ⟨h, .refl s⟩

theorem of_confined {r u : Bool} {F : α → List Token → Prop} (h : ∀ n, Confined tokens (n + 1) H r u F P p) :
    CleanRuns tokens H P p := by
  refine ⟨(h 0).moves, fun c s a s' hwithin hhead hrun hclean => ?_⟩
  obtain ⟨hP, ts, -, hts⟩ := (h _).runs c s a s' ⟨Nat.lt_succ_self _, hwithin, hhead⟩ hrun hclean
  exact ⟨hP, ts, hts.took.rest, hts.shape.supported⟩

theorem dirty (hp : Moving p) (h : Complains p) : CleanRuns tokens H P p := by
  refine ⟨hp, fun c s a s' _ _ hrun hclean => absurd hclean ?_⟩
  have hdirty := h c s
  rw [hrun] at hdirty
  exact hdirty

theorem imp (h : CleanRuns tokens H P p) {P' : α → Prop} (hP : ∀ a, P a → P' a) : CleanRuns tokens H P' p :=
  ⟨h.moves, fun c s a s' hwithin hhead hrun hclean => (h.runs c s a s' hwithin hhead hrun hclean).imp_left (hP a)⟩

theorem bind (hp : CleanRuns tokens H P p) (hf : ∀ a, CleanRuns tokens any (fun b => P a → Q b) (f a)) :
    CleanRuns tokens H Q (p >>= f) := by
  refine ⟨hp.moves.bind fun a => (hf a).moves, fun c s b s' hwithin hhead hrun hclean => ?_⟩
  obtain ⟨a, s₁, hfirst, hrest⟩ := bind_eq_some.mp hrun
  obtain ⟨hP, hpassed⟩ := hp.runs c s a s₁ hwithin hhead hfirst (((hf a).moves.of_run hrest).clean hclean)
  obtain ⟨hQ, hpassed'⟩ := (hf a).runs c s₁ b s' (hpassed.within hwithin) trivial hrest hclean
  exact ⟨hQ hP, hpassed.trans hpassed'⟩

theorem seq (hp : CleanRuns tokens H P p) (hf : ∀ a, CleanRuns tokens any Q (f a)) : CleanRuns tokens H Q (p >>= f) :=
  hp.bind fun a => (hf a).imp fun _ hQ _ => hQ

/-- A parser that only looks. -/
theorem look {q : Parser α} {f : α → Parser β} (hq : ∀ c s, (q c s).2 = s) (hf : ∀ a, CleanRuns tokens H Q (f a)) :
    CleanRuns tokens H Q (q >>= f) := by
  refine ⟨(Moving.look hq).bind fun a => (hf a).moves, fun c s b s' hwithin hhead hrun hclean => ?_⟩
  obtain ⟨a, s₁, hfirst, hrest⟩ := bind_eq_some.mp hrun
  obtain rfl : s₁ = s := by rw [← hq c s, hfirst]
  exact (hf a).runs c s₁ b s' hwithin hhead hrest hclean

theorem isNext {k : Kind} {f : Bool → Parser β} (htrue : CleanRuns tokens (· = some k) Q (f true))
    (hfalse : CleanRuns tokens H Q (f false)) : CleanRuns tokens H Q (Parser.isNext k >>= f) := by
  refine ⟨(Moving.look fun _ _ => rfl).bind fun b => ?_, fun c s b s' hwithin hhead hrun hclean => ?_⟩
  · cases b with
    | true => exact htrue.moves
    | false => exact hfalse.moves
  · obtain ⟨b, s₁, hnext, hrest⟩ := bind_eq_some.mp hrun
    cases hnext
    replace hrest : f (s.isNext k) c s = (some b, s') := hrest
    cases hb : s.isNext k with
    | true =>
      rw [hb] at hrest
      exact htrue.runs c s _ s' hwithin (eq_of_beq hb) hrest hclean
    | false =>
      rw [hb] at hrest
      exact hfalse.runs c s _ s' hwithin hhead hrest hclean

/-- A part whose failure is reported has not failed. -/
theorem attempt {f : Option α → Parser β} (hp : CleanRuns tokens H P p)
    (hfails : ∀ c s s', s.rest <:+ tokens → p c s = (none, s') → s'.diagnostics ≠ [])
    (hsome : ∀ a, CleanRuns tokens any (fun b => P a → Q b) (f (some a))) (hnone : Moving (f none)) :
    CleanRuns tokens H Q (Parser.attempt p >>= f) := by
  have hmoves : Moving (Parser.attempt p) := hp.moves
  have hrest : ∀ a, Moving (f a) := fun a => a.rec hnone fun a => (hsome a).moves
  refine ⟨hmoves.bind hrest, fun c s b s' hwithin hhead hrun hclean => ?_⟩
  obtain ⟨r, s₁, hfirst, hlater⟩ := bind_eq_some.mp hrun
  have hclean₁ := ((hrest r).of_run hlater).clean hclean
  rw [Parser.attempt] at hfirst
  rcases hpart : p c s with ⟨_ | a, s₂⟩
  · rw [hpart] at hfirst
    cases hfirst
    exact absurd hclean₁ (hfails c s s₁ hwithin hpart)
  · rw [hpart] at hfirst
    cases hfirst
    obtain ⟨hP, hpassed⟩ := hp.runs c s a s₁ hwithin hhead hpart hclean₁
    obtain ⟨hQ, hpassed'⟩ := (hsome a).runs c s₁ b s' (hpassed.within hwithin) trivial hlater hclean
    exact ⟨hQ hP, hpassed.trans hpassed'⟩

theorem rounds {round : α → Parser (Round α β)} {I : α → Prop}
    (hround : ∀ a, CleanRuns tokens any (fun x => I a → Round.Ends I Q x) (round a)) (a : α) :
    CleanRuns tokens any (fun b => I a → Q b) (repeatUntil round a) := by
  have hlimited : ∀ limit a, CleanRuns tokens any (fun b => I a → Q b) (roundsUpTo round limit a) := by
    intro limit
    induction limit with
    | zero => exact fun a => ⟨.fail, fun c s b s' _ _ hrun => by cases hrun⟩
    | succ limit ih =>
      intro a
      refine (hround a).bind fun x => ?_
      cases x with
      | again a' => exact (ih a').imp fun b hb hagain ha => hb (hagain ha)
      | done b => exact .ret id
  exact ⟨fun c s => (hlimited _ a).moves c s, fun c s => (hlimited _ a).runs c s⟩

theorem resuming (hp : CleanRuns tokens H P p)
    (hfails : ∀ c s s', s.rest <:+ tokens → p c s = (none, s') → s'.diagnostics ≠ []) :
    CleanRuns tokens H (fun r => ∀ a ∈ r, P a) (Parser.resuming p) := by
  refine ⟨Moving.resuming hp.moves, fun c s r s' hwithin hhead hrun hclean => ?_⟩
  obtain ⟨a, rfl, hitem⟩ := Confined.resuming_clean (fun s₁ => hfails c s s₁ hwithin) hrun hclean
  obtain ⟨hP, hpassed⟩ := hp.runs c s a s' hwithin hhead hitem hclean
  exact ⟨fun b hb => Option.mem_some.mp hb ▸ hP, hpassed⟩

/-! ## Source units -/

theorem nameList {reader : ListReader α} (hreader : reader.ReadsSupported) (kind : NodeKind) :
    CleanRuns tokens H (fun _ => True) (nameList reader kind) := by
  refine ⟨fun c s => (State.Moves.advance s _).trans (nameList_passes rfl).1, fun c s r s' _ _ hrun _ => ⟨trivial, ?_⟩⟩
  rw [nameList_eq] at hrun
  cases hread : reader.run (listSpan c s).stop (s.rest.take (Extent.nameList s.rest)) with
  | error m =>
    rw [hread] at hrun
    cases hrun
  | ok value =>
    rw [hread] at hrun
    cases hrun
    refine ⟨s.rest.take (Extent.nameList s.rest), ?_, hreader.run hread⟩
    rw [State.record_rest, State.advance_rest, List.take_append_drop]

theorem listDecl {reader : ListReader α} {kind : NodeKind} {make : α → Span → β} {γ : Type} {Q : γ → Prop}
    {f : Option β → Parser γ} (hreader : reader.ReadsSupported) (hf : ∀ r, CleanRuns tokens any Q (f r)) :
    CleanRuns tokens H Q (Parser.attempt (listDecl reader kind make) >>= f) := by
  refine .attempt (P := fun _ => True) ((nameList hreader kind).seq fun r => .ret trivial) ?_
    (fun d => (hf _).imp fun _ hQ _ => hQ) (hf none).moves
  intro c s s' _ hrun
  rw [Parser.listDecl, bind_apply] at hrun
  rcases hlist : Parser.nameList reader kind c s with ⟨_ | r, s₁⟩
  · rw [hlist] at hrun
    cases hrun
    exact (nameList_passes hlist).2 rfl
  · rw [hlist] at hrun
    cases hrun

theorem attemptExpected {α β : Type} {Q : β → Prop} {p : Parser α} {f : Option α → Parser β}
    (hp : ∀ n, Confined tokens (n + 1) any true true anything (fun _ => True) p)
    (hsome : ∀ a, CleanRuns tokens any Q (f (some a))) (hnone : Moving (f none)) :
    CleanRuns tokens any Q (Parser.attempt p >>= f) :=
  .attempt (.of_confined hp) (fun _ s _ hwithin => (hp _).fails _ s _ ⟨Nat.lt_succ_self _, hwithin, trivial⟩)
    (fun a => (hsome a).imp fun _ hQ _ => hQ) hnone

theorem packageHeader : CleanRuns tokens (· = some (.keyword .package)) (fun _ => True) packageHeader := by
  have hskip : ∀ n, Confined tokens (n + 1) (· = some (.keyword .package)) true true anything (fun _ => True) skip :=
    fun n => .skip rfl
  refine (of_confined hskip).seq fun _ => ?_
  have hsemi : ∀ name : Option String, CleanRuns tokens any (fun _ => True) (do
      if (← Parser.attempt (expectPunct .semi)).isNone then
        skipExtent (Extent.recovery true 0)
      return name.getD "") := fun name =>
    attemptExpected (fun _ => .expectPunct rfl) (fun _ => .ret trivial) ((Moving.skipExtent _).bind fun _ => .value _)
  exact attemptExpected (fun _ => .expectText rfl) (fun name => hsemi (some name)) (hsemi none).moves

theorem packageEnd : CleanRuns tokens any (fun _ => True) packageEnd := by
  have hlabel : ∀ n, Confined tokens (n + 1) any false true (fun _ => Lacks (.punct .colon)) (fun _ => True) label :=
    fun _ => .label
  exact attemptExpected (fun _ => .expectKeyword rfl) (fun _ => of_confined hlabel) (.value none)

section Unit

variable {P : PackageStmt → Prop}
  (hstmt : ∀ n, Confined tokens (n + 1) any true true (fun _ => Lacks (.punct .colon)) P packageStmt)

include hstmt

theorem packageItem (body : PackageBody) (k : Kind) : CleanRuns tokens any
    (fun b => (∀ s ∈ body.stmts, P s) → ∀ s ∈ b.stmts, P s) (packageItem body k) := by
  unfold Parser.packageItem
  split
  · exact .listDecl .exportItems fun r => .ret id
  · exact .listDecl .importedPackages fun r => .ret id
  · split
    · have hskip : Moving (skip >>= fun _ => pure body) := .bind (fun _ s => .step s) fun _ => .value _
      refine .look (fun _ _ => rfl) fun span => .dirty ?_ ?_
      · exact (Moving.report _ _).bind fun _ => hskip
      · exact (Complains.report _ _).bind fun _ => hskip
    · have hresumed : CleanRuns tokens any (fun r => ∀ s ∈ r, P s) (Parser.resuming packageStmt) :=
        .resuming (.of_confined hstmt) fun c s s' hwithin hrun =>
          (hstmt _).fails c s s' ⟨Nat.lt_succ_self _, hwithin, trivial⟩ hrun
      refine hresumed.bind fun r => .ret fun hr hbody => List.forall_mem_append.mpr ⟨hbody, fun s hs => ?_⟩
      exact hr s (Option.mem_toList.mp hs)

theorem packageRound (inPackage : Bool) (body : PackageBody) : CleanRuns tokens any
    (fun x => (∀ s ∈ body.stmts, P s) → Round.Ends (fun b : PackageBody => ∀ s ∈ b.stmts, P s)
      (fun b : PackageBody => ∀ s ∈ b.stmts, P s) x) (packageRound inPackage body) := by
  refine .look (fun _ _ => rfl) fun stops => ?_
  split
  · exact .ret id
  · refine .look (fun _ _ => rfl) fun k => ?_
    cases k with
    | none => exact .ret id
    | some k =>
      dsimp only
      split
      · exact .ret id
      · exact (packageItem hstmt body k).bind fun b => .ret id

theorem packageBody (inPackage : Bool) : CleanRuns tokens any (fun b => ∀ s ∈ b.stmts, P s) (packageBody inPackage) :=
  (rounds (packageRound hstmt inPackage) PackageBody.empty).imp fun _ hb => hb nofun

theorem package : CleanRuns tokens (· = some (.keyword .package)) (fun p => ∀ s ∈ p.body.stmts, P s) package := by
  have hrecord : ∀ span, CleanRuns tokens any (fun _ => True) (record .package span) := by
    refine fun span => ⟨fun _ s => .record s _ _, fun c s _ s' _ _ hrun _ => ⟨trivial, [], ?_, nofun⟩⟩
    cases hrun
    exact (State.record_rest s .package span).symm
  refine .look (fun _ _ => rfl) fun start => packageHeader.seq fun name => ?_
  refine (packageBody hstmt true).bind fun body => packageEnd.seq fun endLabel => .look (fun _ _ => rfl) fun span => ?_
  exact (hrecord span).seq fun _ => .ret id

theorem unit : CleanRuns tokens any (fun u => ∀ s ∈ u.body.stmts, P s) sourceUnit := by
  refine .isNext ((package hstmt).bind fun p => ?_) ((packageBody hstmt false).bind fun body => .ret id)
  refine .look (fun _ _ => rfl) fun atEnd => .look (fun _ _ => rfl) fun halted => ?_
  split
  · have hreports : Complains (reportExpected .endOfInput) := fun _ _ => List.cons_ne_nil _ _
    exact .dirty (.bind (fun _ _ => State.Moves.reported _ _) fun _ => .value _) (hreports.bind fun _ => .value _)
  · exact .ret id

end Unit

theorem sourceUnit : CleanRuns tokens any (fun u => AllSites (Site.Alone tokens) u.sites) sourceUnit := by
  refine (unit fun n => Inner.packageStmt).imp fun u hu => ?_
  cases u with
  | package p => exact PackageBody.allSites.mpr hu
  | items b => exact PackageBody.allSites.mpr hu

end CleanRuns

/-- A unit without diagnostics ends with the source. -/
theorem sourceUnit_exhausts {c : Setting} {s s' : State} {u : SourceUnit} (h : sourceUnit c s = (some u, s'))
    (hclean : s'.diagnostics = []) : s'.rest = [] := by
  cases hnext : s.isNext (.keyword .package) with
  | true =>
    obtain ⟨p, s₁, hp⟩ := Delivers.package c s
    have hunit := h.symm.trans (sourceUnit_of_package hnext hp)
    cases hunit
    rw [State.afterPackage] at hclean ⊢
    split at hclean
    · cases hclean
    · next hends =>
      rw [if_neg hends]
      rw [halts_of_clean hclean, Bool.not_false, Bool.and_true, Bool.not_eq_true', Bool.not_eq_false] at hends
      exact List.isEmpty_iff.mp hends
  | false =>
    have hpackage : isNext (.keyword .package) c s = (some false, s) := congrArg (fun b => (some b, s)) hnext
    rw [sourceUnit, bind_of_some hpackage] at h
    obtain ⟨body, s₁, hbody, hdone⟩ := bind_eq_some.mp h
    cases hdone
    exact (packageBody_exhausts (halts_of_clean hclean) hbody).resolve_right Bool.false_ne_true

end Parser

/-! ## Whole sources -/

open Bluespec.Parser

variable {source : String} {recovery : Recovery}

/-- A source without diagnostics is read to its end, and nothing is wrong with the text of its tokens. -/
theorem parse_clean (h : (parse source recovery).diagnostics = []) : LexicalError.ofText source = [] ∧
    ∃ s', sourceUnit (.ofText source recovery) (.ofText source) = (some (parse source recovery).root, s') ∧
      s'.diagnostics = [] ∧ s'.rest = [] := by
  obtain ⟨u, s', hrun, -⟩ := sourceUnit_delivers (.ofText source recovery) (.ofText source)
  unfold parse at h ⊢
  dsimp only at h ⊢
  split at h
  · next hlexical =>
    have hnil := Recovery.eq_nil_of_keep h
    rw [hnil] at hlexical
    cases hlexical.2
  · next hlexical =>
    rw [if_neg hlexical, hrun]
    rw [hrun] at h
    obtain ⟨htokens, hreported⟩ := List.append_eq_nil_iff.mp (Recovery.eq_nil_of_keep h)
    have hclean := List.reverse_eq_nil_iff.mp hreported
    exact ⟨List.map_eq_nil_iff.mp htokens, s', rfl, hclean, sourceUnit_exhausts hrun hclean⟩

/-- The expressions and statements of a source without diagnostics are read from their own tokens alone. -/
theorem alone_of_clean (h : (parse source recovery).diagnostics = []) :
    AllSites (Site.Alone (Token.significant source)) (parse source recovery).root.sites := by
  obtain ⟨-, s', hrun, hclean, -⟩ := parse_clean h
  exact (CleanRuns.sourceUnit.runs _ _ _ _ (List.suffix_refl _) trivial hrun hclean).1

/-- Unsupported constructs are never passed over in silence: a source without diagnostics has none of their tokens,
wherever they would stand. -/
theorem supported_of_clean (h : (parse source recovery).diagnostics = []) :
    ∀ t ∈ Token.significant source, t.kind.isSupported = true := by
  obtain ⟨-, s', hrun, hclean, hend⟩ := parse_clean h
  have hunit : CleanRuns (Token.significant source) any _ sourceUnit := CleanRuns.sourceUnit
  obtain ⟨-, ts, hts, hsupported⟩ := hunit.runs _ _ _ _ (List.suffix_refl _) trivial hrun hclean
  rw [hend, List.append_nil] at hts
  replace hts : Token.significant source = ts := hts
  rw [hts]
  exact hsupported

/-- Where nothing is reported there are no diagnostics. -/
theorem clean_of_sourceUnit (hlexical : LexicalError.ofText source = [])
    (h : (sourceUnit (.ofText source recovery) (.ofText source)).2.diagnostics = []) :
    (parse source recovery).diagnostics = [] := by
  have hnil : Diagnostic.sortByStart [] = [] := (Diagnostic.sortByStart_perm []).eq_nil
  have hnone : recovery.keep [] = [] := by cases recovery <;> rfl
  unfold parse
  dsimp only
  rw [hlexical, if_neg (fun hstops => by cases hstops.2)]
  show Diagnostic.sortByStart (recovery.keep ([] ++ (sourceUnit _ _).2.diagnostics.reverse)) = []
  rw [h, List.reverse_nil, List.append_nil, hnone, hnil]

theorem supported_of_clean_assign :
    (parse "x = 1;" .collectAll).diagnostics = [] ∧ ∀ t ∈ Token.significant "x = 1;", t.kind.isSupported = true :=
  have hclean : (parse "x = 1;" .collectAll).diagnostics = [] := clean_of_sourceUnit rfl (by decide +kernel)
  ⟨hclean, supported_of_clean hclean⟩

end Bluespec
