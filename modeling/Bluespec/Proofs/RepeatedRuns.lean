import Bluespec.Proofs.DeclarationNodes
import Bluespec.Proofs.JoinedUnits

/-!
# Runs that are the same in both modes

Reading stops early only where something has been reported.  What a run without diagnostics reads is decided by its
tokens alone, even where it tries a chain of conditions and takes it back.  So it goes the same way whether all
diagnostics are wanted or only the first one.

* **`Parser.Repeats`** — a parser whose runs without diagnostics are the same in every setting of one source, with one
  rule for each way to put parsers together.
* **`Parser.Repeats.sourceUnit`** — the parser of a whole source is such.
* **`parse_eq_of_clean`** — a source without diagnostics in one mode is parsed in the same way in the other one.
-/

namespace Bluespec

namespace Parser

variable {α β : Type} {p : Parser α} {f : α → Parser β}

/-- A run without diagnostics is the same in every setting of its source, whatever has been recorded before. -/
structure Repeats (p : Parser α) : Prop where
  moves : Moving p
  again : ∀ c s a s', p c s = (some a, s') → s'.diagnostics = [] → ∀ c' ns, c'.sourceEnd = c.sourceEnd →
    ∃ ns', p c' { s with nodes := ns } = (some a, { s' with nodes := ns' })

namespace Repeats

/-! ## Single parsers -/

/-- A parser stops wherever no common token comes next. -/
def StopsAtOthers (F : α → List Token → Prop) : Prop :=
  ∀ a rest, (∀ t ∈ rest.head?, t.kind.isCommon = false) → F a rest

theorem stopsAtOthers_colon : StopsAtOthers fun _ : α => Lacks (.punct .colon) := by
  intro _ rest h t ht hk
  have hcommon := h t ht
  rw [hk] at hcommon
  cases hcommon

/-- A run that the tokens read decide is decided by the same tokens again. -/
theorem of_confined {r u : Bool} {F : α → List Token → Prop} {P : List Token → α → Prop}
    (hp : ∀ tokens n, Confined tokens (n + 1) any r u F (P tokens) p) (hF : StopsAtOthers F) : Repeats p := by
  refine ⟨(hp [] 0).moves, fun c s a s' hrun hclean c' ns _ => ?_⟩
  have hstarts : Starts s.rest (s.rest.length + 1) any s := ⟨Nat.lt_succ_self _, List.suffix_refl _, trivial⟩
  obtain ⟨-, ts, -, hts⟩ := (hp s.rest _).runs c s a s' hstarts hrun hclean
  have hstops : SameNext s'.rest s'.rest ∨ F a s'.rest := by
    cases hrest : s'.rest with
    | nil => exact .inr (hF a [] nofun)
    | cons t rest =>
      cases hcommon : t.kind.isCommon with
      | true => exact .inl (.of_cons hcommon)
      | false => exact .inr (hF a _ fun u hu => by cases hu; exact hcommon)
  obtain ⟨ns', hagain⟩ := hts.again s.consumed s'.rest (fun _ => rfl) hstops c' ns
  refine ⟨ns', ?_⟩
  rw [← hts.took.rest, ← hts.took.consumed] at hagain
  rw [((hp [] 0).moves.of_run hrun).clean hclean, hclean]
  exact hagain

theorem ret (a : α) : Repeats (pure a) := by
  refine ⟨.value a, fun c s b s' hrun _ c' ns _ => ⟨ns, ?_⟩⟩
  cases hrun
  rfl

/-- Nothing is to be shown of runs that end with a diagnostic. -/
theorem dirty (hmoves : Moving p) (h : Complains p) : Repeats p := by
  refine ⟨hmoves, fun c s a s' hrun hclean => ?_⟩
  have hdirty := h c s
  rw [hrun] at hdirty
  exact absurd hclean hdirty

theorem skip : Repeats skip := by
  refine ⟨.skip, fun c s a s' hrun _ c' ns _ => ⟨ns, ?_⟩⟩
  cases hrun
  obtain ⟨cs, rest, ds, ns₀⟩ := s
  cases rest <;> rfl

/-- What is recorded does not count. -/
theorem record (kind : NodeKind) (span : Span) : Repeats (record kind span) := by
  refine ⟨.record kind span, fun c s a s' hrun _ c' ns _ => ?_⟩
  obtain ⟨ns₁, hfirst⟩ := State.record_eq s kind span
  obtain ⟨ns', hagain⟩ := State.record_eq { s with nodes := ns } kind span
  obtain rfl : s.record kind span = s' := congrArg Prod.snd hrun
  rw [hfirst]
  exact ⟨ns', congrArg (Prod.mk (some ())) hagain⟩

/-! ## Parsers in a row -/

theorem bind (hp : Repeats p) (hf : ∀ a, Repeats (f a)) : Repeats (p >>= f) := by
  refine ⟨hp.moves.bind fun a => (hf a).moves, fun c s b s' hrun hclean c' ns hend => ?_⟩
  obtain ⟨a, s₁, hfirst, hrest⟩ := bind_eq_some.mp hrun
  have hclean₁ := ((hf a).moves.of_run hrest).clean hclean
  obtain ⟨ns₁, hfirst'⟩ := hp.again c s a s₁ hfirst hclean₁ c' ns hend
  obtain ⟨ns', hrest'⟩ := (hf a).again c s₁ b s' hrest hclean c' ns₁ hend
  exact ⟨ns', (bind_of_some hfirst').trans hrest'⟩

/-- A parser that only looks. -/
theorem look {answer : Nat → List Token → List Token → α} (hq : Looks p answer) (hf : ∀ a, Repeats (f a)) :
    Repeats (p >>= f) := by
  have hstill : ∀ c s, (p c s).2 = s := fun c s => by rw [hq]
  refine ⟨(Moving.look hstill).bind fun a => (hf a).moves, fun c s b s' hrun hclean c' ns hend => ?_⟩
  rw [bind_apply, hq] at hrun ⊢
  rw [hend]
  exact (hf _).again c s b s' hrun hclean c' ns hend

/-- Nothing stops where nothing has been reported. -/
theorem halted {f : Bool → Parser β} (hf : Repeats (f false)) (hmoves : Moving (f true)) :
    Repeats (halted >>= f) := by
  have hall : ∀ b, Moving (f b) := fun b => b.rec hf.moves hmoves
  refine ⟨Moving.halted.bind hall, fun c s b s' hrun hclean c' ns hend => ?_⟩
  have hrun' : f (s.halts c) c s = (some b, s') := hrun
  have hs : s.diagnostics = [] := ((hall _).of_run hrun').clean hclean
  rw [halts_of_clean hs] at hrun'
  have hhalted : Parser.halted c' { s with nodes := ns } = (some false, { s with nodes := ns }) :=
    congrArg (fun b => (some b, _)) (halts_of_clean hs)
  rw [bind_of_some hhalted]
  exact hf.again c s b s' hrun' hclean c' ns hend

/-! ## Attempts and loops -/

/-- Every failure leaves a diagnostic. -/
def Complaining (p : Parser α) : Prop := ∀ c s s', p c s = (none, s') → s'.diagnostics ≠ []

theorem complaining_of_confined {r u : Bool} {F : α → List Token → Prop} {P : List Token → α → Prop}
    (hp : ∀ tokens n, Confined tokens (n + 1) any r u F (P tokens) p) : Complaining p := fun c s s' hrun =>
  (hp s.rest _).fails c s s' ⟨Nat.lt_succ_self _, List.suffix_refl _, trivial⟩ hrun

/-- A part whose failure is reported has not failed. -/
theorem attempt {f : Option α → Parser β} (hp : Repeats p) (hfails : Complaining p) (hsome : ∀ a, Repeats (f (some a)))
    (hnone : Moving (f none)) : Repeats (attempt p >>= f) := by
  have hall : ∀ r, Moving (f r) := fun r => r.rec hnone fun a => (hsome a).moves
  refine ⟨hp.moves.attempt.bind hall, fun c s b s' hrun hclean c' ns hend => ?_⟩
  obtain ⟨r, s₁, hfirst, hrest⟩ := bind_eq_some.mp hrun
  have hclean₁ := ((hall r).of_run hrest).clean hclean
  rw [Parser.attempt] at hfirst
  rcases hpart : p c s with ⟨_ | a, s₂⟩
  · rw [hpart] at hfirst
    cases hfirst
    exact absurd hclean₁ (hfails c s s₁ hpart)
  · rw [hpart] at hfirst
    cases hfirst
    obtain ⟨ns₁, hpart'⟩ := hp.again c s a s₁ hpart hclean₁ c' ns hend
    obtain ⟨ns', hrest'⟩ := (hsome a).again c s₁ b s' hrest hclean c' ns₁ hend
    refine ⟨ns', ?_⟩
    rw [bind_apply, Parser.attempt, hpart']
    exact hrest'

theorem resuming (hp : Repeats p) (hfails : Complaining p) : Repeats (resuming p) := by
  refine ⟨hp.moves.resuming, fun c s r s' hrun hclean c' ns hend => ?_⟩
  obtain ⟨a, rfl, hitem⟩ := Confined.resuming_clean (hfails c s) hrun hclean
  obtain ⟨ns', hitem'⟩ := hp.again c s a s' hitem hclean c' ns hend
  exact ⟨ns', by rw [Parser.resuming, hitem']⟩

theorem repeatUntil {round : α → Parser (Round α β)} (h : ∀ a, Repeats (round a)) (a : α) :
    Repeats (repeatUntil round a) := by
  have hlimited : ∀ limit a, Repeats (roundsUpTo round limit a) := by
    intro limit
    induction limit with
    | zero => exact fun a => ⟨.fail, fun c s b s' hrun => by cases hrun⟩
    | succ limit ih =>
      intro a
      refine (h a).bind fun r => ?_
      cases r with
      | again a' => exact ih a'
      | done b => exact ret b
  exact ⟨fun c s => (hlimited _ a).moves c s, fun c s => (hlimited _ a).again c s⟩

/-! ## Whole units -/

theorem listDecl {reader : ListReader α} {kind : NodeKind} {make : α → Span → β} {γ : Type} {f : Option β → Parser γ}
    (hreader : reader.EndsList) (hf : ∀ r, Repeats (f r)) : Repeats (Parser.attempt (listDecl reader kind make) >>= f) := by
  have hmoves : Moving (Parser.attempt (Parser.listDecl reader kind make)) :=
    (Moving.nameList reader kind).bind fun r => .value (make r.1 r.2)
  have hlist : Repeats (Parser.attempt (Parser.listDecl reader kind make)) := by
    refine ⟨hmoves, fun c s d s' hrun hclean c' ns _ => ?_⟩
    obtain ⟨x, ts, rfl, -, htook, hgoes⟩ := goes_of_listDecl hreader hrun hclean
    obtain ⟨ns', hagain⟩ := hgoes s.consumed s'.rest c' ns
    refine ⟨ns', ?_⟩
    rw [← htook.rest, ← htook.consumed] at hagain
    rw [(hmoves.of_run hrun).clean hclean, hclean]
    exact hagain
  exact hlist.bind hf

theorem packageItem (body : PackageBody) (k : Kind) : Repeats (packageItem body k) := by
  by_cases hexport : k = .keyword .export_
  · subst hexport
    exact listDecl .exportItems fun r => ret _
  by_cases himport : k = .keyword .import_
  · subst himport
    exact listDecl .importedPackages fun r => ret _
  cases hclose : k.isCloser with
  | true => exact dirty (.packageItem body k) (complains_packageItem hclose body)
  | false =>
    have hstmt : ∀ tokens n, Confined tokens (n + 1) any true true (fun _ => Lacks (.punct .colon)) _ packageStmt :=
      fun tokens n => Inner.packageStmt
    rw [packageItem_stmt hexport himport hclose]
    exact (resuming (of_confined hstmt stopsAtOthers_colon) (complaining_of_confined hstmt)).bind fun r => ret _

theorem packageBody (inPackage : Bool) : Repeats (packageBody inPackage) := by
  refine repeatUntil (fun body => halted ?_ (.value _)) PackageBody.empty
  refine look looks_peek fun k => ?_
  cases k with
  | none => exact ret _
  | some k =>
    dsimp only
    split
    · exact ret _
    · exact (packageItem body k).bind fun b => ret _

theorem attemptExpected {f : Option α → Parser β}
    (hp : ∀ tokens n, Confined tokens (n + 1) any true true anything (fun _ => True) p)
    (hsome : ∀ a, Repeats (f (some a))) (hnone : Moving (f none)) : Repeats (Parser.attempt p >>= f) :=
  attempt (of_confined hp fun _ _ _ => trivial) (complaining_of_confined hp) hsome hnone

theorem packageHeader : Repeats packageHeader := by
  have hsemi : ∀ name : Option String, Repeats (do
      if (← Parser.attempt (expectPunct .semi)).isNone then
        skipExtent (Extent.recovery true 0)
      return name.getD "") := fun name =>
    attemptExpected (fun _ _ => .expectPunct rfl) (fun _ => ret _) ((Moving.skipExtent _).bind fun _ => .value _)
  exact skip.bind fun _ => attemptExpected (fun _ _ => .expectText rfl) (fun name => hsemi (some name)) (hsemi none).moves

theorem packageEnd : Repeats packageEnd := by
  have hlabel : ∀ tokens n, Confined tokens (n + 1) any false true (fun _ => Lacks (.punct .colon)) (fun _ => True) label :=
    fun _ _ => .label
  exact attemptExpected (fun _ _ => .expectKeyword rfl) (fun _ => of_confined hlabel stopsAtOthers_colon) (.value none)

theorem package : Repeats package :=
  look looks_offset fun start => packageHeader.bind fun _ => (packageBody true).bind fun _ => packageEnd.bind fun _ =>
    look (looks_spanFrom start) fun span => (record .package span).bind fun _ => ret _

theorem sourceUnit : Repeats sourceUnit := by
  have hatEnd : Looks (ask State.atEnd) fun _ _ rest => rest.isEmpty := fun _ _ => rfl
  refine look (looks_isNext _) fun packaged => ?_
  cases packaged with
  | false => exact (packageBody false).bind fun _ => ret _
  | true =>
    refine package.bind fun p => look hatEnd fun ended => ?_
    have hreport : Moving (reportExpected .endOfInput >>= fun _ => pure (SourceUnit.package p)) :=
      (Moving.reportExpected _).bind fun _ => .value _
    have hreports : Complains (reportExpected .endOfInput) := fun _ _ => List.cons_ne_nil _ _
    cases ended with
    | true => exact halted (ret _) (.value _)
    | false => exact halted (dirty hreport (hreports.bind fun _ => .value _)) (.value _)

end Repeats

end Parser

/-! ## Whole sources -/

open Bluespec.Parser

variable {source : String} {recovery : Recovery}

/-- Declarations of which neither is empty do not lie before each other. -/
theorem NodeSpan.Precedes.asymm {a b : NodeSpan} (ha : a.span.start < a.span.stop) (hb : b.span.start < b.span.stop)
    (h : a.Precedes b) : ¬ b.Precedes a := by
  unfold NodeSpan.Precedes at *
  omega

/-- What is recorded is told by what it holds: there is one order for it. -/
theorem Recorded.eq_of_perm {tokens : List Token} {ns ns' kept kept' : List NodeSpan} (h : Recorded tokens ns kept)
    (h' : Recorded tokens ns' kept') (hperm : ns.Perm ns') : ns = ns' := by
  refine hperm.eq_of_pairwise (fun a b ha hb hab hba => ?_) h.ordered h'.ordered
  exact absurd hba (hab.asymm (h.covering a ha).nonempty (h'.covering b hb).nonempty)

theorem Parsed.eq_of_parts {p q : Parsed} (hroot : p.root = q.root) (hconcrete : p.concrete = q.concrete)
    (hdiagnostics : p.diagnostics = q.diagnostics) : p = q := by
  obtain ⟨root, concrete, diagnostics⟩ := p
  subst hroot hconcrete hdiagnostics
  rfl

/-- A source without diagnostics in one mode is parsed in the same way in the other one. -/
theorem parse_eq_of_clean (hclean : (parse source recovery).diagnostics = []) (recovery' : Recovery) :
    parse source recovery' = parse source recovery := by
  obtain ⟨hlexical, s', hrun, hdone, -⟩ := parse_clean hclean
  obtain ⟨ns', hrun'⟩ := Repeats.sourceUnit.again _ _ _ _ hrun hdone (.ofText source recovery') [] rfl
  have hclean' : (parse source recovery').diagnostics = [] :=
    clean_of_sourceUnit hlexical ((congrArg (·.2.diagnostics) hrun').trans hdone)
  have hroot : (parse source recovery').root = (parse source recovery).root := by
    obtain ⟨-, s₁, hagain, -⟩ := parse_clean hclean'
    exact Option.some.inj (congrArg Prod.fst (hagain.symm.trans hrun'))
  have hnodes : recordedNodes source recovery' = recordedNodes source recovery := by
    obtain ⟨hrecorded, hall⟩ := recorded_parse source recovery
    obtain ⟨hrecorded', hall'⟩ := recorded_parse source recovery'
    refine hrecorded'.eq_of_perm hrecorded ((hall' hclean').symm.trans ?_)
    rw [hroot]
    exact hall hclean
  have hconcrete : (parse source recovery').concrete = (parse source recovery).concrete := by
    rw [parse_concrete, parse_concrete, hnodes]
  exact Parsed.eq_of_parts hroot hconcrete (hclean'.trans hclean.symm)

end Bluespec
