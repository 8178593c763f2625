import Bluespec.Proofs.MovedLists
import Bluespec.Proofs.TrackedDefinitions
import Bluespec.Proofs.UnitTraits

/-!
# Source units over moved tokens

* **`Tracks.nameList`** — a list is passed in the same way at any place, and its diagnostic stands in turn.
* **`Tracks.sourceUnit`** — a whole source unit is read in the same way.
-/

namespace Bluespec.Parser

variable {ℓ : Relocation} {n m : Nat} {α β : Type} {V : Nat → α → α → Prop} {W : Nat → β → β → Prop}
  {p p' : Parser α} {f f' : α → Parser β}

/-! ## Where a token is left -/

/-- As `Tracks`, from states where a token is left. -/
def TracksHere (ℓ : Relocation) (n : Nat) {α : Type} (V : Nat → α → α → Prop) (p p' : Parser α) : Prop :=
  ∀ c s c' s', Alike ℓ c s c' s' → n ≤ s.cursor c → s.rest ≠ [] →
    Option.Rel (V ((p c s).2.cursor c)) (p c s).1 (p' c' s').1 ∧ Alike ℓ c (p c s).2 c' (p' c' s').2 ∧
      s.cursor c ≤ (p c s).2.cursor c

namespace TracksHere

theorem of_tracks (h : Tracks ℓ n V p p') : TracksHere ℓ n V p p' := fun c s c' s' hs hn _ => h c s c' s' hs hn

theorem attempt (h : TracksHere ℓ n V p p') :
    TracksHere ℓ n (fun k => Option.Rel (V k)) (Parser.attempt p) (Parser.attempt p') := by
  intro c s c' s' hs hn hrest
  obtain ⟨hr, hs₁, hle⟩ := h c s c' s' hs hn hrest
  exact ⟨.some hr, hs₁, hle⟩

theorem seq (hp : TracksHere ℓ n V p p') (hf : ∀ m a a', n ≤ m → V m a a' → Tracks ℓ m W (f a) (f' a')) :
    TracksHere ℓ n W (p >>= f) (p' >>= f') := by
  intro c s c' s' hs hn hrest
  obtain ⟨hr, hs₁, hle⟩ := hp c s c' s' hs hn hrest
  rw [bind_apply, bind_apply]
  revert hr hs₁ hle
  cases p c s with
  | mk r s₁ =>
    cases p' c' s' with
    | mk r' s₁' =>
      intro hr hs₁ hle
      cases hr with
      | none => exact ⟨.none, hs₁, hle⟩
      | some hv =>
        obtain ⟨hr₂, hs₂, hle₂⟩ := hf _ _ _ (Nat.le_trans hn hle) hv c s₁ c' s₁' hs₁ (Nat.le_refl _)
        exact ⟨hr₂, hs₂, Nat.le_trans hle hle₂⟩

/-- Behind a look at the next token, one is left if there is a kind. -/
theorem peeked {g g' : Option Kind → Parser β} (hnone : Tracks ℓ n W (g none) (g' none))
    (hsome : ∀ k, TracksHere ℓ n W (g (some k)) (g' (some k))) :
    Tracks ℓ n W (Parser.peek >>= g) (Parser.peek >>= g') := by
  intro c s c' s' hs hn
  show Option.Rel (W ((g s.peek c s).2.cursor c)) (g s.peek c s).1 (g' s'.peek c' s').1 ∧
    Alike ℓ c (g s.peek c s).2 c' (g' s'.peek c' s').2 ∧ s.cursor c ≤ (g s.peek c s).2.cursor c
  rw [hs.peek]
  cases hpeek : s.peek with
  | none => exact hnone c s c' s' hs hn
  | some k =>
    refine hsome k c s c' s' hs hn fun hnil => ?_
    rw [State.peek, hnil] at hpeek
    cases hpeek

end TracksHere

/-! ## Lists of names -/

namespace Alike

variable {c c' : Setting} {s s' : State}

theorem lastEnd_le_step (h : Alike ℓ c s c' s') : s.lastEnd ≤ s.step.lastEnd := by
  cases hrest : s.rest with
  | nil => exact Nat.le_of_eq (congrArg State.lastEnd (State.step_of_nil hrest).symm)
  | cons t ts =>
    have hlt := h.ordered.nonempty t (hrest ▸ List.mem_cons_self)
    have hlast := h.lastEnd
    rw [State.cursor, State.peekSpan, hrest] at hlast
    have hstep : s.step.lastEnd = t.span.stop := by rw [State.step, hrest]; rfl
    rw [hstep]
    exact Nat.le_trans hlast (Nat.le_of_lt hlt)

theorem lastEnd_le_advance (h : Alike ℓ c s c' s') (n : Nat) : s.lastEnd ≤ (s.advance n).lastEnd := by
  induction n generalizing s s' with
  | zero => exact Nat.le_refl _
  | succ n ih => exact Nat.le_trans h.lastEnd_le_step (ih h.step)

/-- Tokens that were passed begin before the end of the last of them. -/
theorem start_lt_lastEnd (h : Alike ℓ c s c' s') (n : Nat) :
    ∀ t ∈ s.rest.take n, t.span.start < (s.advance n).lastEnd := by
  induction n generalizing s s' with
  | zero =>
    intro t ht
    rw [List.take_zero] at ht
    cases ht
  | succ n ih =>
    intro t ht
    cases hrest : s.rest with
    | nil =>
      rw [hrest] at ht
      cases ht
    | cons t₀ ts =>
      rw [hrest, List.take_succ_cons, List.mem_cons] at ht
      obtain rfl | ht := ht
      · have hlt := h.ordered.nonempty t (hrest ▸ List.mem_cons_self)
        have hstep : s.step.lastEnd = t.span.stop := by rw [State.step, hrest]; rfl
        exact Nat.lt_of_lt_of_le hlt (hstep ▸ h.step.lastEnd_le_advance n)
      · refine ih h.step t ?_
        have hstep : s.step.rest = ts := by rw [State.step, hrest]
        rw [hstep]
        exact ht

/-- Where a token has been read, the end of the last one is moved. -/
theorem lastEnd_move (h : Alike ℓ c s c' s') (hread : 0 < s.lastEnd) : s'.lastEnd = ℓ.move s.lastEnd := by
  rw [State.lastEnd] at hread ⊢
  rw [State.lastEnd, h.consumed, List.head?_map, Option.map_map]
  cases hlast : s.consumed with
  | nil =>
    rw [hlast] at hread
    cases hread
  | cons t ts => rfl

theorem extent_nameList (h : Alike ℓ c s c' s') : Extent.nameList s'.rest = Extent.nameList s.rest := by
  rw [h.rest, CountsKinds.nameList]

/-- The end of a list is behind the first of its tokens, and so behind all diagnostics up to now. -/
theorem cursor_lt_lastEnd (h : Alike ℓ c s c' s') (hrest : s.rest ≠ []) :
    s.cursor c < (s.advance (Extent.nameList s.rest)).lastEnd := by
  obtain ⟨t, ts, hcons⟩ := List.exists_cons_of_ne_nil hrest
  have hhere : s.cursor c = t.span.start := by rw [State.cursor, State.peekSpan, hcons]; rfl
  have hpos := nameList_pos t ts
  rw [← hcons] at hpos
  rw [hhere]
  refine h.start_lt_lastEnd _ t ?_
  cases hcount : Extent.nameList s.rest with
  | zero => omega
  | succ k =>
    rw [hcons, List.take_succ_cons]
    exact List.mem_cons_self

theorem listSpan (h : Alike ℓ c s c' s') (hrest : s.rest ≠ []) :
    Parser.listSpan c' s' = (Parser.listSpan c s).move ℓ.move := by
  obtain ⟨hafter, -⟩ := h.advance (Extent.nameList s.rest)
  have hlast := hafter.lastEnd_move (Nat.zero_lt_of_lt (h.cursor_lt_lastEnd hrest))
  unfold Parser.listSpan
  rw [h.extent_nameList, hlast, h.peekSpan]
  rfl

end Alike

/-- What a list of names yields, at another place. -/
def listMove (f : Nat → Nat) : α × Span → α × Span := Prod.map id (Span.move f)

theorem TracksHere.nameList {reader : ListReader α} (hmoves : reader.Moves ℓ.move) (hmisses : reader.MissesAtTokens)
    (kind : NodeKind) :
    TracksHere ℓ n (By (listMove ℓ.move)) (Parser.nameList reader kind) (Parser.nameList reader kind) := by
  intro c s c' s' hs _ hrest
  obtain ⟨hafter, hcursor⟩ := hs.advance (Extent.nameList s.rest)
  have htaken := hs.start_lt_lastEnd (Extent.nameList s.rest)
  have hpast := hs.cursor_lt_lastEnd hrest
  have hspan := hs.listSpan hrest
  have hextent := hs.extent_nameList
  have hrow : s'.rest.take (Extent.nameList s.rest) =
      (s.rest.take (Extent.nameList s.rest)).map (Token.move ℓ.move) := by rw [hs.rest, List.map_take]
  rw [nameList_eq, nameList_eq, hspan, hextent, hrow, Span.move, hmoves.run]
  cases hrun : reader.run (listSpan c s).stop (s.rest.take (Extent.nameList s.rest)) with
  | ok value =>
    have hmoved : listOutcome kind c' s' (.ok value : Except Miss α) = (some (value, (listSpan c s).move ℓ.move),
        (s'.advance (Extent.nameList s.rest)).record kind ((listSpan c s).move ℓ.move)) := by
      rw [listOutcome, hspan, hextent]
    show Option.Rel _ _ (listOutcome kind c' s' (.ok value : Except Miss α)).1 ∧
      Alike ℓ c _ c' (listOutcome kind c' s' (.ok value : Except Miss α)).2 ∧ _
    rw [hmoved]
    obtain ⟨halike, hsame⟩ := hafter.record kind kind
      ⟨(s.peekSpan c).start, (s.advance (Extent.nameList s.rest)).lastEnd⟩
      (Span.move ℓ.move ⟨(s.peekSpan c).start, (s.advance (Extent.nameList s.rest)).lastEnd⟩)
    refine ⟨.some rfl, halike, ?_⟩
    exact Nat.le_trans hcursor (Nat.le_of_eq hsame.symm)
  | error m =>
    have hmoved : listOutcome kind c' s' (.error (m.move ℓ.move) : Except Miss α) =
        (none, (s'.advance (Extent.nameList s.rest)).report (m.span.move ℓ.move) m.diagnostic.problem) := by
      rw [listOutcome, hextent]
      rfl
    show Option.Rel _ _ (listOutcome kind c' s' (.error (m.move ℓ.move) : Except Miss α)).1 ∧
      Alike ℓ c _ c' (listOutcome kind c' s' (.error (m.move ℓ.move) : Except Miss α)).2 ∧ _
    rw [hmoved]
    refine ⟨.none, ?_, hcursor⟩
    have hat : m.span.start = (s.advance (Extent.nameList s.rest)).lastEnd ∨
        ∃ t ∈ s.rest.take (Extent.nameList s.rest), m.span.start = t.span.start := by
      obtain hpoint | ⟨t, ht, hspan⟩ := hmisses.run hrun
      · exact .inl (by rw [hpoint]; rfl)
      · exact .inr ⟨t, ht, by rw [hspan]⟩
    refine hafter.reportAt m.span ?_ (fun d hd => ?_) _
    · obtain hpoint | ⟨t, ht, hstart⟩ := hat
      · rw [hpoint]
        exact hafter.lastEnd
      · rw [hstart]
        exact Nat.le_trans (Nat.le_of_lt (htaken t ht)) hafter.lastEnd
    · obtain hpoint | ⟨t, ht, hstart⟩ := hat
      · rw [State.advance_diagnostics] at hd
        exact .inr (hpoint ▸ Nat.lt_of_le_of_lt (hs.behind d hd) hpast)
      · exact .inl (hstart ▸ hs.starts t (List.mem_of_mem_take ht))

theorem TracksHere.exportDecl : TracksHere ℓ n (By (ExportDecl.move ℓ.move)) Parser.exportDecl Parser.exportDecl :=
  (nameList .exportItems .exportItems _).seq fun _ a a' _ ha => by
    obtain ⟨items, span⟩ := a
    rw [By] at ha
    subst ha
    exact .ret fun _ _ => rfl

theorem TracksHere.importDecl : TracksHere ℓ n (By (ImportDecl.move ℓ.move)) Parser.importDecl Parser.importDecl :=
  (nameList .importedPackages .importedPackages _).seq fun _ a a' _ ha => by
    obtain ⟨packages, span⟩ := a
    rw [By] at ha
    subst ha
    exact .ret fun _ _ => rfl

namespace Tracks

/-! ## Interfaces -/

theorem methodProto (start : Nat) :
    Tracks ℓ n (By (MethodProto.move ℓ.move)) (Parser.methodProto start) (Parser.methodProto (ℓ.move start)) :=
  skip.next fun _ => type.next fun _ => (expectText _).next fun _ => (formalsIfAny _).next fun _ =>
    (expectPunct _).next fun _ => spanned fun _ _ _ => rfl

theorem subinterfaceDecl (start : Nat) :
    Tracks ℓ n (By (SubinterfaceDecl.move ℓ.move)) (Parser.subinterfaceDecl start)
      (Parser.subinterfaceDecl (ℓ.move start)) :=
  Grammar.Tracked.subinterfaceHeader.next fun _ => spanned fun _ _ _ => rfl

theorem interfaceMember :
    Tracks ℓ n (By (InterfaceMember.move ℓ.move)) Parser.interfaceMember Parser.interfaceMember := by
  refine skipAttributes.next fun _ => offset.seq fun m start start' _ hstart => ?_
  obtain ⟨rfl, -⟩ := hstart
  refine peek.next fun k => ?_
  simp only [id_eq]
  split
  · exact (methodProto start).next fun _ => .ret fun _ _ => rfl
  · exact (subinterfaceDecl start).next fun _ => .ret fun _ _ => rfl
  · exact failExpected _

theorem interfaceHeader :
    Tracks ℓ n (By (Prod.map id (List.map (TypeFormal.move ℓ.move)))) Parser.interfaceHeader
      Parser.interfaceHeader := by
  have hend : ∀ (name : String) (formals : List TypeFormal),
      Tracks ℓ n (By (Prod.map id (List.map (TypeFormal.move ℓ.move))))
        (do Parser.expectPunct .semi; return (name, formals))
        (do Parser.expectPunct .semi; return (name, formals.map (TypeFormal.move ℓ.move))) :=
    fun _ _ => (expectPunct _).next fun _ => .ret fun _ _ => rfl
  refine skip.next fun _ => (expectText _).next fun name => (isNext _).next fun marked => ?_
  cases marked with
  | true => exact typeFormals.next (hend name)
  | false => exact hend name []

theorem interfaceDecl :
    Tracks ℓ n (By (InterfaceDecl.move ℓ.move)) Parser.interfaceDecl Parser.interfaceDecl := by
  refine offset.seq fun m start start' _ hstart => ?_
  obtain ⟨rfl, -⟩ := hstart
  exact (interfaceHeader.header _).next fun _ => interfaceMember.items.next fun _ =>
    (Grammar.Tracked.ending _ _ _).next fun _ => .ret fun _ _ => rfl

/-! ## Statements of a package -/

theorem withGrammar {production production' : Grammar → Parser α}
    (h : ∀ level, Tracks ℓ n V (production (Grammar.upTo level)) (production' (Grammar.upTo level))) :
    Tracks ℓ n V (Parser.withGrammar production) (Parser.withGrammar production') := by
  intro c s c' s' hs hn
  unfold Parser.withGrammar
  rw [hs.length]
  exact h _ c s c' s' hs hn

theorem skipUnsupportedDecl : Tracks ℓ n Same Parser.skipUnsupportedDecl Parser.skipUnsupportedDecl := by
  refine offset.seq fun m start start' _ hstart => ?_
  obtain ⟨rfl, hseen⟩ := hstart
  have hreport : ∀ construct : Construct, Tracks ℓ m Same
      (Parser.spanFrom start >>= fun span => Parser.reportUnsupported span construct)
      (Parser.spanFrom (ℓ.move start) >>= fun span => Parser.reportUnsupported span construct) := by
    intro construct
    refine (spanFrom start).seq fun k span span' hk hspan => ?_
    obtain ⟨rfl, hspan⟩ := hspan
    exact reportUnsupported (hspan ▸ hseen.mono hk) _
  refine peek.next fun k => ?_
  simp only [id_eq]
  split
  · exact (skipExtent (.through _ _ 0)).next fun _ => label.next fun _ => hreport _
  · exact (skipExtent (.through _ _ 0)).next fun _ => label.next fun _ => hreport _
  · exact (skipExtent (.statement 0)).next fun _ => hreport _

theorem simplePackageStmt :
    Tracks ℓ n (By (PackageStmt.move ℓ.move)) Parser.simplePackageStmt Parser.simplePackageStmt := by
  refine (withGrammar fun level => (Grammar.Tracked.upTo ℓ level).simple).seq fun m s s' _ hs => ?_
  obtain ⟨rfl, hseen⟩ := hs
  have hmisplaced : Tracks ℓ m (By (PackageStmt.move ℓ.move)) (failMisplaced s .packageLevel)
      (failMisplaced (s.move ℓ.move) .packageLevel) := by
    unfold failMisplaced
    rw [SimpleStmt.span_move, SimpleStmt.leaf?_move]
    exact (report hseen _).next fun _ => .failed
  cases s with
  | varDecl d => exact (record _ _ _).next fun _ => .ret fun _ _ => rfl
  | assign a => exact (record _ _ _).next fun _ => .ret fun _ _ => rfl
  | bind b => exact hmisplaced
  | expr e => exact hmisplaced
  | regWrite w => exact hmisplaced

theorem packageStmt : Tracks ℓ n (By (PackageStmt.move ℓ.move)) Parser.packageStmt Parser.packageStmt := by
  refine skipAttributes.next fun _ => peek.next fun k => ?_
  simp only [id_eq]
  split
  · exact interfaceDecl.next fun _ => .ret fun _ _ => rfl
  · exact (withGrammar fun level => (Grammar.Tracked.upTo ℓ level).moduleDef).next fun _ => .ret fun _ _ => rfl
  · exact (withGrammar fun level => (Grammar.Tracked.upTo ℓ level).functionDef).next fun _ => .ret fun _ _ => rfl
  · exact skipUnsupportedDecl.next fun _ => .failed
  · exact skipUnsupportedDecl.next fun _ => .failed
  · exact skipUnsupportedDecl.next fun _ => .failed
  · exact failExpected _
  · exact simplePackageStmt

end Tracks

/-! ## Whole units -/

theorem map_append_toList (f : α → β) (as : List α) (r : Option α) :
    (as ++ r.toList).map f = as.map f ++ (r.map f).toList := by
  cases r with
  | none => simp
  | some a => simp

theorem TracksHere.packageItem (body : PackageBody) (k : Kind) :
    TracksHere ℓ n (By (PackageBody.move ℓ.move)) (Parser.packageItem body k)
      (Parser.packageItem (body.move ℓ.move) k) := by
  unfold Parser.packageItem
  split
  · refine exportDecl.attempt.seq fun m r r' _ hr => .ret fun _ _ => ?_
    rw [Tracks.rel_by.mp hr]
    exact congrArg (fun exports => PackageBody.mk exports _ _) (map_append_toList _ body.exports r).symm
  · refine importDecl.attempt.seq fun m r r' _ hr => .ret fun _ _ => ?_
    rw [Tracks.rel_by.mp hr]
    exact congrArg (fun imports => PackageBody.mk _ imports _) (map_append_toList _ body.imports r).symm
  · refine .of_tracks ?_
    split
    · refine Tracks.peekSpan.seq fun m span span' _ hspan => ?_
      obtain ⟨rfl, hspan⟩ := hspan
      exact (Tracks.report hspan _).next fun _ => Tracks.skip.next fun _ => .ret fun _ _ => rfl
    · refine Tracks.packageStmt.resumed.next fun r => .ret fun _ _ => ?_
      exact congrArg (fun stmts => PackageBody.mk _ _ stmts) (map_append_toList _ body.stmts r).symm

namespace Tracks

theorem packageBody (inPackage : Bool) :
    Tracks ℓ n (By (PackageBody.move ℓ.move)) (Parser.packageBody inPackage) (Parser.packageBody inPackage) := by
  refine repeatUntil (V := By (PackageBody.move ℓ.move)) (lasting_by _) (fun m body body' _ hbody => ?_) rfl
  rw [By] at hbody
  subst hbody
  refine halted.next fun stopped => ?_
  cases stopped with
  | true => exact .ret fun _ _ => .done rfl
  | false =>
    refine TracksHere.peeked (.ret fun _ _ => .done rfl) fun k => ?_
    dsimp only
    split
    · exact .of_tracks (.ret fun _ _ => .done rfl)
    · refine (TracksHere.packageItem body k).seq fun m b b' _ hb => .ret fun _ _ => .again ?_
      exact hb

theorem packageHeader : Tracks ℓ n Same Parser.packageHeader Parser.packageHeader := by
  refine skip.next fun _ => (expectText _).attempted.next fun name => (expectPunct _).attempted.next fun closed => ?_
  cases closed with
  | none => exact (skipExtent (.recovery true 0)).next fun _ => .ret fun _ _ => by rw [Option.map_id]; rfl
  | some u => exact .ret fun _ _ => by rw [Option.map_id]; rfl

theorem packageEnd : Tracks ℓ n (By (Option.map (Label.move ℓ.move))) Parser.packageEnd Parser.packageEnd := by
  refine (expectKeyword _).attempted.next fun closed => ?_
  cases closed with
  | none => exact .ret fun _ _ => rfl
  | some u => exact label

theorem package : Tracks ℓ n (By (Package.move ℓ.move)) Parser.package Parser.package := by
  refine offset.seq fun m start start' _ hstart => ?_
  obtain ⟨rfl, -⟩ := hstart
  refine packageHeader.next fun name => (packageBody true).next fun body => packageEnd.next fun label => ?_
  refine (spanFrom start).seq fun k span span' _ hspan => ?_
  obtain ⟨rfl, -⟩ := hspan
  exact (record _ _ _).next fun _ => .ret fun _ _ => rfl

/-- A source unit is read in the same way at any place. -/
theorem sourceUnit : Tracks ℓ n (By (SourceUnit.move ℓ.move)) Parser.sourceUnit Parser.sourceUnit := by
  refine (isNext _).next fun packaged => ?_
  cases packaged with
  | false => exact (packageBody false).next fun body => .ret fun _ _ => rfl
  | true =>
    refine package.next fun p => atEnd.next fun ended => halted.next fun stopped => ?_
    simp only [id_eq]
    split
    · exact (reportExpected _).next fun _ => .ret fun _ _ => rfl
    · exact .ret fun _ _ => rfl

end Tracks

end Bluespec.Parser
