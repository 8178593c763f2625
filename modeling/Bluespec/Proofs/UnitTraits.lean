import Bluespec.Proofs.DefinitionTraits

/-!
# Traits of source units

* **`Inherited.packageStmt`**, **`Inherited.packageItem`** — what stands in a package.
* **`Inherited.sourceUnit`** — every trait that a grammar inherits is a trait of the whole.
-/

namespace Bluespec.Parser

open Grade Mark

variable {E : Trait} {α β : Type} {n : Nat} {past : Bool} {before : List NodeSpan}

/-! ## Lists of names -/

theorem nameList_pos (t : Token) (ts : List Token) : 0 < Extent.nameList (t :: ts) := by
  rw [Extent.nameList]
  split
  · exact Nat.one_pos
  · exact Nat.succ_pos _

/-- Where a list of names stands that comes next. -/
def listSpan (c : Setting) (s : State) : Span :=
  ⟨(s.peekSpan c).start, (s.advance (Extent.nameList s.rest)).lastEnd⟩

/-- What a list leaves behind, told by what its reader made of the tokens. -/
def listOutcome (kind : NodeKind) (c : Setting) (s : State) : Except Miss α → Option (α × Span) × State
  | .ok value =>
    (some (value, listSpan c s), (s.advance (Extent.nameList s.rest)).record kind (listSpan c s))
  | .error m => (none, (s.advance (Extent.nameList s.rest)).report m.span m.diagnostic.problem)

theorem nameList_eq (reader : ListReader α) (kind : NodeKind) (c : Setting) (s : State) :
    nameList reader kind c s =
      listOutcome kind c s (reader.run (listSpan c s).stop (s.rest.take (Extent.nameList s.rest))) := by
  unfold nameList listSpan
  dsimp only
  cases reader.run (s.advance (Extent.nameList s.rest)).lastEnd (s.rest.take (Extent.nameList s.rest)) <;> rfl

/-- A list is passed whether it is well formed or not. -/
theorem nameList_passes {reader : ListReader α} {kind : NodeKind} {c : Setting} {s s' : State}
    {r : Option (α × Span)} (h : nameList reader kind c s = (r, s')) :
    (s.advance (Extent.nameList s.rest)).Moves s' ∧ (r = none → s'.diagnostics ≠ []) := by
  rw [nameList_eq] at h
  cases hread : reader.run (listSpan c s).stop (s.rest.take (Extent.nameList s.rest)) with
  | ok value =>
    rw [hread] at h
    cases h
    exact ⟨.record _ _ _, fun hnone => by cases hnone⟩
  | error m =>
    rw [hread] at h
    cases h
    exact ⟨.reported _ _, fun _ => List.cons_ne_nil _ _⟩

theorem nameList_reads {s s' : State} (hs : s.Headed) (h : (s.advance (Extent.nameList s.rest)).Moves s') :
    s'.rest.length < s.rest.length := by
  obtain ⟨t, ts, hrest⟩ := hs
  have hpos := nameList_pos t ts
  have hle := h.length_le
  rw [State.advance_rest, hrest, List.length_drop, List.length_cons] at hle
  rw [hrest, List.length_cons]
  omega

theorem steady_nameList (reader : ListReader α) (kind : NodeKind) :
    Steady (headed n past) (fun _ => reading) (nameList reader kind) := by
  intro c s hs
  cases hrun : nameList reader kind c s with
  | mk r s' =>
    obtain ⟨hmoves, hdirty⟩ := nameList_passes hrun
    refine ⟨(State.Moves.advance s _).trans hmoves, ?_⟩
    cases r with
    | none => exact hdirty rfl
    | some a => exact ⟨fun _ => nameList_reads hs.2 hmoves, nofun⟩

/-- A declaration that is a list of names. -/
def listDecl (reader : ListReader α) (kind : NodeKind) (make : α → Span → β) : Parser β :=
  nameList reader kind >>= fun r => pure (make r.1 r.2)

theorem steady_listDecl (reader : ListReader α) (kind : NodeKind) (make : α → Span → β) :
    Steady (headed n past) (fun _ => reading) (attempt (listDecl reader kind make)) := by
  intro c s hs
  have hsteady : Steady (headed n past) (fun _ => reading) (listDecl reader kind make) :=
    (steady_nameList reader kind).bind fun a => .pure fun s _ => tells_nothing s s
  refine ⟨(hsteady c s hs).1, fun _ => ?_, nofun⟩
  show (listDecl reader kind make c s).2.rest.length < _
  rw [listDecl, bind_apply]
  cases hrun : nameList reader kind c s with
  | mk r s' =>
    have hreads := nameList_reads hs.2 (nameList_passes hrun).1
    cases r <;> exact hreads

namespace Inherited

theorem listDecl (h : Inherited E) (reader : ListReader α) (kind : NodeKind) (make : α → Span → β)
    (spanOf : β → Span) (hspan : ∀ a span, spanOf (make a span) = span) :
    Holds E (headed n false) (fun _ => reading) before (attempt (listDecl reader kind make))
      (attempt (Parser.listDecl reader kind make))
      fun r => before ++ (r.map fun d => NodeSpan.mk kind (spanOf d)).toList := by
  have hlist : Holds E (headed n false) (fun _ => reading) before (Parser.listDecl reader kind make)
      (Parser.listDecl reader kind make) fun d => before ++ [⟨kind, spanOf d⟩] := by
    refine h.readHere ⟨steady_nameList reader kind, h.lists⟩ fun r => h.ret ?_
    rw [hspan]
  refine ⟨steady_listDecl reader kind make, ?_⟩
  have hafter : (fun r : Option β => before ++ (r.map fun d => NodeSpan.mk kind (spanOf d)).toList) =
      fun r => r.elim before fun d => before ++ [NodeSpan.mk kind (spanOf d)] := by
    funext r
    cases r with
    | none => exact List.append_nil before
    | some d => rfl
  rw [hafter]
  exact h.attempts hlist

/-! ## Interfaces -/

theorem methodProto (h : Inherited E) (start : Nat) :
    Holds E (headed (n + 1) past) (fun _ => reading) before (methodProto start) (methodProto start)
      fun _ => before := by
  refine h.read h.skipped fun _ => ?_
  refine h.next h.type fun result => ?_
  refine h.next h.expectText fun name => ?_
  refine h.next (h.formalsIfAny false) fun formals => ?_
  refine h.next h.expectPunct fun _ => ?_
  exact h.look (looks_spanFrom start) fun span => h.ret (.refl _)

theorem subinterfaceDecl (h : Inherited E) (start : Nat) :
    Holds E (headed (n + 1) past) (fun _ => reading) before (subinterfaceDecl start) (subinterfaceDecl start)
      fun _ => before := by
  refine h.read h.subinterfaceHeader fun x => ?_
  exact h.look (looks_spanFrom start) fun span => h.ret (.refl _)

theorem interfaceMember (h : Inherited E) :
    Holds E (free (n + 1) false) (fun _ => reading) before interfaceMember interfaceMember fun _ => before := by
  refine h.next h.skipAttributes fun _ => ?_
  refine h.look looks_offset fun start => ?_
  refine h.peek (fun k => ?_) (h.failExpected _)
  split
  · exact h.read (h.methodProto start) fun d => h.ret (.refl _)
  · exact h.read (h.subinterfaceDecl start) fun d => h.ret (.refl _)
  · exact h.failExpected _

theorem interfaceHeader (h : Inherited E) :
    Holds E (headed (n + 1) past) (fun _ => reading) before interfaceHeader interfaceHeader fun _ => before := by
  refine h.read h.skipped fun _ => ?_
  refine h.next h.expectText fun name => ?_
  have hend : ∀ formals : List TypeFormal, Inside E n before
      (expectPunct .semi >>= fun _ => pure (name, formals)) (expectPunct .semi >>= fun _ => pure (name, formals))
      fun _ => before := fun formals => h.next h.expectPunct fun _ => h.ret (.refl _)
  refine h.look (looks_isNext _) fun b => ?_
  cases b with
  | true => exact h.next h.typeFormals hend
  | false => exact h.next (h.ret (.refl _)) hend

theorem interfaceDecl (h : Inherited E) :
    Holds E (headed (n + 1) false) (fun _ => reading) before interfaceDecl interfaceDecl
      fun d => before ++ [⟨.interfaceDecl, d.span⟩] := by
  refine h.definition (fun x y label span => InterfaceDecl.mk x.1 x.2 y label span) InterfaceDecl.span
    (fun _ => before) (fun _ _ _ _ => rfl) (fun _ _ _ _ => .refl _) h.interfaceHeader fun x => ?_
  exact h.itemsBare fun before => h.lower h.interfaceMember

/-! ## Statements of a package -/

theorem skipUnsupportedDecl (h : Inherited E) :
    Holds E (headed n past) (fun _ => failing) before skipUnsupportedDecl skipUnsupportedDecl fun _ => before := by
  refine h.look looks_offset fun start => ?_
  refine h.look looks_peek fun k => ?_
  split
  · refine h.next (h.skipThrough _ _) fun _ => ?_
    refine h.next h.label fun _ => ?_
    exact h.look (looks_spanFrom start) fun span => h.reported (reports_unsupported _ _)
  · refine h.next (h.skipThrough _ _) fun _ => ?_
    refine h.next h.label fun _ => ?_
    exact h.look (looks_spanFrom start) fun span => h.reported (reports_unsupported _ _)
  · have hskip : Holds E (headed n past) (fun _ => nothing) before skipStatement skipStatement fun _ => before :=
      ⟨.skipExtent (fun _ _ => nofun) (fun _ _ => nofun), h.skips⟩
    refine h.next hskip fun _ => ?_
    exact h.look (looks_spanFrom start) fun span => h.reported (reports_unsupported _ _)

/-- A production that is given as many levels as there are tokens left. -/
theorem withGrammar (h : Inherited E) {production : Grammar → Parser α} {mark : α → Mark}
    {after : α → List NodeSpan} {pre : State → Prop}
    (hproduction : ∀ m, Level E m (Grammar.upTo m) (Grammar.upTo m) →
      Holds E ⟨m + 1, pre, past⟩ mark before (production (Grammar.upTo m)) (production (Grammar.upTo m)) after) :
    Holds E ⟨n, pre, past⟩ mark before (withGrammar production) (withGrammar production) after := by
  have hlength : Looks (ask fun s => s.rest.length) fun _ _ rest => rest.length := fun _ _ => rfl
  have hlooking : Holds E ⟨n, pre, past⟩ mark before
      ((ask fun s => s.rest.length) >>= fun m => production (Grammar.upTo m))
      ((ask fun s => s.rest.length) >>= fun m => production (Grammar.upTo m)) after := by
    refine h.looking hlength fun m => ?_
    refine h.restrict (hproduction m (h.level (Nat.le_refl m) (Nat.le_refl m))) ⟨fun s hs => ⟨?_, hs.2.1⟩, id⟩
    obtain ⟨-, -, e, he⟩ := hs
    exact Nat.lt_succ_of_le (Nat.le_of_eq he)
  exact hlooking

/-- A simple statement as a statement of a package. -/
def packageStmtOf : SimpleStmt → Parser PackageStmt
  | .varDecl d => pure (.varDecl d)
  | .assign a => pure (.assign a)
  | .regWrite w => failMisplaced (.regWrite w) .packageLevel
  | .bind b => failMisplaced (.bind b) .packageLevel
  | .expr e => failMisplaced (.expr e) .packageLevel

theorem simplePackageStmt_eq :
    simplePackageStmt = Parser.withGrammar Grammar.simple >>= noting SimpleStmt.node? >>= packageStmtOf := by
  rw [bind_assoc]
  refine congrArg _ (funext fun s => ?_)
  cases s <;> rfl

theorem simplePackageStmt (h : Inherited E) :
    Holds E (free n false) (fun _ => reading) before simplePackageStmt simplePackageStmt
      fun s => before ++ s.declared := by
  have hcovering : Covering SimpleStmt.node? (Parser.withGrammar Grammar.simple) :=
    fun c s a s' m hrun => simple_covering _ c s a s' m hrun
  have hsimple : Holds E (free n true) (fun _ => reading) before (Parser.withGrammar Grammar.simple)
      (Parser.withGrammar Grammar.simple) fun s => before ++ s.inner := h.withGrammar fun m hg => h.simple hg
  rw [simplePackageStmt_eq]
  refine h.readHere (h.recorded hcovering (fun _ _ _ => rfl) hsimple) fun s => ?_
  cases s with
  | varDecl d => exact h.ret (.of_eq (List.append_assoc _ _ _).symm)
  | assign a => exact h.ret (.of_eq (List.append_assoc _ _ _).symm)
  | regWrite w => exact h.reportFail (reports_report _ _ ⟨nofun, nofun⟩)
  | bind b => exact h.reportFail (reports_report _ _ ⟨nofun, nofun⟩)
  | expr e => exact h.reportFail (reports_report _ _ ⟨nofun, nofun⟩)

theorem packageStmt (h : Inherited E) :
    Holds E (free n false) (fun _ => reading) before packageStmt packageStmt fun s => before ++ s.declared := by
  have hsimple : ∀ pre, Holds E ⟨n, pre, false⟩ (fun _ => reading) before Parser.simplePackageStmt
      Parser.simplePackageStmt fun s => before ++ s.declared := fun pre => h.of_free h.simplePackageStmt
  have hunsupported : Holds E (headed n false) (fun _ => reading) before
      (Parser.skipUnsupportedDecl >>= fun _ => fail) (Parser.skipUnsupportedDecl >>= fun _ => fail)
      fun s : PackageStmt => before ++ s.declared :=
    h.dirtied h.skipUnsupportedDecl fun _ => h.failed fun _ hs => hs.2
  refine h.next h.skipAttributes fun _ => ?_
  refine h.peek (fun k => ?_) (h.failExpected _)
  split
  · exact h.readHere (h.lower h.interfaceDecl) fun d => h.ret (.refl _)
  · exact h.readHere (h.withGrammar fun m hg => h.moduleDef hg) fun d => h.ret (.refl _)
  · exact h.readHere (h.withGrammar fun m hg => h.functionDef hg) fun d => h.ret (.refl _)
  · exact hunsupported
  · exact hunsupported
  · exact hunsupported
  · exact h.failExpected _
  · exact hsimple _

/-! ## Items of a package -/

theorem declared_addExport (b : PackageBody) (d : Option ExportDecl) :
    ({ b with exports := b.exports ++ d.toList } : PackageBody).declared.Perm
      (b.declared ++ (d.map fun d => NodeSpan.mk .exportDecl d.span).toList) := by
  have hmap : (b.exports ++ d.toList).map (fun d => NodeSpan.mk .exportDecl d.span) =
      b.exports.map (fun d => NodeSpan.mk .exportDecl d.span) ++
        (d.map fun d => NodeSpan.mk .exportDecl d.span).toList := by
    rw [List.map_append]
    cases d <;> rfl
  simp only [PackageBody.declared, hmap, List.append_assoc]
  refine .append_left _ ?_
  rw [← List.append_assoc (b.imports.map _)]
  exact List.perm_append_comm

theorem declared_addImport (b : PackageBody) (d : Option ImportDecl) :
    ({ b with imports := b.imports ++ d.toList } : PackageBody).declared.Perm
      (b.declared ++ (d.map fun d => NodeSpan.mk .importDecl d.span).toList) := by
  have hmap : (b.imports ++ d.toList).map (fun d => NodeSpan.mk .importDecl d.span) =
      b.imports.map (fun d => NodeSpan.mk .importDecl d.span) ++
        (d.map fun d => NodeSpan.mk .importDecl d.span).toList := by
    rw [List.map_append]
    cases d <;> rfl
  simp only [PackageBody.declared, hmap, List.append_assoc]
  exact .append_left _ (.append_left _ List.perm_append_comm)

theorem declared_addStmt (b : PackageBody) (s : Option PackageStmt) :
    ({ b with stmts := b.stmts ++ s.toList } : PackageBody).declared =
      b.declared ++ s.elim [] PackageStmt.declared := by
  simp only [PackageBody.declared, List.flatMap_append, ← List.append_assoc]
  cases s with
  | none => rfl
  | some s => rw [Option.toList_some, List.flatMap_singleton]; rfl

/-- A closing word out of place is reported and stepped over. -/
theorem misplacedCloser (h : Inherited E) (body : PackageBody) (k : Kind) :
    Holds E ⟨n, fun s => s.peek = some k, false⟩ (fun _ => reading) (before ++ body.declared)
      (peekSpan >>= fun span => report span (.unexpected k) >>= fun _ => skip >>= fun _ => pure body)
      (peekSpan >>= fun span => report span (.unexpected k) >>= fun _ => skip >>= fun _ => pure body)
      fun b => before ++ b.declared := by
  constructor
  · intro c s hs
    obtain ⟨cs, rest, ds, ns⟩ := s
    cases rest with
    | nil => cases hs.2
    | cons t ts =>
      have hreport : State.Moves ⟨cs, t :: ts, ds, ns⟩ ⟨cs, t :: ts, ⟨.grammar (.unexpected k), t.span⟩ :: ds, ns⟩ :=
        .reported _ _
      exact ⟨hreport.trans (.step _), fun _ => Nat.lt_succ_self _, nofun⟩
  · have hskip : Holds E (Grade.dirty n false) (fun _ => nothing) (before ++ body.declared) skip skip
        fun _ => before ++ body.declared := by
      have hone : skip = skipExtent fun _ => 1 := rfl
      rw [hone]
      exact ⟨.skipExtent (fun _ _ => nofun) (fun _ _ => nofun), h.skips⟩
    have hrow : Holds E ⟨n, fun s => s.peek = some k, false⟩ (fun _ => nothing) (before ++ body.declared)
        (peekSpan >>= fun span => report span (.unexpected k) >>= fun _ => skip >>= fun _ => pure body)
        (peekSpan >>= fun span => report span (.unexpected k) >>= fun _ => skip >>= fun _ => pure body)
        fun b => before ++ b.declared := by
      refine h.look looks_peekSpan fun span => ?_
      refine h.dirtied (h.reported (reports_report _ _ ⟨nofun, nofun⟩)) fun _ => ?_
      exact h.next hskip fun _ => h.ret (.refl _)
    exact hrow.trait

theorem packageItem (h : Inherited E) (body : PackageBody) (k : Kind) :
    Holds E ⟨n, fun s => s.peek = some k, false⟩ (fun _ => reading) (before ++ body.declared) (packageItem body k)
      (packageItem body k) fun b => before ++ b.declared := by
  have hheaded : ∀ {past}, (Grade.mk n (fun s => s.peek = some k) past).Within (headed n past) :=
    ⟨fun s hs => ⟨hs.1, State.headed_of_peek hs.2⟩, id⟩
  unfold Parser.packageItem
  split
  · refine h.readHere (h.restrict (h.listDecl ListReader.exportItems .exportDecl ExportDecl.mk ExportDecl.span
      fun _ _ => rfl) hheaded) fun d => h.ret ?_
    rw [List.append_assoc]
    exact .append_left _ (declared_addExport body d)
  · refine h.readHere (h.restrict (h.listDecl ListReader.importedPackages .importDecl ImportDecl.mk ImportDecl.span
      fun _ _ => rfl) hheaded) fun d => h.ret ?_
    rw [List.append_assoc]
    exact .append_left _ (declared_addImport body d)
  · split
    · exact h.misplacedCloser body k
    · next hopen =>
      refine h.readHere (h.resumedOpen (h.of_free h.packageStmt) fun s hs => ?_) fun s => h.ret ?_
      · have hpeek : s.peek = some k := hs.2
        rw [State.atCloser, hpeek]
        exact Bool.eq_false_iff.mpr hopen
      · rw [declared_addStmt, ← List.append_assoc]
        cases s with
        | none => exact .of_eq (List.append_nil _)
        | some s => exact .refl _

theorem packageRound (h : Inherited E) (inPackage : Bool) (body : PackageBody) :
    Holds E (free n false) roundMark (before ++ body.declared) (packageRound inPackage body)
      (packageRound inPackage body)
      (roundAfter (fun b => before ++ b.declared) fun b : PackageBody => before ++ b.declared) := by
  refine h.halted (h.yield rfl (.refl _)) ?_
  refine h.looking looks_peek fun next => ?_
  cases next with
  | none => exact h.yield rfl (.refl _)
  | some k =>
    show Holds E _ _ _ (if _ then _ else _) (if _ then _ else _) _
    split
    · exact h.yield rfl (.refl _)
    · refine h.of_reading ?_ roundMark_dirty
      refine h.readHere (h.restrict (h.packageItem body k) ⟨fun s hs => ⟨hs.1, ?_⟩, id⟩) fun b => h.ret (.refl _)
      exact hs.2.2.elim fun _ hk => hk

theorem packageBody (h : Inherited E) (inPackage : Bool) :
    Holds E (free n false) (fun _ => nothing) before (packageBody inPackage) (packageBody inPackage)
      fun b => before ++ b.declared := by
  have hempty : before ++ PackageBody.empty.declared = before := List.append_nil before
  have hloop : Holds E (free n false) (fun _ => nothing) (before ++ PackageBody.empty.declared)
      (Parser.packageBody inPackage) (Parser.packageBody inPackage) fun b => before ++ b.declared :=
    h.repeatUntil (fun b : PackageBody => before ++ b.declared) (h.packageRound inPackage) PackageBody.empty
  rw [hempty] at hloop
  exact hloop

/-! ## Whole units -/

/-- A package that is not recorded. -/
def unrecordedPackage : Parser Package := do
  let start ← offset
  let name ← packageHeader
  let body ← Parser.packageBody true
  let endLabel ← packageEnd
  return ⟨name, body, endLabel, ← spanFrom start⟩

theorem package_eq : package = unrecordedPackage >>= noting fun p => some ⟨.package, p.span⟩ := by
  simp only [package, unrecordedPackage, bind_assoc, Parser.pure_bind, noting]

theorem covering_package : Covering (fun p => some ⟨.package, p.span⟩) unrecordedPackage := by
  refine .of_offset fun start => .bind fun name => .bind fun body => .bind fun endLabel => ?_
  exact .spanning fun span m hm => by cases hm; rfl

theorem elim_before (r : Option α) : r.elim before (fun _ => before) = before := by
  cases r <;> rfl

theorem packageHeader (h : Inherited E) :
    Holds E (headed (n + 1) past) (fun _ => reading) before packageHeader packageHeader fun _ => before := by
  refine h.read h.skipped fun _ => ?_
  refine h.next (h.attempted h.expectText) fun name => ?_
  rw [elim_before]
  refine h.seq (h.attempted h.expectPunct) fun semi => ?_
  cases semi with
  | some u => exact h.ret (.refl _)
  | none =>
    have hskip : Holds E (Grade.dirty n false) (fun _ => nothing) before
        (skipExtent (Extent.recovery true 0) >>= fun _ => pure (name.getD ""))
        (skipExtent (Extent.recovery true 0) >>= fun _ => pure (name.getD "")) fun _ => before :=
      h.next (k := fun _ => nothing) ⟨.skipExtent (fun _ _ => nofun) (fun _ _ => nofun),
        h.skips⟩ fun _ => h.ret (.refl _)
    exact h.restrict hskip ⟨fun s hs => ⟨hs.1, hs.2 rfl⟩, id⟩

theorem packageEnd (h : Inherited E) :
    Holds E (free n past) (fun _ => nothing) before packageEnd packageEnd fun _ => before := by
  refine h.next (h.attempted (h.expectKeyword _)) fun closed => ?_
  rw [elim_before]
  cases closed with
  | none => exact h.ret (.refl _)
  | some u => exact h.label

theorem package (h : Inherited E) :
    Holds E (headed (n + 1) false) (fun _ => reading) before package package
      fun p => before ++ (p.body.declared ++ [⟨.package, p.span⟩]) := by
  rw [package_eq]
  simp only [← List.append_assoc]
  refine h.recorded covering_package (fun _ _ _ => rfl) ?_
  refine h.look looks_offset fun start => ?_
  refine h.read h.packageHeader fun name => ?_
  refine h.next (h.packageBody true) fun body => ?_
  refine h.next h.packageEnd fun endLabel => ?_
  exact h.look (looks_spanFrom start) fun span => h.ret (.refl _)

/-- A trait that a grammar inherits is a trait of the whole. -/
theorem sourceUnit (h : Inherited E) :
    Holds E (free (n + 1) false) (fun _ => nothing) before sourceUnit sourceUnit fun u => before ++ u.declared := by
  have hatEnd : Looks (ask State.atEnd) fun _ _ rest => rest.isEmpty := fun _ _ => rfl
  refine h.isNext ?_ (h.next (h.packageBody false) fun b => h.ret (.refl _))
  refine h.next h.package fun p => ?_
  refine h.look hatEnd fun ended => ?_
  have hdone : ∀ pre, Holds E ⟨n + 1, pre, false⟩ (fun _ => nothing)
      (before ++ (p.body.declared ++ [⟨.package, p.span⟩])) (pure (.package p)) (pure (.package p))
      fun u => before ++ SourceUnit.declared u := fun pre => h.ret (.refl _)
  have hreport : ∀ pre, Holds E ⟨n + 1, pre, false⟩ (fun _ => nothing)
      (before ++ (p.body.declared ++ [⟨.package, p.span⟩]))
      (reportExpected .endOfInput >>= fun _ => pure (.package p))
      (reportExpected .endOfInput >>= fun _ => pure (.package p))
      fun u => before ++ SourceUnit.declared u := fun pre => h.next (h.reported (reports_expected _)) fun _ => hdone _
  refine h.halted ?_ ?_
  · cases ended <;> exact hdone _
  · cases ended
    · exact hreport _
    · exact hdone _

end Inherited

end Bluespec.Parser
