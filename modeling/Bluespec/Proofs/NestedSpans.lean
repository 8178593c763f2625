import Bluespec.Proofs.Layout
import Bluespec.Proofs.LongestLexemes
import Bluespec.Proofs.SpanDefinitions

/-!
# The spans of a source

The spans of the tree of a source are nested, whatever problems the source has, and the spans of its diagnostics stand
between characters of the source.

* **`Text.Boundary`**, **`Span.Bounded`** — offsets between characters, and spans between such offsets.
* **`Item.bounded_scan`** — tokens and lexical errors stand between characters.
* **`walk_sourceUnit`** — the items of a source unit stand among the tokens in order.
* **`spans_nested`** — both properties of a whole source, in either mode.
-/

namespace Bluespec

/-! ## Offsets between characters -/

/-- The offset is that of an end of a text that stands at `origin`, or stands between two characters of the text. -/
def Text.Boundary (origin : Nat) (cs : List Char) (offset : Nat) : Prop :=
  ∃ before after, cs = before ++ after ∧ offset = origin + Text.byteSize before

/-- The span begins and stops between characters of a text that stands at `origin`, or at the ends of the text. -/
structure Span.Bounded (origin : Nat) (cs : List Char) (span : Span) : Prop where
  le : span.start ≤ span.stop
  start : Text.Boundary origin cs span.start
  stop : Text.Boundary origin cs span.stop

namespace Text.Boundary

variable {origin offset : Nat} {cs ds : List Char}

theorem first (origin : Nat) (cs : List Char) : Boundary origin cs origin := ⟨[], cs, rfl, rfl⟩

theorem last (origin : Nat) (cs : List Char) : Boundary origin cs (origin + Text.byteSize cs) :=
  ⟨cs, [], (List.append_nil cs).symm, rfl⟩

theorem left (h : Boundary origin cs offset) (ds : List Char) : Boundary origin (cs ++ ds) offset := by
  obtain ⟨before, after, rfl, rfl⟩ := h
  exact ⟨before, after ++ ds, List.append_assoc before after ds, rfl⟩

theorem right (cs : List Char) (h : Boundary (origin + Text.byteSize cs) ds offset) :
    Boundary origin (cs ++ ds) offset := by
  obtain ⟨before, after, rfl, rfl⟩ := h
  exact ⟨cs ++ before, after, (List.append_assoc cs before after).symm, by rw [Text.byteSize_append, Nat.add_assoc]⟩

theorem le (h : Boundary origin cs offset) : offset ≤ origin + Text.byteSize cs := by
  obtain ⟨before, after, rfl, rfl⟩ := h
  rw [Text.byteSize_append]
  omega

end Text.Boundary

namespace Span.Bounded

variable {origin : Nat} {cs ds : List Char} {span : Span}

theorem whole (origin : Nat) (cs : List Char) : Span.Bounded origin cs ⟨origin, origin + Text.byteSize cs⟩ :=
  ⟨Nat.le_add_right _ _, .first origin cs, .last origin cs⟩

theorem left (h : span.Bounded origin cs) (ds : List Char) : span.Bounded origin (cs ++ ds) :=
  ⟨h.le, h.start.left ds, h.stop.left ds⟩

theorem right (cs : List Char) (h : span.Bounded (origin + Text.byteSize cs) ds) : span.Bounded origin (cs ++ ds) :=
  ⟨h.le, h.start.right cs, h.stop.right cs⟩

end Span.Bounded

/-! ## Tokens and lexical errors -/

namespace Item

/-- The text of the item, and what is reported about it, stand between characters. -/
structure Bounded (origin : Nat) (cs : List Char) (i : Item) : Prop where
  text : i.textSpan.Bounded origin cs
  error : ∀ e, i.error? = some e → e.span.Bounded origin cs

theorem Bounded.left {origin : Nat} {cs : List Char} {i : Item} (h : i.Bounded origin cs) (ds : List Char) :
    i.Bounded origin (cs ++ ds) :=
  ⟨h.text.left ds, fun e he => (h.error e he).left ds⟩

theorem Bounded.right {origin : Nat} (cs : List Char) {ds : List Char} {i : Item}
    (h : i.Bounded (origin + Text.byteSize cs) ds) : i.Bounded origin (cs ++ ds) :=
  ⟨h.text.right cs, fun e he => (h.error e he).right cs⟩

/-- An unknown escape stands between characters of its literal. -/
theorem bounded_badEscape {origin start : Nat} {cs : List Char} {c : Char}
    (h : badEscape? origin cs = some (c, start)) : Span.Bounded origin cs ⟨start, start + 1 + c.utf8Size⟩ := by
  obtain ⟨before, after, rfl, -, -, rfl⟩ := badEscape?_eq_some h
  have hsize : origin + Text.byteSize before + 1 + c.utf8Size =
      origin + Text.byteSize before + Text.byteSize ['\\', c] := by
    rw [Text.byteSize_cons, Text.byteSize_cons, Text.byteSize_nil, Nat.add_zero, Nat.add_assoc]
    rfl
  rw [hsize]
  exact ((Span.Bounded.whole _ ['\\', c]).left after).right before

theorem bounded_ofLexeme (lexeme : Lexeme) (origin : Nat) (cs : List Char) :
    (ofLexeme lexeme origin cs).Bounded origin cs := by
  refine ⟨textSpan_ofLexeme lexeme origin cs ▸ .whole origin cs, fun e he => ?_⟩
  cases lexeme with
  | escapedString =>
    rw [ofLexeme] at he
    cases hbad : badEscape? origin cs with
    | none =>
      rw [hbad] at he
      cases he
    | some r =>
      rw [hbad] at he
      cases he
      exact bounded_badEscape hbad
  | unterminatedComment =>
    cases he
    exact .whole origin cs
  | unterminatedString =>
    cases he
    exact .whole origin cs
  | _ => cases he

theorem bounded_ofCharacter (c : Char) (origin : Nat) : (ofCharacter c origin).Bounded origin [c] := by
  have hspan : Span.Bounded origin [c] ⟨origin, origin + c.utf8Size⟩ := .whole origin [c]
  refine ⟨hspan, fun e he => ?_⟩
  cases he
  exact hspan

/-- The items of a text stand between its characters. -/
theorem bounded_scan (origin : Nat) (cs : List Char) : ∀ i ∈ scan origin cs, i.Bounded origin cs := by
  induction origin, cs using scan_induction with
  | nil => exact fun _ hi => absurd hi List.not_mem_nil
  | lexeme origin c cs lexeme n hlong htaken ih =>
    rw [scan_of_lexeme origin hlong]
    have hitems : ∀ i ∈ ofLexeme lexeme origin ((c :: cs).take n) ::
        scan (origin + Text.byteSize ((c :: cs).take n)) ((c :: cs).drop n),
        i.Bounded origin ((c :: cs).take n ++ (c :: cs).drop n) :=
      List.forall_mem_cons.mpr ⟨(bounded_ofLexeme lexeme origin _).left _, fun i hi => (ih i hi).right _⟩
    rwa [List.take_append_drop] at hitems
  | character origin c cs hlong ih =>
    rw [scan_of_character origin hlong]
    exact List.forall_mem_cons.mpr ⟨(bounded_ofCharacter c origin).left cs, fun i hi => (ih i hi).right [c]⟩

end Item

theorem Token.bounded_ofText {source : String} {t : Token} (h : t ∈ ofText source) :
    t.span.Bounded 0 source.toList := by
  obtain ⟨i, hi, rfl⟩ := List.mem_map.mp h
  rw [Item.toToken_span]
  exact (Item.bounded_scan 0 source.toList i hi).text

theorem LexicalError.bounded_ofText {source : String} {e : LexicalError} (h : e ∈ ofText source) :
    e.span.Bounded 0 source.toList := by
  obtain ⟨i, hi, he⟩ := List.mem_filterMap.mp h
  exact (Item.bounded_scan 0 source.toList i hi).error e he

/-- Spans between ends of significant tokens stand between characters. -/
theorem Span.Fits.bounded {source : String} {span : Span}
    (h : span.Fits (Token.significant source) (Text.byteSize source.toList)) : span.Bounded 0 source.toList := by
  have hedge : ∀ {offset}, Token.IsEdge (Token.significant source) (Text.byteSize source.toList) offset →
      Text.Boundary 0 source.toList offset := by
    rintro _ (rfl | ⟨t, ht, rfl | rfl⟩)
    · have hlast := Text.Boundary.last 0 source.toList
      rwa [Nat.zero_add] at hlast
    · exact (Token.bounded_ofText (List.mem_filter.mp ht).1).start
    · exact (Token.bounded_ofText (List.mem_filter.mp ht).1).stop
  exact ⟨h.le, hedge h.start, hedge h.stop⟩

/-! ## Items of a package -/

namespace PackageBody.Arranged

variable {b : PackageBody} {trees : List SpanTree}

theorem empty : PackageBody.empty.Arranged [] :=
  ⟨.refl _, List.Sublist.slnil, List.Sublist.slnil, List.Sublist.slnil⟩

/-- A tree behind all the others, and behind those of its sort. -/
theorem perm_snoc {before after : List SpanTree} (h : trees.Perm (before ++ after)) (tree : SpanTree) :
    (trees ++ [tree]).Perm (before ++ [tree] ++ after) := by
  rw [List.append_assoc]
  exact List.perm_append_comm.trans ((h.cons tree).trans List.perm_middle.symm)

theorem addExport (h : b.Arranged trees) (d : ExportDecl) :
    PackageBody.Arranged { b with exports := b.exports ++ [d] } (trees ++ [d.spans]) where
  all := by
    have hall := h.all
    rw [List.append_assoc] at hall
    rw [List.map_append, List.append_assoc]
    exact perm_snoc hall d.spans
  exports := by
    rw [List.map_append]
    exact h.exports.append_right _
  imports := h.imports.trans (List.sublist_append_left _ _)
  stmts := h.stmts.trans (List.sublist_append_left _ _)

theorem addImport (h : b.Arranged trees) (d : ImportDecl) :
    PackageBody.Arranged { b with imports := b.imports ++ [d] } (trees ++ [d.spans]) where
  all := by
    rw [List.map_append, ← List.append_assoc]
    exact perm_snoc h.all d.spans
  exports := h.exports.trans (List.sublist_append_left _ _)
  imports := by
    rw [List.map_append]
    exact h.imports.append_right _
  stmts := h.stmts.trans (List.sublist_append_left _ _)

theorem addStmt (h : b.Arranged trees) (s : PackageStmt) :
    PackageBody.Arranged { b with stmts := b.stmts ++ [s] } (trees ++ [s.spans]) where
  all := by
    rw [List.map_append, ← List.append_assoc]
    exact h.all.append_right _
  exports := h.exports.trans (List.sublist_append_left _ _)
  imports := h.imports.trans (List.sublist_append_left _ _)
  stmts := by
    rw [List.map_append]
    exact h.stmts.append_right _

end PackageBody.Arranged

namespace Parser

open SpanTree

variable {α : Type} {c : Setting} {tokens : List Token} {i j : Nat}

/-! ## Lists of names and interfaces -/

/-- A list covers its tokens, and what is wrong in it stands at one of them or at its end. -/
theorem walk_nameList {reader : ListReader α} (hreader : reader.MissesAtTokens) (kind : NodeKind) {next : Kind}
    (hnext : tokens[i]?.map Token.kind = some next) :
    Walk c tokens i (nameList reader kind) fun j r => r.2.Reaches tokens i j := by
  intro s r s' hs hrun
  obtain ⟨t, ht, -⟩ := Option.map_eq_some_iff.mp hnext
  have hpos : 0 < Extent.nameList s.rest := by
    obtain ⟨ts, hts⟩ := hs.rest_eq ht
    rw [hts]
    exact nameList_pos t ts
  obtain ⟨n, hn⟩ : ∃ n, Extent.nameList s.rest = n + 1 := ⟨_, (Nat.succ_pred_eq_of_pos hpos).symm⟩
  have hadvance : s.advance (Extent.nameList s.rest) = s.step.advance n := by
    rw [hn]
    rfl
  obtain ⟨j, hij, hs₁⟩ := (hs.step ht).advance n
  have hspan : (listSpan c s).Reaches tokens i j := by
    rw [listSpan, hs.peekSpan, hadvance]
    exact hs₁.reaches hij
  rw [nameList_eq] at hrun
  cases hlist : reader.run (listSpan c s).stop (s.rest.take (Extent.nameList s.rest)) with
  | ok value =>
    rw [hlist, listOutcome, hadvance] at hrun
    cases hrun
    exact ⟨j, by omega, hs₁.record kind _, fun a ha => by cases ha; exact hspan⟩
  | error m =>
    have hfits : m.span.Fits tokens c.sourceEnd := by
      rcases hreader.run hlist with hend | ⟨u, hu, huspan⟩
      · have hall : (listSpan c s).Fits tokens c.sourceEnd := hspan.fits hs.ordered
        rw [hend]
        exact ⟨Nat.le_refl _, hall.stop, hall.stop⟩
      · rw [huspan]
        rw [hs.rest] at hu
        exact .of_token hs.ordered (List.mem_of_mem_drop (List.mem_of_mem_take hu))
    rw [hlist, listOutcome, hadvance] at hrun
    cases hrun
    exact ⟨j, by omega, hs₁.report hfits _, fun a ha => by cases ha⟩

theorem walk_exportDecl {kind : Kind} (hnext : tokens[i]?.map Token.kind = some kind) :
    Walk c tokens i exportDecl fun j d => Over tokens i j d.spans :=
  (walk_nameList .exportItems _ hnext).bind fun _ _ _ h => .value (.node h (.nil (Nat.le_of_lt h.lt)))

theorem walk_importDecl {kind : Kind} (hnext : tokens[i]?.map Token.kind = some kind) :
    Walk c tokens i importDecl fun j d => Over tokens i j d.spans :=
  (walk_nameList .importedPackages _ hnext).bind fun _ _ _ h => .value (.node h (.nil (Nat.le_of_lt h.lt)))

theorem walk_interfaceMember (i : Nat) :
    Walk c tokens i interfaceMember fun j m => Row tokens i j [m.spans] := by
  refine (walk_skipAttributes i).bind fun j _ hij _ => ?_
  refine (walk_offset j).here fun start hstart => ?_
  refine (walk_peek j).here fun next hnext => ?_
  split
  · refine .widen hij (Walk.bind ?_ fun _ _ _ h => .value h)
    refine (walk_skip hnext.symm).next fun _ => ?_
    refine (walk_type (j + 1)).bind fun k result _ hresult => ?_
    refine (walk_expectText k _).next fun name => ?_
    refine (walk_formalsIfAny false (k + 1)).bind fun l formals _ hformals => ?_
    refine (walk_expectPunct l _).next fun _ => ?_
    have hrow := hresult.row.join hformals (Nat.le_succ k)
    exact walk_spannedAfter (Nat.le_refl j) hstart (by omega) (hrow.widen (Nat.le_succ j) (Nat.le_succ l))
      fun _ => rfl
  · refine .widen hij (Walk.bind ?_ fun _ _ _ h => .value h)
    refine (walk_subinterfaceHeader hnext.symm).bind fun k r _ hr => ?_
    exact walk_spannedAfter (Nat.le_refl j) hstart hr.1 hr.2 fun _ => rfl
  · exact walk_failExpected _

theorem walk_interfaceHeader {kind : Kind} (hnext : tokens[i]?.map Token.kind = some kind) :
    Walk c tokens i interfaceHeader fun j r => i < j ∧ Row tokens i j (r.2.map TypeFormal.spans) := by
  refine (walk_skip hnext).next fun _ => ?_
  refine (walk_expectText (i + 1) _).next fun name => ?_
  refine (walk_isNext (i + 1 + 1) _).here fun b _ => ?_
  have htail : ∀ j (formals : List TypeFormal), Row tokens (i + 1 + 1) j (formals.map TypeFormal.spans) →
      Walk c tokens j (do
        expectPunct .semi
        return (name, formals)) fun k r => i < k ∧ Row tokens i k (r.2.map TypeFormal.spans) := by
    intro j formals hformals
    have hij := hformals.le
    exact (walk_expectPunct j _).next fun _ => .value ⟨by omega, hformals.widen (by omega) (Nat.le_succ j)⟩
  cases b with
  | false => exact htail _ [] (.nil (Nat.le_refl _))
  | true => exact (walk_typeFormals (i + 1 + 1)).bind fun j formals _ hformals => htail j formals hformals

theorem walk_interfaceDecl {kind : Kind} (hnext : tokens[i]?.map Token.kind = some kind) :
    Walk c tokens i interfaceDecl fun j d => Row tokens i j [d.spans] := by
  refine (walk_offset i).here fun start hstart => ?_
  refine (walk_header _ (walk_interfaceHeader hnext)).bind fun j r _ hr => ?_
  refine (walk_items walk_interfaceMember j).bind fun k members hjk hmembers => ?_
  refine (walk_ending _ _ hstart (show i < k by omega)).bind fun l e _ he => .value ?_
  exact (Over.node he.2 ((hr.2.append hmembers).append he.1)).row

/-! ## Statements of a package -/

theorem walk_skipUnsupportedDecl (i : Nat) : Walk c tokens i skipUnsupportedDecl fun _ _ => True := by
  refine (walk_offset i).here fun start hstart => ?_
  have hreport : ∀ j construct, Walk c tokens j (do
      reportUnsupported (← spanFrom start) construct) fun _ _ => True := by
    intro j construct
    refine (walk_spanFrom j hstart).here fun span hspan => ?_
    exact (walk_reportUnsupported (fun _ => hspan) _).weaken fun _ _ _ _ => trivial
  refine (walk_peek i).here fun next _ => ?_
  split
  · refine (walk_skipExtent _).bind fun j _ _ _ => ?_
    exact (walk_label j).bind fun k _ _ _ => hreport k _
  · refine (walk_skipExtent _).bind fun j _ _ _ => ?_
    exact (walk_label j).bind fun k _ _ _ => hreport k _
  · exact (walk_skipExtent _).bind fun j _ _ _ => hreport j _

theorem walk_simplePackageStmt (i : Nat) :
    Walk c tokens i simplePackageStmt fun j s => Row tokens i j [s.spans] := by
  refine (walk_withGrammar fun _ h => walk_simple h i).bind fun j simple _ hsimple => ?_
  cases simple with
  | varDecl d => exact (walk_record _ _).next fun _ => .value hsimple
  | assign a => exact (walk_record _ _).next fun _ => .value hsimple
  | bind b => exact walk_failMisplaced _ hsimple
  | expr e => exact walk_failMisplaced _ hsimple
  | regWrite w => exact walk_failMisplaced _ hsimple

theorem walk_packageStmt (i : Nat) : Walk c tokens i packageStmt fun j s => Row tokens i j [s.spans] := by
  refine (walk_skipAttributes i).bind fun j _ hij _ => ?_
  refine .widen hij ((walk_peek j).here fun next hnext => ?_)
  split
  · exact (walk_interfaceDecl hnext.symm).bind fun _ _ _ hd => .value hd
  · exact (walk_withGrammar fun _ h => walk_moduleDef h hnext.symm).bind fun _ _ _ hd => .value hd
  · exact (walk_withGrammar fun _ h => walk_functionDef h hnext.symm).bind fun _ _ _ hd => .value hd
  · exact (walk_skipUnsupportedDecl j).bind fun _ _ _ _ => .fail
  · exact (walk_skipUnsupportedDecl j).bind fun _ _ _ _ => .fail
  · exact (walk_skipUnsupportedDecl j).bind fun _ _ _ _ => .fail
  · exact walk_failExpected _
  · exact walk_simplePackageStmt j

/-! ## Source units -/

/-- The items of a package stand among the tokens from token `i` to the last one before token `j`. -/
def ItemsStand (tokens : List Token) (i j : Nat) (body : PackageBody) : Prop :=
  ∃ trees, body.Arranged trees ∧ Row tokens i j trees

theorem walk_packageItem {body : PackageBody} {kind : Kind} (hbody : ItemsStand tokens i j body)
    (hnext : tokens[j]?.map Token.kind = some kind) :
    Walk c tokens j (packageItem body kind) fun k body => ItemsStand tokens i k body := by
  obtain ⟨trees, harranged, hrow⟩ := hbody
  unfold packageItem
  split
  · refine (walk_exportDecl hnext).attempt.bind fun k d hjk hd => .value ?_
    cases d with
    | none => exact ⟨trees, (List.append_nil body.exports).symm ▸ harranged, hrow.widen (Nat.le_refl i) hjk⟩
    | some d => exact ⟨_, harranged.addExport d, hrow.append (hd d rfl).row⟩
  · refine (walk_importDecl hnext).attempt.bind fun k d hjk hd => .value ?_
    cases d with
    | none => exact ⟨trees, (List.append_nil body.imports).symm ▸ harranged, hrow.widen (Nat.le_refl i) hjk⟩
    | some d => exact ⟨_, harranged.addImport d, hrow.append (hd d rfl).row⟩
  · split
    · refine (walk_peekSpan j).here fun span hspan => ?_
      refine (walk_report (fun _ => hspan) _).next fun _ => ?_
      exact (walk_skip hnext).next fun _ => .value ⟨trees, harranged, hrow.widen (Nat.le_refl i) (Nat.le_succ j)⟩
    · refine (walk_packageStmt j).resuming.bind fun k s hjk hs => .value ?_
      cases s with
      | none => exact ⟨trees, (List.append_nil body.stmts).symm ▸ harranged, hrow.widen (Nat.le_refl i) hjk⟩
      | some s => exact ⟨_, harranged.addStmt s, hrow.append (hs s rfl)⟩

theorem walk_packageBody (inPackage : Bool) (i : Nat) :
    Walk c tokens i (packageBody inPackage) fun j body => ItemsStand tokens i j body := by
  refine walk_repeatUntil (I := fun j body => ItemsStand tokens i j body) (fun j body hbody => ?_)
    ⟨[], .empty, .nil (Nat.le_refl i)⟩
  refine (walk_halted j).next fun halted => ?_
  cases halted with
  | true => exact .value hbody
  | false =>
    refine (walk_peek j).here fun next hnext => ?_
    cases next with
    | none => exact .value hbody
    | some kind =>
      dsimp only
      split
      · exact .value hbody
      · exact (walk_packageItem hbody hnext.symm).bind fun _ _ _ h => .value h

theorem walk_packageHeader {kind : Kind} (hnext : tokens[i]?.map Token.kind = some kind) :
    Walk c tokens i packageHeader fun j _ => i < j := by
  refine (walk_skip hnext).next fun _ => ?_
  refine (walk_expectText (i + 1) _).attempt.bind fun j name hij _ => ?_
  refine (walk_expectPunct j _).attempt.bind fun k semi hjk _ => ?_
  split
  · exact (walk_skipExtent _).bind fun l _ hkl _ => .value (by omega)
  · exact .value (by omega)

theorem walk_packageEnd (i : Nat) : Walk c tokens i packageEnd fun j l => Row tokens i j (Label.spansIf l) := by
  refine (walk_expectKeyword i _).attempt.bind fun j r hij _ => ?_
  split
  · exact .widen hij (walk_label j)
  · exact .value (.nil hij)

/-- The items of a source unit stand among the tokens in order. -/
theorem walk_sourceUnit (i : Nat) :
    Walk c tokens i sourceUnit fun j u => ∃ trees, u.Arranged trees ∧ Row tokens i j trees := by
  refine (walk_isNext i _).here fun b hb => ?_
  cases b with
  | false =>
    refine (walk_packageBody false i).bind fun j body _ hbody => ?_
    obtain ⟨trees, harranged, hrow⟩ := hbody
    exact .value ⟨trees, .items harranged, hrow⟩
  | true =>
    have hpackage : Walk c tokens i package fun j p =>
        ∃ trees, p.body.Arranged trees ∧ Row tokens i j [.node p.span (trees ++ Label.spansIf p.endLabel)] := by
      refine (walk_offset i).here fun start hstart => ?_
      refine (walk_packageHeader (hb rfl)).bind fun j name _ hij => ?_
      refine (walk_packageBody true j).bind fun k body hjk hbody => ?_
      obtain ⟨trees, harranged, hrow⟩ := hbody
      refine (walk_packageEnd k).bind fun l endLabel hkl hend => ?_
      refine (walk_spanOver (show i < l by omega) hstart).here fun span hspan => ?_
      refine (walk_record _ span).next fun _ => .value ⟨trees, harranged, ?_⟩
      exact (Over.node hspan ((hrow.append hend).widen (by omega) (Nat.le_refl l))).row
    refine hpackage.bind fun j p hij hp => ?_
    obtain ⟨trees, harranged, hrow⟩ := hp
    refine (walk_ask j _).next fun atEnd => ?_
    refine (walk_halted j).next fun halted => ?_
    split
    · exact (walk_reportExpected _).next fun _ => .value ⟨_, .package harranged, hrow⟩
    · exact .value ⟨_, .package harranged, hrow⟩

end Parser

/-! ## Whole sources -/

theorem Recovery.mem_of_keep {recovery : Recovery} {ds : List Diagnostic} {d : Diagnostic}
    (h : d ∈ recovery.keep ds) : d ∈ ds := by
  cases recovery with
  | collectAll => exact h
  | firstError => exact List.mem_of_mem_take h

theorem Diagnostic.bounded_lexical {source : String} {d : Diagnostic}
    (h : d ∈ (LexicalError.ofText source).map ofLexicalError) : d.span.Bounded 0 source.toList := by
  obtain ⟨e, he, rfl⟩ := List.mem_map.mp h
  exact LexicalError.bounded_ofText he

open Bluespec.Parser in
/-- The spans of the tree of a source are nested, whatever problems the source has: they are not empty and reach from
the start of one significant token to the end of another, each holds those inside it, and those side by side stand one
after the other.  The spans of its diagnostics lie in the source and stand between characters. -/
theorem spans_nested (source : String) (recovery : Recovery) :
    (∃ trees, (parse source recovery).root.Arranged trees ∧
      trees.Pairwise (fun a b => a.span.stop ≤ b.span.start) ∧
      ∀ tree ∈ trees, tree.Nested (Token.significant source)) ∧
    ∀ d ∈ (parse source recovery).diagnostics,
      d.span.Bounded 0 source.toList ∧ d.span.stop ≤ Text.byteSize source.toList := by
  have hend : ∀ {span : Span}, span.Bounded 0 source.toList →
      span.Bounded 0 source.toList ∧ span.stop ≤ Text.byteSize source.toList := by
    intro span hspan
    have hle := hspan.stop.le
    rw [Nat.zero_add] at hle
    exact ⟨hspan, hle⟩
  by_cases hlexical : recovery = .firstError ∧ !((LexicalError.ofText source).map Diagnostic.ofLexicalError).isEmpty
  · rw [parse, if_pos hlexical]
    refine ⟨⟨[], .items .empty, .nil, fun _ htree => absurd htree List.not_mem_nil⟩, fun d hd => hend ?_⟩
    have hkept := (Diagnostic.sortByStart_perm _).mem_iff.mp hd
    exact Diagnostic.bounded_lexical (Recovery.mem_of_keep hkept)
  · rw [parse, if_neg hlexical]
    have hord : Token.Ordered (Token.significant source) := Token.ordered_significant source
    have hbefore : (State.ofText source).Before (.ofText source recovery) (Token.significant source) 0 :=
      ⟨hord, Nat.zero_le _, rfl, rfl, fun _ hd => absurd hd List.not_mem_nil⟩
    cases hrun : sourceUnit (.ofText source recovery) (.ofText source) with
    | mk r s' =>
      obtain ⟨j, -, hs', hunit⟩ := walk_sourceUnit 0 _ r s' hbefore hrun
      refine ⟨?_, fun d hd => hend ?_⟩
      · cases r with
        | none => exact ⟨[], .items .empty, .nil, fun _ htree => absurd htree List.not_mem_nil⟩
        | some unit =>
          obtain ⟨trees, harranged, hrow⟩ := hunit unit rfl
          exact ⟨trees, harranged, hrow.ordered hord, hrow.nested hord⟩
      · have hkept := Recovery.mem_of_keep ((Diagnostic.sortByStart_perm _).mem_iff.mp hd)
        rcases List.mem_append.mp hkept with hlexical | hreported
        · exact Diagnostic.bounded_lexical hlexical
        · exact Span.Fits.bounded (hs'.fits d (List.mem_reverse.mp hreported))

end Bluespec
