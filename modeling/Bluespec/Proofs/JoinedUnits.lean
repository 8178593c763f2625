import Bluespec.Proofs.GivenTokens
import Bluespec.Proofs.SupportedConstructs

/-!
# Units on lines of their own

Sources without a package around their items can be put together.  Each item ends by its own tokens, whatever stands
behind it, so the second source does not change how the first one is read; and the second one is read as it is alone, at
another place.

* **`PackageBody.append`** — the items of two bodies.
* **`ListReader.EndsList`** — a list ends with its semicolon.
* **`Parser.ReadsItem`**, **`Parser.ReadsItems`** — tokens that are read as an item, or as items, wherever they stand.
* **`Parser.readsItem_of_packageItem`**, **`Parser.readsItems_of_rounds`** — what is read without diagnostics is read from
  such tokens.
* **`parse_lines`** — two sources, one below the other.
-/

namespace Bluespec

open Bluespec.Parser

/-! ## Bodies -/

namespace PackageBody

/-- The items of two bodies, each sort in its own order. -/
def append (b b' : PackageBody) : PackageBody :=
  ⟨b.exports ++ b'.exports, b.imports ++ b'.imports, b.stmts ++ b'.stmts⟩

theorem append_exports (b : PackageBody) (ds : List ExportDecl) :
    b.append ⟨ds, [], []⟩ = { b with exports := b.exports ++ ds } := by simp only [append, List.append_nil]

theorem append_imports (b : PackageBody) (ds : List ImportDecl) :
    b.append ⟨[], ds, []⟩ = { b with imports := b.imports ++ ds } := by simp only [append, List.append_nil]

theorem append_stmts (b : PackageBody) (stmts : List PackageStmt) :
    b.append ⟨[], [], stmts⟩ = { b with stmts := b.stmts ++ stmts } := by simp only [append, List.append_nil]

theorem append_empty (b : PackageBody) : b.append .empty = b := by
  simp only [append, empty, List.append_nil]

theorem append_assoc (b b' b'' : PackageBody) : (b.append b').append b'' = b.append (b'.append b'') := by
  simp only [append, List.append_assoc]

end PackageBody

/-! ## Lists of names -/

/-- What stands behind a semicolon does not belong to the list before it. -/
theorem Extent.listTail_semi {t : Token} (ht : t.kind = .punct .semi) (ts rest rest' : List Token) :
    listTail (ts ++ t :: rest) = listTail (ts ++ t :: rest') ∧ listTail (ts ++ t :: rest) ≤ ts.length + 1 := by
  have hword : ¬ t.kind.isKeyword = true := by
    rw [ht]
    exact Bool.false_ne_true
  induction ts with
  | nil =>
    rw [List.nil_append, List.nil_append, listTail, listTail, if_neg hword, if_pos ht, if_neg hword, if_pos ht]
    exact ⟨rfl, Nat.le_refl 1⟩
  | cons t' ts ih =>
    rw [List.cons_append, List.cons_append, listTail, listTail]
    split
    · exact ⟨rfl, Nat.zero_le _⟩
    · split
      · exact ⟨rfl, Nat.le_add_left _ _⟩
      · exact ⟨congrArg (· + 1) ih.1, Nat.succ_le_succ ih.2⟩

theorem Extent.nameList_semi {t : Token} (ht : t.kind = .punct .semi) (ts rest rest' : List Token) :
    nameList (ts ++ t :: rest) = nameList (ts ++ t :: rest') ∧ nameList (ts ++ t :: rest) ≤ ts.length + 1 := by
  cases ts with
  | nil =>
    rw [List.nil_append, List.nil_append, nameList, nameList, if_pos ht, if_pos ht]
    exact ⟨rfl, Nat.le_refl 1⟩
  | cons t' ts =>
    rw [List.cons_append, List.cons_append, nameList, nameList]
    split
    · exact ⟨rfl, Nat.le_add_left _ _⟩
    · exact ⟨congrArg (· + 1) (listTail_semi ht ts rest rest').1,
        Nat.succ_le_succ (listTail_semi ht ts rest rest').2⟩

namespace ListReader

variable {α β : Type}

/-- The last token that is read of a row is a semicolon. -/
def EndsList (p : ListReader α) : Prop :=
  ∀ stop ts r, p stop ts = .ok r → ∃ before t, ts = before ++ t :: r.rest ∧ t.kind = .punct .semi

namespace EndsList

theorem semicolon (a : α) : EndsList (symbol (.punct .semi) >>= fun _ => pure a) := by
  intro stop ts r h
  obtain ⟨r₁, r₂, hread, hdone, -, hr⟩ := bind_eq_ok h
  cases hdone
  obtain ⟨t, hts, ht⟩ := symbol_eq_ok hread
  exact ⟨[], t, by rw [hts, hr]; rfl, ht⟩

theorem bind {p : ListReader α} {q : α → ListReader β} (hp : ReadsSupported p) (hq : ∀ a, EndsList (q a)) :
    EndsList (p >>= q) := by
  intro stop ts r h
  obtain ⟨r₁, r₂, hfirst, hrest, -, hr⟩ := bind_eq_ok h
  obtain ⟨us, hus, -⟩ := hp stop ts r₁ hfirst
  obtain ⟨before, t, hbefore, ht⟩ := hq r₁.value stop r₁.rest r₂ hrest
  exact ⟨us ++ before, t, by rw [hus, hbefore, hr, List.append_assoc], ht⟩

theorem exportItems : EndsList exportItems :=
  .bind (.symbol rfl) fun _ => .bind (.listOf .exportItem) fun items => .semicolon items

theorem importedPackages : EndsList importedPackages :=
  .bind (.symbol rfl) fun _ => .bind (.listOf .packageRef) fun packages => .semicolon packages

/-- A row that is read as a whole ends with a semicolon. -/
theorem run {p : ListReader α} (hp : EndsList p) {stop : Nat} {ts : List Token} {a : α} (h : p.run stop ts = .ok a) :
    ∃ before t, ts = before ++ [t] ∧ t.kind = .punct .semi := by
  obtain ⟨r, hread, -, hrest⟩ := run_eq_ok h
  obtain ⟨before, t, hts, ht⟩ := hp stop ts r hread
  exact ⟨before, t, by rw [hts, hrest], ht⟩

end EndsList

end ListReader

namespace Parser

variable {α : Type} {c : Setting} {s s' : State}

/-- Where a list stands is told by its tokens. -/
theorem listSpan_of_extent {ts rest rest' : List Token} (hts : ts ≠ []) (h : Extent.nameList (ts ++ rest) = ts.length)
    (h' : Extent.nameList (ts ++ rest') = ts.length) (c c' : Setting) (cs cs' : List Token) (ds ds' : List Diagnostic)
    (ns ns' : List NodeSpan) :
    listSpan c ⟨cs, ts ++ rest, ds, ns⟩ = listSpan c' ⟨cs', ts ++ rest', ds', ns'⟩ := by
  unfold listSpan
  dsimp only
  rw [h, h', State.advance_length, State.advance_length]
  obtain ⟨t, us, rfl⟩ := List.exists_cons_of_ne_nil hts
  exact congrArg (Span.mk t.span.start) (lastStop_reverse_append hts cs cs')

/-- A list that ends with a semicolon extends up to it, whatever stands behind it. -/
theorem nameList_of_take {ts before : List Token} {t : Token} (ht : t.kind = .punct .semi)
    (h : ts.take (Extent.nameList ts) = before ++ [t]) :
    (∃ rest, ts = before ++ [t] ++ rest) ∧
      ∀ rest, Extent.nameList (before ++ [t] ++ rest) = (before ++ [t]).length := by
  have hsplit : ts = before ++ t :: ts.drop (Extent.nameList ts) := by
    rw [← List.singleton_append, ← List.append_assoc, ← h, List.take_append_drop]
  refine ⟨⟨_, hsplit.trans (List.append_cons _ _ _)⟩, fun rest => ?_⟩
  have hlength := congrArg List.length h
  obtain ⟨hsame, hle⟩ := Extent.nameList_semi ht before (ts.drop (Extent.nameList ts)) rest
  rw [← hsplit] at hsame hle
  rw [List.length_take, List.length_append, List.length_singleton] at hlength
  rw [← List.append_cons, ← hsame, List.length_append, List.length_singleton]
  omega

/-- A list that is read without diagnostics is read in the same way wherever else its tokens stand. -/
theorem goes_of_nameList {reader : ListReader α} {kind : NodeKind} {r : α × Span} (hreader : reader.EndsList)
    (h : nameList reader kind c s = (some r, s')) :
    ∃ ts, ts ≠ [] ∧ s.Took ts s' ∧ ∀ cs rest, Goes (nameList reader kind) cs ts r rest := by
  obtain ⟨cs₀, ts₀, ds₀, ns₀⟩ := s
  rw [nameList_eq] at h
  cases hread : reader.run (listSpan c ⟨cs₀, ts₀, ds₀, ns₀⟩).stop (ts₀.take (Extent.nameList ts₀)) with
  | error m =>
    rw [hread] at h
    cases h
  | ok value =>
    rw [hread] at h
    cases h
    obtain ⟨before, t, htaken, ht⟩ := hreader.run hread
    have hne : before ++ [t] ≠ [] := List.append_ne_nil_of_right_ne_nil _ (List.cons_ne_nil _ _)
    obtain ⟨⟨rest₀, rfl⟩, hextent⟩ := nameList_of_take ht htaken
    rw [htaken] at hread
    refine ⟨before ++ [t], hne, ?_, fun cs rest c' ns => ?_⟩
    · obtain ⟨ns', hrecord⟩ := State.record_eq ⟨(before ++ [t]).reverse ++ cs₀, rest₀, ds₀, ns₀⟩ kind
        (listSpan c ⟨cs₀, before ++ [t] ++ rest₀, ds₀, ns₀⟩)
      rw [hextent, State.advance_length, hrecord]
      exact ⟨rfl, rfl⟩
    · have hspan := listSpan_of_extent hne (hextent rest) (hextent rest₀) c' c cs cs₀ [] ds₀ ns ns₀
      obtain ⟨ns', hrecord⟩ := State.record_eq ⟨(before ++ [t]).reverse ++ cs, rest, [], ns⟩ kind
        (listSpan c ⟨cs₀, before ++ [t] ++ rest₀, ds₀, ns₀⟩)
      refine ⟨ns', ?_⟩
      rw [nameList_eq, hspan, hextent, List.take_left, hread]
      unfold listOutcome
      rw [hspan, hextent, State.advance_length, hrecord]

/-! ## Single items -/

/-- A declaration that is a list of names. -/
theorem goes_of_listDecl {β : Type} {reader : ListReader α} {kind : NodeKind} {make : α → Span → β} {d : Option β}
    (hreader : reader.EndsList) (h : attempt (listDecl reader kind make) c s = (some d, s'))
    (hclean : s'.diagnostics = []) :
    ∃ x ts, d = some x ∧ ts ≠ [] ∧ s.Took ts s' ∧
      ∀ cs rest, Goes (attempt (listDecl reader kind make)) cs ts (some x) rest := by
  rw [attempt, listDecl, bind_apply] at h
  rcases hlist : nameList reader kind c s with ⟨_ | r, s₁⟩
  · rw [hlist] at h
    cases h
    exact absurd hclean ((nameList_passes hlist).2 rfl)
  · rw [hlist] at h
    cases h
    obtain ⟨ts, hts, htook, hgoes⟩ := goes_of_nameList hreader hlist
    refine ⟨_, ts, rfl, hts, htook, fun cs rest => ?_⟩
    have hdecl : Goes (listDecl reader kind make) cs ts (make r.1 r.2) rest := (hgoes cs rest).then_ .value
    exact hdecl.attempt

/-- No simple statement begins with a token with which neither an operand nor a declaration begins. -/
theorem simple_of_head {g : Grammar} {k : Kind} (hpeek : s.peek = some k) (hlet : k ≠ .keyword .let_)
    (htyped : startsTyped k = false) (hprimary : k.startsPrimary = false) : (g.simple c s).1 = none := by
  have hnolet : isNext (.keyword .let_) c s = (some false, s) := by
    refine congrArg (fun b => (some b, s)) (beq_false_of_ne ?_)
    rw [hpeek]
    exact fun h => hlet (Option.some.inj h)
  have hnotype : atTypedDecl c s = (some false, s) := by
    rw [atTypedDecl_eq, hpeek, Option.any_some, htyped]
    rfl
  rw [Grammar.simple, bind_of_some hnolet, if_neg Bool.false_ne_true, bind_of_some hnotype, if_neg Bool.false_ne_true,
    Grammar.operand, bind_assoc, bind_apply]
  rcases hrun : g.primary c s with ⟨_ | e, s₁⟩
  · rfl
  · obtain ⟨k', hk', hstarts⟩ := Grammar.primary_head hrun
    cases hpeek.symm.trans hk'
    exact absurd (hprimary.symm.trans hstarts) Bool.false_ne_true

/-- No statement of a package begins with a colon. -/
theorem packageStmt_of_colon (hpeek : s.peek = some (.punct .colon)) : (packageStmt c s).1 = none := by
  have hlacks : Lacks (.punct .attrOpen) s.rest := by
    intro t ht hk
    rw [State.peek, show s.rest.head? = some t from ht, Option.map_some, hk] at hpeek
    cases hpeek
  have hsimple : (withGrammar Grammar.simple c s).1 = none := simple_of_head hpeek (by decide) rfl rfl
  rw [packageStmt, bind_of_some (Confined.skipAttributes_of_lacks hlacks),
    bind_of_some peek_eq, hpeek]
  show (simplePackageStmt c s).1 = none
  rw [simplePackageStmt, bind_apply]
  rcases hrun : withGrammar Grammar.simple c s with ⟨_ | x, s₁⟩
  · rfl
  · rw [hrun] at hsimple
    cases hsimple

/-- Tokens that begin with one of the kind `k` are read as one item, which adds `x` to any other items: wherever they
stand, before anything that does not begin with a colon. -/
def ReadsItem (k : Kind) (ts : List Token) (x : PackageBody) : Prop :=
  ∀ body cs rest, Lacks (.punct .colon) rest → Goes (packageItem body k) cs ts (body.append x) rest

/-- Where no list and no closing word comes next, a statement is read. -/
theorem packageItem_stmt {k : Kind} (hexport : k ≠ .keyword .export_) (himport : k ≠ .keyword .import_)
    (hopen : k.isCloser = false) (body : PackageBody) :
    packageItem body k = (resuming packageStmt >>= fun stmt => pure { body with stmts := body.stmts ++ stmt.toList }) := by
  unfold packageItem
  split
  · exact absurd rfl hexport
  · exact absurd rfl himport
  · rw [hopen]
    rfl

/-- Where a closing word comes next, it is reported and stepped over. -/
theorem packageItem_closer {k : Kind} (hclose : k.isCloser = true) (body : PackageBody) :
    packageItem body k = (peekSpan >>= fun span => report span (.unexpected k) >>= fun _ => skip >>= fun _ => pure body) := by
  have hkinds : k ≠ .keyword .export_ ∧ k ≠ .keyword .import_ := by
    constructor <;> rintro rfl <;> cases hclose
  unfold packageItem
  split
  · exact absurd rfl hkinds.1
  · exact absurd rfl hkinds.2
  · rw [if_pos hclose]

theorem complains_packageItem {k : Kind} (hclose : k.isCloser = true) (body : PackageBody) :
    Complains (packageItem body k) := by
  rw [packageItem_closer hclose]
  refine .after (fun _ s => ⟨_, s, rfl⟩) fun span => (Complains.report _ _).bind fun _ => ?_
  exact .bind (fun _ s => .step s) fun _ => .value _

/-- An item that is read without diagnostics ends by its own tokens. -/
theorem readsItem_of_packageItem {k : Kind} {body body' : PackageBody} (hpeek : s.peek = some k)
    (h : packageItem body k c s = (some body', s')) (hclean : s'.diagnostics = []) :
    k ≠ .punct .colon ∧ ∃ ts x, ts ≠ [] ∧ s.Took ts s' ∧ body' = body.append x ∧ ReadsItem k ts x := by
  by_cases hexport : k = .keyword .export_
  · subst hexport
    obtain ⟨d, s₁, hdecl, hdone⟩ := bind_eq_some.mp h
    cases hdone
    obtain ⟨x, ts, rfl, hts, htook, hgoes⟩ := goes_of_listDecl .exportItems hdecl hclean
    refine ⟨nofun, ts, ⟨[x], [], []⟩, hts, htook, (PackageBody.append_exports body [x]).symm, fun b cs rest _ => ?_⟩
    rw [PackageBody.append_exports]
    exact (hgoes cs rest).then_ .value
  by_cases himport : k = .keyword .import_
  · subst himport
    obtain ⟨d, s₁, hdecl, hdone⟩ := bind_eq_some.mp h
    cases hdone
    obtain ⟨x, ts, rfl, hts, htook, hgoes⟩ := goes_of_listDecl .importedPackages hdecl hclean
    refine ⟨nofun, ts, ⟨[], [x], []⟩, hts, htook, (PackageBody.append_imports body [x]).symm, fun b cs rest _ => ?_⟩
    rw [PackageBody.append_imports]
    exact (hgoes cs rest).then_ .value
  cases hclose : k.isCloser with
  | true =>
    have hdirty := complains_packageItem hclose body c s
    rw [h] at hdirty
    exact absurd hclean hdirty
  | false =>
    rw [packageItem_stmt hexport himport hclose] at h
    obtain ⟨r, s₁, hresuming, hdone⟩ := bind_eq_some.mp h
    cases hdone
    have hstmt : Confined s.rest (s.rest.length + 1) any true false (fun _ => Lacks (.punct .colon))
        (fun x => AllSites (Site.Alone s.rest) x.sites) packageStmt := Inner.packageStmt
    have hstarts : Starts s.rest (s.rest.length + 1) any s := ⟨Nat.lt_succ_self _, List.suffix_refl _, trivial⟩
    obtain ⟨x, rfl, hrun⟩ := Confined.resuming_clean (fun s₂ => hstmt.fails c s s₂ hstarts) hresuming hclean
    obtain ⟨-, ts, -, hts⟩ := hstmt.runs c s x s' hstarts hrun hclean
    refine ⟨?_, ts, ⟨[], [], [x]⟩, hts.reads rfl, hts.took, (PackageBody.append_stmts body [x]).symm, ?_⟩
    · rintro rfl
      have hnone := packageStmt_of_colon (c := c) hpeek
      rw [hrun] at hnone
      cases hnone
    · intro b cs rest hrest
      rw [packageItem_stmt hexport himport hclose, PackageBody.append_stmts]
      exact (hts.again cs rest nofun (.inr hrest)).resuming.then_ .value

/-! ## All items -/

/-- A round that reads on has read an item, and the last one has found nothing more. -/
theorem packageRound_inv {body : PackageBody} {r : Round PackageBody PackageBody} (hruns : s.halts c = false)
    (h : packageRound false body c s = (some r, s')) :
    (s.rest = [] ∧ r = .done body ∧ s' = s) ∨
      ∃ k body', s.peek = some k ∧ r = .again body' ∧ packageItem body k c s = (some body', s') := by
  rw [packageRound, bind_of_some (show halted c s = (some (s.halts c), s) from rfl), hruns,
    if_neg Bool.false_ne_true, bind_of_some peek_eq] at h
  cases hnext : s.peek with
  | none =>
    rw [hnext] at h
    cases h
    exact .inl ⟨List.head?_eq_none_iff.mp (Option.map_eq_none_iff.mp hnext), rfl, rfl⟩
  | some k =>
    rw [hnext] at h
    obtain ⟨body', s₁, hitem, hdone⟩ := bind_eq_some.mp h
    cases hdone
    exact .inr ⟨k, body', rfl, rfl, hitem⟩

/-- Tokens that are read as items, which add `x` to any other items: wherever they stand, before anything that does not
begin with a colon. -/
def ReadsItems (ts : List Token) (x : PackageBody) : Prop :=
  ∀ c body cs rest ns, Lacks (.punct .colon) rest →
    ∃ ns', Leads (packageRound false) c body ⟨cs, ts ++ rest, [], ns⟩ (body.append x) ⟨ts.reverse ++ cs, rest, [], ns'⟩

theorem ReadsItems.nil : ReadsItems [] .empty := by
  intro c body cs rest ns _
  rw [PackageBody.append_empty]
  exact ⟨ns, .refl⟩

theorem ReadsItem.alone {t : Token} {ts : List Token} {x : PackageBody} (h : ReadsItem t.kind (t :: ts) x) :
    ReadsItems (t :: ts) x := by
  intro c body cs rest ns hrest
  have hround : Goes (packageRound false body) cs (t :: ts) (.again (body.append x)) rest := by
    refine .look (a := false) (fun c ns => ?_) (.peek ((h body cs rest hrest).then_ .value))
    exact congrArg (fun b => (some b, _)) (halts_of_clean rfl)
  obtain ⟨ns', hrun⟩ := hround c ns
  refine ⟨ns', .one hrun ?_⟩
  rw [List.length_append]
  exact Nat.lt_add_of_pos_left (Nat.succ_pos _)

theorem ReadsItems.append {ts ts' : List Token} {x x' : PackageBody} (h : ReadsItems ts x) (h' : ReadsItems ts' x')
    (hlacks : Lacks (.punct .colon) ts') : ReadsItems (ts ++ ts') (x.append x') := by
  intro c body cs rest ns hrest
  obtain ⟨ns₁, hleads⟩ := h c body cs (ts' ++ rest) ns (hlacks.append hrest)
  obtain ⟨ns', hleads'⟩ := h' c (body.append x) (ts.reverse ++ cs) rest ns₁ hrest
  rw [List.append_assoc, List.reverse_append, List.append_assoc, ← PackageBody.append_assoc]
  exact ⟨ns', hleads.trans hleads'⟩

/-- Every run without diagnostics reads its tokens as items. -/
theorem readsItems_of_rounds {body body' : PackageBody} (h : Rounds (packageRound false) c body s (some body', s'))
    (hclean : s'.diagnostics = []) :
    s.diagnostics = [] ∧ Lacks (.punct .colon) s.rest ∧ ∃ x, body' = body.append x ∧ ReadsItems s.rest x := by
  have hmoves : ∀ b, Moving (packageRound false b) := fun b =>
    have hround : CleanRuns [] any _ (packageRound false b) := .packageRound (fun _ => Inner.packageStmt) false b
    hround.moves
  generalize hout : (some body', s') = out at h
  induction h with
  | failed h => cases hout
  | @done a b s s₁ h =>
    cases hout
    have hclean₀ := ((hmoves _).of_run h).clean hclean
    obtain ⟨hend, hbody, -⟩ | ⟨k, b, -, hagain, -⟩ := packageRound_inv (halts_of_clean hclean₀) h
    · cases hbody
      rw [hend]
      exact ⟨hclean₀, .nil, .empty, (PackageBody.append_empty _).symm, .nil⟩
    · cases hagain
  | @again a a' s s₁ out h hbeyond hlater ih =>
    obtain ⟨hclean₁, hlacks, x', hbody', hitems⟩ := ih hout
    have hclean₀ := ((hmoves _).of_run h).clean hclean₁
    obtain ⟨-, hdone, -⟩ | ⟨k, b, hpeek, hagain, hitem⟩ := packageRound_inv (halts_of_clean hclean₀) h
    · cases hdone
    · cases hagain
      obtain ⟨hk, ts, x, hts, htook, rfl, hreads⟩ := readsItem_of_packageItem hpeek hitem hclean₁
      obtain ⟨t, us, rfl⟩ := List.exists_cons_of_ne_nil hts
      obtain rfl : t.kind = k := by
        rw [State.peek, htook.rest] at hpeek
        exact Option.some.inj hpeek
      rw [htook.rest]
      exact ⟨hclean₀, .cons rfl hk _, x.append x', hbody'.trans (PackageBody.append_assoc _ _ _),
        hreads.alone.append hitems hlacks⟩

theorem readsItems_of_packageBody {ts : List Token} {body : PackageBody}
    (h : packageBody false c (.start ts) = (some body, s')) (hclean : s'.diagnostics = []) :
    Lacks (.punct .colon) ts ∧ ReadsItems ts body := by
  have hrounds := (loopsReadOn_full c (.start ts)).packageItems false
  rw [h] at hrounds
  obtain ⟨-, hlacks, x, rfl, hitems⟩ := readsItems_of_rounds hrounds hclean
  exact ⟨hlacks, hitems⟩

/-- Items are read to their end. -/
theorem ReadsItems.goes {ts : List Token} {x : PackageBody} (h : ReadsItems ts x) : Goes (packageBody false) [] ts x [] := by
  intro c ns
  obtain ⟨ns', hleads⟩ := h c .empty [] [] ns .nil
  refine ⟨ns', repeatUntil_of_leads hleads ?_⟩
  have hgo : State.halts c ⟨ts.reverse ++ [], [], [], ns'⟩ = false := halts_of_clean rfl
  rw [packageRound, bind_of_some (show halted c _ = (some (State.halts c _), _) from rfl), hgo]
  rfl

end Parser

/-! ## Two sources -/

variable {source : String} {recovery : Recovery}

/-- A source without a package around its items, and without diagnostics, is read item by item. -/
theorem exists_body_of_clean (hbare : Lacks (.keyword .package) (Token.significant source))
    (hclean : (parse source recovery).diagnostics = []) :
    LexicalError.ofText source = [] ∧ ∃ body s',
      packageBody false (.ofText source recovery) (.ofText source) = (some body, s') ∧ s'.diagnostics = [] ∧
        (parse source recovery).root = .items body := by
  obtain ⟨hlexical, s', hrun, hclean', -⟩ := parse_clean hclean
  have hnext : isNext (.keyword .package) (.ofText source recovery) (.ofText source) = (some false, .ofText source) :=
    isNext_of_head hbare
  rw [sourceUnit, bind_of_some hnext] at hrun
  obtain ⟨body, s₁, hbody, hdone⟩ := bind_eq_some.mp hrun
  obtain ⟨hroot, rfl⟩ := pure_eq_some.mp hdone
  exact ⟨hlexical, body, s₁, hbody, hclean', hroot.symm⟩

/-- The tokens of such a source are read as its items at another place, too. -/
theorem readsItems_move {body : PackageBody} {s' : State}
    (h : packageBody false (.ofText source recovery) (.ofText source) = (some body, s')) (hclean : s'.diagnostics = [])
    (k : Nat) : Lacks (.punct .colon) ((Token.significant source).map (Token.move (· + k))) ∧
      ReadsItems ((Token.significant source).map (Token.move (· + k))) (body.move (· + k)) := by
  have halike := alike_ofText (.shift k) source recovery (fun _ _ => trivial) trivial
  obtain ⟨hrel, hafter, -⟩ := Tracks.packageBody false _ _ _ _ halike (Nat.zero_le _)
  rw [h] at hrel hafter
  exact readsItems_of_packageBody (Prod.ext (Tracks.rel_by.mp hrel) rfl)
    (hafter.diagnostics.trans (List.map_eq_nil_iff.mpr hclean))

/-- A source whose tokens are read as items has no diagnostics. -/
theorem parse_of_readsItems {x : PackageBody} (hlexical : LexicalError.ofText source = [])
    (hbare : Lacks (.keyword .package) (Token.significant source)) (h : ReadsItems (Token.significant source) x) :
    (parse source recovery).diagnostics = [] ∧ (parse source recovery).root = .items x := by
  obtain ⟨ns, hbody⟩ := h.goes (.ofText source recovery) []
  have hnext : isNext (.keyword .package) (.ofText source recovery) (.ofText source) = (some false, .ofText source) :=
    isNext_of_head hbare
  rw [List.append_nil] at hbody
  replace hbody : packageBody false (.ofText source recovery) (.ofText source) = _ := hbody
  have hunit : sourceUnit (.ofText source recovery) (.ofText source) =
      (some (.items x), ⟨(Token.significant source).reverse ++ [], [], [], ns⟩) := by
    rw [sourceUnit, bind_of_some hnext, if_neg Bool.false_ne_true, bind_of_some hbody]
    rfl
  have hclean : (parse source recovery).diagnostics = [] := clean_of_sourceUnit hlexical (congrArg (·.2.diagnostics) hunit)
  obtain ⟨-, s', hrun, -⟩ := parse_clean hclean
  rw [hunit] at hrun
  exact ⟨hclean, (Option.some.inj (congrArg Prod.fst hrun)).symm⟩

/-- Two sources without a package around their items, and without diagnostics, are one source without diagnostics if
they stand one below the other: its items are those of the first one and those of the second one, at another place. -/
theorem parse_lines {source₁ source₂ : String} (hbare₁ : Lacks (.keyword .package) (Token.significant source₁))
    (hbare₂ : Lacks (.keyword .package) (Token.significant source₂))
    (hclean₁ : (parse source₁ recovery).diagnostics = []) (hclean₂ : (parse source₂ recovery).diagnostics = []) :
    (parse (source₁ ++ "\n" ++ source₂) recovery).diagnostics = [] ∧
      (parse (source₁ ++ "\n" ++ source₂) recovery).root = .items ((parse source₁ recovery).root.body.append
        ((parse source₂ recovery).root.body.move (· + (Text.byteSize source₁.toList + 1)))) := by
  obtain ⟨hlexical₁, b₁, s₁, hrun₁, hdone₁, hroot₁⟩ := exists_body_of_clean hbare₁ hclean₁
  obtain ⟨hlexical₂, b₂, s₂, hrun₂, hdone₂, hroot₂⟩ := exists_body_of_clean hbare₂ hclean₂
  obtain ⟨-, hitems₁⟩ := readsItems_of_packageBody hrun₁ hdone₁
  obtain ⟨hlacks, hitems₂⟩ := readsItems_move hrun₂ hdone₂ (Text.byteSize source₁.toList + 1)
  have hlexicals : ∀ text ∈ [source₁, source₂], LexicalError.ofText text = [] :=
    List.forall_mem_cons.mpr ⟨hlexical₁, List.forall_mem_singleton.mpr hlexical₂⟩
  obtain ⟨hsignificant, hlexical⟩ := Token.significant_lines hlexicals
  have htokens : Token.significant (source₁ ++ "\n" ++ source₂) = Token.significant source₁ ++
      (Token.significant source₂).map (Token.move (· + (Text.byteSize source₁.toList + 1))) := by
    have hfirst : (Token.significant source₁).map (Token.move (· + 0)) = Token.significant source₁ := List.map_id _
    rw [Token.onLines, Token.onLines, Token.onLines, hfirst, Nat.zero_add, List.append_nil] at hsignificant
    exact hsignificant
  rw [hroot₁, hroot₂]
  refine parse_of_readsItems hlexical ?_ ?_
  · rw [htokens]
    exact hbare₁.append hbare₂.move
  · rw [htokens]
    exact hitems₁.append hitems₂ hlacks

theorem parse_lines_assign :
    (Lacks (.keyword .package) (Token.significant "x = 1;") ∧ Lacks (.keyword .package) (Token.significant "y = 2;")) ∧
      ((parse "x = 1;" .collectAll).diagnostics = [] ∧ (parse "y = 2;" .collectAll).diagnostics = []) ∧
        (parse ("x = 1;" ++ "\n" ++ "y = 2;") .collectAll).diagnostics = [] ∧
          (parse ("x = 1;" ++ "\n" ++ "y = 2;") .collectAll).root = .items ((parse "x = 1;" .collectAll).root.body.append
            ((parse "y = 2;" .collectAll).root.body.move (· + 7))) := by
  have hbare : Lacks (.keyword .package) (Token.significant "x = 1;") ∧
      Lacks (.keyword .package) (Token.significant "y = 2;") := by
    constructor <;> rintro t ⟨⟩ <;> decide
  have hclean : (parse "x = 1;" .collectAll).diagnostics = [] ∧ (parse "y = 2;" .collectAll).diagnostics = [] :=
    ⟨clean_of_sourceUnit rfl (by decide +kernel), clean_of_sourceUnit rfl (by decide +kernel)⟩
  exact ⟨hbare, hclean, parse_lines hbare.1 hbare.2 hclean.1 hclean.2⟩

end Bluespec
