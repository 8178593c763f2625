import Bluespec.Proofs.JoinedUnits

/-!
# Lists of names as they are written

A list of names is cut out of the tokens before it is read: it reaches through the next semicolon, or up to the next
reserved word.  What is cut out is a declaration exactly if it is written as one.

* **`Token.NameSlice`** — where a list ends.
* **`ExportItem.Written`**, **`PackageWritten`**, **`Row`**, **`ListWritten`** — how items and lists are written.
* **`ListReader.ReadsOnly`**, **`ListReader.Reads`**, **`ListReader.Fails`** — what a reader makes of tokens.
* **`ListReader.run_wordedList`** — a list is read as a whole exactly if it is written as one.
* **`Parser.lists_read_as_written`** — export and import lists.
-/

namespace Bluespec

/-! ## The slice of a list -/

namespace Token

variable {ts us slice rest : List Token} {t : Token}

/-- Some tokens end with their only semicolon, or a reserved word follows them, or nothing does. -/
structure EndsSlice (slice rest : List Token) : Prop where
  unclosed : ∀ t ∈ slice.dropLast, t.kind ≠ .punct .semi
  closed : (∃ t, slice.getLast? = some t ∧ t.kind = .punct .semi) ∨ ∀ t, rest.head? = some t → t.kind.isKeyword = true

/-- The tokens of a list that comes next, and the tokens behind it.  Only the first token of a list can be a reserved
word. -/
structure NameSlice (slice rest : List Token) : Prop extends EndsSlice slice rest where
  nonempty : slice ≠ []
  names : ∀ t ∈ slice.tail, t.kind.isKeyword = false

/-- The span from the first of some tokens to the last. -/
def cover (ts : List Token) : Span :=
  ⟨(ts.head?.map fun t => t.span.start).getD 0, (ts.getLast?.map fun t => t.span.stop).getD 0⟩

theorem EndsSlice.semicolon (h : t.kind = .punct .semi) : EndsSlice [t] rest :=
  ⟨nofun, .inl ⟨t, rfl, h⟩⟩

theorem EndsSlice.cons (hopen : t.kind ≠ .punct .semi) (h : EndsSlice us rest) : EndsSlice (t :: us) rest := by
  constructor
  · cases us with
    | nil => exact nofun
    | cons u us => exact List.forall_mem_cons.mpr ⟨hopen, h.unclosed⟩
  · obtain ⟨u, hlast, hsemi⟩ | hrest := h.closed
    · exact .inl ⟨u, by rw [List.getLast?_cons, hlast, Option.getD_some], hsemi⟩
    · exact .inr hrest

theorem exists_tailSlice (ts : List Token) :
    ∃ slice rest, ts = slice ++ rest ∧ slice.length = Extent.listTail ts ∧ EndsSlice slice rest ∧
      ∀ t ∈ slice, t.kind.isKeyword = false := by
  induction ts with
  | nil => exact ⟨[], [], rfl, rfl, ⟨nofun, .inr nofun⟩, nofun⟩
  | cons t ts ih =>
    rw [Extent.listTail]
    split
    · next hword => exact ⟨[], t :: ts, rfl, rfl, ⟨nofun, .inr fun u hu => Option.some.inj hu ▸ hword⟩, nofun⟩
    · next hword =>
      have hname : t.kind.isKeyword = false := Bool.eq_false_iff.mpr hword
      split
      · next hsemi => exact ⟨[t], ts, rfl, rfl, .semicolon hsemi, List.forall_mem_singleton.mpr hname⟩
      · next hopen =>
        obtain ⟨slice, rest, rfl, hlength, hends, hnames⟩ := ih
        exact ⟨t :: slice, rest, rfl, congrArg (· + 1) hlength, hends.cons hopen,
          List.forall_mem_cons.mpr ⟨hname, hnames⟩⟩

theorem exists_nameSlice (h : ts ≠ []) :
    ∃ slice rest, ts = slice ++ rest ∧ slice.length = Extent.nameList ts ∧ NameSlice slice rest := by
  obtain ⟨t, us, rfl⟩ := List.exists_cons_of_ne_nil h
  rw [Extent.nameList]
  split
  · next hsemi => exact ⟨[t], us, rfl, rfl, .semicolon hsemi, List.cons_ne_nil _ _, fun _ h => absurd h List.not_mem_nil⟩
  · next hopen =>
    obtain ⟨slice, rest, rfl, hlength, hends, hnames⟩ := exists_tailSlice us
    exact ⟨t :: slice, rest, rfl, congrArg (· + 1) hlength, hends.cons hopen, List.cons_ne_nil _ _, hnames⟩

theorem cover_of_ne_nil (h : ts ≠ []) : cover ts = ⟨(ts.head h).span.start, (ts.getLast h).span.stop⟩ := by
  rw [cover, List.head?_eq_some_head h, List.getLast?_eq_some_getLast h]
  rfl

theorem Ordered.cover_nonempty (h : Ordered ts) (hne : ts ≠ []) : (cover ts).isEmpty = false := by
  rw [cover_of_ne_nil hne]
  exact decide_eq_false (Nat.not_le.mpr (h.head_lt_getLast hne))

/-- The tokens that start before the end of the first tokens are these tokens. -/
theorem Ordered.takeWhile_cover (h : Ordered (slice ++ rest)) (hne : slice ≠ []) :
    (slice ++ rest).takeWhile (fun t => t.span.start < (cover slice).stop) = slice := by
  have hstop : (cover slice).stop = (slice.getLast hne).span.stop := by rw [cover_of_ne_nil hne]
  have hbefore : ∀ t ∈ slice, decide (t.span.start < (cover slice).stop) = true := by
    intro t ht
    have hlt := h.left.nonempty t ht
    have hle := h.left.stop_le_getLast hne ht
    rw [hstop]
    exact decide_eq_true (Nat.lt_of_lt_of_le hlt hle)
  rw [List.takeWhile_append_of_pos hbefore]
  cases rest with
  | nil => rw [List.takeWhile_nil, List.append_nil]
  | cons t rest =>
    have hbehind := (List.pairwise_append.mp h.before).2.2 _ (List.getLast_mem hne) t List.mem_cons_self
    rw [← hstop] at hbehind
    rw [List.takeWhile_cons_of_neg (by simpa using hbehind), List.append_nil]

end Token

/-! ## How lists are written -/

/-- Items with a comma between two. -/
inductive Row {α : Type} (Item : α → List Token → Prop) : List α → List Token → Prop
  /-- A single item. -/
  | one {a : α} {ts : List Token} (item : Item a ts) : Row Item [a] ts
  /-- An item, a comma, and the other items. -/
  | more {a : α} {as : List α} {comma : Token} {ts us : List Token} (item : Item a ts)
      (hcomma : comma.kind = .punct .comma) (others : Row Item as us) : Row Item (a :: as) (ts ++ comma :: us)

/-- A list behind its first word: items with a comma between two, and a semicolon. -/
def ListWritten {α : Type} (word : Keyword) (Item : α → List Token → Prop) (as : List α) (ts : List Token) : Prop :=
  ∃ first row semi, ts = first :: row ++ [semi] ∧ first.kind = .keyword word ∧ Row Item as row ∧
    semi.kind = .punct .semi

/-- A package with all it exports: `Pkg::*`. -/
def PackageWritten (package : String) (ts : List Token) : Prop :=
  ∃ t colons star, ts = [t, colons, star] ∧ t.kind = .typeIdent ∧ colons.kind = .punct .colonColon ∧
    star.kind = .punct .star ∧ package = t.text

/-- The mark behind a name that is exported with its members: `(..)`. -/
def MembersWritten (ts : List Token) : Prop :=
  ∃ opening dots closing, ts = [opening, dots, closing] ∧ opening.kind = .punct .lparen ∧
    dots.kind = .punct .dotDot ∧ closing.kind = .punct .rparen

/-- The items of an export list: `ide`, `ide(..)`, `Ide`, `Ide(..)` and `Pkg::*`. -/
inductive ExportItem.Written : ExportItem → List Token → Prop
  /-- A name alone. -/
  | name {t : Token} (ht : t.kind = .ident ∨ t.kind = .typeIdent) : Written (.name t.text false) [t]
  /-- A name with its members. -/
  | members {t : Token} {mark : List Token} (ht : t.kind = .ident ∨ t.kind = .typeIdent)
      (hmark : MembersWritten mark) : Written (.name t.text true) (t :: mark)
  /-- A package. -/
  | package {name : String} {ts : List Token} (h : PackageWritten name ts) : Written (.package name) ts

/-! ## What readers make of tokens -/

namespace ListReader

variable {α β : Type} {p : ListReader α} {q : α → ListReader β} {W V : α → List Token → Prop} {k : Kind}
  {kinds : List Kind} {t : Token} {ts us vs rest : List Token} {a : α} {b : β}

/-- All that a reader reads is written in one way. -/
def ReadsOnly (W : α → List Token → Prop) (p : ListReader α) : Prop :=
  ∀ stop ts r, p stop ts = .ok r → ∃ us, ts = us ++ r.rest ∧ W r.value us

/-- A reader reads the tokens `us` as `a` when `rest` follows them. -/
def Reads (p : ListReader α) (us : List Token) (a : α) (rest : List Token) : Prop :=
  ∀ stop, ∃ passed, p stop (us ++ rest) = .ok ⟨a, rest, passed⟩

/-- A reader fails at some tokens. -/
def Fails (p : ListReader α) (ts : List Token) : Prop := ∀ stop, ∃ m, p stop ts = .error m

namespace ReadsOnly

theorem mono (h : ReadsOnly W p) (hsub : ∀ a us, W a us → V a us) : ReadsOnly V p := by
  intro stop ts r hread
  obtain ⟨us, hts, hw⟩ := h stop ts r hread
  exact ⟨us, hts, hsub _ _ hw⟩

theorem value (h : W a []) : ReadsOnly W (pure a) := by
  rintro stop ts r ⟨⟩
  exact ⟨[], rfl, h⟩

theorem bind {U : β → List Token → Prop} {V : α → β → List Token → Prop} (hp : ReadsOnly W p)
    (hq : ∀ a, ReadsOnly (V a) (q a)) (hjoin : ∀ a b us vs, W a us → V a b vs → U b (us ++ vs)) :
    ReadsOnly U (p >>= q) := by
  intro stop ts r h
  obtain ⟨r₁, r₂, hfirst, hrest, hvalue, hr⟩ := bind_eq_ok h
  obtain ⟨us, hus, hw⟩ := hp stop ts r₁ hfirst
  obtain ⟨vs, hvs, hv⟩ := hq r₁.value stop r₁.rest r₂ hrest
  exact ⟨us ++ vs, by rw [hus, hvs, hr, List.append_assoc], hvalue ▸ hjoin _ _ _ _ hw hv⟩

theorem symbol (k : Kind) : ReadsOnly (fun _ us => ∃ t, us = [t] ∧ t.kind = k) (symbol k) := by
  intro stop ts r h
  obtain ⟨t, hts, hkind⟩ := symbol_eq_ok h
  exact ⟨[t], hts, t, rfl, hkind⟩

theorem name (kinds : List Kind) :
    ReadsOnly (fun text us => ∃ t, us = [t] ∧ t.kind ∈ kinds ∧ text = t.text) (name kinds) := by
  intro stop ts r h
  obtain ⟨t, hts, hkind, htext⟩ := name_eq_ok h
  exact ⟨[t], hts, t, rfl, hkind, htext⟩

theorem orElse {p p' : ListReader α} (h : ReadsOnly W p) (h' : ReadsOnly W p') : ReadsOnly W (orElse p p') :=
  fun stop ts r hread => (orElse_eq_ok hread).elim (h stop ts r) (h' stop ts r)

theorem optional (h : ReadsOnly W p) :
    ReadsOnly (fun r us => (∃ a, r = some a ∧ W a us) ∨ r = none ∧ us = []) (optional p) := by
  intro stop ts r hread
  obtain ⟨r₁, hfirst, hvalue, hr⟩ | ⟨hvalue, hr⟩ := optional_eq_ok hread
  · obtain ⟨us, hts, hw⟩ := h stop ts r₁ hfirst
    exact ⟨us, by rw [hts, hr], .inl ⟨r₁.value, hvalue, hw⟩⟩
  · exact ⟨[], hr.symm, .inr ⟨hvalue, rfl⟩⟩

/-- Further items, behind whatever is a row before them. -/
theorem furtherItems {item : ListReader α} (h : ReadsOnly W item) (limit : Nat) :
    ReadsOnly (fun as us => ∀ a ts, W a ts → Row W (a :: as) (ts ++ us)) (furtherItems item limit) := by
  induction limit with
  | zero => exact .value fun a ts hw => (List.append_nil ts).symm ▸ .one hw
  | succ limit ih =>
    intro stop ts r hread
    have hnext : ReadsOnly (fun b us => ∃ comma vs, us = comma :: vs ∧ comma.kind = .punct .comma ∧ W b vs)
        (nextItem item) :=
      .bind (.symbol _) (fun _ => h) fun _ b us vs ⟨comma, hus, hcomma⟩ hw => ⟨comma, vs, by rw [hus]; rfl, hcomma, hw⟩
    obtain ⟨hvalue, hr⟩ | ⟨r₁, r₂, hitem, hothers, hvalue, hr⟩ := furtherItems_eq_ok hread
    · refine ⟨[], hr.symm, fun a ts hw => ?_⟩
      rw [hvalue, List.append_nil]
      exact .one hw
    · obtain ⟨_, hts, comma, vs, rfl, hcomma, hb⟩ := hnext stop ts r₁ hitem
      obtain ⟨ws, hws, hrow⟩ := ih stop r₁.rest r₂ hothers
      refine ⟨comma :: vs ++ ws, by rw [hts, hws, hr, List.append_assoc], fun a us hw => ?_⟩
      rw [hvalue]
      exact .more hw hcomma (hrow _ _ hb)

theorem listOf {item : ListReader α} (h : ReadsOnly W item) : ReadsOnly (Row W) (listOf item) := by
  intro stop ts
  have hall : ReadsOnly (Row W) (item >>= fun first => (ListReader.furtherItems item ts.length) >>= fun others =>
      pure (first :: others)) :=
    .bind h (V := fun first as vs => ∃ others, as = first :: others ∧ ∀ a ts, W a ts → Row W (a :: others) (ts ++ vs))
      (fun first => .bind (h.furtherItems _)
        (fun others => .value (W := fun as us => us = [] ∧ as = first :: others) ⟨rfl, rfl⟩)
        fun others as us vs hus ⟨hvs, has⟩ => ⟨others, has, by rw [hvs, List.append_nil]; exact hus⟩)
      fun first as us vs hw ⟨others, has, hrow⟩ => has ▸ hrow first us hw
  exact hall stop ts

theorem packageRef : ReadsOnly PackageWritten packageRef := by
  refine .bind (.name _) (V := fun a b vs => a = b ∧ ∃ colons star, vs = [colons, star] ∧
    colons.kind = .punct .colonColon ∧ star.kind = .punct .star) (fun a => ?_) ?_
  · refine .bind (.symbol _) (V := fun _ b vs => a = b ∧ ∃ star, vs = [star] ∧ star.kind = .punct .star)
      (fun _ => ?_) ?_
    · refine .bind (.symbol _) (V := fun _ b vs => a = b ∧ vs = []) (fun _ => .value ⟨rfl, rfl⟩) ?_
      rintro - b - - ⟨star, rfl, hstar⟩ ⟨hab, rfl⟩
      exact ⟨hab, star, rfl, hstar⟩
    · rintro - b - - ⟨colons, rfl, hcolons⟩ ⟨hab, star, rfl, hstar⟩
      exact ⟨hab, colons, star, rfl, hcolons, hstar⟩
  · rintro a b - - ⟨t, rfl, ht, ha⟩ ⟨rfl, colons, star, rfl, hcolons, hstar⟩
    exact ⟨t, colons, star, rfl, List.mem_singleton.mp ht, hcolons, hstar, ha⟩

theorem membersMark : ReadsOnly (fun _ => MembersWritten) membersMark := by
  refine .bind (.symbol _) (V := fun _ _ vs => ∃ dots closing, vs = [dots, closing] ∧ dots.kind = .punct .dotDot ∧
    closing.kind = .punct .rparen) (fun _ => ?_) ?_
  · refine .bind (.symbol _) (fun _ => .symbol _) ?_
    rintro - - - - ⟨dots, rfl, hdots⟩ ⟨closing, rfl, hclosing⟩
    exact ⟨dots, closing, rfl, hdots, hclosing⟩
  · rintro - - - - ⟨opening, rfl, hopening⟩ ⟨dots, closing, rfl, hdots, hclosing⟩
    exact ⟨opening, dots, closing, rfl, hopening, hdots, hclosing⟩

theorem exportedName : ReadsOnly ExportItem.Written exportedName := by
  refine .bind (.name _) (V := fun text item vs => item = .name text true ∧ MembersWritten vs ∨
    item = .name text false ∧ vs = []) (fun text => ?_) ?_
  · refine .bind membersMark.optional
      (fun mark => .value (W := fun item us => item = .name text mark.isSome ∧ us = []) ⟨rfl, rfl⟩) ?_
    rintro mark item us - hmark ⟨rfl, rfl⟩
    rw [List.append_nil]
    obtain ⟨-, rfl, hmembers⟩ | ⟨rfl, rfl⟩ := hmark
    · exact .inl ⟨rfl, hmembers⟩
    · exact .inr ⟨rfl, rfl⟩
  · rintro text item - vs ⟨t, rfl, ht, rfl⟩ (⟨rfl, hmembers⟩ | ⟨rfl, rfl⟩)
    · exact .members (by simpa using ht) hmembers
    · exact .name (by simpa using ht)

theorem exportItem : ReadsOnly ExportItem.Written exportItem := by
  refine .orElse ?_ exportedName
  refine packageRef.bind (fun package => .value (W := fun item us => item = .package package ∧ us = []) ⟨rfl, rfl⟩) ?_
  rintro package item us - hwritten ⟨rfl, rfl⟩
  rw [List.append_nil]
  exact .package hwritten

end ReadsOnly

namespace Fails

theorem symbol (h : ∀ t, ts.head? = some t → t.kind ≠ k) : Fails (symbol k) ts := by
  intro stop
  cases ts with
  | nil => exact ⟨_, rfl⟩
  | cons t ts =>
    rw [ListReader.symbol, if_neg (h t rfl)]
    exact ⟨_, rfl⟩

theorem bind (h : Fails p ts) : Fails (p >>= q) ts := fun stop =>
  have ⟨m, hm⟩ := h stop
  ⟨m, bind_of_error hm⟩

/-- A reader fails where nothing is written as it reads it. -/
theorem of_readsOnly (h : ReadsOnly W p) (hts : ∀ a us rest, ts = us ++ rest → ¬ W a us) : Fails p ts := by
  intro stop
  cases hread : p stop ts with
  | error m => exact ⟨m, rfl⟩
  | ok r =>
    obtain ⟨us, hus, hw⟩ := h stop ts r hread
    exact absurd hw (hts r.value us r.rest hus)

end Fails

namespace Reads

theorem value : Reads (pure a) [] a rest := fun _ => ⟨none, rfl⟩

theorem bind (h : Reads p us a (vs ++ rest)) (h' : Reads (q a) vs b rest) : Reads (p >>= q) (us ++ vs) b rest := by
  intro stop
  obtain ⟨passed, hp⟩ := h stop
  obtain ⟨passed', hq⟩ := h' stop
  refine ⟨Miss.furthest? passed passed', ?_⟩
  rw [List.append_assoc]
  exact (bind_of_ok hp).trans (by rw [hq]; rfl)

theorem cons (h : Reads p [t] a (vs ++ rest)) (h' : Reads (q a) vs b rest) : Reads (p >>= q) (t :: vs) b rest :=
  .bind h h'

theorem map (f : α → β) (h : Reads p us a rest) : Reads (p >>= fun a => pure (f a)) us (f a) rest := by
  have hread : Reads (p >>= fun a => pure (f a)) (us ++ []) (f a) rest := .bind h .value
  rwa [List.append_nil] at hread

theorem symbol (h : t.kind = k) : Reads (symbol k) [t] () rest := by
  intro stop
  refine ⟨none, ?_⟩
  rw [List.singleton_append, ListReader.symbol, if_pos h]

theorem name (h : t.kind ∈ kinds) : Reads (name kinds) [t] t.text rest := by
  intro stop
  refine ⟨none, ?_⟩
  rw [List.singleton_append, ListReader.name, if_pos h]

theorem orElse_left {p p' : ListReader α} (h : Reads p us a rest) : Reads (orElse p p') us a rest := by
  intro stop
  obtain ⟨passed, hp⟩ := h stop
  exact ⟨passed, by rw [ListReader.orElse, hp]⟩

theorem orElse_right {p p' : ListReader α} (hfails : Fails p (us ++ rest)) (h : Reads p' us a rest) :
    Reads (orElse p p') us a rest := by
  intro stop
  obtain ⟨m, hm⟩ := hfails stop
  obtain ⟨passed, hp⟩ := h stop
  exact ⟨passed, by rw [ListReader.orElse, hm, hp]⟩

theorem optional_some (h : Reads p us a rest) : Reads (optional p) us (some a) rest := by
  intro stop
  obtain ⟨passed, hp⟩ := h stop
  exact ⟨passed, by rw [ListReader.optional, hp]⟩

theorem optional_none (hfails : Fails p rest) : Reads (optional p) [] none rest := by
  intro stop
  obtain ⟨m, hm⟩ := hfails stop
  exact ⟨some m, by rw [List.nil_append, ListReader.optional, hm]⟩

end Reads

/-- A token stands behind an item of a list. -/
def EndsItem (t : Token) : Prop := t.kind = .punct .comma ∨ t.kind = .punct .semi

/-- A reader of items reads all that is written so and ends like an item of a list. -/
def ReadsItems (W : α → List Token → Prop) (item : ListReader α) : Prop :=
  ∀ a us t rest, W a us → EndsItem t → Reads item us a (t :: rest)

theorem EndsItem.fails_membersMark (h : EndsItem t) : Fails membersMark (t :: rest) := by
  refine .bind (.symbol fun u hu => ?_)
  cases hu
  obtain h | h := h <;> rw [h] <;> exact nofun

theorem readsItems_packageRef : ReadsItems PackageWritten packageRef := by
  rintro _ _ t rest ⟨u, colons, star, rfl, hu, hcolons, hstar, rfl⟩ -
  exact Reads.cons (.name (List.mem_singleton.mpr hu)) <|
    Reads.cons (.symbol hcolons) <| Reads.cons (.symbol hstar) .value

theorem reads_membersMark (h : MembersWritten us) : Reads membersMark us () rest := by
  obtain ⟨opening, dots, closing, rfl, hopening, hdots, hclosing⟩ := h
  exact Reads.cons (.symbol hopening) <| Reads.cons (.symbol hdots) (.symbol hclosing)

/-- No package is read where a name stands that is not followed by colons. -/
theorem fails_packageRef (h : ∀ u, ts.head? = some u → u.kind ≠ .punct .colonColon) : Fails packageRef (t :: ts) := by
  refine .of_readsOnly .packageRef fun package us rest hts hw => ?_
  obtain ⟨u, colons, star, rfl, -, hcolons, -, -⟩ := hw
  cases hts
  exact h colons rfl hcolons

theorem readsItems_exportItem : ReadsItems ExportItem.Written exportItem := by
  intro item us t rest hwritten ht
  have hnames : ∀ {u : Token}, u.kind = .ident ∨ u.kind = .typeIdent → u.kind ∈ [Kind.ident, .typeIdent] :=
    fun h => by simpa using h
  cases hwritten with
  | @name u hu =>
    refine .orElse_right (Fails.bind (fails_packageRef fun v hv => ?_)) ?_
    · cases hv
      obtain ht | ht := ht <;> rw [ht] <;> exact nofun
    · exact Reads.cons (.name (hnames hu)) <|
        (Reads.optional_none ht.fails_membersMark).map fun mark => ExportItem.name u.text mark.isSome
  | @members u mark hu hmark =>
    refine .orElse_right (Fails.bind (fails_packageRef fun v hv => ?_)) ?_
    · obtain ⟨opening, dots, closing, rfl, hopening, -, -⟩ := hmark
      cases hv
      rw [hopening]
      exact nofun
    · exact Reads.cons (.name (hnames hu)) <|
        (Reads.optional_some (reads_membersMark hmark)).map fun mark => ExportItem.name u.text mark.isSome
  | package hpackage => exact .orElse_left ((readsItems_packageRef _ _ t rest hpackage ht).map ExportItem.package)

/-! ### Whole lists -/

section Rows

variable {item : ListReader α} {as : List α}

/-- A row before a semicolon starts with an item, and the items behind it are read as long as there may be so many. -/
theorem ReadsItems.row (h : ReadsItems W item) (rest : List Token) (hrow : Row W as ts) (ht : t.kind = .punct .semi) :
    ∃ a as' us vs, as = a :: as' ∧ ts = us ++ vs ∧ Reads item us a (vs ++ t :: rest) ∧
      ∀ limit, vs.length ≤ limit → Reads (furtherItems item limit) vs as' (t :: rest) := by
  induction hrow with
  | @one a ts hw =>
    refine ⟨a, [], ts, [], rfl, (List.append_nil ts).symm, h a ts t rest hw (.inr ht), fun limit _ stop => ?_⟩
    cases limit with
    | zero => exact ⟨_, rfl⟩
    | succ limit =>
      have hfails : Fails (nextItem item) (t :: rest) :=
        Fails.bind (.symbol fun u hu => by cases hu; rw [ht]; exact nofun)
      obtain ⟨m, hm⟩ := hfails stop
      exact ⟨_, furtherItems_of_error hm⟩
  | @more a as comma ts us hw hcomma _ ih =>
    obtain ⟨b, as', us₁, vs, rfl, rfl, hitem, hothers⟩ := ih
    refine ⟨a, b :: as', ts, comma :: (us₁ ++ vs), rfl, rfl, h a ts comma _ hw (.inl hcomma),
      fun limit hlimit stop => ?_⟩
    obtain ⟨limit, rfl⟩ : ∃ n, limit = n + 1 := Nat.exists_eq_succ_of_ne_zero (by simp at hlimit; omega)
    have hnext : Reads (nextItem item) (comma :: us₁) b (vs ++ t :: rest) :=
      Reads.cons (.symbol hcomma) hitem
    obtain ⟨passed, hread⟩ := hnext stop
    obtain ⟨passed', hread'⟩ := hothers limit (by simp at hlimit; omega) stop
    refine ⟨Miss.furthest? passed passed', ?_⟩
    rw [List.cons_append, List.append_assoc, ← List.cons_append, furtherItems_of_ok hread, hread']
    rfl

theorem ReadsItems.listOf (h : ReadsItems W item) (hrow : Row W as ts) (ht : t.kind = .punct .semi) :
    Reads (listOf item) ts as (t :: rest) := by
  obtain ⟨a, as', us, vs, rfl, rfl, hitem, hothers⟩ := h.row rest hrow ht
  have hall : Reads (item >>= fun first => furtherItems item (us ++ vs ++ t :: rest).length >>= fun others =>
      pure (first :: others)) (us ++ vs) (a :: as') (t :: rest) :=
    .bind hitem ((hothers _ (by simp; omega)).map (a :: ·))
  exact hall

end Rows

/-- A list behind its first word. -/
def wordedList (word : Keyword) (item : ListReader α) : ListReader (List α) := do
  symbol (.keyword word)
  let items ← listOf item
  symbol (.punct .semi)
  return items

theorem ReadsOnly.wordedList {item : ListReader α} (h : ReadsOnly W item) (word : Keyword) :
    ReadsOnly (ListWritten word W) (wordedList word item) := by
  refine .bind (.symbol _) (V := fun _ as vs => ∃ row semi, vs = row ++ [semi] ∧ Row W as row ∧
    semi.kind = .punct .semi) (fun _ => ?_) ?_
  · refine .bind h.listOf (V := fun as bs vs => as = bs ∧ ∃ semi, vs = [semi] ∧ semi.kind = .punct .semi)
      (fun items => ?_) ?_
    · refine .bind (.symbol _) (fun _ => .value (W := fun bs us => items = bs ∧ us = []) ⟨rfl, rfl⟩) ?_
      rintro - bs - - ⟨semi, rfl, hsemi⟩ ⟨rfl, rfl⟩
      exact ⟨rfl, semi, rfl, hsemi⟩
    · rintro as bs row - hrow ⟨rfl, semi, rfl, hsemi⟩
      exact ⟨row, semi, rfl, hrow, hsemi⟩
  · rintro - as - - ⟨first, rfl, hfirst⟩ ⟨row, semi, rfl, hrow, hsemi⟩
    exact ⟨first, row, semi, rfl, hfirst, hrow, hsemi⟩

theorem ReadsItems.wordedList {item : ListReader α} {word : Keyword} {as : List α} (h : ReadsItems W item)
    (hwritten : ListWritten word W as ts) : Reads (wordedList word item) ts as rest := by
  obtain ⟨first, row, semi, rfl, hfirst, hrow, hsemi⟩ := hwritten
  exact Reads.cons (.symbol hfirst) <|
    .bind (h.listOf hrow hsemi) (Reads.cons (.symbol hsemi) .value)

/-- Tokens are read as a whole exactly if they are written as what is read. -/
theorem run_iff (honly : ReadsOnly W p) (hall : ∀ a us, W a us → Reads p us a []) (stop : Nat) (ts : List Token)
    (a : α) : p.run stop ts = .ok a ↔ W a ts := by
  constructor
  · intro h
    obtain ⟨r, hread, hvalue, hrest⟩ := run_eq_ok h
    obtain ⟨us, hts, hw⟩ := honly stop ts r hread
    rw [hts, hrest, List.append_nil]
    exact hvalue ▸ hw
  · intro hw
    obtain ⟨passed, hread⟩ := hall a ts hw stop
    rw [List.append_nil] at hread
    rw [ListReader.run, bind_of_ok hread]
    rfl

theorem run_exportItems (stop : Nat) (ts : List Token) (items : List ExportItem) :
    exportItems.run stop ts = .ok items ↔ ListWritten .export_ ExportItem.Written items ts :=
  run_iff (ReadsOnly.exportItem.wordedList .export_) (fun _ _ hw => readsItems_exportItem.wordedList hw) stop ts items

theorem run_importedPackages (stop : Nat) (ts : List Token) (packages : List String) :
    importedPackages.run stop ts = .ok packages ↔ ListWritten .import_ PackageWritten packages ts :=
  run_iff (ReadsOnly.packageRef.wordedList .import_) (fun _ _ hw => readsItems_packageRef.wordedList hw) stop ts
    packages

end ListReader

/-! ## Export and import lists -/

namespace Parser

/-- Moves the cursor past every token that starts before an offset. -/
def State.skipUntil (s : State) (offset : Nat) : State :=
  s.advance (s.rest.takeWhile fun t => t.span.start < offset).length

/-- A declaration is read from a list that comes next exactly if the list is written as one; else there is one
diagnostic and nothing more.  Either way the cursor stands behind the list. -/
def ListReadAsWritten (kind : NodeKind) (Written : α → List Token → Prop) (make : α → Span → β)
    (p : Parser β) (c : Setting) (s : State) : Prop :=
  ∃ slice rest, s.rest = slice ++ rest ∧ slice.length = Extent.nameList s.rest ∧ Token.NameSlice slice rest ∧
    s.skipUntil (Token.cover slice).stop = { s with consumed := slice.reverse ++ s.consumed, rest := rest } ∧
    ((∃ names, Written names slice ∧ p c s = (some (make names (Token.cover slice)),
        { s with consumed := slice.reverse ++ s.consumed, rest := rest,
                 nodes := ⟨kind, Token.cover slice⟩ :: s.nodes })) ∨
      (∀ names, ¬ Written names slice) ∧ ∃ d, p c s = (none,
        { s with consumed := slice.reverse ++ s.consumed, rest := rest, diagnostics := d :: s.diagnostics }))

theorem State.advance_slice {s : State} {slice rest : List Token} (h : s.rest = slice ++ rest) :
    s.advance slice.length = { s with consumed := slice.reverse ++ s.consumed, rest := rest } := by
  obtain ⟨cs, ts, ds, ns⟩ := s
  obtain rfl : ts = slice ++ rest := h
  exact State.advance_length cs slice rest ds ns

theorem listSpan_of_slice {c : Setting} {s : State} {slice rest : List Token} (h : s.rest = slice ++ rest)
    (hlength : slice.length = Extent.nameList s.rest) (hne : slice ≠ []) : listSpan c s = Token.cover slice := by
  have hstart : (s.peekSpan c).start = (Token.cover slice).start := by
    obtain ⟨t, us, rfl⟩ := List.exists_cons_of_ne_nil hne
    rw [State.peekSpan, h]
    rfl
  have hstop : lastStop (slice.reverse ++ s.consumed) = (Token.cover slice).stop := by
    rw [lastStop_reverse_append hne s.consumed [], List.append_nil, lastStop, List.head?_reverse]
    rfl
  rw [listSpan, hstart, ← hlength, State.advance_slice h]
  exact congrArg (Span.mk _) hstop

theorem listDecl_readAsWritten {reader : ListReader α} {Written : α → List Token → Prop}
    (hreader : ∀ stop ts names, reader.run stop ts = .ok names ↔ Written names ts) (kind : NodeKind)
    (make : α → Span → β) (c : Setting) {s : State} (hordered : Token.Ordered s.rest) (hne : s.rest ≠ []) :
    ListReadAsWritten kind Written make (listDecl reader kind make) c s := by
  obtain ⟨slice, rest, hsplit, hlength, hslice⟩ := Token.exists_nameSlice hne
  have hwhole : Token.Ordered (slice ++ rest) := hsplit ▸ hordered
  have hbehind := State.advance_slice hsplit
  have hspan : listSpan c s = Token.cover slice := listSpan_of_slice hsplit hlength hslice.nonempty
  have htake : s.rest.take (Extent.nameList s.rest) = slice := by rw [← hlength, hsplit, List.take_left]
  refine ⟨slice, rest, hsplit, hlength, hslice, ?_, ?_⟩
  · rw [State.skipUntil, hsplit, hwhole.takeWhile_cover hslice.nonempty, hbehind]
  · rw [listDecl, bind_apply, nameList_eq, hspan, htake]
    cases hrun : reader.run (Token.cover slice).stop slice with
    | ok names =>
      refine .inl ⟨names, (hreader _ _ _).mp hrun, ?_⟩
      rw [listOutcome, hspan, ← hlength, hbehind, State.record, hwhole.left.cover_nonempty hslice.nonempty]
      rfl
    | error m =>
      have hnone : ∀ names, ¬ Written names slice := fun names hwritten => by
        rw [(hreader _ _ _).mpr hwritten] at hrun
        cases hrun
      refine .inr ⟨hnone, m.diagnostic, ?_⟩
      rw [listOutcome, ← hlength, hbehind]
      rfl

/-- Wherever an export or import list comes next, it is read exactly if it is written as one.  The tokens of a source
are always ordered (`Token.ordered_significant`). -/
theorem lists_read_as_written (c : Setting) (s : State) (hordered : Token.Ordered s.rest) :
    (s.peek = some (.keyword .export_) →
      ListReadAsWritten .exportDecl (ListWritten .export_ ExportItem.Written) ExportDecl.mk exportDecl c s) ∧
    (s.peek = some (.keyword .import_) →
      ListReadAsWritten .importDecl (ListWritten .import_ PackageWritten) ImportDecl.mk importDecl c s) := by
  have hne : ∀ {k : Kind}, s.peek = some k → s.rest ≠ [] := fun hpeek hnil => by
    rw [State.peek, hnil] at hpeek
    cases hpeek
  constructor
  · exact fun h => listDecl_readAsWritten ListReader.run_exportItems .exportDecl ExportDecl.mk c hordered (hne h)
  · exact fun h => listDecl_readAsWritten ListReader.run_importedPackages .importDecl ImportDecl.mk c hordered (hne h)

theorem lists_read_as_written_lines :
    Token.Ordered (Token.significant "export Foo::*, bar(..);") ∧ Token.Ordered (Token.significant "import Foo") ∧
      ListReadAsWritten .exportDecl (ListWritten .export_ ExportItem.Written) ExportDecl.mk exportDecl ⟨23, .collectAll⟩
        (.start (Token.significant "export Foo::*, bar(..);")) ∧
      ListReadAsWritten .importDecl (ListWritten .import_ PackageWritten) ImportDecl.mk importDecl ⟨10, .collectAll⟩
        (.start (Token.significant "import Foo")) :=
  ⟨Token.ordered_significant _, Token.ordered_significant _,
    (lists_read_as_written _ _ (Token.ordered_significant _)).1 rfl,
    (lists_read_as_written _ _ (Token.ordered_significant _)).2 rfl⟩

end Parser

end Bluespec
