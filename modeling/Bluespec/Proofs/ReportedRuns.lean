import Bluespec.Proofs.GivenTokens
import Bluespec.Proofs.LoopProgress

/-!
# Runs that report

What a run over given tokens comes to where something is at fault: whether it yields a value, and which diagnostics
there are behind it.

* **`Parser.ComesTo`** — what a run over given tokens comes to, with one rule for each way to put parsers together.
* **`Parser.missing`** — the report that a token is missing in front of others.
* **`Parser.Stays`** — places where nothing is skipped after a failure.
* **`Parser.Loops`** — a loop over items reads on over given tokens; `Loops.read` and `Loops.failed` are its rounds.
-/

namespace Bluespec.Parser

variable {α β : Type} {c : Setting} {p : Parser α} {f : α → Parser β} {a : α} {r : Option β}
  {cs ts us rest : List Token} {t : Token} {ds ds₁ ds' : List Diagnostic}

/-- Over the tokens `ts`, in front of `rest`, the parser comes to `r`; the diagnostics are `ds` before and `ds'`
behind them. -/
def ComesTo (c : Setting) (p : Parser α) (cs ts : List Token) (ds : List Diagnostic) (r : Option α)
    (ds' : List Diagnostic) (rest : List Token) : Prop :=
  ∀ ns, ∃ ns', p c ⟨cs, ts ++ rest, ds, ns⟩ = (r, ⟨ts.reverse ++ cs, rest, ds', ns'⟩)

namespace ComesTo

theorem of_goes (h : Goes p cs ts a rest) : ComesTo c p cs ts [] (some a) [] rest := h c

theorem value : ComesTo c (pure a) cs [] ds (some a) ds rest := fun ns => ⟨ns, rfl⟩

/-- A parser that yields a value, and the one that depends on it. -/
theorem bind (h : ComesTo c p cs ts ds (some a) ds₁ (us ++ rest))
    (h' : ComesTo c (f a) (ts.reverse ++ cs) us ds₁ r ds' rest) : ComesTo c (p >>= f) cs (ts ++ us) ds r ds' rest := by
  intro ns
  obtain ⟨ns₁, hp⟩ := h ns
  obtain ⟨ns', hf⟩ := h' ns₁
  exact ⟨ns', by rw [List.append_assoc, bind_of_some hp, hf, List.reverse_append, List.append_assoc]⟩

/-- A parser that yields a value, and one that reads nothing more. -/
theorem then_ (h : ComesTo c p cs ts ds (some a) ds₁ rest) (h' : ComesTo c (f a) (ts.reverse ++ cs) [] ds₁ r ds' rest) :
    ComesTo c (p >>= f) cs ts ds r ds' rest := by
  have hboth : ComesTo c (p >>= f) cs (ts ++ []) ds r ds' rest := h.bind h'
  rwa [List.append_nil] at hboth

/-- A parser of one token, and one of the tokens after it. -/
theorem cons (h : ComesTo c p cs [t] ds (some a) ds₁ (ts ++ rest)) (h' : ComesTo c (f a) (t :: cs) ts ds₁ r ds' rest) :
    ComesTo c (p >>= f) cs (t :: ts) ds r ds' rest := by
  have hboth : ComesTo c (p >>= f) cs ([t] ++ ts) ds r ds' rest := h.bind h'
  exact hboth

/-- A parser that fails is followed by nothing. -/
theorem failed (h : ComesTo c p cs ts ds none ds' rest) : ComesTo c (p >>= f) cs ts ds none ds' rest := by
  intro ns
  obtain ⟨ns', hp⟩ := h ns
  exact ⟨ns', bind_of_none hp⟩

/-- A parser that only looks, and then another one. -/
theorem look (h : ∀ ns, p c ⟨cs, ts ++ rest, ds, ns⟩ = (some a, ⟨cs, ts ++ rest, ds, ns⟩))
    (h' : ComesTo c (f a) cs ts ds r ds' rest) : ComesTo c (p >>= f) cs ts ds r ds' rest := by
  intro ns
  obtain ⟨ns', hf⟩ := h' ns
  exact ⟨ns', by rw [bind_of_some (h ns), hf]⟩

theorem offset {f : Nat → Parser β} (h : ComesTo c (f t.span.start) cs (t :: ts) ds r ds' rest) :
    ComesTo c (offset >>= f) cs (t :: ts) ds r ds' rest := .look (fun _ => rfl) h

theorem peek {f : Option Kind → Parser β} (h : ComesTo c (f (some t.kind)) cs (t :: ts) ds r ds' rest) :
    ComesTo c (peek >>= f) cs (t :: ts) ds r ds' rest := .look (fun _ => rfl) h

theorem skipAttributes {f : Unit → Parser β} (hlacks : Lacks (.punct .attrOpen) (ts ++ rest))
    (h : ComesTo c (f ()) cs ts ds r ds' rest) : ComesTo c (skipAttributes >>= f) cs ts ds r ds' rest :=
  .look (fun _ => Confined.skipAttributes_of_lacks hlacks) h

theorem skip : ComesTo c skip cs [t] ds (some ()) ds rest := fun ns => ⟨ns, rfl⟩

theorem expectKeyword {word : Keyword} (h : t.kind = .keyword word) :
    ComesTo c (expectKeyword word) cs [t] ds (some ()) ds rest := fun ns => ⟨ns, expectKeyword_of_kind h⟩

theorem accept {k : Kind} (h : t.kind = k) : ComesTo c (accept k) cs [t] ds (some true) ds rest :=
  fun ns => ⟨ns, accept_of_kind h⟩

theorem accept_of_lacks {k : Kind} (h : Lacks k rest) : ComesTo c (Parser.accept k) cs [] ds (some false) ds rest :=
  fun ns => ⟨ns, accept_of_head h⟩

theorem noLabel (h : Lacks (.punct .colon) rest) : ComesTo c label cs [] ds (some none) ds rest :=
  (accept_of_lacks h).then_ .value

/-- A declaration is recorded, whatever its span is. -/
theorem record {kind : NodeKind} {span : Span} : ComesTo c (record kind span) cs [] ds (some ()) ds rest := by
  intro ns
  obtain ⟨ns', hrecord⟩ := State.record_eq ⟨cs, rest, ds, ns⟩ kind span
  exact ⟨ns', congrArg (some (), ·) hrecord⟩

theorem spanFrom {start : Nat} :
    ComesTo c (spanFrom start) cs [] ds (some (State.spanFrom ⟨cs, rest, ds, []⟩ start)) ds rest := fun ns => ⟨ns, rfl⟩

end ComesTo

/-! ## What is missing -/

/-- The report that a token of a kind is missing in front of others. -/
def missing (c : Setting) (k : Kind) (rest : List Token) : Diagnostic :=
  ⟨.grammar (.expected (.kind k) (rest.head?.map Token.kind)), (rest.head?.map Token.span).getD (.point c.sourceEnd)⟩

namespace ComesTo

theorem expect_missing {k : Kind} (h : Lacks k rest) :
    ComesTo c (expect k) cs [] ds none (missing c k rest :: ds) rest := by
  intro ns
  refine ⟨ns, ?_⟩
  cases rest with
  | nil => rfl
  | cons t ts =>
    have heat : eat k c ⟨cs, t :: ts, ds, ns⟩ = (some none, ⟨cs, t :: ts, ds, ns⟩) := if_neg (h t rfl)
    rw [List.nil_append, expect, bind_of_some heat]
    rfl

theorem expectKeyword_missing {word : Keyword} (h : Lacks (.keyword word) rest) :
    ComesTo c (Parser.expectKeyword word) cs [] ds none (missing c (.keyword word) rest :: ds) rest :=
  (expect_missing h).failed

/-- The closing word of a definition without a label. -/
theorem ending {word : Keyword} {kind : NodeKind} {start : Nat} (h : t.kind = .keyword word)
    (hrest : Lacks (.punct .colon) rest) :
    ∃ span, ComesTo c (Grammar.ending word kind start) cs [t] ds (some (none, span)) ds rest :=
  ⟨_, .cons (expectKeyword h) ((noLabel hrest).then_ (spanFrom.then_ (record.then_ value)))⟩

theorem ending_missing {word : Keyword} {kind : NodeKind} {start : Nat} (h : Lacks (.keyword word) rest) :
    ComesTo c (Grammar.ending word kind start) cs [] ds none (missing c (.keyword word) rest :: ds) rest :=
  (expectKeyword_missing h).failed

end ComesTo

/-! ## Loops over items -/

/-- Nothing is skipped behind the tokens `cs`, the last one first, and in front of `rest`: what stands there is the end
of a statement, or a place to read on. -/
def Stays (cs rest : List Token) : Prop := endsAtBoundary cs = true ∨ Extent.recovery true 0 rest = 0

/-- What ends a statement ends one whatever stands in front of it. -/
theorem endsAtBoundary_append (h : endsAtBoundary ts = true) (cs : List Token) : endsAtBoundary (ts ++ cs) = true := by
  have hname : ∀ {last : Token}, (last.kind == .punct .semi || last.kind.isCloser) = true →
      ¬ (last.kind = .ident ∨ last.kind = .typeIdent) := by
    rintro last hends (hk | hk) <;> rw [hk] at hends <;> cases hends
  match ts, cs with
  | [_], [] | [_], [_] | [_, _], [] | _ :: _ :: _ :: _, _ => exact h
  | [_], _ :: _ :: _ | [_, _], _ :: _ => exact (if_neg fun hlabel => hname h hlabel.2).trans h

theorem Stays.closing (h : Closing rest) : Stays cs rest := by
  refine .inr ?_
  cases rest with
  | nil => rfl
  | cons t ts => exact if_pos ⟨rfl, .inl (h t rfl)⟩

/-- Where nothing is skipped reading resumes at once. -/
theorem ComesTo.resuming_failed (h : ComesTo c p cs (t :: ts) ds none ds' rest)
    (hstays : Stays ((t :: ts).reverse ++ cs) rest) : ComesTo c (resuming p) cs (t :: ts) ds (some none) ds' rest := by
  intro ns
  obtain ⟨ns', hp⟩ := h ns
  refine ⟨ns', ?_⟩
  rw [resuming, hp]
  refine congrArg (Prod.mk (some none)) ?_
  unfold resumeState
  split
  · next hskip =>
    have hmoved : rest.length ≠ (t :: ts ++ rest).length := by
      rw [List.length_append, List.length_cons]
      omega
    have hend : ¬ endsAtBoundary ((t :: ts).reverse ++ cs) = true := by
      rw [Bool.not_eq_true]
      exact (Bool.not_eq_true' _).mp (hskip.resolve_left hmoved)
    rw [hstays.resolve_left hend]
    rfl
  · rfl

theorem ComesTo.resuming (h : ComesTo c p cs ts ds (some a) ds' rest) :
    ComesTo c (resuming p) cs ts ds (some (some a)) ds' rest := by
  intro ns
  obtain ⟨ns', hp⟩ := h ns
  exact ⟨ns', by rw [Parser.resuming, hp]⟩

theorem itemsUpTo_of_itemRounds {item : Parser α} {s : State} {out : List α × State} (h : ItemRounds item c s out)
    {limit : Nat} (hlimit : s.rest.length < limit) : itemsUpTo item limit c s = (some out.1, out.2) := by
  induction h generalizing limit with
  | stop hstop =>
    obtain ⟨limit, rfl⟩ := Nat.exists_eq_add_one.mpr (Nat.zero_lt_of_lt hlimit)
    rw [itemsUpTo_succ, if_pos (Bool.or_eq_true_iff.mpr hstop)]
    rfl
  | round hopen hruns h hbeyond _ ih =>
    obtain ⟨limit, rfl⟩ := Nat.exists_eq_add_one.mpr (Nat.zero_lt_of_lt hlimit)
    obtain ⟨taken, hne, hrest, -⟩ := hbeyond
    have hpos := List.length_pos_iff.mpr hne
    rw [hrest, List.length_append] at hlimit
    rw [itemsUpTo_succ, hopen, hruns, Bool.or_self, if_neg Bool.false_ne_true, bind_of_some h,
      bind_of_some (ih (by omega))]
    rfl

/-- The loop over items reads on over the tokens `ts`, in front of `rest`: it has the items `as` behind them, and the
diagnostics `ds'` where there were `ds`. -/
def Loops (c : Setting) (item : Parser α) (cs ts : List Token) (ds : List Diagnostic) (as : List α)
    (ds' : List Diagnostic) (rest : List Token) : Prop :=
  ∀ ns, ∃ ns', ∀ others s', ItemRounds item c ⟨ts.reverse ++ cs, rest, ds', ns'⟩ (others, s') →
    ItemRounds item c ⟨cs, ts ++ rest, ds, ns⟩ (as ++ others, s')

/-- Reading goes on where problems have been reported, if all of them are wanted. -/
def Setting.GoesOn (c : Setting) (ds : List Diagnostic) : Prop := c.recovery = .collectAll ∨ ds = []

theorem Setting.GoesOn.halts {ns : List NodeSpan} (h : c.GoesOn ds) : State.halts c ⟨cs, ts, ds, ns⟩ = false := by
  rcases h with h | h
  · exact halts_of_collectAll h _
  · exact halts_of_clean h

namespace Loops

variable {item : Parser α} {as bs : List α}

theorem nil : Loops c item cs [] ds [] ds rest := fun ns => ⟨ns, fun _ _ h => h⟩

theorem append (h : Loops c item cs ts ds as ds₁ (us ++ rest)) (h' : Loops c item (ts.reverse ++ cs) us ds₁ bs ds' rest) :
    Loops c item cs (ts ++ us) ds (as ++ bs) ds' rest := by
  intro ns
  obtain ⟨ns₁, hfirst⟩ := h ns
  obtain ⟨ns', hothers⟩ := h' ns₁
  refine ⟨ns', fun others s' hlater => ?_⟩
  rw [List.reverse_append, List.append_assoc] at hlater
  rw [List.append_assoc, List.append_assoc]
  exact hfirst _ _ (hothers _ _ hlater)

/-- One round, which reads an item or resumes behind one that has failed. -/
theorem round {read : Option α} (hgo : c.GoesOn ds) (hopen : t.kind.isCloser = false)
    (h : ComesTo c (resuming item) cs (t :: ts) ds (some read) ds' rest) :
    Loops c item cs (t :: ts) ds read.toList ds' rest := by
  intro ns
  obtain ⟨ns', hrun⟩ := h ns
  refine ⟨ns', fun others s' hlater => ItemRounds.round hopen hgo.halts hrun ?_ hlater⟩
  exact ⟨t :: ts, List.cons_ne_nil t ts, rfl, rfl⟩

/-- One item that is read. -/
theorem read (hgo : c.GoesOn ds) (hopen : t.kind.isCloser = false) (h : ComesTo c item cs (t :: ts) ds (some a) ds' rest) :
    Loops c item cs (t :: ts) ds [a] ds' rest := round hgo hopen h.resuming

/-- One item that fails, at a place where nothing is skipped. -/
theorem failed (hgo : c.GoesOn ds) (hopen : t.kind.isCloser = false) (h : ComesTo c item cs (t :: ts) ds none ds' rest)
    (hstays : Stays ((t :: ts).reverse ++ cs) rest) : Loops c item cs (t :: ts) ds [] ds' rest :=
  round hgo hopen (h.resuming_failed hstays)

/-- A loop ends in front of a closing word. -/
theorem items (h : Loops c item cs ts ds as ds' rest) (hrest : Closing rest) :
    ComesTo c (items item) cs ts ds (some as) ds' rest := by
  intro ns
  obtain ⟨ns', hrounds⟩ := h ns
  have hall := hrounds [] _ (.stop (.inl (Confined.atCloser_iff.mpr hrest)))
  rw [List.append_nil] at hall
  exact ⟨ns', itemsUpTo_of_itemRounds hall (Nat.lt_succ_self _)⟩

end Loops

/-- Items that are all read. -/
theorem Goes.items {item : Parser α} {as : List α} (h : ∀ c, Loops c item cs ts [] as [] rest) (hrest : Closing rest) :
    Goes (items item) cs ts as rest := fun c => (h c).items hrest

end Bluespec.Parser
