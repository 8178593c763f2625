import Bluespec.Proofs.ConfinedBodies
import Bluespec.Proofs.Windows

/-!
# Runs in front of a colon

A closing word takes a colon behind it for its label.  A run that reads all tokens and ends with another token is the
same run where a colon follows; one that ends with a closing word reports a label that is missing.

* **`endsClosed`** — the last of some tokens is a closing word; **`AtColon`** — a colon comes next, and no name behind it.
* **`BeforeColon`** — every run without diagnostics up to the last token is the same before a colon, or reports it.
* **`EndsOpen`** — a parser whose last token is no closing word.
-/

namespace Bluespec

open Bluespec.Parser

/-- The last of some tokens is a closing word. -/
def endsClosed (ts : List Token) : Bool := ts.getLast?.any fun t => t.kind.isCloser

theorem endsClosed_append {ts ts' : List Token} (h : ts' ≠ []) : endsClosed (ts ++ ts') = endsClosed ts' := by
  rw [endsClosed, endsClosed, List.getLast?_append, List.getLast?_eq_some_getLast h]
  rfl

/-- A colon comes next, and no name behind it. -/
def AtColon (rest : List Token) : Prop :=
  ∃ colon ts, rest = colon :: ts ∧ colon.kind = .punct .colon ∧ Lacks .ident ts ∧ Lacks .typeIdent ts

theorem AtColon.lacks {rest : List Token} (h : AtColon rest) {k : Kind} (hk : k ≠ .punct .colon) : Lacks k rest := by
  obtain ⟨colon, ts, rfl, hcolon, -, -⟩ := h
  rintro t ⟨⟩ rfl
  exact hk hcolon

namespace Parser

variable {α β : Type}

/-- The token read last is the last one of those that have been read. -/
theorem State.Took.endsClosed {s s' : State} {ts : List Token} (h : s.Took ts s')
    (hlast : ∀ t ∈ s'.consumed.head?, t.kind.isCloser = false) : endsClosed ts = false := by
  cases hts : ts.getLast? with
  | none => rw [Bluespec.endsClosed, hts]; rfl
  | some t =>
    rw [Bluespec.endsClosed, hts]
    exact hlast t (by rw [h.consumed, List.head?_append, List.head?_reverse, hts]; rfl)

/-! ## Reports -/

/-- Over given tokens the parser ends with a diagnostic. -/
def Trips (p : Parser α) (cs ts : List Token) : Prop := ∀ c ns, (p c ⟨cs, ts, [], ns⟩).2.diagnostics ≠ []

namespace Trips

variable {p : Parser α} {f : α → Parser β} {a : α} {cs ts rest : List Token}

/-- What comes after a report does not take it back. -/
theorem bind (h : Trips p cs ts) (hf : ∀ a, Moving (f a)) : Trips (p >>= f) cs ts := by
  intro c ns
  have hdirty := h c ns
  rw [bind_apply]
  rcases hrun : p c ⟨cs, ts, [], ns⟩ with ⟨_ | a, s'⟩
  · rw [hrun] at hdirty
    exact hdirty
  · rw [hrun] at hdirty
    exact (hf a c s').dirty hdirty

/-- A report behind tokens that have been read. -/
theorem after (h : Goes p cs ts a rest) (hf : Trips (f a) (ts.reverse ++ cs) rest) : Trips (p >>= f) cs (ts ++ rest) := by
  intro c ns
  obtain ⟨ns', hgo⟩ := h c ns
  rw [bind_of_some hgo]
  exact hf c ns'

end Trips

/-- A run over the tokens `ts` in front of a colon: it yields `a`, or the last token is a closing word and takes the
colon for its label. -/
structure ColonOutcome (p : Parser α) (cs ts : List Token) (a : α) (rest : List Token) : Prop where
  goes : endsClosed ts = false → Goes p cs ts a rest
  trips : endsClosed ts = true → Trips p cs (ts ++ rest)

namespace ColonOutcome

variable {p : Parser α} {f : α → Parser β} {a : α} {b : β} {cs ts ts' rest : List Token}

/-- The same where another parser goes on in this way behind some tokens. -/
theorem behind {q : Parser α} (heq : ∀ c ns, ∃ ns', p c ⟨cs, ts ++ (ts' ++ rest), [], ns⟩ =
    q c ⟨ts.reverse ++ cs, ts' ++ rest, [], ns'⟩) (h : ColonOutcome q (ts.reverse ++ cs) ts' a rest) (hne : ts' ≠ []) :
    ColonOutcome p cs (ts ++ ts') a rest where
  goes hopen c ns := by
    obtain ⟨ns₁, hrun⟩ := heq c ns
    obtain ⟨ns₂, hgo⟩ := h.goes (endsClosed_append hne ▸ hopen) c ns₁
    refine ⟨ns₂, ?_⟩
    rw [List.append_assoc, hrun, hgo, List.reverse_append, List.append_assoc]
  trips hclosed c ns := by
    obtain ⟨ns₁, hrun⟩ := heq c ns
    rw [List.append_assoc, hrun]
    exact h.trips (endsClosed_append hne ▸ hclosed) c ns₁

/-- The second parser reads on. -/
theorem after (h : Goes p cs ts a (ts' ++ rest)) (h' : ColonOutcome (f a) (ts.reverse ++ cs) ts' b rest) (hne : ts' ≠ []) :
    ColonOutcome (p >>= f) cs (ts ++ ts') b rest :=
  h'.behind (fun c ns => (h c ns).imp fun _ hgo => bind_of_some hgo) hne

/-- The second parser reads nothing. -/
theorem unread (h : ColonOutcome p cs ts a rest) (hf : ∀ a, Moving (f a)) (h' : Goes (f a) (ts.reverse ++ cs) [] b rest) :
    ColonOutcome (p >>= f) cs ts b rest where
  goes hopen := by
    have hboth : Goes (p >>= f) cs (ts ++ []) b rest := (h.goes hopen).bind h'
    rw [List.append_nil] at hboth
    exact hboth
  trips hclosed := (h.trips hclosed).bind hf

/-- A round that asks for another one. -/
theorem again (h : ColonOutcome p cs ts a rest) :
    ColonOutcome (p >>= fun a => pure (Round.again a : Round α β)) cs ts (.again a) rest :=
  h.unread (fun _ => .value _) .value

/-- The same where another parser does the same over these tokens. -/
theorem congr {p' : Parser α} (h : ColonOutcome p cs ts a rest)
    (heq : ∀ c ns, p' c ⟨cs, ts ++ rest, [], ns⟩ = p c ⟨cs, ts ++ rest, [], ns⟩) : ColonOutcome p' cs ts a rest where
  goes hopen c ns := by
    rw [heq]
    exact h.goes hopen c ns
  trips hclosed c ns := by
    rw [heq]
    exact h.trips hclosed c ns

/-- A parser that only looks, and another one. -/
theorem look (h : ∀ c ns, p c ⟨cs, ts ++ rest, [], ns⟩ = (some a, ⟨cs, ts ++ rest, [], ns⟩))
    (h' : ColonOutcome (f a) cs ts b rest) : ColonOutcome (p >>= f) cs ts b rest :=
  h'.congr fun c ns => bind_of_some (h c ns)

end ColonOutcome

/-! ## Labels -/

/-- A colon and a name are a label, whatever follows. -/
theorem goes_label {colon name : Token} (hcolon : colon.kind = .punct .colon)
    (hname : name.kind = .ident ∨ name.kind = .typeIdent) (cs rest : List Token) :
    Goes label cs [colon, name] (some ⟨name.text, name.span⟩) rest := by
  intro c ns
  refine ⟨ns, (bind_of_some (accept_of_kind hcolon)).trans ?_⟩
  rcases hname with hname | hname
  · exact bind_of_some (eat_of_kind hname)
  · have hident : eat .ident c ⟨colon :: cs, name :: rest, [], ns⟩ = (some none, ⟨colon :: cs, name :: rest, [], ns⟩) :=
      if_neg (by rw [hname]; exact nofun)
    exact (bind_of_some hident).trans (bind_of_some (eat_of_kind hname))

/-- A colon that no name follows is reported. -/
theorem label_dirty {c : Setting} {s : State} (h : AtColon s.rest) : (label c s).2.diagnostics ≠ [] := by
  obtain ⟨cs, rest, ds, ns⟩ := s
  obtain ⟨colon, ts, hrest, hcolon, hident, htype⟩ := h
  obtain rfl : rest = colon :: ts := hrest
  have hnone : ∀ {k}, Lacks k ts → eat k c ⟨colon :: cs, ts, ds, ns⟩ = (some none, ⟨colon :: cs, ts, ds, ns⟩) := by
    intro k hk
    rcases Confined.eat_cases k c ⟨colon :: cs, ts, ds, ns⟩ with ⟨t, us, hrest, ht, -⟩ | ⟨-, heat⟩
    · obtain rfl : ts = t :: us := hrest
      exact absurd ht (hk t rfl)
    · exact heat
  have hlabel : label c ⟨cs, colon :: ts, ds, ns⟩ =
      (reportExpected .label >>= fun _ => pure none) c ⟨colon :: cs, ts, ds, ns⟩ :=
    (bind_of_some (accept_of_kind hcolon)).trans ((bind_of_some (hnone hident)).trans (bind_of_some (hnone htype)))
  rw [hlabel]
  exact List.cons_ne_nil _ _

/-- Without diagnostics a label is none, or a colon and a name. -/
theorem label_cases {c : Setting} {s s' : State} {l : Option Label} (h : label c s = (some l, s'))
    (hclean : s'.diagnostics = []) : s' = s ∨ ∃ colon name, s.Took [colon, name] s' ∧
      (name.kind = .ident ∨ name.kind = .typeIdent) ∧ ∀ cs rest, Goes label cs [colon, name] l rest := by
  obtain ⟨cs, rest, ds, ns⟩ := s
  rcases Confined.eat_cases (.punct .colon) c ⟨cs, rest, ds, ns⟩ with ⟨colon, ts, hrest, hcolon, -⟩ | ⟨hlacks, -⟩
  case inr =>
    rw [label, bind_of_some (accept_of_head hlacks)] at h
    cases h
    exact .inl rfl
  obtain rfl : rest = colon :: ts := hrest
  by_cases hname : ∃ name us, ts = name :: us ∧ (name.kind = .ident ∨ name.kind = .typeIdent)
  · obtain ⟨name, us, rfl, hname⟩ := hname
    obtain rfl : ds = [] := (Moving.label.of_run h).clean hclean
    obtain ⟨ns', hgo⟩ := goes_label hcolon hname cs us c ns
    obtain ⟨hl, rfl⟩ := Prod.mk.inj (h.symm.trans hgo)
    exact .inr ⟨colon, name, ⟨rfl, rfl⟩, hname, fun cs rest => Option.some.inj hl ▸ goes_label hcolon hname cs rest⟩
  · have hnext : AtColon (colon :: ts) := by
      cases ts with
      | nil => exact ⟨colon, [], rfl, hcolon, by rintro _ ⟨⟩, by rintro _ ⟨⟩⟩
      | cons t us =>
        refine ⟨colon, t :: us, rfl, hcolon, ?_, ?_⟩
        · rintro t' ⟨⟩ hk
          exact hname ⟨t, us, rfl, .inl hk⟩
        · rintro t' ⟨⟩ hk
          exact hname ⟨t, us, rfl, .inr hk⟩
    have hdirty := label_dirty (c := c) (s := ⟨cs, colon :: ts, ds, ns⟩) hnext
    rw [h] at hdirty
    exact absurd hclean hdirty

/-! ## Parsers in front of a colon -/

/-- Every run without diagnostics that ends with the last token has its outcome in front of a colon.  The parameters are
those of confined parsers. -/
structure BeforeColon (tokens : List Token) (n : Nat) (H : Option Kind → Prop) (r u : Bool) (p : Parser α) : Prop where
  moves : Moving p
  runs : ∀ c s a s', Starts tokens n H s → p c s = (some a, s') → s'.diagnostics = [] → s'.rest = [] →
    (∀ t ∈ s.rest.head?, t.kind.isCommon = true) ∧ (r = true → s.rest ≠ []) ∧
      ∀ cs rest, (u = true → lastStop cs = lastStop s.consumed) → AtColon rest → ColonOutcome p cs s.rest a rest

/-- Every value is yielded behind a token that is no closing word, if the kind of the next token is known. -/
def EndsOpen (H : Option Kind → Prop) (p : Parser α) : Prop :=
  ∀ c s a s', H s.peek → p c s = (some a, s') → ∀ t ∈ s'.consumed.head?, t.kind.isCloser = false

namespace EndsOpen

variable {H : Option Kind → Prop} {p : Parser α} {f : α → Parser β}

theorem last (hf : ∀ a, EndsOpen any (f a)) : EndsOpen H (p >>= f) := by
  intro c s b s' _ hrun
  obtain ⟨a, s₁, -, hrun⟩ := bind_eq_some.mp hrun
  exact hf a c s₁ b s' trivial hrun

/-- What comes after it does not read on. -/
theorem still (hp : EndsOpen H p) (hf : ∀ a, Still (f a)) : EndsOpen H (p >>= f) := by
  intro c s b s' hhead hrun
  obtain ⟨a, s₁, hrun₁, hrun₂⟩ := bind_eq_some.mp hrun
  have hstill := hf a c s₁
  rw [hrun₂] at hstill
  rw [hstill.1]
  exact hp c s a s₁ hhead hrun₁

theorem skip {k : Kind} (hk : k.isCloser = false) : EndsOpen (· = some k) skip := by
  intro c s a s' hhead hrun
  obtain ⟨cs, rest, ds, ns⟩ := s
  cases rest with
  | nil => cases hhead
  | cons t ts =>
    cases hrun
    rintro t' ⟨⟩
    rw [Option.some.inj hhead]
    exact hk

/-- What comes after it reads on if a token comes next. -/
theorem isNext {k : Kind} {f : α → Bool → Parser β} (hp : EndsOpen H p) (htrue : ∀ a, EndsOpen any (f a true))
    (hfalse : ∀ a, Still (f a false)) : EndsOpen H (p >>= fun a => isNext k >>= f a) := by
  intro c s b s' hhead hrun
  obtain ⟨a, s₁, hrun₁, hrun⟩ := bind_eq_some.mp hrun
  obtain ⟨found, s₂, hnext, hrun₂⟩ := bind_eq_some.mp hrun
  obtain ⟨rfl, -, -⟩ := isNext_eq_some hnext
  cases found with
  | true => exact htrue a c s₂ b s' trivial hrun₂
  | false =>
    have hstill := hfalse a c s₂
    rw [hrun₂] at hstill
    rw [hstill.1]
    exact hp c s a s₂ hhead hrun₁

theorem accept {k : Kind} (hk : k.isCloser = false) {q : Parser β} {b : β} (hq : EndsOpen any q) :
    EndsOpen H (Parser.accept k >>= fun found => if found = true then pure b else q) := by
  intro c s a s' _ hrun
  rw [Confined.accept_bind] at hrun
  rcases Confined.eat_cases k c s with ⟨t, ts, hrest, ht, heat⟩ | ⟨-, heat⟩
  · rw [bind_of_some heat] at hrun
    cases hrun
    obtain ⟨cs, rest, ds, ns⟩ := s
    cases hrest
    rintro t' ⟨⟩
    rw [ht]
    exact hk
  · rw [bind_of_some heat] at hrun
    exact hq c s a s' trivial hrun

theorem expect {k : Kind} (hk : k.isCloser = false) : EndsOpen H (expect k) := by
  intro c s a s' _ hrun
  rcases Confined.eat_cases k c s with ⟨t, ts, hrest, ht, heat⟩ | ⟨-, heat⟩
  · rw [Parser.expect, bind_of_some heat] at hrun
    cases hrun
    obtain ⟨cs, rest, ds, ns⟩ := s
    cases hrest
    rintro t' ⟨⟩
    rw [ht]
    exact hk
  · rw [Parser.expect, bind_of_some heat] at hrun
    cases hrun

theorem expectText {k : Kind} (hk : k.isCloser = false) : EndsOpen H (expectText k) :=
  (expect hk).still fun _ => .value _

theorem expectPunct (k : Punct) : EndsOpen H (expectPunct k) := (expect rfl).still fun _ => .value _

end EndsOpen

namespace BeforeColon

variable {tokens : List Token} {n m : Nat} {H : Option Kind → Prop} {r q u : Bool} {p : Parser α} {f : α → Parser β}
  {P : α → Prop} {F : α → List Token → Prop} {N : List Token → Prop}

/-- A run that ends with the last token reads all of them. -/
theorem took_all {s s' : State} {ts : List Token} (h : s.Took ts s') (hend : s'.rest = []) : s.rest = ts := by
  rw [h.rest, hend, List.append_nil]

/-- A confined parser that stops everywhere, and whose last token is no closing word. -/
theorem of_confined (hp : Confined tokens n H r u anything P p) (hopen : EndsOpen H p) :
    BeforeColon tokens n H r u p where
  moves := hp.moves
  runs c s a s' hs hrun hclean hend := by
    obtain ⟨-, ts, hcommon, hts⟩ := hp.runs c s a s' hs hrun hclean
    rw [took_all hts.took hend]
    have hlast := hts.took.endsClosed (hopen c s a s' hs.head hrun)
    refine ⟨hcommon, hts.reads, fun cs rest hcs _ => ⟨fun _ => hts.again cs rest hcs (.inr trivial), fun hclosed => ?_⟩⟩
    exact absurd (hlast.symm.trans hclosed) Bool.false_ne_true

/-- A confined parser that reads nothing. -/
theorem of_still (hp : Confined tokens n H false u anything P p) (hstill : Still p) :
    BeforeColon tokens n H false u p where
  moves := hp.moves
  runs c s a s' hs hrun hclean hend := by
    obtain ⟨-, ts, hcommon, hts⟩ := hp.runs c s a s' hs hrun hclean
    have hrest : s.rest = [] := by
      have hsame := (hstill c s).2
      rw [hrun, hend] at hsame
      exact hsame.symm
    rw [took_all hts.took hend] at hrest ⊢
    refine ⟨hcommon, nofun, fun cs rest hcs _ => ⟨fun _ => hts.again cs rest hcs (.inr trivial), ?_⟩⟩
    rw [hrest]
    exact nofun

theorem value {a : α} : BeforeColon tokens n H false u (pure a) :=
  .of_still (.ret (P := fun _ => True) trivial) (.value a)

theorem spanned {start : Nat} {g : Span → α} :
    BeforeColon tokens n H false true (spanFrom start >>= fun span => pure (g span)) :=
  .of_still (.spanned (P := fun _ => True) fun _ => trivial) ((Still.look (looks_spanFrom start)).bind fun _ => .value _)

/-- One run of two parsers in a row.  Where the second one may read nothing the first one is known in front of a colon
as well. -/
theorem seq_runs (hp : ConfinedBy N tokens n H r u F P p) (hlast : q = true ∨ BeforeColon tokens n H r u p)
    (hmoves : ∀ a, Moving (f a)) (hm : n ≤ m + r.toNat) {c : Setting} {s s₁ s' : State} {a : α} {b : β}
    (hf : BeforeColon tokens m any q (u || r) (f a)) (hs : Starts tokens n H s) (hrun₁ : p c s = (some a, s₁))
    (hrun₂ : f a c s₁ = (some b, s')) (hclean : s'.diagnostics = []) (hend : s'.rest = []) :
    (∀ t ∈ s.rest.head?, t.kind.isCommon = true) ∧ ((r || q) = true → s.rest ≠ []) ∧
      ∀ cs rest, (u = true → lastStop cs = lastStop s.consumed) → AtColon rest →
        ColonOutcome (p >>= f) cs s.rest b rest := by
  have hclean₁ := (hf.moves.of_run hrun₂).clean hclean
  obtain ⟨-, ts, hcommon, hts⟩ := hp.runs c s a s₁ hs hrun₁ hclean₁
  obtain ⟨hcommon', hreads, houtcome⟩ := hf.runs c s₁ b s' (hs.later hts.took (hts.bound hm)) hrun₂ hclean hend
  have hfollow : ∀ cs, (u = true → lastStop cs = lastStop s.consumed) →
      (u || r) = true → lastStop (ts.reverse ++ cs) = lastStop s₁.consumed := by
    intro cs hcs hu
    rw [hts.took.consumed]
    by_cases hnil : ts = []
    · subst hnil
      rcases Bool.or_eq_true_iff.mp hu with hu | hr
      · exact hcs hu
      · exact absurd rfl (hts.reads hr)
    · exact lastStop_reverse_append hnil _ _
  rw [hts.took.rest]
  refine ⟨?_, fun hr => ?_, fun cs rest hcs hcolon => ?_⟩
  · intro t ht
    cases ts with
    | nil => exact hcommon' t ht
    | cons t' us => exact hcommon t ht
  · rcases Bool.or_eq_true_iff.mp hr with hr | hq
    · exact List.append_ne_nil_of_left_ne_nil (hts.reads hr) _
    · exact List.append_ne_nil_of_right_ne_nil _ (hreads hq)
  · have hsecond := houtcome (ts.reverse ++ cs) rest (hfollow cs hcs) hcolon
    cases hnext : s₁.rest with
    | nil =>
      rcases hlast with hq | hlast
      · exact absurd hnext (hreads hq)
      obtain ⟨-, -, hfirst⟩ := hlast.runs c s a s₁ hs hrun₁ hclean₁ hnext
      rw [hnext] at hsecond
      rw [List.append_nil, ← took_all hts.took hnext]
      rw [← took_all hts.took hnext] at hsecond
      exact (hfirst cs rest hcs hcolon).unread hmoves (hsecond.goes rfl)
    | cons t us =>
      rw [hnext] at hsecond hcommon'
      refine .after (hts.again cs (t :: us ++ rest) hcs (.inl ?_)) hsecond (List.cons_ne_nil _ _)
      rw [hnext]
      exact .of_cons (hcommon' t rfl)

/-- Two parsers in a row. -/
theorem seq (hp : ConfinedBy N tokens n H r u F P p) (hlast : q = true ∨ BeforeColon tokens n H r u p)
    (hf : ∀ a, BeforeColon tokens m any q (u || r) (f a)) (hm : n ≤ m + r.toNat) :
    BeforeColon tokens n H (r || q) u (p >>= f) where
  moves := hp.moves.bind fun a => (hf a).moves
  runs c s b s' hs hrun hclean hend := by
    obtain ⟨a, s₁, hrun₁, hrun₂⟩ := bind_eq_some.mp hrun
    exact seq_runs hp hlast (fun a => (hf a).moves) hm (hf a) hs hrun₁ hrun₂ hclean hend

/-- The same where the first parser reads a token. -/
theorem next (hp : ConfinedBy N tokens n H true u F P p) (hlast : q = true ∨ BeforeColon tokens n H true u p)
    (hf : ∀ a, BeforeColon tokens m any q true (f a)) (hm : n ≤ m + 1) : BeforeColon tokens n H true u (p >>= f) :=
  .seq hp hlast (fun a => by rw [Bool.or_true]; exact hf a) hm

/-! ### Weakening -/

theorem weaken {H' : Option Kind → Prop} {u' : Bool} (h : BeforeColon tokens n H r u p) (hn : m ≤ n)
    (hH : ∀ k, H' k → H k) (hu : u = true → u' = true) : BeforeColon tokens m H' r u' p where
  moves := h.moves
  runs c s a s' hs hrun hclean hend := by
    obtain ⟨hcommon, hreads, houtcome⟩ :=
      h.runs c s a s' ⟨Nat.lt_of_lt_of_le hs.bound hn, hs.within, hH _ hs.head⟩ hrun hclean hend
    exact ⟨hcommon, hreads, fun cs rest hcs => houtcome cs rest fun hu' => hcs (hu hu')⟩

/-- The same where the next token does not matter. -/
theorem part (h : BeforeColon tokens n any r false p) : BeforeColon tokens n H r u p :=
  h.weaken (Nat.le_refl n) (fun _ _ => trivial) nofun

/-- The same where a token may be read. -/
theorem maybe (h : BeforeColon tokens n H true u p) : BeforeColon tokens n H false u p where
  moves := h.moves
  runs c s a s' hs hrun hclean hend := by
    obtain ⟨hcommon, -, houtcome⟩ := h.runs c s a s' hs hrun hclean hend
    exact ⟨hcommon, nofun, houtcome⟩

/-- Nothing is to be shown of single runs if there are none. -/
theorem vacuous (hp : Moving p) : BeforeColon tokens 0 H r u p where
  moves := hp
  runs _ _ _ _ hs := absurd hs.bound (Nat.not_lt_zero _)

/-- Nothing is to be shown of runs that end with a diagnostic. -/
theorem dirty (hp : Moving p) (h : Complains p) : BeforeColon tokens n H r u p where
  moves := hp
  runs c s a s' _ hrun hclean := by
    have hdirty := h c s
    rw [hrun] at hdirty
    exact absurd hclean hdirty

theorem failExpected (what : Expectation) : BeforeColon tokens n H r u (failExpected what : Parser α) :=
  .dirty (.failExpected what) (.failExpected what)

/-! ### Looking -/

/-- A parser that looks at the next token, before one that reads it. -/
theorem look {q : Parser α} {f : α → Parser β} (answer : Option Token → Nat → α)
    (hq : ∀ c s, q c s = (some (answer s.rest.head? c.sourceEnd), s))
    (hsame : ∀ t e e', answer (some t) e = answer (some t) e')
    (hf : ∀ a, BeforeColon tokens n (fun k => H k ∧ ∃ t e, answer t e = a ∧ t.map Token.kind = k) true u (f a)) :
    BeforeColon tokens n H true u (q >>= f) where
  moves := .bind (.look fun c s => by rw [hq]) fun a => (hf a).moves
  runs c s b s' hs hrun hclean hend := by
    rw [bind_of_some (hq c s)] at hrun
    obtain ⟨hcommon, hreads, houtcome⟩ :=
      (hf _).runs c s b s' ⟨hs.bound, hs.within, hs.head, _, _, rfl, rfl⟩ hrun hclean hend
    refine ⟨hcommon, hreads, fun cs rest hcs hcolon => .look (fun c' ns => ?_) (houtcome cs rest hcs hcolon)⟩
    rw [hq]
    obtain ⟨t, us, hrest⟩ := List.exists_cons_of_ne_nil (hreads rfl)
    rw [hrest]
    exact congrArg (fun a => (some a, _)) (hsame t _ _)

theorem offset {f : Nat → Parser β} (hf : ∀ start, BeforeColon tokens n H true u (f start)) :
    BeforeColon tokens n H true u (offset >>= f) :=
  .look (fun t e => ((t.map Token.span).getD (.point e)).start) (fun _ _ => rfl) (fun _ _ _ => rfl)
    fun start => (hf start).weaken (Nat.le_refl n) (fun _ hk => hk.1) id

theorem peek {f : Option Kind → Parser β} (hf : ∀ k, BeforeColon tokens n (· = k) true u (f k)) :
    BeforeColon tokens n H true u (peek >>= f) :=
  .look (fun t _ => t.map Token.kind) (fun _ _ => rfl) (fun _ _ _ => rfl) fun k =>
    (hf k).weaken (Nat.le_refl n) (fun _ hk => hk.2.elim fun _ h => h.elim fun _ h => h.2.symm.trans h.1) id

/-- A choice by whether a token comes next that is no colon. -/
theorem isNext {k : Kind} {f : Bool → Parser β} (hk : k ≠ .punct .colon)
    (htrue : BeforeColon tokens n (· = some k) true u (f true)) (hfalse : BeforeColon tokens n H r u (f false)) :
    BeforeColon tokens n H r u (isNext k >>= f) where
  moves := by
    refine .bind (.look fun _ _ => rfl) fun b => ?_
    cases b with
    | true => exact htrue.moves
    | false => exact hfalse.moves
  runs c s b s' hs hrun hclean hend := by
    obtain ⟨next, s₁, hnext, hrun⟩ := bind_eq_some.mp hrun
    obtain ⟨rfl, hyes, hno⟩ := isNext_eq_some hnext
    cases next with
    | true =>
      obtain ⟨t, us, ht, hrest⟩ := hyes rfl
      have hpeek : s₁.peek = some k := by rw [State.peek, hrest, ← ht]; rfl
      obtain ⟨hcommon, hreads, houtcome⟩ := htrue.runs c s₁ b s' ⟨hs.bound, hs.within, hpeek⟩ hrun hclean hend
      refine ⟨hcommon, fun _ => hreads rfl, fun cs rest hcs hcolon => ?_⟩
      refine .look (fun c' ns => ?_) (houtcome cs rest hcs hcolon)
      rw [hrest]
      exact isNext_of_kind ht
    | false =>
      obtain ⟨hcommon, hreads, houtcome⟩ := hfalse.runs c s₁ b s' hs hrun hclean hend
      refine ⟨hcommon, hreads, fun cs rest hcs hcolon => ?_⟩
      refine .look (fun c' ns => isNext_of_head ?_) (houtcome cs rest hcs hcolon)
      cases hrest : s₁.rest with
      | nil => exact hcolon.lacks hk
      | cons t us =>
        rintro t' ⟨⟩
        exact hno rfl t (by rw [hrest]; rfl)

/-- A choice by the next token, where a colon is like the end. -/
theorem peekOrEnd {f : Option Kind → Parser β} (hsame : f (some (.punct .colon)) = f none)
    (hf : ∀ k, BeforeColon tokens n (· = k) r u (f k)) : BeforeColon tokens n H r u (Parser.peek >>= f) where
  moves := .bind (.look fun _ _ => rfl) fun k => (hf k).moves
  runs c s b s' hs hrun hclean hend := by
    rw [bind_of_some peek_eq] at hrun
    obtain ⟨hcommon, hreads, houtcome⟩ := (hf s.peek).runs c s b s' ⟨hs.bound, hs.within, rfl⟩ hrun hclean hend
    refine ⟨hcommon, hreads, fun cs rest hcs hcolon => (houtcome cs rest hcs hcolon).congr fun c' ns => ?_⟩
    rw [bind_of_some peek_eq]
    cases hrest : s.rest with
    | nil =>
      obtain ⟨colon, ts, rfl, hk, -, -⟩ := hcolon
      have hnone : s.peek = none := by rw [State.peek, hrest]; rfl
      rw [hnone, ← hsame, ← hk]
      rfl
    | cons t ts =>
      have hsome : s.peek = some t.kind := by rw [State.peek, hrest]; rfl
      rw [hsome]
      rfl

/-- A first part behind which anything may stand, and a choice by its value. -/
theorem byValue (test : α → Bool) {g : α → Parser β} (hp : Confined tokens n H true u anything P p)
    (hopen : EndsOpen H p) (htrue : ∀ a, test a = true → BeforeColon tokens n any false true (f a))
    (hg : BeforeColon tokens n H true u (p >>= g)) (hmoves : ∀ a, Moving (g a))
    (hfalse : ∀ a, test a = false → f a = g a) : BeforeColon tokens n H true u (p >>= f) := by
  have hall : ∀ a, Moving (f a) := by
    intro a
    cases ha : test a with
    | true => exact (htrue a ha).moves
    | false =>
      rw [hfalse a ha]
      exact hmoves a
  refine ⟨hp.moves.bind hall, fun c s b s' hs hrun hclean hend => ?_⟩
  obtain ⟨a, s₁, hfirst, hrun⟩ := bind_eq_some.mp hrun
  cases ha : test a with
  | true =>
    have hbehind : BeforeColon tokens n any false (u || true) (f a) := by
      rw [Bool.or_true]
      exact htrue a ha
    exact seq_runs hp (.inr (.of_confined hp hopen)) hall (Nat.le_add_right _ _) hbehind hs hfirst hrun hclean hend
  | false =>
    rw [hfalse a ha] at hrun
    have hmoved : s₁.Moves s' := (hmoves a).of_run hrun
    obtain ⟨-, ts, -, hts⟩ := hp.runs c s a s₁ hs hfirst (hmoved.clean hclean)
    obtain ⟨hcommon, hreads, houtcome⟩ := hg.runs c s b s' hs ((bind_of_some hfirst).trans hrun) hclean hend
    refine ⟨hcommon, hreads, fun cs rest hcs hcolon => (houtcome cs rest hcs hcolon).congr fun c' ns => ?_⟩
    obtain ⟨ns', hgo⟩ := hts.again cs (s₁.rest ++ rest) hcs (.inr trivial) c' ns
    rw [hts.took.rest, List.append_assoc, bind_of_some hgo, bind_of_some hgo, hfalse a ha]

/-! ### Closing words -/

/-- A closing word and its label, at the end. -/
theorem closing {closing : Keyword} (hcloser : closing.isCloser = true) {f : Option Label → Parser β} {P : β → Prop}
    (hf : ∀ l, Confined tokens n any false true anything P (f l)) (hstill : ∀ l, Still (f l)) :
    BeforeColon tokens n H true u (expectKeyword closing >>= fun _ => label >>= f) where
  moves := (Moving.expectKeyword closing).bind fun _ => Moving.label.bind fun l => (hf l).moves
  runs c s b s' hs hrun hclean hend := by
    obtain ⟨_, s₁, hword, hrun⟩ := bind_eq_some.mp hrun
    obtain ⟨l, s₂, hlabel, hrun⟩ := bind_eq_some.mp hrun
    obtain ⟨t, ht, htook⟩ := expectKeyword_took hword
    have hclean₂ := ((hf l).moves.of_run hrun).clean hclean
    have hend₂ : s₂.rest = [] := by
      have hsame := (hstill l c s₂).2
      rw [hrun, hend] at hsame
      exact hsame.symm
    have hcommon : t.kind.isCommon = true := by rw [ht]; rfl
    have hreads : ∀ cs rest, Goes (expectKeyword closing) cs [t] () rest := fun cs rest c' ns =>
      ⟨ns, expectKeyword_of_kind ht⟩
    -- behind the closing word and its label nothing is read
    have hstarts : Starts tokens n any s₂ := by
      refine ⟨?_, ?_, trivial⟩ <;> rw [hend₂]
      · exact Nat.lt_of_le_of_lt (Nat.zero_le _) hs.bound
      · exact List.nil_suffix
    have hlast : ∀ cs ts rest, ts ≠ [] → s₂.consumed = ts.reverse ++ s₁.consumed →
        Goes (f l) (ts.reverse ++ cs) [] b rest := by
      intro cs ts rest hne hconsumed
      obtain ⟨-, us, -, hus⟩ := (hf l).runs c s₂ b s' hstarts hrun hclean
      obtain rfl : us = [] := (took_all hus.took hend).symm.trans hend₂
      refine hus.again _ rest (fun _ => ?_) (.inr trivial)
      rw [hconsumed]
      exact lastStop_reverse_append hne _ _
    rw [htook.rest]
    refine ⟨fun t' ht' => by cases ht'; exact hcommon, fun _ => List.cons_ne_nil _ _, fun cs rest hcs hcolon => ?_⟩
    rcases label_cases hlabel hclean₂ with rfl | ⟨colon, name, htook', hname, hgoes⟩
    · rw [hend₂]
      refine ⟨fun hopen => ?_, fun _ => ?_⟩
      · have hclosed : endsClosed [t] = closing.isCloser := congrArg Kind.isCloser ht
        rw [List.append_nil, hclosed, hcloser] at hopen
        cases hopen
      · exact .after (hreads cs rest) (.bind (fun c' ns => label_dirty hcolon) fun l => (hf l).moves)
    · rw [htook'.rest, hend₂, List.append_nil]
      refine ⟨fun _ => (hreads cs _).bind ?_, fun hclosed => ?_⟩
      · have hlabelled : Goes (label >>= f) ([t].reverse ++ cs) ([colon, name] ++ []) b rest :=
          (hgoes ([t].reverse ++ cs) rest).bind
            (hlast ([t].reverse ++ cs) [colon, name] rest (List.cons_ne_nil _ _) htook'.consumed)
        exact hlabelled
      · have hopen : endsClosed [t, colon, name] = name.kind.isCloser := rfl
        rcases hname with hname | hname <;> rw [List.singleton_append, hopen, hname] at hclosed <;> cases hclosed

end BeforeColon

/-! ## Loops -/

/-- A loop that comes to a round with a report ends with one. -/
theorem repeatUntil_dirty {round : α → Parser (Round α β)} (hmoves : ∀ a, Moving (round a)) {c : Setting}
    {a a' : α} {s s₁ : State} (h : Leads round c a s a' s₁) (hround : (round a' c s₁).2.diagnostics ≠ []) :
    (repeatUntil round a c s).2.diagnostics ≠ [] := by
  have hlast : ∀ limit, (roundsUpTo round (limit + 1) a' c s₁).2.diagnostics ≠ [] := by
    intro limit
    rw [roundsUpTo, bind_apply]
    rcases hrun : round a' c s₁ with ⟨_ | r, s₂⟩
    · rw [hrun] at hround
      exact hround
    · rw [hrun] at hround
      cases r with
      | again a => exact (Moving.roundsUpTo hmoves limit a c s₂).dirty hround
      | done b => exact hround
  have hall : ∀ limit, s.rest.length < limit → (roundsUpTo round limit a c s).2.diagnostics ≠ [] := by
    induction h with
    | refl =>
      intro limit hl
      obtain ⟨limit, rfl⟩ : ∃ m, limit = m + 1 := ⟨limit - 1, by omega⟩
      exact hlast limit
    | step hr less _ ih =>
      intro limit hl
      obtain ⟨limit, rfl⟩ : ∃ m, limit = m + 1 := ⟨limit - 1, by omega⟩
      rw [roundsUpTo, bind_of_some hr]
      exact ih hround hlast limit (by omega)
  exact hall _ (Nat.lt_succ_self _)

end Parser

end Bluespec
