import Bluespec.Proofs.FullGrammar
import Bluespec.Proofs.SpanTrees

/-!
# Runs from token to token

A run begins in front of one token and ends in front of another, so what its value has to do with the tokens in between
can be told by their numbers.

* **`Span.Fits`** — a span whose ends are ends of tokens, or the end of the source.
* **`State.Before`** — a state in front of a token, with diagnostics that fit.
* **`Walk`** — what is known of the values of the runs in front of a token, and of where these runs end; with one rule
  for each way to put parsers together.
* **`walk_spanned`** — a value that is built last of all, with a span over the tokens that were read for it.
-/

namespace Bluespec

/-! ## Ends of tokens -/

/-- The offset is that of an end of a token, or the end of the source. -/
def Token.IsEdge (tokens : List Token) (sourceEnd offset : Nat) : Prop :=
  offset = sourceEnd ∨ ∃ t ∈ tokens, offset = t.span.start ∨ offset = t.span.stop

/-- The span begins and stops at ends of tokens, or at the end of the source. -/
structure Span.Fits (tokens : List Token) (sourceEnd : Nat) (span : Span) : Prop where
  le : span.start ≤ span.stop
  start : Token.IsEdge tokens sourceEnd span.start
  stop : Token.IsEdge tokens sourceEnd span.stop

namespace Span

variable {tokens : List Token} {sourceEnd i j : Nat} {span : Span}

theorem Fits.point : (Span.point sourceEnd).Fits tokens sourceEnd :=
  ⟨Nat.le_refl _, .inl rfl, .inl rfl⟩

theorem Fits.of_token {t : Token} (hord : Token.Ordered tokens) (h : t ∈ tokens) : t.span.Fits tokens sourceEnd :=
  ⟨Nat.le_of_lt (hord.nonempty t h), .inr ⟨t, h, .inl rfl⟩, .inr ⟨t, h, .inr rfl⟩⟩

theorem Reaches.fits (h : span.Reaches tokens i j) (hord : Token.Ordered tokens) : span.Fits tokens sourceEnd := by
  have hlt := h.nonempty hord
  obtain ⟨-, a, b, ha, hb, rfl⟩ := h
  exact ⟨Nat.le_of_lt hlt, .inr ⟨a, List.mem_of_getElem? ha, .inl rfl⟩, .inr ⟨b, List.mem_of_getElem? hb, .inr rfl⟩⟩

end Span

namespace Parser

variable {α β : Type} {c : Setting} {tokens : List Token} {i j k : Nat}

/-- The span of token `i`, or the end of the source. -/
def spanAt (c : Setting) (tokens : List Token) (i : Nat) : Span :=
  (tokens[i]?.map Token.span).getD (Span.point c.sourceEnd)

theorem spanAt_fits (hord : Token.Ordered tokens) (i : Nat) : (spanAt c tokens i).Fits tokens c.sourceEnd := by
  unfold spanAt
  cases h : tokens[i]? with
  | none => exact .point
  | some t => exact .of_token hord (List.mem_of_getElem? h)

/-- A span begins where its first token does. -/
theorem start_of_reaches {span : Span} (h : span.Reaches tokens i j) : span.start = (spanAt c tokens i).start := by
  obtain ⟨-, a, b, ha, -, rfl⟩ := h
  rw [spanAt, ha]
  rfl

/-! ## States -/

/-- The cursor stands in front of token `i`, or at the end if there is none, and all diagnostics fit. -/
structure State.Before (c : Setting) (tokens : List Token) (i : Nat) (s : State) : Prop where
  ordered : Token.Ordered tokens
  le : i ≤ tokens.length
  consumed : s.consumed = (tokens.take i).reverse
  rest : s.rest = tokens.drop i
  fits : ∀ d ∈ s.diagnostics, d.span.Fits tokens c.sourceEnd

namespace State.Before

variable {s : State}

theorem peekSpan (h : s.Before c tokens i) : s.peekSpan c = spanAt c tokens i := by
  rw [State.peekSpan, h.rest, spanAt, List.head?_drop]

theorem peek (h : s.Before c tokens i) : s.peek = tokens[i]?.map Token.kind := by
  rw [State.peek, h.rest, List.head?_drop]

/-- The end of the last token that was read. -/
theorem lastEnd (h : s.Before c tokens i) : s.lastEnd = ((tokens.take i).getLast?.map fun t => t.span.stop).getD 0 := by
  rw [State.lastEnd, h.consumed, List.head?_reverse]

theorem of_rest_eq {t : Token} {ts : List Token} (h : s.Before c tokens i) (hrest : s.rest = t :: ts) :
    tokens[i]? = some t := by
  rw [h.rest] at hrest
  rw [← List.head?_drop, hrest]
  rfl

theorem rest_eq {t : Token} (h : s.Before c tokens i) (ht : tokens[i]? = some t) : ∃ ts, s.rest = t :: ts := by
  obtain ⟨hi, rfl⟩ := List.getElem?_eq_some_iff.mp ht
  exact ⟨tokens.drop (i + 1), by rw [h.rest, List.drop_eq_getElem_cons hi]⟩

theorem step {t : Token} (h : s.Before c tokens i) (ht : tokens[i]? = some t) : s.step.Before c tokens (i + 1) := by
  obtain ⟨hi, hget⟩ := List.getElem?_eq_some_iff.mp ht
  have hdrop : tokens.drop i = t :: tokens.drop (i + 1) := by rw [← hget, List.drop_eq_getElem_cons hi]
  obtain ⟨cs, rest, ds, ns⟩ := s
  obtain ⟨hord, -, hconsumed, hrest, hfits⟩ := h
  subst hconsumed hrest
  refine ⟨hord, hi, ?_, ?_, ?_⟩
  · rw [State.step, hdrop, List.take_add_one, ht, List.reverse_append]
    rfl
  · rw [State.step, hdrop]
  · rw [State.step, hdrop]
    exact hfits

theorem advance (h : s.Before c tokens i) (n : Nat) : ∃ j, i ≤ j ∧ (s.advance n).Before c tokens j := by
  induction n generalizing s i with
  | zero => exact ⟨i, Nat.le_refl i, h⟩
  | succ n ih =>
    cases ht : tokens[i]? with
    | none =>
      have hnil : s.rest = [] := by rw [h.rest, List.drop_eq_nil_iff]; exact List.getElem?_eq_none_iff.mp ht
      rw [State.advance, State.step_of_nil hnil]
      exact ih h
    | some t =>
      obtain ⟨j, hj, hbefore⟩ := ih (h.step ht)
      exact ⟨j, by omega, hbefore⟩

theorem report {span : Span} (h : s.Before c tokens i) (hspan : span.Fits tokens c.sourceEnd) (problem : Problem) :
    (s.report span problem).Before c tokens i :=
  ⟨h.ordered, h.le, h.consumed, h.rest, List.forall_mem_cons.mpr ⟨hspan, h.fits⟩⟩

theorem record (h : s.Before c tokens i) (kind : NodeKind) (span : Span) : (s.record kind span).Before c tokens i := by
  obtain ⟨ns, hrecord⟩ := s.record_eq kind span
  rw [hrecord]
  exact ⟨h.ordered, h.le, h.consumed, h.rest, h.fits⟩

theorem resumeState (h : s.Before c tokens i) (before : State) :
    ∃ j, i ≤ j ∧ (resumeState before s).Before c tokens j := by
  unfold Parser.resumeState
  split
  · exact h.advance _
  · exact ⟨i, Nat.le_refl i, h⟩

theorem tokens_eq (h : s.Before c tokens i) : s.tokens = tokens := by
  rw [State.tokens, h.consumed, h.rest, List.reverse_reverse, List.take_append_drop]

/-- Rewinding leads back in front of the token. -/
theorem rewind {s' : State} (h : s.Before c tokens i) (h' : s'.Before c tokens j) :
    (s'.rewind s.checkpoint).Before c tokens i := by
  have hposition : s.checkpoint.position = i := by
    show s.consumed.length = i
    rw [h.consumed, List.length_reverse, List.length_take, Nat.min_eq_left h.le]
  refine ⟨h.ordered, h.le, ?_, ?_, fun d hd => h'.fits d (List.mem_of_mem_drop hd)⟩
  · rw [State.rewind, hposition, h'.tokens_eq]
  · rw [State.rewind, hposition, h'.tokens_eq]

/-- From the start of a token to the end of the last one that was read. -/
theorem reaches (h : s.Before c tokens j) (hij : i < j) :
    Span.Reaches tokens i j ⟨(spanAt c tokens i).start, s.lastEnd⟩ := by
  have hle := h.le
  obtain ⟨a, ha⟩ : ∃ a, tokens[i]? = some a := ⟨_, List.getElem?_eq_getElem (by omega)⟩
  obtain ⟨b, hb⟩ : ∃ b, tokens[j - 1]? = some b := ⟨_, List.getElem?_eq_getElem (by omega)⟩
  refine ⟨hij, a, b, ha, hb, ?_⟩
  rw [h.lastEnd, List.getLast?_take, if_neg (by omega), hb, spanAt, ha]
  rfl

/-- A span over tokens that were read up to here. -/
theorem spanFrom (h : s.Before c tokens j) (hij : i < j) :
    (s.spanFrom (spanAt c tokens i).start).Reaches tokens i j := by
  have hreach : Span.Reaches tokens i j ⟨(spanAt c tokens i).start, s.lastEnd⟩ := h.reaches hij
  have hlt : (spanAt c tokens i).start < s.lastEnd := hreach.nonempty h.ordered
  rw [State.spanFrom, Nat.max_eq_left (Nat.le_of_lt hlt)]
  exact hreach

/-- A span from an end of a token to the last token read. -/
theorem spanFrom_fits {start : Nat} (h : s.Before c tokens i) (hstart : Token.IsEdge tokens c.sourceEnd start) :
    (s.spanFrom start).Fits tokens c.sourceEnd := by
  refine ⟨Nat.le_max_right _ _, hstart, ?_⟩
  rw [State.spanFrom]
  rcases Nat.le_total s.lastEnd start with hle | hle
  · rw [Nat.max_eq_right hle]
    exact hstart
  · rw [Nat.max_eq_left hle]
    cases hlast : (tokens.take i).getLast? with
    | none =>
      have hzero : s.lastEnd = 0 := by rw [h.lastEnd, hlast]; rfl
      rw [hzero] at hle ⊢
      rwa [Nat.le_zero.mp hle] at hstart
    | some t =>
      rw [h.lastEnd, hlast]
      exact .inr ⟨t, List.mem_of_mem_take (List.mem_of_getLast? hlast), .inr rfl⟩

end State.Before

/-! ## Walks -/

/-- Each run of a parser in front of token `i` ends in front of a token, and its value, if it has one, is such as the
postcondition tells for that token. -/
def Walk (c : Setting) (tokens : List Token) (i : Nat) (p : Parser α) (post : Nat → α → Prop) : Prop :=
  ∀ s r s', State.Before c tokens i s → p c s = (r, s') →
    ∃ j, i ≤ j ∧ s'.Before c tokens j ∧ ∀ a, r = some a → post j a

namespace Walk

variable {p q : Parser α} {f : α → Parser β} {post mid : Nat → α → Prop} {post' : Nat → β → Prop} {a : α}

/-- A parser that yields a value and leaves the cursor where it is. -/
theorem stay (h : ∀ s, State.Before c tokens i s → ∃ a s', p c s = (some a, s') ∧ s'.Before c tokens i ∧ post i a) :
    Walk c tokens i p post := by
  intro s r s' hs hrun
  obtain ⟨a, s₁, hvalue, hs₁, hpost⟩ := h s hs
  cases hvalue.symm.trans hrun
  exact ⟨i, Nat.le_refl i, hs₁, fun b hb => by cases hb; exact hpost⟩

theorem value (h : post i a) : Walk c tokens i (pure a) post :=
  stay fun s hs => ⟨a, s, rfl, hs, h⟩

theorem fail : Walk c tokens i (fail : Parser α) post := by
  intro s r s' hs hrun
  cases hrun
  exact ⟨i, Nat.le_refl i, hs, fun b hb => by cases hb⟩

/-- A parser, and then one that depends on its value. -/
theorem bind (hp : Walk c tokens i p post) (hf : ∀ j a, i ≤ j → post j a → Walk c tokens j (f a) post') :
    Walk c tokens i (p >>= f) post' := by
  intro s r s' hs hrun
  rw [bind_apply] at hrun
  rcases hfirst : p c s with ⟨_ | a, s₁⟩
  · rw [hfirst] at hrun
    cases hrun
    obtain ⟨j, hij, hs₁, -⟩ := hp s none _ hs hfirst
    exact ⟨j, hij, hs₁, fun b hb => by cases hb⟩
  · rw [hfirst] at hrun
    obtain ⟨j, hij, hs₁, hpost⟩ := hp s (some a) _ hs hfirst
    obtain ⟨k, hjk, hs', hpost'⟩ := hf j a hij (hpost a rfl) s₁ r s' hs₁ hrun
    exact ⟨k, Nat.le_trans hij hjk, hs', hpost'⟩

/-- A parser that leaves the cursor where it is, and then another one. -/
theorem here {mid : α → Prop} (hp : Walk c tokens i p fun j a => j = i ∧ mid a)
    (hf : ∀ a, mid a → Walk c tokens i (f a) post') : Walk c tokens i (p >>= f) post' :=
  hp.bind fun _ a _ h => h.1 ▸ hf a h.2

/-- A parser of which only is told where it ends, and then another one. -/
theorem next (hp : Walk c tokens i p fun j _ => j = k) (hf : ∀ a, Walk c tokens k (f a) post') :
    Walk c tokens i (p >>= f) post' :=
  hp.bind fun _ a _ h => h ▸ hf a

theorem weaken (hp : Walk c tokens i p mid) (h : ∀ j a, i ≤ j → mid j a → post j a) : Walk c tokens i p post := by
  intro s r s' hs hrun
  obtain ⟨j, hij, hs', hmid⟩ := hp s r s' hs hrun
  exact ⟨j, hij, hs', fun a ha => h j a hij (hmid a ha)⟩

theorem map (hp : Walk c tokens i p mid) {f : α → β} (h : ∀ j a, i ≤ j → mid j a → post' j (f a)) :
    Walk c tokens i (f <$> p) post' :=
  hp.bind fun j a hij ha => .value (h j a hij ha)

/-- A tree that covers the tokens that are read for it stands among them. -/
theorem row {spans : α → SpanTree} (hp : Walk c tokens i p fun j a => SpanTree.Over tokens i j (spans a)) :
    Walk c tokens i p fun j a => SpanTree.Row tokens i j [spans a] :=
  hp.weaken fun _ _ _ h => h.row

/-- Trees among some tokens stand among more of them. -/
theorem widen {trees : α → List SpanTree} (hki : k ≤ i)
    (hp : Walk c tokens i p fun j a => SpanTree.Row tokens i j (trees a)) :
    Walk c tokens i p fun j a => SpanTree.Row tokens k j (trees a) :=
  hp.weaken fun j _ _ h => h.widen hki (Nat.le_refl j)

/-- A parser that only looks. -/
theorem looks {answer : Nat → List Token → List Token → α} (h : Looks p answer)
    (hpost : ∀ s, State.Before c tokens i s → post i (answer c.sourceEnd s.consumed s.rest)) :
    Walk c tokens i p post :=
  stay fun s hs => ⟨_, s, h c s, hs, hpost s hs⟩

theorem attempt (hp : Walk c tokens i p post) : Walk c tokens i (attempt p) fun j r => ∀ a, r = some a → post j a := by
  intro s r s' hs hrun
  rcases hfirst : p c s with ⟨a, s₁⟩
  rw [Parser.attempt, hfirst] at hrun
  cases hrun
  obtain ⟨j, hij, hs₁, hpost⟩ := hp s a _ hs hfirst
  exact ⟨j, hij, hs₁, fun r hr => by cases hr; exact hpost⟩

/-- A parser that is run for its answer leaves the cursor where it was. -/
theorem lookahead (hp : Walk c tokens i p post) : Walk c tokens i (lookahead p) fun j _ => j = i := by
  intro s r s' hs hrun
  rcases hfirst : p c s with ⟨a, s₁⟩
  rw [Parser.lookahead, hfirst] at hrun
  cases hrun
  obtain ⟨j, -, hs₁, -⟩ := hp s a _ hs hfirst
  exact ⟨i, Nat.le_refl i, hs.rewind hs₁, fun _ _ => rfl⟩

/-- A parser whose failure leaves the cursor where it was. -/
theorem tentatively (hp : Walk c tokens i p post) :
    Walk c tokens i (tentatively p) fun j r => (r = none → j = i) ∧ ∀ a, r = some a → post j a := by
  intro s r s' hs hrun
  rcases hfirst : p c s with ⟨_ | a, s₁⟩
  · rw [Parser.tentatively, hfirst] at hrun
    cases hrun
    obtain ⟨j, -, hs₁, -⟩ := hp s none _ hs hfirst
    exact ⟨i, Nat.le_refl i, hs.rewind hs₁, fun r hr => by cases hr; exact ⟨fun _ => rfl, fun a ha => (by cases ha)⟩⟩
  · rw [Parser.tentatively, hfirst] at hrun
    cases hrun
    obtain ⟨j, hij, hs₁, hpost⟩ := hp s (some a) _ hs hfirst
    refine ⟨j, hij, hs₁, fun r hr => ?_⟩
    cases hr
    exact ⟨fun hnone => absurd hnone (Option.some_ne_none a), hpost⟩

theorem resuming (hp : Walk c tokens i p post) :
    Walk c tokens i (resuming p) fun j r => ∀ a, r = some a → post j a := by
  intro s r s' hs hrun
  rcases hfirst : p c s with ⟨_ | a, s₁⟩
  · rw [Parser.resuming, hfirst] at hrun
    cases hrun
    obtain ⟨j, hij, hs₁, -⟩ := hp s none _ hs hfirst
    obtain ⟨k, hjk, hs₂⟩ := hs₁.resumeState s
    exact ⟨k, Nat.le_trans hij hjk, hs₂, fun r hr => by cases hr; exact fun a ha => by cases ha⟩
  · rw [Parser.resuming, hfirst] at hrun
    cases hrun
    obtain ⟨j, hij, hs₁, hpost⟩ := hp s (some a) _ hs hfirst
    exact ⟨j, hij, hs₁, fun r hr => by cases hr; exact hpost⟩

end Walk

/-! ## Looking, reporting, and moving on -/

theorem walk_peek (i : Nat) : Walk c tokens i peek fun j k => j = i ∧ k = tokens[i]?.map Token.kind :=
  .looks looks_peek fun _ hs => ⟨rfl, hs.peek⟩

theorem walk_isNext (i : Nat) (k : Kind) :
    Walk c tokens i (isNext k) fun j b => j = i ∧ (b = true → tokens[i]?.map Token.kind = some k) :=
  .looks (looks_isNext k) fun _ hs => ⟨rfl, fun hb => hs.peek.symm.trans (beq_iff_eq.mp hb)⟩

theorem walk_offset (i : Nat) : Walk c tokens i offset fun j o => j = i ∧ o = (spanAt c tokens i).start :=
  .stay fun _ hs => ⟨_, _, rfl, hs, rfl, by rw [hs.peekSpan]⟩

theorem walk_peekSpan (i : Nat) : Walk c tokens i peekSpan fun j span => j = i ∧ span.Fits tokens c.sourceEnd :=
  .stay fun _ hs => ⟨_, _, rfl, hs, rfl, hs.peekSpan ▸ spanAt_fits hs.ordered i⟩

/-- A span from the start of a token that may not have been read. -/
theorem walk_spanFrom (i : Nat) {start : Nat} (hstart : start = (spanAt c tokens k).start) :
    Walk c tokens i (spanFrom start) fun j span => j = i ∧ span.Fits tokens c.sourceEnd :=
  .stay fun _ hs => ⟨_, _, rfl, hs, rfl, hs.spanFrom_fits (hstart ▸ (spanAt_fits hs.ordered k).start)⟩

/-- A span over tokens that were read up to here. -/
theorem walk_spanOver (hij : i < j) {start : Nat} (hstart : start = (spanAt c tokens i).start) :
    Walk c tokens j (spanFrom start) fun k span => k = j ∧ span.Reaches tokens i j :=
  .stay fun _ hs => ⟨_, _, rfl, hs, rfl, hstart ▸ hs.spanFrom hij⟩

theorem walk_halted (i : Nat) : Walk c tokens i halted fun j _ => j = i :=
  .stay fun _ hs => ⟨_, _, rfl, hs, rfl⟩

theorem walk_ask (i : Nat) (f : State → α) : Walk c tokens i (ask f) fun j _ => j = i :=
  .stay fun _ hs => ⟨_, _, rfl, hs, rfl⟩

theorem walk_report {span : Span} (h : Token.Ordered tokens → span.Fits tokens c.sourceEnd) (problem : SyntaxProblem) :
    Walk c tokens i (report span problem) fun j _ => j = i :=
  .stay fun _ hs => ⟨(), _, rfl, hs.report (h hs.ordered) _, rfl⟩

theorem walk_reportUnsupported {span : Span} (h : Token.Ordered tokens → span.Fits tokens c.sourceEnd)
    (construct : Construct) :
    Walk c tokens i (reportUnsupported span construct) fun j _ => j = i :=
  .stay fun _ hs => ⟨(), _, rfl, hs.report (h hs.ordered) _, rfl⟩

theorem walk_reportExpected (what : Expectation) : Walk c tokens i (reportExpected what) fun j _ => j = i :=
  .stay fun _ hs => ⟨(), _, rfl, hs.report (hs.peekSpan ▸ spanAt_fits hs.ordered i) _, rfl⟩

theorem walk_failExpected (what : Expectation) {post : Nat → α → Prop} :
    Walk c tokens i (failExpected what : Parser α) post :=
  (walk_reportExpected what).bind fun _ _ _ _ => .fail

theorem walk_record (kind : NodeKind) (span : Span) : Walk c tokens i (record kind span) fun j _ => j = i :=
  .stay fun _ hs => ⟨(), _, rfl, hs.record kind span, rfl⟩

theorem walk_skip {kind : Kind} (h : tokens[i]?.map Token.kind = some kind) :
    Walk c tokens i skip fun j _ => j = i + 1 := by
  intro s r s' hs hrun
  cases hrun
  obtain ⟨t, ht, -⟩ := Option.map_eq_some_iff.mp h
  exact ⟨i + 1, Nat.le_succ i, hs.step ht, fun _ _ => rfl⟩

theorem walk_skipExtent (extent : List Token → Nat) : Walk c tokens i (skipExtent extent) fun _ _ => True := by
  intro s r s' hs hrun
  cases hrun
  obtain ⟨j, hij, hs'⟩ := hs.advance (extent s.rest)
  exact ⟨j, hij, hs', fun _ _ => trivial⟩

/-! ## Single tokens -/

theorem walk_eat (i : Nat) (kind : Kind) :
    Walk c tokens i (eat kind) fun j r => (∀ t, r = some t → tokens[i]? = some t ∧ j = i + 1) ∧ (r = none → j = i) := by
  intro s r s' hs hrun
  have hno : (∀ t, (none : Option Token) = some t → tokens[i]? = some t ∧ i = i + 1) ∧
      ((none : Option Token) = none → i = i) := ⟨fun t ht => (by cases ht), fun _ => rfl⟩
  cases hrest : s.rest with
  | nil =>
    rw [eat, hrest] at hrun
    cases hrun
    exact ⟨i, Nat.le_refl i, hs, fun r hr => by cases hr; exact hno⟩
  | cons t ts =>
    rw [eat, hrest] at hrun
    dsimp only at hrun
    split at hrun
    · cases hrun
      have ht := hs.of_rest_eq hrest
      refine ⟨i + 1, Nat.le_succ i, hs.step ht, fun r hr => ?_⟩
      cases hr
      exact ⟨fun t' ht' => by cases ht'; exact ⟨ht, rfl⟩, fun hnone => absurd hnone (Option.some_ne_none t)⟩
    · cases hrun
      exact ⟨i, Nat.le_refl i, hs, fun r hr => by cases hr; exact hno⟩

theorem walk_accept (i : Nat) (kind : Kind) :
    Walk c tokens i (accept kind) fun j b => (b = true → j = i + 1) ∧ (b = false → j = i) := by
  refine (walk_eat i kind).bind fun j r _ hr => .value ?_
  cases r with
  | none => exact ⟨fun h => absurd h Bool.false_ne_true, fun _ => hr.2 rfl⟩
  | some t => exact ⟨fun _ => (hr.1 t rfl).2, fun h => absurd h.symm Bool.false_ne_true⟩

theorem walk_expect (i : Nat) (kind : Kind) :
    Walk c tokens i (expect kind) fun j t => tokens[i]? = some t ∧ j = i + 1 := by
  refine (walk_eat i kind).bind fun j r _ hr => ?_
  cases r with
  | none => exact walk_failExpected _
  | some t => exact .value (hr.1 t rfl)

theorem walk_expectText (i : Nat) (kind : Kind) : Walk c tokens i (expectText kind) fun j _ => j = i + 1 :=
  (walk_expect i kind).bind fun _ _ _ ht => .value ht.2

theorem walk_expectPunct (i : Nat) (p : Punct) : Walk c tokens i (expectPunct p) fun j _ => j = i + 1 :=
  (walk_expect i _).bind fun _ _ _ ht => .value ht.2

theorem walk_expectKeyword (i : Nat) (word : Keyword) : Walk c tokens i (expectKeyword word) fun j _ => j = i + 1 :=
  (walk_expect i _).bind fun _ _ _ ht => .value ht.2

/-! ## Loops -/

theorem walk_repeatUntil {round : α → Parser (Round α β)} {I : Nat → α → Prop} {post : Nat → β → Prop}
    (hround : ∀ i a, I i a → Walk c tokens i (round a) fun j r => Round.Ends (I j) (post j) r) {a : α}
    (h : I i a) : Walk c tokens i (repeatUntil round a) post := by
  have hall : ∀ limit i a, I i a → Walk c tokens i (roundsUpTo round limit a) post := by
    intro limit
    induction limit with
    | zero => exact fun _ _ _ => .fail
    | succ limit ih =>
      intro i a hinv
      refine (hround i a hinv).bind fun j r _ hr => ?_
      cases r with
      | again a' => exact ih j a' hr
      | done b => exact .value hr
  exact fun s => hall _ i a h s

section Lists

variable {item : Parser α} {spans : α → SpanTree}

/-- Items that stand one after the other, with separators between them. -/
theorem walk_separated (separator : Punct)
    (hitem : ∀ i, Walk c tokens i item fun j a => SpanTree.Row tokens i j [spans a]) (i : Nat) :
    Walk c tokens i (separated separator item) fun j as => SpanTree.Row tokens i j (as.map spans) := by
  have hall : ∀ limit i,
      Walk c tokens i (separatedUpTo separator item limit) fun j as => SpanTree.Row tokens i j (as.map spans) := by
    intro limit
    induction limit with
    | zero => exact fun _ => .fail
    | succ limit ih =>
      intro i
      refine (hitem i).bind fun j first _ hfirst => ?_
      refine (walk_accept j _).bind fun k more hjk _ => ?_
      cases more with
      | false => exact .value (hfirst.widen (Nat.le_refl _) hjk)
      | true => exact (ih k).bind fun l others _ hothers => .value (hfirst.join hothers hjk)
  exact fun s => hall _ i s

theorem walk_enclosed (close : Punct)
    (hitem : ∀ i, Walk c tokens i item fun j a => SpanTree.Row tokens i j [spans a]) (i : Nat) :
    Walk c tokens i (enclosed close item) fun j as => SpanTree.Row tokens i j (as.map spans) := by
  refine (walk_accept i _).bind fun j b hij _ => ?_
  cases b with
  | true => exact .value (.nil hij)
  | false =>
    refine (walk_separated .comma hitem j).bind fun k as _ has => ?_
    exact (walk_expectPunct k close).bind fun l _ hkl _ => .value (has.widen hij hkl)

/-- Items that stand one after the other, those that failed left out. -/
theorem walk_items (hitem : ∀ i, Walk c tokens i item fun j a => SpanTree.Row tokens i j [spans a]) (i : Nat) :
    Walk c tokens i (items item) fun j as => SpanTree.Row tokens i j (as.map spans) := by
  have hall : ∀ limit i,
      Walk c tokens i (itemsUpTo item limit) fun j as => SpanTree.Row tokens i j (as.map spans) := by
    intro limit
    induction limit with
    | zero => exact fun _ => .fail
    | succ limit ih =>
      intro i
      refine (walk_ask i _).bind fun j atCloser hij _ => ?_
      refine (walk_halted j).bind fun k halted hjk _ => ?_
      split
      · exact .value (.nil (Nat.le_trans hij hjk))
      · refine (hitem k).resuming.bind fun l first hkl hfirst => ?_
        refine (ih l).bind fun m others _ hothers => .value ?_
        cases first with
        | none => exact hothers.widen (by omega) (Nat.le_refl _)
        | some a => exact ((hfirst a rfl).join hothers (Nat.le_refl _)).widen (by omega) (Nat.le_refl _)
  exact fun s => hall _ i s

end Lists

/-! ## Spans -/

/-- A value with a span over the tokens that were read for it, and with children among these. -/
theorem walk_spanned {spans : α → SpanTree} {make : Span → α} {children : List SpanTree} {start : Nat}
    (hstart : start = (spanAt c tokens i).start) (hij : i < j) (hrow : SpanTree.Row tokens i j children)
    (hmake : ∀ span, spans (make span) = .node span children) :
    Walk c tokens j (spanFrom start >>= fun span => pure (make span)) fun k a =>
      SpanTree.Over tokens i k (spans a) := by
  refine (walk_spanOver hij hstart).bind ?_
  rintro k span - ⟨rfl, hspan⟩
  refine .value ?_
  rw [hmake]
  exact .node hspan hrow

/-- The same, where tokens before the span may have been skipped. -/
theorem walk_spannedAfter {spans : α → SpanTree} {make : Span → α} {children : List SpanTree} {start : Nat}
    (hki : k ≤ i) (hstart : start = (spanAt c tokens i).start) (hij : i < j) (hrow : SpanTree.Row tokens i j children)
    (hmake : ∀ span, spans (make span) = .node span children) :
    Walk c tokens j (spanFrom start >>= fun span => pure (make span)) fun l a => SpanTree.Row tokens k l [spans a] :=
  (walk_spanned hstart hij hrow hmake).weaken fun l _ _ h => h.row.widen hki (Nat.le_refl l)

end Parser

end Bluespec
