import Bluespec.Proofs.ForwardRuns
import Bluespec.Proofs.Moving
import Bluespec.Proofs.RecordedDeclarations

/-!
# Runs over moved tokens

Nothing a parser does depends on where its tokens stand, but for the spans that it copies.  So two runs over the
same tokens at different places stay alike: same choices, same values and same diagnostics but for the places.

* **`Relocation`** — a monotone move of offsets, and the offsets at which tokens start.
* **`Alike`** — two states that differ by a move.
* **`Tracks`** — runs from such states yield values that differ by the move, and end in such states.
-/

namespace Bluespec

namespace Parser

/-- A way to move the offsets of a source, with the offsets at which its tokens start. -/
structure Relocation where
  /-- Where an offset is moved to. -/
  move : Nat → Nat
  /-- Whether a token starts at an offset. -/
  starts : Nat → Prop
  mono : ∀ {a b : Nat}, a ≤ b → move a ≤ move b

namespace Relocation

variable (ℓ : Relocation)

/-- A token starts at an offset that is not behind the cursor. -/
def Seen (cursor x : Nat) : Prop := ℓ.starts x ∧ x ≤ cursor

/-- Diagnostics, the last one first.  One that does not stand at the start of a token stands behind all that were
reported before it. -/
def InTurn (ds : List Diagnostic) : Prop :=
  ds.Pairwise fun later earlier => ℓ.starts later.span.start ∨ earlier.span.start < later.span.start

variable {ℓ}

theorem Seen.mono {m n x : Nat} (h : ℓ.Seen m x) (hmn : m ≤ n) : ℓ.Seen n x := ⟨h.1, Nat.le_trans h.2 hmn⟩

theorem move_max (a b : Nat) : ℓ.move (max a b) = max (ℓ.move a) (ℓ.move b) := by
  rcases Nat.le_total a b with hab | hab
  · rw [Nat.max_eq_right hab, Nat.max_eq_right (ℓ.mono hab)]
  · rw [Nat.max_eq_left hab, Nat.max_eq_left (ℓ.mono hab)]

end Relocation

/-- The offset of the cursor. -/
def State.cursor (s : State) (c : Setting) : Nat := (s.peekSpan c).start

/-- Two states that differ by a move.  In the first of them the tokens are in order, and so are the diagnostics. -/
structure Alike (ℓ : Relocation) (c : Setting) (s : State) (c' : Setting) (s' : State) : Prop where
  sourceEnd : c'.sourceEnd = ℓ.move c.sourceEnd
  recovery : c'.recovery = c.recovery
  consumed : s'.consumed = s.consumed.map (Token.move ℓ.move)
  rest : s'.rest = s.rest.map (Token.move ℓ.move)
  diagnostics : s'.diagnostics = s.diagnostics.map (Diagnostic.move ℓ.move)
  ordered : Token.Ordered s.rest
  inside : ∀ t ∈ s.rest, t.span.stop ≤ c.sourceEnd
  starts : ∀ t ∈ s.rest, ℓ.starts t.span.start
  startsEnd : ℓ.starts c.sourceEnd
  lastEnd : s.lastEnd ≤ s.cursor c
  behind : ∀ d ∈ s.diagnostics, d.span.start ≤ s.cursor c
  inTurn : ℓ.InTurn s.diagnostics

namespace Alike

variable {ℓ : Relocation} {c c' : Setting} {s s' : State}

theorem peek (h : Alike ℓ c s c' s') : s'.peek = s.peek := by
  rw [State.peek, State.peek, h.rest, List.head?_map, Option.map_map]
  rfl

theorem nth (h : Alike ℓ c s c' s') (n : Nat) : s'.nth n = s.nth n := by
  rw [State.nth, State.nth, h.rest, List.getElem?_map, Option.map_map]
  rfl

theorem peekSpan (h : Alike ℓ c s c' s') : s'.peekSpan c' = (s.peekSpan c).move ℓ.move := by
  rw [State.peekSpan, State.peekSpan, h.rest, h.sourceEnd, List.head?_map, Option.map_map]
  cases s.rest.head? <;> rfl

theorem seen (h : Alike ℓ c s c' s') : ℓ.Seen (s.cursor c) (s.cursor c) := by
  refine ⟨?_, Nat.le_refl _⟩
  unfold State.cursor State.peekSpan
  cases hrest : s.rest with
  | nil => exact h.startsEnd
  | cons t ts => exact h.starts t (hrest ▸ List.mem_cons_self)

theorem spanFrom (h : Alike ℓ c s c' s') (start : Nat) :
    s'.spanFrom (ℓ.move start) = (s.spanFrom start).move ℓ.move := by
  unfold State.spanFrom State.lastEnd Span.move
  rw [h.consumed]
  cases s.consumed with
  | nil => simp
  | cons t ts =>
    rw [List.head?_cons, Option.map_some, Option.getD_some, Relocation.move_max]
    rfl

theorem isEmpty (h : Alike ℓ c s c' s') : s'.diagnostics.isEmpty = s.diagnostics.isEmpty := by
  rw [h.diagnostics]
  cases s.diagnostics <;> rfl

theorem length (h : Alike ℓ c s c' s') : s'.rest.length = s.rest.length := by
  rw [h.rest, List.length_map]

/-- The cursor is behind the first token once it has been read. -/
theorem stop_le_cursor {t : Token} {ts : List Token} (h : Alike ℓ c s c' s') (hrest : s.rest = t :: ts) :
    t.span.stop ≤ s.step.cursor c := by
  have hordered := h.ordered
  have hinside := h.inside
  rw [hrest] at hordered hinside
  unfold State.cursor State.peekSpan State.step
  rw [hrest]
  cases ts with
  | nil => exact hinside t List.mem_cons_self
  | cons t' ts => exact List.rel_of_pairwise_cons hordered.before List.mem_cons_self

theorem cursor_le_step (h : Alike ℓ c s c' s') : s.cursor c ≤ s.step.cursor c := by
  cases hrest : s.rest with
  | nil => exact Nat.le_of_eq (congrArg (State.cursor · c) (State.step_of_nil hrest).symm)
  | cons t ts =>
    have hstop := h.stop_le_cursor hrest
    have hlt := h.ordered.nonempty t (hrest ▸ List.mem_cons_self)
    have hcursor : s.cursor c = t.span.start := by
      rw [State.cursor, State.peekSpan, hrest]
      rfl
    omega

theorem step (h : Alike ℓ c s c' s') : Alike ℓ c s.step c' s'.step := by
  cases hrest : s.rest with
  | nil =>
    have hrest' : s'.rest = [] := by rw [h.rest, hrest, List.map_nil]
    rw [State.step_of_nil hrest, State.step_of_nil hrest']
    exact h
  | cons t ts =>
    have hrest' : s'.rest = t.move ℓ.move :: ts.map (Token.move ℓ.move) := by rw [h.rest, hrest, List.map_cons]
    have hstep : s.step = { s with consumed := t :: s.consumed, rest := ts } := by rw [State.step, hrest]
    have hstep' : s'.step =
        { s' with consumed := t.move ℓ.move :: s'.consumed, rest := ts.map (Token.move ℓ.move) } := by
      rw [State.step, hrest']
    have hstop := h.stop_le_cursor hrest
    have hcursor := h.cursor_le_step
    have hordered : Token.Ordered ([t] ++ ts) := by
      rw [List.singleton_append, ← hrest]
      exact h.ordered
    rw [hstep] at hstop hcursor ⊢
    rw [hstep']
    refine ⟨h.sourceEnd, h.recovery, ?_, rfl, h.diagnostics, hordered.right, ?_, ?_, h.startsEnd, hstop, ?_, h.inTurn⟩
    · rw [h.consumed, List.map_cons]
    · exact fun t' ht' => h.inside t' (hrest ▸ List.mem_cons_of_mem t ht')
    · exact fun t' ht' => h.starts t' (hrest ▸ List.mem_cons_of_mem t ht')
    · exact fun d hd => Nat.le_trans (h.behind d hd) hcursor

theorem advance (h : Alike ℓ c s c' s') (n : Nat) :
    Alike ℓ c (s.advance n) c' (s'.advance n) ∧ s.cursor c ≤ (s.advance n).cursor c := by
  induction n generalizing s s' with
  | zero => exact ⟨h, Nat.le_refl _⟩
  | succ n ih =>
    obtain ⟨halike, hcursor⟩ := ih h.step
    exact ⟨halike, Nat.le_trans h.cursor_le_step hcursor⟩

/-- A diagnostic that stands in turn. -/
theorem reportAt (h : Alike ℓ c s c' s') (span : Span) (hcursor : span.start ≤ s.cursor c)
    (hturn : ∀ d ∈ s.diagnostics, ℓ.starts span.start ∨ d.span.start < span.start) (problem : Problem) :
    Alike ℓ c (s.report span problem) c' (s'.report (span.move ℓ.move) problem) := by
  refine ⟨h.sourceEnd, h.recovery, h.consumed, h.rest, ?_, h.ordered, h.inside, h.starts, h.startsEnd, h.lastEnd,
    List.forall_mem_cons.mpr ⟨hcursor, h.behind⟩, List.pairwise_cons.mpr ⟨hturn, h.inTurn⟩⟩
  show _ :: s'.diagnostics = _
  rw [h.diagnostics]
  rfl

/-- A diagnostic at the start of a token that has been seen. -/
theorem report (h : Alike ℓ c s c' s') {span : Span} (hspan : ℓ.Seen (s.cursor c) span.start) (problem : Problem) :
    Alike ℓ c (s.report span problem) c' (s'.report (span.move ℓ.move) problem) :=
  h.reportAt span hspan.2 (fun _ _ => .inl hspan.1) problem

/-- Declarations are recorded apart from everything else. -/
theorem record (h : Alike ℓ c s c' s') (kind kind' : NodeKind) (span span' : Span) :
    Alike ℓ c (s.record kind span) c' (s'.record kind' span') ∧ (s.record kind span).cursor c = s.cursor c := by
  unfold State.record
  split
  · split
    · exact ⟨h, rfl⟩
    · exact ⟨⟨h.sourceEnd, h.recovery, h.consumed, h.rest, h.diagnostics, h.ordered, h.inside, h.starts, h.startsEnd,
        h.lastEnd, h.behind, h.inTurn⟩, rfl⟩
  · split
    · exact ⟨⟨h.sourceEnd, h.recovery, h.consumed, h.rest, h.diagnostics, h.ordered, h.inside, h.starts, h.startsEnd,
        h.lastEnd, h.behind, h.inTurn⟩, rfl⟩
    · exact ⟨⟨h.sourceEnd, h.recovery, h.consumed, h.rest, h.diagnostics, h.ordered, h.inside, h.starts, h.startsEnd,
        h.lastEnd, h.behind, h.inTurn⟩, rfl⟩

end Alike

/-! ## Parsers -/

/-- Runs of two parsers from states that are alike, where the cursor is not before `n`: they yield values in a
relation that may speak about the cursor, or both fail, and end in states that are alike. -/
def Tracks (ℓ : Relocation) (n : Nat) {α : Type} (V : Nat → α → α → Prop) (p p' : Parser α) : Prop :=
  ∀ c s c' s', Alike ℓ c s c' s' → n ≤ s.cursor c →
    Option.Rel (V ((p c s).2.cursor c)) (p c s).1 (p' c' s').1 ∧ Alike ℓ c (p c s).2 c' (p' c' s').2 ∧
      s.cursor c ≤ (p c s).2.cursor c

/-- The second value is the first one moved. -/
def By {α : Type} (move : α → α) (_ : Nat) (a a' : α) : Prop := a' = move a

/-- The second value is the first one. -/
abbrev Same {α : Type} : Nat → α → α → Prop := By id

/-- A relation of values is not lost when the cursor moves on. -/
def Lasting {α : Type} (V : Nat → α → α → Prop) : Prop := ∀ k m a a', k ≤ m → V k a a' → V m a a'

theorem lasting_by {α : Type} (move : α → α) : Lasting (By move) := fun _ _ _ _ _ h => h

namespace Tracks

variable {ℓ : Relocation} {n m : Nat} {α β : Type} {V : Nat → α → α → Prop} {W : Nat → β → β → Prop}
  {p p' : Parser α} {f f' : α → Parser β}

theorem weaken (h : Tracks ℓ n V p p') (hn : n ≤ m) {V' : Nat → α → α → Prop}
    (hV : ∀ k a a', m ≤ k → V k a a' → V' k a a') : Tracks ℓ m V' p p' := by
  intro c s c' s' hs hm
  obtain ⟨hr, hs₁, hle⟩ := h c s c' s' hs (Nat.le_trans hn hm)
  refine ⟨?_, hs₁, hle⟩
  revert hr
  cases (p c s).1 <;> cases (p' c' s').1 <;> intro hr <;> cases hr
  · exact .none
  · exact .some (hV _ _ _ (Nat.le_trans hm hle) ‹_›)

theorem later (h : Tracks ℓ n V p p') (hn : n ≤ m) : Tracks ℓ m V p p' := h.weaken hn fun _ _ _ _ hv => hv

theorem ret {a a' : α} (h : ∀ k, n ≤ k → V k a a') : Tracks ℓ n V (pure a) (pure a') :=
  fun _ _ _ _ hs hn => ⟨.some (h _ hn), hs, Nat.le_refl _⟩

theorem failed : Tracks ℓ n V fail fail := fun _ _ _ _ hs _ => ⟨.none, hs, Nat.le_refl _⟩

/-- Two parsers in a row; the cursor may have moved in between. -/
theorem seq (hp : Tracks ℓ n V p p') (hf : ∀ m a a', n ≤ m → V m a a' → Tracks ℓ m W (f a) (f' a')) :
    Tracks ℓ n W (p >>= f) (p' >>= f') := by
  intro c s c' s' hs hn
  obtain ⟨hr, hs₁, hle⟩ := hp c s c' s' hs hn
  rw [bind_apply, bind_apply]
  revert hr hs₁ hle
  cases p c s with
  | mk r s₁ =>
    cases p' c' s' with
    | mk r' s₁' =>
      intro hr hs₁ hle
      cases hr with
      | none => exact ⟨.none, hs₁, hle⟩
      | some hv =>
        obtain ⟨hr₂, hs₂, hle₂⟩ := hf _ _ _ (Nat.le_trans hn hle) hv c s₁ c' s₁' hs₁ (Nat.le_refl _)
        exact ⟨hr₂, hs₂, Nat.le_trans hle hle₂⟩

/-- Two parsers in a row, where the second value of the first is moved. -/
theorem next {move : α → α} (hp : Tracks ℓ n (By move) p p') (hf : ∀ a, Tracks ℓ n W (f a) (f' (move a))) :
    Tracks ℓ n W (p >>= f) (p' >>= f') :=
  hp.seq fun m a a' hm ha => by
    rw [By] at ha
    subst ha
    exact (hf a).later hm

/-! ### Looking -/

theorem asked {g : State → α} (h : ∀ c s c' s', Alike ℓ c s c' s' → g s' = g s) :
    Tracks ℓ n Same (ask g) (ask g) :=
  fun c s c' s' hs _ => ⟨.some (h c s c' s' hs), hs, Nat.le_refl _⟩

theorem peek : Tracks ℓ n Same Parser.peek Parser.peek := asked fun _ _ _ _ hs => hs.peek

theorem isNext (k : Kind) : Tracks ℓ n Same (Parser.isNext k) (Parser.isNext k) :=
  asked fun _ s _ s' hs => by rw [State.isNext, State.isNext, hs.peek]

theorem atEnd : Tracks ℓ n Same (ask State.atEnd) (ask State.atEnd) :=
  asked fun _ s _ s' hs => by rw [State.atEnd, State.atEnd, hs.rest, List.isEmpty_map]

theorem atCloser : Tracks ℓ n Same (ask State.atCloser) (ask State.atCloser) :=
  asked fun _ s _ s' hs => by rw [State.atCloser, State.atCloser, hs.peek]

theorem halted : Tracks ℓ n Same Parser.halted Parser.halted := by
  intro c s c' s' hs _
  refine ⟨.some ?_, hs, Nat.le_refl _⟩
  show (c'.recovery == .firstError && !s'.diagnostics.isEmpty) = _
  rw [hs.recovery, hs.isEmpty]
  rfl

/-- The offset of the next token, which has been seen from then on. -/
theorem offset : Tracks ℓ n (fun k x x' => x' = ℓ.move x ∧ ℓ.Seen k x) Parser.offset Parser.offset := by
  intro c s c' s' hs _
  refine ⟨.some ⟨?_, hs.seen⟩, hs, Nat.le_refl _⟩
  show (s'.peekSpan c').start = _
  rw [hs.peekSpan]
  rfl

theorem peekSpan :
    Tracks ℓ n (fun k x x' => x' = x.move ℓ.move ∧ ℓ.Seen k x.start) Parser.peekSpan Parser.peekSpan :=
  fun _ _ _ _ hs _ => ⟨.some ⟨hs.peekSpan, hs.seen⟩, hs, Nat.le_refl _⟩

theorem spanFrom (start : Nat) :
    Tracks ℓ n (fun _ x x' => x' = x.move ℓ.move ∧ x.start = start) (Parser.spanFrom start)
      (Parser.spanFrom (ℓ.move start)) :=
  fun _ _ _ _ hs _ => ⟨.some ⟨hs.spanFrom start, rfl⟩, hs, Nat.le_refl _⟩

/-- A value around the span of what was read. -/
theorem spanned {start : Nat} {make make' : Span → α} (h : ∀ k stop, n ≤ k →
    V k (make ⟨start, stop⟩) (make' (Span.move ℓ.move ⟨start, stop⟩))) :
    Tracks ℓ n V (Parser.spanFrom start >>= fun span => pure (make span))
      (Parser.spanFrom (ℓ.move start) >>= fun span => pure (make' span)) :=
  (spanFrom start).seq fun m span span' hm hspan => by
    obtain ⟨rfl, hstart⟩ := hspan
    obtain ⟨first, stop⟩ := span
    subst hstart
    exact .ret fun k hk => h k stop (Nat.le_trans hm hk)

/-! ### Reporting -/

theorem report {span : Span} (h : ℓ.Seen n span.start) (problem : SyntaxProblem) :
    Tracks ℓ n Same (Parser.report span problem) (Parser.report (span.move ℓ.move) problem) :=
  fun _ _ _ _ hs hn => ⟨.some rfl, hs.report (h.mono hn) _, Nat.le_refl _⟩

theorem reportUnsupported {span : Span} (h : ℓ.Seen n span.start) (construct : Construct) :
    Tracks ℓ n Same (Parser.reportUnsupported span construct)
      (Parser.reportUnsupported (span.move ℓ.move) construct) :=
  fun _ _ _ _ hs hn => ⟨.some rfl, hs.report (h.mono hn) _, Nat.le_refl _⟩

/-- Reporting all the text from an offset that has been seen. -/
theorem reportFrom {start : Nat} (h : ℓ.Seen n start) (construct : Construct) {f f' : Unit → Parser β}
    (hf : ∀ m, n ≤ m → Tracks ℓ m W (f ()) (f' ())) :
    Tracks ℓ n W (Parser.spanFrom start >>= fun span => Parser.reportUnsupported span construct >>= f)
      (Parser.spanFrom (ℓ.move start) >>= fun span => Parser.reportUnsupported span construct >>= f') := by
  refine (spanFrom start).seq fun k span span' hk hspan => ?_
  obtain ⟨rfl, hspan⟩ := hspan
  exact (reportUnsupported (hspan ▸ h.mono hk) _).next fun _ => hf k hk

theorem reportExpected (what : Expectation) :
    Tracks ℓ n Same (Parser.reportExpected what) (Parser.reportExpected what) := by
  intro c s c' s' hs _
  refine ⟨.some rfl, ?_, Nat.le_refl _⟩
  show Alike ℓ c (s.report (s.peekSpan c) _) c' (s'.report (s'.peekSpan c') (.grammar (.expected what s'.peek)))
  rw [hs.peekSpan, hs.peek]
  exact hs.report hs.seen _

theorem failExpected (what : Expectation) :
    Tracks ℓ n V (Parser.failExpected what) (Parser.failExpected what) :=
  (reportExpected what).next fun _ => .failed

theorem record (kind : NodeKind) (span span' : Span) :
    Tracks ℓ n Same (Parser.record kind span) (Parser.record kind span') := by
  intro c s c' s' hs _
  obtain ⟨halike, hcursor⟩ := hs.record kind kind span span'
  exact ⟨.some rfl, halike, Nat.le_of_eq hcursor.symm⟩

/-! ### Reading -/

theorem skip : Tracks ℓ n Same Parser.skip Parser.skip :=
  fun _ _ _ _ hs _ => ⟨.some rfl, hs.step, hs.cursor_le_step⟩

/-- A token that has been read, with its start. -/
def TokenAt (ℓ : Relocation) (k : Nat) (t t' : Token) : Prop := t' = t.move ℓ.move ∧ ℓ.Seen k t.span.start

theorem eat (k : Kind) : Tracks ℓ n (fun m => Option.Rel (TokenAt ℓ m)) (Parser.eat k) (Parser.eat k) := by
  intro c s c' s' hs _
  cases hrest : s.rest with
  | nil =>
    have hrest' : s'.rest = [] := by rw [hs.rest, hrest, List.map_nil]
    have heat : Parser.eat k c s = (some none, s) := by rw [Parser.eat, hrest]
    have heat' : Parser.eat k c' s' = (some none, s') := by rw [Parser.eat, hrest']
    rw [heat, heat']
    exact ⟨.some .none, hs, Nat.le_refl _⟩
  | cons t ts =>
    have hrest' : s'.rest = t.move ℓ.move :: ts.map (Token.move ℓ.move) := by rw [hs.rest, hrest, List.map_cons]
    by_cases hk : t.kind = k
    · have heat : Parser.eat k c s = (some (some t), s.step) := by rw [Parser.eat, hrest]; exact if_pos hk
      have heat' : Parser.eat k c' s' = (some (some (t.move ℓ.move)), s'.step) := by
        rw [Parser.eat, hrest']
        exact if_pos hk
      have hstart : ℓ.Seen (s.cursor c) t.span.start := by
        have hseen := hs.seen
        unfold State.cursor State.peekSpan at hseen ⊢
        rw [hrest] at hseen ⊢
        exact hseen
      rw [heat, heat']
      exact ⟨.some (.some ⟨rfl, hstart.mono hs.cursor_le_step⟩), hs.step, hs.cursor_le_step⟩
    · have heat : Parser.eat k c s = (some none, s) := by rw [Parser.eat, hrest]; exact if_neg hk
      have heat' : Parser.eat k c' s' = (some none, s') := by rw [Parser.eat, hrest']; exact if_neg hk
      rw [heat, heat']
      exact ⟨.some .none, hs, Nat.le_refl _⟩

theorem accept (k : Kind) : Tracks ℓ n Same (Parser.accept k) (Parser.accept k) :=
  (eat k).seq fun m t t' hm ht => .ret fun _ _ => by cases ht <;> rfl

theorem expect (k : Kind) : Tracks ℓ n (TokenAt ℓ) (Parser.expect k) (Parser.expect k) :=
  (eat k).seq fun m t t' hm ht => by
    cases ht with
    | none => exact failExpected _
    | some ht => exact .ret fun _ hk => ⟨ht.1, ht.2.mono hk⟩

theorem expectText (k : Kind) : Tracks ℓ n Same (Parser.expectText k) (Parser.expectText k) :=
  (expect k).seq fun _ t t' _ ht => .ret fun _ _ => by rw [ht.1]; rfl

theorem expectPunct (k : Punct) : Tracks ℓ n Same (Parser.expectPunct k) (Parser.expectPunct k) :=
  (expect _).seq fun _ _ _ _ _ => .ret fun _ _ => rfl

theorem expectKeyword (k : Keyword) : Tracks ℓ n Same (Parser.expectKeyword k) (Parser.expectKeyword k) :=
  (expect _).seq fun _ _ _ _ _ => .ret fun _ _ => rfl

/-! ### Attempts -/

theorem attempt (h : Tracks ℓ n V p p') :
    Tracks ℓ n (fun k => Option.Rel (V k)) (Parser.attempt p) (Parser.attempt p') := by
  intro c s c' s' hs hn
  obtain ⟨hr, hs₁, hle⟩ := h c s c' s' hs hn
  exact ⟨.some hr, hs₁, hle⟩

theorem lookahead (h : Tracks ℓ n Same p p') (hp : Moving p) (hp' : Moving p') :
    Tracks ℓ n Same (Parser.lookahead p) (Parser.lookahead p') := by
  intro c s c' s' hs hn
  obtain ⟨hr, -, -⟩ := h c s c' s' hs hn
  rw [lookahead_eq (hp c s), lookahead_eq (hp' c' s')]
  refine ⟨.some ?_, hs, Nat.le_refl _⟩
  show (p' c' s').1 = (p c s).1
  revert hr
  cases (p c s).1 <;> cases (p' c' s').1 <;> intro hr <;> cases hr
  · rfl
  · exact congrArg some ‹_›

theorem tentatively (h : Tracks ℓ n V p p') (hp : Moving p) (hp' : Moving p') :
    Tracks ℓ n (fun k => Option.Rel (V k)) (Parser.tentatively p) (Parser.tentatively p') := by
  intro c s c' s' hs hn
  obtain ⟨hr, hs₁, hle⟩ := h c s c' s' hs hn
  rcases hrun : p c s with ⟨r, s₁⟩
  rcases hrun' : p' c' s' with ⟨r', s₁'⟩
  rw [hrun, hrun'] at hr hs₁
  rw [hrun] at hle
  cases hr with
  | none =>
    rw [tentatively_of_none (hp.of_run hrun) hrun, tentatively_of_none (hp'.of_run hrun') hrun']
    exact ⟨.some .none, hs, Nat.le_refl _⟩
  | some hv =>
    rw [tentatively_of_some hrun, tentatively_of_some hrun']
    exact ⟨.some (.some hv), hs₁, hle⟩

/-! ### Loops -/

/-- Rounds that go on with values in one relation, or end with values in another. -/
inductive RoundRel (V : α → α → Prop) (W : β → β → Prop) : Round α β → Round α β → Prop
  | again {a a' : α} : V a a' → RoundRel V W (.again a) (.again a')
  | done {b b' : β} : W b b' → RoundRel V W (.done b) (.done b')

theorem roundsUpTo {round round' : α → Parser (Round α β)} (hW : Lasting W)
    (h : ∀ m a a', n ≤ m → V m a a' → Tracks ℓ m (fun k => RoundRel (V k) (W k)) (round a) (round' a')) (limit : Nat)
    {a a' : α} (hn : n ≤ m) (ha : V m a a') : Tracks ℓ m W (Parser.roundsUpTo round limit a)
      (Parser.roundsUpTo round' limit a') := by
  induction limit generalizing m a a' with
  | zero => exact .failed
  | succ limit ih =>
    refine (h m a a' hn ha).seq fun k r r' hk hr => ?_
    cases hr with
    | again hv => exact ih (Nat.le_trans hn hk) hv
    | done hw => exact .ret fun k' hk' => hW k k' _ _ hk' hw

theorem repeatUntil {round round' : α → Parser (Round α β)} (hW : Lasting W)
    (h : ∀ m a a', n ≤ m → V m a a' → Tracks ℓ m (fun k => RoundRel (V k) (W k)) (round a) (round' a')) {a a' : α}
    (ha : V n a a') : Tracks ℓ n W (Parser.repeatUntil round a) (Parser.repeatUntil round' a') := by
  intro c s c' s' hs hn
  unfold Parser.repeatUntil
  rw [hs.length]
  exact roundsUpTo hW h _ (Nat.le_refl n) ha c s c' s' hs hn

section Lists

variable {move : α → α}

theorem separatedUpTo {separator : Punct} (h : Tracks ℓ n (By move) p p') (limit : Nat) :
    Tracks ℓ n (By (List.map move)) (Parser.separatedUpTo separator p limit)
      (Parser.separatedUpTo separator p' limit) := by
  induction limit with
  | zero => exact .failed
  | succ limit ih =>
    refine h.next fun a => (accept _).next fun more => ?_
    cases more with
    | true => exact ih.next fun as => .ret fun _ _ => rfl
    | false => exact .ret fun _ _ => rfl

theorem separated {separator : Punct} (h : Tracks ℓ n (By move) p p') :
    Tracks ℓ n (By (List.map move)) (Parser.separated separator p) (Parser.separated separator p') := by
  intro c s c' s' hs hn
  unfold Parser.separated
  rw [hs.length]
  exact h.separatedUpTo _ c s c' s' hs hn

theorem enclosed {close : Punct} (h : Tracks ℓ n (By move) p p') :
    Tracks ℓ n (By (List.map move)) (Parser.enclosed close p) (Parser.enclosed close p') := by
  refine (accept _).next fun closed => ?_
  cases closed with
  | true => exact .ret fun _ _ => rfl
  | false => exact h.separated.next fun as => (expectPunct _).next fun _ => .ret fun _ _ => rfl

theorem present (h : Tracks ℓ n (By move) p p') : Tracks ℓ n (By (Option.map move)) (some <$> p) (some <$> p') :=
  h.next fun _ => .ret fun _ _ => rfl

/-- A part that may be left out. -/
theorem optional {b : Bool} {g g' : Option α → Parser β} (h : Tracks ℓ n (By move) p p')
    (hg : ∀ r, Tracks ℓ n W (g r) (g' (r.map move))) :
    Tracks ℓ n W (if b then some <$> p >>= g else pure none >>= g)
      (if b then some <$> p' >>= g' else pure none >>= g') := by
  cases b with
  | true => exact h.present.next hg
  | false => exact hg none

end Lists

end Tracks

end Parser

end Bluespec
