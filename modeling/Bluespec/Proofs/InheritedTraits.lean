import Bluespec.Grammar.SourceUnit
import Bluespec.Proofs.Declarations
import Bluespec.Proofs.ForwardRuns
import Bluespec.Proofs.TypeTraits

/-!
# Traits that a whole grammar inherits

Beyond what any parser is put together from, a grammar resumes after failures, records declarations, asks
whether it is to stop, and tries a chain of conditions that it may take back.

* **`Grammar.full`**, **`Grammar.Deep`** — the grammar that refers to itself, and those of enough levels.
* **`Inherited`** — a trait that passes through these as well.
* **`Level`** — a trait of all that an outer production calls.
* **`Inherited.items`**, **`Inherited.header`**, **`Inherited.definition`** — the rules for what all definitions share.
-/

namespace Bluespec

open Bluespec.Parser

/-! ## Grammars of enough levels -/

/-- The grammar whose inner parsers are given as many levels as there are tokens left. -/
def Grammar.full : Grammar where
  innerExpr min := withGrammar fun g => g.expr min
  innerOperand := withGrammar Grammar.operand
  innerStmt dialect := withGrammar fun g => g.stmt dialect
  innerMethod := withGrammar Grammar.methodDef
  innerSubinterface := withGrammar Grammar.subinterfaceDef
  innerModule := withGrammar Grammar.moduleDef

/-- A grammar with at least `n` levels, or the one that refers to itself. -/
inductive Grammar.Deep (n : Nat) : Grammar → Prop
  | upTo {m : Nat} (h : n ≤ m) : Deep n (Grammar.upTo m)
  | full : Deep n Grammar.full

namespace Parser

open Grade Mark

variable {E : Trait} {α β : Type} {γ : Grade} {n : Nat} {past : Bool} {pre : State → Prop}
  {before : List NodeSpan}

/-! ## Recording -/

/-- Records the declaration that a value is, if it is one. -/
def noting (node? : α → Option NodeSpan) (a : α) : Parser α :=
  match node? a with
  | some m => do
    record m.kind m.span
    return a
  | none => return a

/-- The value of a parser that is a declaration covers all that was read for it. -/
def Covering (node? : α → Option NodeSpan) (p : Parser α) : Prop :=
  ∀ c s a s' m, p c s = (some a, s') → node? a = some m → m.span = s'.spanFrom (s.peekSpan c).start

theorem Steady.noting {node? : α → Option NodeSpan} {mark : α → Mark} {a : α} (hmark : mark a = nothing) :
    Steady γ mark (noting node? a) := by
  have htells : ∀ s s', (mark a).Tells s s' := fun s s' => hmark ▸ tells_nothing s s'
  intro c s _
  unfold Parser.noting
  cases node? a with
  | none => exact ⟨.refl s, htells _ _⟩
  | some m => exact ⟨.record s m.kind m.span, htells _ _⟩

/-! ## Stopping and resuming -/

theorem Steady.halted {f : Bool → Parser β} {mark : β → Mark} (htrue : Steady (Grade.dirty n past) mark (f true))
    (hfalse : Steady ⟨n, pre, past⟩ mark (f false)) : Steady ⟨n, pre, past⟩ mark (halted >>= f) := by
  intro c s hs
  have hrun : (Parser.halted >>= f) c s = f (c.recovery == .firstError && !s.diagnostics.isEmpty) c s := rfl
  rw [hrun]
  cases hb : c.recovery == .firstError && !s.diagnostics.isEmpty with
  | false => exact hfalse c s hs
  | true =>
    refine htrue c s ⟨hs.1, fun hnil => ?_⟩
    rw [hnil, List.isEmpty_nil, Bool.not_true, Bool.and_false] at hb
    cases hb

theorem recovery_pos {t : Token} {ts : List Token} (h : t.kind.isCloser = false) :
    0 < Extent.recovery true 0 (t :: ts) := by
  have hno : ¬((0 : Nat) = 0 ∧ (t.kind.isCloser = true ∨ true = false ∧ t.kind.startsDefinition = true)) := by
    rw [h]
    exact nofun
  rw [Extent.recovery, if_neg hno]
  split
  · exact Nat.one_pos
  · exact Nat.succ_pos _

theorem State.open_of_atCloser {s : State} (h : s.atCloser = false) :
    ∃ t ts, s.rest = t :: ts ∧ t.kind.isCloser = false := by
  obtain ⟨cs, rest, ds, ns⟩ := s
  cases rest with
  | nil => cases h
  | cons t ts => exact ⟨t, ts, rfl, h⟩

/-- Where something is left to read, resuming reads it. -/
theorem resumeState_reads {s s' : State} (h : s.Moves s') (hopen : s.atCloser = false) :
    (resumeState s s').rest.length < s.rest.length := by
  obtain ⟨t, ts, hrest, hkind⟩ := State.open_of_atCloser hopen
  have hle := h.length_le
  unfold resumeState
  by_cases heq : s'.rest.length = s.rest.length
  · have hsame : s'.rest = t :: ts := by rw [← hrest, h.rest.eq_of_length heq]
    have hpos : 0 < Extent.recovery true 0 (t :: ts) := recovery_pos hkind
    rw [if_pos (.inl heq), State.advance_rest, hsame, hrest, List.length_drop, List.length_cons]
    omega
  · split
    · rw [State.advance_rest, List.length_drop]
      omega
    · omega

theorem Steady.resuming {p : Parser α} {k : α → Mark} (h : Steady γ k p) :
    Steady γ (fun _ => nothing) (resuming p) := by
  intro c s hs
  unfold Parser.resuming
  cases hp : p c s with
  | mk r s' =>
    have hmoves := h.moves hs hp
    cases r with
    | none => exact ⟨hmoves.trans (.resumeState s s'), tells_nothing _ _⟩
    | some a => exact ⟨hmoves, tells_nothing _ _⟩

theorem Steady.resumingOpen {p : Parser α} (h : Steady γ (fun _ => reading) p)
    (hopen : ∀ s, γ.Admits s → s.atCloser = false) : Steady γ (fun _ => reading) (Parser.resuming p) := by
  intro c s hs
  unfold Parser.resuming
  cases hp : p c s with
  | mk r s' =>
    have hmoves := h.moves hs hp
    cases r with
    | none => exact ⟨hmoves.trans (.resumeState s s'), fun _ => resumeState_reads hmoves (hopen s hs), nofun⟩
    | some a => exact ⟨hmoves, h.tells hs hp⟩

/-! ## Chains of conditions -/

section Chains

variable {g : Grammar} {c : Setting} {s s' : State}

theorem conjuncts_of_some {es : List Expr} (h : g.furtherConjuncts (conditionalPower + 1) c s = (some es, s')) :
    g.conjunctsOfConditional c s =
      (if !es.isEmpty && s'.isNext (.punct .question) then some es else none, s') := by
  rw [Grammar.conjunctsOfConditional, bind_of_some h]
  show (if !es.isEmpty && s'.isNext (.punct .question) then pure es else fail : Parser (List Expr)) c s' = _
  cases !es.isEmpty && s'.isNext (.punct .question) <;> rfl

theorem conjuncts_of_none (h : g.furtherConjuncts (conditionalPower + 1) c s = (none, s')) :
    g.conjunctsOfConditional c s = (none, s') := by
  rw [Grammar.conjunctsOfConditional, bind_of_none h]

/-- The look for a conditional moves nothing. -/
theorem conjuncts_state :
    (g.conjunctsOfConditional c s).2 = (g.furtherConjuncts (conditionalPower + 1) c s).2 := by
  rcases hrun : g.furtherConjuncts (conditionalPower + 1) c s with ⟨_ | es, s'⟩
  · rw [conjuncts_of_none hrun]
  · rw [conjuncts_of_some hrun]

/-- A chain of conditions is kept, or nothing has happened. -/
theorem chain_cases (hmoves : s.Moves (g.furtherConjuncts (conditionalPower + 1) c s).2) :
    (∃ es s', g.furtherConjuncts (conditionalPower + 1) c s = (some es, s') ∧
        tentatively g.conjunctsOfConditional c s = (some (some es), s')) ∨
      tentatively g.conjunctsOfConditional c s = (some none, s) := by
  cases hrun : g.furtherConjuncts (conditionalPower + 1) c s with
  | mk r s' =>
    rw [hrun] at hmoves
    cases r with
    | none => exact .inr (tentatively_of_none hmoves (conjuncts_of_none hrun))
    | some es =>
      have hconjuncts := conjuncts_of_some hrun
      cases hkept : !es.isEmpty && s'.isNext (.punct .question) with
      | true =>
        rw [hkept] at hconjuncts
        exact .inl ⟨es, s', rfl, tentatively_of_some hconjuncts⟩
      | false =>
        rw [hkept] at hconjuncts
        exact .inr (tentatively_of_none hmoves hconjuncts)

end Chains

/-! ## Inherited traits -/

/-- A trait of all that an outer production calls once it has read a token, and of chains of conditions. -/
structure Level (E : Trait) (n : Nat) (g g' : Grammar) : Prop where
  deep : g.Deep n
  expr (min : Nat) (before : List NodeSpan) : Holds E (free n false) (fun _ => reading) before
    (g.innerExpr min) (g'.innerExpr min) fun e => before ++ e.declared
  operand (before : List NodeSpan) : Holds E (free n false) (fun _ => reading) before
    g.innerOperand g'.innerOperand fun e => before ++ e.declared
  stmt (dialect : Dialect) (before : List NodeSpan) : Holds E (free n false) (fun _ => reading) before
    (g.innerStmt dialect) (g'.innerStmt dialect) fun s => before ++ s.declared
  method (before : List NodeSpan) : Holds E (headed n false) (fun _ => reading) before
    g.innerMethod g'.innerMethod fun d => before ++ d.declared
  subinterface (before : List NodeSpan) : Holds E (headed n false) (fun _ => reading) before
    g.innerSubinterface g'.innerSubinterface fun d => before ++ d.declared
  module (before : List NodeSpan) : Holds E (headed n false) (fun _ => reading) before
    g.innerModule g'.innerModule fun d => before ++ d.declared

/-- A trait passes through all that a grammar is put together from. -/
structure Inherited (E : Trait) : Prop extends Closed E where
  discards {α : Type} {γ : Grade} {before : List NodeSpan} {p p' : Parser α} {after : α → List NodeSpan} :
    (∀ s, γ.Admits s → s.diagnostics ≠ []) → E α γ before p p' after → E α γ before p p' fun _ => before
  halts {β : Type} {n : Nat} {pre : State → Prop} {past : Bool} {mark : β → Mark} {before : List NodeSpan}
    {f f' : Bool → Parser β} {after : β → List NodeSpan} :
    Holds E (Grade.dirty n past) mark before (f true) (f' true) after →
    Holds E ⟨n, pre, past⟩ mark before (f false) (f' false) after →
    E β ⟨n, pre, past⟩ before (halted >>= f) (halted >>= f') after
  attempts {α : Type} {γ : Grade} {k : α → Mark} {before : List NodeSpan} {p p' : Parser α}
    {after : α → List NodeSpan} : Holds E γ k before p p' after →
    E (Option α) γ before (attempt p) (attempt p') fun r => r.elim before after
  resumes {α : Type} {γ : Grade} {k : α → Mark} {before : List NodeSpan} {p p' : Parser α}
    {after : α → List NodeSpan} : Holds E γ k before p p' after →
    E (Option α) γ before (resuming p) (resuming p') fun r => r.elim before after
  looksAhead {α : Type} {γ : Grade} {k : α → Mark} {before : List NodeSpan} {p : Parser α} : Plain p → Moving p →
    Holds E γ k before p p (fun _ => before) → E (Option α) γ before (lookahead p) (lookahead p) fun _ => before
  records {α : Type} {n : Nat} {pre : State → Prop} {k : α → Mark} {before : List NodeSpan} {p p' : Parser α}
    {after : α → List NodeSpan} {node? : α → Option NodeSpan} : Covering node? p →
    (∀ a m, node? a = some m → (k a).read = true) → Holds E ⟨n, pre, true⟩ k before p p' after →
    E α ⟨n, pre, false⟩ before (p >>= noting node?) (p' >>= noting node?) fun a => after a ++ (node? a).toList
  lists {α : Type} {n : Nat} {before : List NodeSpan} {reader : ListReader α} {kind : NodeKind} :
    E (α × Span) (headed n false) before (nameList reader kind) (nameList reader kind)
      fun r => before ++ [⟨kind, r.2⟩]
  chains {g g' : Grammar} {n : Nat} {before : List NodeSpan} : g.Deep n →
    Holds E (free (n + 1) true) (fun _ => nothing) before (g.furtherConjuncts (conditionalPower + 1))
      (g'.furtherConjuncts (conditionalPower + 1)) (fun es => before ++ es.flatMap Expr.declared) →
    E (Option (List Expr)) (free (n + 1) true) before (tentatively g.conjunctsOfConditional)
      (tentatively g'.conjunctsOfConditional) fun r => before ++ (r.getD []).flatMap Expr.declared

/-! ## Rules -/

namespace Inherited

section Failures

variable {k : α → Mark} {p p' : Parser α} {after : α → List NodeSpan}

/-- What was read before a failure that is known holds nothing that counts. -/
theorem dropped (h : Inherited E) (hp : Holds E γ k before p p' after)
    (hdirty : ∀ s, γ.Admits s → s.diagnostics ≠ []) : Holds E γ k before p p' fun _ => before :=
  ⟨hp.steady, h.discards hdirty hp.trait⟩

theorem halted (h : Inherited E) {f f' : Bool → Parser β} {mark : β → Mark} {after : β → List NodeSpan}
    (htrue : Holds E (Grade.dirty n past) mark before (f true) (f' true) after)
    (hfalse : Holds E ⟨n, pre, past⟩ mark before (f false) (f' false) after) :
    Holds E ⟨n, pre, past⟩ mark before (Parser.halted >>= f) (Parser.halted >>= f') after :=
  ⟨.halted htrue.steady hfalse.steady, h.halts htrue hfalse⟩

theorem attempted (h : Inherited E) (hp : Holds E γ k before p p' after) :
    Holds E γ (fun r => r.elim failing k) before (attempt p) (attempt p') fun r => r.elim before after :=
  ⟨hp.steady.attempt, h.attempts hp⟩

theorem resumed (h : Inherited E) (hp : Holds E γ k before p p' after) :
    Holds E γ (fun _ => nothing) before (resuming p) (resuming p') fun r => r.elim before after :=
  ⟨hp.steady.resuming, h.resumes hp⟩

theorem resumedOpen (h : Inherited E) (hp : Holds E γ (fun _ => reading) before p p' after)
    (hopen : ∀ s, γ.Admits s → s.atCloser = false) :
    Holds E γ (fun _ => reading) before (resuming p) (resuming p') fun r => r.elim before after :=
  ⟨hp.steady.resumingOpen hopen, h.resumes hp⟩

end Failures

theorem typedDecl (h : Inherited E) :
    Holds E ⟨n, pre, past⟩ (fun _ => nothing) before atTypedDecl atTypedDecl fun _ => before := by
  have hahead : Holds E ⟨n, pre, past⟩ (fun _ => nothing) before
      (lookahead (type >>= fun _ => isNext .ident) >>= fun named => pure (named.getD false))
      (lookahead (type >>= fun _ => isNext .ident) >>= fun named => pure (named.getD false)) fun _ => before := by
    have htype : Holds E ⟨n, pre, past⟩ (fun _ => nothing) before (type >>= fun _ => isNext .ident)
        (type >>= fun _ => isNext .ident) fun _ => before :=
      h.next h.type fun _ => h.looked (looks_isNext .ident)
    have hmoves : Moving (type >>= fun _ => isNext .ident) := Moving.type.bind fun _ => .isNext _
    have hsteady : Steady ⟨n, pre, past⟩ (fun _ => nothing) (lookahead (type >>= fun _ => isNext .ident)) :=
      fun c s _ => by
        rw [lookahead_eq (hmoves c s)]
        exact ⟨.refl s, tells_nothing s s⟩
    exact h.next ⟨hsteady, h.looksAhead plain_typeAndName hmoves htype⟩ fun named => h.ret (.refl _)
  refine h.look looks_peek fun k => ?_
  split
  · exact hahead
  · exact hahead
  · exact h.ret (.refl _)

/-! ## Items -/

section Items

variable {item item' : Parser α} {own : α → List NodeSpan}

theorem looks_atCloser : Looks (ask State.atCloser) fun _ consumed rest =>
    State.atCloser ⟨consumed, rest, [], []⟩ := fun _ _ => rfl

theorem itemsUpTo (h : Inherited E)
    (hitem : ∀ before, Holds E (free n false) (fun _ => reading) before item item' fun a => before ++ own a)
    (limit : Nat) (before : List NodeSpan) :
    Holds E (free (min limit n) false) (fun _ => nothing) before (itemsUpTo item limit) (itemsUpTo item' limit)
      fun as => before ++ as.flatMap own := by
  induction limit generalizing before with
  | zero => exact h.failed fun s hs => absurd hs.1 (by rw [free, Nat.zero_min]; exact Nat.not_lt_zero _)
  | succ limit ih =>
    have hnone : ∀ pre, Holds E ⟨min (limit + 1) n, pre, false⟩ (fun _ => nothing) before (pure []) (pure [])
        fun as => before ++ as.flatMap own := by
      intro pre
      exact h.ret (by rw [List.flatMap_nil, List.append_nil])
    refine h.looking looks_atCloser fun closes => ?_
    cases closes with
    | true => exact h.halted (hnone _) (hnone _)
    | false =>
      refine h.halted (hnone _) ?_
      have hfirst : Holds E ⟨min (limit + 1) n, fun s => True ∧ ∃ _ : Nat,
          State.atCloser ⟨s.consumed, s.rest, [], []⟩ = false, false⟩ (fun _ => reading) before
          (resuming item) (resuming item') fun r => r.elim before fun a => before ++ own a := by
        refine h.resumedOpen (h.restrict (hitem before) ⟨fun s hs => ⟨?_, trivial⟩, id⟩) fun s hs => ?_
        · exact Nat.lt_of_lt_of_le hs.1 (Nat.min_le_right _ _)
        · exact hs.2.2.elim fun _ hc => hc
      refine h.seq hfirst fun first => ?_
      have hothers : Holds E (free (min limit n) false) (fun _ => nothing)
          (first.elim before fun a => before ++ own a)
          (Parser.itemsUpTo item limit >>= fun others => pure (first.toList ++ others))
          (Parser.itemsUpTo item' limit >>= fun others => pure (first.toList ++ others))
          fun as => before ++ as.flatMap own := by
        refine h.next (ih _) fun others => h.ret ?_
        cases first with
        | none => exact .refl _
        | some a =>
          show (before ++ (own a ++ others.flatMap own)).Perm ((before ++ own a) ++ others.flatMap own)
          rw [List.append_assoc]
      refine h.weakened hothers ⟨fun s hs => ⟨?_, trivial⟩, fun hpast => absurd hpast Bool.false_ne_true⟩ ?_
      · have hlt : s.rest.length < min (limit + 1) n - 1 := hs.1
        show s.rest.length < min limit n
        omega
      · exact fun _ s s' _ _ _ => tells_nothing s s'

/-- Items up to a closing word. -/
theorem items (h : Inherited E)
    (hitem : ∀ before, Holds E (free n false) (fun _ => reading) before item item' fun a => before ++ own a) :
    Inside E n before (items item) (items item') fun as => before ++ as.flatMap own :=
  h.withRounds fun limit => h.itemsUpTo hitem limit before

/-- Items that hold no declarations. -/
theorem itemsBare (h : Inherited E)
    (hitem : ∀ before, Holds E (free n false) (fun _ => reading) before item item' fun _ => before) :
    Inside E n before (Parser.items item) (Parser.items item') fun _ => before := by
  have hown : ∀ before, Holds E (free n false) (fun _ => reading) before item item'
      fun a => before ++ (fun _ => []) a := by
    intro before
    simp only [List.append_nil]
    exact hitem before
  have hitems : Inside E n before (Parser.items item) (Parser.items item')
      fun as => before ++ as.flatMap fun _ => [] := h.items hown
  simp only [Closed.flatMap_nothing] at hitems
  exact hitems

end Items

/-! ## Headers and definitions -/

theorem abandon (h : Inherited E) (closing : Keyword) :
    Holds E (Grade.dirty n past) (fun _ => nothing) before (abandon closing) (abandon closing) fun _ => before := by
  have hextent : Holds E (Grade.dirty n past) (fun _ => nothing) before (skipExtent (Extent.definition closing 0))
      (skipExtent (Extent.definition closing 0)) fun _ => before :=
    ⟨.skipExtent (fun _ _ => nofun) (fun _ _ => nofun), h.skips⟩
  refine h.next hextent fun _ => ?_
  refine h.next h.accepted fun b => ?_
  cases b with
  | false => exact h.ret (.refl _)
  | true => exact h.next h.label fun _ => h.ret (.refl _)

theorem header (h : Inherited E) {p p' : Parser α} {after : α → List NodeSpan} (closing : Keyword)
    (hp : Holds E (headed n past) (fun _ => reading) before p p' after) :
    Holds E (headed n past) (fun _ => reading) before (header closing p) (header closing p') after := by
  refine h.seq (h.attempted hp) fun r => ?_
  cases r with
  | some a => exact ⟨.pure fun s _ => tells_nothing s s, h.value (.refl _)⟩
  | none =>
    have hstop : Holds E (Grade.dirty n past) (fun _ => reading) before
        (Parser.abandon closing >>= fun _ => (fail : Parser α))
        (Parser.abandon closing >>= fun _ => (fail : Parser α)) after :=
      h.dirtyNext (h.abandon closing) fun _ => h.failed fun s hs => hs.2
    refine h.weakened hstop ⟨fun s hs => ⟨hs.1, hs.2 rfl⟩, fun hpast => ?_⟩ fun _ s s' _ _ ht => ⟨fun _ => ht.read rfl, nofun⟩
    exact (Bool.and_eq_true_iff.mp hpast).1

theorem recorded (h : Inherited E) {p p' : Parser α} {k : α → Mark} {after : α → List NodeSpan}
    {node? : α → Option NodeSpan} (hcovering : Covering node? p)
    (hread : ∀ a m, node? a = some m → (k a).read = true) (hp : Holds E ⟨n, pre, true⟩ k before p p' after) :
    Holds E ⟨n, pre, false⟩ k before (p >>= noting node?) (p' >>= noting node?)
      fun a => after a ++ (node? a).toList := by
  refine ⟨?_, h.records hcovering hread hp⟩
  have hsteady : Steady ⟨n, pre, false⟩ k p := fun c s hs => hp.steady c s hs
  refine hsteady.bind fun a => .noting ?_
  unfold without nothing
  rw [Bool.and_not_self, Bool.and_not_self]

/-- The closing word of what began at an offset, with its label and the span of the whole. -/
def closingFrom (closing : Keyword) (start : Nat) : Parser (Option Label × Span) := do
  expectKeyword closing
  let endLabel ← Parser.label
  return (endLabel, ← spanFrom start)

theorem ending_eq (closing : Keyword) (kind : NodeKind) (start : Nat) :
    Grammar.ending closing kind start = closingFrom closing start >>= fun e => record kind e.2 >>= fun _ => pure e := by
  simp only [Grammar.ending, closingFrom, bind_assoc, Parser.pure_bind]

theorem closingFrom_eq_some {closing : Keyword} {start : Nat} {c : Setting} {s s' : State} {e : Option Label × Span}
    (he : closingFrom closing start c s = (some e, s')) : e.2 = s'.spanFrom start := by
  obtain ⟨_, s₁, -, he⟩ := bind_eq_some.mp he
  obtain ⟨endLabel, s₂, -, he⟩ := bind_eq_some.mp he
  obtain ⟨span, s₃, hspan, he⟩ := bind_eq_some.mp he
  obtain ⟨rfl, rfl⟩ := pure_eq_some.mp he
  cases spanFrom_eq_some hspan
  cases hspan
  rfl

section Definitions

variable {ω : Type} {p p' : Parser α} {rest rest' : α → Parser β} {closing : Keyword} {kind : NodeKind}
  (mk : α → β → Option Label → Span → ω) (spanOf : ω → Span)

theorem definition_eq (hspan : ∀ x y label span, spanOf (mk x y label span) = span) :
    (offset >>= fun start => Parser.header closing p >>= fun x => rest x >>= fun y =>
      Grammar.ending closing kind start >>= fun e => pure (mk x y e.1 e.2)) =
    (offset >>= fun start => Parser.header closing p >>= fun x => rest x >>= fun y =>
      closingFrom closing start >>= fun e => pure (mk x y e.1 e.2)) >>= noting fun d => some ⟨kind, spanOf d⟩ := by
  simp only [ending_eq, bind_assoc, Parser.pure_bind, noting, hspan]

theorem covering_definition (hspan : ∀ x y label span, spanOf (mk x y label span) = span) :
    Covering (fun d => some ⟨kind, spanOf d⟩) (offset >>= fun start => Parser.header closing p >>= fun x =>
      rest x >>= fun y => closingFrom closing start >>= fun e => pure (mk x y e.1 e.2)) := by
  intro c s d s' m hrun hm
  cases hm
  obtain ⟨start, s₁, hstart, hrun⟩ := bind_eq_some.mp hrun
  obtain ⟨x, s₂, -, hrun⟩ := bind_eq_some.mp hrun
  obtain ⟨y, s₃, -, hrun⟩ := bind_eq_some.mp hrun
  obtain ⟨e, s₄, he, hrun⟩ := bind_eq_some.mp hrun
  obtain ⟨rfl, rfl⟩ := pure_eq_some.mp hrun
  cases hstart
  show spanOf _ = _
  rw [hspan, closingFrom_eq_some he]

/-- A definition is recorded after all that stands in it. -/
theorem definition (h : Inherited E) (inner : ω → List NodeSpan) {middle : α → List NodeSpan}
    {final : α → β → List NodeSpan} (hspan : ∀ x y label span, spanOf (mk x y label span) = span)
    (hinner : ∀ x y label span, (inner (mk x y label span)).Perm (final x y))
    (hp : Holds E (headed (n + 1) true) (fun _ => reading) before p p' middle)
    (hrest : ∀ x, Inside E n (middle x) (rest x) (rest' x) (final x)) :
    Holds E (headed (n + 1) false) (fun _ => reading) before
      (offset >>= fun start => Parser.header closing p >>= fun x => rest x >>= fun y =>
        Grammar.ending closing kind start >>= fun e => pure (mk x y e.1 e.2))
      (offset >>= fun start => Parser.header closing p' >>= fun x => rest' x >>= fun y =>
        Grammar.ending closing kind start >>= fun e => pure (mk x y e.1 e.2))
      fun d => inner d ++ [⟨kind, spanOf d⟩] := by
  rw [definition_eq mk spanOf hspan, definition_eq mk spanOf hspan]
  refine h.recorded (covering_definition mk spanOf hspan) (fun _ _ _ => rfl) ?_
  refine h.look looks_offset fun start => ?_
  refine h.read (h.header closing hp) fun x => ?_
  refine h.next (hrest x) fun y => ?_
  refine h.next (k := fun _ => nothing) ?_ fun e => h.ret (hinner x y e.1 e.2)
  refine h.next (h.expectKeyword closing) fun _ => ?_
  refine h.next h.label fun endLabel => ?_
  exact h.look (looks_spanFrom start) fun span => h.ret (.refl _)

end Definitions

end Inherited

/-! ## Chains of conditions -/

variable {g g' : Grammar}

/-- Further conditions. -/
theorem Closed.furtherConjuncts (h : Closed E) (hg : Level E n g g') (min : Nat) :
    Holds E (free (n + 1) true) (fun _ => nothing) before (g.furtherConjuncts min) (g'.furtherConjuncts min)
      fun es => before ++ es.flatMap Expr.declared := by
  have hloop : Holds E (free (n + 1) true) (fun _ => nothing) (before ++ ([] : List Expr).flatMap Expr.declared)
      (g.furtherConjuncts min) (g'.furtherConjuncts min) fun es => before ++ es.flatMap Expr.declared := by
    refine h.repeatUntil (fun es => before ++ es.flatMap Expr.declared) (fun read => ?_) []
    refine h.accept roundMark_dirty ?_ (h.yield rfl (.refl _))
    refine h.next (hg.expr min _) fun e => h.ret ?_
    show (before ++ (read ++ [e]).flatMap Expr.declared).Perm _
    rw [List.flatMap_append, List.flatMap_singleton, List.append_assoc]
  rw [List.flatMap_nil, List.append_nil] at hloop
  exact hloop

/-- A chain of conditions that may be taken back. -/
theorem Inherited.chain (h : Inherited E) (hg : Level E n g g') :
    Holds E (free (n + 1) true) (fun _ => nothing) before (tentatively g.conjunctsOfConditional)
      (tentatively g'.conjunctsOfConditional) fun r => before ++ (r.getD []).flatMap Expr.declared := by
  have hread : Holds E (free (n + 1) true) (fun _ => nothing) before
      (g.furtherConjuncts (conditionalPower + 1)) (g'.furtherConjuncts (conditionalPower + 1))
      fun es => before ++ es.flatMap Expr.declared := h.furtherConjuncts hg _
  refine ⟨fun c s hs => ?_, h.chains hg.deep hread⟩
  rcases chain_cases (hread.steady c s hs).1 with ⟨es, s', hrun, hkept⟩ | hdropped
  · rw [hkept]
    exact ⟨hread.steady.moves hs hrun, tells_nothing s s'⟩
  · rw [hdropped]
    exact ⟨.refl s, tells_nothing s s⟩

end Parser

end Bluespec
