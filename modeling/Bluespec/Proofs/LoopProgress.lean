import Bluespec.Parse
import Bluespec.Proofs.FullGrammar

/-!
# Loops that read on

The loops of the grammar are written with a bound on their rounds.  The bound is never met: each round that is not
the last one leaves the cursor further on, also where what it read has failed, so a loop runs as it would without one.

* **`Parser.State.Beyond`** — at least one more token has been read.
* **`Parser.Rounds`**, **`Parser.ItemRounds`** — the runs of loops without a bound on their rounds.
* **`Parser.LoopsReadOn`** — the loops of a grammar run that way.
* **`Parser.loops_read_on`** — they do, and a source is read to its end, or what is left of it is reported.
-/

namespace Bluespec.Parser

open Grade Mark

/-! ## Further on -/

/-- The second state is further on: at least one more token has been read. -/
def State.Beyond (s s' : State) : Prop :=
  ∃ taken, taken ≠ [] ∧ s.rest = taken ++ s'.rest ∧ s'.consumed = taken.reverse ++ s.consumed

theorem State.Moves.beyond {s s' : State} (h : s.Moves s') (hlt : s'.rest.length < s.rest.length) : s.Beyond s' := by
  obtain ⟨taken, htaken⟩ := h.rest
  refine ⟨taken, ?_, htaken.symm, ?_⟩
  · rintro rfl
    rw [← htaken] at hlt
    exact Nat.lt_irrefl _ hlt
  · have htokens : s'.consumed.reverse ++ s'.rest = s.consumed.reverse ++ taken ++ s'.rest := by
      rw [List.append_assoc, htaken]
      exact h.tokens
    have hconsumed := congrArg List.reverse (List.append_cancel_right htokens)
    rwa [List.reverse_reverse, List.reverse_append, List.reverse_reverse] at hconsumed

/-! ## Loops -/

section Loops

variable {α β : Type} {n : Nat} {past : Bool} {c : Setting}

/-- The rounds of a loop: the last one ends the loop or fails, and each one before it reads on. -/
inductive Rounds (round : α → Parser (Round α β)) (c : Setting) : α → State → Option β × State → Prop
  | done {a : α} {b : β} {s s' : State} (h : round a c s = (some (.done b), s')) : Rounds round c a s (some b, s')
  | failed {a : α} {s s' : State} (h : round a c s = (none, s')) : Rounds round c a s (none, s')
  | again {a a' : α} {s s' : State} {out : Option β × State} (h : round a c s = (some (.again a'), s'))
      (hbeyond : s.Beyond s') (hlater : Rounds round c a' s' out) : Rounds round c a s out

theorem rounds_roundsUpTo {round : α → Parser (Round α β)} (h : ∀ a, Steady (free n past) roundMark (round a))
    (limit : Nat) (a : α) (s : State) (hlimit : s.rest.length < limit) (hn : s.rest.length < n) :
    Rounds round c a s (roundsUpTo round limit a c s) := by
  induction limit generalizing a s with
  | zero => exact absurd hlimit (Nat.not_lt_zero _)
  | succ limit ih =>
    have hs : (free n past).Admits s := ⟨hn, trivial⟩
    cases hrun : round a c s with
    | mk r s' =>
      cases r with
      | none =>
        rw [roundsUpTo, bind_of_none hrun]
        exact .failed hrun
      | some r =>
        rw [roundsUpTo, bind_of_some hrun]
        cases r with
        | done b => exact .done hrun
        | again a' =>
          have hlt := ((h a).tells hs hrun).read rfl
          exact .again hrun (((h a).moves hs hrun).beyond hlt) (ih a' s' (by omega) (by omega))

/-- A loop whose rounds read a token whenever they ask for another round runs as if there were no bound. -/
theorem rounds_repeatUntil {round : α → Parser (Round α β)} (h : ∀ a, Steady (free n past) roundMark (round a))
    (a : α) {s : State} (hn : s.rest.length < n) : Rounds round c a s (repeatUntil round a c s) :=
  rounds_roundsUpTo h _ a s (Nat.lt_succ_self _) hn

/-- Whether reading is to stop, because one diagnostic was wanted and there is one. -/
def State.halts (c : Setting) (s : State) : Bool := c.recovery == .firstError && !s.diagnostics.isEmpty

/-- The rounds of a loop that reads items up to a closing word: it is left at a closing word or the end, and where
reading is to stop; and each item, read or failed, leaves the cursor further on. -/
inductive ItemRounds (item : Parser α) (c : Setting) : State → List α × State → Prop
  | stop {s : State} (h : s.atCloser = true ∨ s.halts c = true) : ItemRounds item c s ([], s)
  | round {s s' s'' : State} {r : Option α} {as : List α} (hopen : s.atCloser = false) (hruns : s.halts c = false)
      (h : resuming item c s = (some r, s')) (hbeyond : s.Beyond s') (hlater : ItemRounds item c s' (as, s'')) :
      ItemRounds item c s (r.toList ++ as, s'')

theorem itemsUpTo_succ (item : Parser α) (limit : Nat) (c : Setting) (s : State) :
    itemsUpTo item (limit + 1) c s =
      (if (s.atCloser || s.halts c) = true then pure []
      else resuming item >>= fun first => itemsUpTo item limit >>= fun others =>
        pure (first.toList ++ others) : Parser (List α)) c s := rfl

theorem resuming_eq_some (item : Parser α) (c : Setting) (s : State) :
    ∃ r s', resuming item c s = (some r, s') := by
  unfold resuming
  cases item c s with
  | mk r s' =>
    cases r with
    | none => exact ⟨none, _, rfl⟩
    | some a => exact ⟨some a, _, rfl⟩

theorem itemRounds_itemsUpTo {item : Parser α} (h : Steady (free n past) (fun _ => reading) item) (limit : Nat)
    (s : State) (hlimit : s.rest.length < limit) (hn : s.rest.length < n) :
    ∃ as s', itemsUpTo item limit c s = (some as, s') ∧ ItemRounds item c s (as, s') := by
  induction limit generalizing s with
  | zero => exact absurd hlimit (Nat.not_lt_zero _)
  | succ limit ih =>
    rw [itemsUpTo_succ]
    by_cases hstop : (s.atCloser || s.halts c) = true
    · rw [if_pos hstop]
      exact ⟨[], s, rfl, .stop (Bool.or_eq_true_iff.mp hstop)⟩
    · obtain ⟨hopen, hruns⟩ := Bool.or_eq_false_iff.mp (Bool.eq_false_iff.mpr hstop)
      have hwithin : (Grade.mk n (fun s => s.atCloser = false) past).Within (free n past) :=
        ⟨fun s hs => ⟨hs.1, trivial⟩, id⟩
      have hitem := h.weaken hwithin fun _ _ _ _ _ ht => ht
      have hresuming := hitem.resumingOpen fun _ hs => hs.2
      obtain ⟨r, s', hrun⟩ := resuming_eq_some item c s
      have hlt := (hresuming.tells ⟨hn, hopen⟩ hrun).read rfl
      have hbeyond := (hresuming.moves ⟨hn, hopen⟩ hrun).beyond hlt
      obtain ⟨as, s'', hothers, hlater⟩ := ih s' (by omega) (by omega)
      rw [if_neg hstop, bind_of_some hrun, bind_of_some hothers]
      exact ⟨r.toList ++ as, s'', rfl, .round hopen hruns hrun hbeyond hlater⟩

/-- A loop of items that read a token where they succeed runs as if there were no bound. -/
theorem itemRounds_items {item : Parser α} (h : Steady (free n past) (fun _ => reading) item) {s : State}
    (hn : s.rest.length < n) : ∃ as s', items item c s = (some as, s') ∧ ItemRounds item c s (as, s') :=
  itemRounds_itemsUpTo h _ s (Nat.lt_succ_self _) hn

end Loops

/-! ## The loops of the grammar -/

/-- The loops of a grammar run from a state as if their rounds were not bounded: those that read the statements of a
block or body, the statements and the result of a block with a result, the statements of a module, the members of an
interface, the statements of an interface, and the items of a package. -/
structure LoopsReadOn (g : Grammar) (c : Setting) (s : State) : Prop where
  stmts (dialect : Dialect) : ∃ stmts s', items (g.innerStmt dialect) c s = (some stmts, s') ∧
    ItemRounds (g.innerStmt dialect) c s (stmts, s')
  blockItems : Rounds g.blockRound c [] s (g.blockItems c s)
  moduleStmts : ∃ stmts s', items g.moduleStmt c s = (some stmts, s') ∧ ItemRounds g.moduleStmt c s (stmts, s')
  members : ∃ members s', items interfaceMember c s = (some members, s') ∧ ItemRounds interfaceMember c s (members, s')
  interfaceStmts : ∃ stmts s', items g.interfaceStmt c s = (some stmts, s') ∧
    ItemRounds g.interfaceStmt c s (stmts, s')
  packageItems (inPackage : Bool) : Rounds (packageRound inPackage) c PackageBody.empty s (packageBody inPackage c s)

theorem loopsReadOn {n : Nat} {g : Grammar} {c : Setting} {s : State} (hg : Level sameRuns n g g)
    (hn : s.rest.length < n) : LoopsReadOn g c s := by
  have hround := @Inherited.blockRound sameRuns n [] g g inherited_sameRuns hg
  have hmember := @Inherited.interfaceMember sameRuns n [] inherited_sameRuns
  have hpackage := @Inherited.packageRound sameRuns n [] inherited_sameRuns
  constructor
  · exact fun dialect => itemRounds_items (hg.stmt dialect []).steady hn
  · exact rounds_repeatUntil (fun read => (hround read).steady) [] hn
  · exact itemRounds_items (inherited_sameRuns.moduleStmt hg []).steady hn
  · exact itemRounds_items hmember.steady (Nat.lt_succ_of_lt hn)
  · exact itemRounds_items (inherited_sameRuns.interfaceStmt hg []).steady hn
  · intro inPackage
    exact rounds_repeatUntil (fun body => (hpackage inPackage body).steady) _ hn

/-- A trait that grammars inherit is a trait of the grammar that refers to itself. -/
theorem fullLevel {E : Trait} {n : Nat} (h : Inherited E) : Level E n Grammar.full Grammar.full := by
  have hexpr (min : Nat) (before : List NodeSpan) : Holds E (free n false) (fun _ => reading) before
      (withGrammar fun g => g.expr min) (withGrammar fun g => g.expr min) fun e => before ++ e.declared :=
    h.withGrammar fun _ hg => h.free_of_past (h.expr hg min)
  have hoperand (before : List NodeSpan) : Holds E (free n false) (fun _ => reading) before
      (withGrammar Grammar.operand) (withGrammar Grammar.operand) fun e => before ++ e.declared :=
    h.withGrammar fun _ hg => h.free_of_past (h.operand hg)
  have hstmt (dialect : Dialect) (before : List NodeSpan) : Holds E (free n false) (fun _ => reading) before
      (withGrammar fun g => g.stmt dialect) (withGrammar fun g => g.stmt dialect) fun s => before ++ s.declared :=
    h.withGrammar fun _ hg => h.stmt hg dialect
  exact ⟨.full, hexpr, hoperand, hstmt, fun _ => h.withGrammar fun _ hg => h.methodDef hg,
    fun _ => h.withGrammar fun _ hg => h.subinterfaceDef hg, fun _ => h.withGrammar fun _ hg => h.moduleDef hg⟩

theorem loopsReadOn_full (c : Setting) (s : State) : LoopsReadOn Grammar.full c s :=
  loopsReadOn (fullLevel inherited_sameRuns) (Nat.lt_succ_self _)

/-! ## Whole units -/

/-- A parser that yields a value whatever it reads. -/
def Delivers {α : Type} (p : Parser α) : Prop := ∀ c s, ∃ a s', p c s = (some a, s')

namespace Delivers

variable {α β : Type}

theorem value (a : α) : Delivers (pure a) := fun _ s => ⟨a, s, rfl⟩

theorem bind {p : Parser α} {f : α → Parser β} (hp : Delivers p) (hf : ∀ a, Delivers (f a)) :
    Delivers (p >>= f) := by
  intro c s
  obtain ⟨a, s', hrun⟩ := hp c s
  rw [bind_of_some hrun]
  exact hf a c s'

theorem attempt (p : Parser α) : Delivers (attempt p) := fun c s => ⟨(p c s).1, (p c s).2, rfl⟩

theorem eat (k : Kind) : Delivers (eat k) := by
  intro c s
  unfold Parser.eat
  split
  · split
    · exact ⟨_, _, rfl⟩
    · exact ⟨_, _, rfl⟩
  · exact ⟨_, _, rfl⟩

theorem label : Delivers label := by
  refine .bind (.bind (.eat _) fun t => .value t.isSome) fun colon => ?_
  split
  · refine .bind (.eat _) fun t => ?_
    split
    · exact .value _
    · refine .bind (.eat _) fun t => ?_
      split
      · exact .value _
      · exact .bind (fun c s => ⟨(), _, rfl⟩) fun _ => .value _
  · exact .value _

theorem packageItem (body : PackageBody) (k : Kind) : Delivers (packageItem body k) := by
  unfold Parser.packageItem
  split
  · exact .bind (.attempt _) fun _ => .value _
  · exact .bind (.attempt _) fun _ => .value _
  · split
    · refine .bind (fun c s => ⟨_, s, rfl⟩) fun span => ?_
      refine .bind (fun c s => ⟨(), _, rfl⟩) fun _ => ?_
      exact .bind (fun c s => ⟨(), _, rfl⟩) fun _ => .value _
    · exact .bind (resuming_eq_some _) fun _ => .value _

theorem packageRound (inPackage : Bool) (body : PackageBody) : Delivers (packageRound inPackage body) := by
  refine .bind (fun c s => ⟨_, s, rfl⟩) fun halts => ?_
  split
  · exact .value _
  · refine .bind (fun c s => ⟨_, s, rfl⟩) fun next => ?_
    split
    · exact .value _
    · split
      · exact .value _
      · exact .bind (.packageItem body _) fun _ => .value _

theorem of_rounds {round : α → Parser (Round α β)} {c : Setting} {a : α} {s : State} {out : Option β × State}
    (hround : ∀ a, Delivers (round a)) (h : Rounds round c a s out) : ∃ b s', out = (some b, s') := by
  induction h with
  | done h => exact ⟨_, _, rfl⟩
  | @failed a s s' h =>
    obtain ⟨r, s₁, hrun⟩ := hround a c s
    rw [hrun] at h
    cases h
  | again h hbeyond hlater ih => exact ih

theorem packageBody (inPackage : Bool) : Delivers (packageBody inPackage) := fun _ s =>
  of_rounds (packageRound inPackage) ((loopsReadOn_full _ s).packageItems inPackage)

theorem packageHeader : Delivers packageHeader := by
  refine .bind (fun c s => ⟨(), _, rfl⟩) fun _ => ?_
  refine .bind (.attempt _) fun name => .bind (.attempt _) fun semi => ?_
  split
  · exact .bind (fun c s => ⟨(), _, rfl⟩) fun _ => .value _
  · exact .value _

theorem packageEnd : Delivers packageEnd := by
  refine .bind (.attempt _) fun closed => ?_
  split
  · exact .label
  · exact .value _

theorem package : Delivers package := by
  refine .bind (fun c s => ⟨_, s, rfl⟩) fun start => ?_
  refine .bind .packageHeader fun name => ?_
  refine .bind (.packageBody true) fun body => ?_
  refine .bind .packageEnd fun endLabel => ?_
  refine .bind (fun c s => ⟨_, s, rfl⟩) fun span => ?_
  exact .bind (fun c s => ⟨(), _, rfl⟩) fun _ => .value _

end Delivers

/-! ## The end of a source -/

variable {c : Setting} {s s' : State}

theorem halts_of_collectAll (hc : c.recovery = .collectAll) (s : State) : s.halts c = false := by
  rw [State.halts, hc]
  rfl

theorem halts_of_clean (h : s.diagnostics = []) : s.halts c = false := by
  rw [State.halts, h, List.isEmpty_nil, Bool.not_true, Bool.and_false]

/-- Unless reading is to stop, a loop over the items of a package is left at the end of the source, or inside a
package. -/
theorem packageRound_done {inPackage : Bool} {body body' : PackageBody} (hruns : s'.halts c = false)
    (h : packageRound inPackage body c s = (some (.done body'), s')) : s'.rest = [] ∨ inPackage = true := by
  have hpeek : peek c s = (some s.peek, s) := rfl
  have hhalted : halted c s = (some (s.halts c), s) := rfl
  rw [packageRound, bind_of_some hhalted] at h
  cases hstops : s.halts c with
  | true =>
    rw [hstops] at h
    cases h
    rw [hstops] at hruns
    cases hruns
  | false =>
    rw [hstops, if_neg Bool.false_ne_true, bind_of_some hpeek] at h
    cases hnext : s.peek with
    | none =>
      rw [hnext] at h
      cases h
      exact .inl (List.head?_eq_none_iff.mp (Option.map_eq_none_iff.mp hnext))
    | some k =>
      rw [hnext] at h
      by_cases hends : (inPackage && k == .keyword .endpackage) = true
      · exact .inr (Bool.and_eq_true_iff.mp hends).1
      · obtain ⟨b, s₂, -, h⟩ := bind_eq_some.mp ((congrFun (congrFun (if_neg hends) c) s).symm.trans h)
        cases h

theorem packageBody_exhausts {inPackage : Bool} {body : PackageBody} (hruns : s'.halts c = false)
    (h : packageBody inPackage c s = (some body, s')) : s'.rest = [] ∨ inPackage = true := by
  obtain ⟨last, s₁, -, hlast⟩ := repeatUntil_induct (motive := fun _ _ => True) (fun _ _ _ _ _ _ => trivial) trivial h
  exact packageRound_done hruns hlast

/-- Nothing is left behind the items of a unit without a package, and nothing behind a package but what has been
reported. -/
structure Exhausted (unit : SourceUnit) (left : List Token) (diagnostics : List Diagnostic) : Prop where
  items (body : PackageBody) (h : unit = .items body) : left = []
  package (p : Package) (h : unit = .package p) :
    left = [] ∨ ∃ d ∈ diagnostics, ∃ found, d.problem = .grammar (.expected .endOfInput found)

/-- The state behind a package: what is left is reported, unless reading is to stop. -/
def State.afterPackage (c : Setting) (s : State) : State :=
  if (!s.atEnd && !s.halts c) = true then s.report (s.peekSpan c) (.grammar (.expected .endOfInput s.peek)) else s

theorem sourceUnit_of_package {p : Package} (hnext : s.isNext (.keyword .package) = true)
    (hp : package c s = (some p, s')) : sourceUnit c s = (some (.package p), s'.afterPackage c) := by
  have hpackage : isNext (.keyword .package) c s = (some true, s) := congrArg (fun b => (some b, s)) hnext
  have hatEnd : ask State.atEnd c s' = (some s'.atEnd, s') := rfl
  have hhalted : halted c s' = (some (s'.halts c), s') := rfl
  rw [sourceUnit, bind_of_some hpackage, if_pos rfl, bind_of_some hp, bind_of_some hatEnd, bind_of_some hhalted]
  unfold State.afterPackage
  split <;> rfl

theorem exhausted_afterPackage (hc : c.recovery = .collectAll) (p : Package) (s : State) :
    Exhausted (.package p) (s.afterPackage c).rest (s.afterPackage c).diagnostics := by
  refine ⟨fun _ h => (by cases h), fun _ _ => ?_⟩
  rw [State.afterPackage, halts_of_collectAll hc, Bool.not_false, Bool.and_true]
  cases hend : s.atEnd with
  | true => exact .inl (List.isEmpty_iff.mp hend)
  | false => exact .inr ⟨_, List.mem_cons_self, s.peek, rfl⟩

theorem sourceUnit_delivers (c : Setting) (s : State) :
    ∃ unit s', sourceUnit c s = (some unit, s') ∧
      (c.recovery = .collectAll → Exhausted unit s'.rest s'.diagnostics) := by
  cases hnext : s.isNext (.keyword .package) with
  | true =>
    obtain ⟨p, s', hp⟩ := Delivers.package c s
    exact ⟨_, _, sourceUnit_of_package hnext hp, fun hc => exhausted_afterPackage hc p s'⟩
  | false =>
    have hpackage : isNext (.keyword .package) c s = (some false, s) := congrArg (fun b => (some b, s)) hnext
    obtain ⟨body, s', hbody⟩ := Delivers.packageBody false c s
    refine ⟨.items body, s', ?_, fun hc => ⟨fun _ _ => ?_, fun p hp => by cases hp⟩⟩
    · rw [sourceUnit, bind_of_some hpackage]
      exact bind_of_some hbody
    · exact (packageBody_exhausts (halts_of_collectAll hc s') hbody).resolve_right Bool.false_ne_true

/-- Where all diagnostics are collected, a source is what its tokens are read as, with all that was reported. -/
theorem parse_of_sourceUnit {source : String} {unit : SourceUnit} {s' : State}
    (h : sourceUnit (.ofText source .collectAll) (.ofText source) = (some unit, s')) :
    (parse source .collectAll).root = unit ∧ ∀ d ∈ s'.diagnostics, d ∈ (parse source .collectAll).diagnostics := by
  have hreads : ¬ (Recovery.collectAll = Recovery.firstError ∧
      (!((LexicalError.ofText source).map Diagnostic.ofLexicalError).isEmpty) = true) := by
    rintro ⟨hmode, -⟩
    cases hmode
  unfold parse
  rw [if_neg hreads, h]
  refine ⟨rfl, fun d hd => ?_⟩
  refine (Diagnostic.sortByStart_perm _).mem_iff.mpr (List.mem_append_right _ ?_)
  exact List.mem_reverse.mpr hd

/-- The loops of the grammar read on in every round that is not the last: those of the grammar that refers to itself
from every state, and those of a grammar of some levels from every state in which fewer tokens are left than it has
levels.  Reading a source always yields a unit; and where all diagnostics are collected, all tokens are read, or those
that follow a package are reported. -/
theorem loops_read_on :
    (∀ c s, LoopsReadOn Grammar.full c s) ∧
    (∀ n c s, s.rest.length < n → LoopsReadOn (Grammar.upTo n) c s) ∧
    ∀ source recovery, ∃ unit s', sourceUnit (.ofText source recovery) (.ofText source) = (some unit, s') ∧
      (recovery = .collectAll → (parse source recovery).root = unit ∧
        Exhausted unit s'.rest (parse source recovery).diagnostics) := by
  refine ⟨loopsReadOn_full, fun n c s hn => ?_, fun source recovery => ?_⟩
  · exact loopsReadOn (inherited_sameRuns.level (Nat.le_refl n) (Nat.le_refl n)) hn
  · obtain ⟨unit, s', hrun, hexhausted⟩ := sourceUnit_delivers (.ofText source recovery) (.ofText source)
    refine ⟨unit, s', hrun, ?_⟩
    rintro rfl
    obtain ⟨hroot, hkept⟩ := parse_of_sourceUnit hrun
    obtain ⟨hitems, hpackage⟩ := hexhausted rfl
    refine ⟨hroot, hitems, fun p hp => (hpackage p hp).imp_right ?_⟩
    rintro ⟨d, hd, found, hproblem⟩
    exact ⟨d, hkept d hd, found, hproblem⟩

end Bluespec.Parser
