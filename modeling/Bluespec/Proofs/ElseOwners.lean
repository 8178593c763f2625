import Bluespec.Proofs.ConfinedOperands
import Bluespec.Proofs.PermittedStatements
import Bluespec.Proofs.WholeTexts

/-!
# The conditional that an `else` belongs to

A statement is open if an `else` right behind it would belong to it.  No open statement is read in front of an `else`,
so the first branch of a conditional with two branches is never open, at any depth and in trees with problems as well.

* **`Stmt.condWords`**, **`CondWord.Nearest`** — the words of the conditionals of a block, in the order of the text, and
  the rule that an `else` belongs to the nearest `if` before it that has none.
* **`Stmt.Follows`** — the words of a statement follow the rule; **`Stmt.follows_both`** — they do if its first branch is
  not open.
* **`Grammar.EndsOpen`** — what stands behind an open statement; **`Grammar.stmt_eq_some`** — one level up.
* **`else_owners`** — no first branch of two is open, and the words of each block follow the rule, in every tree.
-/

namespace Bluespec

/-- The first of two branches is not open. -/
def StmtForm.Settled : StmtForm → Prop
  | .cond _ a (some _) => a.isOpen = false
  | _ => True

/-! ## The words of conditionals -/

/-- A word of a conditional, with the conditional that it belongs to. -/
inductive CondWord
  | if_ (owner : Stmt)
  | else_ (owner : Stmt)

/-- The words of the conditionals of a statement, in the order of the text.  What stands in a block of its own, or in
an expression, is left out. -/
def Stmt.condWords : Stmt → List CondWord
  | ⟨.cond p a none, span⟩ => .if_ ⟨.cond p a none, span⟩ :: a.condWords
  | ⟨.cond p a (some b), span⟩ =>
    .if_ ⟨.cond p a (some b), span⟩ :: (a.condWords ++ .else_ ⟨.cond p a (some b), span⟩ :: b.condWords)
  | _ => []

/-- Each `else` belongs to the nearest `if` before it that has none yet.  The first list holds the conditionals that
wait for one, the nearest first, and the second those that are left waiting. -/
def CondWord.Nearest : List Stmt → List CondWord → List Stmt → Prop
  | waiting, [], left => left = waiting
  | waiting, .if_ s :: ws, left => CondWord.Nearest (s :: waiting) ws left
  | [], .else_ _ :: _, _ => False
  | nearest :: waiting, .else_ s :: ws, left => s = nearest ∧ CondWord.Nearest waiting ws left

theorem CondWord.Nearest.append {waiting left left' : List Stmt} {ws ws' : List CondWord}
    (h : Nearest waiting ws left) (h' : Nearest left ws' left') : Nearest waiting (ws ++ ws') left' := by
  induction ws generalizing waiting with
  | nil =>
    cases h
    exact h'
  | cons w ws ih =>
    cases w with
    | if_ s => exact ih h
    | else_ s =>
      cases waiting with
      | nil => exact h.elim
      | cons nearest waiting => exact ⟨h.1, ih h.2⟩

/-- The words of a statement follow the rule, whatever waits in front of it; one that is not open leaves nothing
waiting. -/
def Stmt.Follows (s : Stmt) : Prop :=
  ∀ waiting, ∃ opened, CondWord.Nearest waiting s.condWords (opened ++ waiting) ∧ (s.isOpen = false → opened = [])

section Follows

variable {p : Predicate} {a b : Stmt} {span : Span}

theorem Stmt.follows_one (ha : a.Follows) : Stmt.Follows ⟨.cond p a none, span⟩ := by
  intro waiting
  obtain ⟨opened, hwords, -⟩ := ha (⟨.cond p a none, span⟩ :: waiting)
  refine ⟨opened ++ [⟨.cond p a none, span⟩], ?_, nofun⟩
  rw [List.append_assoc]
  exact hwords

/-- The first branch leaves nothing waiting, so that the conditional itself is the nearest one. -/
theorem Stmt.follows_both (ha : a.Follows) (hclosed : a.isOpen = false) (hb : b.Follows) :
    Stmt.Follows ⟨.cond p a (some b), span⟩ := by
  intro waiting
  obtain ⟨none_, hwords, hnone⟩ := ha (⟨.cond p a (some b), span⟩ :: waiting)
  obtain ⟨opened, hwords', hopened⟩ := hb waiting
  rw [hnone hclosed] at hwords
  exact ⟨opened, hwords.append ⟨rfl, hwords'⟩, hopened⟩

end Follows

/-- The words of statements in a row follow the rule if those of each one do. -/
theorem Stmt.nearest_row {ss : List Stmt} (h : ∀ s ∈ ss, s.Follows) (waiting : List Stmt) :
    ∃ left, CondWord.Nearest waiting (ss.flatMap Stmt.condWords) left := by
  induction ss generalizing waiting with
  | nil => exact ⟨waiting, rfl⟩
  | cons s ss ih =>
    have hcons := List.forall_mem_cons.mp h
    obtain ⟨opened, hwords, -⟩ := hcons.1 waiting
    obtain ⟨left, hothers⟩ := ih hcons.2 (opened ++ waiting)
    exact ⟨left, hwords.append hothers⟩

/-! ## What stands behind an open statement -/

/-- The first of two branches is not open, and the words follow the rule. -/
def StmtForm.Paired (form : StmtForm) : Prop := form.Settled ∧ ∀ span, Stmt.Follows ⟨form, span⟩

theorem StmtForm.Paired.follows {s : Stmt} (h : s.form.Paired) : s.Follows := by
  cases s
  exact h.2 _

/-- A form that is no conditional. -/
def StmtForm.Plain (form : StmtForm) : Prop := form.isOpen = false ∧ form.Paired

/-- The law that the words of a statement of any dialect follow the rule. -/
def StmtLaw.paired : StmtLaw := fun _ s => s.form.Paired

theorem StmtForm.plain_of_ne {form : StmtForm} (h : ∀ p a b, form ≠ .cond p a b) : form.Plain := by
  cases form with
  | cond p a b => exact absurd rfl (h p a b)
  | _ => exact ⟨rfl, trivial, fun span waiting => ⟨[], rfl, fun _ => rfl⟩⟩

namespace Grammar

open Bluespec.Parser

/-- The words of what the inner parser yields follow the rule, and no `else` stands behind an open statement. -/
def EndsOpen (g : Grammar) : Prop :=
  ∀ dialect c s a s', g.innerStmt dialect c s = (some a, s') →
    a.form.Paired ∧ (a.isOpen = true → ∀ t ∈ s'.rest.head?, t.kind ≠ .keyword .else_)

variable {g : Grammar} {dialect : Dialect} {c : Setting} {s s' : State}

/-- A conditional takes in an `else` behind its first branch, so that no open branch is in front of one. -/
theorem ifStmt_eq_some {form : StmtForm} (hg : g.EndsOpen) (h : g.ifStmt dialect c s = (some form, s')) :
    form.Paired ∧ (form.isOpen = true → ∀ t ∈ s'.rest.head?, t.kind ≠ .keyword .else_) := by
  obtain ⟨_, s₁, -, h⟩ := bind_eq_some.mp h
  obtain ⟨p, s₂, -, h⟩ := bind_eq_some.mp h
  obtain ⟨a, s₃, ha, h⟩ := bind_eq_some.mp h
  obtain ⟨more, s₄, hmore, hbranch⟩ := bind_eq_some.mp h
  have hfirst := hg dialect c s₂ a s₃ ha
  rcases accept_eq_some hmore with ⟨rfl, t, hkind, hrest⟩ | ⟨rfl, rfl, hnone⟩
  · obtain ⟨b?, s₅, hb, hform⟩ := bind_eq_some.mp hbranch
    obtain ⟨b, s₆, hinner, hsome⟩ := bind_eq_some.mp hb
    obtain ⟨rfl, rfl⟩ := pure_eq_some.mp hsome
    obtain ⟨rfl, rfl⟩ := pure_eq_some.mp hform
    have hclosed : a.isOpen = false :=
      Bool.eq_false_iff.mpr fun hopen => hfirst.2 hopen t (by rw [hrest]; rfl) hkind
    have hsecond := hg dialect c s₄ b s₆ hinner
    exact ⟨⟨hclosed, fun _ => Stmt.follows_both hfirst.1.follows hclosed hsecond.1.follows⟩, hsecond.2⟩
  · obtain ⟨b?, s₅, hb, hform⟩ := bind_eq_some.mp hbranch
    obtain ⟨rfl, rfl⟩ := pure_eq_some.mp hb
    obtain ⟨rfl, rfl⟩ := pure_eq_some.mp hform
    exact ⟨⟨trivial, fun _ => Stmt.follows_one hfirst.1.follows⟩, fun _ => hnone⟩

theorem permitSimple_plain (s : SimpleStmt) : Results StmtForm.Plain (permitSimple dialect s) := by
  have hplain : s.form.Plain := StmtForm.plain_of_ne fun p a b => by cases s <;> exact nofun
  unfold permitSimple
  cases s.leaf? with
  | none => exact .value hplain
  | some leaf => exact .bind fun _ => .value hplain

/-- What begins with no `if` is no conditional. -/
theorem stmtForm_plain {form : StmtForm} (hif : s.peek ≠ some (.keyword .if_))
    (h : g.stmtForm dialect c s = (some form, s')) : form.Plain := by
  unfold stmtForm at h
  obtain ⟨k, s₁, hk, hform⟩ := bind_eq_some.mp h
  cases hk
  revert hform
  suffices hall : Results StmtForm.Plain _ from hall c s form s'
  split
  · exact .bind fun _ => .value (StmtForm.plain_of_ne nofun)
  · exact absurd ‹_› hif
  · exact .bind fun _ => .bind fun _ => .bind fun _ => .value (StmtForm.plain_of_ne nofun)
  · exact .bind fun _ => .value (StmtForm.plain_of_ne nofun)
  · exact .bind fun _ => .value (StmtForm.plain_of_ne nofun)
  · exact .bind fun _ => .fail
  · exact .bind fun _ => .fail
  · exact .bind fun _ => .fail
  · exact .bind fun _ => .fail
  · exact .bind fun _ => .bind fun _ => .bind fun _ => .bind fun _ => .value (StmtForm.plain_of_ne nofun)
  · exact .bind fun _ => .bind fun _ => .bind fun _ => .bind fun _ => .value (StmtForm.plain_of_ne nofun)
  · exact .bind fun _ => .fail
  · exact .bind fun simple => permitSimple_plain simple

/-- The words of a statement follow the rule, and no `else` stands behind an open one. -/
theorem stmt_eq_some {a : Stmt} (hg : g.EndsOpen) (h : g.stmt dialect c s = (some a, s')) :
    a.form.Paired ∧ (a.isOpen = true → ∀ t ∈ s'.rest.head?, t.kind ≠ .keyword .else_) := by
  obtain ⟨_, s₁, -, h⟩ := bind_eq_some.mp h
  obtain ⟨start, s₂, -, h⟩ := bind_eq_some.mp h
  obtain ⟨form, s₃, hform, h⟩ := bind_eq_some.mp h
  obtain ⟨span, s₄, hspan, h⟩ := bind_eq_some.mp h
  obtain ⟨rfl, rfl⟩ := pure_eq_some.mp h
  cases spanFrom_eq_some hspan
  by_cases hif : s₂.peek = some (.keyword .if_)
  · have hrun : g.ifStmt dialect c s₂ = (some form, s₃) := by
      unfold stmtForm at hform
      obtain ⟨k, s₄, hk, hform⟩ := bind_eq_some.mp hform
      cases hk
      rw [hif] at hform
      exact hform
    exact ifStmt_eq_some hg hrun
  · have hplain := stmtForm_plain hif hform
    exact ⟨hplain.2, fun hopen => absurd hopen (Bool.eq_false_iff.mp hplain.1)⟩

theorem endsOpen_upTo : ∀ n, (upTo n).EndsOpen
  | 0 => nofun
  | n + 1 => fun _ _ _ _ _ h => stmt_eq_some (endsOpen_upTo n) h

end Grammar

theorem StmtLaw.holds_paired : StmtLaw.paired.Holds where
  simple dialect s span := (StmtForm.plain_of_ne fun p a b => by cases s <;> exact nofun).2
  read n _ _ _ _ _ h := (Grammar.stmt_eq_some (Grammar.endsOpen_upTo n) h).1

/-! ## Trees -/

/-- No first branch of two is open, and wherever statements of a tree stand in a row, each `else` belongs to the nearest
`if` before it that has none. -/
structure ElsesPaired (xs : List Site) : Prop where
  closed : ∀ dialect p a b span, Site.stmt dialect ⟨.cond p a (some b), span⟩ ∈ xs → a.isOpen = false
  nearest : ∀ ss : List Stmt, (∀ s ∈ ss, ∃ dialect, Site.stmt dialect s ∈ xs) →
    ∃ left, CondWord.Nearest [] (ss.flatMap Stmt.condWords) left

theorem Sound.elsesPaired {xs : List Site} (h : Sound .paired xs) : ElsesPaired xs := by
  have hpaired : ∀ dialect s, Site.stmt dialect s ∈ xs → s.form.Paired := fun _ _ hmem => (h _ hmem).2
  refine ⟨fun dialect p a b span hmem => (hpaired dialect _ hmem).1, fun ss hss => ?_⟩
  have hfollows : ∀ s ∈ ss, s.Follows := fun s hs => by
    obtain ⟨dialect, hmem⟩ := hss s hs
    exact (hpaired dialect s hmem).follows
  exact Stmt.nearest_row hfollows []

/-- In every tree, for every text and every dialect and in both ways to deal with problems, no first branch of two is
open and each `else` belongs to the nearest `if` before it that has none. -/
theorem else_owners (source : String) (recovery : Recovery) (dialect : Dialect) :
    ElsesPaired (parse source recovery).root.sites ∧
      (∀ e, parseExpression source = .ok e → ElsesPaired e.sites) ∧
      ∀ s, parseStatement dialect source = .ok s → ElsesPaired (s.sites dialect) := by
  refine ⟨?_, fun e he => ?_, fun s hs => ?_⟩
  · have hsound := parse_sound StmtLaw.holds_paired source recovery
    exact Sound.elsesPaired (SourceUnit.allSites.mpr fun s hs => (hsound s hs).2)
  · obtain ⟨-, s', hrun, -⟩ := parseOnly_eq_ok.mp he
    exact Sound.elsesPaired (Parser.withGrammar_results StmtLaw.holds_paired (fun _ hg => hg.anyExpr 0) _ _ e s' hrun)
  · obtain ⟨-, s', hrun, -⟩ := parseOnly_eq_ok.mp hs
    exact Sound.elsesPaired
      (Parser.withGrammar_results StmtLaw.holds_paired (fun _ hg => hg.anyStmt dialect) _ _ s s' hrun)

/-- Of two conditionals in each other the inner one has the `else`. -/
theorem else_owners_nested : ∃ p q a b span span',
    parseStatement .action "if (x) if (y) f(1); else f(2);" = .ok ⟨.cond p ⟨.cond q a (some b), span⟩ none, span'⟩ ∧
      ElsesPaired (Stmt.sites .action ⟨.cond p ⟨.cond q a (some b), span⟩ none, span'⟩) :=
  ⟨_, _, _, _, _, _, rfl, (else_owners "if (x) if (y) f(1); else f(2);" .collectAll .action).2.2 _ rfl⟩

end Bluespec
