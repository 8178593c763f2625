/-!
# Cutting text

**`Text.cutAt`** cuts a text at the first character of a class; **`Text.without`** leaves a character out.
-/

namespace Bluespec.Text

/-- The text before the first character of a class, and the text after it if there is one. -/
def cutAt (p : Char → Bool) : List Char → List Char × Option (List Char)
  | [] => ([], none)
  | c :: cs =>
    if p c then ([], some cs)
    else
      let (before, after) := cutAt p cs
      (c :: before, after)

/-- The text with every occurrence of one character left out. -/
def without (c : Char) (cs : List Char) : List Char := cs.filter (· != c)

theorem cutAt_of_forall {p : Char → Bool} {cs : List Char} (h : ∀ c ∈ cs, p c = false) :
    cutAt p cs = (cs, none) := by
  induction cs with
  | nil => rfl
  | cons c cs ih =>
    have hc : p c = false := h c (by simp)
    have hcs : cutAt p cs = (cs, none) := ih fun d hd => h d (by simp [hd])
    simp [cutAt, hc, hcs]

end Bluespec.Text
