import Bluespec.Diagnostic

/-!
# Stable sorting

Elements that compare equal keep their order, so the outcome of sorting depends only on how each element compares
with those behind it.

* **`mergeSort_map`** — sorting commutes with a map that keeps these comparisons.
* **`filter_mergeSort`** — sorting commutes with leaving elements out.
-/

namespace Bluespec

open List (zipIdxLE)

variable {α β : Type}

/-- Sorting commutes with a map that keeps the comparison of each element with those behind it: lists are only ever
merged with lists behind them. -/
theorem mergeSort_map {r : α → α → Bool} {s : β → β → Bool} {f : α → β} (l : List α)
    (h : l.Pairwise fun a b => r a b = s (f a) (f b)) : (l.mergeSort r).map f = (l.map f).mergeSort s := by
  match l with
  | [] => simp
  | [a] => simp
  | a :: b :: l =>
    have htake : ((a :: b :: l).take ((l.length + 1 + 1 + 1) / 2)).length < l.length + 1 + 1 := by
      rw [List.length_take, List.length_cons, List.length_cons]
      omega
    have hdrop : ((a :: b :: l).drop ((l.length + 1 + 1 + 1) / 2)).length < l.length + 1 + 1 := by
      rw [List.length_drop, List.length_cons, List.length_cons]
      omega
    simp only [List.mergeSort, List.MergeSort.Internal.splitInTwo_fst, List.MergeSort.Internal.splitInTwo_snd,
      List.map_cons, List.length_cons]
    have hcross : ∀ p ∈ ((a :: b :: l).take ((l.length + 1 + 1 + 1) / 2)).mergeSort r,
        ∀ q ∈ ((a :: b :: l).drop ((l.length + 1 + 1 + 1) / 2)).mergeSort r, r p q = s (f p) (f q) :=
      fun p hp q hq => h.rel_of_mem_take_of_mem_drop (List.mem_mergeSort.mp hp) (List.mem_mergeSort.mp hq)
    rw [List.map_merge hcross, mergeSort_map _ h.take, mergeSort_map _ h.drop, List.map_take, List.map_drop, List.length_map]
    rfl
termination_by l.length

section Filtering

variable {r : α → α → Bool}

/-- Of two numbered elements the one with the smaller number comes first unless the elements say otherwise. -/
theorem zipIdxLE_of_lt {a b : α × Nat} (h : a.2 < b.2) :
    zipIdxLE r a b = r a.1 b.1 := by
  unfold zipIdxLE
  cases hab : r a.1 b.1 with
  | false => rfl
  | true => simp [Nat.le_of_lt h]

theorem snd_eq_of_zipIdxLE {a b : α × Nat} (hab : zipIdxLE r a b = true) (hba : zipIdxLE r b a = true) :
    a.2 = b.2 := by
  unfold zipIdxLE at hab hba
  cases h₁ : r a.1 b.1 with
  | false => simp [h₁] at hab
  | true =>
    cases h₂ : r b.1 a.1 with
    | false => simp [h₂] at hba
    | true =>
      simp only [h₁, h₂, if_true, decide_eq_true_eq] at hab hba
      omega

theorem pairwise_zipIdx (l : List α) (n : Nat) : (l.zipIdx n).Pairwise fun a b => a.2 < b.2 := by
  induction l generalizing n with
  | nil => exact .nil
  | cons a l ih =>
    rw [List.zipIdx_cons]
    refine .cons (fun b hb => ?_) (ih (n + 1))
    have := (List.mem_zipIdx hb).1
    omega

/-- Sorting commutes with leaving elements out.  Numbered elements have only one sorted order, and sorting them is
sorting the elements. -/
theorem filter_mergeSort (trans : ∀ a b c, r a b = true → r b c = true → r a c = true)
    (total : ∀ a b, (r a b || r b a) = true) (p : α → Bool) (l : List α) :
    (l.mergeSort r).filter p = (l.filter p).mergeSort r := by
  have hfilter : ∀ m : List (α × Nat), (m.map Prod.fst).filter p = (m.filter (p ∘ Prod.fst)).map Prod.fst :=
    fun m => List.filter_map
  have hnumbered : (l.zipIdx.mergeSort (zipIdxLE r)).filter (p ∘ Prod.fst) =
      (l.zipIdx.filter (p ∘ Prod.fst)).mergeSort (zipIdxLE r) := by
    have hsorted := List.pairwise_mergeSort (List.zipIdxLE_trans trans) (List.zipIdxLE_total total)
    refine List.Perm.eq_of_pairwise ?_ ((hsorted l.zipIdx).filter _) (hsorted _)
      (((List.mergeSort_perm _ _).filter _).trans (List.mergeSort_perm _ _).symm)
    intro a b ha hb hab hba
    have ha := List.mem_zipIdx (List.mem_mergeSort.mp (List.mem_filter.mp ha |>.1))
    have hb := List.mem_zipIdx (List.mem_filter.mp (List.mem_mergeSort.mp hb) |>.1)
    have hnumber := snd_eq_of_zipIdxLE hab hba
    obtain ⟨x, i⟩ := a
    obtain ⟨y, j⟩ := b
    obtain rfl : i = j := hnumber
    exact congrArg (·, i) (ha.2.2.trans hb.2.2.symm)
  have hincreasing : (l.zipIdx.filter (p ∘ Prod.fst)).Pairwise fun a b => zipIdxLE r a b = r a.1 b.1 :=
    ((pairwise_zipIdx l 0).filter _).imp zipIdxLE_of_lt
  calc (l.mergeSort r).filter p
      = ((l.zipIdx.mergeSort (zipIdxLE r)).map Prod.fst).filter p := by rw [← List.mergeSort_zipIdx]
    _ = ((l.zipIdx.filter (p ∘ Prod.fst)).mergeSort (zipIdxLE r)).map Prod.fst := by rw [hfilter, hnumbered]
    _ = ((l.zipIdx.filter (p ∘ Prod.fst)).map Prod.fst).mergeSort r := mergeSort_map _ hincreasing
    _ = (l.filter p).mergeSort r := by rw [← hfilter, List.zipIdx_map_fst]

end Filtering

end Bluespec
