import Mathlib.Data.List.Basic
import Mathlib.Data.List.Pairwise
import Mathlib.Data.List.TakeDrop

/-!
Search in a list whose elements before some position satisfy a predicate and whose other elements
do not.
-/

namespace Eden.LowerBound

variable {α : Type}

/-- The loop of `std::lower_bound` over the `len` positions from `first` on. -/
def lowerBoundFrom (before : α → Bool) (xs : List α) (first len : Nat) : Nat :=
  if len = 0 then first
  else
    let half := len / 2
    if (xs[first + half]?).any before then
      lowerBoundFrom before xs (first + half + 1) (len - (half + 1))
    else lowerBoundFrom before xs first half
termination_by len

/-- `std::lower_bound` -/
def lowerBound (before : α → Bool) (xs : List α) : Nat :=
  lowerBoundFrom before xs 0 xs.length

/-- Cut a list into the elements before some bound and the other ones. -/
structure Cut (before : α → Prop) (xs l r : List α) : Prop where
  append : xs = l ++ r
  left : ∀ a ∈ l, before a
  right : ∀ a ∈ r, ¬ before a

variable {before : α → Bool} {xs l r : List α}

theorem lowerBoundFrom_eq (h : Cut (before · = true) xs l r) (first len : Nat)
    (hfirst : first ≤ l.length) (hlen : l.length ≤ first + len)
    (hxs : first + len ≤ xs.length) : lowerBoundFrom before xs first len = l.length := by
  fun_induction lowerBoundFrom before xs first len with
  | case1 first => omega
  | case2 first len hne half hbefore ih =>
      -- The element in the middle is before the bound, and so are all elements up to it.
      have hhalf : half = len / 2 := rfl
      have hlt : first + half < l.length := by
        by_contra hge
        obtain ⟨a, ha, hbefore⟩ := Option.any_eq_true _ _ |>.mp hbefore
        rw [h.append, List.getElem?_append_right (by omega)] at ha
        exact h.right a (List.mem_of_getElem? ha) hbefore
      exact ih (by omega) (by omega) (by omega)
  | case3 first len hne half hbefore ih =>
      have hhalf : half = len / 2 := rfl
      have hge : l.length ≤ first + half := by
        by_contra hlt
        have hget : xs[first + half]? = some l[first + half] := by
          rw [h.append, List.getElem?_append_left (by omega), List.getElem?_eq_getElem]
        rw [hget, Option.any_some] at hbefore
        exact hbefore (h.left _ (List.getElem_mem _))
      exact ih hfirst hge (by omega)

/-- A binary search finds the position at which the list is cut. -/
theorem lowerBound_eq (h : Cut (before · = true) xs l r) : lowerBound before xs = l.length := by
  have hlength : xs.length = l.length + r.length := by rw [h.append, List.length_append]
  exact lowerBoundFrom_eq h 0 xs.length (by omega) (by omega) (by omega)

section Sorted

variable {f : α → Nat}

theorem exists_cut (h : xs.Pairwise fun a b => f a < f b) (n : Nat) :
    ∃ l r, Cut (f · < n) xs l r := by
  induction xs with
  | nil => exact ⟨[], [], rfl, by simp, by simp⟩
  | cons a xs ih =>
      rw [List.pairwise_cons] at h
      by_cases ha : f a < n
      · obtain ⟨l, r, happend, hleft, hright⟩ := ih h.2
        exact ⟨a :: l, r, by rw [happend, List.cons_append],
          List.forall_mem_cons.mpr ⟨ha, hleft⟩, hright⟩
      · refine ⟨[], a :: xs, rfl, by simp, List.forall_mem_cons.mpr ⟨ha, ?_⟩⟩
        intro b hb
        have hab := h.1 b hb
        omega

/-- The element at the bound is the only one that can have the value. -/
theorem find?_eq_head? (h : xs.Pairwise fun a b => f a < f b) {n : Nat}
    (hcut : Cut (f · < n) xs l r) :
    xs.find? (f · = n) = r.head?.filter (f · = n) := by
  have hleft : l.find? (f · = n) = none := by
    rw [List.find?_eq_none]
    intro a ha
    have hbefore : f a < n := hcut.left a ha
    simpa using Nat.ne_of_lt hbefore
  rw [hcut.append, List.find?_append, hleft, Option.none_or]
  cases r with
  | nil => rfl
  | cons a r =>
      by_cases ha : f a = n
      · simp [Option.filter, ha]
      · have hright : r.find? (f · = n) = none := by
          rw [List.find?_eq_none]
          intro b hb
          have hafter : ¬ f a < n := hcut.right a List.mem_cons_self
          rw [hcut.append, List.pairwise_append, List.pairwise_cons] at h
          have hab := h.2.1.1 b hb
          simp only [decide_eq_true_eq]
          omega
        simp [Option.filter, ha, hright]

/-- The last element before the bound is the one next to the cut. -/
theorem getLast?_filter {n : Nat} (hcut : Cut (f · < n) xs l r) :
    (xs.filter (f · < n)).getLast? = l.getLast? := by
  have hleft : l.filter (f · < n) = l := by
    rw [List.filter_eq_self]
    intro a ha
    simpa using hcut.left a ha
  have hright : r.filter (f · < n) = [] := by
    rw [List.filter_eq_nil_iff]
    intro a ha
    simpa using hcut.right a ha
  rw [hcut.append, List.filter_append, hleft, hright, List.append_nil]

end Sorted

end Eden.LowerBound
