import Mathlib

/-!
Ordered lists that are cut at bounds, and lists that are read page by page.
-/

namespace Eden.PagedLists

/-! ### Bounds -/

section Bounds

variable {α : Type} {p q : α → Bool} {l : List α} {i : Nat}

/-- The position behind the elements at the front that satisfy a predicate. -/
def front (p : α → Bool) (l : List α) : Nat := (l.takeWhile p).length

/-- The predicate holds for the elements up to some position, and for no others. -/
def Initial (p : α → Bool) (l : List α) : Prop := l.Pairwise fun a b => p b = true → p a = true

theorem front_le_length : front p l ≤ l.length := (List.takeWhile_sublist p).length_le

theorem front_cons_pos {a : α} (h : p a = true) : front p (a :: l) = front p l + 1 := by
  rw [front, List.takeWhile_cons_of_pos h, List.length_cons, front]

theorem front_cons_neg {a : α} (h : ¬ p a = true) : front p (a :: l) = 0 := by
  rw [front, List.takeWhile_cons_of_neg h, List.length_nil]

theorem front_append {r : List α} (hl : ∀ a ∈ l, p a = true) (hr : ∀ a ∈ r, ¬ p a = true) :
    front p (l ++ r) = l.length := by
  have hrest : r.takeWhile p = [] := by
    cases r with
    | nil => rfl
    | cons a r => exact List.takeWhile_cons_of_neg (hr a List.mem_cons_self)
  rw [front, List.takeWhile_append_of_pos hl, hrest, List.append_nil]

theorem lt_front_iff (h : Initial p l) (hi : i < l.length) : i < front p l ↔ p l[i] = true := by
  induction l generalizing i with
  | nil => cases hi
  | cons a l ih =>
      rw [Initial, List.pairwise_cons] at h
      by_cases ha : p a = true
      · rw [front_cons_pos ha]
        cases i with
        | zero => simp [ha]
        | succ i =>
            rw [Nat.add_lt_add_iff_right, List.getElem_cons_succ]
            exact ih h.2 (Nat.lt_of_succ_lt_succ hi)
      · rw [front_cons_neg ha]
        refine iff_of_false (Nat.not_lt_zero i) ?_
        cases i with
        | zero => exact ha
        | succ i =>
            rw [List.getElem_cons_succ]
            exact fun hp => ha (h.1 _ (List.getElem_mem _) hp)

theorem eq_front (hp : Initial p l) {m : Nat} (hm : m ≤ l.length)
    (h : ∀ i (hi : i < l.length), i < m ↔ p l[i] = true) : m = front p l := by
  refine le_antisymm (le_of_not_gt fun hlt => ?_) (le_of_not_gt fun hlt => ?_)
  · have hi := hlt.trans_le hm
    exact lt_irrefl _ ((lt_front_iff hp hi).mpr ((h _ hi).mp hlt))
  · have hi := hlt.trans_le front_le_length
    exact lt_irrefl _ ((h _ hi).mpr ((lt_front_iff hp hi).mp hlt))

theorem Initial.or (hp : Initial p l) (hq : Initial q l) : Initial (fun a => p a || q a) l := by
  refine hp.imp₂ (fun a b hp hq => ?_) hq
  rw [Bool.or_eq_true, Bool.or_eq_true]
  exact Or.imp hp hq

theorem Initial.and (hp : Initial p l) (hq : Initial q l) : Initial (fun a => p a && q a) l := by
  refine hp.imp₂ (fun a b hp hq => ?_) hq
  rw [Bool.and_eq_true, Bool.and_eq_true]
  exact And.imp hp hq

theorem max_front (hp : Initial p l) (hq : Initial q l) :
    max (front p l) (front q l) = front (fun a => p a || q a) l := by
  refine eq_front (hp.or hq) (max_le front_le_length front_le_length) fun i hi => ?_
  rw [lt_max_iff, lt_front_iff hp hi, lt_front_iff hq hi, Bool.or_eq_true]

theorem min_front (hp : Initial p l) (hq : Initial q l) :
    min (front p l) (front q l) = front (fun a => p a && q a) l := by
  refine eq_front (hp.and hq) ((min_le_left _ _).trans front_le_length) fun i hi => ?_
  rw [lt_min_iff, lt_front_iff hp hi, lt_front_iff hq hi, Bool.and_eq_true]

theorem takeWhile_eq_filter (h : Initial p l) : l.takeWhile p = l.filter p := by
  induction l with
  | nil => rfl
  | cons a l ih =>
      rw [Initial, List.pairwise_cons] at h
      by_cases ha : p a = true
      · rw [List.takeWhile_cons_of_pos ha, List.filter_cons_of_pos ha, ih h.2]
      · rw [List.takeWhile_cons_of_neg ha, List.filter_cons_of_neg ha, eq_comm,
          List.filter_eq_nil_iff]
        exact fun b hb hp => ha (h.1 b hb hp)

theorem take_front (h : Initial p l) : l.take (front p l) = l.filter p := by
  rw [← takeWhile_eq_filter h, eq_comm]
  exact List.prefix_iff_eq_take.mp (List.takeWhile_prefix p)

/-- The elements between two bounds. -/
theorem drop_take_front (hp : Initial p l) (hq : Initial q l) :
    (l.take (front q l)).drop (front p l) = l.filter fun a => q a && !p a := by
  induction l with
  | nil => simp
  | cons a l ih =>
      have hp' := hp
      have hq' := hq
      rw [Initial, List.pairwise_cons] at hp' hq'
      by_cases ha : p a = true
      · rw [front_cons_pos ha]
        by_cases ha' : q a = true
        · rw [front_cons_pos ha', List.take_succ_cons, List.drop_succ_cons, ih hp'.2 hq'.2,
            List.filter_cons_of_neg (by simp [ha])]
        · rw [front_cons_neg ha', List.take_zero, List.drop_nil, eq_comm, List.filter_eq_nil_iff]
          intro b hb
          rcases List.mem_cons.mp hb with rfl | hb
          · simp [ha']
          · have hfalse : ¬ q b = true := fun hqb => ha' (hq'.1 b hb hqb)
            simp [hfalse]
      · rw [front_cons_neg ha, List.drop_zero, take_front hq]
        refine List.filter_congr fun b hb => ?_
        have hfalse : ¬ p b = true := by
          rcases List.mem_cons.mp hb with rfl | hb
          · exact ha
          · exact fun hpb => ha (hp'.1 b hb hpb)
        simp [hfalse]

theorem drop_front (hp : Initial p l) : l.drop (front p l) = l.filter fun a => !p a := by
  have hall : Initial (fun _ => true) l := List.pairwise_of_forall fun _ _ _ => rfl
  have hlength : front (fun _ => true) l = l.length := by
    rw [front, takeWhile_eq_filter hall, List.filter_true]
  have hdrop := drop_take_front hp hall
  rw [hlength, List.take_length] at hdrop
  simpa using hdrop

theorem drop_take_max (l : List α) {b e : Nat} (h : b ≤ i) :
    (l.take (max b e)).drop i = (l.take e).drop i := by
  rw [List.drop_take, List.drop_take]
  congr 1
  omega

theorem drop_take_min (l : List α) (b e i : Nat) :
    (l.take e).drop (max b (min i e)) = (l.take e).drop (max b i) := by
  by_cases hle : i ≤ e
  · rw [min_eq_left hle]
  · have hend : ∀ j, e ≤ j → (l.take e).drop j = [] :=
      fun j hj => List.drop_eq_nil_of_le ((List.length_take_le _ _).trans hj)
    rw [hend _ (by omega), hend _ (by omega)]

end Bounds

/-! ### Ordered lists -/

section Ordered

variable {κ α : Type} [LinearOrder κ] {key : α → κ} {l : List α}

theorem initial_lt (h : l.Pairwise fun a b => key a < key b) (k : κ) :
    Initial (fun a => key a < k) l := by
  refine h.imp fun hab hb => ?_
  rw [decide_eq_true_eq] at hb ⊢
  exact hab.trans hb

theorem initial_le (h : l.Pairwise fun a b => key a < key b) (k : κ) :
    Initial (fun a => key a ≤ k) l := by
  refine h.imp fun hab hb => ?_
  rw [decide_eq_true_eq] at hb ⊢
  exact hab.le.trans hb

theorem key_lt_iff (h : l.Pairwise fun a b => key a < key b) {i j : Nat} (hi : i < l.length)
    (hj : j < l.length) : key l[i] < key l[j] ↔ i < j := by
  have hmono := List.pairwise_iff_getElem.mp h
  refine ⟨fun hlt => ?_, fun hij => hmono i j hi hj hij⟩
  by_contra hge
  rcases (not_lt.mp hge).eq_or_lt with rfl | hji
  · exact lt_irrefl _ hlt
  · exact lt_asymm hlt (hmono j i hj hi hji)

/-- The elements in front of one of them. -/
theorem filter_lt (h : l.Pairwise fun a b => key a < key b) {i : Nat} (hi : i < l.length) :
    (l.filter fun a => key a < key l[i]) = l.take i := by
  have hinitial := initial_lt h (key l[i])
  rw [← take_front hinitial]
  congr 1
  refine (eq_front hinitial hi.le fun j hj => ?_).symm
  rw [decide_eq_true_eq, key_lt_iff h hj hi]

/-- The elements behind one of them. -/
theorem filter_gt (h : l.Pairwise fun a b => key a < key b) {i : Nat} (hi : i < l.length) :
    (l.filter fun a => key l[i] < key a) = l.drop (i + 1) := by
  have hinitial := initial_le h (key l[i])
  have hfront : i + 1 = front (fun a => key a ≤ key l[i]) l := by
    refine eq_front hinitial hi fun j hj => ?_
    rw [decide_eq_true_eq, ← not_lt, key_lt_iff h hi hj, not_lt, Nat.lt_succ_iff]
  rw [hfront, drop_front hinitial]
  refine List.filter_congr fun a _ => ?_
  rw [← decide_not, decide_eq_decide, not_le]

end Ordered

/-! ### Pages -/

section Pages

variable {γ π β : Type}

/-- Requests for one page after the other, until a page says that there are no more. -/
def requestAll (page : γ → π) (more : π → Bool) (next : π → γ) : (requests : Nat) → γ →
    Option (List π)
  | 0, _ => none
  | requests + 1, cursor =>
      if more (page cursor) then
        (requestAll page more next requests (next (page cursor))).map (page cursor :: ·)
      else some [page cursor]

/-- Pages of some length, of the elements that come after each cursor. -/
structure Paged (page : γ → π) (items : π → List β) (more : π → Bool) (next : π → γ)
    (rest : γ → List β) (length : Nat) : Prop where
  items_eq : ∀ cursor, items (page cursor) = (rest cursor).take length
  more_iff : ∀ cursor, more (page cursor) = true ↔ length < (rest cursor).length
  rest_next : ∀ cursor, more (page cursor) = true →
    rest (next (page cursor)) = (rest cursor).drop length

variable {page : γ → π} {items : π → List β} {more : π → Bool} {next : π → γ}
  {rest : γ → List β} {length : Nat}

/-- The pages together have every element once, and each page knows if there are more. -/
theorem Paged.complete (h : Paged page items more next rest length) (hlength : 0 < length)
    (cursor : γ) :
    ∃ pages, (∃ requests, requestAll page more next requests cursor = some pages) ∧
      pages.flatMap items = rest cursor ∧
      ∀ i p, pages[i]? = some p →
        (more p = true ↔ ((pages.take (i + 1)).flatMap items).length < (rest cursor).length) := by
  induction hsize : (rest cursor).length using Nat.strong_induction_on generalizing cursor with
  | h size ih =>
      subst hsize
      have hitems := h.items_eq cursor
      have hiff := h.more_iff cursor
      by_cases hmore : more (page cursor) = true
      · have hlt := hiff.mp hmore
        have hnext := h.rest_next cursor hmore
        have hless : (rest (next (page cursor))).length < (rest cursor).length := by
          rw [hnext, List.length_drop]
          omega
        obtain ⟨pages, ⟨requests, hrequests⟩, hall, hindex⟩ := ih _ hless _ rfl
        refine ⟨page cursor :: pages, ⟨requests + 1, ?_⟩, ?_, ?_⟩
        · rw [requestAll, if_pos hmore, hrequests, Option.map_some]
        · rw [List.flatMap_cons, hall, hitems, hnext, List.take_append_drop]
        · intro i p hp
          rw [List.take_succ_cons, List.flatMap_cons, List.length_append, hitems,
            List.length_take_of_le hlt.le]
          cases i with
          | zero =>
              rw [List.getElem?_cons_zero, Option.some.injEq] at hp
              subst hp
              rw [List.take_zero, List.flatMap_nil, List.length_nil, Nat.add_zero]
              exact hiff
          | succ i =>
              rw [List.getElem?_cons_succ] at hp
              rw [hindex i p hp, hnext, List.length_drop]
              omega
      · have hall : items (page cursor) = rest cursor := by
          rw [hitems]
          exact List.take_of_length_le (Nat.le_of_not_lt fun hlt => hmore (hiff.mpr hlt))
        refine ⟨[page cursor], ⟨1, ?_⟩, ?_, ?_⟩
        · rw [requestAll, if_neg hmore]
        · rw [List.flatMap_singleton, hall]
        · intro i p hp
          obtain ⟨rfl, rfl⟩ : i = 0 ∧ page cursor = p := by simpa using List.getElem?_eq_some_iff.mp hp
          refine iff_of_false hmore ?_
          rw [List.take_succ_cons, List.take_zero, List.flatMap_singleton, hall]
          exact lt_irrefl _

end Pages

end Eden.PagedLists
