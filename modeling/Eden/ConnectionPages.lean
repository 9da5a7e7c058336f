import Eden.LinkedBlocks
import Eden.PagedLists

/-!
Connections: pages of an ordered container, with cursors that are the serialized keys of its
elements.
-/

namespace Eden.ConnectionPages

open Eden.ChainPrimitives
open Eden.PagedLists

/-! ### Containers -/

/-- A container without duplicate keys. Positions stand for iterators; the end of the container is
its length. -/
structure Container (κ α : Type) [LinearOrder κ] where
  elements : List α
  toKey : α → κ
  lowerBound : κ → Nat
  upperBound : κ → Nat
  increasing : elements.Pairwise fun a b => toKey a < toKey b
  /-- The first element whose key is not less. -/
  lower_correct : ∀ k, lowerBound k = front (fun a => toKey a < k) elements
  /-- The first element whose key is greater. -/
  upper_correct : ∀ k, upperBound k = front (fun a => toKey a ≤ k) elements

variable {κ α ν : Type} [LinearOrder κ]

namespace Container

variable (c : Container κ α)

/-- `compare_it` -/
def compareIt (a b : Nat) : Bool :=
  if a = c.elements.length then false
  else if b = c.elements.length then true
  else match c.elements[a]?, c.elements[b]? with
    | some x, some y => c.toKey x < c.toKey y
    | _, _ => false

/-- `std::max` -/
def maxIt (a b : Nat) : Nat := if c.compareIt a b then b else a

/-- `std::min` -/
def minIt (a b : Nat) : Nat := if c.compareIt b a then b else a

/-- `std::clamp` -/
def clampIt (it lo hi : Nat) : Nat :=
  if c.compareIt it lo then lo else if c.compareIt hi it then hi else it

end Container

/-! ### Arguments -/

/-- The bounds of a range of keys. -/
structure Bounds (κ : Type) where
  gt : Option κ := none
  ge : Option κ := none
  lt : Option κ := none
  le : Option κ := none

/-- How many elements a page may have, and where it is. -/
structure Paging where
  first : Option UInt32 := none
  last : Option UInt32 := none
  before : Option Text := none
  after : Option Text := none

-- The hex digits of a serialized key, and the key of hex digits.
variable (encode : κ → Text) (decode : Text → Option κ)

/-- `key_from_hex` -/
def keyFromHex (cursor : Option Text) : Option κ :=
  match cursor with
  | none => none
  | some text => if text = [] then none else decode text

/-! ### Connections -/

structure Edge (ν : Type) where
  node : ν
  cursor : Text
  deriving DecidableEq, Repr

structure PageInfo where
  hasPreviousPage : Bool := false
  hasNextPage : Bool := false
  startCursor : Text := []
  endCursor : Text := []
  deriving DecidableEq, Repr

structure Connection (ν : Type) where
  edges : List (Edge ν)
  pageInfo : PageInfo
  deriving DecidableEq, Repr

namespace Container

variable (c : Container κ α) (toNode : α → ν)

def rangeBegin (bounds : Bounds κ) : Nat :=
  let begin := 0
  let begin := bounds.ge.elim begin fun k => c.maxIt begin (c.lowerBound k)
  bounds.gt.elim begin fun k => c.maxIt begin (c.upperBound k)

def rangeEnd (bounds : Bounds κ) : Nat :=
  let stop := c.elements.length
  let stop := bounds.le.elim stop fun k => c.minIt stop (c.upperBound k)
  let stop := bounds.lt.elim stop fun k => c.minIt stop (c.lowerBound k)
  c.maxIt (c.rangeBegin bounds) stop

/-- `it`, before the loops. -/
def pageBegin (bounds : Bounds κ) (after : Option Text) : Nat :=
  (keyFromHex decode after).elim (c.rangeBegin bounds) fun k =>
    c.clampIt (c.upperBound k) (c.rangeBegin bounds) (c.rangeEnd bounds)

/-- `end`, before the loops. -/
def pageEnd (bounds : Bounds κ) (before after : Option Text) : Nat :=
  let stop := (keyFromHex decode before).elim (c.rangeEnd bounds) fun k =>
    c.clampIt (c.lowerBound k) (c.rangeBegin bounds) (c.rangeEnd bounds)
  c.maxIt (c.pageBegin decode bounds after) stop

/-- What `add_edge` adds for an element. -/
def edge (a : α) : Edge ν := ⟨toNode a, encode (c.toKey a)⟩

end Container

/-- The loop over the elements from `it` on: the edges, and where it stops. -/
def addForwards (edge : α → Edge ν) : (first : Option UInt32) → (it : Nat) → List α →
    List (Edge ν) × Nat
  | _, it, [] => ([], it)
  | none, it, a :: rest =>
      let r := addForwards edge none (it + 1) rest
      (edge a :: r.1, r.2)
  | some first, it, a :: rest =>
      if first > 0 then
        let r := addForwards edge (some (first - 1)) (it + 1) rest
        (edge a :: r.1, r.2)
      else ([], it)

/-- The loop over the elements in front of `stop`, from the last one on. -/
def addBackwards (edge : α → Edge ν) : (last : UInt32) → (stop : Nat) → List α →
    List (Edge ν) × Nat
  | _, stop, [] => ([], stop)
  | last, stop, a :: rest =>
      if last > 0 then
        let r := addBackwards edge (last - 1) (stop - 1) rest
        (edge a :: r.1, r.2)
      else ([], stop)

/-- The cursors of the first and the last edge. -/
def PageInfo.withCursors (info : PageInfo) (edges : List (Edge ν)) : PageInfo :=
  { info with
    startCursor := (edges.head?.map (·.cursor)).getD info.startCursor
    endCursor := (edges.getLast?.map (·.cursor)).getD info.endCursor }

/-- `make_connection` -/
def makeConnection (c : Container κ α) (toNode : α → ν) (bounds : Bounds κ) (paging : Paging) :
    Connection ν :=
  let rangeBegin := c.rangeBegin bounds
  let rangeEnd := c.rangeEnd bounds
  let it := c.pageBegin decode bounds paging.after
  let stop := c.pageEnd decode bounds paging.before paging.after
  let between := (c.elements.take stop).drop it
  match paging.last, paging.first with
  | some last, none =>
      let (edges, stop') := addBackwards (c.edge encode toNode) last stop between.reverse
      let edges := edges.reverse
      let info : PageInfo :=
        { hasNextPage := stop ≠ rangeEnd, hasPreviousPage := stop' ≠ rangeBegin }
      ⟨edges, info.withCursors edges⟩
  | last, first =>
      let (edges, it') := addForwards (c.edge encode toNode) first it between
      let info : PageInfo := { hasPreviousPage := it ≠ rangeBegin, hasNextPage := it' ≠ rangeEnd }
      match last with
      | some last =>
          if last.toNat < edges.length then
            let edges := edges.drop (edges.length - last.toNat)
            ⟨edges, { info with hasPreviousPage := true }.withCursors edges⟩
          else ⟨edges, info.withCursors edges⟩
      | none => ⟨edges, info.withCursors edges⟩

/-! ### Ranges -/

/-- The key lies within the bounds. -/
def Bounds.contains (b : Bounds κ) (k : κ) : Bool :=
  b.gt.all (· < k) && b.ge.all (· ≤ k) && b.lt.all (k < ·) && b.le.all (k ≤ ·)

/-- The key lies in front of the range. -/
def Bounds.below (b : Bounds κ) (k : κ) : Bool := b.ge.any (k < ·) || b.gt.any (k ≤ ·)

/-- The key does not lie behind the range. -/
def Bounds.notAbove (b : Bounds κ) (k : κ) : Bool := b.le.all (k ≤ ·) && b.lt.all (k < ·)

theorem Bounds.contains_eq (b : Bounds κ) (k : κ) :
    b.contains k = (b.notAbove k && !b.below k) := by
  have hge : b.ge.all (· ≤ k) = !b.ge.any (k < ·) := by
    cases b.ge with
    | none => rfl
    | some x => simp [← not_lt]
  have hgt : b.gt.all (· < k) = !b.gt.any (k ≤ ·) := by
    cases b.gt with
    | none => rfl
    | some x => simp [← not_le]
  rw [contains, notAbove, below, hge, hgt, Bool.not_or]
  ac_rfl

namespace Container

variable {c : Container κ α} {bounds : Bounds κ} {a b : Nat}

theorem compareIt_eq (ha : a ≤ c.elements.length) (hb : b ≤ c.elements.length) :
    c.compareIt a b = decide (a < b) := by
  unfold compareIt
  split
  · rename_i hend
    exact (decide_eq_false (by omega)).symm
  · split
    · rename_i hend
      exact (decide_eq_true (by omega)).symm
    · have ha' : a < c.elements.length := by omega
      have hb' : b < c.elements.length := by omega
      rw [List.getElem?_eq_getElem ha', List.getElem?_eq_getElem hb']
      exact decide_eq_decide.mpr (key_lt_iff c.increasing ha' hb')

theorem maxIt_eq (ha : a ≤ c.elements.length) (hb : b ≤ c.elements.length) :
    c.maxIt a b = max a b := by
  rw [maxIt, compareIt_eq ha hb]
  grind

theorem minIt_eq (ha : a ≤ c.elements.length) (hb : b ≤ c.elements.length) :
    c.minIt a b = min a b := by
  rw [minIt, compareIt_eq hb ha]
  grind

theorem clampIt_eq {it lo hi : Nat} (hit : it ≤ c.elements.length) (hle : lo ≤ hi)
    (hhi : hi ≤ c.elements.length) : c.clampIt it lo hi = max lo (min it hi) := by
  rw [clampIt, compareIt_eq hit (hle.trans hhi), compareIt_eq hhi hit]
  grind

theorem lowerBound_le (k : κ) : c.lowerBound k ≤ c.elements.length := by
  rw [c.lower_correct]
  exact front_le_length

theorem upperBound_le (k : κ) : c.upperBound k ≤ c.elements.length := by
  rw [c.upper_correct]
  exact front_le_length

/-- A bound that may be missing moves a position forwards. -/
theorem elim_maxIt {p : α → Bool} {q : κ → α → Bool} {bound : κ → Nat} (o : Option κ)
    (hp : Initial p c.elements) (hq : ∀ k, Initial (q k) c.elements)
    (hbound : ∀ k, bound k = front (q k) c.elements) :
    (o.elim (front p c.elements) fun k => c.maxIt (front p c.elements) (bound k)) =
      front (fun a => p a || o.any fun k => q k a) c.elements := by
  cases o with
  | none => simp
  | some k =>
      rw [Option.elim_some, hbound, maxIt_eq front_le_length front_le_length, max_front hp (hq k)]
      rfl

/-- A bound that may be missing moves a position backwards. -/
theorem elim_minIt {p : α → Bool} {q : κ → α → Bool} {bound : κ → Nat} (o : Option κ)
    (hp : Initial p c.elements) (hq : ∀ k, Initial (q k) c.elements)
    (hbound : ∀ k, bound k = front (q k) c.elements) :
    (o.elim (front p c.elements) fun k => c.minIt (front p c.elements) (bound k)) =
      front (fun a => p a && o.all fun k => q k a) c.elements := by
  cases o with
  | none => simp
  | some k =>
      rw [Option.elim_some, hbound, minIt_eq front_le_length front_le_length, min_front hp (hq k)]
      rfl

theorem initial_any {q : κ → α → Bool} (hq : ∀ k, Initial (q k) c.elements) (o : Option κ) :
    Initial (fun a => o.any fun k => q k a) c.elements := by
  cases o with
  | none => exact List.pairwise_of_forall fun _ _ h => h
  | some k => exact hq k

theorem initial_all {q : κ → α → Bool} (hq : ∀ k, Initial (q k) c.elements) (o : Option κ) :
    Initial (fun a => o.all fun k => q k a) c.elements := by
  cases o with
  | none => exact List.pairwise_of_forall fun _ _ h => h
  | some k => exact hq k

theorem initial_below : Initial (fun a => bounds.below (c.toKey a)) c.elements :=
  (initial_any (initial_lt c.increasing) bounds.ge).or
    (initial_any (initial_le c.increasing) bounds.gt)

theorem initial_notAbove : Initial (fun a => bounds.notAbove (c.toKey a)) c.elements :=
  (initial_all (initial_le c.increasing) bounds.le).and
    (initial_all (initial_lt c.increasing) bounds.lt)

theorem rangeBegin_eq (c : Container κ α) (bounds : Bounds κ) :
    c.rangeBegin bounds = front (fun a => bounds.below (c.toKey a)) c.elements := by
  have hge := initial_any (initial_lt c.increasing) bounds.ge
  have hmax : (bounds.ge.elim 0 fun k => c.maxIt 0 (c.lowerBound k)) =
      front (fun a => bounds.ge.any fun k => c.toKey a < k) c.elements := by
    cases bounds.ge with
    | none =>
        refine eq_front (initial_any (initial_lt c.increasing) none) (Nat.zero_le _) fun i hi => ?_
        simp
    | some k =>
        rw [Option.elim_some, maxIt_eq (Nat.zero_le _) (lowerBound_le k), Nat.zero_max,
          c.lower_correct]
        rfl
  rw [rangeBegin]
  simp only [hmax]
  exact elim_maxIt bounds.gt hge (initial_le c.increasing) c.upper_correct

theorem rangeEnd_eq (c : Container κ α) (bounds : Bounds κ) :
    c.rangeEnd bounds =
      max (c.rangeBegin bounds) (front (fun a => bounds.notAbove (c.toKey a)) c.elements) := by
  have hle := initial_all (initial_le c.increasing) bounds.le
  have hmin : (bounds.le.elim c.elements.length fun k =>
      c.minIt c.elements.length (c.upperBound k)) =
        front (fun a => bounds.le.all fun k => c.toKey a ≤ k) c.elements := by
    cases bounds.le with
    | none =>
        refine eq_front (initial_all (initial_le c.increasing) none) (le_refl _) fun i hi => ?_
        simpa using hi
    | some k =>
        rw [Option.elim_some, minIt_eq (le_refl _) (upperBound_le k),
          min_eq_right (upperBound_le k), c.upper_correct]
        rfl
  have hstop := elim_minIt bounds.lt hle (initial_lt c.increasing) c.lower_correct
  rw [rangeEnd]
  simp only [hmin]
  rw [hstop, maxIt_eq _ front_le_length]
  · rfl
  · rw [rangeBegin_eq]
    exact front_le_length

theorem rangeEnd_le : c.rangeEnd bounds ≤ c.elements.length := by
  rw [rangeEnd_eq, rangeBegin_eq]
  exact max_le front_le_length front_le_length

theorem rangeBegin_le_end : c.rangeBegin bounds ≤ c.rangeEnd bounds := by
  rw [rangeEnd_eq]
  exact le_max_left _ _

/-- The elements within the bounds. -/
def range (c : Container κ α) (bounds : Bounds κ) : List α :=
  c.elements.filter fun a => bounds.contains (c.toKey a)

/-- The elements of the range that come after a cursor, or all of them. -/
def rangeAfter (c : Container κ α) (bounds : Bounds κ) (cursor : Option κ) : List α :=
  (c.range bounds).filter fun a => cursor.all (· < c.toKey a)

/-- The elements of the range that come before a cursor, or all of them. -/
def rangeBefore (c : Container κ α) (bounds : Bounds κ) (cursor : Option κ) : List α :=
  (c.range bounds).filter fun a => cursor.all (c.toKey a < ·)

theorem range_increasing : (c.range bounds).Pairwise fun a b => c.toKey a < c.toKey b :=
  c.increasing.sublist List.filter_sublist

theorem rangeAfter_increasing (cursor : Option κ) :
    (c.rangeAfter bounds cursor).Pairwise fun a b => c.toKey a < c.toKey b :=
  range_increasing.sublist List.filter_sublist

theorem rangeBefore_increasing (cursor : Option κ) :
    (c.rangeBefore bounds cursor).Pairwise fun a b => c.toKey a < c.toKey b :=
  range_increasing.sublist List.filter_sublist

theorem rangeAfter_none : c.rangeAfter bounds none = c.range bounds := List.filter_true _

theorem rangeBefore_none : c.rangeBefore bounds none = c.range bounds := List.filter_true _

/-- Behind an element that is behind a cursor. -/
theorem rangeAfter_getElem {cursor : Option κ} {i : Nat}
    (hi : i < (c.rangeAfter bounds cursor).length) :
    c.rangeAfter bounds (some (c.toKey (c.rangeAfter bounds cursor)[i])) =
      (c.rangeAfter bounds cursor).drop (i + 1) := by
  rw [← filter_gt (rangeAfter_increasing cursor) hi]
  have hmem := List.mem_filter.mp (List.getElem_mem hi)
  generalize (c.rangeAfter bounds cursor)[i] = last at hmem
  rw [rangeAfter, rangeAfter, List.filter_filter]
  refine List.filter_congr fun a _ => ?_
  cases cursor with
  | none => simp
  | some k =>
      have hlast : k < c.toKey last := by simpa using hmem.2
      simp only [Option.all_some]
      grind

/-- In front of an element that is in front of a cursor. -/
theorem rangeBefore_getElem {cursor : Option κ} {i : Nat}
    (hi : i < (c.rangeBefore bounds cursor).length) :
    c.rangeBefore bounds (some (c.toKey (c.rangeBefore bounds cursor)[i])) =
      (c.rangeBefore bounds cursor).take i := by
  rw [← filter_lt (rangeBefore_increasing cursor) hi]
  have hmem := List.mem_filter.mp (List.getElem_mem hi)
  generalize (c.rangeBefore bounds cursor)[i] = first at hmem
  rw [rangeBefore, rangeBefore, List.filter_filter]
  refine List.filter_congr fun a _ => ?_
  cases cursor with
  | none => simp
  | some k =>
      have hfirst : c.toKey first < k := by simpa using hmem.2
      simp only [Option.all_some]
      grind

variable {decode : Text → Option κ}

theorem pageBegin_eq (after : Option Text) :
    c.pageBegin decode bounds after =
      (keyFromHex decode after).elim (c.rangeBegin bounds) fun k =>
        max (c.rangeBegin bounds) (min (c.upperBound k) (c.rangeEnd bounds)) := by
  rw [pageBegin]
  cases keyFromHex decode after with
  | none => rfl
  | some k => exact clampIt_eq (upperBound_le k) rangeBegin_le_end rangeEnd_le

theorem pageBegin_le (after : Option Text) :
    c.rangeBegin bounds ≤ c.pageBegin decode bounds after ∧
      c.pageBegin decode bounds after ≤ c.rangeEnd bounds := by
  rw [pageBegin_eq]
  have hle : c.rangeBegin bounds ≤ c.rangeEnd bounds := rangeBegin_le_end
  cases keyFromHex decode after with
  | none => exact ⟨le_refl _, hle⟩
  | some k => exact ⟨le_max_left _ _, max_le hle (min_le_right _ _)⟩

/-- Without a cursor a page starts at the start of the range. -/
theorem pageBegin_none : c.pageBegin decode bounds none = c.rangeBegin bounds := rfl

theorem pageEnd_eq (before after : Option Text) :
    c.pageEnd decode bounds before after =
      max (c.pageBegin decode bounds after)
        ((keyFromHex decode before).elim (c.rangeEnd bounds) fun k =>
          max (c.rangeBegin bounds) (min (c.lowerBound k) (c.rangeEnd bounds))) := by
  have hbegin : c.pageBegin decode bounds after ≤ c.elements.length :=
    (pageBegin_le after).2.trans rangeEnd_le
  have hrange : c.rangeBegin bounds ≤ c.rangeEnd bounds := rangeBegin_le_end
  rw [pageEnd]
  cases keyFromHex decode before with
  | none => exact maxIt_eq hbegin rangeEnd_le
  | some k =>
      have hclamp := clampIt_eq (lowerBound_le k) hrange rangeEnd_le
      simp only [Option.elim_some, hclamp]
      refine maxIt_eq hbegin ?_
      exact max_le (hrange.trans rangeEnd_le) ((min_le_right _ _).trans rangeEnd_le)

theorem pageEnd_le (before after : Option Text) :
    c.pageBegin decode bounds after ≤ c.pageEnd decode bounds before after ∧
      c.pageEnd decode bounds before after ≤ c.rangeEnd bounds := by
  rw [pageEnd_eq]
  refine ⟨le_max_left _ _, max_le (pageBegin_le after).2 ?_⟩
  cases keyFromHex decode before with
  | none => exact le_refl _
  | some k => exact max_le rangeBegin_le_end (min_le_right _ _)

/-- Without a cursor a page stops at the end of the range. -/
theorem pageEnd_none (after : Option Text) :
    c.pageEnd decode bounds none after = c.rangeEnd bounds := by
  rw [pageEnd_eq]
  exact max_eq_right (pageBegin_le after).2

/-- The elements that a page forwards may have. -/
theorem between_after (after : Option Text) :
    (c.elements.take (c.rangeEnd bounds)).drop (c.pageBegin decode bounds after) =
      c.rangeAfter bounds (keyFromHex decode after) := by
  rw [pageBegin_eq, rangeAfter, range, List.filter_filter]
  cases keyFromHex decode after with
  | none =>
      rw [Option.elim_none, rangeEnd_eq, drop_take_max _ (le_refl _), rangeBegin_eq,
        drop_take_front initial_below initial_notAbove]
      refine List.filter_congr fun a _ => ?_
      rw [bounds.contains_eq]
      rfl
  | some k =>
      rw [Option.elim_some, drop_take_min, rangeEnd_eq, drop_take_max _ (le_max_left _ _),
        rangeBegin_eq, c.upper_correct, max_front initial_below (initial_le c.increasing k),
        drop_take_front (initial_below.or (initial_le c.increasing k)) initial_notAbove]
      refine List.filter_congr fun a _ => ?_
      rw [bounds.contains_eq, Option.all_some]
      grind

/-- The elements that a page backwards may have. -/
theorem between_before (before : Option Text) :
    (c.elements.take (c.pageEnd decode bounds before none)).drop (c.rangeBegin bounds) =
      c.rangeBefore bounds (keyFromHex decode before) := by
  rw [pageEnd_eq, pageBegin_none, drop_take_max _ (le_refl _), rangeBefore, range,
    List.filter_filter]
  cases keyFromHex decode before with
  | none =>
      rw [Option.elim_none, rangeEnd_eq, drop_take_max _ (le_refl _), rangeBegin_eq,
        drop_take_front initial_below initial_notAbove]
      refine List.filter_congr fun a _ => ?_
      rw [bounds.contains_eq]
      rfl
  | some k =>
      have hcut : (c.elements.take (min (c.lowerBound k) (c.rangeEnd bounds))).drop
            (c.rangeBegin bounds) =
          (c.elements.take (min (front (fun a => bounds.notAbove (c.toKey a)) c.elements)
            (c.lowerBound k))).drop (c.rangeBegin bounds) := by
        rw [rangeEnd_eq, List.drop_take, List.drop_take]
        congr 1
        omega
      rw [Option.elim_some, drop_take_max _ (le_refl _), hcut, rangeBegin_eq, c.lower_correct,
        min_front initial_notAbove (initial_lt c.increasing k),
        drop_take_front initial_below (initial_notAbove.and (initial_lt c.increasing k))]
      refine List.filter_congr fun a _ => ?_
      rw [bounds.contains_eq, Option.all_some]
      grind

end Container

/-! ### Loops -/

theorem toNat_sub_one {n : UInt32} (h : n > 0) : (n - 1).toNat = n.toNat - 1 := by
  refine UInt32.toNat_sub_of_le n 1 ?_
  rw [UInt32.le_iff_toNat_le]
  exact Nat.succ_le_of_lt (UInt32.lt_iff_toNat_lt.mp h)

theorem toNat_pos {n : UInt32} : n > 0 ↔ 0 < n.toNat := UInt32.lt_iff_toNat_lt

theorem addForwards_eq (edge : α → Edge ν) (n : UInt32) (it : Nat) (l : List α) :
    addForwards edge (some n) it l = ((l.take n.toNat).map edge, it + min n.toNat l.length) := by
  induction l generalizing n it with
  | nil => simp [addForwards]
  | cons a l ih =>
      rw [addForwards]
      split
      · rename_i hn
        have hpos := toNat_pos.mp hn
        obtain ⟨k, hk⟩ := Nat.exists_eq_succ_of_ne_zero hpos.ne'
        have hsub : (n - 1).toNat = k := by
          rw [toNat_sub_one hn, hk]
          rfl
        rw [ih, hsub, hk, List.take_succ_cons, List.map_cons, List.length_cons]
        refine Prod.ext rfl ?_
        simp only
        omega
      · rename_i hn
        have hzero : n.toNat = 0 := Nat.eq_zero_of_not_pos fun hpos => hn (toNat_pos.mpr hpos)
        simp [hzero]

theorem addBackwards_eq (edge : α → Edge ν) (n : UInt32) (stop : Nat) (l : List α) :
    addBackwards edge n stop l = ((l.take n.toNat).map edge, stop - min n.toNat l.length) := by
  induction l generalizing n stop with
  | nil => simp [addBackwards]
  | cons a l ih =>
      rw [addBackwards]
      split
      · rename_i hn
        have hpos := toNat_pos.mp hn
        obtain ⟨k, hk⟩ := Nat.exists_eq_succ_of_ne_zero hpos.ne'
        have hsub : (n - 1).toNat = k := by
          rw [toNat_sub_one hn, hk]
          rfl
        rw [ih, hsub, hk, List.take_succ_cons, List.map_cons, List.length_cons]
        refine Prod.ext rfl ?_
        simp only
        omega
      · rename_i hn
        have hzero : n.toNat = 0 := Nat.eq_zero_of_not_pos fun hpos => hn (toNat_pos.mpr hpos)
        simp [hzero]

/-! ### Pages -/

variable {encode decode} {c : Container κ α} {toNode : α → ν} {bounds : Bounds κ} {n : UInt32}

/-- A page forwards: the first elements behind the cursor. -/
theorem forward_page (after : Option Text) :
    makeConnection encode decode c toNode bounds { first := some n, after } =
      let rest := c.rangeAfter bounds (keyFromHex decode after)
      let edges := (rest.take n.toNat).map (c.edge encode toNode)
      let info : PageInfo :=
        { hasPreviousPage := c.pageBegin decode bounds after ≠ c.rangeBegin bounds
          hasNextPage := n.toNat < rest.length }
      ⟨edges, info.withCursors edges⟩ := by
  have hlength : (c.rangeAfter bounds (keyFromHex decode after)).length =
      c.rangeEnd bounds - c.pageBegin decode bounds after := by
    rw [← Container.between_after, List.length_drop,
      List.length_take_of_le Container.rangeEnd_le]
  have hle : c.pageBegin decode bounds after ≤ c.rangeEnd bounds :=
    (Container.pageBegin_le after).2
  have hmore : (c.pageBegin decode bounds after +
      min n.toNat (c.rangeAfter bounds (keyFromHex decode after)).length ≠ c.rangeEnd bounds) ↔
        n.toNat < (c.rangeAfter bounds (keyFromHex decode after)).length := by
    omega
  rw [makeConnection]
  simp only [Container.pageEnd_none, Container.between_after, addForwards_eq,
    decide_eq_decide.mpr hmore]

/-- A page backwards: the last elements in front of the cursor. -/
theorem backward_page (before : Option Text) :
    makeConnection encode decode c toNode bounds { last := some n, before } =
      let rest := (c.rangeBefore bounds (keyFromHex decode before)).reverse
      let edges := ((rest.take n.toNat).map (c.edge encode toNode)).reverse
      let info : PageInfo :=
        { hasNextPage := c.pageEnd decode bounds before none ≠ c.rangeEnd bounds
          hasPreviousPage := n.toNat < rest.length }
      ⟨edges, info.withCursors edges⟩ := by
  have hle : c.pageEnd decode bounds before none ≤ c.elements.length :=
    (Container.pageEnd_le before none).2.trans Container.rangeEnd_le
  have hlength : (c.rangeBefore bounds (keyFromHex decode before)).length =
      c.pageEnd decode bounds before none - c.rangeBegin bounds := by
    rw [← Container.between_before, List.length_drop, List.length_take_of_le hle]
  have hbegin : c.rangeBegin bounds ≤ c.pageEnd decode bounds before none :=
    (Container.pageEnd_le before none).1
  have hmore : (c.pageEnd decode bounds before none -
      min n.toNat (c.rangeBefore bounds (keyFromHex decode before)).length ≠
        c.rangeBegin bounds) ↔
      n.toNat < (c.rangeBefore bounds (keyFromHex decode before)).length := by
    omega
  rw [makeConnection]
  simp only [Container.pageBegin_none, Container.between_before, addBackwards_eq,
    List.length_reverse, decide_eq_decide.mpr hmore]

/-- The cursor of an edge is decoded to the key of its element. -/
def Decodes (encode : κ → Text) (decode : Text → Option κ) (c : Container κ α) : Prop :=
  ∀ a ∈ c.elements, keyFromHex decode (some (encode (c.toKey a))) = some (c.toKey a)

theorem getLast?_take_map {β γ : Type} (f : β → γ) {l : List β} {k : Nat} (hk : 0 < k)
    (hlt : k < l.length) : ((l.take k).map f).getLast? = some (f l[k - 1]) := by
  have hlast : k - 1 < l.length := (Nat.sub_le k 1).trans_lt hlt
  rw [List.getLast?_map, List.getLast?_take, if_neg hk.ne', List.getElem?_eq_getElem hlast]
  rfl

theorem endCursor_of_getLast? {info : PageInfo} {edges : List (Edge ν)} {e : Edge ν}
    (h : edges.getLast? = some e) : (info.withCursors edges).endCursor = e.cursor := by
  rw [PageInfo.withCursors, h]
  rfl

theorem startCursor_of_head? {info : PageInfo} {edges : List (Edge ν)} {e : Edge ν}
    (h : edges.head? = some e) : (info.withCursors edges).startCursor = e.cursor := by
  rw [PageInfo.withCursors, h]
  rfl

theorem mem_of_mem_rangeAfter {cursor : Option κ} {a : α} (h : a ∈ c.rangeAfter bounds cursor) :
    a ∈ c.elements := List.mem_of_mem_filter (List.mem_of_mem_filter h)

theorem mem_of_mem_rangeBefore {cursor : Option κ} {a : α} (h : a ∈ c.rangeBefore bounds cursor) :
    a ∈ c.elements := List.mem_of_mem_filter (List.mem_of_mem_filter h)

variable (encode decode c toNode bounds n)

/-- Requests for the first edges after the last cursor, until there is no next page. -/
def forwardPages : (requests : Nat) → (after : Option Text) → Option (List (Connection ν)) :=
  requestAll (fun after => makeConnection encode decode c toNode bounds { first := some n, after })
    (·.pageInfo.hasNextPage) (fun page => some page.pageInfo.endCursor)

/-- Requests for the last edges before the first cursor, until there is no previous page. -/
def backwardPages : (requests : Nat) → (before : Option Text) → Option (List (Connection ν)) :=
  requestAll (fun before => makeConnection encode decode c toNode bounds { last := some n, before })
    (·.pageInfo.hasPreviousPage) (fun page => some page.pageInfo.startCursor)

variable {encode decode n}

theorem forward_paged (hn : 0 < n) (hdecode : Decodes encode decode c) :
    Paged
      (fun after => makeConnection encode decode c toNode bounds { first := some n, after })
      (·.edges) (·.pageInfo.hasNextPage) (fun page => some page.pageInfo.endCursor)
      (fun after => (c.rangeAfter bounds (keyFromHex decode after)).map (c.edge encode toNode))
      n.toNat where
  items_eq after := by
    rw [forward_page]
    exact List.map_take
  more_iff after := by
    rw [forward_page, List.length_map]
    exact decide_eq_true_iff
  rest_next after hmore := by
    rw [forward_page] at hmore ⊢
    have hlt : n.toNat < (c.rangeAfter bounds (keyFromHex decode after)).length :=
      of_decide_eq_true hmore
    have hpos := toNat_pos.mp hn
    simp only [endCursor_of_getLast? (getLast?_take_map (c.edge encode toNode) hpos hlt)]
    rw [Container.edge, hdecode _ (mem_of_mem_rangeAfter (List.getElem_mem _)),
      Container.rangeAfter_getElem, Nat.sub_add_cancel hpos, List.map_drop]

theorem backward_paged (hn : 0 < n) (hdecode : Decodes encode decode c) :
    Paged
      (fun before => makeConnection encode decode c toNode bounds { last := some n, before })
      (·.edges.reverse) (·.pageInfo.hasPreviousPage)
      (fun page => some page.pageInfo.startCursor)
      (fun before =>
        (c.rangeBefore bounds (keyFromHex decode before)).reverse.map (c.edge encode toNode))
      n.toNat where
  items_eq before := by
    rw [backward_page]
    exact (List.reverse_reverse _).trans List.map_take
  more_iff before := by
    rw [backward_page, List.length_map]
    exact decide_eq_true_iff
  rest_next before hmore := by
    rw [backward_page] at hmore ⊢
    have hlt : n.toNat < (c.rangeBefore bounds (keyFromHex decode before)).reverse.length :=
      of_decide_eq_true hmore
    have hpos := toNat_pos.mp hn
    have hlast := getLast?_take_map (c.edge encode toNode) hpos hlt
    rw [← List.head?_reverse] at hlast
    simp only [startCursor_of_head? hlast]
    rw [List.getElem_reverse, Container.edge,
      hdecode _ (mem_of_mem_rangeBefore (List.getElem_mem _)), Container.rangeBefore_getElem,
      ← List.map_drop, List.drop_reverse]
    congr 3
    rw [List.length_reverse] at hlt
    omega

/-! ### Blocks -/

open Eden.BlockLog
open Eden.LinkedBlocks

/-- `block_log::upper_bound_by_num` -/
def upperBoundByNum (log : Log) (num : Nat) : Nat :=
  if num = 2 ^ 32 - 1 then log.blocks.length else log.lowerBoundByNum (num + 1)

theorem lowerBoundByNum_eq_front {log : Log} (h : log.blocks.IsChain Follows) (num : Nat) :
    log.lowerBoundByNum num = front (fun b => b.num < num) log.blocks := by
  obtain ⟨l, r, hcut⟩ := LowerBound.exists_cut (pairwise_num h) num
  rw [lowerBoundByNum_eq h hcut, hcut.append, eq_comm]
  refine front_append (fun b hb => ?_) (fun b hb => ?_)
  · exact decide_eq_true (hcut.left b hb)
  · exact fun hlt => hcut.right b hb (of_decide_eq_true hlt)

theorem upperBoundByNum_eq_front {log : Log} (h : log.blocks.IsChain Follows)
    (hnum : ∀ b ∈ log.blocks, b.num < 2 ^ 32) (num : Nat) :
    upperBoundByNum log num = front (fun b => b.num ≤ num) log.blocks := by
  unfold upperBoundByNum
  split
  · rename_i hlast
    have hall : ∀ b ∈ log.blocks, decide (b.num ≤ num) = true := by
      intro b hb
      have hlt := hnum b hb
      exact decide_eq_true (by omega)
    rw [front, List.takeWhile_eq_self_iff.mpr hall]
  · rw [lowerBoundByNum_eq_front h]
    congr 1
    funext b
    exact decide_eq_decide.mpr Nat.lt_succ_iff

/-- The blocks of a log by their numbers. -/
def blockContainer (log : Log) (h : log.blocks.IsChain Follows)
    (hnum : ∀ b ∈ log.blocks, b.num < 2 ^ 32) : Container Nat BlockWithId where
  elements := log.blocks
  toKey := (·.num)
  lowerBound := log.lowerBoundByNum
  upperBound := upperBoundByNum log
  increasing := pairwise_num h
  lower_correct := lowerBoundByNum_eq_front h
  upper_correct := upperBoundByNum_eq_front h hnum

def hexDigit (n : Nat) : Char :=
  if n ≤ 9 then Char.ofNat ('0'.toNat + n) else Char.ofNat ('A'.toNat + (n - 10))

def digitOfHex (c : Char) : Option Nat :=
  if '0' ≤ c ∧ c ≤ '9' then some (c.toNat - '0'.toNat)
  else if 'A' ≤ c ∧ c ≤ 'F' then some (c.toNat - 'A'.toNat + 10)
  else if 'a' ≤ c ∧ c ≤ 'f' then some (c.toNat - 'a'.toNat + 10)
  else none

/-- `eosio::hex` -/
def hex : List Nat → Text
  | [] => []
  | byte :: rest => hexDigit (byte / 16) :: hexDigit (byte % 16) :: hex rest

/-- `eosio::unhex` -/
def unhex : Text → Option (List Nat)
  | [] => some []
  | [_] => none
  | high :: low :: rest => do
      let high ← digitOfHex high
      let low ← digitOfHex low
      return (high * 16 + low) :: (← unhex rest)

/-- The cursor of a `uint32_t`. -/
def numCursor (num : Nat) : Text :=
  hex [num % 256, num / 256 % 256, num / 256 ^ 2 % 256, num / 256 ^ 3 % 256]

def numOfCursor (cursor : Text) : Option Nat :=
  match unhex cursor with
  | some (a :: b :: c :: d :: _) => some (a + 256 * b + 256 ^ 2 * c + 256 ^ 3 * d)
  | _ => none

theorem digitOfHex_hexDigit {n : Nat} (h : n < 16) : digitOfHex (hexDigit n) = some n := by
  have hall : ∀ n < 16, digitOfHex (hexDigit n) = some n := by decide
  exact hall n h

theorem unhex_hex {bytes : List Nat} (h : ∀ byte ∈ bytes, byte < 256) :
    unhex (hex bytes) = some bytes := by
  induction bytes with
  | nil => rfl
  | cons byte rest ih =>
      rw [List.forall_mem_cons] at h
      have hbyte := h.1
      rw [hex, unhex, digitOfHex_hexDigit (by omega), digitOfHex_hexDigit (by omega), ih h.2]
      simp only [Option.bind_eq_bind, Option.bind_some, Option.pure_def, Option.some.injEq,
        List.cons.injEq, and_true]
      omega

theorem numOfCursor_numCursor {num : Nat} (h : num < 2 ^ 32) :
    numOfCursor (numCursor num) = some num := by
  have hbytes : unhex (numCursor num) =
      some [num % 256, num / 256 % 256, num / 256 ^ 2 % 256, num / 256 ^ 3 % 256] := by
    refine unhex_hex ?_
    simp only [List.mem_cons, List.not_mem_nil, or_false]
    rintro byte (rfl | rfl | rfl | rfl) <;> exact Nat.mod_lt _ (by decide)
  rw [numOfCursor, hbytes]
  simp only [Option.some.injEq]
  omega

/-- The cursors of blocks are decoded to the numbers of the blocks. -/
theorem blockContainer_decodes {log : Log} (h : log.blocks.IsChain Follows)
    (hnum : ∀ b ∈ log.blocks, b.num < 2 ^ 32) :
    Decodes numCursor numOfCursor (blockContainer log h hnum) := by
  intro b hb
  exact numOfCursor_numCursor (hnum b hb)

/-! ### Whole ranges -/

/-- The pages of a range have every element once and in order, forwards and backwards, and every
page knows if there are more. -/
theorem pages_complete (hn : 0 < n) (hdecode : Decodes encode decode c) :
    (∃ pages,
      (∃ requests, forwardPages encode decode c toNode bounds n requests none = some pages) ∧
        pages.flatMap (·.edges) = (c.range bounds).map (c.edge encode toNode) ∧
        ∀ i page, pages[i]? = some page →
          (page.pageInfo.hasNextPage = true ↔
            ((pages.take (i + 1)).flatMap (·.edges)).length < (c.range bounds).length)) ∧
    ∃ pages,
      (∃ requests, backwardPages encode decode c toNode bounds n requests none = some pages) ∧
        pages.reverse.flatMap (·.edges) = (c.range bounds).map (c.edge encode toNode) ∧
        ∀ i page, pages[i]? = some page →
          (page.pageInfo.hasPreviousPage = true ↔
            ((pages.take (i + 1)).flatMap (·.edges)).length < (c.range bounds).length) := by
  have hpos := toNat_pos.mp hn
  constructor
  · obtain ⟨pages, hpages, hall, hmore⟩ :=
      (forward_paged c toNode bounds hn hdecode).complete hpos none
    have hrest : c.rangeAfter bounds (keyFromHex decode none) = c.range bounds :=
      Container.rangeAfter_none
    simp only [hrest, List.length_map] at hall hmore
    exact ⟨pages, hpages, hall, hmore⟩
  · obtain ⟨pages, hpages, hall, hmore⟩ :=
      (backward_paged c toNode bounds hn hdecode).complete hpos none
    have hrest : c.rangeBefore bounds (keyFromHex decode none) = c.range bounds :=
      Container.rangeBefore_none
    have hlength : ∀ l : List (Connection ν),
        (l.flatMap fun page => page.edges.reverse).length = (l.flatMap (·.edges)).length := by
      intro l
      simp only [List.length_flatMap, List.length_reverse]
    simp only [hrest, hlength, List.length_map, List.length_reverse] at hall hmore
    refine ⟨pages, hpages, ?_, hmore⟩
    have hreverse := congrArg List.reverse hall
    rw [List.reverse_flatMap, List.map_reverse, List.reverse_reverse] at hreverse
    rw [← hreverse]
    congr 1
    funext page
    exact (List.reverse_reverse _).symm

/-- Blocks 1, 2 and 3. -/
def threeBlocks : Log where
  blocks :=
    [⟨⟨1, noChecksum, { num := 10, id := [], previous := [], timestamp := 0, transactions := [] }⟩,
        [1]⟩,
      ⟨⟨2, [1], { num := 11, id := [], previous := [], timestamp := 1, transactions := [] }⟩, [2]⟩,
      ⟨⟨3, [2], { num := 12, id := [], previous := [], timestamp := 2, transactions := [] }⟩, [3]⟩]

theorem threeBlocks_follow : threeBlocks.blocks.IsChain Follows :=
  .cons_cons ⟨rfl, rfl, by decide⟩ (.cons_cons ⟨rfl, rfl, by decide⟩ (.singleton _))

theorem threeBlocks_num : ∀ b ∈ threeBlocks.blocks, b.num < 2 ^ 32 := by decide

/-- The last two blocks, one a page. -/
theorem threeBlocks_pages :
    ∃ pages, (∃ requests, forwardPages numCursor numOfCursor
      (blockContainer threeBlocks threeBlocks_follow threeBlocks_num) (·.num) { gt := some 1 } 1
        requests none = some pages) ∧
      pages.flatMap (·.edges) = [⟨2, hex [2, 0, 0, 0]⟩, ⟨3, hex [3, 0, 0, 0]⟩] := by
  have hn : (0 : UInt32) < 1 := by decide
  have hdecode := blockContainer_decodes threeBlocks_follow threeBlocks_num
  obtain ⟨pages, hpages, hall, -⟩ :=
    (pages_complete (blockContainer threeBlocks threeBlocks_follow threeBlocks_num)
      (fun b => b.num) { gt := some 1 } hn hdecode).1
  exact ⟨pages, hpages, hall⟩

end Eden.ConnectionPages
