import Eden.BlockLog
import Mathlib.Data.List.Chain
import Mathlib.Data.List.Sort

/-!
The blocks of the log are numbered and linked one after the other.
-/

namespace Eden.LinkedBlocks

open Eden.LowerBound
open Eden.ChainPrimitives
open Eden.BlockLog
open Eden.BlockLog.Log

/-- A block that comes right after another one. -/
structure Follows (a b : BlockWithId) : Prop where
  num : b.num = a.num + 1
  previous : b.previous = a.id
  eosioNum : a.eosioBlock.num < b.eosioBlock.num

structure Linked (log : Log) : Prop where
  follows : log.blocks.IsChain Follows
  /-- The irreversible block is not removed. -/
  held : log.irreversible = 0 ∨ ∃ b ∈ log.blocks, b.num = log.irreversible
  /-- Only irreversible blocks are trimmed. -/
  front : ∀ b ∈ log.blocks.head?, 1 ≤ b.num ∧ (b.num = 1 ∨ b.num ≤ log.irreversible)

variable {log : Log} {blocks l r : List BlockWithId}

theorem pairwise_num (h : blocks.IsChain Follows) : blocks.Pairwise (·.num < ·.num) := by
  have hchain : blocks.IsChain (·.num < ·.num) :=
    h.imp fun a b hab => by
      have hnum := hab.num
      omega
  have : Trans (fun a b : BlockWithId => a.num < b.num) (fun a b : BlockWithId => a.num < b.num)
    (fun a b : BlockWithId => a.num < b.num) := ⟨fun hab hbc => hab.trans hbc⟩
  exact List.isChain_iff_pairwise.mp hchain

theorem pairwise_eosioNum (h : blocks.IsChain Follows) :
    blocks.Pairwise (·.eosioBlock.num < ·.eosioBlock.num) := by
  have hchain : blocks.IsChain (·.eosioBlock.num < ·.eosioBlock.num) :=
    h.imp fun _ _ hab => hab.eosioNum
  have : Trans (fun a b : BlockWithId => a.eosioBlock.num < b.eosioBlock.num)
    (fun a b : BlockWithId => a.eosioBlock.num < b.eosioBlock.num)
    (fun a b : BlockWithId => a.eosioBlock.num < b.eosioBlock.num) :=
    ⟨fun hab hbc => hab.trans hbc⟩
  exact List.isChain_iff_pairwise.mp hchain

/-- The numbers count on from the front of the log. -/
theorem num_eq {front b : BlockWithId} (h : (front :: blocks).IsChain Follows) {i : Nat}
    (hi : (front :: blocks)[i]? = some b) : b.num = front.num + i := by
  induction blocks generalizing front i with
  | nil =>
      cases i with
      | zero =>
          rw [List.getElem?_cons_zero, Option.some.injEq] at hi
          rw [hi, Nat.add_zero]
      | succ i => simp at hi
  | cons second blocks ih =>
      cases i with
      | zero =>
          rw [List.getElem?_cons_zero, Option.some.injEq] at hi
          rw [hi, Nat.add_zero]
      | succ i =>
          rw [List.isChain_cons_cons] at h
          rw [List.getElem?_cons_succ] at hi
          have hb := ih h.2 hi
          have hsecond := h.1.num
          omega

/-- The numbers of a chain that starts with block 1. -/
theorem num_eq_of_first (h : blocks.IsChain Follows) (hfirst : ∀ b ∈ blocks.head?, b.num = 1)
    {i : Nat} {b : BlockWithId} (hi : blocks[i]? = some b) : b.num = i + 1 := by
  cases blocks with
  | nil => simp at hi
  | cons front blocks =>
      have hone := hfirst front rfl
      have hnum := num_eq h hi
      omega

theorem num_getLast (h : blocks.IsChain Follows) (hfirst : ∀ b ∈ blocks.head?, b.num = 1)
    {b : BlockWithId} (hb : b ∈ blocks.getLast?) : b.num = blocks.length := by
  have hmem := List.mem_of_getLast? hb
  have hpos := List.length_pos_of_mem hmem
  rw [List.getLast?_eq_getElem?] at hb
  have hnum := num_eq_of_first h hfirst hb
  omega

theorem front_num_le (h : blocks.IsChain Follows) {front b : BlockWithId}
    (hfront : front ∈ blocks.head?) (hb : b ∈ blocks) : front.num ≤ b.num := by
  have hnum := pairwise_num h
  cases blocks with
  | nil => simp at hb
  | cons a blocks =>
      rw [List.head?_cons, Option.mem_some_iff] at hfront
      rw [List.pairwise_cons] at hnum
      rcases List.mem_cons.mp hb with rfl | hb
      · rw [hfront]
      · rw [← hfront]
        exact (hnum.1 b hb).le

theorem num_le_last (hnum : blocks.Pairwise (·.num < ·.num)) {last b : BlockWithId}
    (hlast : last ∈ blocks.getLast?) (hb : b ∈ blocks) : b.num ≤ last.num := by
  obtain ⟨blocks, rfl⟩ := List.getLast?_eq_some_iff.mp hlast
  rw [List.pairwise_append] at hnum
  rcases List.mem_append.mp hb with hb | hb
  · exact (hnum.2.2 b hb last List.mem_cons_self).le
  · rw [List.mem_singleton.mp hb]

/-- Blocks in the order of their numbers are given by their members. -/
theorem eq_of_mem_iff {blocks' : List BlockWithId} (h : blocks.Pairwise (·.num < ·.num))
    (h' : blocks'.Pairwise (·.num < ·.num)) (hmem : ∀ b, b ∈ blocks ↔ b ∈ blocks') :
    blocks = blocks' := by
  have : Std.Irrefl fun a b : BlockWithId => a.num < b.num := ⟨fun a => lt_irrefl a.num⟩
  have : Std.Antisymm fun a b : BlockWithId => a.num < b.num :=
    ⟨fun _ _ hab hba => absurd hab hba.asymm⟩
  exact h.eq_of_mem_iff h' hmem

theorem eq_of_num (h : blocks.IsChain Follows) {a b : BlockWithId} (ha : a ∈ blocks)
    (hb : b ∈ blocks) (hnum : a.num = b.num) : a = b := by
  obtain ⟨i, hi, rfl⟩ := List.getElem_of_mem ha
  obtain ⟨j, hj, rfl⟩ := List.getElem_of_mem hb
  have hlt := List.pairwise_iff_getElem.mp (pairwise_num h)
  rcases Nat.lt_trichotomy i j with hij | rfl | hji
  · exact absurd hnum (hlt i j hi hj hij).ne
  · rfl
  · exact absurd hnum.symm (hlt j i hj hi hji).ne

theorem exists_previous (h : blocks.IsChain Follows) {a b : BlockWithId} (ha : a ∈ blocks)
    (hb : b ∈ blocks) (hnum : a.num < b.num) : ∃ p ∈ blocks, Follows p b := by
  obtain ⟨i, hi, rfl⟩ := List.getElem_of_mem ha
  obtain ⟨j, hj, rfl⟩ := List.getElem_of_mem hb
  have hlt := List.pairwise_iff_getElem.mp (pairwise_num h)
  cases j with
  | zero =>
      rcases Nat.eq_zero_or_pos i with rfl | hpos
      · omega
      · have hlt := hlt 0 i hj hi hpos
        omega
  | succ j => exact ⟨blocks[j], List.getElem_mem _, List.isChain_iff_getElem.mp h j hj⟩

/-- No number is left out. -/
theorem exists_num (h : blocks.IsChain Follows) {a b : BlockWithId} (ha : a ∈ blocks)
    (hb : b ∈ blocks) {num : Nat} (hle : a.num ≤ num) (hge : num ≤ b.num) :
    ∃ c ∈ blocks, c.num = num := by
  induction hn : b.num - num generalizing b with
  | zero => exact ⟨b, hb, by omega⟩
  | succ n ih =>
      obtain ⟨p, hp, hfollows⟩ := exists_previous h ha hb (by omega)
      have hnum := hfollows.num
      exact ih hp (by omega) (by omega)

/-- Index arithmetic finds the position at which the numbers reach a bound. -/
theorem lowerBoundByNum_eq (h : log.blocks.IsChain Follows) {num : Nat}
    (hcut : Cut (·.num < num) log.blocks l r) : log.lowerBoundByNum num = l.length := by
  have hlength : log.blocks.length = l.length + r.length := by
    rw [hcut.append, List.length_append]
  unfold lowerBoundByNum
  cases hblocks : log.blocks with
  | nil =>
      rw [hblocks, List.length_nil] at hlength
      simp only [List.length_nil]
      omega
  | cons front blocks =>
      rw [hblocks] at h hlength
      have hafter : ∀ b ∈ r.head?, num ≤ front.num + l.length := by
        intro b hb
        have hget : (front :: blocks)[l.length]? = some b := by
          rw [← hblocks, hcut.append, List.getElem?_append_right le_rfl, Nat.sub_self]
          rwa [← List.head?_eq_getElem?]
        rw [← num_eq h hget]
        exact Nat.le_of_not_lt (hcut.right b (List.mem_of_mem_head? hb))
      have hbefore : l ≠ [] → front.num + l.length ≤ num := by
        intro hne
        have hlast := List.getLast_mem hne
        have hget : (front :: blocks)[l.length - 1]? = some (l.getLast hne) := by
          have hpos := List.length_pos_of_ne_nil hne
          rw [← hblocks, hcut.append, List.getElem?_append_left (by omega),
            ← List.getLast?_eq_getElem?, List.getLast?_eq_some_getLast hne]
        have hnum := num_eq h hget
        have hlt : (l.getLast hne).num < num := hcut.left _ hlast
        have hpos := List.length_pos_of_ne_nil hne
        omega
      cases l with
      | nil =>
          cases r with
          | nil => simp at hlength
          | cons b r =>
              have hnum := hafter b rfl
              rw [List.length_nil, Nat.add_zero] at hnum
              simp only [hnum, if_true, List.length_nil]
      | cons a l =>
          have hnum := hbefore (List.cons_ne_nil a l)
          rw [List.length_cons] at hnum hafter hlength
          have hgt : ¬ num ≤ front.num := by omega
          simp only [hgt, if_false, hlength, List.length_cons]
          cases r with
          | nil =>
              rw [List.length_nil, if_neg (by omega), Nat.add_zero]
          | cons b r =>
              have hle := hafter b rfl
              rw [List.length_cons, if_pos (by omega)]
              omega

theorem lowerBoundByEosioNum_eq {num : Nat}
    (hcut : Cut (·.eosioBlock.num < num) log.blocks l r) :
    log.lowerBoundByEosioNum num = l.length :=
  lowerBound_eq ⟨hcut.append, fun a ha => decide_eq_true (hcut.left a ha),
    fun a ha => by simpa using hcut.right a ha⟩

/-! ### Lookups -/

theorem blockAt_eq (hblocks : log.blocks = l ++ r) (wanted : BlockWithId → Bool) :
    log.blockAt l.length wanted = r.head?.filter wanted := by
  rw [blockAt, hblocks, List.getElem?_append_right le_rfl, Nat.sub_self, List.head?_eq_getElem?]

theorem blockBefore_eq (hblocks : log.blocks = l ++ r) :
    log.blockBefore l.length = l.getLast? := by
  unfold blockBefore
  split
  · rename_i hne
    rw [hblocks, List.getElem?_append_left (by omega), List.getLast?_eq_getElem?]
  · rename_i hempty
    rw [List.length_eq_zero_iff.mp (not_not.mp hempty), List.getLast?_nil]

theorem blockByNum_eq (h : log.blocks.IsChain Follows) (num : Nat) :
    log.blockByNum num = log.blocks.find? (·.num = num) := by
  obtain ⟨l, r, hcut⟩ := exists_cut (pairwise_num h) num
  have hfind := find?_eq_head? (pairwise_num h) hcut
  rw [blockByNum, lowerBoundByNum_eq h hcut, blockAt_eq hcut.append]
  exact hfind.symm

theorem blockByNum_of_mem (h : log.blocks.IsChain Follows) {b : BlockWithId}
    (hb : b ∈ log.blocks) : log.blockByNum b.num = some b := by
  rw [blockByNum_eq h]
  cases hfind : log.blocks.find? (·.num = b.num) with
  | none =>
      rw [List.find?_eq_none] at hfind
      exact absurd (decide_eq_true rfl) (hfind b hb)
  | some a =>
      have hnum := List.find?_some hfind
      rw [decide_eq_true_eq] at hnum
      rw [eq_of_num h (List.mem_of_find?_eq_some hfind) hb hnum]

theorem blockByEosioNum_eq (h : log.blocks.IsChain Follows) (num : Nat) :
    log.blockByEosioNum num = log.blocks.find? (·.eosioBlock.num = num) := by
  obtain ⟨l, r, hcut⟩ := exists_cut (pairwise_eosioNum h) num
  have hfind := find?_eq_head? (f := fun b : BlockWithId => b.eosioBlock.num) (pairwise_eosioNum h) hcut
  rw [blockByEosioNum, lowerBoundByEosioNum_eq hcut, blockAt_eq hcut.append]
  exact hfind.symm

theorem blockBeforeNum_eq (h : log.blocks.IsChain Follows) (num : Nat) :
    log.blockBeforeNum num = (log.blocks.filter (·.num < num)).getLast? := by
  obtain ⟨l, r, hcut⟩ := exists_cut (pairwise_num h) num
  have hlast := getLast?_filter hcut
  rw [blockBeforeNum, lowerBoundByNum_eq h hcut, blockBefore_eq hcut.append]
  exact hlast.symm

theorem blockBeforeEosioNum_eq (h : log.blocks.IsChain Follows) (num : Nat) :
    log.blockBeforeEosioNum num = (log.blocks.filter (·.eosioBlock.num < num)).getLast? := by
  obtain ⟨l, r, hcut⟩ := exists_cut (pairwise_eosioNum h) num
  have hlast := getLast?_filter (f := fun b : BlockWithId => b.eosioBlock.num) hcut
  rw [blockBeforeEosioNum, lowerBoundByEosioNum_eq hcut, blockBefore_eq hcut.append]
  exact hlast.symm

/-! ### Changes of the log -/

/-- The number of a successor, unless it wraps to a number that is not above. -/
theorem next_eq {num bound : Nat} (h : next num = bound) (hlt : num < bound) :
    bound = num + 1 := by
  have hle := Nat.mod_le (num + 1) (2 ^ 32)
  unfold next at h
  omega

/-- A block that links to the last of the blocks it is put behind. -/
def LinksTo (l : List BlockWithId) (block : BlockWithId) : Prop :=
  (l = [] → block.num = 1) ∧
    ∀ prev ∈ l.getLast?, block.num = next prev.num ∧ block.previous = prev.id

/-- `block_log::add_block` in terms of the blocks below and from the number of the new one. -/
theorem addBlock_eq (h : log.blocks.IsChain Follows) {block : BlockWithId}
    (hcut : Cut (·.num < block.num) log.blocks l r) :
    log.addBlock block =
      if r.head?.any (·.id = block.id) then (.duplicate, 0, log)
      else if l = [] ∧ block.num ≠ 1 then (.unlinkable, 0, log)
      else if l ≠ [] ∧ ¬ l.getLast?.any
          (fun prev => block.previous = prev.id ∧ block.num = next prev.num) then
        (.unlinkable, 0, log)
      else if r.head?.any (·.num ≤ log.irreversible) then (.unlinkable, 0, log)
      else (.appended, r.length, { log with blocks := l ++ [block] }) := by
  have hit := lowerBoundByNum_eq h hcut
  have hat : log.blocks[l.length]? = r.head? := by
    rw [hcut.append, List.getElem?_append_right le_rfl, Nat.sub_self, List.head?_eq_getElem?]
  have htake : log.blocks.take l.length = l := by rw [hcut.append, List.take_left]
  have hforked : log.blocks.length - l.length = r.length := by
    rw [hcut.append, List.length_append, Nat.add_sub_cancel_left]
  unfold addBlock
  simp only [hit, hat, htake, hforked, List.length_eq_zero_iff, ne_eq]
  by_cases hempty : l = []
  · simp only [hempty, not_true_eq_false, false_and, if_false]
  · have hpos := List.length_pos_of_ne_nil hempty
    have hbefore : log.blocks[l.length - 1]? = l.getLast? := by
      rw [hcut.append, List.getElem?_append_left (by omega), List.getLast?_eq_getElem?]
    rw [hbefore]

/-- A block is added where it links, unless that would replace an irreversible block. -/
theorem addBlock_appended (h : log.blocks.IsChain Follows) {block : BlockWithId}
    (hcut : Cut (·.num < block.num) log.blocks l r) (hnew : ∀ b ∈ r.head?, b.id ≠ block.id)
    (hlinks : LinksTo l block) (hreversible : ∀ b ∈ r.head?, log.irreversible < b.num) :
    log.addBlock block = (.appended, r.length, { log with blocks := l ++ [block] }) := by
  rw [addBlock_eq h hcut, if_neg, if_neg, if_neg, if_neg]
  · intro hle
    obtain ⟨b, hb, hle⟩ := Option.any_eq_true _ _ |>.mp hle
    have hlt := hreversible b hb
    have hnum := of_decide_eq_true hle
    omega
  · rintro ⟨hne, hnot⟩
    apply hnot
    have hlast := List.getLast?_eq_some_getLast hne
    obtain ⟨hnum, hprevious⟩ := hlinks.2 _ hlast
    rw [hlast, Option.any_some]
    exact decide_eq_true ⟨hprevious, hnum⟩
  · rintro ⟨hempty, hne⟩
    exact hne (hlinks.1 hempty)
  · intro hid
    obtain ⟨b, hb, hid⟩ := Option.any_eq_true _ _ |>.mp hid
    exact hnew b hb (of_decide_eq_true hid)

theorem addBlock_cases (h : log.blocks.IsChain Follows) {block : BlockWithId}
    (hcut : Cut (·.num < block.num) log.blocks l r) :
    (∃ status, status ≠ .appended ∧ log.addBlock block = (status, 0, log)) ∨
      (LinksTo l block ∧ (∀ b ∈ r.head?, log.irreversible < b.num) ∧
        log.addBlock block = (.appended, r.length, { log with blocks := l ++ [block] })) := by
  rw [addBlock_eq h hcut]
  split
  · exact .inl ⟨.duplicate, by decide, rfl⟩
  split
  · exact .inl ⟨.unlinkable, by decide, rfl⟩
  split
  · exact .inl ⟨.unlinkable, by decide, rfl⟩
  split
  · exact .inl ⟨.unlinkable, by decide, rfl⟩
  rename_i hfront hlast hreversible
  refine .inr ⟨⟨?_, ?_⟩, ?_, rfl⟩
  · intro hempty
    by_contra hne
    exact hfront ⟨hempty, hne⟩
  · intro prev hprev
    have hne : l ≠ [] := by
      rintro rfl
      simp at hprev
    by_contra hnot
    apply hlast
    refine ⟨hne, ?_⟩
    rw [hprev, Option.any_some, decide_eq_true_eq]
    exact fun hlink => hnot ⟨hlink.2, hlink.1⟩
  · intro b hb
    by_contra hle
    apply hreversible
    rw [hb, Option.any_some]
    exact decide_eq_true (Nat.le_of_not_lt hle)

/-! ### What keeps a log linked -/

theorem Linked.empty : Linked {} :=
  ⟨List.isChain_nil, .inl rfl, by simp⟩

theorem Linked.num_pos (h : Linked log) {b : BlockWithId} (hb : b ∈ log.blocks) : 1 ≤ b.num := by
  obtain ⟨i, hi⟩ := List.getElem?_of_mem hb
  have hfollows := h.follows
  have hfront := h.front
  cases hblocks : log.blocks with
  | nil =>
      rw [hblocks] at hb
      simp at hb
  | cons front blocks =>
      rw [hblocks] at hi hfollows hfront
      have hnum := num_eq hfollows hi
      have hpos := (hfront front rfl).1
      omega

theorem eosioNum_le (h : log.blocks.IsChain Follows) {a b : BlockWithId} (ha : a ∈ log.blocks)
    (hb : b ∈ log.blocks) (hab : a.num ≤ b.num) : a.eosioBlock.num ≤ b.eosioBlock.num := by
  obtain ⟨i, hi, rfl⟩ := List.getElem_of_mem ha
  obtain ⟨j, hj, rfl⟩ := List.getElem_of_mem hb
  have hnum := List.pairwise_iff_getElem.mp (pairwise_num h)
  have heosio := List.pairwise_iff_getElem.mp (pairwise_eosioNum h)
  rcases Nat.lt_trichotomy i j with hij | rfl | hji
  · exact (heosio i j hi hj hij).le
  · exact le_rfl
  · have hlt := hnum j i hj hi hji
    omega

/-- The end of the log may be removed as long as no irreversible block is part of it. -/
theorem Linked.keep (h : Linked log) (hblocks : log.blocks = l ++ r)
    (hreversible : ∀ b ∈ r, log.irreversible < b.num) : Linked { log with blocks := l } := by
  have hfollows := h.follows
  rw [hblocks] at hfollows
  refine ⟨hfollows.left_of_append, ?_, ?_⟩
  · rcases h.held with hzero | ⟨b, hb, hnum⟩
    · exact .inl hzero
    · rw [hblocks, List.mem_append] at hb
      rcases hb with hb | hb
      · exact .inr ⟨b, hb, hnum⟩
      · have hlt := hreversible b hb
        omega
  · intro b hb
    apply h.front
    rw [hblocks]
    cases l with
    | nil => simp at hb
    | cons a l => exact hb

/-- A block that links to the last one may be put behind it. -/
theorem Linked.push (h : Linked log) {block : BlockWithId} (hlinks : LinksTo log.blocks block)
    (hbefore : ∀ b ∈ log.blocks, b.num < block.num)
    (heosio : ∀ prev ∈ log.blocks.getLast?, prev.eosioBlock.num < block.eosioBlock.num) :
    Linked { log with blocks := log.blocks ++ [block] } := by
  refine ⟨?_, ?_, ?_⟩
  · rw [List.isChain_append]
    refine ⟨h.follows, List.isChain_singleton _, ?_⟩
    intro prev hprev b hb
    rw [List.head?_cons, Option.mem_some_iff] at hb
    obtain ⟨hnum, hprevious⟩ := hlinks.2 prev hprev
    have hlt := hbefore prev (List.mem_of_getLast? hprev)
    rw [← hb]
    exact ⟨next_eq hnum.symm hlt, hprevious, heosio prev hprev⟩
  · rcases h.held with hzero | ⟨b, hb, hnum⟩
    · exact .inl hzero
    · exact .inr ⟨b, List.mem_append_left _ hb, hnum⟩
  · intro b hb
    cases hblocks : log.blocks with
    | nil =>
        rw [hblocks, List.nil_append, List.head?_cons, Option.mem_some_iff] at hb
        have hone := hlinks.1 hblocks
        rw [← hb, hone]
        exact ⟨le_rfl, .inl rfl⟩
    | cons a blocks =>
        apply h.front
        rw [hblocks] at hb ⊢
        exact hb

/-- The irreversible number may rise to a block of the log. -/
theorem Linked.advance (h : Linked log) {found : Option BlockWithId}
    (hfound : ∀ b ∈ found, b ∈ log.blocks) : Linked (log.advance found) := by
  unfold Log.advance
  cases found with
  | none => exact h
  | some block =>
      refine ⟨h.follows, ?_, ?_⟩
      · rcases Nat.le_total log.irreversible block.num with hle | hle
        · exact .inr ⟨block, hfound block rfl, (Nat.max_eq_right hle).symm⟩
        · have hmax := Nat.max_eq_left hle
          rcases h.held with hzero | ⟨b, hb, hnum⟩
          · exact .inl (hmax.trans hzero)
          · exact .inr ⟨b, hb, hnum.trans hmax.symm⟩
      · intro b hb
        obtain ⟨hpos, hone | hle⟩ := h.front b hb
        · exact ⟨hpos, .inl hone⟩
        · exact ⟨hpos, .inr (hle.trans (Nat.le_max_left _ _))⟩

theorem mem_of_mem_blockBefore {position : Nat} {b : BlockWithId}
    (hb : b ∈ log.blockBefore position) : b ∈ log.blocks := by
  unfold blockBefore at hb
  split at hb
  · exact List.mem_of_getElem? hb
  · simp at hb

/-- Blocks below the irreversible one may be removed. -/
theorem trim_eq (h : log.blocks.IsChain Follows)
    (hcut : Cut (·.num < log.irreversible) log.blocks l r) :
    log.trim = { log with blocks := r } := by
  rw [trim, lowerBoundByNum_eq h hcut, hcut.append, List.drop_left]

theorem Linked.trim (h : Linked log) : Linked log.trim := by
  obtain ⟨l, r, hcut⟩ := exists_cut (pairwise_num h.follows) log.irreversible
  rw [trim_eq h.follows hcut]
  have hfollows := h.follows
  have hblocks := hcut.append
  rw [hblocks] at hfollows
  have hr := hfollows.right_of_append
  have hpos : ∀ b ∈ r.head?, 1 ≤ b.num := fun b hb =>
    h.num_pos (hblocks ▸ List.mem_append_right l (List.mem_of_mem_head? hb))
  rcases h.held with hzero | ⟨held, hheld, hnum⟩
  · refine ⟨hr, .inl hzero, ?_⟩
    -- Nothing is below 0, so that the front stays.
    have hempty : l = [] := by
      rw [List.eq_nil_iff_forall_not_mem]
      intro a ha
      have hlt := hcut.left a ha
      simp [hzero] at hlt
    intro b hb
    apply h.front
    rw [hblocks, hempty]
    exact hb
  · have hheld : held ∈ r := by
      rw [hblocks, List.mem_append] at hheld
      rcases hheld with hheld | hheld
      · exact absurd hnum (hcut.left held hheld).ne
      · exact hheld
    refine ⟨hr, .inr ⟨held, hheld, hnum⟩, ?_⟩
    intro b hb
    have hle := front_num_le hr hb hheld
    exact ⟨hpos b hb, .inr (hle.trans hnum.le)⟩

/-! ### What each call does -/

theorem undo_of_cut (h : log.blocks.IsChain Follows) {blockNum : Nat}
    (hcut : Cut (·.num < blockNum) log.blocks l r) (hlt : log.irreversible < blockNum) :
    log.undo blockNum =
      if r.head?.any (·.num = blockNum) then (r.length, { log with blocks := l })
      else (0, log) := by
  have hat : log.blocks[l.length]? = r.head? := by
    rw [hcut.append, List.getElem?_append_right le_rfl, Nat.sub_self, List.head?_eq_getElem?]
  have htake : log.blocks.take l.length = l := by rw [hcut.append, List.take_left]
  have hremoved : log.blocks.length - l.length = r.length := by
    rw [hcut.append, List.length_append, Nat.add_sub_cancel_left]
  rw [Log.undo, if_neg (Nat.not_le_of_lt hlt)]
  simp only [lowerBoundByNum_eq h hcut, hat, htake, hremoved]

/-- `undo` removes the end of the log, and no irreversible block. -/
theorem undo_eq (h : log.blocks.IsChain Follows) (blockNum : Nat) :
    ∃ l r, log.blocks = l ++ r ∧ (∀ b ∈ r, log.irreversible < b.num) ∧
      log.undo blockNum = (r.length, { log with blocks := l }) := by
  rcases Nat.lt_or_ge log.irreversible blockNum with hlt | hle
  · obtain ⟨l, r, hcut⟩ := exists_cut (pairwise_num h) blockNum
    rw [undo_of_cut h hcut hlt]
    split
    · refine ⟨l, r, hcut.append, ?_, rfl⟩
      intro b hb
      exact hlt.trans_le (Nat.le_of_not_lt (hcut.right b hb))
    · exact ⟨log.blocks, [], by simp⟩
  · rw [Log.undo, if_pos hle]
    exact ⟨log.blocks, [], by simp⟩

theorem undoEosio_eq (h : log.blocks.IsChain Follows) (eosioNum : Nat) :
    ∃ l r, log.blocks = l ++ r ∧ (∀ b ∈ r, log.irreversible < b.num) ∧
      log.undoEosio eosioNum = (r.length, { log with blocks := l }) := by
  unfold Log.undoEosio
  split
  · exact undo_eq h _
  · exact ⟨log.blocks, [], by simp⟩

/-- What `add_block` does: nothing, or it puts the block in the place of reversible ones. -/
theorem push_eq (h : Linked log) {block : BlockWithId} (eosioIrreversible : Nat)
    (heosio : ∀ l r, Cut (·.num < block.num) log.blocks l r → LinksTo l block →
      ∀ prev ∈ l.getLast?, prev.eosioBlock.num < block.eosioBlock.num) :
    (∃ status, status ≠ .appended ∧ log.push block eosioIrreversible = (status, 0, log)) ∨
      ∃ l r log', log.blocks = l ++ r ∧ (∀ b ∈ r, log.irreversible < b.num) ∧
        LinksTo l block ∧ (∀ b ∈ l, b.num < block.num) ∧
        log' = { log with blocks := l ++ [block] } ∧ Linked log' ∧
        log.push block eosioIrreversible = (.appended, r.length,
          log'.advance (log'.blockBeforeEosioNum (next eosioIrreversible))) := by
  obtain ⟨l, r, hcut⟩ := exists_cut (pairwise_num h.follows) block.num
  unfold Log.push
  rcases addBlock_cases h.follows hcut with ⟨status, hstatus, hadd⟩ | ⟨hlinks, hreversible, hadd⟩
  · rw [hadd]
    cases status with
    | appended => exact absurd rfl hstatus
    | duplicate => exact .inl ⟨.duplicate, by decide, rfl⟩
    | unlinkable => exact .inl ⟨.unlinkable, by decide, rfl⟩
  · rw [hadd]
    have hblocks := hcut.append
    have hfollows := h.follows
    rw [hblocks] at hfollows
    have hr : ∀ b ∈ r, log.irreversible < b.num := by
      intro b hb
      have hne := List.ne_nil_of_mem hb
      have hhead := List.head?_eq_some_head hne
      have hlt := hreversible _ hhead
      exact hlt.trans_le (front_num_le hfollows.right_of_append hhead hb)
    have hlinked := (h.keep hblocks hr).push hlinks (fun b hb => hcut.left b hb)
      (heosio l r hcut hlinks)
    exact .inr ⟨l, r, _, hblocks, hr, hlinks, hcut.left, rfl, hlinked, rfl⟩

variable {sha256 : Block → Checksum}

theorem edenBlock_eosioBlock (log : Log) (eosioBlock : EosioBlock) :
    (edenBlock sha256 log eosioBlock).eosioBlock = eosioBlock := by
  unfold edenBlock
  split
  · rfl
  · rfl

/-- An eosio block comes after the block it is put behind. -/
theorem edenBlock_after (h : Linked log) {eosioBlock : EosioBlock}
    (hblocks : log.blocks = l ++ r)
    (hlinks : LinksTo l (edenBlock sha256 log eosioBlock))
    (hbefore : ∀ b ∈ l, b.num < (edenBlock sha256 log eosioBlock).num) :
    ∀ prev ∈ l.getLast?, prev.eosioBlock.num < eosioBlock.num := by
  intro prev hprev
  have hmem : prev ∈ l := List.mem_of_getLast? hprev
  have hlog : prev ∈ log.blocks := hblocks ▸ List.mem_append_left r hmem
  have hnum := next_eq (hlinks.2 prev hprev).1.symm (hbefore prev hmem)
  unfold edenBlock at hnum
  cases hfound : log.blockBeforeEosioNum eosioBlock.num with
  | none =>
      rw [hfound] at hnum
      have hpos := h.num_pos hlog
      simp only at hnum
      omega
  | some edenPrev =>
      rw [hfound] at hnum
      rw [blockBeforeEosioNum_eq h.follows] at hfound
      have hfilter := List.mem_of_getLast? hfound
      rw [List.mem_filter, decide_eq_true_eq] at hfilter
      have hle : next edenPrev.num ≤ edenPrev.num + 1 := Nat.mod_le _ _
      simp only at hnum
      have heosio := eosioNum_le h.follows hlog hfilter.1 (by omega)
      exact heosio.trans_lt hfilter.2

/-! ### Sequences of calls -/

/-- What a call other than `trimBlocks` leaves of the log: the end that a fork or an undo removes
has no irreversible block. -/
structure Replaces (log log' : Log) : Prop where
  kept : ∃ l r, log.blocks = l ++ r ∧ (∀ b ∈ r, log.irreversible < b.num) ∧ l <+: log'.blocks
  irreversible : log.irreversible ≤ log'.irreversible

theorem Replaces.refl (log : Log) : Replaces log log :=
  ⟨⟨log.blocks, [], by simp⟩, le_rfl⟩

theorem Replaces.mem {log' : Log} (h : Replaces log log') {b : BlockWithId} (hb : b ∈ log.blocks)
    (hnum : b.num ≤ log.irreversible) : b ∈ log'.blocks := by
  obtain ⟨l, r, hblocks, hreversible, hgrown⟩ := h.kept
  rw [hblocks, List.mem_append] at hb
  rcases hb with hb | hb
  · exact hgrown.subset hb
  · have hlt := hreversible b hb
    omega

theorem le_advance (log : Log) (found : Option BlockWithId) :
    log.irreversible ≤ (log.advance found).irreversible := by
  cases found with
  | none => exact le_rfl
  | some block => exact Nat.le_max_left _ _

theorem advance_blocks (log : Log) (found : Option BlockWithId) :
    (log.advance found).blocks = log.blocks := by
  cases found with
  | none => rfl
  | some block => rfl

theorem push_edenBlock_eq (sha256 : Block → Checksum) (h : Linked log) (eosioBlock : EosioBlock)
    (eosioIrreversible : Nat) :
    (∃ status, status ≠ .appended ∧
      log.push (edenBlock sha256 log eosioBlock) eosioIrreversible = (status, 0, log)) ∨
      ∃ l r log', log.blocks = l ++ r ∧ (∀ b ∈ r, log.irreversible < b.num) ∧
        LinksTo l (edenBlock sha256 log eosioBlock) ∧
        (∀ b ∈ l, b.num < (edenBlock sha256 log eosioBlock).num) ∧
        log' = { log with blocks := l ++ [edenBlock sha256 log eosioBlock] } ∧ Linked log' ∧
        log.push (edenBlock sha256 log eosioBlock) eosioIrreversible = (.appended, r.length,
          log'.advance (log'.blockBeforeEosioNum (next eosioIrreversible))) := by
  apply push_eq h
  intro l r hcut hlinks
  rw [edenBlock_eosioBlock]
  exact edenBlock_after h hcut.append hlinks hcut.left

theorem push_edenBlock (sha256 : Block → Checksum) (h : Linked log) (eosioBlock : EosioBlock)
    (eosioIrreversible : Nat) :
    Linked (log.push (edenBlock sha256 log eosioBlock) eosioIrreversible).2.2 ∧
      Replaces log (log.push (edenBlock sha256 log eosioBlock) eosioIrreversible).2.2 := by
  rcases push_edenBlock_eq sha256 h eosioBlock eosioIrreversible with
    ⟨status, _, hpush⟩ | ⟨l, r, log', hblocks, hreversible, _, _, hlog', hlinked, hpush⟩
  · rw [hpush]
    exact ⟨h, .refl log⟩
  · rw [hpush]
    refine ⟨hlinked.advance fun b => mem_of_mem_blockBefore, ?_, ?_⟩
    · refine ⟨l, r, hblocks, hreversible, ?_⟩
      rw [advance_blocks, hlog']
      exact List.prefix_append l _
    · have hle := le_advance log' (log'.blockBeforeEosioNum (next eosioIrreversible))
      rw [hlog'] at hle ⊢
      exact hle

theorem Replaces.of_keep {count : Nat} {log' : Log} (hblocks : log.blocks = l ++ r)
    (hreversible : ∀ b ∈ r, log.irreversible < b.num)
    (hlog' : (count, log') = (r.length, { log with blocks := l })) : Replaces log log' := by
  obtain ⟨rfl, rfl⟩ := Prod.mk.inj hlog'
  exact ⟨⟨l, r, hblocks, hreversible, List.prefix_rfl⟩, le_rfl⟩

theorem step_linked (h : Linked log) (operation : Operation) :
    Linked (log.step sha256 operation) ∧
      (operation ≠ .trimBlocks → Replaces log (log.step sha256 operation)) := by
  cases operation with
  | addBlock eosioBlock eosioIrreversible =>
      obtain ⟨hlinked, hreplaces⟩ := push_edenBlock sha256 h eosioBlock
        eosioIrreversible
      exact ⟨hlinked, fun _ => hreplaces⟩
  | undoBlockNum blockNum =>
      obtain ⟨l, r, hblocks, hreversible, hundo⟩ := undo_eq h.follows blockNum
      have hstep : log.step sha256 (.undoBlockNum blockNum) = { log with blocks := l } :=
        congrArg Prod.snd hundo
      rw [hstep]
      exact ⟨h.keep hblocks hreversible, fun _ => .of_keep hblocks hreversible rfl⟩
  | undoEosioNum eosioNum =>
      obtain ⟨l, r, hblocks, hreversible, hundo⟩ := undoEosio_eq h.follows eosioNum
      have hstep : log.step sha256 (.undoEosioNum eosioNum) = { log with blocks := l } :=
        congrArg Prod.snd hundo
      rw [hstep]
      exact ⟨h.keep hblocks hreversible, fun _ => .of_keep hblocks hreversible rfl⟩
  | setIrreversible irreversible =>
      refine ⟨h.advance fun b => mem_of_mem_blockBefore, fun _ => ⟨?_, le_advance _ _⟩⟩
      refine ⟨log.blocks, [], by simp, by simp, ?_⟩
      rw [Log.step, Log.setIrreversible, advance_blocks]
  | trimBlocks => exact ⟨h.trim, fun hne => absurd rfl hne⟩

theorem run_linked (h : Linked log) (operations : List Operation) :
    Linked (log.run sha256 operations) := by
  unfold Log.run
  induction operations generalizing log with
  | nil => exact h
  | cons operation operations ih => exact ih (step_linked h operation).1

theorem irreversible_le_step (h : Linked log) (operation : Operation) :
    log.irreversible ≤ (log.step sha256 operation).irreversible := by
  by_cases htrim : operation = .trimBlocks
  · rw [htrim]
    exact le_rfl
  · exact ((step_linked h operation).2 htrim).irreversible

/-- A block is in the log, unless it has been trimmed. -/
def Retained (b : BlockWithId) (log : Log) : Prop :=
  b ∈ log.blocks ∨ ∀ b' ∈ log.blocks, b.num < b'.num

theorem Retained.replaced {log' : Log} {b : BlockWithId} (hb : Retained b log) (h : Linked log)
    (hpos : 1 ≤ b.num) (hnum : b.num ≤ log.irreversible) (h' : Linked log')
    (hreplaces : Replaces log log') : Retained b log' := by
  rcases hb with hb | hb
  · exact .inl (hreplaces.mem hb hnum)
  · right
    rcases h.held with hzero | ⟨held, hheld, heq⟩
    · omega
    · -- The irreversible block stays, and with it the front of the log.
      obtain ⟨l, r, hblocks, hreversible, ⟨added, hadded⟩⟩ := hreplaces.kept
      have hl : held ∈ l := by
        rw [hblocks, List.mem_append] at hheld
        rcases hheld with hheld | hheld
        · exact hheld
        · have hlt := hreversible held hheld
          omega
      obtain ⟨front, l, rfl⟩ := List.exists_cons_of_ne_nil (List.ne_nil_of_mem hl)
      have hfront : front ∈ log'.blocks.head? := by
        rw [← hadded]
        rfl
      intro b' hb'
      have hlt := hb front (hblocks ▸ List.mem_append_left r List.mem_cons_self)
      exact hlt.trans_le (front_num_le h'.follows hfront hb')

theorem Retained.trimmed {b : BlockWithId} (hb : Retained b log) (h : Linked log) :
    Retained b log.trim := by
  obtain ⟨l, r, hcut⟩ := exists_cut (pairwise_num h.follows) log.irreversible
  rw [trim_eq h.follows hcut]
  rcases hb with hb | hb
  · rw [hcut.append, List.mem_append] at hb
    rcases hb with hb | hb
    · right
      intro b' hb'
      have hlt : b.num < log.irreversible := hcut.left b hb
      have hle := hcut.right b' hb'
      omega
    · exact .inl hb
  · right
    intro b' hb'
    exact hb b' (hcut.append ▸ List.mem_append_right l hb')

theorem Retained.run {b : BlockWithId} (hb : Retained b log) (h : Linked log) (hpos : 1 ≤ b.num)
    (hnum : b.num ≤ log.irreversible) (operations : List Operation) :
    log.irreversible ≤ (log.run sha256 operations).irreversible ∧
      Retained b (log.run sha256 operations) := by
  unfold Log.run
  induction operations generalizing log with
  | nil => exact ⟨le_rfl, hb⟩
  | cons operation operations ih =>
      have hlinked : Linked (log.step sha256 operation) := (step_linked h operation).1
      have hle : log.irreversible ≤ (log.step sha256 operation).irreversible :=
        irreversible_le_step h operation
      have hretained : Retained b (log.step sha256 operation) := by
        by_cases htrim : operation = .trimBlocks
        · rw [htrim]
          exact hb.trimmed h
        · exact hb.replaced h hpos hnum hlinked ((step_linked h operation).2 htrim)
      obtain ⟨hrest, hretained⟩ := ih hretained hlinked (hnum.trans hle)
      exact ⟨hle.trans hrest, hretained⟩

theorem mem_trim (h : log.blocks.IsChain Follows) {b : BlockWithId} (hb : b ∈ log.blocks)
    (hnum : log.irreversible ≤ b.num) : b ∈ log.trim.blocks := by
  obtain ⟨l, r, hcut⟩ := exists_cut (pairwise_num h) log.irreversible
  rw [trim_eq h hcut]
  rw [hcut.append, List.mem_append] at hb
  rcases hb with hb | hb
  · have hlt : b.num < log.irreversible := hcut.left b hb
    omega
  · exact hb

/-- The log after any calls: its blocks are linked one after the other, irreversible blocks stay
until they are trimmed, and each lookup finds what a linear search finds. -/
theorem log_structure (operations : List Operation) :
    let log := Log.run sha256 {} operations
    log.blocks.IsChain Follows ∧
      (∀ operation, log.irreversible ≤ (log.step sha256 operation).irreversible) ∧
      (∀ operation, operation ≠ .trimBlocks → ∀ b ∈ log.blocks, b.num ≤ log.irreversible →
        b ∈ (log.step sha256 operation).blocks) ∧
      (∀ later, ∀ b ∈ log.blocks, b.num ≤ log.irreversible →
        Retained b (log.run sha256 later)) ∧
      (∀ b ∈ log.blocks, b.num = log.irreversible → b ∈ log.trim.blocks) ∧
      ∀ num, log.blockByNum num = log.blocks.find? (·.num = num) ∧
        log.blockByEosioNum num = log.blocks.find? (·.eosioBlock.num = num) ∧
        log.blockBeforeNum num = (log.blocks.filter (·.num < num)).getLast? ∧
        log.blockBeforeEosioNum num =
          (log.blocks.filter (·.eosioBlock.num < num)).getLast? := by
  intro log
  have hlinked : Linked log := run_linked .empty operations
  have hfollows := hlinked.follows
  refine ⟨hfollows, ?_, ?_, ?_, ?_, ?_⟩
  · exact irreversible_le_step hlinked
  · intro operation htrim b hb hnum
    exact ((step_linked hlinked operation).2 htrim).mem hb hnum
  · intro later b hb hnum
    have hretained : Retained b log := .inl hb
    exact (hretained.run hlinked (hlinked.num_pos hb) hnum later).2
  · intro b hb hnum
    exact mem_trim hfollows hb hnum.ge
  · intro num
    exact ⟨blockByNum_eq hfollows num, blockByEosioNum_eq hfollows num,
      blockBeforeNum_eq hfollows num, blockBeforeEosioNum_eq hfollows num⟩

end Eden.LinkedBlocks
