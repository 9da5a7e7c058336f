import Eden.LinkedBlocks
import Eden.Synchronisation

/-!
A client that has processed all messages has the blocks which the server believes it to have.
-/

namespace Eden.SynchronisedLogs

open Eden.LowerBound
open Eden.ChainPrimitives
open Eden.BlockLog
open Eden.BlockLog.Log
open Eden.LinkedBlocks
open Eden.Synchronisation

/-- Different blocks have different ids. -/
def Distinguished (held : List BlockWithId) : Prop :=
  ∀ a ∈ held, ∀ b ∈ held, a.id = b.id → a = b

variable {held : List BlockWithId} {storage client : Log} {blocks : List BlockWithId}

/-- Logs that share a block share the blocks before it. -/
theorem mem_of_shared (hheld : Distinguished held) {xs ys : List BlockWithId}
    (hxs : xs.IsChain Follows) (hys : ys.IsChain Follows) (hxsheld : xs ⊆ held)
    (hysheld : ys ⊆ held) {a b : BlockWithId} (ha : a ∈ xs) (hbx : b ∈ xs) (hby : b ∈ ys)
    (hab : a.num ≤ b.num) {front : BlockWithId} (hfront : front ∈ ys)
    (hle : front.num ≤ a.num) : a ∈ ys := by
  induction hn : b.num - a.num generalizing b with
  | zero => exact eq_of_num hxs ha hbx (by omega) ▸ hby
  | succ n ih =>
      obtain ⟨p, hp, hpb⟩ := exists_previous hxs ha hbx (by omega)
      obtain ⟨q, hq, hqb⟩ := exists_previous hys hfront hby (by omega)
      have hid := hpb.previous.symm.trans hqb.previous
      have hpq := hheld p (hxsheld hp) q (hysheld hq) hid
      have hnum := hpb.num
      exact ih hp (hpq ▸ hq) (by omega) (by omega)

/-! ### Server -/

/-- The log of a server, which is not trimmed. -/
structure Untrimmed (log : Log) : Prop where
  linked : Linked log
  first : ∀ b ∈ log.blocks.head?, b.num = 1
  bounded : ∀ b ∈ log.blocks, b.num < 2 ^ 32
  /-- A client considers eosio block 0 as irreversible. -/
  zero : ∀ b ∈ log.blocks, b.eosioBlock.num = 0 → b.num ≤ log.irreversible

theorem storageHead_eq (h : log.blocks.IsChain Follows) (hfirst : ∀ b ∈ log.blocks.head?, b.num = 1) :
    storageHead log = log.blocks.length := by
  rw [storageHead, Log.head]
  cases hlast : log.blocks.getLast? with
  | none =>
      rw [List.getLast?_eq_none_iff.mp hlast]
      rfl
  | some b => exact num_getLast h hfirst hlast

theorem exists_block (h : log.blocks.IsChain Follows) (hfirst : ∀ b ∈ log.blocks.head?, b.num = 1)
    {num : Nat} (hpos : 1 ≤ num) (hle : num ≤ storageHead log) :
    ∃ b ∈ log.blocks, b.num = num := by
  rw [storageHead_eq h hfirst] at hle
  have hlt : num - 1 < log.blocks.length := by omega
  have hget := List.getElem?_eq_getElem hlt
  have hnum := num_eq_of_first h hfirst hget
  exact ⟨_, List.getElem_mem hlt, by omega⟩

theorem num_le_storageHead (h : log.blocks.IsChain Follows)
    (hfirst : ∀ b ∈ log.blocks.head?, b.num = 1) {b : BlockWithId} (hb : b ∈ log.blocks) :
    b.num ≤ storageHead log := by
  rw [storageHead_eq h hfirst]
  obtain ⟨i, hi⟩ := List.getElem?_of_mem hb
  have hnum := num_eq_of_first h hfirst hi
  have hlt := (List.getElem?_eq_some_iff.mp hi).1
  omega

/-- The block of a log that has the number of another block differs from it. -/
def Stale (log : Log) (b : BlockWithId) : Prop :=
  ∀ b' ∈ log.blocks, b'.num = b.num → b'.id ≠ b.id

theorem popBlocks_above {needHeadUpdate : Bool} {b : BlockInfo} {rest : List BlockInfo}
    (h : b.num > storageHead log) :
    popBlocks log needHeadUpdate (b :: rest) = popBlocks log true rest := by
  rw [popBlocks, if_pos h]

theorem popBlocks_cons {needHeadUpdate : Bool} {b : BlockInfo} {rest : List BlockInfo}
    (h : ¬ b.num > storageHead log) {id : Checksum} (hid : idForNum log b.num = some id) :
    popBlocks log needHeadUpdate (b :: rest) =
      if b.id ≠ id then popBlocks log true rest else some (b :: rest, needHeadUpdate) := by
  rw [popBlocks, if_neg h, hid]
  rfl

/-- The popped blocks are not in the server's log, and the last one of the others is. -/
theorem popBlocks_eq (h : log.blocks.IsChain Follows)
    (hfirst : ∀ b ∈ log.blocks.head?, b.num = 1) (hpos : ∀ b ∈ blocks, 1 ≤ b.num)
    (needHeadUpdate : Bool) : ∃ l r, blocks = l ++ r ∧ (∀ b ∈ r, Stale log b) ∧
      (∀ b ∈ l.getLast?, ∃ b' ∈ log.blocks, b'.num = b.num ∧ b'.id = b.id) ∧
      popBlocks log needHeadUpdate (blocks.map blockInfo).reverse =
        some ((l.map blockInfo).reverse, needHeadUpdate || !r.isEmpty) := by
  induction blocks using List.reverseRecOn generalizing needHeadUpdate with
  | nil => exact ⟨[], [], by simp [popBlocks]⟩
  | append_singleton blocks b ih =>
      have hrest : ∀ a ∈ blocks, 1 ≤ a.num := fun a ha => hpos a (List.mem_append_left _ ha)
      have hb := hpos b (by simp)
      have hreverse : ((blocks ++ [b]).map blockInfo).reverse =
          blockInfo b :: (blocks.map blockInfo).reverse := by simp
      rw [hreverse]
      have hpop : Stale log b → popBlocks log needHeadUpdate
            (blockInfo b :: (blocks.map blockInfo).reverse) =
          popBlocks log true (blocks.map blockInfo).reverse → ∃ l r, blocks ++ [b] = l ++ r ∧
            (∀ b ∈ r, Stale log b) ∧
            (∀ b ∈ l.getLast?, ∃ b' ∈ log.blocks, b'.num = b.num ∧ b'.id = b.id) ∧
            popBlocks log needHeadUpdate (blockInfo b :: (blocks.map blockInfo).reverse) =
              some ((l.map blockInfo).reverse, needHeadUpdate || !r.isEmpty) := by
        intro hstale heq
        obtain ⟨l, r, happend, hr, hl, hpopped⟩ := ih hrest true
        refine ⟨l, r ++ [b], by rw [happend, List.append_assoc], ?_, hl, ?_⟩
        · intro a ha
          rcases List.mem_append.mp ha with ha | ha
          · exact hr a ha
          · exact List.mem_singleton.mp ha ▸ hstale
        · rw [heq, hpopped]
          simp
      by_cases hhead : b.num > storageHead log
      · refine hpop ?_ (popBlocks_above hhead)
        intro b' hb' hnum
        have hle := num_le_storageHead h hfirst hb'
        omega
      · obtain ⟨b', hb', hnum⟩ := exists_block h hfirst hb (Nat.le_of_not_lt hhead)
        have hid : idForNum log (blockInfo b).num = some b'.id := by
          have hnum' : (blockInfo b).num = b'.num := hnum.symm
          rw [idForNum, hnum', blockByNum_of_mem h hb']
          rfl
        by_cases heq : (blockInfo b).id = b'.id
        · refine ⟨blocks ++ [b], [], by simp, by simp, ?_, ?_⟩
          · intro a ha
            rw [List.getLast?_concat, Option.mem_some_iff] at ha
            exact ⟨b', hb', ha ▸ hnum, ha ▸ heq.symm⟩
          · rw [popBlocks_cons hhead hid, if_neg (not_not.mpr heq)]
            simp
        · refine hpop ?_ ?_
          · intro a ha hanum
            have hab := eq_of_num h ha hb' (hanum.trans hnum.symm)
            rw [hab]
            exact fun hid => heq hid.symm
          · rw [popBlocks_cons hhead hid, if_pos heq]

/-! ### Client -/

/-- The client has marked as irreversible at most a block that the server has as irreversible. -/
structure Safe (held : List BlockWithId) (storage client : Log) : Prop where
  linked : Linked client
  held : client.blocks ⊆ held
  bounded : ∀ b ∈ client.blocks, b.num < 2 ^ 32
  marked : client.irreversible = 0 ∨ ∃ b ∈ client.blocks,
    b.num = client.irreversible ∧ b ∈ storage.blocks ∧ b.num ≤ storage.irreversible

/-- From the irreversible block up to a number, the client has the blocks of the server. -/
structure Tracking (storage client : Log) (head : Nat) : Prop where
  irreversible : client.irreversible ≤ head
  agrees : ∀ b, client.irreversible ≤ b.num → b.num ≤ head →
    (b ∈ client.blocks ↔ b ∈ storage.blocks)

def EndsAt (client : Log) (head : Nat) : Prop :=
  ∀ b ∈ client.blocks, b.num ≤ head

theorem advance_irreversible (log : Log) (found : Option BlockWithId) :
    (log.advance found).irreversible = log.irreversible ∨ ∃ b ∈ found,
      (log.advance found).irreversible = b.num ∧ log.irreversible ≤ b.num := by
  cases found with
  | none => exact .inl rfl
  | some b =>
      rcases Nat.le_total log.irreversible b.num with hle | hle
      · exact .inr ⟨b, rfl, Nat.max_eq_right hle, hle⟩
      · exact .inl (Nat.max_eq_left hle)

theorem Tracking.advance {head : Nat} (htracking : Tracking storage client head)
    (hsafe : Safe held storage client) {found : Option BlockWithId}
    (hfound : ∀ b ∈ found, b ∈ client.blocks ∧ b.num ≤ head ∧
      (b ∈ storage.blocks → b.num ≤ storage.irreversible)) :
    Safe held storage (client.advance found) ∧
      Tracking storage (client.advance found) head := by
  have hblocks := advance_blocks client found
  have hle := le_advance client found
  refine ⟨⟨hsafe.linked.advance fun b hb => (hfound b hb).1, ?_, ?_, ?_⟩, ?_, ?_⟩
  · rw [hblocks]
    exact hsafe.held
  · rw [hblocks]
    exact hsafe.bounded
  · rw [hblocks]
    rcases advance_irreversible client found with heq | ⟨b, hb, heq, hge⟩
    · rw [heq]
      exact hsafe.marked
    · obtain ⟨hmem, hhead, hirreversible⟩ := hfound b hb
      have hstored := (htracking.agrees b hge hhead).mp hmem
      exact .inr ⟨b, hmem, heq.symm, hstored, hirreversible hstored⟩
  · rcases advance_irreversible client found with heq | ⟨b, hb, heq, _⟩
    · exact heq.trans_le htracking.irreversible
    · exact heq.trans_le (hfound b hb).2.1
  · intro b hge hhead
    rw [hblocks]
    exact htracking.agrees b (hle.trans hge) hhead

theorem mem_trim_iff (h : client.blocks.IsChain Follows) (b : BlockWithId) :
    b ∈ client.trim.blocks ↔ b ∈ client.blocks ∧ client.irreversible ≤ b.num := by
  constructor
  · intro hb
    obtain ⟨l, r, hcut⟩ := exists_cut (pairwise_num h) client.irreversible
    rw [trim_eq h hcut] at hb
    exact ⟨hcut.append ▸ List.mem_append_right l hb, Nat.le_of_not_lt (hcut.right b hb)⟩
  · rintro ⟨hb, hge⟩
    exact mem_trim h hb hge

theorem Tracking.trim {head : Nat} (htracking : Tracking storage client head)
    (hsafe : Safe held storage client) :
    Safe held storage client.trim ∧ Tracking storage client.trim head := by
  have hmem := mem_trim_iff hsafe.linked.follows
  refine ⟨⟨hsafe.linked.trim, ?_, ?_, ?_⟩, htracking.irreversible, ?_⟩
  · intro b hb
    exact hsafe.held ((hmem b).mp hb).1
  · intro b hb
    exact hsafe.bounded b ((hmem b).mp hb).1
  · rcases hsafe.marked with hzero | ⟨b, hb, hnum, hstored⟩
    · exact .inl hzero
    · exact .inr ⟨b, (hmem b).mpr ⟨hb, hnum.ge⟩, hnum, hstored⟩
  · intro b hge hhead
    have hkept : b ∈ client.trim.blocks ↔ b ∈ client.blocks := by
      rw [hmem]
      exact and_iff_left hge
    exact hkept.trans (htracking.agrees b hge hhead)

/-- The client ends where the server believes it to end, or with a block that the server does not
have. -/
def EndsStale (storage client : Log) (head : Nat) : Prop :=
  ∀ b ∈ client.blocks, b.num = head + 1 → Stale storage b

theorem EndsAt.stale {head : Nat} (h : EndsAt client head) : EndsStale storage client head := by
  intro b hb hnum
  have hle := h b hb
  omega

/-- The first block of the client is not above the next block that is sent. -/
theorem front_le (hlinked : Linked client) {head : Nat} (hirreversible : client.irreversible ≤ head)
    {front : BlockWithId} (hfront : front ∈ client.blocks.head?) : front.num ≤ head + 1 := by
  obtain ⟨_, hone | hle⟩ := hlinked.front front hfront
  · omega
  · omega

/-- There is no gap behind the blocks up to a number. -/
theorem num_of_cut (hlinked : Linked client) {head : Nat} (hirreversible : client.irreversible ≤ head)
    {l r : List BlockWithId} (hcut : Cut (·.num < head + 1) client.blocks l r) {b : BlockWithId}
    (hb : b ∈ r.head?) : b.num = head + 1 := by
  have hfollows := hlinked.follows
  have hblocks := hcut.append
  have hmem := List.mem_of_mem_head? hb
  have hge : head + 1 ≤ b.num := Nat.le_of_not_lt (hcut.right b hmem)
  have hclient : b ∈ client.blocks := hblocks ▸ List.mem_append_right l hmem
  have hne := List.ne_nil_of_mem hclient
  have hfront := List.head?_eq_some_head hne
  obtain ⟨c, hc, hcnum⟩ := exists_num hfollows (List.head_mem hne) hclient
    (front_le hlinked hirreversible hfront) hge
  rw [hblocks] at hc hfollows
  rcases List.mem_append.mp hc with hc | hc
  · have hlt : c.num < head + 1 := hcut.left c hc
    omega
  · have hle := front_num_le hfollows.right_of_append hb hc
    omega

/-- A client after a message, whose blocks end where the server believes them to end. -/
structure Settled (held : List BlockWithId) (storage before client : Log) (head : Nat) : Prop where
  safe : Safe held storage client
  tracking : Tracking storage client head
  ends : EndsAt client head
  irreversible : before.irreversible ≤ client.irreversible

/-- The client removes the blocks that the server has popped. -/
theorem Tracking.setHead {head : Nat} (htracking : Tracking storage client head)
    (hsafe : Safe held storage client) (hbound : head < 2 ^ 32) :
    Settled held storage client (process client (.setHead head)) head := by
  have hfollows := hsafe.linked.follows
  have hirreversible := htracking.irreversible
  have hprocess : process client (.setHead head) = (client.undo (next head)).2 := rfl
  rw [hprocess]
  rcases Nat.lt_or_ge (head + 1) (2 ^ 32) with hlt | hge
  · have hnext : next head = head + 1 := Nat.mod_eq_of_lt hlt
    obtain ⟨l, r, hcut⟩ := exists_cut (pairwise_num hfollows) (head + 1)
    have hblocks := hcut.append
    rw [hnext, undo_of_cut hfollows hcut (Nat.lt_succ_of_le hirreversible)]
    cases hr : r with
    | nil =>
        rw [List.head?_nil, Option.any_none, if_neg Bool.false_ne_true]
        refine ⟨hsafe, htracking, ?_, le_rfl⟩
        intro b hb
        rw [hblocks, hr, List.append_nil] at hb
        exact Nat.le_of_lt_succ (hcut.left b hb)
    | cons b r' =>
        have hnum := num_of_cut hsafe.linked hirreversible hcut (b := b) (hr ▸ rfl)
        rw [if_pos]
        · have hreversible : ∀ b ∈ r, client.irreversible < b.num := by
            intro b hb
            have hge := hcut.right b hb
            omega
          have hmem : ∀ b, b.num ≤ head → b ∈ client.blocks → b ∈ l := by
            intro b hle hb
            rw [hblocks] at hb
            rcases List.mem_append.mp hb with hb | hb
            · exact hb
            · have hge := hcut.right b hb
              omega
          refine ⟨⟨hsafe.linked.keep hblocks hreversible, ?_, ?_, ?_⟩, ⟨hirreversible, ?_⟩, ?_,
            le_rfl⟩
          · intro b hb
            exact hsafe.held (hblocks ▸ List.mem_append_left r hb)
          · intro b hb
            exact hsafe.bounded b (hblocks ▸ List.mem_append_left r hb)
          · rcases hsafe.marked with hzero | ⟨b, hb, hbnum, hstored⟩
            · exact .inl hzero
            · exact .inr ⟨b, hmem b (hbnum.trans_le hirreversible) hb, hbnum, hstored⟩
          · intro b hge hle
            rw [← htracking.agrees b hge hle]
            constructor
            · intro hb
              exact hblocks ▸ List.mem_append_left r hb
            · exact hmem b hle
          · intro b hb
            exact Nat.le_of_lt_succ (hcut.left b hb)
        · rw [List.head?_cons, Option.any_some]
          exact decide_eq_true hnum
  · -- Numbers do not go beyond `head`, so that the successor may wrap.
    have hzero : next head = 0 := by
      have hmax : head + 1 = 2 ^ 32 := by omega
      rw [next, hmax, Nat.mod_self]
    rw [hzero, Log.undo, if_pos (Nat.zero_le _)]
    refine ⟨hsafe, htracking, ?_, le_rfl⟩
    intro b hb
    have hlt := hsafe.bounded b hb
    omega

/-- The client marks a block that the server has as irreversible, and trims its log. -/
theorem Tracking.setIrreversible {head irreversible : Nat}
    (htracking : Tracking storage client head) (hsafe : Safe held storage client)
    (hends : EndsAt client head) (hle : irreversible ≤ storage.irreversible) :
    Settled held storage client (process client (.setIrreversible irreversible)) head := by
  have hfound : ∀ b ∈ client.blockBeforeNum (next irreversible), b ∈ client.blocks ∧
      b.num ≤ head ∧ (b ∈ storage.blocks → b.num ≤ storage.irreversible) := by
    intro b hb
    rw [blockBeforeNum_eq hsafe.linked.follows] at hb
    have hfilter := List.mem_of_getLast? hb
    rw [List.mem_filter, decide_eq_true_eq] at hfilter
    have hnext : next irreversible ≤ irreversible + 1 := Nat.mod_le _ _
    refine ⟨hfilter.1, hends b hfilter.1, fun _ => ?_⟩
    omega
  obtain ⟨hsafe', htracking'⟩ := htracking.advance hsafe hfound
  obtain ⟨htrimmed, htrimmed'⟩ := htracking'.trim hsafe'
  refine ⟨htrimmed, htrimmed', ?_, le_advance client _⟩
  intro b hb
  have hb := ((mem_trim_iff hsafe'.linked.follows b).mp hb).1
  rw [advance_blocks] at hb
  exact hends b hb

/-- The next block of the server is appended by the client. -/
theorem Tracking.push {head : Nat} (htracking : Tracking storage client head)
    (hsafe : Safe held storage client) (hstale : EndsStale storage client head)
    (hstorage : Untrimmed storage) (hheld : storage.blocks ⊆ held) {block : BlockWithId}
    (hblock : block ∈ storage.blocks) (hnum : block.num = head + 1) :
    (client.push block 0).1 = .appended ∧
      Settled held storage client (process client (.block block)) (head + 1) := by
  have hfollows := hsafe.linked.follows
  have hirreversible := htracking.irreversible
  obtain ⟨l, r, hcut⟩ := exists_cut (pairwise_num hfollows) block.num
  have hblocks := hcut.append
  have hlfollows : l.IsChain Follows := by
    rw [hblocks] at hfollows
    exact hfollows.left_of_append
  have hl : ∀ b ∈ l, b.num ≤ head := fun b hb => by
    have hlt : b.num < block.num := hcut.left b hb
    omega
  have hrnum : ∀ b ∈ r, head + 1 ≤ b.num := fun b hb => by
    have hge := hcut.right b hb
    omega
  -- Blocks up to `head` are those of the server.
  have hprev : 1 ≤ head → ∃ prev ∈ l, prev.num = head ∧ prev ∈ storage.blocks := by
    intro hpos
    have hle := num_le_storageHead hstorage.linked.follows hstorage.first hblock
    obtain ⟨prev, hprev, hprevnum⟩ := exists_block hstorage.linked.follows hstorage.first hpos
      (by omega)
    have hmem := (htracking.agrees prev (by omega) (by omega)).mpr hprev
    rw [hblocks, List.mem_append] at hmem
    rcases hmem with hmem | hmem
    · exact ⟨prev, hmem, hprevnum, hprev⟩
    · have hge := hrnum prev hmem
      omega
  have hlast : ∀ prev ∈ l.getLast?, prev.num = head ∧ prev ∈ storage.blocks := by
    intro prev hlast
    have hmem : prev ∈ l := List.mem_of_getLast? hlast
    have hpos := hsafe.linked.num_pos (hblocks ▸ List.mem_append_left r hmem)
    have hle := hl prev hmem
    obtain ⟨prev', hprev', hnum', hstored⟩ := hprev (by omega)
    have hge := num_le_last (pairwise_num hlfollows) hlast hprev'
    have hnum : prev.num = head := by omega
    refine ⟨hnum, (htracking.agrees prev (by omega) hle).mp ?_⟩
    exact hblocks ▸ List.mem_append_left r hmem
  have hfollowsBlock : ∀ prev ∈ l.getLast?, Follows prev block := by
    intro prev hprev
    obtain ⟨hprevnum, hstored⟩ := hlast prev hprev
    obtain ⟨p, hp, hpblock⟩ := exists_previous hstorage.linked.follows hstored hblock (by omega)
    have hpnum := hpblock.num
    rwa [eq_of_num hstorage.linked.follows hstored hp (by omega)]
  have hlinks : LinksTo l block := by
    refine ⟨?_, ?_⟩
    · intro hempty
      by_contra hne
      obtain ⟨prev, hprev, _⟩ := hprev (by omega)
      rw [hempty] at hprev
      simp at hprev
    · intro prev hprev
      have hfollowsPrev := hfollowsBlock prev hprev
      have hbound := hstorage.bounded block hblock
      rw [hfollowsPrev.num] at hbound ⊢
      exact ⟨(Nat.mod_eq_of_lt hbound).symm, hfollowsPrev.previous⟩
  have hrfront : ∀ b ∈ r.head?, b.num = head + 1 := by
    intro b hb
    rw [hnum] at hcut
    exact num_of_cut hsafe.linked hirreversible hcut hb
  have hadd := addBlock_appended hfollows hcut
    (fun b hb => by
      have hmem := List.mem_of_mem_head? hb
      have hclient : b ∈ client.blocks := hblocks ▸ List.mem_append_right l hmem
      have hnumb := hrfront b hb
      exact (hstale b hclient hnumb block hblock (by omega)).symm)
    hlinks
    (fun b hb => by
      have hnumb := hrfront b hb
      omega)
  have hr : ∀ b ∈ r, client.irreversible < b.num := fun b hb => by
    have hge := hrnum b hb
    omega
  have hlinked : Linked { client with blocks := l ++ [block] } :=
    (hsafe.linked.keep hblocks hr).push hlinks hcut.left fun prev hprev =>
      (hfollowsBlock prev hprev).eosioNum
  have hends : EndsAt { client with blocks := l ++ [block] } (head + 1) := by
    intro b hb
    rcases List.mem_append.mp hb with hb | hb
    · exact (hl b hb).trans (Nat.le_succ head)
    · rw [List.mem_singleton.mp hb, hnum]
  have hsafe' : Safe held storage { client with blocks := l ++ [block] } := by
    refine ⟨hlinked, ?_, ?_, ?_⟩
    · intro b hb
      rcases List.mem_append.mp hb with hb | hb
      · exact hsafe.held (hblocks ▸ List.mem_append_left r hb)
      · exact List.mem_singleton.mp hb ▸ hheld hblock
    · intro b hb
      rcases List.mem_append.mp hb with hb | hb
      · exact hsafe.bounded b (hblocks ▸ List.mem_append_left r hb)
      · exact List.mem_singleton.mp hb ▸ hstorage.bounded block hblock
    · rcases hsafe.marked with hzero | ⟨b, hb, hbnum, hstored⟩
      · exact .inl hzero
      · rw [hblocks, List.mem_append] at hb
        rcases hb with hb | hb
        · exact .inr ⟨b, List.mem_append_left _ hb, hbnum, hstored⟩
        · have hlt := hr b hb
          omega
  have htracking' : Tracking storage { client with blocks := l ++ [block] } (head + 1) := by
    refine ⟨hirreversible.trans (Nat.le_succ head), ?_⟩
    intro b hge hle
    rw [List.mem_append, List.mem_singleton]
    rcases Nat.lt_or_ge head b.num with hlt | hle
    · constructor
      · rintro (hb | rfl)
        · have hle := hl b hb
          omega
        · exact hblock
      · intro hb
        exact .inr (eq_of_num hstorage.linked.follows hb hblock (by omega))
    · rw [← htracking.agrees b hge hle, hblocks, List.mem_append]
      constructor
      · rintro (hb | rfl)
        · exact .inl hb
        · omega
      · rintro (hb | hb)
        · exact .inl hb
        · have hge := hrnum b hb
          omega
  have hfound : ∀ b ∈ blockBeforeEosioNum { client with blocks := l ++ [block] } (next 0),
      b ∈ l ++ [block] ∧ b.num ≤ head + 1 ∧
        (b ∈ storage.blocks → b.num ≤ storage.irreversible) := by
    intro b hb
    rw [blockBeforeEosioNum_eq hlinked.follows] at hb
    have hfilter := List.mem_of_getLast? hb
    rw [List.mem_filter, decide_eq_true_eq] at hfilter
    have hzero : b.eosioBlock.num = 0 := Nat.lt_one_iff.mp hfilter.2
    exact ⟨hfilter.1, hends b hfilter.1, fun hstored => hstorage.zero b hstored hzero⟩
  obtain ⟨hsafe', htracking'⟩ := htracking'.advance hsafe' hfound
  have hpush : client.push block 0 = (.appended, r.length,
      Log.advance { client with blocks := l ++ [block] }
        (blockBeforeEosioNum { client with blocks := l ++ [block] } (next 0))) := by
    rw [Log.push, hadd]
  have hprocess : process client (.block block) = (client.push block 0).2.2 := rfl
  rw [hprocess, hpush]
  refine ⟨rfl, hsafe', htracking', ?_, le_advance { client with blocks := l ++ [block] } _⟩
  intro b hb
  rw [advance_blocks] at hb
  exact hends b hb

/-! ### Messages on the way -/

/-- What the client does with the messages on the way, one after the other. -/
inductive Delivers (held : List BlockWithId) (storage : Log) : Log → List Message → Log → Prop
  | nil {client : Log} : Safe held storage client → Delivers held storage client [] client
  | cons {client last : Log} {message : Message} {messages : List Message} :
      Safe held storage client → message ≠ .sendStatus →
      (∀ block, message = .block block → (client.push block 0).1 = .appended) →
      Delivers held storage (process client message) messages last →
      Delivers held storage client (message :: messages) last

theorem Delivers.safe {last : Log} {messages : List Message}
    (h : Delivers held storage client messages last) :
    Safe held storage client ∧ Safe held storage last := by
  induction h with
  | nil hsafe => exact ⟨hsafe, hsafe⟩
  | cons hsafe _ _ _ ih => exact ⟨hsafe, ih.2⟩

theorem Delivers.concat {last : Log} {messages : List Message} {message : Message}
    (h : Delivers held storage client messages last) (hstatus : message ≠ .sendStatus)
    (hblock : ∀ block, message = .block block → (last.push block 0).1 = .appended)
    (hsafe : Safe held storage (process last message)) :
    Delivers held storage client (messages ++ [message]) (process last message) := by
  induction h with
  | nil hlast => exact .cons hlast hstatus hblock (.nil hsafe)
  | cons hclient hne happended _ ih => exact .cons hclient hne happended (ih hblock hsafe)

theorem Delivers.append {middle last : Log} {messages later : List Message}
    (h : Delivers held storage client messages middle)
    (hlater : Delivers held storage middle later last) :
    Delivers held storage client (messages ++ later) last := by
  induction h with
  | nil _ => exact hlater
  | cons hsafe hstatus hblock _ ih => exact .cons hsafe hstatus hblock (ih hlater)

/-! ### Updates -/

/-- The blocks of a log with the numbers from `start` to `head`. -/
def segment (log : Log) (start head : Nat) : List BlockWithId :=
  log.blocks.filter fun b => start ≤ b.num ∧ b.num ≤ head

theorem mem_segment {start head : Nat} {b : BlockWithId} :
    b ∈ segment log start head ↔ b ∈ log.blocks ∧ start ≤ b.num ∧ b.num ≤ head := by
  rw [segment, List.mem_filter, decide_eq_true_eq]

theorem pairwise_segment (h : log.blocks.IsChain Follows) (start head : Nat) :
    (segment log start head).Pairwise (·.num < ·.num) :=
  (pairwise_num h).filter _

theorem headOf_segment (h : log.blocks.IsChain Follows)
    (hfirst : ∀ b ∈ log.blocks.head?, b.num = 1) {start head : Nat} (hstart : start ≤ head ∨ head = 0)
    (hhead : head ≤ storageHead log) (hpos : ∀ b ∈ log.blocks, 1 ≤ b.num) :
    headOf ((segment log start head).map blockInfo) = head := by
  have hmap : headOf ((segment log start head).map blockInfo) =
      ((segment log start head).getLast?.map (·.num)).getD 0 := by
    rw [headOf, List.getLast?_map, Option.map_map]
    rfl
  rw [hmap]
  cases hlast : (segment log start head).getLast? with
  | none =>
      rw [List.getLast?_eq_none_iff] at hlast
      by_contra hne
      have hne : head ≠ 0 := fun hzero => hne hzero.symm
      obtain ⟨b, hb, hnum⟩ := exists_block h hfirst (Nat.one_le_iff_ne_zero.mpr hne) hhead
      have hmem : b ∈ segment log start head :=
        mem_segment.mpr ⟨hb, by omega, hnum.le⟩
      rw [hlast] at hmem
      simp at hmem
  | some last =>
      obtain ⟨hmem, hge, hle⟩ := mem_segment.mp (List.mem_of_getLast? hlast)
      have hlastpos := hpos last hmem
      obtain ⟨b, hb, hnum⟩ := exists_block h hfirst (by omega) hhead
      have hb : b ∈ segment log start head := mem_segment.mpr ⟨hb, by omega, hnum.le⟩
      have hmax := num_le_last (pairwise_segment h start head) hlast hb
      rw [Option.map_some, Option.getD_some]
      omega

theorem segment_succ (h : log.blocks.IsChain Follows) {start head : Nat} {block : BlockWithId}
    (hblock : block ∈ log.blocks) (hnum : block.num = head + 1) (hstart : start ≤ head + 1) :
    segment log start (head + 1) = segment log start head ++ [block] := by
  apply eq_of_mem_iff (pairwise_segment h start (head + 1))
  · rw [List.pairwise_append]
    refine ⟨pairwise_segment h start head, List.pairwise_singleton _ _, ?_⟩
    intro a ha b hb
    have hle := (mem_segment.mp ha).2.2
    rw [List.mem_singleton.mp hb]
    omega
  · intro b
    rw [List.mem_append, List.mem_singleton, mem_segment, mem_segment]
    constructor
    · rintro ⟨hb, hge, hle⟩
      rcases Nat.lt_or_ge head b.num with hlt | hle
      · exact .inr (eq_of_num h hb hblock (by omega))
      · exact .inl ⟨hb, hge, hle⟩
    · rintro (⟨hb, hge, hle⟩ | rfl)
      · exact ⟨hb, hge, by omega⟩
      · exact ⟨hblock, by omega, hnum.le⟩

/-- What holds while the server sends messages to a client: the client, once it has processed them,
has the blocks of the status. -/
structure Sent (held : List BlockWithId) (storage client : Log) (start : Nat) (s : Sending)
    (last : Log) (head : Nat) : Prop where
  delivers : Delivers held storage client s.sent last
  tracking : Tracking storage last head
  ends : s.needHeadUpdate = false → EndsAt last head
  stale : EndsStale storage last head
  blocks : s.blocks = (segment storage start head).map blockInfo
  start : start ≤ 1 ∨ start ≤ last.irreversible
  head : head ≤ storageHead storage

theorem Sent.headOf_blocks {start head : Nat} {s : Sending} {last : Log}
    (h : Sent held storage client start s last head) (hstorage : Untrimmed storage) :
    headOf s.blocks = head := by
  rw [h.blocks]
  have hirreversible := h.tracking.irreversible
  have hstart := h.start
  exact headOf_segment hstorage.linked.follows hstorage.first (by omega) h.head
    fun b => hstorage.linked.num_pos

theorem getIrreversible_le (log : Log) (h : log.blocks.IsChain Follows) :
    getIrreversible log ≤ log.irreversible := by
  rw [getIrreversible, blockByNum_eq h]
  cases hfind : log.blocks.find? (·.num = log.irreversible) with
  | none => exact Nat.zero_le _
  | some b =>
      have hnum := List.find?_some hfind
      rw [decide_eq_true_eq] at hnum
      exact hnum.le

theorem Sent.next {start head : Nat} {s : Sending} {last : Log}
    (h : Sent held storage client start s last head) (hstorage : Untrimmed storage)
    (hheld : storage.blocks ⊆ held) (hhead : head + 1 ≤ storageHead storage) :
    ∃ s' last', sendBlock storage s = some s' ∧
      Sent held storage client start s' last' (head + 1) := by
  have hfollows := hstorage.linked.follows
  obtain ⟨block, hblock, hnum⟩ := exists_block hfollows hstorage.first (Nat.le_add_left 1 head)
    hhead
  have hheadOf := h.headOf_blocks hstorage
  have hirreversible := h.tracking.irreversible
  have hstart := h.start
  obtain ⟨happended, hsettled⟩ := h.tracking.push h.delivers.safe.2 h.stale hstorage hheld hblock
    hnum
  have hdelivers := h.delivers.concat (by simp) (fun b hb => by
    injection hb with hb
    exact hb ▸ happended) hsettled.safe
  have hblocks : s.blocks ++ [{ num := headOf s.blocks + 1, id := block.id }] =
      (segment storage start (head + 1)).map blockInfo := by
    rw [segment_succ hfollows hblock hnum (by omega), List.map_append, List.map_singleton, h.blocks,
      ← h.blocks, hheadOf, ← hnum]
    rfl
  have hget : storage.blockByNum (headOf s.blocks + 1) = some block := by
    rw [hheadOf, ← hnum]
    exact blockByNum_of_mem hfollows hblock
  have hid : idForNum storage (headOf s.blocks + 1) = some block.id := by
    rw [idForNum, hget]
    rfl
  have hgrown : start ≤ 1 ∨ start ≤ (process last (.block block)).irreversible := by
    have hle := hsettled.irreversible
    omega
  have hirreversible : min (getIrreversible storage)
      (headOf (s.blocks ++ [{ num := headOf s.blocks + 1, id := block.id }])) ≤
        storage.irreversible :=
    (Nat.min_le_left _ _).trans (getIrreversible_le storage hfollows)
  simp only [sendBlock, hget, hid, Option.bind_eq_bind, Option.bind_some, Option.pure_def]
  split
  · have hmarked := hsettled.tracking.setIrreversible hsettled.safe hsettled.ends hirreversible
    have hle := hmarked.irreversible
    refine ⟨_, _, rfl, ?_, hmarked.tracking, fun _ => hmarked.ends, hmarked.ends.stale, hblocks,
      by omega, hhead⟩
    have hdelivers' := hdelivers.concat (by simp) (by simp) hmarked.safe
    rw [List.append_assoc] at hdelivers'
    exact hdelivers'
  · exact ⟨_, _, rfl, hdelivers, hsettled.tracking, fun _ => hsettled.ends, hsettled.ends.stale,
      hblocks, hgrown, hhead⟩

theorem Sent.all {start head : Nat} {s : Sending} {last : Log}
    (h : Sent held storage client start s last head) (hstorage : Untrimmed storage)
    (hheld : storage.blocks ⊆ held) (maxBlocksToSend : Nat) :
    ∃ rest s' last' head', sendBlocks storage maxBlocksToSend s = some (rest, s') ∧
      Sent held storage client start s' last' head' := by
  induction maxBlocksToSend generalizing s last head with
  | zero => exact ⟨0, s, last, head, rfl, h⟩
  | succ maxBlocksToSend ih =>
      rw [sendBlocks, h.headOf_blocks hstorage]
      split
      · exact ⟨_, s, last, head, rfl, h⟩
      · rename_i hle
        obtain ⟨s', last', hsend, hsent⟩ := h.next hstorage hheld (Nat.le_of_not_lt hle)
        rw [hsend]
        exact ih hsent

/-- What the server believes to know of a client: the blocks from some number on. -/
structure Knows (held : List BlockWithId) (client : Log) (known : List BlockWithId)
    (start : Nat) : Prop where
  follows : known.IsChain Follows
  held : known ⊆ held
  first : ∀ b ∈ known.head?, b.num = start
  pos : 1 ≤ start
  start : start ≤ 1 ∨ start ≤ client.irreversible
  agrees : ∀ b, client.irreversible ≤ b.num → (b ∈ client.blocks ↔ b ∈ known)

/-- The blocks that remain are the server's blocks up to some number. -/
theorem Knows.pop {known : List BlockWithId} {start : Nat} (h : Knows held client known start)
    (hheld : Distinguished held) (hstorage : Untrimmed storage) (hstored : storage.blocks ⊆ held)
    (hsafe : Safe held storage client) (irreversible : Nat) :
    ∃ blocks needHeadUpdate head,
      popBlocks storage false (known.map blockInfo).reverse =
        some (blocks.reverse, needHeadUpdate) ∧
      Sent held storage client start { irreversible, blocks, needHeadUpdate } client head := by
  have hfollows := hstorage.linked.follows
  have hknown := pairwise_num h.follows
  have hstart : ∀ b ∈ known, start ≤ b.num := by
    intro b hb
    have hfront := List.head?_eq_some_head (List.ne_nil_of_mem hb)
    exact (h.first _ hfront).symm.trans_le (front_num_le h.follows hfront hb)
  have hpos := h.pos
  obtain ⟨l, r, happend, hr, hl, hpop⟩ := popBlocks_eq hfollows hstorage.first
    (fun b hb => hpos.trans (hstart b hb)) false
  rw [happend, List.pairwise_append] at hknown
  have hlfollows : l.IsChain Follows := by
    have hchain := h.follows
    rw [happend] at hchain
    exact hchain.left_of_append
  have hlknown : ∀ b ∈ l, b ∈ known := fun b hb => happend ▸ List.mem_append_left r hb
  have hrknown : ∀ b ∈ r, b ∈ known := fun b hb => happend ▸ List.mem_append_right l hb
  -- The last block that remains is the server's, and so are those before it.
  have hlast : ∀ last ∈ l.getLast?, last ∈ storage.blocks := by
    intro last hlast
    obtain ⟨b, hb, _, hid⟩ := hl last hlast
    have hmem := h.held (hlknown last (List.mem_of_getLast? hlast))
    exact hheld b (hstored hb) last hmem hid ▸ hb
  obtain ⟨head, hhead, hhead'⟩ : ∃ head, (∀ b ∈ l, b.num ≤ head) ∧
      ((l = [] ∧ head = 0) ∨ ∃ last ∈ l, last.num = head ∧ last ∈ storage.blocks) := by
    cases hlast' : l.getLast? with
    | none =>
        rw [List.getLast?_eq_none_iff] at hlast'
        exact ⟨0, by simp [hlast'], .inl ⟨hlast', rfl⟩⟩
    | some last =>
        have hmem := List.mem_of_getLast? hlast'
        exact ⟨last.num, fun b hb => num_le_last hknown.1 hlast' hb,
          .inr ⟨last, hmem, rfl, hlast last hlast'⟩⟩
  have hlstored : ∀ b ∈ l, b ∈ storage.blocks := by
    intro b hb
    rcases hhead' with ⟨hempty, _⟩ | ⟨last, hlastmem, hlastnum, hlaststored⟩
    · rw [hempty] at hb
      simp at hb
    · have hne := List.ne_nil_of_mem hlaststored
      have hfront := List.head?_eq_some_head hne
      have hone := hstorage.first _ hfront
      have hge := hstart b (hlknown b hb)
      exact mem_of_shared hheld hlfollows hfollows (fun a ha => h.held (hlknown a ha)) hstored hb
        hlastmem hlaststored ((hhead b hb).trans hlastnum.ge) (List.head_mem hne) (by omega)
  have hsegment : l = segment storage start head := by
    apply eq_of_mem_iff hknown.1 (pairwise_segment hfollows start head)
    intro b
    rw [mem_segment]
    constructor
    · intro hb
      exact ⟨hlstored b hb, hstart b (hlknown b hb), hhead b hb⟩
    · rintro ⟨hb, hge, hle⟩
      rcases hhead' with ⟨_, hzero⟩ | ⟨last, hlastmem, hlastnum, _⟩
      · omega
      · have hne := List.ne_nil_of_mem hlastmem
        have hfront : l.head hne ∈ known.head? := by
          rw [happend, List.head?_append, List.head?_eq_some_head hne]
          rfl
        obtain ⟨a, ha, hnum⟩ := exists_num hlfollows (List.head_mem hne) hlastmem
          ((h.first _ hfront).trans_le hge) (by omega)
        exact eq_of_num hfollows (hlstored a ha) hb hnum ▸ ha
  have hirreversible : client.irreversible ≤ head := by
    rcases hsafe.marked with hzero | ⟨b, hb, hnum, hbstored, _⟩
    · omega
    · have hmem := (h.agrees b hnum.ge).mp hb
      rw [happend, List.mem_append] at hmem
      rcases hmem with hmem | hmem
      · exact hnum.symm.trans_le (hhead b hmem)
      · exact absurd rfl (hr b hmem b hbstored rfl)
  have habove : ∀ b ∈ known, b.num ≤ head → b ∈ l := by
    intro b hb hle
    rw [happend, List.mem_append] at hb
    rcases hb with hb | hb
    · exact hb
    · rcases hhead' with ⟨_, hzero⟩ | ⟨last, hlastmem, hlastnum, _⟩
      · have hge := hstart b (hrknown b hb)
        omega
      · have hlt := hknown.2.2 last hlastmem b hb
        omega
  refine ⟨l.map blockInfo, !r.isEmpty, head, ?_, .nil hsafe, ⟨hirreversible, ?_⟩, ?_, ?_, ?_,
    h.start, ?_⟩
  · rw [hpop, Bool.false_or]
  · intro b hge hle
    constructor
    · intro hb
      exact hlstored b (habove b ((h.agrees b hge).mp hb) hle)
    · intro hb
      have hstart' := h.start
      have hbpos := hstorage.linked.num_pos hb
      apply (h.agrees b hge).mpr
      apply hlknown
      rw [hsegment]
      exact mem_segment.mpr ⟨hb, by omega, hle⟩
  · intro hpopped b hb
    have hempty : r = [] := by simpa using hpopped
    rcases Nat.lt_or_ge b.num client.irreversible with hlt | hge
    · omega
    · have hmem := (h.agrees b hge).mp hb
      rw [happend, hempty, List.append_nil] at hmem
      exact hhead b hmem
  · intro b hb hnum
    have hmem := (h.agrees b (by omega)).mp hb
    rw [happend, List.mem_append] at hmem
    rcases hmem with hmem | hmem
    · have hle := hhead b hmem
      omega
    · exact hr b hmem
  · rw [← hsegment]
  · rcases hhead' with ⟨_, hzero⟩ | ⟨last, _, hlastnum, hlaststored⟩
    · omega
    · exact hlastnum.symm.trans_le (num_le_storageHead hfollows hstorage.first hlaststored)

/-- The status that the server keeps of a client which has processed all messages. -/
structure Recorded (storage client : Log) (infos : List BlockInfo) (start head : Nat) : Prop where
  blocks : infos = (segment storage start head).map blockInfo
  tracking : Tracking storage client head
  ends : EndsAt client head
  pos : 1 ≤ start
  start : start ≤ 1 ∨ start ≤ client.irreversible
  head : head ≤ storageHead storage

theorem storageHead_lt (hstorage : Untrimmed storage) : storageHead storage < 2 ^ 32 := by
  rcases Nat.eq_zero_or_pos (storageHead storage) with hzero | hpos
  · omega
  · obtain ⟨b, hb, hnum⟩ := exists_block hstorage.linked.follows hstorage.first hpos le_rfl
    exact hnum.symm.trans_lt (hstorage.bounded b hb)

/-- An update does not throw. The client will have the blocks of the new status, unless the server
asks for one. -/
theorem update_eq {known : List BlockWithId} {start : Nat} (h : Knows held client known start)
    (hheld : Distinguished held) (hstorage : Untrimmed storage) (hstored : storage.blocks ⊆ held)
    (hsafe : Safe held storage client) {status : ClientStatus}
    (hblocks : status.blocks = known.map blockInfo) :
    ∃ messages last head s,
      Delivers held storage client messages last ∧
        Recorded storage last s.blocks start head ∧
        (update storage status = some (some s, messages) ∨
          update storage status = some (none, messages ++ [.sendStatus])) := by
  obtain ⟨blocks, needHeadUpdate, head, hpop, hsent⟩ := h.pop hheld hstorage hstored hsafe
    status.irreversible
  obtain ⟨rest, s, last, head, hsend, hsent⟩ := hsent.all hstorage hstored status.maxBlocksToSend
  have hheadOf := hsent.headOf_blocks hstorage
  obtain ⟨messages, last', hmessages, hdelivers, hrecorded⟩ : ∃ messages last',
      (if s.needHeadUpdate then s.sent ++ [.setHead (headOf s.blocks)] else s.sent) = messages ∧
        Delivers held storage client messages last' ∧
        Recorded storage last' s.blocks start head := by
    cases hneed : s.needHeadUpdate with
    | true =>
        have hsettled := hsent.tracking.setHead hsent.delivers.safe.2
          (hsent.head.trans_lt (storageHead_lt hstorage))
        have hle := hsettled.irreversible
        have hstart := hsent.start
        rw [hheadOf]
        exact ⟨_, _, rfl, hsent.delivers.concat (by simp) (by simp) hsettled.safe, hsent.blocks,
          hsettled.tracking, hsettled.ends, h.pos, by omega, hsent.head⟩
    | false =>
        exact ⟨_, last, rfl, hsent.delivers, hsent.blocks, hsent.tracking, hsent.ends hneed,
          h.pos, hsent.start, hsent.head⟩
  refine ⟨messages, last', head,
    { maxBlocksToSend := rest, irreversible := s.irreversible, blocks := s.blocks }, hdelivers,
    hrecorded, ?_⟩
  unfold update
  rw [hblocks, hpop]
  simp only [Option.bind_eq_bind, Option.bind_some, List.reverse_reverse, hsend, hmessages,
    Option.pure_def]
  split
  · exact .inr rfl
  · exact .inl rfl

theorem segment_eq_append (h : log.blocks.IsChain Follows) (start head : Nat) :
    ∃ l r, log.blocks = l ++ segment log start head ++ r ∧ (∀ b ∈ l, b.num < start) ∧
      (∀ b ∈ r, start ≤ b.num) := by
  obtain ⟨l, rest, hcut⟩ := exists_cut (pairwise_num h) start
  have hpairwise := pairwise_num h
  rw [hcut.append, List.pairwise_append] at hpairwise
  obtain ⟨middle, r, hcut'⟩ := exists_cut hpairwise.2.1 (head + 1)
  have hrest := hcut'.append
  refine ⟨l, r, ?_, hcut.left, ?_⟩
  · have hmiddle : middle = segment log start head := by
      have hm := hpairwise.2.1
      rw [hrest, List.pairwise_append] at hm
      apply eq_of_mem_iff hm.1 (pairwise_segment h start head)
      intro b
      rw [mem_segment, hcut.append, hrest, List.mem_append, List.mem_append]
      constructor
      · intro hb
        have hlt : b.num < head + 1 := hcut'.left b hb
        have hge := hcut.right b (hrest ▸ List.mem_append_left r hb)
        exact ⟨.inr (.inl hb), by omega, by omega⟩
      · rintro ⟨hb | hb | hb, hge, hle⟩
        · have hlt : b.num < start := hcut.left b hb
          omega
        · exact hb
        · have hlt := hcut'.right b hb
          omega
    rw [← hmiddle, List.append_assoc, ← hrest]
    exact hcut.append
  · intro b hb
    exact Nat.le_of_not_lt (hcut.right b (hrest ▸ List.mem_append_right middle hb))

/-- The server may start its next update from what it has recorded. -/
theorem Recorded.knows {infos : List BlockInfo} {start head : Nat}
    (h : Recorded log client infos start head) (hlog : log.blocks.IsChain Follows)
    (hfirst : ∀ b ∈ log.blocks.head?, b.num = 1) (hheld : log.blocks ⊆ held) :
    Knows held client (segment log start head) start := by
  obtain ⟨l, r, hblocks, _, _⟩ := segment_eq_append hlog start head
  refine ⟨ List.IsChain.infix hlog ⟨l, r, hblocks.symm⟩, ?_, ?_, h.pos, h.start, ?_⟩
  · intro b hb
    exact hheld (mem_segment.mp hb).1
  · intro b hb
    have hmem := List.mem_of_mem_head? hb
    obtain ⟨_, hge, hle⟩ := mem_segment.mp hmem
    obtain ⟨a, ha, hnum⟩ := exists_block hlog hfirst h.pos
      ((hge.trans hle).trans h.head)
    have ha : a ∈ segment log start head :=
      mem_segment.mpr ⟨ha, hnum.ge, by omega⟩
    have hchain := List.IsChain.infix hlog ⟨l, r, hblocks.symm⟩
    have hmin := front_num_le hchain hb ha
    omega
  · intro b hge
    have hstart := h.start
    rw [mem_segment]
    constructor
    · intro hb
      have hle := h.ends b hb
      have hstored := (h.tracking.agrees b hge hle).mp hb
      obtain ⟨i, hi⟩ := List.getElem?_of_mem hstored
      have hnum := num_eq_of_first hlog hfirst hi
      exact ⟨hstored, by omega, hle⟩
    · rintro ⟨hb, _, hle⟩
      exact (h.tracking.agrees b hge hle).mpr hb

end Eden.SynchronisedLogs
