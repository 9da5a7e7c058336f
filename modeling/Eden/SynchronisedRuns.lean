import Eden.SynchronisedLogs

/-!
Runs of a server and a client: changes of the server's log, updates and deliveries in any order.
-/

namespace Eden.SynchronisedRuns

open Eden.LowerBound
open Eden.ChainPrimitives
open Eden.BlockLog
open Eden.BlockLog.Log
open Eden.LinkedBlocks
open Eden.Synchronisation
open Eden.SynchronisedLogs

/-- A change of the server's log. The first eosio block is not numbered 0, unless the number after
the irreversible one is above 0. -/
def Allowed (operation : Operation) : Prop :=
  operation ≠ .trimBlocks ∧ ∀ eosioBlock eosioIrreversible,
    operation = .addBlock eosioBlock eosioIrreversible →
      eosioBlock.num ≠ 0 ∨ next eosioIrreversible ≠ 0

instance (operation : Operation) : Decidable (Allowed operation) :=
  match operation with
  | .addBlock eosioBlock eosioIrreversible =>
      decidable_of_iff (eosioBlock.num ≠ 0 ∨ next eosioIrreversible ≠ 0) (by
        constructor
        · intro h
          refine ⟨by simp, ?_⟩
          intro e i heq
          injection heq with he hi
          exact he ▸ hi ▸ h
        · intro h
          exact h.2 _ _ rfl)
  | .undoBlockNum _ => .isTrue ⟨by simp, by simp⟩
  | .undoEosioNum _ => .isTrue ⟨by simp, by simp⟩
  | .setIrreversible _ => .isTrue ⟨by simp, by simp⟩
  | .trimBlocks => .isFalse fun h => h.1 rfl

variable {sha256 : Block → Checksum} {slowmo : Bool} {held : List BlockWithId}
  {storage client log : Log}

theorem untrimmed_keep {l r : List BlockWithId} (h : Untrimmed log) (hblocks : log.blocks = l ++ r)
    (hreversible : ∀ b ∈ r, log.irreversible < b.num) : Untrimmed { log with blocks := l } := by
  have hmem : ∀ b ∈ l, b ∈ log.blocks := fun b hb => hblocks ▸ List.mem_append_left r hb
  refine ⟨h.linked.keep hblocks hreversible, ?_, ?_, ?_⟩
  · intro b hb
    apply h.first
    rw [hblocks, List.head?_append, hb]
    rfl
  · intro b hb
    exact h.bounded b (hmem b hb)
  · intro b hb
    exact h.zero b (hmem b hb)

theorem untrimmed_advance (h : Untrimmed log) {found : Option BlockWithId}
    (hfound : ∀ b ∈ found, b ∈ log.blocks) : Untrimmed (log.advance found) := by
  refine ⟨h.linked.advance hfound, ?_, ?_, ?_⟩
  · rw [advance_blocks]
    exact h.first
  · rw [advance_blocks]
    exact h.bounded
  · rw [advance_blocks]
    intro b hb hzero
    exact (h.zero b hb hzero).trans (le_advance log found)

/-- The block that a search finds last is not below another one that the search would find. -/
theorem le_blockBeforeEosioNum (h : Linked log) {b : BlockWithId} (hb : b ∈ log.blocks) {num : Nat}
    (hlt : b.eosioBlock.num < num) :
    b.num ≤ (log.advance (log.blockBeforeEosioNum num)).irreversible := by
  have hmem : b ∈ log.blocks.filter (·.eosioBlock.num < num) :=
    List.mem_filter.mpr ⟨hb, decide_eq_true hlt⟩
  rw [blockBeforeEosioNum_eq h.follows]
  cases hlast : (log.blocks.filter (·.eosioBlock.num < num)).getLast? with
  | none =>
      rw [List.getLast?_eq_none_iff.mp hlast] at hmem
      simp at hmem
  | some last =>
      have hle := num_le_last ((pairwise_num h.follows).filter _) hlast hmem
      exact hle.trans (Nat.le_max_right _ _)

theorem untrimmed_step (h : Untrimmed log) {operation : Operation} (hallowed : Allowed operation) :
    Untrimmed (log.step sha256 operation) := by
  cases operation with
  | addBlock eosioBlock eosioIrreversible =>
      rcases push_edenBlock_eq sha256 h.linked eosioBlock eosioIrreversible with
        ⟨status, _, hpush⟩ | ⟨l, r, log', hblocks, hr, hlinks, _, hlog', hlinked, hpush⟩
      · rw [Log.step, hpush]
        exact h
      · rw [Log.step, hpush]
        have hkept := untrimmed_keep h hblocks hr
        have hfound : ∀ b ∈ log'.blockBeforeEosioNum (next eosioIrreversible), b ∈ log'.blocks :=
          fun b => mem_of_mem_blockBefore
        have hmem : ∀ b ∈ log'.blocks, b ∈ l ∨ b = edenBlock sha256 log eosioBlock := by
          intro b hb
          rw [hlog'] at hb
          rcases List.mem_append.mp hb with hb | hb
          · exact .inl hb
          · exact .inr (List.mem_singleton.mp hb)
        refine ⟨hlinked.advance hfound, ?_, ?_, ?_⟩
        · rw [advance_blocks, hlog']
          intro b hb
          cases l with
          | nil =>
              rw [List.nil_append, List.head?_cons, Option.mem_some_iff] at hb
              exact hb ▸ hlinks.1 rfl
          | cons front l => exact hkept.first b hb
        · rw [advance_blocks]
          intro b hb
          rcases hmem b hb with hb | rfl
          · exact hkept.bounded b hb
          · cases hlast : l.getLast? with
            | none =>
                rw [hlinks.1 (List.getLast?_eq_none_iff.mp hlast)]
                decide
            | some prev =>
                rw [(hlinks.2 prev hlast).1]
                exact Nat.mod_lt _ (by decide)
        · rw [advance_blocks]
          intro b hb hzero
          rcases hmem b hb with hb' | rfl
          · have hle := le_advance log' (log'.blockBeforeEosioNum (next eosioIrreversible))
            have hirreversible := hkept.zero b hb' hzero
            rw [hlog'] at hle ⊢
            exact hirreversible.trans hle
          · rw [edenBlock_eosioBlock] at hzero
            have hpos := (hallowed.2 _ _ rfl).resolve_left (not_not.mpr hzero)
            apply le_blockBeforeEosioNum hlinked hb
            rw [edenBlock_eosioBlock]
            omega
  | undoBlockNum blockNum =>
      obtain ⟨l, r, hblocks, hr, hundo⟩ := undo_eq h.linked.follows blockNum
      rw [Log.step, hundo]
      exact untrimmed_keep h hblocks hr
  | undoEosioNum eosioNum =>
      obtain ⟨l, r, hblocks, hr, hundo⟩ := undoEosio_eq h.linked.follows eosioNum
      rw [Log.step, hundo]
      exact untrimmed_keep h hblocks hr
  | setIrreversible irreversible => exact untrimmed_advance h fun b => mem_of_mem_blockBefore
  | trimBlocks => exact absurd rfl hallowed.1

theorem safe_mono {held' : List BlockWithId} {storage' : Log} (h : Safe held storage client)
    (hheld : held ⊆ held') (hreplaces : Replaces storage storage') :
    Safe held' storage' client := by
  refine ⟨h.linked, fun b hb => hheld (h.held hb), h.bounded, ?_⟩
  rcases h.marked with hzero | ⟨b, hb, hnum, hstored, hle⟩
  · exact .inl hzero
  · exact .inr ⟨b, hb, hnum, hreplaces.mem hstored hle, hle.trans hreplaces.irreversible⟩

theorem delivers_mono {held' : List BlockWithId} {storage' last : Log} {messages : List Message}
    (h : Delivers held storage client messages last) (hheld : held ⊆ held')
    (hreplaces : Replaces storage storage') : Delivers held' storage' client messages last := by
  induction h with
  | nil hsafe => exact .nil (safe_mono hsafe hheld hreplaces)
  | cons hsafe hstatus hblock _ ih => exact .cons (safe_mono hsafe hheld hreplaces) hstatus hblock ih

theorem untrimmed_empty : Untrimmed {} :=
  ⟨.empty, by simp, by simp, by simp⟩

theorem run_untrimmed {operations : List Operation} (h : Untrimmed log)
    (hallowed : ∀ operation ∈ operations, Allowed operation) :
    Untrimmed (log.run sha256 operations) := by
  unfold Log.run
  induction operations generalizing log with
  | nil => exact h
  | cons operation operations ih =>
      rw [List.forall_mem_cons] at hallowed
      exact ih (untrimmed_step h hallowed.1) hallowed.2

/-- The log of a client that connects: it has no irreversible block, or one of the server's. -/
structure Connects (storage client : Log) : Prop where
  linked : Linked client
  bounded : ∀ b ∈ client.blocks, b.num < 2 ^ 32
  marked : client.irreversible = 0 ∨ ∃ b ∈ client.blocks, b.num = client.irreversible ∧
    b.num ≤ storage.irreversible ∧ ∃ b' ∈ storage.blocks, b'.num = b.num ∧ b'.id = b.id

/-- Any order of changes of the server's log, updates and deliveries. -/
inductive Reachable (sha256 : Block → Checksum) (slowmo : Bool) : Net → Prop
  | connect {operations : List Operation} {client : Log} :
      (∀ operation ∈ operations, Allowed operation) →
      Connects (Log.run sha256 {} operations) client →
      Reachable sha256 slowmo (Net.connect slowmo (Log.run sha256 {} operations) client)
  | step {net net' : Net} {event : Event} : Reachable sha256 slowmo net →
      (∀ operation, event = .change operation → Allowed operation) →
      net.step sha256 slowmo event = some net' → Reachable sha256 slowmo net'

/-- Where the client's status is: with the server, asked for, or on its way to the server. -/
inductive Phase (slowmo : Bool) (net : Net) : Prop
  | recorded {last : Log} {status : ClientStatus} {start head : Nat} :
      net.status = some status → net.toServer = [] →
      Delivers net.held net.storage net.client net.toClient last →
      Recorded net.updated last status.blocks start head → Phase slowmo net
  | asked {last : Log} {messages : List Message} : net.status = none → net.toServer = [] →
      net.toClient = messages ++ [.sendStatus] →
      Delivers net.held net.storage net.client messages last → Phase slowmo net
  | answered : net.status = none → net.toServer = [sendStatus slowmo net.client] →
      net.toClient = [] → Safe net.held net.storage net.client → Phase slowmo net

/-- The connection is open, and the client has appended all blocks. -/
structure Sound (net : Net) : Prop where
  storage : Untrimmed net.storage
  stored : net.storage.blocks ⊆ net.held
  updated : Untrimmed net.updated
  updatedStored : net.updated.blocks ⊆ net.held
  closed : net.closed = false
  results : ∀ result ∈ net.results, result = .appended

structure Synced (slowmo : Bool) (net : Net) : Prop extends Sound net where
  phase : Phase slowmo net

theorem getIrreversible_eq (h : Linked log) : getIrreversible log = log.irreversible := by
  unfold getIrreversible
  rcases h.held with hzero | ⟨b, hb, hnum⟩
  · have hnone : log.blockByNum log.irreversible = none := by
      rw [blockByNum_eq h.follows, List.find?_eq_none]
      intro b hb
      have hpos := h.num_pos hb
      rw [decide_eq_true_eq]
      omega
    rw [hnone, hzero]
    rfl
  · rw [← hnum, blockByNum_of_mem h.follows hb]
    rfl

/-- The server may start its first update from the status that the client sends. -/
theorem sendStatus_knows (hsafe : Safe held storage client) (slowmo : Bool) :
    ∃ known start, Knows held client known start ∧
      (sendStatus slowmo client).blocks = known.map blockInfo := by
  have hlinked := hsafe.linked
  have hmem := mem_trim_iff hlinked.follows
  have hblocks : (sendStatus slowmo client).blocks = client.trim.blocks.map blockInfo := by
    simp only [sendStatus, getIrreversible_eq hlinked, Log.trim]
  have hheld : client.trim.blocks ⊆ held := fun b hb => hsafe.held ((hmem b).mp hb).1
  have hagrees : ∀ b, client.irreversible ≤ b.num →
      (b ∈ client.blocks ↔ b ∈ client.trim.blocks) := by
    intro b hge
    rw [hmem]
    exact (and_iff_left hge).symm
  cases hfront : client.trim.blocks.head? with
  | none =>
      refine ⟨_, 1, ⟨hlinked.trim.follows, hheld, ?_, le_rfl, .inl le_rfl, hagrees⟩, hblocks⟩
      intro b hb
      rw [hfront] at hb
      simp at hb
  | some front =>
      obtain ⟨hpos, hstart⟩ := hlinked.trim.front front hfront
      refine ⟨_, front.num, ⟨hlinked.trim.follows, hheld, ?_, hpos, ?_, hagrees⟩, hblocks⟩
      · intro b hb
        rw [hfront, Option.mem_some_iff] at hb
        rw [hb]
      · rcases hstart with hone | hle
        · exact .inl hone.le
        · exact .inr hle

theorem connect_synced {operations : List Operation}
    (hallowed : ∀ operation ∈ operations, Allowed operation)
    (h : Connects (Log.run sha256 {} operations) client)
    (hheld : Distinguished (Net.connect slowmo (Log.run sha256 {} operations) client).held) :
    Synced slowmo (Net.connect slowmo (Log.run sha256 {} operations) client) := by
  have hstored : (Log.run sha256 {} operations).blocks ⊆
      (Net.connect slowmo (Log.run sha256 {} operations) client).held :=
    fun b hb => List.mem_append_left _ hb
  have hclient : client.blocks ⊆
      (Net.connect slowmo (Log.run sha256 {} operations) client).held :=
    fun b hb => List.mem_append_right _ hb
  refine ⟨⟨run_untrimmed untrimmed_empty hallowed, hstored, untrimmed_empty,
    by simp [Net.connect], rfl, by simp [Net.connect]⟩,
    .answered rfl rfl rfl ⟨h.linked, hclient, h.bounded, ?_⟩⟩
  rcases h.marked with hzero | ⟨b, hb, hnum, hle, b', hb', _, hid⟩
  · exact .inl hzero
  · have heq := hheld b' (hstored hb') b (hclient hb) hid
    exact .inr ⟨b, hb, hnum, heq ▸ hb', hle⟩

/-- An update from what the server knows of a client that will have processed all messages. -/
theorem Sound.update {net : Net} {status : ClientStatus} (h : Sound net)
    (hheld : Distinguished net.held) {last : Log} (hserver : net.toServer = [])
    (hdelivers : Delivers net.held net.storage net.client net.toClient last)
    {known : List BlockWithId} {start : Nat} (hknows : Knows net.held last known start)
    (hblocks : status.blocks = known.map blockInfo) : Synced slowmo (net.update status) := by
  obtain ⟨messages, last', head, s, hmessages, hrecorded, hupdate⟩ :=
    update_eq hknows hheld h.storage h.stored hdelivers.safe.2 hblocks
  have hall := hdelivers.append hmessages
  rcases hupdate with hupdate | hupdate
  · have hnet : net.update status = { net with
        status := some s, toClient := net.toClient ++ messages, updated := net.storage } := by
      rw [Net.update, hupdate]
    rw [hnet]
    exact ⟨⟨h.storage, h.stored, h.storage, h.stored, h.closed, h.results⟩,
      .recorded rfl hserver hall hrecorded⟩
  · have hnet : net.update status = { net with
        status := none, toClient := net.toClient ++ (messages ++ [.sendStatus]),
        updated := net.storage } := by
      rw [Net.update, hupdate]
    rw [hnet]
    exact ⟨⟨h.storage, h.stored, h.storage, h.stored, h.closed, h.results⟩,
      .asked rfl hserver (List.append_assoc _ _ _).symm hall⟩

theorem held_subset {net net' : Net} {event : Event}
    (hstep : net.step sha256 slowmo event = some net') : net.held ⊆ net'.held := by
  have hupdate : ∀ (net : Net) status, (net.update status).held = net.held := by
    intro net status
    unfold Net.update
    split
    · rfl
    · rfl
  cases event with
  | change operation =>
      rw [Net.step] at hstep
      split at hstep
      · simp at hstep
      · rw [← Option.some.inj hstep]
        exact List.subset_append_left _ _
  | update =>
      rw [Net.step] at hstep
      split at hstep
      · rw [← Option.some.inj hstep, hupdate]
        exact List.Subset.refl _
      · simp at hstep
  | receiveStatus =>
      rw [Net.step] at hstep
      split at hstep
      · rw [← Option.some.inj hstep, hupdate]
        exact List.Subset.refl _
      · simp at hstep
  | receiveMessage =>
      rw [Net.step] at hstep
      split at hstep
      · rw [← Option.some.inj hstep]
        exact List.Subset.refl _
      · simp at hstep

theorem Synced.change {net : Net} (h : Synced slowmo net) {operation : Operation}
    (hallowed : Allowed operation) :
    Synced slowmo { net with
      storage := net.storage.step sha256 operation,
      held := net.held ++ (net.storage.step sha256 operation).blocks } := by
  have hreplaces := (@step_linked _ sha256 h.storage.linked operation).2 hallowed.1
  have hheld : net.held ⊆ net.held ++ (net.storage.step sha256 operation).blocks :=
    List.subset_append_left _ _
  refine ⟨⟨untrimmed_step h.storage hallowed, List.subset_append_right _ _, h.updated,
    fun b hb => hheld (h.updatedStored hb), h.closed, h.results⟩, ?_⟩
  cases h.phase with
  | recorded hstatus hserver hdelivers hrecorded =>
      exact .recorded hstatus hserver (delivers_mono hdelivers hheld hreplaces) hrecorded
  | asked hstatus hserver hclient hdelivers =>
      exact .asked hstatus hserver hclient (delivers_mono hdelivers hheld hreplaces)
  | answered hstatus hserver hclient hsafe =>
      exact .answered hstatus hserver hclient (safe_mono hsafe hheld hreplaces)

/-- The client appends a block that it processes, and does not send its status. -/
theorem Synced.deliver {net net' : Net} (h : Synced slowmo net) {message : Message}
    {messages rest : List Message} (hclient : net.toClient = message :: messages) {last : Log}
    (hdelivers : Delivers net.held net.storage net.client (message :: rest) last)
    (hstep : net.step sha256 slowmo .receiveMessage = some net') :
    ∃ results, (∀ result ∈ results, result = .appended) ∧
      Delivers net.held net.storage (process net.client message) rest last ∧
      net' = { net with
        toClient := messages, results, client := process net.client message } := by
  rw [Net.step, hclient] at hstep
  have hnet := (Option.some.inj hstep).symm
  cases hdelivers with
  | cons _ hnostatus hblock hrest =>
      cases message with
      | block block =>
          refine ⟨_, ?_, hrest, hnet⟩
          intro result hresult
          rcases List.mem_append.mp hresult with hresult | hresult
          · exact h.results result hresult
          · exact (List.mem_singleton.mp hresult).trans (hblock block rfl)
      | setHead head => exact ⟨_, h.results, hrest, hnet⟩
      | setIrreversible irreversible => exact ⟨_, h.results, hrest, hnet⟩
      | sendStatus => exact absurd rfl hnostatus

theorem Synced.receiveMessage {net net' : Net} (h : Synced slowmo net)
    (hstep : net.step sha256 slowmo .receiveMessage = some net') : Synced slowmo net' := by
  cases hclient : net.toClient with
  | nil =>
      rw [Net.step, hclient] at hstep
      simp at hstep
  | cons message messages =>
      cases h.phase with
      | recorded hstatus hserver hdelivers hrecorded =>
          rw [hclient] at hdelivers
          obtain ⟨results, hresults, hrest, rfl⟩ := h.deliver hclient hdelivers hstep
          exact ⟨⟨h.storage, h.stored, h.updated, h.updatedStored, h.closed, hresults⟩,
            .recorded hstatus hserver hrest hrecorded⟩
      | @asked last rest hstatus hserver hasked hdelivers =>
          rw [hclient] at hasked
          cases rest with
          | nil =>
              obtain ⟨rfl, rfl⟩ := List.cons.inj hasked
              rw [Net.step, hclient] at hstep
              rw [← Option.some.inj hstep]
              have hsent : net.toServer ++ [sendStatus slowmo net.client] =
                  [sendStatus slowmo net.client] := by rw [hserver, List.nil_append]
              exact ⟨⟨h.storage, h.stored, h.updated, h.updatedStored, h.closed, h.results⟩,
                .answered hstatus hsent rfl hdelivers.safe.1⟩
          | cons first rest =>
              obtain ⟨rfl, hmessages⟩ := List.cons.inj hasked
              obtain ⟨results, hresults, hrest, rfl⟩ := h.deliver hclient hdelivers hstep
              exact ⟨⟨h.storage, h.stored, h.updated, h.updatedStored, h.closed, hresults⟩,
                .asked hstatus hserver hmessages hrest⟩
      | answered hstatus hserver hempty hsafe =>
          rw [hclient] at hempty
          simp at hempty

theorem Synced.step {net net' : Net} (h : Synced slowmo net) {event : Event}
    (hallowed : ∀ operation, event = .change operation → Allowed operation)
    (hstep : net.step sha256 slowmo event = some net') (hheld : Distinguished net'.held) :
    Synced slowmo net' := by
  have hbefore : Distinguished net.held := fun a ha b hb =>
    hheld a (held_subset hstep ha) b (held_subset hstep hb)
  cases event with
  | change operation =>
      rw [Net.step, if_neg (hallowed operation rfl).1] at hstep
      rw [← Option.some.inj hstep]
      exact h.change (hallowed operation rfl)
  | update =>
      cases hstatus : net.status with
      | none =>
          rw [Net.step, hstatus] at hstep
          simp at hstep
      | some status =>
          rw [Net.step, hstatus] at hstep
          rw [← Option.some.inj hstep]
          cases h.phase with
          | recorded hstatus' hserver hdelivers hrecorded =>
              obtain rfl := Option.some.inj (hstatus.symm.trans hstatus')
              have hknows := hrecorded.knows h.updated.linked.follows h.updated.first
                h.updatedStored
              exact h.toSound.update hbefore hserver hdelivers hknows hrecorded.blocks
          | asked hnone _ _ _ => simp [hstatus] at hnone
          | answered hnone _ _ _ => simp [hstatus] at hnone
  | receiveStatus =>
      cases h.phase with
      | recorded _ hserver _ _ =>
          rw [Net.step, hserver] at hstep
          simp at hstep
      | asked _ hserver _ _ =>
          rw [Net.step, hserver] at hstep
          simp at hstep
      | answered hstatus hserver hempty hsafe =>
          rw [Net.step, hserver] at hstep
          rw [← Option.some.inj hstep]
          obtain ⟨known, start, hknows, hblocks⟩ := sendStatus_knows hsafe slowmo
          have hdelivers : Delivers net.held net.storage net.client net.toClient net.client := by
            rw [hempty]
            exact .nil hsafe
          have hsound : Sound { net with toServer := [] } :=
            ⟨h.storage, h.stored, h.updated, h.updatedStored, h.closed, h.results⟩
          exact hsound.update hbefore rfl hdelivers hknows hblocks
  | receiveMessage => exact h.receiveMessage hstep

theorem reachable_synced {net : Net} (h : Reachable sha256 slowmo net)
    (hheld : Distinguished net.held) : Synced slowmo net := by
  induction h with
  | connect hallowed hconnects => exact connect_synced hallowed hconnects hheld
  | step _ hallowed hstep ih =>
      have hbefore := ih fun a ha b hb =>
        hheld a (held_subset hstep ha) b (held_subset hstep hb)
      exact hbefore.step hallowed hstep hheld

/-- The client's blocks from its irreversible one on are those that the server has recorded. -/
theorem recorded_filter {infos : List BlockInfo} {start head : Nat}
    (h : Recorded log client infos start head) (hlog : Untrimmed log)
    (hsafe : Safe held storage client) :
    (client.blocks.filter (client.irreversible ≤ ·.num)).map blockInfo =
      infos.filter (client.irreversible ≤ ·.num) := by
  have hfollows := hlog.linked.follows
  have hfilter : (infos.filter (client.irreversible ≤ ·.num)) =
      ((segment log start head).filter (client.irreversible ≤ ·.num)).map blockInfo := by
    rw [h.blocks, List.filter_map]
    rfl
  rw [hfilter]
  apply congrArg (List.map blockInfo)
  apply eq_of_mem_iff ((pairwise_num hsafe.linked.follows).filter _)
    ((pairwise_segment hfollows start head).filter _)
  intro b
  rw [List.mem_filter, List.mem_filter, decide_eq_true_eq, mem_segment]
  constructor
  · rintro ⟨hb, hge⟩
    have hle := h.ends b hb
    have hstored := (h.tracking.agrees b hge hle).mp hb
    have hpos := hlog.linked.num_pos hstored
    have hstart := h.start
    exact ⟨⟨hstored, by omega, hle⟩, hge⟩
  · rintro ⟨⟨hstored, _, hle⟩, hge⟩
    exact ⟨(h.tracking.agrees b hge hle).mpr hstored, hge⟩

/-- What the server has recorded is the beginning of its chain, from some number on. -/
theorem recorded_prefix {infos : List BlockInfo} {start head : Nat}
    (h : Recorded log client infos start head) (hlog : Untrimmed log) :
    infos <+: (log.blocks.filter (start ≤ ·.num)).map blockInfo := by
  obtain ⟨l, r, hblocks, hl, hr⟩ := segment_eq_append hlog.linked.follows start head
  rw [h.blocks]
  apply List.IsPrefix.map
  have hleft : l.filter (start ≤ ·.num) = [] := by
    rw [List.filter_eq_nil_iff]
    intro b hb
    have hlt := hl b hb
    rw [decide_eq_true_eq]
    omega
  have hmiddle : (segment log start head).filter (start ≤ ·.num) = segment log start head := by
    rw [List.filter_eq_self]
    intro b hb
    exact decide_eq_true (mem_segment.mp hb).2.1
  have hfilter := congrArg (List.filter (start ≤ ·.num)) hblocks
  rw [List.filter_append, List.filter_append, hleft, hmiddle, List.nil_append] at hfilter
  rw [hfilter]
  exact List.prefix_append _ _

/-- The connection stays open, and each block is appended. The client marks as irreversible only
blocks that it has and that the server has as irreversible. When it has processed all messages, its
blocks are those that the server has recorded, which are the server's at its last update. -/
theorem client_synchronised {net : Net} (h : Reachable sha256 slowmo net)
    (hheld : Distinguished net.held) :
    net.closed = false ∧ (∀ result ∈ net.results, result = .appended) ∧
      (net.client.irreversible = 0 ∨ ∃ b ∈ net.client.blocks,
        b.num = net.client.irreversible ∧ b ∈ net.storage.blocks ∧
          b.num ≤ net.storage.irreversible) ∧
      (net.toClient = [] → ∀ status, net.status = some status →
        (net.client.blocks.filter (net.client.irreversible ≤ ·.num)).map blockInfo =
            status.blocks.filter (net.client.irreversible ≤ ·.num) ∧
          ∃ start, (start ≤ 1 ∨ start ≤ net.client.irreversible) ∧
            status.blocks <+: (net.updated.blocks.filter (start ≤ ·.num)).map blockInfo) := by
  have hsynced := reachable_synced h hheld
  refine ⟨hsynced.closed, hsynced.results, ?_, ?_⟩
  · cases hsynced.phase with
    | recorded _ _ hdelivers _ => exact hdelivers.safe.1.marked
    | asked _ _ _ hdelivers => exact hdelivers.safe.1.marked
    | answered _ _ _ hsafe => exact hsafe.marked
  · intro hempty status hstatus
    cases hsynced.phase with
    | recorded hstatus' _ hdelivers hrecorded =>
        obtain rfl := Option.some.inj (hstatus.symm.trans hstatus')
        rw [hempty] at hdelivers
        cases hdelivers with
        | nil hsafe =>
            exact ⟨recorded_filter hrecorded hsynced.updated hsafe, _, hrecorded.start,
              recorded_prefix hrecorded hsynced.updated⟩
    | asked hnone _ _ _ => simp [hstatus] at hnone
    | answered hnone _ _ _ => simp [hstatus] at hnone

def Net.run (sha256 : Block → Checksum) (slowmo : Bool) (net : Net) (events : List Event) :
    Option Net :=
  events.foldlM (Net.step sha256 slowmo) net

theorem reachable_run {net net' : Net} (h : Reachable sha256 slowmo net) {events : List Event}
    (hallowed : ∀ operation, .change operation ∈ events → Allowed operation)
    (hrun : Net.run sha256 slowmo net events = some net') : Reachable sha256 slowmo net' := by
  unfold Net.run at hrun
  induction events generalizing net with
  | nil => exact Option.some.inj hrun ▸ h
  | cons event events ih =>
      rw [List.foldlM_cons, Option.bind_eq_bind, Option.bind_eq_some_iff] at hrun
      obtain ⟨middle, hstep, hrest⟩ := hrun
      have hmiddle : Reachable sha256 slowmo middle :=
        h.step (fun operation heq => hallowed operation (heq ▸ List.mem_cons_self)) hstep
      exact ih hmiddle (fun operation hmem => hallowed operation (List.mem_cons_of_mem _ hmem))
        hrest

theorem connects_empty (storage : Log) : Connects storage {} :=
  ⟨.empty, by simp, .inl rfl⟩

def sampleBlock (num : Nat) (id : Checksum) : EosioBlock :=
  { num, id, previous := noChecksum, timestamp := 0, transactions := [] }

/-- The second block is replaced after the client has received it. -/
def forkEvents : List Event :=
  [.receiveStatus, .receiveMessage, .receiveMessage, .receiveMessage,
    .change (.addBlock (sampleBlock 11 [3]) 10), .update, .receiveMessage,
    .change (.undoEosioNum 11), .update, .change (.addBlock (sampleBlock 12 [4]) 10),
    .receiveMessage, .update, .receiveMessage]

def forkStorage : List Operation :=
  [.addBlock (sampleBlock 10 [1]) 9, .addBlock (sampleBlock 11 [2]) 10]

instance (held : List BlockWithId) : Decidable (Distinguished held) :=
  inferInstanceAs (Decidable (∀ a ∈ held, ∀ b ∈ held, a.id = b.id → a = b))

theorem forkEvents_synchronised : ∃ net,
    Reachable (·.eosioBlock.id) false net ∧ Distinguished net.held ∧
      net.closed = false ∧ net.results = [.appended, .appended, .appended, .appended] ∧
      ∃ status, net.status = some status ∧ status.blocks.map (·.id) = [[1], [4]] ∧
        (net.client.blocks.filter (net.client.irreversible ≤ ·.num)).map blockInfo =
          status.blocks.filter (net.client.irreversible ≤ ·.num) := by
  have hrun : (Net.run (·.eosioBlock.id) false
      (Net.connect false (Log.run (·.eosioBlock.id) {} forkStorage) {}) forkEvents).any (fun net =>
        Distinguished net.held ∧ net.toClient = [] ∧
          net.results = [.appended, .appended, .appended, .appended] ∧
          net.status.any (fun status => status.blocks.map (·.id) = [[1], [4]])) = true := by
    decide +kernel
  obtain ⟨net, hnet, hall⟩ := (Option.any_eq_true _ _).mp hrun
  obtain ⟨hheld, hempty, hresults, hstatus⟩ := of_decide_eq_true hall
  obtain ⟨status, hstatus, hids⟩ := (Option.any_eq_true _ _).mp hstatus
  have hallowed : ∀ operation ∈ forkStorage, Allowed operation := by decide +kernel
  have hchanges : ∀ operation, .change operation ∈ forkEvents → Allowed operation := by
    simp only [forkEvents, List.mem_cons, List.not_mem_nil, Event.change.injEq, reduceCtorEq,
      false_or, or_false]
    rintro operation (rfl | rfl | rfl)
    · decide
    · decide
    · decide
  have hreachable := reachable_run (.connect hallowed (connects_empty _)) hchanges hnet
  obtain ⟨hclosed, _, _, hsynchronised⟩ := client_synchronised hreachable hheld
  exact ⟨net, hreachable, hheld, hclosed, hresults, status, hstatus, of_decide_eq_true hids,
    (hsynchronised hempty status hstatus).1⟩

/-- A client considers eosio block 0 as irreversible, which the server does not if the number after
the irreversible one is 0. -/
theorem block_zero_marked :
    Connects (Log.run (·.eosioBlock.id) {} [.addBlock (sampleBlock 0 [1]) (2 ^ 32 - 1)]) {} ∧
      ∃ net, Net.run (·.eosioBlock.id) false
          (Net.connect false
            (Log.run (·.eosioBlock.id) {} [.addBlock (sampleBlock 0 [1]) (2 ^ 32 - 1)]) {})
          [.receiveStatus, .receiveMessage] = some net ∧
        net.toClient = [] ∧ net.client.irreversible = 1 ∧ net.storage.irreversible = 0 := by
  have hrun : (Net.run (·.eosioBlock.id) false
      (Net.connect false
        (Log.run (·.eosioBlock.id) {} [.addBlock (sampleBlock 0 [1]) (2 ^ 32 - 1)]) {})
      [.receiveStatus, .receiveMessage]).any (fun net =>
        net.toClient = [] ∧ net.client.irreversible = 1 ∧ net.storage.irreversible = 0) = true := by
    decide +kernel
  obtain ⟨net, hnet, hall⟩ := (Option.any_eq_true _ _).mp hrun
  exact ⟨connects_empty _, net, hnet, of_decide_eq_true hall⟩

end Eden.SynchronisedRuns
