import Eden.HostFunctions
import Eden.IndexWalks
import Eden.Maintenance

/-!
The end of auctions. The market keeps an index of its auctions by assets; the search for an auction
of the contract reads on to the end of this index unless a row stops it. A tracked auction that has
ended without a bidder is cancelled, and its asset stays with the contract.
-/

namespace Eden.AuctionSettlement

open Eden.ExceptReasoning
open Eden.SortedTable
open Eden.IndexWalks
open Eden.ChainPrimitives
open Eden.ContractState
open Eden.Runtime
open Eden.Maintenance
open Eden.HostFunctions

variable {p : Platform} {env : Env} {s s' : State} {auction : Auction}

/-- `current_time` -/
def currentTime (s : State) : Nat := secOfTimePoint (toTimePoint s.now)

/-- The known end of an auction has passed. -/
def isDue (now : Nat) (auction : Auction) : Bool := auction.lastKnownEndTime < now

/-- `finish_auctions` with its iterator over the index `bytime`, which moves on before the row that
it leaves is erased or modified. -/
def finishByTime (p : Platform) (env : Env) (s : State) (maxSteps : Nat) : Outcome (Nat × State) :=
  walk State.auctions Auction.lastKnownEndTime (isDue (currentTime s)) (finishAuction p env)
    (.undefined "end_time_idx") maxSteps
    ((s.auctions.index Auction.lastKnownEndTime).head?.map Auction.assetId) s

/-- The auctions that are handled: those whose known end has passed, the earliest ones first, up to
the number of steps. -/
def handled (s : State) (maxSteps : Nat) : List Auction :=
  (dueRows s.auctions Auction.lastKnownEndTime (isDue (currentTime s))).take maxSteps

/-! ### The walk -/

/-- An auction that is handled leaves the table, or its known end has not passed any more. -/
theorem retires_finishAuction (hmem : auction ∈ s.auctions.rows)
    (h : finishAuction p env s auction = .ok s') :
    s'.now = s.now ∧ Retires (isDue (currentTime s)) auction s.auctions s'.auctions := by
  have hkey : ∀ b ∈ s.auctions.rows, b ≠ auction → b.assetId ≠ auction.assetId :=
    fun b hb hne hsame => hne (Table.eq_of_key_eq hb hmem hsame)
  have herase : Retires (isDue (currentTime s)) auction s.auctions
      (s.auctions.erase auction.assetId) := by
    refine ⟨fun b hb hne => Table.mem_erase.mpr ⟨hb, hkey b hb hne⟩, fun b hb _ => ?_⟩
    obtain ⟨hb, hne⟩ := Table.mem_erase.mp hb
    exact ⟨hb, fun hsame => hne (hsame ▸ rfl)⟩
  simp only [finishAuction, bind_eq_ok] at h
  obtain ⟨found, -, h⟩ := h
  split at h
  · cases h
    exact ⟨rfl, herase⟩
  · split at h
    · cases h
      exact ⟨rfl, herase⟩
    · split at h
      · split at h
        · cases h
          exact ⟨rfl, herase⟩
        · cases h
          exact ⟨rfl, herase⟩
      · rename_i a hlater
        cases h
        refine ⟨rfl, fun b hb hne => ?_, fun b hb hdue => ?_⟩
        · exact Table.mem_replace.mpr (.inl ⟨hb, hkey b hb hne⟩)
        · rcases Table.mem_replace.mp hb with ⟨hb, hne⟩ | ⟨rfl, -⟩
          · exact ⟨hb, fun hsame => hne (hsame ▸ rfl)⟩
          · exact absurd (of_decide_eq_true hdue) hlater

theorem initial_isDue (now : Nat) : Initial Auction.lastKnownEndTime (isDue now) := by
  intro a b hle hdue
  exact decide_eq_true (hle.trans_lt (of_decide_eq_true hdue))

/-- The walk handles each of the auctions once. -/
theorem finishByTime_eq (p : Platform) (env : Env) (s : State) (maxSteps : Nat) :
    finishByTime p env s maxSteps = (handled s maxSteps).foldlM (finishAuction p env) s >>=
      fun s' => pure (maxSteps - (handled s maxSteps).length, s') := by
  refine walk_eq (initial_isDue _) _ (fun t => t.now = s.now) ?_ maxSteps rfl
    (atFirst_head (initial_isDue _) s.auctions)
  intro t auction t' hnow hmem hok
  obtain ⟨hnow', hretires⟩ := retires_finishAuction hmem hok
  rw [currentTime, hnow] at hretires
  exact ⟨hnow'.trans hnow, hretires⟩

/-- The loop over the list of auctions that are tracked at first does the same. -/
theorem finishByTime_eq_finishAuctions (p : Platform) (env : Env) (s : State) (maxSteps : Nat) :
    finishByTime p env s maxSteps = finishAuctions p env s maxSteps := by
  have hloop : ∀ rows : List Auction,
      rows.Pairwise (fun a b => a.lastKnownEndTime ≤ b.lastKnownEndTime) → ∀ n t, t.now = s.now →
      finishAuctionsFrom p env rows n t =
        ((rows.filter (isDue (currentTime s))).take n).foldlM (finishAuction p env) t >>=
          fun t' => pure (n - ((rows.filter (isDue (currentTime s))).take n).length, t') := by
    intro rows hrows
    induction rows with
    | nil =>
        intro n t ht
        cases n <;> rfl
    | cons auction rest ih =>
        obtain ⟨hfirst, hrest⟩ := List.pairwise_cons.mp hrows
        intro n t ht
        cases n with
        | zero => rfl
        | succ n =>
            have htime : secOfTimePoint (toTimePoint t.now) = currentTime s := by
              rw [ht, currentTime]
            rw [finishAuctionsFrom, htime]
            by_cases hdue : auction.lastKnownEndTime < currentTime s
            · have hfilter : (auction :: rest).filter (isDue (currentTime s)) =
                  auction :: rest.filter (isDue (currentTime s)) :=
                List.filter_cons_of_pos (decide_eq_true hdue)
              rw [if_pos hdue, hfilter, List.take_succ_cons, List.foldlM_cons]
              cases hok : finishAuction p env t auction with
              | error e => rfl
              | ok t' =>
                  have ht' : t'.now = s.now := by
                    obtain ⟨o, auctions, -, rfl⟩ := finishAuction_eq_ok hok
                    exact ht
                  change finishAuctionsFrom p env rest n t' = _
                  rw [ih hrest n t' ht', List.length_cons, Nat.succ_sub_succ]
                  rfl
            · have hnone : (auction :: rest).filter (isDue (currentTime s)) = [] := by
                rw [List.filter_eq_nil_iff]
                intro b hb hdueb
                have hbefore : b.lastKnownEndTime < currentTime s := of_decide_eq_true hdueb
                rcases List.mem_cons.mp hb with rfl | hb
                · exact hdue hbefore
                · exact hdue ((hfirst b hb).trans_lt hbefore)
              rw [if_neg hdue, hnone]
              rfl
  rw [finishByTime_eq, finishAuctions]
  exact (hloop _ (s.auctions.index_pairwise Auction.lastKnownEndTime) maxSteps s rfl).symm

/-- No auction is handled twice. -/
theorem handled_nodup (s : State) (maxSteps : Nat) :
    ((handled s maxSteps).map Auction.assetId).Nodup := by
  have hsub : (handled s maxSteps).Sublist (s.auctions.index Auction.lastKnownEndTime) :=
    (List.take_sublist _ _).trans List.filter_sublist
  refine List.Nodup.sublist (hsub.map Auction.assetId) ?_
  exact ((s.auctions.index_perm Auction.lastKnownEndTime).map Auction.assetId).nodup_iff.mpr
    s.auctions.nodup_keys

theorem handled_earliest (s : State) (maxSteps : Nat) :
    (handled s maxSteps).Pairwise fun a b => a.lastKnownEndTime ≤ b.lastKnownEndTime :=
  ((dueRows_precedes s.auctions Auction.lastKnownEndTime _).imp Precedes.le).sublist
    (List.take_sublist _ _)

/-! ### The search -/

/-- The row at which the search for an asset ends: it has other assets, or the contract sells
it. -/
def searchEnd (p : Platform) (market : List MarketAuction) (assetId : Nat) :
    Option MarketAuction :=
  (marketFrom market (assetKey p assetId)).find? fun a => a.assetIds ≠ [assetId] ∨ a.seller = p.self

theorem searchMarket_eq (p : Platform) (assetId : Nat) (rows : List MarketAuction) :
    searchMarket p assetId rows =
      match rows.find? fun a => a.assetIds ≠ [assetId] ∨ a.seller = p.self with
      | none => .error (.undefined "byassets.end()")
      | some a => .ok (if a.assetIds = [assetId] then some a else none) := by
  induction rows with
  | nil => rfl
  | cons a rows ih =>
      rw [searchMarket]
      by_cases hother : a.assetIds = [assetId]
      · by_cases hseller : a.seller = p.self
        · simp [hother, hseller]
        · simp [hother, hseller, ih]
      · simp [hother]

theorem mem_marketFrom {market : List MarketAuction} {key : Checksum} {a : MarketAuction} :
    a ∈ marketFrom market key ↔ a ∈ market ∧ bigEndian key ≤ bigEndian a.byAssets := by
  have hsorted : (market.insertionSort fun a b =>
      bigEndian a.byAssets ≤ bigEndian b.byAssets).Pairwise
        fun a b => bigEndian a.byAssets ≤ bigEndian b.byAssets := by
    have : Std.Total (fun a b : MarketAuction => bigEndian a.byAssets ≤ bigEndian b.byAssets) :=
      ⟨fun a b => le_total _ _⟩
    have : IsTrans MarketAuction fun a b => bigEndian a.byAssets ≤ bigEndian b.byAssets :=
      ⟨fun _ _ _ => le_trans⟩
    exact List.pairwise_insertionSort _ _
  have hmem : ∀ b, b ∈ market ↔
      b ∈ market.insertionSort fun a b => bigEndian a.byAssets ≤ bigEndian b.byAssets :=
    fun b => (List.mem_insertionSort _).symm
  rw [marketFrom, hmem]
  generalize (market.insertionSort fun a b => bigEndian a.byAssets ≤ bigEndian b.byAssets) = rows
    at hsorted
  induction rows with
  | nil => simp
  | cons b rows ih =>
      obtain ⟨hb, hrows⟩ := List.pairwise_cons.mp hsorted
      by_cases hbelow : bigEndian b.byAssets < bigEndian key
      · have hdrop : (b :: rows).dropWhile (fun a => bigEndian a.byAssets < bigEndian key) =
            rows.dropWhile fun a => bigEndian a.byAssets < bigEndian key :=
          List.dropWhile_cons_of_pos (decide_eq_true hbelow)
        rw [hdrop, List.mem_cons]
        refine (ih hrows).trans ?_
        constructor
        · exact fun h => ⟨.inr h.1, h.2⟩
        · rintro ⟨rfl | hmem, hle⟩
          · exact absurd hle (not_le.mpr hbelow)
          · exact ⟨hmem, hle⟩
      · have hdrop : (b :: rows).dropWhile (fun a => bigEndian a.byAssets < bigEndian key) =
            b :: rows := List.dropWhile_cons_of_neg (by simpa using hbelow)
        rw [hdrop]
        refine (and_iff_left_of_imp fun hmem => ?_).symm
        rcases List.mem_cons.mp hmem with rfl | hmem
        · exact not_lt.mp hbelow
        · exact (not_lt.mp hbelow).trans (hb a hmem)

/-- The turn for an auction fails exactly when no row stops its search. -/
theorem finishAuction_error {e : Abort} : finishAuction p env s auction = .error e ↔
    searchEnd p env.market auction.assetId = none ∧ e = .undefined "byassets.end()" := by
  rw [finishAuction, searchMarket_eq, searchEnd]
  cases hfound : (marketFrom env.market (assetKey p auction.assetId)).find? fun a =>
      a.assetIds ≠ [auction.assetId] ∨ a.seller = p.self with
  | none =>
      simp only [true_and]
      constructor
      · intro h
        exact (Except.error.inj h).symm
      · rintro rfl
        rfl
  | some a =>
      simp only [reduceCtorEq, false_and, iff_false]
      change (match (if a.assetIds = [auction.assetId] then some a else none) with
        | none => _
        | some a => _ : Outcome State) ≠ _
      split
      · exact pure_ne_error
      · split
        · exact pure_ne_error
        · split
          · split <;> exact pure_ne_error
          · exact pure_ne_error

/-- The turns for some auctions all succeed when a row stops each search, and fail at the end of the
index otherwise. -/
theorem foldlM_finishAuction (l : List Auction) (s : State) :
    ((∀ auction ∈ l, searchEnd p env.market auction.assetId ≠ none) ∧
      ∃ s', l.foldlM (finishAuction p env) s = .ok s') ∨
    ((¬ ∀ auction ∈ l, searchEnd p env.market auction.assetId ≠ none) ∧
      l.foldlM (finishAuction p env) s = .error (.undefined "byassets.end()")) := by
  induction l generalizing s with
  | nil => exact .inl ⟨by simp, s, rfl⟩
  | cons auction rest ih =>
      rw [List.foldlM_cons, List.forall_mem_cons]
      cases hturn : finishAuction p env s auction with
      | error e =>
          obtain ⟨hnone, rfl⟩ := finishAuction_error.mp hturn
          exact .inr ⟨fun hall => hall.1 hnone, rfl⟩
      | ok t =>
          have hfound : searchEnd p env.market auction.assetId ≠ none := fun hnone => by
            have herror : finishAuction p env s auction = .error (.undefined "byassets.end()") :=
              finishAuction_error.mpr ⟨hnone, rfl⟩
            rw [hturn] at herror
            cases herror
          rcases ih t with ⟨hall, hok⟩ | ⟨hsome, herror⟩
          · exact .inl ⟨⟨hfound, hall⟩, hok⟩
          · exact .inr ⟨fun hall => hsome hall.2, herror⟩

/-- The search stays in range exactly when, for each auction that is handled, there is a row of the
market at or after its key that has other assets or that the contract sells. -/
theorem search_in_range_iff (p : Platform) (env : Env) (s : State) (maxSteps : Nat) :
    finishByTime p env s maxSteps ≠ .error (.undefined "byassets.end()") ↔
      ∀ auction ∈ handled s maxSteps, ∃ a ∈ env.market,
        bigEndian (assetKey p auction.assetId) ≤ bigEndian a.byAssets ∧
        (a.assetIds ≠ [auction.assetId] ∨ a.seller = p.self) := by
  have hstops : ∀ assetId, searchEnd p env.market assetId ≠ none ↔ ∃ a ∈ env.market,
      bigEndian (assetKey p assetId) ≤ bigEndian a.byAssets ∧
        (a.assetIds ≠ [assetId] ∨ a.seller = p.self) := by
    intro assetId
    rw [searchEnd, ne_eq, List.find?_eq_none]
    simp only [mem_marketFrom, decide_eq_true_eq, not_forall, not_not, exists_prop, and_assoc]
  simp only [← hstops]
  rw [finishByTime_eq]
  rcases foldlM_finishAuction (handled s maxSteps) s with ⟨hall, s', hok⟩ | ⟨hsome, herror⟩
  · rw [hok]
    exact iff_of_true pure_ne_error hall
  · rw [herror]
    exact iff_of_false (fun hne => hne rfl) hsome

/-- The contract tracks an auction whose known end has passed. -/
def tracking : State := { now := 1000000, auctions := ⟨[⟨1, 5⟩], by simp⟩ }

/-- The market has no auctions any more, and the search for a tracked one reads past its end. -/
theorem search_of_empty_market : ¬ ∀ (p : Platform) (env : Env) (s : State) (maxSteps : Nat),
    finishByTime p env s maxSteps ≠ .error (.undefined "byassets.end()") := by
  intro h
  refine h host (signedBy alice) tracking 1 ?_
  decide +kernel

/-! ### Settled auctions -/

/-- An auction of the market that sells an asset for the contract, which has not claimed its
proceeds. -/
def Offered (p : Platform) (assetId : Nat) (a : MarketAuction) : Prop :=
  a.assetIds = [assetId] ∧ a.seller = p.self ∧ a.claimedBySeller = false

instance (p : Platform) (assetId : Nat) (a : MarketAuction) : Decidable (Offered p assetId a) :=
  inferInstanceAs (Decidable (_ ∧ _))

/-- What the end of an auction asks of other contracts. -/
inductive Request
  | auctclaimsel (auctionId : Nat)
  | cancelauct (auctionId : Nat)
  | burnasset (owner : Name) (assetId : Nat)
  deriving DecidableEq, Repr

def requestOf : Executed → Option Request
  | .external (.auctclaimsel auctionId) => some (.auctclaimsel auctionId)
  | .external (.cancelauct auctionId) => some (.cancelauct auctionId)
  | _ => none

/-- A tracked auction is erased, and requests are sent; nothing else changes. -/
def Sends (auction : Auction) (requests : List Request) (s s' : State) : Prop :=
  ∃ l, l.map requestOf = requests.map some ∧
    s' = { s with
      auctions := s.auctions.erase auction.assetId
      output := { s.output with executed := s.output.executed ++ l } }

/-- A tracked auction is settled by an auction of the market. -/
def SettledBy (p : Platform) (auction : Auction) (a : MarketAuction) (s s' : State) : Prop :=
  if currentTime s ≤ a.endTime then
    s' = { s with auctions := s.auctions.replace { auction with lastKnownEndTime := a.endTime } }
  else if a.currentBidder ≠ emptyName then Sends auction [.auctclaimsel a.auctionId] s s'
  else Sends auction [.cancelauct a.auctionId, .burnasset p.self auction.assetId] s s'

/-- What is expected of the turn for a tracked auction. -/
structure SettledTurn (p : Platform) (env : Env) (auction : Auction) (s s' : State) : Prop where
  forgotten : (¬ ∃ a ∈ env.market, Offered p auction.assetId a) → Sends auction [] s s'
  settled : (∃ a ∈ env.market, Offered p auction.assetId a) →
    ∃ a ∈ env.market, Offered p auction.assetId a ∧ SettledBy p auction a s s'

/-- Turns that are all as expected. -/
def SettledTurns (p : Platform) (env : Env) : List Auction → State → State → Prop
  | [], s, s' => s' = s
  | auction :: rest, s, s' => ∃ t, finishAuction p env s auction = .ok t ∧
      SettledTurn p env auction s t ∧ SettledTurns p env rest t s'

/-- The call handles the auctions whose known end has passed, each of them once and the earliest
ones first, and each turn is as expected. -/
structure Settled (p : Platform) (env : Env) (s : State) (maxSteps : Nat) : Prop where
  once : ((handled s maxSteps).map Auction.assetId).Nodup
  earliest : (handled s maxSteps).Pairwise fun a b => a.lastKnownEndTime ≤ b.lastKnownEndTime
  turns : ∃ s', finishByTime p env s maxSteps = .ok (maxSteps - (handled s maxSteps).length, s') ∧
    SettledTurns p env (handled s maxSteps) s s'

/-- The search ends, it finds an auction of the contract that is not claimed if there is one, and
that auction has not ended without a bidder. -/
def Settleable (p : Platform) (market : List MarketAuction) (now assetId : Nat) : Prop :=
  ∃ a, searchEnd p market assetId = some a ∧
    ((∃ b ∈ market, Offered p assetId b) → Offered p assetId a) ∧
    (Offered p assetId a → a.endTime < now → a.currentBidder ≠ emptyName)

theorem searchEnd_eq_some {market : List MarketAuction} {assetId : Nat} {a : MarketAuction}
    (h : searchEnd p market assetId = some a) :
    a ∈ market ∧ (a.assetIds = [assetId] → a.seller = p.self) := by
  have hends := List.find?_some h
  rw [decide_eq_true_eq] at hends
  exact ⟨(mem_marketFrom.mp (List.mem_of_find?_eq_some h)).1, fun hsame =>
    hends.resolve_left fun hne => hne hsame⟩

/-- The turn for an auction, from the row at which its search ends. -/
theorem finishAuction_found {a : MarketAuction}
    (h : searchEnd p env.market auction.assetId = some a) : finishAuction p env s auction =
      .ok (if Offered p auction.assetId a then
        if a.endTime < currentTime s then
          perform { s with auctions := s.auctions.erase auction.assetId }
            (if a.currentBidder ≠ emptyName then .auctclaimsel a.auctionId
              else .cancelauct a.auctionId)
        else { s with
          auctions := s.auctions.replace { auction with lastKnownEndTime := a.endTime } }
      else { s with auctions := s.auctions.erase auction.assetId }) := by
  have hseller := (searchEnd_eq_some h).2
  rw [searchEnd] at h
  rw [finishAuction, searchMarket_eq, h]
  by_cases hassets : a.assetIds = [auction.assetId]
  · by_cases hclaimed : a.claimedBySeller = true
    · simp [Offered, hassets, hclaimed, Bind.bind, Except.bind, pure, Except.pure]
    · by_cases hended : a.endTime < currentTime s
      · have hended' : a.endTime < secOfTimePoint (toTimePoint s.now) := hended
        by_cases hbidder : a.currentBidder = emptyName
        · simp [Offered, hassets, hseller hassets, hclaimed, hended, hended', hbidder, Bind.bind,
            Except.bind, pure, Except.pure]
        · simp [Offered, hassets, hseller hassets, hclaimed, hended, hended', hbidder, Bind.bind,
            Except.bind, pure, Except.pure]
      · have hended' : ¬ a.endTime < secOfTimePoint (toTimePoint s.now) := hended
        simp only [Offered, hassets, hseller hassets, hclaimed, hended, hended', Bind.bind,
          Except.bind, pure, Except.pure, if_true, if_false, Bool.false_eq_true, and_self]
  · simp [Offered, hassets, Bind.bind, Except.bind, pure, Except.pure]

/-- An erased row is not a row with another end. -/
theorem erase_ne_replace (hmem : auction ∈ s.auctions.rows) (endTime : Nat) :
    s.auctions.erase auction.assetId ≠
      s.auctions.replace { auction with lastKnownEndTime := endTime } := by
  intro hsame
  have hfound := congrArg (fun t => t.find? auction.assetId) hsame
  simp only [Table.find?_erase, Table.find?_replace, Table.find?_of_mem hmem] at hfound
  simp at hfound

theorem turn_settled_iff (hmem : auction ∈ s.auctions.rows)
    (h : finishAuction p env s auction = .ok s') :
    SettledTurn p env auction s s' ↔
      Settleable p env.market (currentTime s) auction.assetId := by
  cases hend : searchEnd p env.market auction.assetId with
  | none =>
      have herror : finishAuction p env s auction = .error (.undefined "byassets.end()") :=
        finishAuction_error.mpr ⟨hend, rfl⟩
      rw [h] at herror
      cases herror
  | some a =>
      have ha : a ∈ env.market := (searchEnd_eq_some hend).1
      rw [finishAuction_found hend, Except.ok.injEq] at h
      have hiff : Settleable p env.market (currentTime s) auction.assetId ↔
          ((∃ b ∈ env.market, Offered p auction.assetId b) → Offered p auction.assetId a) ∧
          (Offered p auction.assetId a → a.endTime < currentTime s →
            a.currentBidder ≠ emptyName) := by
        rw [Settleable, hend]
        constructor
        · rintro ⟨a', ha', hsettles⟩
          cases ha'
          exact hsettles
        · exact fun hsettles => ⟨a, rfl, hsettles⟩
      rw [hiff]
      by_cases hoffered : Offered p auction.assetId a
      · rw [if_pos hoffered] at h
        have hsome : ∃ b ∈ env.market, Offered p auction.assetId b := ⟨a, ha, hoffered⟩
        by_cases hended : a.endTime < currentTime s
        · rw [if_pos hended] at h
          by_cases hbidder : a.currentBidder = emptyName
          · -- the asset is not burned
            rw [if_neg (by simpa using hbidder)] at h
            refine iff_of_false ?_ fun hall => hall.2 hoffered hended hbidder
            intro hturn
            obtain ⟨b, hb, hboffered, hby⟩ := hturn.settled hsome
            subst h
            unfold SettledBy at hby
            split at hby
            · have hlength := congrArg (fun t => t.output.executed.length) hby
              simp [perform, sendAction] at hlength
            · split at hby
              · obtain ⟨l, hl, hsame⟩ := hby
                have hexecuted := congrArg (fun t => t.output.executed) hsame
                have hlist := List.append_cancel_left hexecuted
                rw [← hlist] at hl
                simp [requestOf] at hl
              · obtain ⟨l, hl, hsame⟩ := hby
                have hexecuted := congrArg (fun t => t.output.executed) hsame
                have hlist := List.append_cancel_left hexecuted
                rw [← hlist] at hl
                simp at hl
          · rw [if_pos hbidder] at h
            refine iff_of_true ⟨fun hnone => absurd hsome hnone, fun _ => ⟨a, ha, hoffered, ?_⟩⟩
              ⟨fun _ => hoffered, fun _ _ => hbidder⟩
            rw [SettledBy, if_neg (not_le.mpr hended), if_pos hbidder]
            exact ⟨[.external (.auctclaimsel a.auctionId)], rfl, h.symm⟩
        · rw [if_neg hended] at h
          refine iff_of_true ⟨fun hnone => absurd hsome hnone, fun _ => ⟨a, ha, hoffered, ?_⟩⟩
            ⟨fun _ => hoffered, fun _ hlt => absurd hlt hended⟩
          rw [SettledBy, if_pos (not_lt.mp hended)]
          exact h.symm
      · rw [if_neg hoffered] at h
        by_cases hsome : ∃ b ∈ env.market, Offered p auction.assetId b
        · -- the search misses an auction that is there
          refine iff_of_false ?_ fun hall => hoffered (hall.1 hsome)
          intro hturn
          obtain ⟨b, hb, hboffered, hby⟩ := hturn.settled hsome
          subst h
          unfold SettledBy at hby
          split at hby
          · exact erase_ne_replace hmem b.endTime (congrArg State.auctions hby)
          · split at hby
            · obtain ⟨l, hl, hsame⟩ := hby
              have hlength := congrArg (fun t => t.output.executed.length) hsame
              have hcount := congrArg List.length hl
              simp only [List.length_append, List.length_map] at hlength hcount
              simp at hcount
              omega
            · obtain ⟨l, hl, hsame⟩ := hby
              have hlength := congrArg (fun t => t.output.executed.length) hsame
              have hcount := congrArg List.length hl
              simp only [List.length_append, List.length_map] at hlength hcount
              simp at hcount
              omega
        · refine iff_of_true ⟨fun _ => ⟨[], rfl, ?_⟩, fun hall => absurd hall hsome⟩
            ⟨fun hall => absurd hall hsome, fun hall => absurd hall hoffered⟩
          rw [List.append_nil]
          exact h.symm

theorem turns_settled_iff {l : List Auction} (hmem : ∀ auction ∈ l, auction ∈ s.auctions.rows)
    (hnodup : l.Nodup) : (∃ s', SettledTurns p env l s s') ↔
      ∀ auction ∈ l, Settleable p env.market (currentTime s) auction.assetId := by
  induction l generalizing s with
  | nil => exact iff_of_true ⟨s, rfl⟩ (by simp)
  | cons auction rest ih =>
      obtain ⟨hnew, hrest⟩ := List.nodup_cons.mp hnodup
      have hfirst := hmem auction List.mem_cons_self
      have hlater : ∀ {t}, finishAuction p env s auction = .ok t →
          ((∃ s', SettledTurns p env rest t s') ↔
            ∀ a ∈ rest, Settleable p env.market (currentTime s) a.assetId) := by
        intro t hok
        obtain ⟨hnow, hretires⟩ := retires_finishAuction hfirst hok
        have htime : currentTime t = currentTime s := by rw [currentTime, hnow, currentTime]
        rw [← htime]
        refine ih (fun a ha => hretires.kept a (hmem a (List.mem_cons_of_mem _ ha)) ?_) hrest
        rintro rfl
        exact hnew ha
      rw [List.forall_mem_cons]
      constructor
      · rintro ⟨s', t, hok, hturn, hturns⟩
        exact ⟨(turn_settled_iff hfirst hok).mp hturn, (hlater hok).mp ⟨s', hturns⟩⟩
      · rintro ⟨hsettleable, hall⟩
        obtain ⟨a, hend, -⟩ := id hsettleable
        have hok := finishAuction_found (s := s) hend
        obtain ⟨s', hturns⟩ := (hlater hok).mpr hall
        exact ⟨s', _, hok, (turn_settled_iff hfirst hok).mpr hsettleable, hturns⟩

theorem foldlM_of_turns {l : List Auction} (h : SettledTurns p env l s s') :
    l.foldlM (finishAuction p env) s = .ok s' := by
  induction l generalizing s with
  | nil =>
      cases h
      rfl
  | cons auction rest ih =>
      obtain ⟨t, hok, -, hturns⟩ := h
      rw [List.foldlM_cons]
      exact bind_eq_ok.mpr ⟨t, hok, ih hturns⟩

/-- Auctions are settled exactly when, for each one that is handled, the search ends at a row of the
market, at an auction of the asset that the contract has not claimed if there is one, and such an
auction has a bidder once it has ended. -/
theorem settled_iff (p : Platform) (env : Env) (s : State) (maxSteps : Nat) :
    Settled p env s maxSteps ↔ ∀ auction ∈ handled s maxSteps,
      Settleable p env.market (currentTime s) auction.assetId := by
  have hmem : ∀ auction ∈ handled s maxSteps, auction ∈ s.auctions.rows := fun auction hauction =>
    (mem_dueRows.mp (List.mem_of_mem_take hauction)).1
  rw [← turns_settled_iff hmem (handled_nodup s maxSteps).of_map]
  constructor
  · rintro ⟨-, -, s', -, hturns⟩
    exact ⟨s', hturns⟩
  · rintro ⟨s', hturns⟩
    refine ⟨handled_nodup s maxSteps, handled_earliest s maxSteps, s', ?_, hturns⟩
    rw [finishByTime_eq, foldlM_of_turns hturns]
    rfl

/-- An auction of the contract that has ended without a bidder. -/
def unsold : MarketAuction := ⟨7, host.self, [1], 5, emptyName, false, assetKey host 1⟩

/-- The auction is cancelled, and its asset is not burned. -/
theorem unsold_not_settled : ¬ ∀ (p : Platform) (env : Env) (s : State) (maxSteps : Nat),
    Settled p env s maxSteps := by
  intro hall
  obtain ⟨-, -, s', -, hturns⟩ := hall host { signedBy alice with market := [unsold] } tracking 1
  have hhandled : handled tracking 1 = [⟨1, 5⟩] := by decide +kernel
  rw [hhandled] at hturns
  obtain ⟨t, hok, hturn, -⟩ := hturns
  have hsent : (finishAuction host { signedBy alice with market := [unsold] } tracking
      ⟨1, 5⟩).toOption.map (fun t => t.output.executed.length) = some 1 := by
    decide +kernel
  rw [hok] at hsent
  have hone : t.output.executed.length = 1 := Option.some.inj hsent
  obtain ⟨a, ha, -, hby⟩ := hturn.settled ⟨unsold, List.mem_singleton_self _, by decide⟩
  rw [List.mem_singleton.mp ha, SettledBy, if_neg (by decide), if_neg (by decide)] at hby
  obtain ⟨l, hl, rfl⟩ := hby
  have htwo := congrArg List.length hl
  rw [List.length_map] at htwo
  rw [List.length_append, htwo] at hone
  cases hone

end Eden.AuctionSettlement
