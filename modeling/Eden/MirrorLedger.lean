import Eden.HostFunctions
import Eden.MirrorHandlers
import Eden.Postings

/-!
The books of the micro chain: the balances and the history of their changes agree, whatever blocks
it filters.
-/

namespace Eden.MirrorLedger

open Eden.ExceptReasoning
open Eden.ObjectTable
open Eden.ObjectTable.Objects
open Eden.ChainPrimitives
open Eden.ContractState
open Eden.Runtime
open Eden.AccountTables
open Eden.MirrorTables
open Eden.MirrorHandlers
open Eden.HostFunctions
open Eden.Postings

/-- The two records of one transfer. -/
structure Twins (o twin : BalanceHistoryObject) : Prop where
  account : o.account = twin.otherAccount
  otherAccount : o.otherAccount = twin.account
  delta : o.delta = twin.delta.neg

/-- Each record of the history stands next to its twin. -/
def Paired (history : List BalanceHistoryObject) : Prop :=
  ∃ pairs : List (BalanceHistoryObject × BalanceHistoryObject),
    history = pairs.flatMap (fun pair => [pair.1, pair.2]) ∧ ∀ pair ∈ pairs, Twins pair.1 pair.2

def deltaOf (o : BalanceHistoryObject) : Int := o.delta.amount

def amountOf (o : BalanceObject) : Int := o.amount.amount

noncomputable def balanceBook (db : Database) : Name →₀ Int :=
  posted BalanceObject.account amountOf db.balances.rows

noncomputable def historyBook (db : Database) : Name →₀ Int :=
  posted BalanceHistoryObject.account deltaOf db.balanceHistory

structure Ledger (db : Database) : Prop where
  paired : Paired db.balanceHistory
  balanced : balanceBook db = historyBook db

theorem ledger_empty {db : Database} (hbalances : db.balances = ∅)
    (hhistory : db.balanceHistory = []) : Ledger db where
  paired := ⟨[], hhistory, by simp⟩
  balanced := by
    rw [balanceBook, historyBook, hbalances, hhistory]
    rfl

theorem Ledger.same {db db' : Database} (hl : Ledger db) (hbalances : db'.balances = db.balances)
    (hhistory : db'.balanceHistory = db.balanceHistory) : Ledger db' where
  paired := hhistory ▸ hl.paired
  balanced := by
    rw [balanceBook, historyBook, hbalances, hhistory]
    exact hl.balanced

/-! ### The sum of a paired history -/

theorem paired_append {history : List BalanceHistoryObject} {o twin : BalanceHistoryObject}
    (h : Paired history) (htwins : Twins o twin) : Paired (history ++ [o, twin]) := by
  obtain ⟨pairs, rfl, hall⟩ := h
  refine ⟨pairs ++ [(o, twin)], by simp, ?_⟩
  intro pair hpair
  rcases List.mem_append.mp hpair with hold | hnew
  · exact hall pair hold
  · rw [List.mem_singleton.mp hnew]
    exact htwins

theorem paired_map {history : List BalanceHistoryObject}
    {f : BalanceHistoryObject → BalanceHistoryObject} (h : Paired history)
    (hf : ∀ o twin, Twins o twin → Twins (f o) (f twin)) : Paired (history.map f) := by
  obtain ⟨pairs, rfl, hall⟩ := h
  refine ⟨pairs.map fun pair => (f pair.1, f pair.2), ?_, ?_⟩
  · rw [List.map_flatMap, List.flatMap_map]
    rfl
  · intro pair hpair
    obtain ⟨old, hold, rfl⟩ := List.mem_map.mp hpair
    exact hf _ _ (hall old hold)

theorem paired_sum {history : List BalanceHistoryObject} (h : Paired history) :
    (history.map deltaOf).sum = 0 := by
  obtain ⟨pairs, rfl, hall⟩ := h
  induction pairs with
  | nil => rfl
  | cons pair pairs ih =>
      have hrest := ih fun twin htwin => hall twin (List.mem_cons_of_mem _ htwin)
      have hpair := (hall pair List.mem_cons_self).delta
      have hdelta : deltaOf pair.1 = -deltaOf pair.2 := by
        rw [deltaOf, hpair]
        rfl
      rw [List.flatMap_cons, List.map_append, List.sum_append, hrest]
      simp [hdelta]

/-! ### Transfers -/

theorem addBalance_books {db db' : Database} {account : Name} {delta amount : Asset}
    (h : MirrorTables.addBalance db account delta = .ok (amount, db')) :
    balanceBook db' = balanceBook db + Finsupp.single account delta.amount ∧
      db'.balanceHistory = db.balanceHistory := by
  unfold MirrorTables.addBalance at h
  cases hfind : db.balances.find? account with
  | some row =>
      rw [hfind] at h
      obtain ⟨new, hadd, h⟩ := bind_eq_ok.mp h
      cases h
      obtain ⟨-, -, -, hnew⟩ := Asset.add_eq_ok.mp hadd
      have hdelta : amountOf { row with amount := amount } = amountOf row + delta.amount := by
        rw [amountOf, ← hnew]
        rfl
      have hsame : ∀ row : BalanceObject, { row with amount := amount }.account = row.account :=
        fun _ => rfl
      exact ⟨posted_modify hsame hfind hdelta, rfl⟩
  | none =>
      rw [hfind] at h
      obtain ⟨balances, hemplace, h⟩ := bind_eq_ok.mp h
      cases h
      exact ⟨posted_emplace? (expect_eq_ok.mp hemplace), rfl⟩

theorem ledger_transferFunds {db db' : Database} {time : Nat} {sender receiver : Name}
    {amount : Asset} {description : HistoryDesc}
    (h : transferFunds db time sender receiver amount description = .ok db') (hl : Ledger db) :
    Ledger db' := by
  obtain ⟨⟨newSender, db₁⟩, hsender, h⟩ := bind_eq_ok.mp h
  obtain ⟨⟨newReceiver, db₂⟩, hreceiver, h⟩ := bind_eq_ok.mp h
  obtain ⟨hbook₁, hhistory₁⟩ := addBalance_books hsender
  obtain ⟨hbook₂, hhistory₂⟩ := addBalance_books hreceiver
  have hhistory := hhistory₂.trans hhistory₁
  cases h
  constructor
  · show Paired (db₂.balanceHistory ++ _)
    rw [hhistory]
    refine paired_append hl.paired ?_
    constructor
    · rfl
    · rfl
    · rfl
  · calc balanceBook db₂
        = historyBook db + Finsupp.single sender amount.neg.amount +
            Finsupp.single receiver amount.amount := by rw [hbook₂, hbook₁, hl.balanced]
      _ = _ := by
        simp only [historyBook, hhistory, posted_append, posted_cons, posted_nil, deltaOf]
        abel

/-- A handler that changes other tables. -/
theorem ledger_of_bind {α : Type} {x : Outcome α} {g : α → Database} {db' : Database}
    (h : (x >>= fun a => pure (g a)) = .ok db') (hg : ∀ a, Ledger (g a)) : Ledger db' := by
  obtain ⟨a, -, hpure⟩ := bind_eq_ok.mp h
  cases hpure
  exact hg a

/-! ### Renaming -/

theorem twins_renameHistory {oldAccount newAccount : Name} {o twin : BalanceHistoryObject}
    (h : Twins o twin) :
    Twins (renameHistory oldAccount newAccount o) (renameHistory oldAccount newAccount twin) where
  account := congrArg (renamed oldAccount newAccount) h.account
  otherAccount := congrArg (renamed oldAccount newAccount) h.otherAccount
  delta := h.delta

/-- Both books rename their accounts, and no two balances become one. -/
theorem ledger_rename {db db' : Database} {oldAccount newAccount : Name}
    (h : rename oldAccount newAccount db = .ok db') (hl : Ledger db) : Ledger db' := by
  simp only [rename, bind_eq_ok, expect_eq_ok, pure_eq_ok] at h
  obtain ⟨status, -, balances, hbalances, keys, -, members, -, votes, -, funds, -, rfl⟩ := h
  constructor
  · exact paired_map hl.paired fun _ _ => twins_renameHistory
  · have hrows : balances.rows = db.balances.rows.map fun o =>
        if o.account = oldAccount then { o with account := newAccount } else o :=
      ofRows?_eq_some.mp hbalances
    have hbook : posted BalanceObject.account amountOf balances.rows =
        (balanceBook db).mapDomain (renamed oldAccount newAccount) := by
      rw [hrows]
      apply posted_map
      · intro o _
        rw [renamed]
        split
        · rfl
        · rfl
      · intro o _
        split
        · rfl
        · rfl
    have hhistory : posted BalanceHistoryObject.account deltaOf
          (db.balanceHistory.map (renameHistory oldAccount newAccount)) =
        (historyBook db).mapDomain (renamed oldAccount newAccount) :=
      posted_map (fun _ _ => rfl) fun _ _ => rfl
    show posted BalanceObject.account amountOf balances.rows = posted _ _ _
    rw [hbook, hl.balanced, ← hhistory]

/-! ### Actions, notifications and events -/

theorem ledger_handleEvent {p : Platform} {time : Nat} {db db' : Database} {e : Event}
    (h : handleEvent p time db e = .ok db') (hl : Ledger db) : Ledger db' := by
  have hsame : ∀ {db' : Database}, db'.balances = db.balances →
      db'.balanceHistory = db.balanceHistory → Ledger db' := fun {_} => hl.same
  cases e with
  | distributionReserve distributionTime pool targetAmount =>
      simp only [handleEvent, bind_eq_ok, pure_eq_ok] at h
      obtain ⟨distributions, -, db₁, htransfer, rfl⟩ := h
      exact (ledger_transferFunds htransfer hl).same rfl rfl
  | distributionReturnExcess distributionTime pool amount =>
      exact ledger_transferFunds h hl
  | distributionReturn owner distributionTime rank amount pool =>
      obtain ⟨db₁, htransfer, h⟩ := bind_eq_ok.mp h
      simp only [spendFund, bind_eq_ok, pure_eq_ok] at h
      obtain ⟨fund, -, balance, -, funds, -, rfl⟩ := h
      exact (ledger_transferFunds htransfer hl).same rfl rfl
  | electionCreateGroup electionTime round voters =>
      simp only [handleEvent, createGroup, bind_eq_ok, pure_eq_ok] at h
      obtain ⟨firstMember, -, groups, -, votes, -, rfl⟩ := h
      exact hsame rfl rfl
  | electionReportGroup electionTime round winner votes =>
      simp only [handleEvent, reportGroup, bind_eq_ok, pure_eq_ok] at h
      obtain ⟨firstMember, -, groups, -, votes, -, rfl⟩ := h
      exact hsame rfl rfl
  | electionEnd electionTime =>
      simp only [handleEvent, endElection, clearParticipating, bind_eq_ok, pure_eq_ok] at h
      obtain ⟨election, -, status, -, rfl⟩ := h
      exact hsame rfl rfl
  | _ =>
      first
        | exact ledger_of_bind h fun _ => hsame rfl rfl
        | cases h; exact hsame rfl rfl

theorem ledger_notifyTransfer {p : Platform} {tokenAccount : Name} {time : Nat} {f f' : Filter}
    {sender receiver : Name} {quantity : Asset}
    (h : notifyTransfer p tokenAccount time f sender receiver quantity = .ok f')
    (hl : Ledger f.db) : Ledger f'.db := by
  unfold notifyTransfer at h
  split at h
  · obtain ⟨db₁, hdeposit, h⟩ := bind_eq_ok.mp h
    have hl₁ := ledger_transferFunds hdeposit hl
    split at h
    · cases h
      exact hl₁
    · obtain ⟨db₂, hfund, h⟩ := bind_eq_ok.mp h
      cases h
      exact ledger_transferFunds hfund hl₁
  · split at h
    · obtain ⟨db₁, hwithdraw, h⟩ := bind_eq_ok.mp h
      cases h
      exact ledger_transferFunds hwithdraw hl
    · obtain ⟨db₁, hspend, h⟩ := bind_eq_ok.mp h
      obtain ⟨db₂, hwithdraw, h⟩ := bind_eq_ok.mp h
      cases h
      exact ledger_transferFunds hwithdraw (ledger_transferFunds hspend hl)

/-- The handlers that `dispatch` lifts change the database only. -/
theorem ledger_of_lift {x : Outcome Database} {f f' : Filter}
    (h : x.map (fun db => { f with db := db }) = .ok f')
    (hx : ∀ db', x = .ok db' → Ledger db') : Ledger f'.db := by
  cases hdb : x with
  | error e =>
      rw [hdb] at h
      cases h
  | ok db' =>
      rw [hdb] at h
      cases h
      exact hx db' hdb

theorem ledger_dispatch {p : Platform} {time : Nat} {f f' : Filter} {a : Action}
    (h : dispatch p time f a = .ok f') (hl : Ledger f.db) : Ledger f'.db := by
  have hsame : ∀ {db' : Database}, db'.balances = f.db.balances →
      db'.balanceHistory = f.db.balanceHistory → Ledger db' := fun {_} => hl.same
  cases a with
  | withdraw owner quantity =>
      simp only [dispatch, MirrorHandlers.withdraw, bind_eq_ok, pure_eq_ok] at h
      obtain ⟨-, -, rfl⟩ := h
      exact hl
  | donate payer quantity => exact ledger_of_lift h fun _ hdb => ledger_transferFunds hdb hl
  | usertransfer sender receiver amount memo =>
      exact ledger_of_lift h fun _ hdb => ledger_transferFunds hdb hl
  | fundtransfer sender distributionTime rank receiver amount memo =>
      refine ledger_of_lift h fun db' hdb => ?_
      obtain ⟨db₁, htransfer, hdb⟩ := bind_eq_ok.mp hdb
      simp only [spendFund, bind_eq_ok, pure_eq_ok] at hdb
      obtain ⟨fund, -, balance, -, funds, -, rfl⟩ := hdb
      exact (ledger_transferFunds htransfer hl).same rfl rfl
  | genesis =>
      refine ledger_of_lift h fun db' hdb => ?_
      simp only [MirrorHandlers.genesis, bind_eq_ok, pure_eq_ok] at hdb
      obtain ⟨-, -, inductions, -, rfl⟩ := hdb
      exact hsame rfl rfl
  | addtogenesis newmember expiration =>
      refine ledger_of_lift h fun db' hdb => ?_
      simp only [MirrorHandlers.addtogenesis, bind_eq_ok, pure_eq_ok] at hdb
      obtain ⟨status, -, inductions, -, rfl⟩ := hdb
      exact hsame rfl rfl
  | clearall =>
      cases h
      exact ledger_empty rfl rfl
  | inductinit id inviter invitee witnesses =>
      refine ledger_of_lift h fun db' hdb => ?_
      simp only [MirrorHandlers.inductinit, bind_eq_ok, pure_eq_ok] at hdb
      obtain ⟨status, -, inductions, -, rfl⟩ := hdb
      exact hsame rfl rfl
  | inductprofil id profile =>
      exact ledger_of_lift h fun _ hdb => ledger_of_bind hdb fun _ => hsame rfl rfl
  | inductvideo account id video =>
      exact ledger_of_lift h fun _ hdb => ledger_of_bind hdb fun _ => hsame rfl rfl
  | inductdonate payer id quantity =>
      refine ledger_of_lift h fun db' hdb => ?_
      simp only [MirrorHandlers.inductdonate, bind_eq_ok, pure_eq_ok] at hdb
      obtain ⟨induction, -, video, -, members, -, db₁, htransfer, rfl⟩ := hdb
      exact (ledger_transferFunds htransfer (hsame rfl rfl)).same rfl rfl
  | inductendors account id hash =>
      exact ledger_of_lift h fun _ hdb => ledger_of_bind hdb fun _ => hsame rfl rfl
  | rename account newAccount => exact ledger_of_lift h fun _ hdb => ledger_rename hdb hl
  | electopt voter participating =>
      refine ledger_of_lift h fun db' hdb => ?_
      simp only [MirrorHandlers.electopt, bind_eq_ok, pure_eq_ok] at hdb
      obtain ⟨members, -, status, -, rfl⟩ := hdb
      exact hsame rfl rfl
  | electvote round voter candidate =>
      refine ledger_of_lift h fun db' hdb => ?_
      simp only [MirrorHandlers.electvote, bind_eq_ok, pure_eq_ok] at hdb
      obtain ⟨election, -, votes, -, rfl⟩ := hdb
      exact hsame rfl rfl
  | electvideo round voter video =>
      cases h
      show Ledger (MirrorHandlers.electvideo f.db round voter video)
      unfold MirrorHandlers.electvideo
      split
      · exact hl
      · exact hsame rfl rfl
  | setencpubkey member key =>
      exact ledger_of_lift h fun _ hdb => ledger_of_bind hdb fun _ => hsame rfl rfl
  | _ =>
      cases h
      exact hsame rfl rfl

theorem ledger_handle {p : Platform} {tokenAccount : Name} {time : Nat} {f f' : Filter}
    {trace : Trace} (h : handle p tokenAccount time f trace = .ok f') (hl : Ledger f.db) :
    Ledger f'.db := by
  cases trace with
  | executed e =>
      cases e with
      | action a => exact ledger_dispatch h hl
      | transfer sender receiver quantity memo => exact ledger_notifyTransfer h hl
      | events batch =>
          obtain ⟨db', hbatch, hpure⟩ := bind_eq_ok.mp h
          cases hpure
          exact foldlM_preserves Ledger (fun _ _ _ => ledger_handleEvent) batch hbatch hl
      | external =>
          cases h
          exact hl
  | run verbs =>
      exact foldlM_preserves (fun f : Filter => Ledger f.db) (fun _ _ _ => ledger_dispatch) verbs h hl
  | manualTransfer =>
      simp only [handle, MirrorHandlers.transfer, bind_eq_ok, pure_eq_ok] at h
      obtain ⟨-, -, rfl⟩ := h
      exact hl
  | logmint m =>
      obtain ⟨db', hmint, hpure⟩ := bind_eq_ok.mp h
      cases hpure
      unfold logmint at hmint
      split at hmint
      · cases hmint
        exact hl
      · obtain ⟨value, -, hmint⟩ := bind_eq_ok.mp hmint
        cases value with
        | none =>
            cases hmint
            exact hl
        | some value =>
            simp only [bind_eq_ok, pure_eq_ok] at hmint
            obtain ⟨-, -, member, -, nfts, -, rfl⟩ := hmint
            exact hl.same rfl rfl
  | logtransfer collectionName receiver assetIds =>
      cases h
      show Ledger (logtransfer p f.db collectionName receiver assetIds)
      unfold logtransfer
      split
      · exact hl
      · exact hl.same rfl rfl

theorem ledger_filterTransaction {p : Platform} {tokenAccount : Name} {time : Nat} {f f' : Filter}
    {actions : List Trace} (h : filterTransaction p tokenAccount time f actions = .ok f')
    (hl : Ledger f.db) : Ledger f'.db := by
  simp only [filterTransaction, bind_eq_ok, pure_eq_ok] at h
  obtain ⟨f₁, hactions, -, -, rfl⟩ := h
  exact foldlM_preserves (fun f : Filter => Ledger f.db) (fun _ _ _ => ledger_handle) actions
    hactions hl

theorem ledger_filterBlock {p : Platform} {tokenAccount : Name} {db db' : Database} {block : Block}
    (h : filterBlock p tokenAccount db block = .ok db') (hl : Ledger db) : Ledger db' := by
  obtain ⟨f, htransactions, hpure⟩ := bind_eq_ok.mp h
  cases hpure
  exact foldlM_preserves (fun f : Filter => Ledger f.db) (fun _ _ _ => ledger_filterTransaction)
    block.transactions htransactions hl

theorem ledger_filterBlocks {p : Platform} {tokenAccount : Name} {db db' : Database}
    {blocks : List Block} (h : filterBlocks p tokenAccount db blocks = .ok db') (hl : Ledger db) :
    Ledger db' :=
  foldlM_preserves Ledger (fun _ _ _ => ledger_filterBlock) blocks h hl

/-! ### What the books say -/

theorem Ledger.zero {db : Database} (hl : Ledger db) :
    (db.balances.rows.map amountOf).sum = 0 := by
  calc (db.balances.rows.map amountOf).sum
      = total (balanceBook db) := (total_posted _).symm
    _ = total (historyBook db) := by rw [hl.balanced]
    _ = (db.balanceHistory.map deltaOf).sum := total_posted _
    _ = 0 := paired_sum hl.paired

theorem Ledger.account {db : Database} (hl : Ledger db) (account : Name) :
    ((db.balanceHistory.filter fun o => o.account = account).map deltaOf).sum =
      ((db.balances.find? account).map amountOf).getD 0 := by
  calc ((db.balanceHistory.filter fun o => o.account = account).map deltaOf).sum
      = historyBook db account := (posted_apply _ account).symm
    _ = balanceBook db account := by rw [hl.balanced]
    _ = ((db.balances.find? account).map amountOf).getD 0 := posted_find? _ account

/-- Alice deposits, becomes bob and withdraws. -/
def aliceToBob : List Block :=
  [{ timestamp := 1000000
     transactions := [[.executed (.action (.genesis ['E', 'd', 'e', 'n'] eosSymbol (eos 100)
      [alice.name] ['Q', 'm'] (eos 1) 3600 3 ['1', '2', ':', '0', '0']))]] },
    { timestamp := 1000010
      transactions := [[.executed (.transfer alice.name host.self (eos 1000) [])],
        [.executed (.action (.rename alice.name bob.name)),
          .executed (.action (.withdraw bob.name (eos 400))),
          .executed (.transfer host.self bob.name (eos 400) [])]] }]

end Eden.MirrorLedger
