import Eden.MirroredRuns

/-!
Renames that the contract accepts: when the micro chain accepts them too.
-/

namespace Eden.MirrorRenames

open Eden.ExceptReasoning
open Eden.SortedTable
open Eden.ObjectTable
open Eden.ObjectTable.Objects
open Eden.ChainPrimitives
open Eden.ContractState
open Eden.Runtime
open Eden.ContractActions
open Eden.Transactions
open Eden.HostFunctions
open Eden.MirrorTables
open Eden.MirrorHandlers
open Eden.MirroredRuns

/-- The micro chain knows the community, and no record of the old account has a counterpart of the
new one. -/
structure Free (db : Database) (oldAccount newAccount : Name) : Prop where
  status : db.status ≠ none
  balances : db.balances.Apart BalanceObject.account (fun _ => ()) oldAccount newAccount
  encryptionKeys :
    db.encryptionKeys.Apart EncryptionKeyObject.account (fun _ => ()) oldAccount newAccount
  members : db.members.Apart MemberObject.account (fun _ => ()) oldAccount newAccount
  votes : db.votes.Apart VoteObject.voter (fun o => (o.electionTime, o.round))
    oldAccount newAccount
  funds : db.distributionFunds.Apart DistributionFundObject.owner
    (fun o => (o.distributionTime, o.rank)) oldAccount newAccount

/-- The handler goes through exactly when no key is taken. -/
theorem rename_ok_iff {db : Database} {oldAccount newAccount : Name}
    (hne : oldAccount ≠ newAccount) :
    (∃ db', MirrorHandlers.rename oldAccount newAccount db = .ok db') ↔
      Free db oldAccount newAccount := by
  have hbalances : (∃ u, db.balances.alter? oldAccount
      (fun o => { o with account := newAccount }) = some u) ↔
      db.balances.Apart BalanceObject.account (fun _ => ()) oldAccount newAccount :=
    alter?_renamed hne (by simp) (fun _ => Iff.rfl) (fun _ => rfl) fun _ => rfl
  have hkeys : (∃ u, db.encryptionKeys.alter? oldAccount
      (fun o => { o with account := newAccount }) = some u) ↔
      db.encryptionKeys.Apart EncryptionKeyObject.account (fun _ => ()) oldAccount newAccount :=
    alter?_renamed hne (by simp) (fun _ => Iff.rfl) (fun _ => rfl) fun _ => rfl
  have hmembers : (∃ u, db.members.alterEach? (renameMember oldAccount newAccount) = some u) ↔
      db.members.Apart MemberObject.account (fun _ => ()) oldAccount newAccount :=
    alterEach?_renamed hne (by simp) (fun _ => rfl) fun _ => rfl
  have hvotes : (∃ u, db.votes.alterEach? (renameVote oldAccount newAccount) = some u) ↔
      db.votes.Apart VoteObject.voter (fun o => (o.electionTime, o.round))
        oldAccount newAccount :=
    alterEach?_renamed hne (by simp [VoteObject.byPk]) (fun _ => rfl) fun _ => rfl
  have hfunds : (∃ u, db.distributionFunds.alterEach? (renameFund oldAccount newAccount) =
      some u) ↔
      db.distributionFunds.Apart DistributionFundObject.owner
        (fun o => (o.distributionTime, o.rank)) oldAccount newAccount :=
    alterEach?_renamed hne (by simp [DistributionFundObject.byPk]) (fun _ => rfl) fun _ => rfl
  simp only [MirrorHandlers.rename, MirrorHandlers.alterEach, getStatus, bind_eq_ok, expect_eq_ok,
    pure_eq_ok]
  constructor
  · rintro ⟨db', status, hstatus, b, hb, k, hk, m, hm, v, hv, f, hf, -⟩
    exact ⟨hstatus ▸ by simp, hbalances.mp ⟨b, hb⟩, hkeys.mp ⟨k, hk⟩, hmembers.mp ⟨m, hm⟩,
      hvotes.mp ⟨v, hv⟩, hfunds.mp ⟨f, hf⟩⟩
  · intro h
    obtain ⟨status, hstatus⟩ := Option.ne_none_iff_exists'.mp h.status
    obtain ⟨b, hb⟩ := hbalances.mpr h.balances
    obtain ⟨k, hk⟩ := hkeys.mpr h.encryptionKeys
    obtain ⟨m, hm⟩ := hmembers.mpr h.members
    obtain ⟨v, hv⟩ := hvotes.mpr h.votes
    obtain ⟨f, hf⟩ := hfunds.mpr h.funds
    exact ⟨_, status, hstatus, b, hb, k, hk, m, hm, v, hv, f, hf, rfl⟩

/-- The contract renames a member to an account without a row. -/
theorem accounts_ne_of_rename {p : Platform} {env : Env} {s s' : State}
    {oldAccount newAccount : Name}
    (h : exec p env s (.action (.rename oldAccount newAccount)) = .ok s') :
    oldAccount ≠ newAccount := by
  rintro rfl
  simp only [exec, applyAction, ContractActions.dispatch, bind_eq_ok] at h
  obtain ⟨t, ht, -⟩ := h
  simp only [renameAccount, bind_eq_ok] at ht
  obtain ⟨-, -, -, -, -, -, user, -, -, -, f, -, u, -, inductions, -, v, hrename, -⟩ := ht
  obtain ⟨member, table, -, -, hmember, htable, -, -⟩ := MemberTable.rename_eq_ok hrename
  have hnew := Table.emplace?_new htable
  rw [hmember] at hnew
  cases hnew

def tokens : Name := nameOf ['e', 'o', 's', 'i', 'o', '.', 't', 'o', 'k', 'e', 'n']

/-- The board renames alice to carol. -/
def toCarol : Env := { signedBy carol with boardMajor := true }

/-- Carol, who is no member, deposits and withdraws everything again. -/
def carolPassed : List Transaction :=
  foundation ++
    [(1000050, [(signedBy carol, .transfer carol.name host.self (eos 1000) [])]),
      (1000060, [(signedBy carol, .action (.withdraw carol.name (eos 1000)))])]

end Eden.MirrorRenames
