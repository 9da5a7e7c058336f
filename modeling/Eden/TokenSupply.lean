import Eden.HostFunctions
import Eden.TokenContract

/-!
The supply of every token is the sum of its balances, and no sum of balances overflows.
-/

namespace Eden.TokenSupply

open Eden.ExceptReasoning
open Eden.SortedTable
open Eden.TransactionRuns
open Eden.TransactionRuns.Machine
open Eden.ChainPrimitives
open Eden.Runtime
open Eden.HostFunctions
open Eden.TokenContract

variable {s s' : State} {t t' : Accounts} {self : Name} {env : Env}

/-! ### Balances -/

/-- What a row has of a token. -/
def amountOf (code : Nat) (a : Account) : Int :=
  if a.balance.symbol.code = code then a.balance.amount else 0

/-- The balance of an owner, 0 without a row. -/
def held (t : Accounts) (owner : Name) (code : Nat) : Int :=
  ((t.find? (toLex (owner, code))).map fun a => a.balance.amount).getD 0

/-- A token with this symbol exists. -/
def Issued (stat : Stats) (symbol : Symbol) : Prop :=
  ∃ st ∈ stat.rows, st.supply.symbol = symbol

theorem key_eq {a : Account} {owner : Name} {code : Nat} :
    a.key = toLex (owner, code) ↔ a.owner = owner ∧ a.balance.symbol.code = code := by
  rw [Account.key, toLex_inj, Prod.mk.injEq]

theorem held_of_find? {a : Account} {owner : Name} {code : Nat}
    (h : t.find? (toLex (owner, code)) = some a) : held t owner code = a.balance.amount := by
  rw [held, h, Option.map_some, Option.getD_some]

theorem held_of_not_find? {owner : Name} {code : Nat}
    (h : t.find? (toLex (owner, code)) = none) : held t owner code = 0 := by
  rw [held, h, Option.map_none, Option.getD_none]

theorem amountOf_of_find? {a : Account} {owner : Name} {code : Nat}
    (h : t.find? (toLex (owner, code)) = some a) : amountOf code a = held t owner code := by
  rw [held_of_find? h]
  exact if_pos (key_eq.mp (Table.key_of_find? h)).2

section Sums

variable {code : Nat}

theorem total_nonneg {f : Account → Int} (h : ∀ a ∈ t.rows, 0 ≤ f a) : 0 ≤ t.total f := by
  apply List.sum_nonneg
  intro x hx
  obtain ⟨a, ha, rfl⟩ := List.mem_map.mp hx
  exact h a ha

theorem amountOf_nonneg {a : Account} (h : 0 ≤ a.balance.amount) : 0 ≤ amountOf code a := by
  unfold amountOf
  split
  · exact h
  · exact le_rfl

theorem held_nonneg (h : ∀ a ∈ t.rows, 0 ≤ a.balance.amount) (owner : Name) (code : Nat) :
    0 ≤ held t owner code := by
  cases hfound : t.find? (toLex (owner, code)) with
  | none => rw [held_of_not_find? hfound]
  | some a =>
      rw [held_of_find? hfound]
      exact h a (Table.mem_of_find? hfound)

/-- One balance is a part of the sum. -/
theorem held_le_total (h : ∀ a ∈ t.rows, 0 ≤ a.balance.amount) (owner : Name) (code : Nat) :
    held t owner code ≤ t.total (amountOf code) := by
  cases hfound : t.find? (toLex (owner, code)) with
  | none =>
      rw [held_of_not_find? hfound]
      exact total_nonneg fun a ha => amountOf_nonneg (h a ha)
  | some a =>
      have hsum := Table.total_erase hfound (amountOf code)
      rw [amountOf_of_find? hfound] at hsum
      have hrest : 0 ≤ (t.erase (toLex (owner, code))).total (amountOf code) :=
        total_nonneg fun b hb => amountOf_nonneg (h b (Table.mem_erase.mp hb).1)
      omega

/-- No row has a token that no row is of. -/
theorem total_eq_zero (h : ∀ a ∈ t.rows, a.balance.symbol.code ≠ code) :
    t.total (amountOf code) = 0 := by
  rw [Table.total_congr fun a ha => show amountOf code a = 0 from if_neg (h a ha)]
  simp [Table.total]

end Sums

/-! ### A change of one balance -/

/-- The balance of an owner changes by a value; the row is made if there was none. -/
structure Moved (t t' : Accounts) (owner : Name) (value : Asset) : Prop where
  find? : ∀ k, t'.find? k =
    if toLex (owner, value.symbol.code) = k then
      some ⟨owner, ⟨held t owner value.symbol.code + value.amount, value.symbol⟩⟩
    else t.find? k
  total : ∀ code, t'.total (amountOf code) =
    t.total (amountOf code) + if value.symbol.code = code then value.amount else 0

theorem moved_replace {a : Account} {owner : Name} (value : Asset)
    (h : t.find? (toLex (owner, value.symbol.code)) = some a)
    (hsymbol : value.symbol = a.balance.symbol) :
    Moved t (t.replace ⟨a.owner, ⟨a.balance.amount + value.amount, a.balance.symbol⟩⟩) owner
      value := by
  have hkey := key_eq.mp (Table.key_of_find? h)
  have hnew : (⟨a.owner, ⟨a.balance.amount + value.amount, a.balance.symbol⟩⟩ : Account) =
      ⟨owner, ⟨held t owner value.symbol.code + value.amount, value.symbol⟩⟩ := by
    rw [hkey.1, held_of_find? h, hsymbol]
  rw [hnew]
  constructor
  · intro k
    rw [Table.find?_replace]
    split
    · rename_i hk
      subst hk
      exact congrArg (Option.map _) h
    · rfl
  · intro code
    rw [Table.total_replace (b := a) h, Table.total_erase h]
    unfold amountOf
    rw [← hsymbol]
    split
    · rename_i hcode
      rw [held_of_find? h]
      exact add_right_comm _ _ _
    · rw [add_zero]

theorem moved_emplace {owner : Name} (value : Asset)
    (hnew : t.find? (toLex (owner, value.symbol.code)) = none)
    (h : t.emplace? ⟨owner, value⟩ = some t') : Moved t t' owner value := by
  constructor
  · intro k
    rw [Table.find?_emplace? h, held_of_not_find? hnew, zero_add]
  · intro code
    rw [Table.total_emplace? h]
    exact add_comm _ _

theorem subBalance_eq_ok {owner : Name} {value : Asset} (h : subBalance t owner value = .ok t') :
    value.amount ≤ held t owner value.symbol.code ∧ Moved t t' owner value.neg := by
  simp only [subBalance, bind_eq_ok, check_eq_ok, exists_const, expect_eq_ok, Asset.sub_eq_ok,
    decide_eq_true_eq, pure_eq_ok] at h
  obtain ⟨a, hfound, hle, _, ⟨hsymbol, _, _, rfl⟩, rfl⟩ := h
  refine ⟨by rwa [held_of_find? hfound], ?_⟩
  exact moved_replace value.neg hfound hsymbol

theorem addBalance_eq_ok {owner : Name} {value : Asset} (h : addBalance t owner value = .ok t') :
    Moved t t' owner value := by
  unfold addBalance at h
  cases hfound : t.find? (toLex (owner, value.symbol.code)) with
  | none =>
      rw [hfound] at h
      exact moved_emplace value hfound (expect_eq_ok.mp h)
  | some a =>
      rw [hfound] at h
      simp only [bind_eq_ok, Asset.add_eq_ok, pure_eq_ok] at h
      obtain ⟨_, ⟨hsymbol, _, _, rfl⟩, rfl⟩ := h
      exact moved_replace value hfound hsymbol

theorem Moved.mem {owner : Name} {value : Asset} (h : Moved t t' owner value) {a : Account}
    (ha : a ∈ t'.rows) : a ∈ t.rows ∨
      a = ⟨owner, ⟨held t owner value.symbol.code + value.amount, value.symbol⟩⟩ := by
  have hfound := Table.find?_of_mem ha
  rw [h.find?] at hfound
  split at hfound
  · exact .inr (Option.some.inj hfound).symm
  · exact .inl (Table.mem_of_find? hfound)

/-! ### The invariant -/

/-- No balance is negative, and every balance is of a token that exists. -/
structure Sound (t : Accounts) (stat : Stats) : Prop where
  positive : ∀ a ∈ t.rows, 0 ≤ a.balance.amount
  issued : ∀ a ∈ t.rows, Issued stat a.balance.symbol

/-- A token that can be issued up to its limit. -/
structure Limited (st : CurrencyStats) : Prop where
  valid : st.supply.symbol.isValid = true
  symbol : st.maxSupply.symbol = st.supply.symbol
  supply_le : st.supply.amount ≤ st.maxSupply.amount
  maximum_le : st.maxSupply.amount ≤ maxAmount

structure Backed (s : State) : Prop where
  sound : Sound s.accounts s.stat
  supply : ∀ st ∈ s.stat.rows,
    s.accounts.total (amountOf st.supply.symbol.code) = st.supply.amount
  limited : ∀ st ∈ s.stat.rows, Limited st

theorem Moved.sound {stat : Stats} {owner : Name} {value : Asset} (h : Moved t t' owner value)
    (ht : Sound t stat) (hissued : Issued stat value.symbol)
    (hheld : 0 ≤ held t owner value.symbol.code + value.amount) : Sound t' stat := by
  constructor
  · intro a ha
    rcases h.mem ha with ha | rfl
    · exact ht.positive a ha
    · exact hheld
  · intro a ha
    rcases h.mem ha with ha | rfl
    · exact ht.issued a ha
    · exact hissued

theorem issued_of_find? {stat : Stats} {st : CurrencyStats} {symbol : Symbol}
    (h : stat.find? symbol.code = some st) (hsymbol : symbol = st.supply.symbol) :
    Issued stat symbol :=
  ⟨st, Table.mem_of_find? h, hsymbol.symm⟩

/-- A new supply is of the same token. -/
theorem issued_replace {stat : Stats} {st st' : CurrencyStats} {symbol : Symbol}
    (hst : st ∈ stat.rows) (hsymbol : st'.supply.symbol = st.supply.symbol)
    (h : Issued stat symbol) : Issued (stat.replace st') symbol := by
  obtain ⟨other, hother, rfl⟩ := h
  by_cases hcode : other.supply.symbol.code = st'.supply.symbol.code
  · rw [hsymbol] at hcode
    have hsame := Table.eq_of_key_eq hother hst hcode
    refine ⟨st', Table.mem_replace.mpr (.inr ⟨rfl, st, ?_⟩), by rw [hsymbol, hsame]⟩
    rw [hsymbol]
    exact Table.find?_of_mem hst
  · exact ⟨other, Table.mem_replace.mpr (.inl ⟨hother, hcode⟩), rfl⟩

/-- Balances may change among themselves. -/
theorem Backed.shifted (h : Backed s) (ht : Sound t s.stat)
    (htotal : ∀ code, t.total (amountOf code) = s.accounts.total (amountOf code)) :
    Backed { s with accounts := t } := by
  refine ⟨ht, ?_, h.limited⟩
  intro st hst
  exact (htotal _).trans (h.supply st hst)

/-- A balance may change together with the supply. -/
theorem Backed.supplied {st : CurrencyStats} {owner : Name} (h : Backed s) (value : Asset)
    (hst : s.stat.find? value.symbol.code = some st) (hsymbol : value.symbol = st.supply.symbol)
    (hmoved : Moved s.accounts t owner value)
    (hheld : 0 ≤ held s.accounts owner value.symbol.code + value.amount)
    (hmaximum : st.supply.amount + value.amount ≤ st.maxSupply.amount) :
    Backed ⟨t, s.stat.replace
      { st with supply := ⟨st.supply.amount + value.amount, st.supply.symbol⟩ }⟩ := by
  have hmem := Table.mem_of_find? hst
  have hrows := hmoved.sound h.sound (issued_of_find? hst hsymbol) hheld
  refine ⟨⟨hrows.positive, fun a ha => ?_⟩, fun other hother => ?_, fun other hother => ?_⟩
  · exact issued_replace hmem rfl (hrows.issued a ha)
  · rcases Table.mem_replace.mp hother with ⟨hother, hcode⟩ | ⟨rfl, _⟩
    · rw [hmoved.total, if_neg, add_zero]
      · exact h.supply other hother
      · rw [hsymbol]
        exact fun heq => hcode heq.symm
    · rw [hmoved.total, if_pos (congrArg Symbol.code hsymbol), h.supply st hmem]
  · rcases Table.mem_replace.mp hother with ⟨hother, _⟩ | ⟨rfl, _⟩
    · exact h.limited other hother
    · have hlimited := h.limited st hmem
      exact ⟨hlimited.valid, hlimited.symbol, hmaximum, hlimited.maximum_le⟩

theorem Backed.positive (h : Backed s) (owner : Name) (code : Nat) :
    0 ≤ held s.accounts owner code :=
  held_nonneg h.sound.positive owner code

/-- A balance is at most the supply of its token. -/
theorem Backed.held_le (h : Backed s) {st : CurrencyStats} (hst : st ∈ s.stat.rows)
    (owner : Name) : held s.accounts owner st.supply.symbol.code ≤ st.supply.amount := by
  rw [← h.supply st hst]
  exact held_le_total h.sound.positive owner _

/-! ### Steps -/

theorem create_backed {issuer : Name} {maximumSupply : Asset} (h : Backed s)
    (hok : create self env s issuer maximumSupply = .ok s') : Backed s' := by
  simp only [create, bind_eq_ok, requireAuth_eq_ok, check_eq_ok, exists_const, expect_eq_ok,
    decide_eq_true_eq, pure_eq_ok] at hok
  obtain ⟨_, hvalid, hamount, hpositive, hnew, stat, hstat, rfl⟩ := hok
  simp only [isValid, Bool.and_eq_true, decide_eq_true_eq] at hamount
  have hold : ∀ a ∈ s.accounts.rows, a.balance.symbol.code ≠ maximumSupply.symbol.code := by
    intro a ha hcode
    obtain ⟨st, hst, hsymbol⟩ := h.sound.issued a ha
    refine Table.find?_eq_none.mp hnew st hst ?_
    rw [hsymbol, hcode]
  refine ⟨⟨h.sound.positive, fun a ha => ?_⟩, fun st hst => ?_, fun st hst => ?_⟩
  · obtain ⟨st, hst, hsymbol⟩ := h.sound.issued a ha
    exact ⟨st, (Table.mem_emplace? hstat).mpr (.inr hst), hsymbol⟩
  · rcases (Table.mem_emplace? hstat).mp hst with rfl | hst
    · exact total_eq_zero hold
    · exact h.supply st hst
  · rcases (Table.mem_emplace? hstat).mp hst with rfl | hst
    · exact ⟨hvalid, rfl, hpositive.le, hamount.1.2⟩
    · exact h.limited st hst

theorem issue_backed {receiver : Name} {quantity : Asset} {memo : Text} (h : Backed s)
    (hok : issue env s receiver quantity memo = .ok s') : Backed s' := by
  simp only [issue, bind_eq_ok, requireAuth_eq_ok, check_eq_ok, exists_const, expect_eq_ok,
    Asset.add_eq_ok, decide_eq_true_eq, pure_eq_ok] at hok
  obtain ⟨_, _, st, hst, _, _, _, hpositive, _, hmaximum, _, ⟨hsymbol, _, _, rfl⟩, t, ht, rfl⟩ :=
    hok
  have hheld := h.positive st.issuer quantity.symbol.code
  exact h.supplied quantity hst hsymbol (addBalance_eq_ok ht) (by omega) (by omega)

theorem retire_backed {quantity : Asset} {memo : Text} (h : Backed s)
    (hok : retire env s quantity memo = .ok s') : Backed s' := by
  simp only [retire, bind_eq_ok, requireAuth_eq_ok, check_eq_ok, exists_const, expect_eq_ok,
    Asset.sub_eq_ok, decide_eq_true_eq, pure_eq_ok] at hok
  obtain ⟨_, _, st, hst, _, _, hpositive, _, _, ⟨hsymbol, _, _, rfl⟩, t, ht, rfl⟩ := hok
  obtain ⟨hle, hmoved⟩ := subBalance_eq_ok ht
  have hlimit := (h.limited st (Table.mem_of_find? hst)).supply_le
  have hheld : 0 ≤ held s.accounts st.issuer quantity.symbol.code + quantity.neg.amount := by
    simp only [Asset.neg]
    omega
  have hmaximum : st.supply.amount + quantity.neg.amount ≤ st.maxSupply.amount := by
    simp only [Asset.neg]
    omega
  exact h.supplied quantity.neg hst hsymbol hmoved hheld hmaximum

/-- What a successful transfer does. -/
theorem transfer_eq_ok {sender receiver : Name} {quantity : Asset} {memo : Text}
    (hok : transfer env s sender receiver quantity memo = .ok s') :
    (sender ≠ receiver ∧ sender ∈ env.auths ∧ env.isAccount receiver = true ∧
      0 < quantity.amount ∧ memo.length ≤ 256) ∧
      Issued s.stat quantity.symbol ∧
      quantity.amount ≤ held s.accounts sender quantity.symbol.code ∧
      ∃ t t', Moved s.accounts t sender quantity.neg ∧ Moved t t' receiver quantity ∧
        s' = { s with accounts := t' } := by
  simp only [transfer, bind_eq_ok, requireAuth_eq_ok, check_eq_ok, exists_const, expect_eq_ok,
    decide_eq_true_eq, pure_eq_ok] at hok
  obtain ⟨hne, hauth, hreceiver, st, hst, _, hpositive, hsymbol, hmemo, t, ht, t', ht', rfl⟩ := hok
  obtain ⟨hle, hmoved⟩ := subBalance_eq_ok ht
  exact ⟨⟨hne, hauth, hreceiver, hpositive, hmemo⟩, issued_of_find? hst hsymbol, hle, t, t',
    hmoved, addBalance_eq_ok ht', rfl⟩

theorem transfer_backed {sender receiver : Name} {quantity : Asset} {memo : Text} (h : Backed s)
    (hok : transfer env s sender receiver quantity memo = .ok s') : Backed s' := by
  obtain ⟨⟨_, _, _, hpositive, _⟩, hissued, hle, t, t', hsub, hadd, rfl⟩ := transfer_eq_ok hok
  have hsound : Sound t s.stat := by
    apply hsub.sound h.sound hissued
    simp only [Asset.neg]
    omega
  apply h.shifted
  · have hheld := held_nonneg hsound.positive receiver quantity.symbol.code
    exact hadd.sound hsound hissued (by omega)
  · intro code
    rw [hadd.total, hsub.total]
    simp only [Asset.neg]
    split <;> omega

theorem openAccount_backed {owner ramPayer : Name} {symbol : Symbol} (h : Backed s)
    (hok : openAccount env s owner symbol ramPayer = .ok s') : Backed s' := by
  simp only [openAccount, bind_eq_ok, requireAuth_eq_ok, check_eq_ok, exists_const, expect_eq_ok,
    decide_eq_true_eq] at hok
  obtain ⟨_, _, st, hst, hsymbol, hok⟩ := hok
  split at hok
  · rename_i hnew
    simp only [bind_eq_ok, asset_eq_ok, expect_eq_ok, pure_eq_ok] at hok
    obtain ⟨_, ⟨_, _, rfl⟩, t, ht, rfl⟩ := hok
    have hmoved := moved_emplace ⟨0, symbol⟩ hnew ht
    apply h.shifted
    · apply hmoved.sound h.sound (issued_of_find? hst hsymbol.symm)
      rw [held_of_not_find? hnew, zero_add]
    · intro code
      rw [hmoved.total]
      split
      · exact add_zero _
      · exact add_zero _
  · cases hok
    exact h

theorem close_backed {owner : Name} {symbol : Symbol} (h : Backed s)
    (hok : close env s owner symbol = .ok s') : Backed s' := by
  simp only [close, bind_eq_ok, requireAuth_eq_ok, check_eq_ok, exists_const, expect_eq_ok,
    decide_eq_true_eq, pure_eq_ok] at hok
  obtain ⟨_, a, ha, hzero, rfl⟩ := hok
  apply h.shifted
  · constructor
    · exact fun b hb => h.sound.positive b (Table.mem_erase.mp hb).1
    · exact fun b hb => h.sound.issued b (Table.mem_erase.mp hb).1
  · intro code
    rw [Table.total_erase (Table.find?_of_mem (Table.mem_of_find? ha)), amountOf, hzero, ite_self,
      zero_add]

theorem apply_backed {action : Action} (h : Backed s) (hok : apply self env s action = .ok s') :
    Backed s' := by
  cases action with
  | create issuer maximumSupply => exact create_backed h hok
  | issue receiver quantity memo => exact issue_backed h hok
  | retire quantity memo => exact retire_backed h hok
  | transfer sender receiver quantity memo => exact transfer_backed h hok
  | openAccount owner symbol ramPayer => exact openAccount_backed h hok
  | close owner symbol => exact close_backed h hok

theorem backed_empty : Backed {} := by
  refine ⟨⟨?_, ?_⟩, ?_, ?_⟩
  all_goals exact fun _ h => absurd h List.not_mem_nil

theorem backed_of_reachable (h : Reachable self s) : Backed s := by
  refine Machine.Reachable.invariant Backed h ?_ ?_
  · rintro t rfl
    exact backed_empty
  · rintro t t' (hmove | ⟨_, hok⟩) ht
    · exact ht
    · exact apply_backed ht hok

theorem allows_all {calls : List (Env × Action)} :
    (contract self).Allows (fun _ _ => True) s calls := by
  induction calls generalizing s with
  | nil => trivial
  | cons call calls ih => exact ⟨trivial, fun t _ => ih⟩

theorem reachable_of_run {calls : List (Env × Action)} (h : Reachable self s)
    (hrun : (contract self).run s () calls = .ok s') : Reachable self s' :=
  .run h trivial allows_all hrun

/-- The supply of a token is the sum of its balances and at most its maximum, no balance is
negative or more than the supply, and every balance is of a token that exists. -/
theorem supply_is_the_balances (h : Reachable self s) :
    (∀ st ∈ s.stat.rows,
      s.accounts.total (amountOf st.supply.symbol.code) = st.supply.amount ∧
      st.supply.amount ≤ st.maxSupply.amount ∧ st.maxSupply.amount ≤ maxAmount ∧
      ∀ owner, 0 ≤ held s.accounts owner st.supply.symbol.code ∧
        held s.accounts owner st.supply.symbol.code ≤ st.supply.amount) ∧
      ∀ a ∈ s.accounts.rows, Issued s.stat a.balance.symbol := by
  have hbacked := backed_of_reachable h
  refine ⟨fun st hst => ?_, hbacked.sound.issued⟩
  have hlimited := hbacked.limited st hst
  refine ⟨hbacked.supply st hst, hlimited.supply_le, hlimited.maximum_le, fun owner => ?_⟩
  exact ⟨hbacked.positive owner _, hbacked.held_le hst owner⟩

/-- `eosio.token` -/
def tokenAccount : Signer := ⟨nameOf ['e', 'o', 's', 'i', 'o', '.', 't', 'o', 'k', 'e', 'n'],
  by decide⟩

/-- Alice issues tokens to herself, bob gets some of them, and alice retires a part of the rest. -/
def firstCalls : List (Env × Action) :=
  [(signedBy tokenAccount, .create alice.name (eos 1000)),
    (signedBy alice, .issue alice.name (eos 600) []),
    (signedBy alice, .transfer alice.name bob.name (eos 250) []),
    (signedBy alice, .retire (eos 50) [])]

theorem firstCalls_supply : ∃ s, (contract tokenAccount.name).run {} () firstCalls = .ok s ∧
    held s.accounts bob.name eosSymbol.code = 250 ∧
    s.stat.rows = [⟨eos 550, eos 1000, alice.name⟩] ∧
    ((∀ st ∈ s.stat.rows,
      s.accounts.total (amountOf st.supply.symbol.code) = st.supply.amount ∧
      st.supply.amount ≤ st.maxSupply.amount ∧ st.maxSupply.amount ≤ maxAmount ∧
      ∀ owner, 0 ≤ held s.accounts owner st.supply.symbol.code ∧
        held s.accounts owner st.supply.symbol.code ≤ st.supply.amount) ∧
      ∀ a ∈ s.accounts.rows, Issued s.stat a.balance.symbol) := by
  have hrun : ((contract tokenAccount.name).run {} () firstCalls).toOption.any (fun s =>
      held s.accounts bob.name eosSymbol.code = 250 ∧
        s.stat.rows = [⟨eos 550, eos 1000, alice.name⟩]) = true := by decide +kernel
  obtain ⟨s, hs, hstate⟩ := (Option.any_eq_true _ _).mp hrun
  obtain ⟨hheld, hstat⟩ := of_decide_eq_true hstate
  have hok := ok_of_toOption hs
  exact ⟨s, hok, hheld, hstat, supply_is_the_balances (reachable_of_run (.first rfl) hok)⟩

end Eden.TokenSupply
