import Eden.TokenSupply

/-!
The token contract against a ledger of plain integers: every transaction does the same to both.
-/

namespace Eden.TokenLedger

open Eden.ExceptReasoning
open Eden.SortedTable
open Eden.TransactionRuns
open Eden.ChainPrimitives
open Eden.Runtime
open Eden.HostFunctions
open Eden.TokenContract
open Eden.TokenSupply

variable {s s' : State} {t t' : Accounts} {self : Name} {env : Env}

/-! ### The specification -/

/-- What each owner has of each token, where the owner has a row, and the tokens. -/
structure Ledger where
  balance : Name → Nat → Option Int
  issued : Nat → Option CurrencyStats

namespace Ledger

def empty : Ledger := ⟨fun _ _ => none, fun _ => none⟩

def held (l : Ledger) (owner : Name) (code : Nat) : Int := (l.balance owner code).getD 0

def tokenOf (l : Ledger) (symbol : Symbol) : Option CurrencyStats :=
  (l.issued symbol.code).filter fun st => st.supply.symbol = symbol

def put (l : Ledger) (owner : Name) (code : Nat) (amount : Option Int) : Ledger :=
  { l with
    balance := fun other c => if other = owner ∧ c = code then amount else l.balance other c }

def credit (l : Ledger) (owner : Name) (code : Nat) (amount : Int) : Ledger :=
  l.put owner code (some (l.held owner code + amount))

def define (l : Ledger) (st : CurrencyStats) : Ledger :=
  { l with issued := fun code => if code = st.supply.symbol.code then some st else l.issued code }

end Ledger

/-- A token with more or less of it. -/
def supplied (st : CurrencyStats) (amount : Int) : CurrencyStats :=
  { st with supply := ⟨st.supply.amount + amount, st.supply.symbol⟩ }

/-- An action on the ledger, with no limit on sums and differences. -/
def specified (self : Name) (l : Ledger) (call : Env × Action) : Option Ledger :=
  match call.2 with
  | .create issuer maximumSupply =>
      if self ∈ call.1.auths ∧ maximumSupply.symbol.isValid ∧ 0 < maximumSupply.amount ∧
          maximumSupply.amount ≤ maxAmount ∧ l.issued maximumSupply.symbol.code = none then
        some (l.define ⟨⟨0, maximumSupply.symbol⟩, maximumSupply, issuer⟩)
      else none
  | .issue receiver quantity memo => do
      let st ← l.tokenOf quantity.symbol
      if receiver = st.issuer ∧ st.issuer ∈ call.1.auths ∧ 0 < quantity.amount ∧
          st.supply.amount + quantity.amount ≤ st.maxSupply.amount ∧ memo.length ≤ 256 then
        some ((l.credit st.issuer quantity.symbol.code quantity.amount).define
          (supplied st quantity.amount))
      else none
  | .retire quantity memo => do
      let st ← l.tokenOf quantity.symbol
      if st.issuer ∈ call.1.auths ∧ 0 < quantity.amount ∧
          quantity.amount ≤ l.held st.issuer quantity.symbol.code ∧ memo.length ≤ 256 then
        some ((l.credit st.issuer quantity.symbol.code (-quantity.amount)).define
          (supplied st (-quantity.amount)))
      else none
  | .transfer sender receiver quantity memo => do
      let _ ← l.tokenOf quantity.symbol
      if sender ≠ receiver ∧ sender ∈ call.1.auths ∧ call.1.isAccount receiver ∧
          0 < quantity.amount ∧ quantity.amount ≤ l.held sender quantity.symbol.code ∧
          memo.length ≤ 256 then
        some ((l.credit sender quantity.symbol.code (-quantity.amount)).credit receiver
          quantity.symbol.code quantity.amount)
      else none
  | .openAccount owner symbol ramPayer => do
      let _ ← l.tokenOf symbol
      if ramPayer ∈ call.1.auths ∧ call.1.isAccount owner then
        some (if l.balance owner symbol.code = none then l.put owner symbol.code (some 0) else l)
      else none
  | .close owner symbol =>
      if owner ∈ call.1.auths ∧ l.balance owner symbol.code = some 0 then
        some (l.put owner symbol.code none)
      else none

/-- What can be seen of the contract. -/
def view (s : State) : Ledger where
  balance owner code := (s.accounts.find? (toLex (owner, code))).map fun a => a.balance.amount
  issued code := s.stat.find? code

@[simp] theorem view_held (owner : Name) (code : Nat) :
    (view s).held owner code = held s.accounts owner code := rfl

theorem tokenOf_view {symbol : Symbol} {st : CurrencyStats} :
    (view s).tokenOf symbol = some st ↔
      s.stat.find? symbol.code = some st ∧ st.supply.symbol = symbol := by
  rw [Ledger.tokenOf, Option.filter_eq_some_iff, decide_eq_true_eq]
  rfl

theorem toLex_eq {owner other : Name} {code c : Nat} :
    toLex (owner, c) = toLex (other, code) ↔ other = owner ∧ code = c := by
  rw [toLex_inj, Prod.mk.injEq]
  exact and_congr eq_comm eq_comm

theorem view_moved {stat : Stats} {owner : Name} {value : Asset} (h : Moved t t' owner value) :
    view ⟨t', stat⟩ = (view ⟨t, stat⟩).credit owner value.symbol.code value.amount := by
  have hbalance : (view ⟨t', stat⟩).balance =
      ((view ⟨t, stat⟩).credit owner value.symbol.code value.amount).balance := by
    funext other code
    simp only [view, Ledger.credit, Ledger.put, h.find?, toLex_eq]
    split
    · rfl
    · rfl
  exact congrArg (fun b => (⟨b, stat.find?⟩ : Ledger)) hbalance

theorem view_replace {stat : Stats} {st st' : CurrencyStats}
    (h : stat.find? st'.supply.symbol.code = some st) :
    view ⟨t, stat.replace st'⟩ = (view ⟨t, stat⟩).define st' := by
  have hissued : (view ⟨t, stat.replace st'⟩).issued = ((view ⟨t, stat⟩).define st').issued := by
    funext code
    simp only [view, Ledger.define, Table.find?_replace]
    by_cases hcode : st'.supply.symbol.code = code
    · subst hcode
      rw [if_pos rfl, if_pos rfl, h, Option.map_some]
    · rw [if_neg hcode, if_neg fun heq => hcode heq.symm]
  exact congrArg (Ledger.mk (view ⟨t, stat⟩).balance) hissued

/-- A balance and the supply of its token change. -/
theorem view_supplied {st : CurrencyStats} {owner : Name} (value : Asset)
    (hst : s.stat.find? value.symbol.code = some st) (hsymbol : value.symbol = st.supply.symbol)
    (h : Moved s.accounts t owner value) :
    view ⟨t, s.stat.replace (supplied st value.amount)⟩ =
      ((view s).credit owner value.symbol.code value.amount).define
        (supplied st value.amount) := by
  rw [hsymbol] at hst
  have hkey : s.stat.find? (supplied st value.amount).supply.symbol.code = some st := hst
  rw [view_replace hkey, view_moved h]

theorem view_emplace {stat stat' : Stats} {st : CurrencyStats} (h : stat.emplace? st = some stat') :
    view ⟨t, stat'⟩ = (view ⟨t, stat⟩).define st := by
  have hissued : (view ⟨t, stat'⟩).issued = ((view ⟨t, stat⟩).define st).issued := by
    funext code
    simp only [view, Ledger.define, Table.find?_emplace? h, eq_comm]
  exact congrArg (Ledger.mk (view ⟨t, stat⟩).balance) hissued

/-! ### What succeeds -/

/-- A row of an owner has the symbol of its token. -/
theorem symbol_of_find? {stat : Stats} {a : Account} {owner : Name} {symbol : Symbol}
    (h : Sound t stat) (hissued : Issued stat symbol)
    (hfound : t.find? (toLex (owner, symbol.code)) = some a) : a.balance.symbol = symbol := by
  obtain ⟨st, hst, hsymbol⟩ := h.issued a (Table.mem_of_find? hfound)
  obtain ⟨other, hother, rfl⟩ := hissued
  have hcode := (key_eq.mp (Table.key_of_find? hfound)).2
  rw [← hsymbol] at hcode ⊢
  rw [Table.eq_of_key_eq hst hother hcode]

/-- What an owner has can be taken. -/
theorem subBalance_succeeds {stat : Stats} {owner : Name} {value : Asset} (h : Sound t stat)
    (hissued : Issued stat value.symbol) (hpositive : 0 < value.amount)
    (hle : value.amount ≤ held t owner value.symbol.code)
    (hmaximum : held t owner value.symbol.code ≤ maxAmount) :
    ∃ t', subBalance t owner value = .ok t' := by
  cases hfound : t.find? (toLex (owner, value.symbol.code)) with
  | none =>
      rw [held_of_not_find? hfound] at hle
      omega
  | some a =>
      rw [held_of_find? hfound] at hle hmaximum
      have hsymbol := symbol_of_find? h hissued hfound
      have hbalance : a.balance.sub value =
          .ok ⟨a.balance.amount - value.amount, a.balance.symbol⟩ := by
        rw [Asset.sub_eq_ok]
        exact ⟨hsymbol.symm, by omega, by omega, rfl⟩
      refine ⟨t.replace ⟨a.owner, ⟨a.balance.amount - value.amount, a.balance.symbol⟩⟩, ?_⟩
      rw [subBalance, hfound]
      simp only [expect_some, check, hle, decide_true, ensure_true, ok_bind, hbalance]
      rfl

/-- What does not exceed the largest amount can be given. -/
theorem addBalance_succeeds {stat : Stats} {value : Asset} (owner : Name) (h : Sound t stat)
    (hissued : Issued stat value.symbol) (hpositive : 0 < value.amount)
    (hmaximum : held t owner value.symbol.code + value.amount ≤ maxAmount) :
    ∃ t', addBalance t owner value = .ok t' := by
  cases hfound : t.find? (toLex (owner, value.symbol.code)) with
  | none =>
      obtain ⟨t', ht'⟩ := Table.emplace?_isSome (a := (⟨owner, value⟩ : Account)) hfound
      refine ⟨t', ?_⟩
      rw [addBalance, hfound]
      exact expect_eq_ok.mpr ht'
  | some a =>
      rw [held_of_find? hfound] at hmaximum
      have hamount := h.positive a (Table.mem_of_find? hfound)
      have hsymbol := symbol_of_find? h hissued hfound
      have hbalance : a.balance.add value =
          .ok ⟨a.balance.amount + value.amount, a.balance.symbol⟩ := by
        rw [Asset.add_eq_ok]
        exact ⟨hsymbol.symm, by omega, hmaximum, rfl⟩
      refine ⟨t.replace ⟨a.owner, ⟨a.balance.amount + value.amount, a.balance.symbol⟩⟩, ?_⟩
      rw [addBalance, hfound]
      simp only [hbalance, ok_bind]
      rfl

/-- A computation that succeeds under a condition, with one result in view. -/
theorem map_toOption_eq {α β : Type} {x : Outcome α} {v : α → β} {c : Prop} [Decidable c] {b : β}
    (hok : ∀ a, x = .ok a → c ∧ v a = b) (hc : c → ∃ a, x = .ok a) :
    x.toOption.map v = if c then some b else none := by
  cases hx : x with
  | error e =>
      rw [if_neg]
      · rfl
      · intro h
        obtain ⟨a, ha⟩ := hc h
        rw [hx] at ha
        cases ha
  | ok a =>
      obtain ⟨h, hview⟩ := hok a hx
      rw [if_pos h]
      exact congrArg some hview

theorem create_specified {issuer : Name} {maximumSupply : Asset} :
    (create self env s issuer maximumSupply).toOption.map view =
      specified self (view s) (env, .create issuer maximumSupply) := by
  apply map_toOption_eq
  · intro s' hok
    simp only [create, bind_eq_ok, requireAuth_eq_ok, check_eq_ok, exists_const, expect_eq_ok,
      isValid, Bool.and_eq_true, decide_eq_true_eq, pure_eq_ok] at hok
    obtain ⟨hauth, hvalid, ⟨⟨_, hmaximum⟩, _⟩, hpositive, hnew, stat, hstat, rfl⟩ := hok
    exact ⟨⟨hauth, hvalid, hpositive, hmaximum, hnew⟩, view_emplace hstat⟩
  · rintro ⟨hauth, hvalid, hpositive, hmaximum, hnew⟩
    obtain ⟨stat, hstat⟩ := Table.emplace?_isSome
      (a := (⟨⟨0, maximumSupply.symbol⟩, maximumSupply, issuer⟩ : CurrencyStats)) hnew
    refine ⟨{ s with stat }, ?_⟩
    simp only [create, bind_eq_ok, requireAuth_eq_ok, check_eq_ok, exists_const, expect_eq_ok,
      isValid, Bool.and_eq_true, decide_eq_true_eq, pure_eq_ok]
    exact ⟨hauth, hvalid, ⟨⟨by omega, hmaximum⟩, hvalid⟩, hpositive, hnew, stat, hstat, rfl⟩

/-- An action on a token that does not exist fails, another succeeds as specified for the token. -/
theorem map_tokenOf_eq {x : Outcome State} {symbol : Symbol} {c : CurrencyStats → Prop}
    [DecidablePred c] {l : CurrencyStats → Ledger}
    (hok : ∀ s', x = .ok s' → ∃ st, (view s).tokenOf symbol = some st ∧ c st ∧ view s' = l st)
    (hc : ∀ st, (view s).tokenOf symbol = some st → c st → ∃ s', x = .ok s') :
    x.toOption.map view =
      (view s).tokenOf symbol >>= fun st => if c st then some (l st) else none := by
  cases htoken : (view s).tokenOf symbol with
  | none =>
      cases hx : x with
      | error e => rfl
      | ok s' =>
          obtain ⟨st, hst, _⟩ := hok s' hx
          rw [htoken] at hst
          cases hst
  | some st =>
      refine map_toOption_eq (fun s' hs' => ?_) (hc st htoken)
      obtain ⟨other, hother, hresult⟩ := hok s' hs'
      rw [htoken] at hother
      cases hother
      exact hresult

theorem issue_specified {receiver : Name} {quantity : Asset} {memo : Text} (h : Backed s) :
    (issue env s receiver quantity memo).toOption.map view =
      specified self (view s) (env, .issue receiver quantity memo) := by
  apply map_tokenOf_eq
  · intro s' hok
    simp only [issue, bind_eq_ok, requireAuth_eq_ok, check_eq_ok, exists_const, expect_eq_ok,
      Asset.add_eq_ok, decide_eq_true_eq, pure_eq_ok] at hok
    obtain ⟨_, hmemo, st, hst, hreceiver, hauth, _, hpositive, _, hmaximum, _,
      ⟨hsymbol, _, _, rfl⟩, t, ht, rfl⟩ := hok
    refine ⟨st, tokenOf_view.mpr ⟨hst, hsymbol.symm⟩,
      ⟨hreceiver, hauth, hpositive, by omega, hmemo⟩, ?_⟩
    exact view_supplied quantity hst hsymbol (addBalance_eq_ok ht)
  · rintro st htoken ⟨hreceiver, hauth, hpositive, hmaximum, hmemo⟩
    obtain ⟨hst, hsymbol⟩ := tokenOf_view.mp htoken
    have hmem := Table.mem_of_find? hst
    have hlimited := h.limited st hmem
    have hmaximumLe := hlimited.maximum_le
    have hvalid := hlimited.valid
    have hheld := h.held_le hmem st.issuer
    have hsupply := h.positive st.issuer st.supply.symbol.code
    rw [hsymbol] at hvalid hheld hsupply
    obtain ⟨t, ht⟩ := addBalance_succeeds st.issuer h.sound ⟨st, hmem, hsymbol⟩
      hpositive (by omega)
    refine ⟨⟨t, s.stat.replace (supplied st quantity.amount)⟩, ?_⟩
    simp only [issue, bind_eq_ok, requireAuth_eq_ok, check_eq_ok, exists_const, expect_eq_ok,
      Asset.add_eq_ok, isValid, Bool.and_eq_true, decide_eq_true_eq, pure_eq_ok]
    exact ⟨hvalid, hmemo, st, hst, hreceiver, hauth, ⟨⟨by omega, by omega⟩, hvalid⟩, hpositive,
      hsymbol.symm, by omega, _, ⟨hsymbol.symm, by omega, by omega, rfl⟩, t, ht, rfl⟩

theorem retire_specified {quantity : Asset} {memo : Text} (h : Backed s) :
    (retire env s quantity memo).toOption.map view =
      specified self (view s) (env, .retire quantity memo) := by
  apply map_tokenOf_eq
  · intro s' hok
    simp only [retire, bind_eq_ok, requireAuth_eq_ok, check_eq_ok, exists_const, expect_eq_ok,
      Asset.sub_eq_ok, decide_eq_true_eq, pure_eq_ok] at hok
    obtain ⟨_, hmemo, st, hst, hauth, _, hpositive, _, _, ⟨hsymbol, _, _, rfl⟩, t, ht, rfl⟩ := hok
    obtain ⟨hle, hmoved⟩ := subBalance_eq_ok ht
    refine ⟨st, tokenOf_view.mpr ⟨hst, hsymbol.symm⟩, ⟨hauth, hpositive, hle, hmemo⟩, ?_⟩
    exact view_supplied quantity.neg hst hsymbol hmoved
  · rintro st htoken ⟨hauth, hpositive, hle, hmemo⟩
    obtain ⟨hst, hsymbol⟩ := tokenOf_view.mp htoken
    have hmem := Table.mem_of_find? hst
    have hlimited := h.limited st hmem
    have hsupply := hlimited.supply_le
    have hmaximum := hlimited.maximum_le
    have hvalid := hlimited.valid
    have hheld := h.held_le hmem st.issuer
    rw [hsymbol] at hvalid hheld
    rw [view_held] at hle
    obtain ⟨t, ht⟩ := subBalance_succeeds h.sound ⟨st, hmem, hsymbol⟩ hpositive hle (by omega)
    refine ⟨⟨t, s.stat.replace (supplied st (-quantity.amount))⟩, ?_⟩
    simp only [retire, bind_eq_ok, requireAuth_eq_ok, check_eq_ok, exists_const, expect_eq_ok,
      Asset.sub_eq_ok, isValid, Bool.and_eq_true, decide_eq_true_eq, pure_eq_ok]
    exact ⟨hvalid, hmemo, st, hst, hauth, ⟨⟨by omega, by omega⟩, hvalid⟩, hpositive, hsymbol.symm,
      _, ⟨hsymbol.symm, by omega, by omega, rfl⟩, t, ht, rfl⟩

theorem transfer_specified {sender receiver : Name} {quantity : Asset} {memo : Text}
    (h : Backed s) :
    (transfer env s sender receiver quantity memo).toOption.map view =
      specified self (view s) (env, .transfer sender receiver quantity memo) := by
  apply map_tokenOf_eq
  · intro s' hok
    obtain ⟨⟨hne, hauth, hreceiver, hpositive, hmemo⟩, ⟨st, hst, hsymbol⟩, hle, t, t', hsub, hadd,
      rfl⟩ := transfer_eq_ok hok
    have hfound := Table.find?_of_mem hst
    simp only [hsymbol] at hfound
    refine ⟨st, tokenOf_view.mpr ⟨hfound, hsymbol⟩,
      ⟨hne, hauth, hreceiver, hpositive, hle, hmemo⟩, ?_⟩
    rw [view_moved hadd, view_moved hsub]
    rfl
  · rintro st htoken ⟨hne, hauth, hreceiver, hpositive, hle, hmemo⟩
    obtain ⟨hst, hsymbol⟩ := tokenOf_view.mp htoken
    have hmem := Table.mem_of_find? hst
    have hlimited := h.limited st hmem
    have hsupply := hlimited.supply_le
    have hmaximum := hlimited.maximum_le
    have hvalid := hlimited.valid
    have hheld := h.held_le hmem sender
    have hissued : Issued s.stat quantity.symbol := ⟨st, hmem, hsymbol⟩
    rw [hsymbol] at hvalid hheld
    rw [view_held] at hle
    obtain ⟨t, ht⟩ := subBalance_succeeds h.sound hissued hpositive hle (by omega)
    obtain ⟨_, hmoved⟩ := subBalance_eq_ok ht
    have hsound : Sound t s.stat := by
      apply hmoved.sound h.sound hissued
      simp only [Asset.neg]
      omega
    -- What the sender gives is no longer a part of the sum when the receiver gets it.
    have hrest := held_le_total hsound.positive receiver quantity.symbol.code
    rw [hmoved.total, ← hsymbol, h.supply st hmem, if_pos (by rw [Asset.neg, hsymbol])] at hrest
    rw [hsymbol] at hrest
    simp only [Asset.neg] at hrest
    obtain ⟨t', ht'⟩ := addBalance_succeeds receiver hsound hissued hpositive (by omega)
    refine ⟨{ s with accounts := t' }, ?_⟩
    simp only [transfer, bind_eq_ok, requireAuth_eq_ok, check_eq_ok, exists_const, expect_eq_ok,
      isValid, Bool.and_eq_true, decide_eq_true_eq, pure_eq_ok]
    exact ⟨hne, hauth, hreceiver, st, hst, ⟨⟨by omega, by omega⟩, hvalid⟩, hpositive, hsymbol.symm,
      hmemo, t, ht, t', ht', rfl⟩

theorem openAccount_specified {owner ramPayer : Name} {symbol : Symbol} (h : Backed s) :
    (openAccount env s owner symbol ramPayer).toOption.map view =
      specified self (view s) (env, .openAccount owner symbol ramPayer) := by
  have hbalance : (view s).balance owner symbol.code = none ↔
      s.accounts.find? (toLex (owner, symbol.code)) = none := Option.map_eq_none_iff
  apply map_tokenOf_eq
  · intro s' hok
    simp only [openAccount, bind_eq_ok, requireAuth_eq_ok, check_eq_ok, exists_const,
      expect_eq_ok, decide_eq_true_eq] at hok
    obtain ⟨hauth, howner, st, hst, hsymbol, hok⟩ := hok
    refine ⟨st, tokenOf_view.mpr ⟨hst, hsymbol⟩, ⟨hauth, howner⟩, ?_⟩
    cases hfound : s.accounts.find? (toLex (owner, symbol.code)) with
    | none =>
        simp only [hfound, bind_eq_ok, asset_eq_ok, expect_eq_ok, pure_eq_ok] at hok
        obtain ⟨_, ⟨_, _, rfl⟩, t, ht, rfl⟩ := hok
        rw [if_pos (hbalance.mpr hfound), view_moved (moved_emplace ⟨0, symbol⟩ hfound ht),
          Ledger.credit, view_held, held_of_not_find? hfound]
        rfl
    | some a =>
        simp only [hfound, pure_eq_ok] at hok
        rw [if_neg, hok]
        rw [hbalance, hfound]
        exact Option.some_ne_none a
  · rintro st htoken ⟨hauth, howner⟩
    obtain ⟨hst, hsymbol⟩ := tokenOf_view.mp htoken
    have hvalid := (h.limited st (Table.mem_of_find? hst)).valid
    rw [hsymbol] at hvalid
    cases hfound : s.accounts.find? (toLex (owner, symbol.code)) with
    | none =>
        obtain ⟨t, ht⟩ := Table.emplace?_isSome (a := (⟨owner, ⟨0, symbol⟩⟩ : Account)) hfound
        refine ⟨{ s with accounts := t }, ?_⟩
        simp only [openAccount, bind_eq_ok, requireAuth_eq_ok, check_eq_ok, exists_const,
          expect_eq_ok, decide_eq_true_eq, hfound, asset_eq_ok, pure_eq_ok]
        exact ⟨hauth, howner, st, hst, hsymbol, ⟨0, symbol⟩, ⟨by decide, hvalid, rfl⟩, t, ht, rfl⟩
    | some a =>
        refine ⟨s, ?_⟩
        simp only [openAccount, bind_eq_ok, requireAuth_eq_ok, check_eq_ok, exists_const,
          expect_eq_ok, decide_eq_true_eq, hfound, pure_eq_ok]
        exact ⟨hauth, howner, st, hst, hsymbol, trivial⟩

theorem close_specified {owner : Name} {symbol : Symbol} :
    (close env s owner symbol).toOption.map view =
      specified self (view s) (env, .close owner symbol) := by
  apply map_toOption_eq
  · intro s' hok
    simp only [close, bind_eq_ok, requireAuth_eq_ok, check_eq_ok, exists_const, expect_eq_ok,
      decide_eq_true_eq, pure_eq_ok] at hok
    obtain ⟨hauth, a, ha, hzero, rfl⟩ := hok
    refine ⟨⟨hauth, ?_⟩, ?_⟩
    · rw [← hzero]
      exact congrArg (Option.map fun b : Account => b.balance.amount) ha
    · have hkey := Table.key_of_find? ha
      have hbalance : (view { s with accounts := s.accounts.erase a.key }).balance =
          ((view s).put owner symbol.code none).balance := by
        funext other code
        simp only [view, Ledger.put, Table.find?_erase, hkey, toLex_eq]
        split
        · rfl
        · rfl
      exact congrArg (fun b => (⟨b, s.stat.find?⟩ : Ledger)) hbalance
  · rintro ⟨hauth, hbalance⟩
    obtain ⟨a, ha, hzero⟩ := Option.map_eq_some_iff.mp hbalance
    refine ⟨{ s with accounts := s.accounts.erase a.key }, ?_⟩
    simp only [close, bind_eq_ok, requireAuth_eq_ok, check_eq_ok, exists_const, expect_eq_ok,
      decide_eq_true_eq, pure_eq_ok]
    exact ⟨hauth, a, ha, hzero, rfl⟩

theorem apply_specified {action : Action} (h : Backed s) :
    (apply self env s action).toOption.map view = specified self (view s) (env, action) := by
  cases action with
  | create issuer maximumSupply => exact create_specified
  | issue receiver quantity memo => exact issue_specified h
  | retire quantity memo => exact retire_specified h
  | transfer sender receiver quantity memo => exact transfer_specified h
  | openAccount owner symbol ramPayer => exact openAccount_specified h
  | close owner symbol => exact close_specified

theorem foldlM_specified (self : Name) (calls : List (Env × Action)) (h : Backed s) :
    (calls.foldlM (contract self).step s).toOption.map view =
      calls.foldlM (specified self) (view s) := by
  induction calls generalizing s with
  | nil => rfl
  | cons call calls ih =>
      have hstep : ((contract self).step s call).toOption.map view =
          specified self (view s) call := apply_specified h
      rw [List.foldlM_cons, List.foldlM_cons, ← hstep]
      cases hcall : (contract self).step s call with
      | error e => rfl
      | ok t => exact ih (apply_backed h hcall)

/-- A transaction succeeds as specified by the ledger and does the same to it: no check of a sum or
of a difference of amounts ever fails. -/
theorem transactions_specified {calls : List (Env × Action)} (h : Reachable self s) :
    ((contract self).run s () calls).toOption.map view =
      calls.foldlM (specified self) (view s) :=
  foldlM_specified self calls (backed_of_reachable h)

/-- The last transfer would take more than alice has left. -/
theorem overdrawn_specified : ∃ s, (contract tokenAccount.name).run {} () firstCalls = .ok s ∧
    (view s).held alice.name eosSymbol.code = 300 ∧
    ((contract tokenAccount.name).run s ()
      [(signedBy bob, .transfer bob.name alice.name (eos 250) []),
        (signedBy alice, .transfer alice.name bob.name (eos 551) [])]).toOption.map view =
      [(signedBy bob, Action.transfer bob.name alice.name (eos 250) []),
        (signedBy alice, .transfer alice.name bob.name (eos 551) [])].foldlM
        (specified tokenAccount.name) (view s) := by
  have hrun : ((contract tokenAccount.name).run {} () firstCalls).toOption.any (fun s =>
      (view s).held alice.name eosSymbol.code = 300) = true := by decide +kernel
  obtain ⟨s, hs, hstate⟩ := (Option.any_eq_true _ _).mp hrun
  have hok := ok_of_toOption hs
  exact ⟨s, hok, of_decide_eq_true hstate,
    transactions_specified (reachable_of_run (.first rfl) hok)⟩

/-! ### Who may change what -/

theorem Ledger.held_credit (l : Ledger) (owner other : Name) (code c : Nat) (amount : Int) :
    (l.credit owner code amount).held other c =
      l.held other c + if other = owner ∧ c = code then amount else 0 := by
  by_cases hkey : other = owner ∧ c = code
  · obtain ⟨rfl, rfl⟩ := hkey
    simp [Ledger.credit, Ledger.put, Ledger.held]
  · simp [Ledger.credit, Ledger.put, Ledger.held, hkey]

/-- A balance falls only by an action that its owner authorises. -/
theorem specified_falls {l l' : Ledger} {call : Env × Action} {owner : Name} {code : Nat}
    (h : specified self l call = some l') (hfall : l'.held owner code < l.held owner code) :
    owner ∈ call.1.auths := by
  obtain ⟨env, action⟩ := call
  cases action with
  | create issuer maximumSupply =>
      simp only [specified, Option.ite_none_right_eq_some, Option.some.injEq] at h
      obtain ⟨_, rfl⟩ := h
      exact absurd hfall (lt_irrefl _)
  | issue receiver quantity memo =>
      simp only [specified, Option.bind_eq_bind, Option.bind_eq_some_iff,
        Option.ite_none_right_eq_some, Option.some.injEq] at h
      obtain ⟨st, _, ⟨_, _, hpositive, _⟩, rfl⟩ := h
      change (l.credit st.issuer quantity.symbol.code quantity.amount).held owner code < _ at hfall
      rw [Ledger.held_credit] at hfall
      split at hfall
      · omega
      · omega
  | retire quantity memo =>
      simp only [specified, Option.bind_eq_bind, Option.bind_eq_some_iff,
        Option.ite_none_right_eq_some, Option.some.injEq] at h
      obtain ⟨st, _, ⟨hauth, _, _, _⟩, rfl⟩ := h
      change (l.credit st.issuer quantity.symbol.code (-quantity.amount)).held owner code < _
        at hfall
      rw [Ledger.held_credit] at hfall
      split at hfall
      · rename_i hkey
        rwa [hkey.1]
      · omega
  | transfer sender receiver quantity memo =>
      simp only [specified, Option.bind_eq_bind, Option.bind_eq_some_iff,
        Option.ite_none_right_eq_some, Option.some.injEq] at h
      obtain ⟨_, _, ⟨_, hauth, _, hpositive, _⟩, rfl⟩ := h
      rw [Ledger.held_credit, Ledger.held_credit] at hfall
      by_cases hsender : owner = sender
      · rwa [hsender]
      · rw [if_neg fun hkey => hsender hkey.1] at hfall
        split at hfall
        · omega
        · omega
  | openAccount other symbol ramPayer =>
      simp only [specified, Option.bind_eq_bind, Option.bind_eq_some_iff,
        Option.ite_none_right_eq_some, Option.some.injEq] at h
      obtain ⟨_, _, _, rfl⟩ := h
      split at hfall
      · rename_i hnone
        simp only [Ledger.held, Ledger.put] at hfall
        split at hfall
        · rename_i hkey
          rw [hkey.1, hkey.2, hnone] at hfall
          exact absurd hfall (lt_irrefl _)
        · exact absurd hfall (lt_irrefl _)
      · exact absurd hfall (lt_irrefl _)
  | close other symbol =>
      simp only [specified, Option.ite_none_right_eq_some, Option.some.injEq] at h
      obtain ⟨⟨_, hzero⟩, rfl⟩ := h
      simp only [Ledger.held, Ledger.put] at hfall
      split at hfall
      · rename_i hkey
        rw [hkey.1, hkey.2, hzero] at hfall
        exact absurd hfall (lt_irrefl _)
      · exact absurd hfall (lt_irrefl _)

/-- A later state of a token: its supply differs only if its issuer has authorised something. -/
structure Supplied (calls : List (Env × Action)) (st st' : CurrencyStats) : Prop where
  maxSupply : st'.maxSupply = st.maxSupply
  issuer : st'.issuer = st.issuer
  symbol : st'.supply.symbol = st.supply.symbol
  signed : st'.supply.amount ≠ st.supply.amount → ∃ call ∈ calls, st.issuer ∈ call.1.auths

theorem Supplied.refl (calls : List (Env × Action)) (st : CurrencyStats) : Supplied calls st st :=
  ⟨rfl, rfl, rfl, fun hne => absurd rfl hne⟩

theorem Supplied.trans {call : Env × Action} {calls : List (Env × Action)}
    {st st' st'' : CurrencyStats} (h : Supplied [call] st st') (h' : Supplied calls st' st'') :
    Supplied (call :: calls) st st'' := by
  refine ⟨h'.maxSupply.trans h.maxSupply, h'.issuer.trans h.issuer, h'.symbol.trans h.symbol,
    fun hne => ?_⟩
  by_cases hfirst : st'.supply.amount = st.supply.amount
  · rw [← hfirst] at hne
    obtain ⟨later, hlater, hauth⟩ := h'.signed hne
    exact ⟨later, List.mem_cons_of_mem _ hlater, h.issuer ▸ hauth⟩
  · obtain ⟨only, honly, hauth⟩ := h.signed hfirst
    exact ⟨only, List.mem_cons.mpr (.inl (List.mem_singleton.mp honly)), hauth⟩

/-- A new supply of a token that its issuer authorises. -/
theorem define_supplied {l : Ledger} {call : Env × Action} {st other : CurrencyStats} {code : Nat}
    {symbol : Symbol} (amount : Int) (hother : l.tokenOf symbol = some other)
    (hauth : other.issuer ∈ call.1.auths) (hst : l.issued code = some st) :
    ∃ st', (l.define (supplied other amount)).issued code = some st' ∧ Supplied [call] st st' := by
  obtain ⟨hfound, hsymbol⟩ := Option.filter_eq_some_iff.mp hother
  have hcode : (supplied other amount).supply.symbol.code = symbol.code :=
    congrArg Symbol.code (of_decide_eq_true hsymbol)
  simp only [Ledger.define, hcode]
  split
  · rename_i heq
    rw [heq, hfound, Option.some.injEq] at hst
    subst hst
    exact ⟨_, rfl, rfl, rfl, rfl, fun _ => ⟨call, List.mem_singleton_self _, hauth⟩⟩
  · exact ⟨st, hst, .refl _ st⟩

theorem specified_supplied {l l' : Ledger} {call : Env × Action} {st : CurrencyStats} {code : Nat}
    (h : specified self l call = some l') (hst : l.issued code = some st) :
    ∃ st', l'.issued code = some st' ∧ Supplied [call] st st' := by
  obtain ⟨env, action⟩ := call
  cases action with
  | create issuer maximumSupply =>
      simp only [specified, Option.ite_none_right_eq_some, Option.some.injEq] at h
      obtain ⟨⟨_, _, _, _, hnew⟩, rfl⟩ := h
      refine ⟨st, ?_, .refl _ st⟩
      simp only [Ledger.define]
      rw [if_neg, hst]
      rintro rfl
      rw [hnew] at hst
      cases hst
  | issue receiver quantity memo =>
      simp only [specified, Option.bind_eq_bind, Option.bind_eq_some_iff,
        Option.ite_none_right_eq_some, Option.some.injEq] at h
      obtain ⟨other, hother, ⟨_, hauth, _⟩, rfl⟩ := h
      exact define_supplied quantity.amount hother hauth hst
  | retire quantity memo =>
      simp only [specified, Option.bind_eq_bind, Option.bind_eq_some_iff,
        Option.ite_none_right_eq_some, Option.some.injEq] at h
      obtain ⟨other, hother, ⟨hauth, _⟩, rfl⟩ := h
      exact define_supplied (-quantity.amount) hother hauth hst
  | transfer sender receiver quantity memo =>
      simp only [specified, Option.bind_eq_bind, Option.bind_eq_some_iff,
        Option.ite_none_right_eq_some, Option.some.injEq] at h
      obtain ⟨_, _, _, rfl⟩ := h
      exact ⟨st, hst, .refl _ st⟩
  | openAccount owner symbol ramPayer =>
      simp only [specified, Option.bind_eq_bind, Option.bind_eq_some_iff,
        Option.ite_none_right_eq_some, Option.some.injEq] at h
      obtain ⟨_, _, _, rfl⟩ := h
      refine ⟨st, ?_, .refl _ st⟩
      split
      · exact hst
      · exact hst
  | close owner symbol =>
      simp only [specified, Option.ite_none_right_eq_some, Option.some.injEq] at h
      obtain ⟨_, rfl⟩ := h
      exact ⟨st, hst, .refl _ st⟩

theorem falls_of_foldlM {l l' : Ledger} {calls : List (Env × Action)} {owner : Name} {code : Nat}
    (h : calls.foldlM (specified self) l = some l')
    (hfall : l'.held owner code < l.held owner code) : ∃ call ∈ calls, owner ∈ call.1.auths := by
  induction calls generalizing l with
  | nil =>
      cases h
      exact absurd hfall (lt_irrefl _)
  | cons call calls ih =>
      rw [List.foldlM_cons, Option.bind_eq_bind, Option.bind_eq_some_iff] at h
      obtain ⟨m, hm, hrest⟩ := h
      by_cases hfirst : m.held owner code < l.held owner code
      · exact ⟨call, List.mem_cons_self, specified_falls hm hfirst⟩
      · obtain ⟨later, hlater, hauth⟩ := ih hrest (by omega)
        exact ⟨later, List.mem_cons_of_mem _ hlater, hauth⟩

theorem supplied_of_foldlM {l l' : Ledger} {calls : List (Env × Action)} {st : CurrencyStats}
    {code : Nat} (h : calls.foldlM (specified self) l = some l') (hst : l.issued code = some st) :
    ∃ st', l'.issued code = some st' ∧ Supplied calls st st' := by
  induction calls generalizing l st with
  | nil =>
      cases h
      exact ⟨st, hst, .refl _ st⟩
  | cons call calls ih =>
      rw [List.foldlM_cons, Option.bind_eq_bind, Option.bind_eq_some_iff] at h
      obtain ⟨m, hm, hrest⟩ := h
      obtain ⟨first, hfirst, hsupplied⟩ := specified_supplied hm hst
      obtain ⟨last, hlast, hlater⟩ := ih hrest hfirst
      exact ⟨last, hlast, hsupplied.trans hlater⟩

/-- In no run of actions does a balance fall without its owner, nor does a supply change without
its issuer; the issuer and the maximum of a token stay as they were created. -/
theorem only_signers_lose {calls : List (Env × Action)} (h : Reachable self s)
    (hrun : (contract self).run s () calls = .ok s') :
    (∀ owner code, held s'.accounts owner code < held s.accounts owner code →
      ∃ call ∈ calls, owner ∈ call.1.auths) ∧
    ∀ st ∈ s.stat.rows, ∃ st' ∈ s'.stat.rows, Supplied calls st st' := by
  have hfold := foldlM_specified self calls (backed_of_reachable h)
  have hok : calls.foldlM (contract self).step s = .ok s' := hrun
  rw [hok] at hfold
  refine ⟨fun owner code hfall => falls_of_foldlM hfold.symm hfall, fun st hst => ?_⟩
  obtain ⟨st', hst', hsupplied⟩ := supplied_of_foldlM hfold.symm (Table.find?_of_mem hst)
  exact ⟨st', Table.mem_of_find? hst', hsupplied⟩

/-- Bob's balance falls, and the supply of alice stays. -/
theorem returned_signed : ∃ s s', (contract tokenAccount.name).run {} () firstCalls = .ok s ∧
    (contract tokenAccount.name).run s ()
      [(signedBy bob, .transfer bob.name alice.name (eos 250) [])] = .ok s' ∧
    held s'.accounts bob.name eosSymbol.code < held s.accounts bob.name eosSymbol.code ∧
    (∀ owner code, held s'.accounts owner code < held s.accounts owner code →
      ∃ call ∈ [(signedBy bob, Action.transfer bob.name alice.name (eos 250) [])],
        owner ∈ call.1.auths) ∧
    ∀ st ∈ s.stat.rows, ∃ st' ∈ s'.stat.rows,
      Supplied [(signedBy bob, .transfer bob.name alice.name (eos 250) [])] st st' := by
  have hrun : ((contract tokenAccount.name).run {} () firstCalls).toOption.any (fun s =>
      ((contract tokenAccount.name).run s ()
        [(signedBy bob, .transfer bob.name alice.name (eos 250) [])]).toOption.any fun s' =>
          held s'.accounts bob.name eosSymbol.code < held s.accounts bob.name eosSymbol.code) =
        true := by decide +kernel
  obtain ⟨s, hs, hnext⟩ := (Option.any_eq_true _ _).mp hrun
  obtain ⟨s', hs', hfall⟩ := (Option.any_eq_true _ _).mp hnext
  have hok := ok_of_toOption hs
  have hok' := ok_of_toOption hs'
  exact ⟨s, s', hok, hok', of_decide_eq_true hfall,
    only_signers_lose (reachable_of_run (.first rfl) hok) hok'⟩

end Eden.TokenLedger
