import Eden.SessionReplay

/-!
The sequence numbers of a session. A session remembers the last twenty numbers that it has accepted,
and takes no number a second time: a number that it has forgotten is smaller than those it
remembers.
-/

namespace Eden.SequenceWindows

open Eden.ExceptReasoning
open Eden.SortedTable
open Eden.TransactionRuns
open Eden.ChainPrimitives
open Eden.ContractState
open Eden.Runtime
open Eden.MemberTable
open Eden.ContractActions
open Eden.Transactions
open Eden.HostFunctions
open Eden.SessionActions
open Eden.SessionReplay

/-! ### Windows -/

/-- A number takes its place in a list in ascending order. -/
def inserted (sequences : List Nat) (n : Nat) : List Nat :=
  (sequences.takeWhile fun used => used < n) ++ n :: sequences.dropWhile fun used => used < n

theorem mem_inserted {sequences : List Nat} {n m : Nat} :
    m ∈ inserted sequences n ↔ m = n ∨ m ∈ sequences := by
  have hsplit : m ∈ sequences ↔ m ∈ sequences.takeWhile (fun used => used < n) ∨
      m ∈ sequences.dropWhile fun used => used < n := by
    rw [← List.mem_append, List.takeWhile_append_dropWhile]
  rw [hsplit, inserted, List.mem_append, List.mem_cons]
  exact or_left_comm

theorem length_inserted (sequences : List Nat) (n : Nat) :
    (inserted sequences n).length = sequences.length + 1 := by
  have hlength := congrArg List.length
    (List.takeWhile_append_dropWhile (p := fun used => decide (used < n)) (l := sequences))
  rw [List.length_append] at hlength
  rw [inserted, List.length_append, List.length_cons, ← hlength]
  omega

theorem inserted_ascending {sequences : List Nat} {n : Nat} (h : sequences.Pairwise (· < ·))
    (hnew : n ∉ sequences) : (inserted sequences n).Pairwise (· < ·) := by
  induction sequences with
  | nil => exact List.pairwise_singleton _ _
  | cons first rest ih =>
      obtain ⟨hfirst, hrest⟩ := List.pairwise_cons.mp h
      obtain ⟨hne, hrestnew⟩ := List.ne_and_not_mem_of_not_mem_cons hnew
      by_cases hlt : first < n
      · have hcons : inserted (first :: rest) n = first :: inserted rest n := by
          simp [inserted, hlt]
        rw [hcons, List.pairwise_cons]
        refine ⟨fun m hm => ?_, ih hrest hrestnew⟩
        rcases mem_inserted.mp hm with rfl | hm
        · exact hlt
        · exact hfirst m hm
      · have hcons : inserted (first :: rest) n = n :: first :: rest := by
          simp [inserted, hlt]
        have hbelow : n < first := lt_of_le_of_ne (not_lt.mp hlt) hne
        rw [hcons, List.pairwise_cons]
        refine ⟨fun m hm => ?_, h⟩
        rcases List.mem_cons.mp hm with rfl | hm
        · exact hbelow
        · exact hbelow.trans (hfirst m hm)

/-- The search of the lower bound finds a number that is there. -/
theorem head?_dropWhile_of_mem {sequences : List Nat} {n : Nat} (h : sequences.Pairwise (· < ·))
    (hmem : n ∈ sequences) : (sequences.dropWhile fun used => used < n).head? = some n := by
  induction sequences with
  | nil => cases hmem
  | cons first rest ih =>
      obtain ⟨hfirst, hrest⟩ := List.pairwise_cons.mp h
      rcases List.mem_cons.mp hmem with rfl | hmem
      · simp
      · have hlt : first < n := hfirst n hmem
        simp only [List.dropWhile_cons, hlt, decide_true, if_true]
        exact ih hrest hmem

/-- What an accepted number says of those that are remembered. -/
theorem useSequence_eq_ok {sequences sequences' : List Nat} {n : Nat}
    (hascending : sequences.Pairwise (· < ·)) (h : useSequence sequences n = .ok sequences') :
    n ∉ sequences ∧ (20 ≤ sequences.length → ∃ m ∈ sequences, m ≤ n) ∧
      sequences' = if 20 < (inserted sequences n).length then (inserted sequences n).tail
        else inserted sequences n := by
  simp only [useSequence, bind_eq_ok, check_eq_ok, pure_eq_ok] at h
  obtain ⟨_, hwindow, _, hduplicate, rfl⟩ := h
  refine ⟨fun hmem => ?_, fun hfull => ?_, rfl⟩
  · exact of_decide_eq_true hduplicate (head?_dropWhile_of_mem hascending hmem)
  · cases sequences with
    | nil => simp at hfull
    | cons first rest =>
        refine ⟨first, List.mem_cons_self, ?_⟩
        rw [List.head?_cons, List.getLast?_cons] at hwindow
        simp only at hwindow
        split at hwindow
        · cases hwindow
        · rename_i hsmaller
          exact not_lt.mp fun hlt => hsmaller ⟨hlt, hfull⟩

/-- What a session remembers of the numbers that it has accepted. -/
structure Remembers (sequences accepted : List Nat) : Prop where
  ascending : sequences.Pairwise (· < ·)
  bounded : sequences.length ≤ 20
  kept : ∀ n ∈ accepted,
    n ∈ sequences ∨ (sequences.length = 20 ∧ ∀ m ∈ sequences, n < m)

namespace Remembers

variable {sequences sequences' accepted : List Nat} {n : Nat}

theorem nil : Remembers [] [] := ⟨.nil, Nat.zero_le _, by simp⟩

/-- A number that is accepted has not been accepted before. -/
theorem fresh (h : Remembers sequences accepted)
    (huse : useSequence sequences n = .ok sequences') : n ∉ accepted := by
  obtain ⟨hnew, hwindow, -⟩ := useSequence_eq_ok h.ascending huse
  intro hmem
  rcases h.kept n hmem with hstored | ⟨hfull, hsmaller⟩
  · exact hnew hstored
  · obtain ⟨m, hm, hle⟩ := hwindow hfull.ge
    exact absurd (hsmaller m hm) (not_lt.mpr hle)

theorem use (h : Remembers sequences accepted)
    (huse : useSequence sequences n = .ok sequences') :
    Remembers sequences' (accepted ++ [n]) := by
  obtain ⟨hnew, hwindow, hstored⟩ := useSequence_eq_ok h.ascending huse
  have hascending := inserted_ascending h.ascending hnew
  have hlength := length_inserted sequences n
  have hbounded := h.bounded
  by_cases hfull : 20 < (inserted sequences n).length
  · rw [if_pos hfull] at hstored
    obtain ⟨first, rest, hsplit⟩ : ∃ first rest, inserted sequences n = first :: rest :=
      List.exists_cons_of_length_pos (by omega)
    rw [hsplit] at hascending hlength hstored
    obtain ⟨hfirst, hrest⟩ := List.pairwise_cons.mp hascending
    rw [List.tail_cons] at hstored
    subst hstored
    have hmem : ∀ m, m ∈ first :: sequences' ↔ m = n ∨ m ∈ sequences := fun m =>
      hsplit ▸ mem_inserted
    have hlast : sequences'.length = 20 := by
      rw [hsplit] at hfull
      rw [List.length_cons] at hlength hfull
      omega
    -- the number that is forgotten is smaller than those that stay
    have hkept : ∀ m, m = n ∨ m ∈ sequences →
        m ∈ sequences' ∨ (sequences'.length = 20 ∧ ∀ k ∈ sequences', m < k) := by
      intro m hm
      rcases List.mem_cons.mp ((hmem m).mpr hm) with rfl | hm
      · exact .inr ⟨hlast, hfirst⟩
      · exact .inl hm
    refine ⟨hrest, hlast.le, fun m hm => ?_⟩
    rcases List.mem_append.mp hm with hm | hm
    · rcases h.kept m hm with hm | ⟨-, hsmaller⟩
      · exact hkept m (.inr hm)
      · obtain ⟨k, hk, hle⟩ := hwindow (by rw [List.length_cons] at hlength; omega)
        refine .inr ⟨hlast, fun k' hk' => ?_⟩
        rcases (hmem k').mp (List.mem_cons_of_mem _ hk') with rfl | hk'
        · exact (hsmaller k hk).trans_le hle
        · exact hsmaller k' hk'
    · exact hkept m (.inl (List.mem_singleton.mp hm))
  · rw [if_neg hfull] at hstored
    subst hstored
    refine ⟨hascending, not_lt.mp hfull, fun m hm => .inl (mem_inserted.mpr ?_)⟩
    rcases List.mem_append.mp hm with hm | hm
    · rcases h.kept m hm with hm | ⟨hfull', -⟩
      · exact .inr hm
      · omega
    · exact .inl (List.mem_singleton.mp hm)

end Remembers

/-! ### Stored sessions -/

variable {p : Platform} {keys : KeyHost} {env : Env} {s s' : State}

/-- The sessions of each account. -/
def sessionsIn (t : Table SessionContainer.edenAccount) (account : Name) : List Session :=
  ((t.find? account).map SessionContainer.sessions).getD []

theorem sessionsIn_some {t : Table SessionContainer.edenAccount} {account : Name}
    {sc : SessionContainer} (h : t.find? account = some sc) :
    sessionsIn t account = sc.sessions := by
  rw [sessionsIn, h]
  rfl

theorem sessionsIn_none {t : Table SessionContainer.edenAccount} {account : Name}
    (h : t.find? account = none) : sessionsIn t account = [] := by
  rw [sessionsIn, h]
  rfl

theorem sessionsIn_erase (t : Table SessionContainer.edenAccount) (account : Name) :
    sessionsIn (t.erase account) = Function.update (sessionsIn t) account [] := by
  funext other
  by_cases howner : other = account
  · subst howner
    rw [Function.update_self]
    exact sessionsIn_none (by rw [Table.find?_erase, if_pos rfl])
  · rw [Function.update_of_ne howner, sessionsIn, sessionsIn, Table.find?_erase,
      if_neg (Ne.symm howner)]

/-- A container takes the place of another one. -/
theorem sessionsIn_replaced {t : Table SessionContainer.edenAccount} {account : Name}
    {sc : SessionContainer} (h : t.find? account = some sc) (stored : SessionContainer) :
    sessionsIn (t.modify account (fun row => { stored with edenAccount := row.edenAccount })
        fun _ => rfl) = Function.update (sessionsIn t) account stored.sessions := by
  funext other
  by_cases howner : other = account
  · subst howner
    rw [Function.update_self, sessionsIn, Table.find?_modify, if_pos rfl, h]
    rfl
  · rw [Function.update_of_ne howner, sessionsIn, sessionsIn, Table.find?_modify,
      if_neg (Ne.symm howner)]

theorem sessionsIn_storeContainer {account : Name} {sc : SessionContainer} (o : Output)
    (h : s.sessions.find? account = some sc) (stored : SessionContainer) :
    sessionsIn (storeContainer s o account stored).sessions =
      Function.update (sessionsIn s.sessions) account stored.sessions :=
  sessionsIn_replaced h stored

theorem sessionsIn_dropped {account : Name} {sc : SessionContainer} (o : Output)
    (h : s.sessions.find? account = some sc) (stored : SessionContainer) :
    sessionsIn ((storeContainer s o account stored).sessions.erase account) =
      Function.update (sessionsIn s.sessions) account [] := by
  rw [sessionsIn_erase, sessionsIn_storeContainer o h, Function.update_idem]

/-- Some sessions have been deleted, and those that are left are as they were. -/
def Shrinks (s s' : State) : Prop :=
  ∀ account, (sessionsIn s'.sessions account).Sublist (sessionsIn s.sessions account)

theorem Shrinks.of_update {account : Name} {kept : List Session}
    (hsessions : sessionsIn s'.sessions = Function.update (sessionsIn s.sessions) account kept)
    (hkept : kept.Sublist (sessionsIn s.sessions account)) : Shrinks s s' := by
  intro other
  rw [hsessions]
  by_cases howner : other = account
  · subst howner
    rwa [Function.update_self]
  · rw [Function.update_of_ne howner]

theorem shrinks_removeSessions (s : State) (account : Name) :
    Shrinks s (removeSessions p s account) := by
  unfold removeSessions
  split
  · exact fun _ => .refl _
  · exact .of_update (sessionsIn_erase _ _) (List.nil_sublist _)

theorem shrinks_gcSessions (n : Nat) (s : State) : Shrinks s (gcSessions p n s).2 := by
  induction n generalizing s with
  | zero => exact fun _ => .refl _
  | succ n ih =>
      unfold gcSessions
      split
      · exact fun _ => .refl _
      · rename_i sc rest hindex
        have hmem : sc ∈ s.sessions.rows := by
          have hfirst : sc ∈ s.sessions.index SessionContainer.earliestExpiration :=
            hindex ▸ List.mem_cons_self
          exact (List.perm_insertionSort _ _).mem_iff.mp hfirst
        have hsc : s.sessions.find? sc.edenAccount = some sc := Table.find?_of_mem hmem
        split
        · refine fun account => (ih _ account).trans ?_
          have hkept : ((expireSessions s.now sc).sessions).Sublist
              (sessionsIn s.sessions sc.edenAccount) := by
            rw [sessionsIn_some hsc]
            exact List.filter_sublist
          refine Shrinks.of_update ?_ hkept account
          by_cases hnone : (expireSessions s.now sc).sessions = []
          · rw [if_pos hnone, sessionsIn_erase, hnone]
          · rw [if_neg hnone]
            exact sessionsIn_replaced hsc (expireSessions s.now sc)
        · exact fun _ => .refl _

theorem shrinks_deletes : Deletes p Shrinks where
  of_eq _ hsessions := by
    intro account
    rw [hsessions]
  trans h h' := fun account => (h' account).trans (h account)
  removeSessions := shrinks_removeSessions
  gcSessions := shrinks_gcSessions

/-- The sessions of each account have different keys. -/
def Apart (s : State) : Prop := ∀ account, ((sessionsIn s.sessions account).map Session.key).Nodup

theorem Shrinks.apart (h : Shrinks s s') (hs : Apart s) : Apart s' :=
  fun account => (hs account).sublist ((h account).map _)

theorem apart_of_update {account : Name} {stored : List Session}
    (hsessions : sessionsIn s'.sessions = Function.update (sessionsIn s.sessions) account stored)
    (hstored : (stored.map Session.key).Nodup) (hs : Apart s) : Apart s' := by
  intro other
  rw [hsessions]
  by_cases howner : other = account
  · subst howner
    rwa [Function.update_self]
  · rw [Function.update_of_ne howner]
    exact hs other

/-! ### Calls -/

/-- The number that a call uses for the session of a key. -/
def numberOf (account : Name) (key : PublicKey) : SessionCall → Option Nat
  | .run (.signatureAuth recovered _ edenAccount sequence) _ =>
      if edenAccount = account ∧ recovered = key then some sequence else none
  | _ => none

/-- A call creates the session of a key. -/
def creates (account : Name) (key : PublicKey) : SessionCall → Bool
  | .newsession edenAccount newKey _ _ => edenAccount = account ∧ newKey = key
  | _ => false

/-- The sessions of a key after a part of a call come from sessions before it, whose numbers have
changed with the one that is used. -/
def Uses (account : Name) (key : PublicKey) (used : Option Nat) (s s' : State) : Prop :=
  ∀ session' ∈ sessionsIn s'.sessions account, session'.key = key →
    ∃ session ∈ sessionsIn s.sessions account, session.key = key ∧
      match used with
      | none => session'.sequences = session.sequences
      | some n => useSequence session.sequences n = .ok session'.sequences

theorem Shrinks.uses (h : Shrinks s s') (account : Name) (key : PublicKey) :
    Uses account key none s s' :=
  fun session' hmem hkey => ⟨session', (h account).subset hmem, hkey, rfl⟩

theorem Uses.shrink {account : Name} {key : PublicKey} {used : Option Nat} {t : State}
    (h : Uses account key used s t) (ht : Shrinks t s') : Uses account key used s s' :=
  fun session' hmem hkey => h session' ((ht account).subset hmem) hkey

theorem mem_set_idxOf {sessions : List Session} {session other : Session} {sequences : List Nat}
    (hkeys : (sessions.map Session.key).Nodup) (hmem : session ∈ sessions) :
    other ∈ sessions.set (sessions.idxOf session) { session with sequences := sequences } →
      other = { session with sequences := sequences } ∨
        (other ∈ sessions ∧ other.key ≠ session.key) := by
  induction sessions with
  | nil => cases hmem
  | cons first rest ih =>
      rw [List.map_cons, List.nodup_cons] at hkeys
      by_cases hfirst : first = session
      · subst hfirst
        rw [List.idxOf_cons_self, List.set_cons_zero, List.mem_cons]
        refine Or.imp_right fun hother => ⟨List.mem_cons_of_mem _ hother, fun hkey => ?_⟩
        exact hkeys.1 (hkey ▸ List.mem_map_of_mem hother)
      · have hrest : session ∈ rest := (List.mem_cons.mp hmem).resolve_left (Ne.symm hfirst)
        rw [List.idxOf_cons_ne _ hfirst, List.set_cons_succ, List.mem_cons]
        rintro (rfl | hother)
        · refine .inr ⟨List.mem_cons_self, fun hkey => hkeys.1 ?_⟩
          rw [hkey]
          exact List.mem_map_of_mem hrest
        · exact (ih hkeys.2 hrest hother).imp_right fun h => ⟨List.mem_cons_of_mem _ h.1, h.2⟩

theorem keys_set_idxOf {sessions : List Session} {session : Session} (sequences : List Nat)
    (hmem : session ∈ sessions) :
    (sessions.set (sessions.idxOf session) { session with sequences := sequences }).map
      Session.key = sessions.map Session.key := by
  rw [List.map_set]
  have hlt : sessions.idxOf session < sessions.length := List.idxOf_lt_length_iff.mpr hmem
  refine List.ext_getElem? fun i => ?_
  rw [List.getElem?_set]
  split
  · rename_i hindex
    subst hindex
    rw [List.length_map, if_pos hlt, List.getElem?_map, List.getElem?_idxOf hmem]
    rfl
  · rfl

/-- The session of a recovered key uses a number, and the other ones are kept or deleted. -/
theorem useSession_uses {edenAccount : Name} {recovered : PublicKey} {n : Nat} (hs : Apart s)
    (h : useSession p keys s edenAccount recovered n = .ok s') :
    Apart s' ∧ (∃ session ∈ sessionsIn s.sessions edenAccount, session.key = recovered ∧
        ∃ sequences, useSequence session.sequences n = .ok sequences) ∧
      ∀ account key, Uses account key
        (if edenAccount = account ∧ recovered = key then some n else none) s s' := by
  simp only [useSession, bind_eq_ok, expect_eq_ok, pure_eq_ok] at h
  obtain ⟨sc, hsc, session, hsession, sequences, hused, hs'⟩ := h
  have hkept : (expire p s.now s.output sc).2.sessions.Sublist
      (sessionsIn s.sessions edenAccount) := by
    rw [sessionsIn_some hsc]
    exact List.filter_sublist
  have hkeys := (hs edenAccount).sublist (hkept.map Session.key)
  have hmem : session ∈ (expire p s.now s.output sc).2.sessions :=
    List.mem_of_find?_eq_some hsession
  have hkey : session.key = recovered := of_decide_eq_true (List.find?_some hsession :)
  have hstored : sessionsIn s'.sessions = Function.update (sessionsIn s.sessions) edenAccount
      ((expire p s.now s.output sc).2.sessions.set
        ((expire p s.now s.output sc).2.sessions.idxOf session)
        { session with sequences := sequences }) :=
    hs' ▸ sessionsIn_storeContainer _ hsc _
  refine ⟨apart_of_update hstored ?_ hs, ⟨session, hkept.subset hmem, hkey, sequences, hused⟩, ?_⟩
  · rwa [keys_set_idxOf sequences hmem]
  · intro account key session' hsession' hkey'
    rw [hstored] at hsession'
    by_cases howner : account = edenAccount
    · subst howner
      rw [Function.update_self] at hsession'
      rcases mem_set_idxOf hkeys hmem hsession' with rfl | ⟨hother, hne⟩
      · have hsame : recovered = key := hkey.symm.trans hkey'
        rw [if_pos ⟨rfl, hsame⟩]
        exact ⟨session, hkept.subset hmem, hkey', hused⟩
      · have hdiffers : ¬ recovered = key := fun hsame =>
          hne (hkey'.trans (hsame.symm.trans hkey.symm))
        rw [if_neg fun hboth => hdiffers hboth.2]
        exact ⟨session', hkept.subset hother, hkey', rfl⟩
    · rw [Function.update_of_ne howner] at hsession'
      rw [if_neg fun hboth => howner hboth.1.symm]
      exact ⟨session', hsession', hkey', rfl⟩

theorem shrinks_delsession {edenAccount : Name} {key : PublicKey}
    (h : delsession p env s edenAccount key = .ok s') : Shrinks s s' := by
  simp only [delsession, bind_eq_ok, expect_eq_ok] at h
  obtain ⟨-, -, sc, hsc, session, hsession, h⟩ := h
  have hkept : ((sc.sessions.erase session).filter fun session =>
      s.now < session.expiration).Sublist (sessionsIn s.sessions edenAccount) := by
    rw [sessionsIn_some hsc]
    exact List.filter_sublist.trans List.erase_sublist
  split at h
  · cases h
    exact .of_update (sessionsIn_dropped _ hsc _) (List.nil_sublist _)
  · cases h
    exact .of_update (sessionsIn_storeContainer _ hsc _) hkept

/-- A new session has used no number, and the other ones are kept or deleted. -/
theorem newsession_uses {edenAccount : Name} {newKey : PublicKey} {expiration : Nat}
    {description : Text} (hs : Apart s)
    (h : newsession p keys env s edenAccount newKey expiration description = .ok s') :
    Apart s' ∧ ∀ account key, ∀ session' ∈ sessionsIn s'.sessions account, session'.key = key →
      if edenAccount = account ∧ newKey = key then session'.sequences = []
      else session' ∈ sessionsIn s.sessions account := by
  -- the sessions of the account are some of those before, with the new one
  obtain ⟨old, stored, hold, hnew, hstored, hsessions⟩ : ∃ old stored : List Session,
      old.Sublist (sessionsIn s.sessions edenAccount) ∧ (∀ other ∈ old, other.key ≠ newKey) ∧
      stored.Sublist (old ++ [(⟨newKey, expiration, description, []⟩ : Session)]) ∧
      sessionsIn s'.sessions = Function.update (sessionsIn s.sessions) edenAccount stored := by
    simp only [newsession, bind_eq_ok] at h
    obtain ⟨-, -, -, -, -, -, -, -, -, -, g, -, member, -, t, ht, h⟩ := h
    cases h
    split at ht
    · rename_i hnone
      simp only [bind_eq_ok, expect_eq_ok, pure_eq_ok] at ht
      obtain ⟨sessions, hsessions, rfl⟩ := ht
      refine ⟨[], [⟨newKey, expiration, description, []⟩], List.nil_sublist _, by simp,
        List.Sublist.refl _, ?_⟩
      funext other
      change sessionsIn sessions other = _
      rw [sessionsIn, Table.find?_emplace? hsessions]
      by_cases howner : other = edenAccount
      · subst howner
        rw [if_pos rfl, Function.update_self]
        rfl
      · rw [if_neg (Ne.symm howner), Function.update_of_ne howner]
        rfl
    · rename_i sc hsc
      simp only [bind_eq_ok, check_eq_ok, pure_eq_ok] at ht
      obtain ⟨-, hfresh, rfl⟩ := ht
      refine ⟨(expire p s.now s.output sc).2.sessions, _, ?_, fun other hother => ?_, ?_,
        sessionsIn_storeContainer _ hsc _⟩
      · rw [sessionsIn_some hsc]
        exact List.filter_sublist
      · exact of_decide_eq_true (List.all_eq_true.mp hfresh other hother)
      · change (if _ then _ else _ : List Session).Sublist _
        split
        · exact List.tail_sublist _
        · exact .refl _
  have hkeys : ((old ++ [(⟨newKey, expiration, description, []⟩ : Session)]).map
      Session.key).Nodup := by
    rw [List.map_append, List.map_singleton, List.nodup_append]
    refine ⟨(hs edenAccount).sublist (hold.map _), List.nodup_singleton _, ?_⟩
    rintro a ha b hb rfl
    obtain ⟨other, hother, hkey⟩ := List.mem_map.mp ha
    exact hnew other hother (hkey.trans (List.mem_singleton.mp hb))
  refine ⟨apart_of_update hsessions (hkeys.sublist (hstored.map _)) hs, ?_⟩
  intro account key session' hmem hkey
  rw [hsessions] at hmem
  by_cases howner : account = edenAccount
  · subst howner
    rw [Function.update_self] at hmem
    rcases List.mem_append.mp (hstored.subset hmem) with hother | hother
    · rw [if_neg fun hboth => hnew session' hother (hkey.trans hboth.2.symm)]
      exact hold.subset hother
    · rw [List.mem_singleton] at hother
      subst hother
      rw [if_pos ⟨rfl, hkey⟩]
  · rw [Function.update_of_ne howner] at hmem
    rwa [if_neg fun hboth => howner hboth.1.symm]

/-- What a call does to the sessions of a key. -/
structure Handles (account : Name) (key : PublicKey) (call : SessionCall) (s s' : State) :
    Prop where
  apart : Apart s'
  created : creates account key call = true →
    ∀ session ∈ sessionsIn s'.sessions account, session.key = key → session.sequences = []
  kept : creates account key call = false → Uses account key (numberOf account key call) s s'
  used : ∀ n, numberOf account key call = some n →
    ∃ session ∈ sessionsIn s.sessions account, session.key = key ∧
      ∃ sequences, useSequence session.sequences n = .ok sequences

/-- A call that creates no session and uses no number. -/
theorem Shrinks.handles {account : Name} {key : PublicKey} {call : SessionCall}
    (h : Shrinks s s') (hs : Apart s) (hcreates : creates account key call = false)
    (hnumber : numberOf account key call = none) : Handles account key call s s' where
  apart := h.apart hs
  created hcreates' := absurd (hcreates.symm.trans hcreates') Bool.false_ne_true
  kept _ := hnumber ▸ h.uses account key
  used n hn := by
    rw [hnumber] at hn
    cases hn

theorem handles_run {auth : RunAuth} {verbs : List Action} (hs : Apart s)
    (h : run p keys env s auth verbs = .ok s') (account : Name) (key : PublicKey) :
    Handles account key (.run auth verbs) s s' := by
  simp only [run, bind_eq_ok] at h
  obtain ⟨⟨t, edenAccount⟩, hauth, -, -, hverbs⟩ := h
  have hdeletes : Deletes p Shrinks := shrinks_deletes
  have hlater : Shrinks t s' :=
    hdeletes.foldlM (fun _ _ _ hstep => hdeletes.runVerb hstep) verbs hverbs
  cases auth with
  | noAuth =>
      cases hauth
      exact hlater.handles hs rfl rfl
  | accountAuth contract contractAccount eosioAccount =>
      simp only [authorize, bind_eq_ok, pure_eq_ok, Prod.mk.injEq] at hauth
      obtain ⟨-, -, -, -, -, -, rfl, -⟩ := hauth
      exact hlater.handles hs rfl rfl
  | signatureAuth recovered contract signer n =>
      simp only [authorize, bind_eq_ok, pure_eq_ok, Prod.mk.injEq] at hauth
      obtain ⟨-, -, u, huse, rfl, -⟩ := hauth
      obtain ⟨hapart, hfound, huses⟩ := useSession_uses hs huse
      refine ⟨hlater.apart hapart, fun hcreates => (by cases hcreates),
        fun _ => (huses account key).shrink hlater, fun m hm => ?_⟩
      simp only [numberOf] at hm
      split at hm
      · rename_i hboth
        cases hm
        rwa [← hboth.1, ← hboth.2]
      · cases hm

theorem handles_step {input : Env × SessionCall} (hclean : s.output.serializedEvents = [])
    (hs : Apart s) (h : execSession p keys input.1 s input.2 = .ok s') (account : Name)
    (key : PublicKey) : Handles account key input.2 s s' := by
  obtain ⟨env, call⟩ := input
  have hdeletes : Deletes p Shrinks := shrinks_deletes
  cases call with
  | call c =>
      by_cases hkeeps : keepsTables c = true
      · exact (hdeletes.exec hclean hkeeps h).handles hs rfl rfl
      · have hcleared : c = .action .clearall := by
          unfold keepsTables at hkeeps
          split at hkeeps
          · rfl
          · exact absurd rfl hkeeps
        subst hcleared
        simp only [execSession, exec, applyAction, dispatch, clearall, bind_eq_ok,
          pure_eq_ok] at h
        obtain ⟨t, ⟨-, -, g, -, rfl⟩, rfl⟩ := h
        refine Shrinks.handles (fun account => ?_) hs rfl rfl
        exact List.nil_sublist _
  | newsession edenAccount newKey expiration description =>
      simp only [execSession, bind_eq_ok, pure_eq_ok] at h
      obtain ⟨t, hnew, rfl⟩ := h
      obtain ⟨hapart, hsessions⟩ := newsession_uses hs hnew
      refine ⟨hapart, fun hcreates session hmem hkey => ?_, fun hcreates => ?_,
        fun n hn => by cases hn⟩
      · have hstored := hsessions account key session hmem hkey
        rwa [if_pos (of_decide_eq_true hcreates)] at hstored
      · change Uses account key none s _
        intro session hmem hkey
        have hstored := hsessions account key session hmem hkey
        rw [if_neg (of_decide_eq_false hcreates)] at hstored
        exact ⟨session, hstored, hkey, rfl⟩
  | delsession edenAccount oldKey =>
      simp only [execSession, bind_eq_ok, pure_eq_ok] at h
      obtain ⟨t, hdel, rfl⟩ := h
      exact (hdeletes.trans (shrinks_delsession hdel) (hdeletes.sendEvents t)).handles hs rfl rfl
  | run auth verbs =>
      simp only [execSession, bind_eq_ok, pure_eq_ok] at h
      obtain ⟨t, hrun, rfl⟩ := h
      obtain ⟨hapart, hcreated, hkept, hused⟩ := handles_run hs hrun account key
      exact ⟨hapart, hcreated, hkept, hused⟩

/-! ### Runs -/

/-- The numbers that the session of a key has accepted, in order. -/
def accepted (account : Name) (key : PublicKey)
    (es : List (Machine.Entry State (Env × SessionCall))) : List Nat :=
  es.filterMap fun e => numberOf account key e.input.2

/-- The session of a key, if it is still there, remembers the numbers accepted since it was
created, and none of them has been accepted twice. -/
structure Guards (account : Name) (key : PublicKey)
    (life : List (Machine.Entry State (Env × SessionCall))) (s : State) : Prop where
  once : (accepted account key life).Nodup
  remembers : ∀ session ∈ sessionsIn s.sessions account, session.key = key →
    Remembers session.sequences (accepted account key life)

theorem Guards.step {account : Name} {key : PublicKey} {call : SessionCall} {env : Env}
    {life : List (Machine.Entry State (Env × SessionCall))} (h : Guards account key life s)
    (hcreates : creates account key call = false) (hstep : Handles account key call s s') :
    Guards account key (life ++ [⟨s, (env, call), s'⟩]) s' := by
  have haccepted : accepted account key (life ++ [⟨s, (env, call), s'⟩]) =
      accepted account key life ++ (numberOf account key call).toList := by
    rw [accepted, List.filterMap_append, ← accepted]
    cases hnumber : numberOf account key call with
    | none => simp [hnumber]
    | some n => simp [hnumber]
  have huses := hstep.kept hcreates
  cases hnumber : numberOf account key call with
  | none =>
      rw [hnumber] at haccepted huses
      rw [Option.toList_none, List.append_nil] at haccepted
      refine ⟨haccepted ▸ h.once, fun session' hmem hkey => ?_⟩
      obtain ⟨session, hbefore, hkey, hsame⟩ := huses session' hmem hkey
      rw [haccepted, hsame]
      exact h.remembers session hbefore hkey
  | some n =>
      rw [hnumber] at haccepted huses
      rw [Option.toList_some] at haccepted
      refine ⟨?_, fun session' hmem hkey => ?_⟩
      · obtain ⟨session, hbefore, hkey, sequences, hused⟩ := hstep.used n hnumber
        rw [haccepted, List.nodup_append]
        refine ⟨h.once, List.nodup_singleton n, ?_⟩
        rintro m hm m' hm' rfl
        exact (h.remembers session hbefore hkey).fresh hused (List.mem_singleton.mp hm' ▸ hm)
      · obtain ⟨session, hbefore, hkey, hused⟩ := huses session' hmem hkey
        rw [haccepted]
        exact (h.remembers session hbefore hkey).use hused

/-- From the call that creates a session up to the next one that creates a session with the same
key, no number is accepted twice. As long as the session is there, it stores at most twenty numbers
in ascending order, and each number that it has accepted is stored or smaller than twenty stored
ones. -/
theorem no_number_accepted_twice {es es₁ es₂ life : List (Machine.Entry State (Env × SessionCall))}
    {creation last : Machine.Entry State (Env × SessionCall)} {account : Name} {key : PublicKey}
    {allowed : State → Env × SessionCall → Prop}
    (h : (sessionContract p keys).History Untouched allowed es s)
    (hes : es = es₁ ++ creation :: life ++ last :: es₂)
    (hcreation : creates account key creation.input.2 = true)
    (hlife : ∀ e ∈ life ++ [last], creates account key e.input.2 = false) :
    (accepted account key (life ++ [last])).Nodup ∧
      ∀ session ∈ sessionsIn last.after.sessions account, session.key = key →
        session.sequences.Pairwise (· < ·) ∧ session.sequences.length ≤ 20 ∧
        ∀ n ∈ accepted account key (life ++ [last]), n ∈ session.sequences ∨
          (session.sequences.length = 20 ∧ ∀ m ∈ session.sequences, n < m) := by
  have hinv : last.after.output.serializedEvents = [] ∧ Apart last.after ∧
      ∀ es₁' creation' life', es₁ ++ creation :: life ++ [last] = es₁' ++ creation' :: life' →
        creates account key creation'.input.2 = true →
        (∀ e ∈ life', creates account key e.input.2 = false) →
        Guards account key life' last.after := by
    refine Machine.History.after (fun es t => t.output.serializedEvents = [] ∧ Apart t ∧
      ∀ es₁ creation life, es = es₁ ++ creation :: life →
        creates account key creation.input.2 = true →
        (∀ e ∈ life, creates account key e.input.2 = false) → Guards account key life t) h hes
      ?_ ?_ ?_
    · intro t ht
      refine ⟨by rw [ht.1], fun account => ?_, fun es₁ creation life hnil => by simp at hnil⟩
      rw [ht.1]
      exact List.nodup_nil
    · rintro es t now - ⟨hclean, hapart, hguards⟩
      refine ⟨hclean, hapart, fun es₁ creation life hes hcreation hlife => ?_⟩
      have hbefore := hguards es₁ creation life hes hcreation hlife
      exact ⟨hbefore.once, hbefore.remembers⟩
    · rintro es t ⟨env, call⟩ t' - hok ⟨hclean, hapart, hguards⟩
      have hstep := handles_step hclean hapart hok account key
      refine ⟨step_clean hclean hok, hstep.apart, fun es₁ creation life hes hcreation hlife => ?_⟩
      rcases List.eq_nil_or_concat life with rfl | ⟨before, last, rfl⟩
      · obtain ⟨-, hlast⟩ := List.append_inj' hes rfl
        rw [List.singleton_inj] at hlast
        subst hlast
        refine ⟨List.nodup_nil, fun session hmem hkey => ?_⟩
        rw [hstep.created hcreation session hmem hkey]
        exact .nil
      · rw [List.concat_eq_append, ← List.cons_append, ← List.append_assoc] at hes
        obtain ⟨hbefore, hlast⟩ := List.append_inj' hes rfl
        rw [List.singleton_inj] at hlast
        subst hlast
        rw [List.concat_eq_append, List.forall_mem_append, List.forall_mem_singleton] at hlife
        rw [List.concat_eq_append]
        exact (hguards es₁ creation before hbefore hcreation hlife.1).step hlife.2 hstep
  obtain ⟨-, -, hguards⟩ := hinv
  have hlast := hguards es₁ creation (life ++ [last]) (by simp) hcreation hlife
  refine ⟨hlast.once, fun session hmem hkey => ?_⟩
  obtain ⟨hascending, hbounded, hkept⟩ := hlast.remembers session hmem hkey
  exact ⟨hascending, hbounded, hkept⟩

/-! ### A run -/

/-- Alice's key signs a call with a number. -/
def uses (n : Nat) : Env × SessionCall :=
  (signedBy bob, .run (.signatureAuth 1 host.self alice.name n) [.inductprofil 1 sampleProfile])

theorem inputs_of_traceSessions {inputs : List (Env × SessionCall)}
    {es : List (Machine.Entry State (Env × SessionCall))}
    (h : traceSessions p keys s inputs = some (es, s')) :
    es.map Machine.Entry.input = inputs := by
  induction inputs generalizing s es with
  | nil =>
      rw [traceSessions, Option.some.injEq, Prod.mk.injEq] at h
      rw [← h.1, List.map_nil]
  | cons input inputs ih =>
      rw [traceSessions] at h
      split at h
      · cases h
      · obtain ⟨t, -, h⟩ := Option.bind_eq_some_iff.mp h
        obtain ⟨⟨es', u⟩, hrest, heq⟩ := Option.map_eq_some_iff.mp h
        rw [Prod.mk.injEq] at heq
        obtain ⟨rfl, rfl⟩ := heq
        rw [List.map_cons, ih hrest]

/-- The numbers of a session may be used out of order. -/
theorem numbers_out_of_order : ∃ es s,
    firstTransaction (genesisCall :: opens 1 :: [3, 1, 5].map uses) = some (es, s) ∧
    (sessionsIn s.sessions alice.name).map Session.sequences = [[1, 3, 5]] ∧
    accepted alice.name 1 es = [3, 1, 5] ∧ (accepted alice.name 1 es).Nodup := by
  have hrun : (firstTransaction (genesisCall :: opens 1 :: [3, 1, 5].map uses)).any (fun result =>
      (sessionsIn result.2.sessions alice.name).map Session.sequences = [[1, 3, 5]]) := by
    decide +kernel
  obtain ⟨⟨es, s⟩, htrace, hstored⟩ := (Option.any_eq_true _ _).mp hrun
  refine ⟨es, s, htrace, of_decide_eq_true hstored, ?_⟩
  have hinputs := inputs_of_traceSessions htrace
  simp only [List.map_cons, List.map_nil, List.map_eq_cons_iff, List.map_eq_nil_iff] at hinputs
  obtain ⟨first, es, rfl, hfirst, creation, es, rfl, hcreation, third, es, rfl, hthird, fourth, es,
    rfl, hfourth, last, es, rfl, hlast, rfl⟩ := hinputs
  have hsplit : [first, creation, third, fourth, last] =
      [first] ++ creation :: [third, fourth] ++ last :: [] := rfl
  have hcreates : creates alice.name 1 creation.input.2 = true := by
    rw [hcreation]
    rfl
  have honce := no_number_accepted_twice (history_of_first htrace) hsplit hcreates
    (by simp [hthird, hfourth, hlast, uses, creates])
  have hsame : accepted alice.name 1 [first, creation, third, fourth, last] =
      accepted alice.name 1 [third, fourth, last] := by
    simp [accepted, hfirst, hcreation, genesisCall, opens, numberOf]
  refine ⟨?_, hsame ▸ honce.1⟩
  simp [accepted, hfirst, hcreation, hthird, hfourth, hlast, genesisCall, opens, uses, numberOf]

end Eden.SequenceWindows
