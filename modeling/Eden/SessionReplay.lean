import Eden.CallScopes
import Eden.CallTraces
import Eden.HostFunctions
import Eden.MirrorHandlers
import Eden.SessionActions

/-!
The sessions of the micro chain. Its handlers, given the events about sessions, store the sessions
of the contract, as long as no session is evicted: a fifth session takes the place of the oldest
one without an event.
-/

namespace Eden.SessionReplay

open Eden.ExceptReasoning
open Eden.SortedTable
open Eden.ObjectTable
open Eden.TransactionRuns
open Eden.ChainPrimitives
open Eden.ContractState
open Eden.Runtime
open Eden.MemberTable
open Eden.ElectionPhases
open Eden.InductionTables
open Eden.Maintenance
open Eden.ContractActions
open Eden.Transactions
open Eden.HostFunctions
open Eden.ActionSteps
open Eden.EmittedEvents
open Eden.CallTraces
open Eden.CallScopes
open Eden.MirrorTables
open Eden.MirrorHandlers (handleEvent)
open Eden.SessionActions

variable {p : Platform} {env : Env} {s s' : State}

/-! ### What is replayed -/

/-- The session of an account, as the micro chain stores it. -/
def objectOf (account : Name) (session : Session) : SessionObject :=
  ⟨account, session.key, session.expiration, session.description⟩

/-- The sessions of each account in the table of the contract. -/
def sessionsOf (t : Table SessionContainer.edenAccount) (account : Name) : List SessionObject :=
  ((t.find? account).map fun sc => sc.sessions.map (objectOf account)).getD []

/-- The events about sessions, in order. -/
def sessionEvents (o : Output) : List Event := (emitted o).filter fun e => topic e = .session

/-- Run the handlers of the micro chain; those of sessions do not read the time of the block. -/
def replay (p : Platform) (db : Database) (es : List Event) : Outcome Database :=
  es.foldlM (handleEvent p 0) db

/-- The micro chain stores exactly certain sessions, with different keys for each account. -/
structure Stores (db : Database) (sessions : Name → List SessionObject) : Prop where
  objects : ∀ o, o ∈ db.sessions.rows ↔ o ∈ sessions o.edenAccount
  owners : ∀ account, ∀ o ∈ sessions account, o.edenAccount = account
  keys : ∀ account, ((sessions account).map SessionObject.key).Nodup

/-- The replay of all events gives the sessions that the contract stores. -/
def Mirrored (p : Platform) (s : State) : Prop :=
  ∃ db, replay p {} (sessionEvents s.output) = .ok db ∧ Stores db (sessionsOf s.sessions)

theorem replay_append (db : Database) (es es' : List Event) :
    replay p db (es ++ es') = replay p db es >>= fun db' => replay p db' es' := by
  rw [replay, List.foldlM_append]
  rfl

/-- The events that delete sessions of an account. -/
def deletions (account : Name) (sessions : List SessionObject) : List Event :=
  sessions.map fun o => .sessionDel account o.key

theorem replay_deletions (account : Name) (sessions : List SessionObject) (db : Database) :
    ∃ db', replay p db (deletions account sessions) = .ok db' ∧ ∀ o, o ∈ db'.sessions.rows ↔
      o ∈ db.sessions.rows ∧ ¬ (o.edenAccount = account ∧ ∃ d ∈ sessions, o.key = d.key) := by
  induction sessions generalizing db with
  | nil => exact ⟨db, rfl, fun o => by simp⟩
  | cons d sessions ih =>
      obtain ⟨db', hreplay, hrows⟩ := ih
        { db with sessions := db.sessions.erase (account, d.key) }
      refine ⟨db', hreplay, fun o => ?_⟩
      rw [hrows]
      simp only [Objects.erase, Objects.filter, List.mem_filter, decide_eq_true_eq,
        SessionObject.byPk, ne_eq, Prod.mk.injEq, List.mem_cons, exists_eq_or_imp, and_assoc,
        and_or_left, not_or]

/-- Sessions of an account are deleted, and the others are left. -/
theorem Stores.delete {db : Database} {sessions : Name → List SessionObject}
    (h : Stores db sessions) (account : Name) {kept deleted : List SessionObject}
    (hkept : kept.Sublist (sessions account)) (hdeleted : ∀ o ∈ deleted, o ∈ sessions account)
    (hsplit : ∀ o ∈ sessions account, o ∈ kept ↔ o ∉ deleted) :
    ∃ db', replay p db (deletions account deleted) = .ok db' ∧
      Stores db' (Function.update sessions account kept) := by
  obtain ⟨db', hreplay, hrows⟩ := replay_deletions (p := p) account deleted db
  refine ⟨db', hreplay, ⟨fun o => ?_, fun other o ho => ?_, fun other => ?_⟩⟩
  · rw [hrows, h.objects]
    by_cases howner : o.edenAccount = account
    · subst howner
      rw [Function.update_self]
      constructor
      · rintro ⟨ho, hnone⟩
        exact (hsplit o ho).mpr fun hdrop => hnone ⟨rfl, o, hdrop, rfl⟩
      · intro ho
        refine ⟨hkept.subset ho, ?_⟩
        rintro ⟨-, d, hd, hkey⟩
        have hsame : o = d := List.inj_on_of_nodup_map (h.keys o.edenAccount)
          (hkept.subset ho) (hdeleted d hd) hkey
        exact (hsplit o (hkept.subset ho)).mp ho (hsame ▸ hd)
    · rw [Function.update_of_ne howner]
      simp [howner]
  · by_cases howner : other = account
    · subst howner
      rw [Function.update_self] at ho
      exact h.owners other o (hkept.subset ho)
    · rw [Function.update_of_ne howner] at ho
      exact h.owners other o ho
  · by_cases howner : other = account
    · subst howner
      rw [Function.update_self]
      exact (h.keys other).sublist (hkept.map _)
    · rw [Function.update_of_ne howner]
      exact h.keys other

theorem Stores.shrink {db : Database} {sessions : Name → List SessionObject}
    (h : Stores db sessions) (account : Name) (keep : SessionObject → Bool) :
    ∃ db', replay p db (deletions account ((sessions account).filter fun o => !keep o)) = .ok db' ∧
      Stores db' (Function.update sessions account ((sessions account).filter keep)) := by
  refine h.delete account List.filter_sublist (fun o ho => (List.mem_filter.mp ho).1) ?_
  intro o ho
  simp [ho]

/-- A session with a new key is stored. -/
theorem Stores.grow {db : Database} {sessions : Name → List SessionObject}
    (h : Stores db sessions) {o : SessionObject}
    (hnew : ∀ other ∈ sessions o.edenAccount, other.key ≠ o.key) :
    ∃ db', replay p db [.sessionNew o.edenAccount o.key o.expiration o.description] = .ok db' ∧
      Stores db' (Function.update sessions o.edenAccount (sessions o.edenAccount ++ [o])) := by
  have hfresh : (db.sessions.rows ++ [o]).map SessionObject.byPk |>.Nodup := by
    rw [List.map_append, List.map_singleton, List.nodup_append]
    refine ⟨db.sessions.nodup, List.nodup_singleton _, ?_⟩
    rintro a ha b hb rfl
    obtain ⟨other, hother, hpk⟩ := List.mem_map.mp ha
    rw [List.mem_singleton] at hb
    have hpks : other.byPk = o.byPk := hpk.trans hb
    simp only [SessionObject.byPk, Prod.mk.injEq] at hpks
    rw [h.objects, hpks.1] at hother
    exact hnew other hother hpks.2
  have hstored : db.sessions.emplace? o = some ⟨db.sessions.rows ++ [o], hfresh⟩ :=
    Objects.emplace?_eq_some.mpr rfl
  refine ⟨{ db with sessions := ⟨db.sessions.rows ++ [o], hfresh⟩ }, ?_,
    ⟨fun other => ?_, fun account other hother => ?_, fun account => ?_⟩⟩
  · simp only [replay, List.foldlM_cons, List.foldlM_nil, handleEvent, emplace]
    have hsession : (⟨o.edenAccount, o.key, o.expiration, o.description⟩ : SessionObject) = o := rfl
    rw [hsession, hstored]
    rfl
  · rw [List.mem_append, List.mem_singleton, h.objects]
    by_cases howner : other.edenAccount = o.edenAccount
    · rw [howner, Function.update_self, List.mem_append, List.mem_singleton]
    · rw [Function.update_of_ne howner]
      refine or_iff_left fun hsame => howner ?_
      rw [hsame]
  · by_cases howner : account = o.edenAccount
    · subst howner
      rw [Function.update_self, List.mem_append, List.mem_singleton] at hother
      rcases hother with hother | rfl
      · exact h.owners _ other hother
      · rfl
    · rw [Function.update_of_ne howner] at hother
      exact h.owners account other hother
  · by_cases howner : account = o.edenAccount
    · subst howner
      rw [Function.update_self, List.map_append, List.map_singleton, List.nodup_append]
      refine ⟨h.keys _, List.nodup_singleton _, ?_⟩
      rintro a ha b hb rfl
      obtain ⟨other, hother, hkey⟩ := List.mem_map.mp ha
      exact hnew other hother (hkey.trans (List.mem_singleton.mp hb))
    · rw [Function.update_of_ne howner]
      exact h.keys account

/-! ### What the contract does -/

theorem sessionEvents_pushEvent (o : Output) (e : Event) :
    sessionEvents (pushEvent p o e) =
      sessionEvents o ++ if topic e = .session then [e] else [] := by
  rw [sessionEvents, emitted_pushEvent, List.filter_append, ← sessionEvents, List.filter_singleton]
  by_cases htopic : topic e = .session
  · simp [htopic]
  · simp [htopic]

/-- Events about other topics are not replayed. -/
theorem sessionEvents_pushes {P : Event → Prop} {o o' : Output} (h : Pushes p P o o')
    (hP : ∀ e, P e → topic e ≠ .session) : sessionEvents o' = sessionEvents o := by
  induction h with
  | refl => rfl
  | event _ he ih => rw [sessionEvents_pushEvent, if_neg (hP _ he), List.append_nil, ih]
  | external _ ih => rw [sessionEvents, emitted_sendAction, ← sessionEvents, ih]

theorem sessionEvents_sessionDel (account : Name) (sessions : List Session) (o : Output) :
    sessionEvents
        (sessions.foldl (fun out session => pushEvent p out (.sessionDel account session.key)) o) =
      sessionEvents o ++ deletions account (sessions.map (objectOf account)) := by
  induction sessions generalizing o with
  | nil => simp [deletions]
  | cons session sessions ih =>
      rw [List.foldl_cons, ih, sessionEvents_pushEvent, List.append_assoc]
      rfl

/-- The events of a part of a call turn what was stored into what is stored. -/
def Tracks (p : Platform) (s s' : State) : Prop :=
  ∃ es, sessionEvents s'.output = sessionEvents s.output ++ es ∧
    ∀ db, Stores db (sessionsOf s.sessions) →
      ∃ db', replay p db es = .ok db' ∧ Stores db' (sessionsOf s'.sessions)

namespace Tracks

theorem trans {s₁ s₂ s₃ : State} (h₁ : Tracks p s₁ s₂) (h₂ : Tracks p s₂ s₃) :
    Tracks p s₁ s₃ := by
  obtain ⟨es, hes, hstores⟩ := h₁
  obtain ⟨es', hes', hstores'⟩ := h₂
  refine ⟨es ++ es', ?_, fun db hdb => ?_⟩
  · rw [hes', hes, List.append_assoc]
  · obtain ⟨db₁, hreplay, hdb₁⟩ := hstores db hdb
    obtain ⟨db₂, hreplay', hdb₂⟩ := hstores' db₁ hdb₁
    refine ⟨db₂, ?_, hdb₂⟩
    rw [replay_append, hreplay]
    exact hreplay'

/-- No session changes, and no event is about one. -/
theorem of_eq (hevents : sessionEvents s'.output = sessionEvents s.output)
    (hsessions : sessionsOf s'.sessions = sessionsOf s.sessions) : Tracks p s s' := by
  refine ⟨[], ?_, fun db hdb => ⟨db, rfl, ?_⟩⟩
  · rw [hevents, List.append_nil]
  · rwa [hsessions]

theorem refl (s : State) : Tracks p s s := .of_eq rfl rfl

theorem mirrored (h : Tracks p s s') (hs : Mirrored p s) : Mirrored p s' := by
  obtain ⟨es, hes, hstores⟩ := h
  obtain ⟨db, hreplay, hdb⟩ := hs
  obtain ⟨db', hreplay', hdb'⟩ := hstores db hdb
  refine ⟨db', ?_, hdb'⟩
  rw [hes, replay_append, hreplay]
  exact hreplay'

end Tracks

theorem sessionsOf_none {t : Table SessionContainer.edenAccount} {account : Name}
    (h : t.find? account = none) : sessionsOf t account = [] := by
  rw [sessionsOf, h]
  rfl

theorem sessionsOf_some {t : Table SessionContainer.edenAccount} {account : Name}
    {sc : SessionContainer} (h : t.find? account = some sc) :
    sessionsOf t account = sc.sessions.map (objectOf account) := by
  rw [sessionsOf, h]
  rfl

theorem sessionsOf_erase (t : Table SessionContainer.edenAccount) (account : Name) :
    sessionsOf (t.erase account) = Function.update (sessionsOf t) account [] := by
  funext other
  by_cases howner : other = account
  · subst howner
    rw [Function.update_self]
    exact sessionsOf_none (by rw [Table.find?_erase, if_pos rfl])
  · rw [Function.update_of_ne howner, sessionsOf, sessionsOf, Table.find?_erase,
      if_neg (Ne.symm howner)]

/-- A container takes the place of another one. -/
theorem sessionsOf_replaced {t : Table SessionContainer.edenAccount} {account : Name}
    {sc : SessionContainer} (h : t.find? account = some sc) (stored : SessionContainer) :
    sessionsOf (t.modify account (fun row => { stored with edenAccount := row.edenAccount })
        fun _ => rfl) =
      Function.update (sessionsOf t) account (stored.sessions.map (objectOf account)) := by
  funext other
  by_cases howner : other = account
  · subst howner
    rw [Function.update_self]
    rw [sessionsOf, Table.find?_modify, if_pos rfl, h]
    rfl
  · rw [Function.update_of_ne howner, sessionsOf, sessionsOf, Table.find?_modify,
      if_neg (Ne.symm howner)]

theorem sessionsOf_emplace {t t' : Table SessionContainer.edenAccount} {sc : SessionContainer}
    (h : t.emplace? sc = some t') :
    sessionsOf t' =
      Function.update (sessionsOf t) sc.edenAccount (sc.sessions.map (objectOf sc.edenAccount)) := by
  funext other
  by_cases howner : other = sc.edenAccount
  · subst howner
    rw [Function.update_self]
    exact sessionsOf_some (by rw [Table.find?_emplace? h, if_pos rfl])
  · rw [Function.update_of_ne howner, sessionsOf, sessionsOf, Table.find?_emplace? h,
      if_neg (Ne.symm howner)]

/-- A container loses sessions, each with an event. -/
theorem tracks_shrink {account : Name} {sc : SessionContainer}
    (hsc : s.sessions.find? account = some sc) (keep : Session → Bool)
    (keepObject : SessionObject → Bool)
    (hkeep : ∀ session ∈ sc.sessions, keepObject (objectOf account session) = keep session)
    (hevents : sessionEvents s'.output = sessionEvents s.output ++
      deletions account ((sc.sessions.filter fun session => !keep session).map (objectOf account)))
    (hsessions : sessionsOf s'.sessions = Function.update (sessionsOf s.sessions) account
      ((sc.sessions.filter keep).map (objectOf account))) : Tracks p s s' := by
  refine ⟨_, hevents, fun db hdb => ?_⟩
  obtain ⟨db', hreplay, hdb'⟩ := hdb.shrink (p := p) account keepObject
  have hkept : ∀ (q : Session → Bool) (r : SessionObject → Bool),
      (∀ session ∈ sc.sessions, r (objectOf account session) = q session) →
      (sc.sessions.map (objectOf account)).filter r =
        (sc.sessions.filter q).map (objectOf account) := by
    intro q r hqr
    rw [List.filter_map]
    exact congrArg _ (List.filter_congr fun session hsession => hqr session hsession)
  rw [sessionsOf_some hsc, hkept keep keepObject hkeep] at hdb'
  rw [sessionsOf_some hsc, hkept (fun session => !keep session) _ fun session hsession => by
    rw [hkeep session hsession]] at hreplay
  refine ⟨db', hreplay, ?_⟩
  rwa [hsessions]

theorem tracks_removeSessions (s : State) (account : Name) :
    Tracks p s (removeSessions p s account) := by
  unfold removeSessions
  split
  · exact .refl s
  · rename_i sc hsc
    refine tracks_shrink hsc (fun _ => false) (fun _ => false) (fun _ _ => rfl) ?_ ?_
    · rw [sessionEvents_sessionDel]
      simp
    · rw [sessionsOf_erase]
      simp

theorem not_decide_lt (m n : Nat) : (!decide (m < n)) = decide (n ≤ m) := by
  rw [← decide_not, decide_eq_decide, not_lt]

theorem tracks_gcSessions (n : Nat) (s : State) : Tracks p s (gcSessions p n s).2 := by
  induction n generalizing s with
  | zero => exact .refl s
  | succ n ih =>
      unfold gcSessions
      split
      · exact .refl s
      · rename_i sc rest hindex
        have hmem : sc ∈ s.sessions.rows := by
          have hfirst : sc ∈ s.sessions.index SessionContainer.earliestExpiration :=
            hindex ▸ List.mem_cons_self
          exact (List.perm_insertionSort _ _).mem_iff.mp hfirst
        have hsc : s.sessions.find? sc.edenAccount = some sc := Table.find?_of_mem hmem
        split
        · refine Tracks.trans ?_ (ih _)
          refine tracks_shrink hsc (fun session => s.now < session.expiration)
            (fun o => s.now < o.expiration) (fun _ _ => rfl) ?_ ?_
          · simp only [sessionEvents_sessionDel, not_decide_lt]
          · by_cases hnone : (expireSessions s.now sc).sessions = []
            · rw [if_pos hnone, sessionsOf_erase]
              exact congrArg _ (congrArg (List.map _) hnone).symm
            · rw [if_neg hnone]
              exact sessionsOf_replaced hsc (expireSessions s.now sc)
        · exact .refl s

/-! ### Calls that delete sessions -/

/-- A relation between the states before and after a part of a call. It holds of all parts that only
delete sessions. -/
structure Deletes (p : Platform) (R : State → State → Prop) : Prop where
  of_eq : ∀ {s t : State}, sessionEvents t.output = sessionEvents s.output →
    t.sessions = s.sessions → R s t
  trans : ∀ {s t u : State}, R s t → R t u → R s u
  removeSessions : ∀ s account, R s (removeSessions p s account)
  gcSessions : ∀ n s, R s (gcSessions p n s).2

theorem tracks_deletes : Deletes p (Tracks p) where
  of_eq hevents hsessions := .of_eq hevents (by rw [hsessions])
  trans := Tracks.trans
  removeSessions := tracks_removeSessions
  gcSessions := tracks_gcSessions

/-- No event is about a session. -/
abbrev Silent (e : Event) : Prop := topic e ≠ .session

/-- Calls other than `clearall`. -/
def keepsTables : Call → Bool
  | .action .clearall => false
  | _ => true

theorem silent_topics {t : Table Member.account} {a : Action}
    (hscope : (scopeOf t (.action a)).sessions = false) : Topic.session ∉ topicsOf a := by
  cases a <;> simp_all [scopeOf, topicsOf, electionTopics]

theorem silent_permitted {topics : List Topic} (htopics : .session ∉ topics) {x : Executed}
    (hx : Permitted topics x) : (batchOf x).filter (fun e => topic e = .session) = [] := by
  rw [List.filter_eq_nil_iff]
  intro e he
  cases x with
  | events batch =>
      have hmem : topic e ∈ topics := hx e he
      intro hsession
      rw [decide_eq_true_eq] at hsession
      exact htopics (hsession ▸ hmem)
  | _ => cases he

/-- A call that leaves the sessions alone reports none. -/
theorem silent_reported {t : Table Member.account} {call : Call}
    (hscope : (scopeOf t call).sessions = false) {x : Executed} (hx : Reported p call x) :
    (batchOf x).filter (fun e => topic e = .session) = [] := by
  cases call with
  | action a =>
      rcases hx with rfl | hx | hx
      · rfl
      · exact silent_permitted (silent_topics hscope) hx
      · cases a with
        | withdraw =>
            rw [hx]
            rfl
        | inductdonate =>
            obtain ⟨inductee, rfl⟩ := hx
            rfl
        | _ => exact hx.elim
  | transfer =>
      rcases hx with rfl | hx
      · rfl
      · exact silent_permitted (by simp) hx
  | lognewtempl | logmint => exact silent_permitted (by simp) hx

theorem mapError_eq_ok {α ε ε' : Type} {x : Except ε α} {f : ε → ε'} {a : α} :
    x.mapError f = .ok a ↔ x = .ok a := by
  cases x with
  | error e => simp [Except.mapError]
  | ok b => simp [Except.mapError]

namespace Deletes

variable {R : State → State → Prop} (hR : Deletes p R)

include hR

theorem refl (s : State) : R s s := hR.of_eq rfl rfl

/-- What leads up to a part may change the rest of the state. -/
theorem after {s t s' : State} (h : R t s') (houtput : t.output = s.output)
    (hsessions : t.sessions = s.sessions) : R s s' :=
  hR.trans (hR.of_eq (by rw [houtput]) hsessions) h

theorem of_pushes {P : Event → Prop} (h : Pushes p P s.output s'.output)
    (hP : ∀ e, P e → Silent e) (hsessions : s'.sessions = s.sessions) : R s s' :=
  hR.of_eq (sessionEvents_pushes h hP) hsessions

theorem foldlM {α : Type} {f : State → α → Outcome State}
    (hf : ∀ s a s', f s a = .ok s' → R s s') (l : List α) {s s' : State}
    (h : l.foldlM f s = .ok s') : R s s' :=
  foldlM_preserves (fun t => R s t) (fun _ _ _ hstep ht => hR.trans ht (hf _ _ _ hstep)) l h
    (hR.refl s)

theorem sendEvents (s : State) : R s { s with output := sendEvents s.output } :=
  hR.of_eq (by rw [sessionEvents, emitted_sendEvents, ← sessionEvents]) rfl

theorem record (s : State) (a : Action) : R s (record s (.action a)) :=
  hR.of_eq (by simp [sessionEvents, emitted, ContractActions.record, batchOf]) rfl

/-! ### Members -/

theorem remove {account : Name} (h : remove p s account = .ok s') : R s s' := by
  simp only [MemberTable.remove, eraseMember, bind_eq_ok, pure_eq_ok] at h
  obtain ⟨member, -, stats, -, rfl⟩ := h
  exact hR.trans (hR.removeSessions s member.account) (hR.of_eq rfl rfl)

theorem removeIfPending {account : Name} (h : removeIfPending p s account = .ok s') :
    R s s' := by
  simp only [MemberTable.removeIfPending, bind_eq_ok] at h
  obtain ⟨member, -, h⟩ := h
  split at h
  · simp only [bind_eq_ok, pure_eq_ok] at h
    obtain ⟨-, -, rfl⟩ := h
    exact hR.trans (hR.removeSessions s account) (hR.of_eq rfl rfl)
  · cases h
    exact hR.refl s

theorem rename {account newAccount : Name}
    (h : MemberTable.rename p s account newAccount = .ok s') : R s s' := by
  simp only [MemberTable.rename, bind_eq_ok, pure_eq_ok] at h
  obtain ⟨member, -, table, -, rfl⟩ := h
  exact hR.trans (hR.removeSessions s account) (hR.of_eq rfl rfl)

theorem maybeActivateContract (h : maybeActivateContract s = .ok s') : R s s' := by
  have hemits : Emits p Silent s s' := emits_maybeActivateContract h
  have hwithin : Within {} s s' := within_maybeActivateContract h
  exact hR.of_pushes hemits.output (fun _ he => he) (hwithin.sessions rfl)

/-! ### Actions -/

theorem gc {limit : Nat} (h : gc p env s limit = .ok s') : R s s' := by
  simp only [ContractActions.gc, bind_eq_ok] at h
  obtain ⟨g, -, ⟨remaining, t⟩, hauctions, -, -, h⟩ := h
  have hemits : Emits p Silent _ t := emits_finishAuctions hauctions
  obtain ⟨o, auctions, -, ht⟩ := finishAuctions_eq_ok hauctions
  have hfinished : R s t := hR.of_pushes hemits.output (fun _ he => he) (by rw [ht])
  have hexpired := hR.trans hfinished (hR.gcSessions remaining t)
  split at h
  · cases h
    exact hexpired
  · simp only [bind_eq_ok] at h
    obtain ⟨u, hremoved, h⟩ := h
    have hpending := hR.foldlM (fun _ _ _ hstep => hR.removeIfPending hstep) _ hremoved
    exact hR.trans (hR.trans hexpired hpending) (hR.maybeActivateContract h)

theorem inductcancel {account : Name} {id : Nat}
    (h : inductcancel p env s account id = .ok s') : R s s' := by
  simp only [ContractActions.inductcancel, bind_eq_ok] at h
  obtain ⟨-, -, g, -, allowed, -, -, -, induction, -, h⟩ := h
  split at h
  · cases h
    exact hR.of_eq rfl rfl
  · simp only [bind_eq_ok] at h
    obtain ⟨t, hremove, h⟩ := h
    have hremoved : R s t := hR.after (hR.removeIfPending hremove) rfl rfl
    split at h
    · simp only [bind_eq_ok] at h
      obtain ⟨inductions, -, h⟩ := h
      exact hR.trans hremoved (hR.after (hR.maybeActivateContract h) rfl rfl)
    · cases h
      exact hremoved

theorem resign {account : Name} (h : resign p env s account = .ok s') : R s s' := by
  simp only [ContractActions.resign, bind_eq_ok, pure_eq_ok] at h
  obtain ⟨-, -, g, -, -, -, member, -, f, hfunds, t, helections, u, hremove, rfl⟩ := h
  have hreturned : R s (withTreasury s f) :=
    hR.of_pushes (pushes_onResign hfunds) (fun e he => by rw [isDistribution] at he; simp [he]) rfl
  have hwithin : Within {} (withTreasury s f) t := within_electionsOnResign helections
  have hleft : R (withTreasury s f) t :=
    hR.of_pushes (emits_electionsOnResign helections).output
      (fun e he => by rw [isElection] at he; simp [he]) (hwithin.sessions rfl)
  exact hR.trans (hR.trans (hR.trans hreturned hleft) (hR.remove hremove)) (hR.of_eq rfl rfl)

theorem renameAccount {account newAccount : Name}
    (h : renameAccount p env s account newAccount = .ok s') : R s s' := by
  simp only [ContractActions.renameAccount, bind_eq_ok, pure_eq_ok] at h
  obtain ⟨-, -, -, -, g, -, user, -, -, -, f, hfunds, t, helections, inductions, -, u, hrename, -,
    -, rfl⟩ := h
  have hmoved : Pushes p Silent s.output f.output :=
    (pushes_onRename hfunds).mono fun e he => by rw [isDistribution] at he; simp [he]
  have hwithin : Within {} _ t := within_electionsOnRename helections
  have hboard : R s t :=
    hR.of_pushes (hmoved.trans (emits_electionsOnRename helections).output) (fun _ he => he)
      (hwithin.sessions rfl)
  exact hR.trans (hR.trans hboard (hR.after (hR.rename hrename) rfl rfl)) (hR.of_eq rfl rfl)

theorem exec {call : Call} (hclean : s.output.serializedEvents = [])
    (hkeeps : keepsTables call = true) (h : exec p env s call = .ok s') : R s s' := by
  by_cases hscope : (scopeOf s.members.table call).sessions = false
  · obtain ⟨l, hexecuted, hl⟩ := executed_call hclean h
    have hsent := (exec_steps hclean h).2
    refine hR.of_eq ?_ ((exec_within h).sessions hscope)
    have hsilent : (l.flatMap batchOf).filter (fun e => topic e = .session) = [] := by
      rw [List.filter_flatMap, List.flatMap_eq_nil_iff]
      exact fun x hx => silent_reported hscope (hl x hx)
    rw [sessionEvents, emitted, hsent, hexecuted, List.flatMap_append, List.append_nil,
      List.filter_append, hsilent, List.append_nil, sessionEvents, emitted, hclean, List.append_nil]
  · have hnested : ∀ {a : Action} {u : State}, R (ContractActions.record s (.action a)) u →
        R s { u with output := Runtime.sendEvents u.output } := fun hu =>
      hR.trans (hR.trans (hR.record s _) hu) (hR.sendEvents _)
    cases call with
    | action a =>
        simp only [Transactions.exec, applyAction, bind_eq_ok, pure_eq_ok] at h
        obtain ⟨u, hdispatch, rfl⟩ := h
        cases a with
        | clearall => cases hkeeps
        | inductcancel => exact hnested (hR.inductcancel hdispatch)
        | resign => exact hnested (hR.resign hdispatch)
        | rename => exact hnested (hR.renameAccount hdispatch)
        | gc => exact hnested (hR.gc hdispatch)
        | _ => exact absurd rfl hscope
    | _ => exact absurd rfl hscope

theorem runVerb {account : Name} {verb : Action} (h : runVerb p env account s verb = .ok s') :
    R s s' := by
  simp only [SessionActions.runVerb, bind_eq_ok, mapError_eq_ok, check_eq_ok] at h
  obtain ⟨-, hverb, hdispatch⟩ := h
  by_cases hcancel : ∃ account id, verb = .inductcancel account id
  · obtain ⟨account, id, rfl⟩ := hcancel
    exact hR.inductcancel hdispatch
  · have hplain : nests verb = false ∧ distributes verb = false ∧ topicsOf verb = [] ∧
        (scopeOf s.members.table (.action verb)).sessions = false := by
      cases verb <;> simp_all [verbIndex, nests, distributes, topicsOf, scopeOf]
    obtain ⟨hnests, hfunds, htopics, hscope⟩ := hplain
    refine hR.of_pushes (emits_dispatch hnests hfunds hdispatch).output ?_
      ((within_dispatch hdispatch).sessions hscope)
    intro e he
    rw [about, htopics] at he
    cases he

end Deletes

/-! ### Calls about sessions -/

variable {keys : KeyHost}

theorem sessionsOf_storeContainer {account : Name} {sc stored : SessionContainer} (o : Output)
    (h : s.sessions.find? account = some sc) :
    sessionsOf (storeContainer s o account stored).sessions =
      Function.update (sessionsOf s.sessions) account (stored.sessions.map (objectOf account)) :=
  sessionsOf_replaced h stored

theorem sessionEvents_expire (now : Nat) (o : Output) (sc : SessionContainer) :
    sessionEvents (expire p now o sc).1 = sessionEvents o ++ deletions sc.edenAccount
      ((sc.sessions.filter fun session => !decide (now < session.expiration)).map
        (objectOf sc.edenAccount)) := by
  simp only [expire, sessionEvents_sessionDel, not_decide_lt]

/-- The expired sessions of a container are deleted, and its other fields may change. -/
theorem tracks_expire {account : Name} {sc stored : SessionContainer} {o : Output}
    (hsc : s.sessions.find? account = some sc)
    (ho : o = (expire p s.now s.output sc).1)
    (hstored : stored.sessions.map (objectOf account) =
      (expire p s.now s.output sc).2.sessions.map (objectOf account)) :
    Tracks p s (storeContainer s o account stored) := by
  have howner : sc.edenAccount = account := (Table.find?_eq_some.mp hsc).2
  refine tracks_shrink hsc (fun session => s.now < session.expiration)
    (fun o => s.now < o.expiration) (fun _ _ => rfl) ?_ ?_
  · change sessionEvents o = _
    rw [ho, sessionEvents_expire, howner]
  · rw [sessionsOf_storeContainer o hsc, hstored]
    rfl

theorem objects_set {sessions : List Session} {session : Session} (account : Name)
    (sequences : List Nat) (h : session ∈ sessions) :
    (sessions.set (sessions.idxOf session) { session with sequences := sequences }).map
        (objectOf account) = sessions.map (objectOf account) := by
  induction sessions with
  | nil => cases h
  | cons first rest ih =>
      by_cases hfirst : first = session
      · subst hfirst
        rw [List.idxOf_cons_self]
        rfl
      · have hrest : session ∈ rest := (List.mem_cons.mp h).resolve_left (Ne.symm hfirst)
        rw [List.idxOf_cons_ne _ hfirst, List.set_cons_succ, List.map_cons, List.map_cons, ih hrest]

theorem tracks_useSession {account : Name} {recovered : PublicKey} {sequence : Nat}
    (h : useSession p keys s account recovered sequence = .ok s') : Tracks p s s' := by
  simp only [useSession, bind_eq_ok, expect_eq_ok, pure_eq_ok] at h
  obtain ⟨sc, hsc, session, hsession, sequences, -, rfl⟩ := h
  refine tracks_expire hsc rfl ?_
  exact objects_set account sequences (List.mem_of_find?_eq_some hsession)

theorem tracks_authorize {auth : RunAuth} {r : State × Name}
    (h : authorize p keys env s auth = .ok r) : Tracks p s r.1 := by
  cases auth with
  | noAuth =>
      cases h
      exact .refl s
  | accountAuth contract contractAccount eosioAccount =>
      simp only [authorize, bind_eq_ok, pure_eq_ok] at h
      obtain ⟨-, -, -, -, -, -, rfl⟩ := h
      exact .refl s
  | signatureAuth recovered contract account sequence =>
      simp only [authorize, bind_eq_ok, pure_eq_ok] at h
      obtain ⟨-, -, t, huse, rfl⟩ := h
      exact tracks_useSession huse

theorem tracks_run {auth : RunAuth} {verbs : List Action}
    (h : run p keys env s auth verbs = .ok s') : Tracks p s s' := by
  simp only [run, bind_eq_ok] at h
  obtain ⟨⟨t, account⟩, hauth, -, -, hverbs⟩ := h
  exact (tracks_authorize hauth).trans
    (tracks_deletes.foldlM (fun _ _ _ hstep => tracks_deletes.runVerb hstep) verbs hverbs)

/-- A container loses one of its sessions, with an event. -/
theorem tracks_erase {account : Name} {sc : SessionContainer} {session : Session}
    (hsc : s.sessions.find? account = some sc) (hmem : session ∈ sc.sessions) :
    Tracks p s (storeContainer s (pushEvent p s.output (.sessionDel account session.key)) account
      { sc with sessions := sc.sessions.erase session }) := by
  refine ⟨deletions account [objectOf account session], ?_, fun db hdb => ?_⟩
  · change sessionEvents (pushEvent p s.output _) = _
    rw [sessionEvents_pushEvent]
    rfl
  · have hkeys : (sc.sessions.map Session.key).Nodup := by
      have hnodup := hdb.keys account
      rw [sessionsOf_some hsc, List.map_map] at hnodup
      exact hnodup
    rw [sessionsOf_storeContainer _ hsc]
    refine hdb.delete account ?_ ?_ ?_
    · rw [sessionsOf_some hsc]
      exact List.erase_sublist.map _
    · rw [sessionsOf_some hsc]
      exact List.forall_mem_singleton.mpr (List.mem_map_of_mem hmem)
    · rw [sessionsOf_some hsc]
      intro o ho
      obtain ⟨other, hother, rfl⟩ := List.mem_map.mp ho
      rw [List.mem_singleton]
      constructor
      · intro hkept hsame
        obtain ⟨third, hthird, heq⟩ := List.mem_map.mp hkept
        have hkey : third.key = session.key := congrArg SessionObject.key (heq.trans hsame)
        obtain ⟨hne, hthird⟩ := (hkeys.of_map _).mem_erase_iff.mp hthird
        exact hne (List.inj_on_of_nodup_map hkeys hthird hmem hkey)
      · intro hne
        refine List.mem_map_of_mem ((List.mem_erase_of_ne ?_).mpr hother)
        rintro rfl
        exact hne rfl

theorem find?_storeContainer {account : Name} {sc : SessionContainer} (stored : SessionContainer)
    {o : Output} (h : s.sessions.find? account = some sc) :
    (storeContainer s o account stored).sessions.find? account =
      some { stored with edenAccount := sc.edenAccount } := by
  rw [storeContainer, Table.find?_modify, if_pos rfl, h]
  rfl

theorem tracks_delsession {account : Name} {key : PublicKey}
    (h : delsession p env s account key = .ok s') : Tracks p s s' := by
  simp only [delsession, bind_eq_ok, expect_eq_ok] at h
  obtain ⟨-, -, sc, hsc, session, hsession, h⟩ := h
  have hmem : session ∈ sc.sessions := List.mem_of_find?_eq_some hsession
  have howner : sc.edenAccount = account := Table.key_of_find? hsc
  subst howner
  -- the session of the key goes first, then those that have expired
  have hdeleted := tracks_erase (p := p) hsc hmem
  have hfound := find?_storeContainer { sc with sessions := sc.sessions.erase session }
    (o := pushEvent p s.output (.sessionDel sc.edenAccount session.key)) hsc
  refine hdeleted.trans (tracks_shrink hfound (fun session => s.now < session.expiration)
    (fun o => s.now < o.expiration) (fun _ _ => rfl) ?_ ?_)
  · have hevents := sessionEvents_expire (p := p) s.now
      (pushEvent p s.output (.sessionDel sc.edenAccount session.key))
      { sc with sessions := sc.sessions.erase session }
    split at h
    · cases h
      exact hevents
    · cases h
      exact hevents
  · have hlater : ∀ sessions : List SessionObject,
        Function.update (sessionsOf (storeContainer s
          (pushEvent p s.output (.sessionDel sc.edenAccount session.key)) sc.edenAccount
          { sc with sessions := sc.sessions.erase session }).sessions) sc.edenAccount sessions =
        Function.update (sessionsOf s.sessions) sc.edenAccount sessions := by
      intro sessions
      rw [sessionsOf_storeContainer _ hsc, Function.update_idem]
    rw [hlater]
    split at h
    · rename_i hnone
      cases h
      rw [sessionsOf_erase, sessionsOf_storeContainer _ hsc, Function.update_idem]
      exact congrArg _ (congrArg (List.map _) hnone).symm
    · cases h
      exact sessionsOf_storeContainer _ hsc

/-! ### New sessions -/

/-- The sessions of an account that have not expired. -/
def active (s : State) (account : Name) : List SessionObject :=
  (sessionsOf s.sessions account).filter fun o => s.now < o.expiration

/-- The sessions of an account after a new one, before the oldest one is evicted. -/
def opened (s : State) (o : SessionObject) : List SessionObject := active s o.edenAccount ++ [o]

/-- A fifth session is opened. -/
def evicts (s : State) : SessionCall → Bool
  | .newsession edenAccount _ _ _ => decide (4 ≤ (active s edenAccount).length)
  | _ => false

/-- The events of a new session lead to all sessions that are open; the table keeps at most four. -/
theorem newsession_opens {account : Name} {key : PublicKey} {expiration : Nat}
    {description : Text}
    (h : newsession p keys env s account key expiration description = .ok s') :
    let o : SessionObject := ⟨account, key, expiration, description⟩
    (∃ es, sessionEvents s'.output = sessionEvents s.output ++ es ∧
      ∀ db, Stores db (sessionsOf s.sessions) → ∃ db', replay p db es = .ok db' ∧
        Stores db' (Function.update (sessionsOf s.sessions) account (opened s o))) ∧
    sessionsOf s'.sessions = Function.update (sessionsOf s.sessions) account
      (if 4 < (opened s o).length then (opened s o).tail else opened s o) := by
  intro o
  simp only [newsession, bind_eq_ok] at h
  obtain ⟨-, -, -, -, -, -, -, -, -, -, g, -, member, -, t, ht, h⟩ := h
  cases h
  split at ht
  · rename_i hnone
    simp only [bind_eq_ok, expect_eq_ok, pure_eq_ok] at ht
    obtain ⟨sessions, hsessions, rfl⟩ := ht
    have hnew : sessionsOf s.sessions account = [] := sessionsOf_none hnone
    have hopened : opened s o = [o] := by
      rw [opened, active]
      change (sessionsOf s.sessions account).filter _ ++ [o] = [o]
      rw [hnew]
      rfl
    rw [hopened]
    refine ⟨⟨[.sessionNew account key expiration description], ?_, fun db hdb => ?_⟩, ?_⟩
    · exact sessionEvents_pushEvent _ _
    · obtain ⟨db', hreplay, hdb'⟩ := hdb.grow (p := p) (o := o) (by
        change ∀ other ∈ sessionsOf s.sessions account, _
        rw [hnew]
        simp)
      refine ⟨db', hreplay, ?_⟩
      have hsingle : sessionsOf s.sessions o.edenAccount ++ [o] = [o] := by
        change sessionsOf s.sessions account ++ [o] = [o]
        rw [hnew]
        rfl
      rwa [hsingle] at hdb'
    · exact sessionsOf_emplace hsessions
  · rename_i sc hsc
    simp only [bind_eq_ok, check_eq_ok, pure_eq_ok] at ht
    obtain ⟨-, hfresh, rfl⟩ := ht
    have howner : sc.edenAccount = account := Table.key_of_find? hsc
    subst howner
    have hstored : sessionsOf s.sessions sc.edenAccount =
        sc.sessions.map (objectOf sc.edenAccount) := sessionsOf_some hsc
    have hactive : active s sc.edenAccount = (sc.sessions.filter fun session =>
        s.now < session.expiration).map (objectOf sc.edenAccount) := by
      rw [active, hstored, List.filter_map]
      rfl
    have hopened : opened s o = (sc.sessions.filter
        (fun session : Session => s.now < session.expiration) ++
          [(⟨key, expiration, description, []⟩ : Session)]).map (objectOf sc.edenAccount) := by
      rw [List.map_append, ← hactive]
      rfl
    refine ⟨⟨deletions sc.edenAccount ((sc.sessions.filter fun session =>
        !decide (s.now < session.expiration)).map (objectOf sc.edenAccount)) ++
        [.sessionNew sc.edenAccount key expiration description], ?_, fun db hdb => ?_⟩, ?_⟩
    · refine (sessionEvents_pushEvent _ _).trans ?_
      change sessionEvents (expire p s.now s.output sc).1 ++
        [.sessionNew sc.edenAccount key expiration description] = _
      rw [sessionEvents_expire, List.append_assoc]
    · obtain ⟨db₁, hdeleted, hdb₁⟩ :=
        hdb.shrink (p := p) sc.edenAccount fun o => s.now < o.expiration
      have hnew : ∀ other ∈ Function.update (sessionsOf s.sessions) sc.edenAccount
          ((sessionsOf s.sessions sc.edenAccount).filter fun o => s.now < o.expiration)
          sc.edenAccount, other.key ≠ key := by
        intro other hother
        rw [Function.update_self, ← active, hactive] at hother
        obtain ⟨session, hsession, rfl⟩ := List.mem_map.mp hother
        exact of_decide_eq_true (List.all_eq_true.mp hfresh session hsession)
      obtain ⟨db₂, hcreated, hdb₂⟩ := hdb₁.grow (p := p) (o := o) hnew
      refine ⟨db₂, ?_, ?_⟩
      · rw [hstored, List.filter_map] at hdeleted
        rw [replay_append]
        exact bind_eq_ok.mpr ⟨db₁, hdeleted, hcreated⟩
      · rwa [Function.update_idem, Function.update_self] at hdb₂
    · refine (sessionsOf_storeContainer _ hsc).trans ?_
      rw [hopened, List.length_map, ← List.map_tail]
      exact congrArg _ (apply_ite (List.map (objectOf sc.edenAccount)) _ _ _)

theorem tracks_newsession {account : Name} {key : PublicKey} {expiration : Nat}
    {description : Text}
    (h : newsession p keys env s account key expiration description = .ok s')
    (hroom : (active s account).length < 4) : Tracks p s s' := by
  obtain ⟨⟨es, hes, hstores⟩, hsessions⟩ := newsession_opens h
  refine ⟨es, hes, ?_⟩
  rw [hsessions, if_neg (by simp [opened]; omega)]
  exact hstores

/-- The micro chain keeps the session that the table has lost. -/
theorem evicted_not_mirrored {account : Name} {key : PublicKey} {expiration : Nat}
    {description : Text}
    (h : newsession p keys env s account key expiration description = .ok s')
    (hfull : 4 ≤ (active s account).length) (hs : Mirrored p s) : ¬ Mirrored p s' := by
  rintro ⟨db', hreplay', hdb'⟩
  obtain ⟨db, hreplay, hdb⟩ := hs
  obtain ⟨⟨es, hes, hstores⟩, hsessions⟩ := newsession_opens h
  obtain ⟨db₁, hreplay₁, hdb₁⟩ := hstores db hdb
  have hsame : db₁ = db' := by
    rw [hes, replay_append, hreplay] at hreplay'
    exact Except.ok.inj (hreplay₁.symm.trans hreplay')
  subst hsame
  rw [hsessions, if_pos (by simp [opened]; omega)] at hdb'
  obtain ⟨oldest, rest, hopened⟩ : ∃ oldest rest,
      opened s ⟨account, key, expiration, description⟩ = oldest :: rest :=
    List.exists_cons_of_ne_nil (by simp [opened])
  rw [hopened] at hdb₁ hdb'
  have howner : oldest.edenAccount = account := by
    refine hdb₁.owners account oldest ?_
    rw [Function.update_self]
    exact List.mem_cons_self
  have hstored : oldest ∈ db₁.sessions.rows := by
    rw [hdb₁.objects, howner, Function.update_self]
    exact List.mem_cons_self
  rw [hdb'.objects, howner, Function.update_self] at hstored
  have hkeys := hdb₁.keys account
  rw [Function.update_self, List.map_cons, List.nodup_cons] at hkeys
  exact hkeys.1 (List.mem_map_of_mem hstored)

/-! ### Runs -/

/-- Calls other than `clearall`. -/
def withoutClearall (_ : State) (input : Env × SessionCall) : Prop :=
  input.2 ≠ .call (.action .clearall)

/-- A call that evicts no session is replayed, and all events have been sent. -/
theorem tracks_step {input : Env × SessionCall} (hclean : s.output.serializedEvents = [])
    (hallowed : withoutClearall s input) (h : execSession p keys input.1 s input.2 = .ok s')
    (hroom : evicts s input.2 = false) : Tracks p s s' := by
  obtain ⟨env, call⟩ := input
  cases call with
  | call c =>
      refine tracks_deletes.exec hclean ?_ h
      unfold keepsTables
      split
      · exact absurd rfl hallowed
      · rfl
  | newsession account key expiration description =>
      simp only [execSession, bind_eq_ok, pure_eq_ok] at h
      obtain ⟨t, hnew, rfl⟩ := h
      exact (tracks_newsession hnew (by simpa [evicts] using hroom)).trans (tracks_deletes.sendEvents t)
  | delsession account key =>
      simp only [execSession, bind_eq_ok, pure_eq_ok] at h
      obtain ⟨t, hdel, rfl⟩ := h
      exact (tracks_delsession hdel).trans (tracks_deletes.sendEvents t)
  | run auth verbs =>
      simp only [execSession, bind_eq_ok, pure_eq_ok] at h
      obtain ⟨t, hrun, rfl⟩ := h
      exact (tracks_run hrun).trans (tracks_deletes.sendEvents t)

theorem step_evicts {input : Env × SessionCall}
    (h : execSession p keys input.1 s input.2 = .ok s') (hfull : evicts s input.2 = true)
    (hs : Mirrored p s) : ¬ Mirrored p s' := by
  obtain ⟨env, call⟩ := input
  cases call with
  | newsession account key expiration description =>
      simp only [execSession, bind_eq_ok, pure_eq_ok] at h
      obtain ⟨t, hnew, rfl⟩ := h
      have hnot := evicted_not_mirrored hnew (of_decide_eq_true hfull) hs
      rwa [Mirrored, sessionEvents, emitted_sendEvents, ← sessionEvents]
  | call | delsession | run => cases hfull

theorem step_clean {input : Env × SessionCall} (hclean : s.output.serializedEvents = [])
    (h : execSession p keys input.1 s input.2 = .ok s') : s'.output.serializedEvents = [] := by
  obtain ⟨env, call⟩ := input
  cases call with
  | call c => exact (exec_steps hclean h).2
  | newsession | delsession | run =>
      simp only [execSession, bind_eq_ok, pure_eq_ok] at h
      obtain ⟨t, -, rfl⟩ := h
      exact serializedEvents_sendEvents _

theorem mirrored_untouched (h : Untouched s) : Mirrored p s := by
  rw [h.1]
  refine ⟨{}, rfl, ⟨fun o => ?_, fun account o ho => ?_, fun account => ?_⟩⟩
  · simp [sessionsOf, Table.find?, Table.empty]
  · cases ho
  · exact List.nodup_nil

/-- The sessions of the micro chain are those of the contract after each of the calls exactly when
none of them opens a fifth session of an account. -/
theorem replayed_iff {es : List (Machine.Entry State (Env × SessionCall))}
    (h : (sessionContract p keys).History Untouched withoutClearall es s) :
    (∀ e ∈ es, Mirrored p e.after) ↔ ∀ e ∈ es, evicts e.before e.input.2 = false := by
  have hinv : s.output.serializedEvents = [] ∧
      ((∀ e ∈ es, Mirrored p e.after) → Mirrored p s) ∧
      ((∀ e ∈ es, Mirrored p e.after) ↔ ∀ e ∈ es, evicts e.before e.input.2 = false) := by
    refine Machine.History.invariant (fun (es : List (Machine.Entry State (Env × SessionCall)))
      (s : State) => s.output.serializedEvents = [] ∧
        ((∀ e ∈ es, Mirrored p e.after) → Mirrored p s) ∧
        ((∀ e ∈ es, Mirrored p e.after) ↔ ∀ e ∈ es, evicts e.before e.input.2 = false)) h ?_ ?_ ?_
    · intro t ht
      refine ⟨?_, fun _ => mirrored_untouched ht, by simp⟩
      rw [ht.1]
    · exact fun es t now hadmits ht => ht
    · rintro es t input t' hallowed hstep ⟨hclean, hlast, hiff⟩
      refine ⟨step_clean hclean hstep, fun hall => ?_, ?_⟩
      · exact (List.forall_mem_append.mp hall).2 _ List.mem_cons_self
      · rw [List.forall_mem_append, List.forall_mem_append, List.forall_mem_singleton,
          List.forall_mem_singleton, hiff]
        refine and_congr_right fun hbefore => ?_
        have hmirrored : Mirrored p t := hlast (hiff.mpr hbefore)
        constructor
        · intro hafter
          by_contra hfull
          exact step_evicts hstep (by simpa using hfull) hmirrored hafter
        · exact fun hroom => (tracks_step hclean hallowed hstep hroom).mirrored hmirrored
  exact hinv.2.2

/-! ### A run -/

/-- The entries of a transaction, and the state after it. -/
def traceSessions (p : Platform) (keys : KeyHost) (s : State) :
    List (Env × SessionCall) → Option (List (Machine.Entry State (Env × SessionCall)) × State)
  | [] => some ([], s)
  | input :: inputs =>
      if input.2 = .call (.action .clearall) then none
      else (execSession p keys input.1 s input.2).toOption.bind fun t =>
        (traceSessions p keys t inputs).map fun result => (⟨s, input, t⟩ :: result.1, result.2)

theorem traced_of_traceSessions {inputs : List (Env × SessionCall)}
    {es : List (Machine.Entry State (Env × SessionCall))}
    (h : traceSessions p keys s inputs = some (es, s')) :
    (sessionContract p keys).Traced withoutClearall s es s' := by
  induction inputs generalizing s es with
  | nil =>
      rw [traceSessions, Option.some.injEq, Prod.mk.injEq] at h
      obtain ⟨rfl, rfl⟩ := h
      exact .nil
  | cons input inputs ih =>
      rw [traceSessions] at h
      split at h
      · cases h
      · rename_i hallowed
        obtain ⟨t, ht, h⟩ := Option.bind_eq_some_iff.mp h
        obtain ⟨⟨es', u⟩, hrest, heq⟩ := Option.map_eq_some_iff.mp h
        rw [Prod.mk.injEq] at heq
        obtain ⟨rfl, rfl⟩ := heq
        exact .cons hallowed (ok_of_toOption ht) (ih hrest)

/-- A first transaction of the contract. -/
def firstTransaction (inputs : List (Env × SessionCall)) :
    Option (List (Machine.Entry State (Env × SessionCall)) × State) :=
  traceSessions host ⟨fun _ => 0, toString⟩ { now := 1000000 } inputs

theorem history_of_first {inputs : List (Env × SessionCall)}
    {es : List (Machine.Entry State (Env × SessionCall))}
    (h : firstTransaction inputs = some (es, s)) :
    (sessionContract host ⟨fun _ => 0, toString⟩).History Untouched withoutClearall es s := by
  have huntouched : Untouched {} := ⟨rfl, by simp⟩
  have hadmits : (sessionContract host ⟨fun _ => 0, toString⟩).admits {} 1000000 := by
    refine ⟨?_, ?_⟩ <;> decide
  exact .run (.first huntouched) hadmits (traced_of_traceSessions h)

def genesisCall : Env × SessionCall :=
  (signedBy contractSigner, .call (.action (.genesis ['E', 'd', 'e', 'n'] eosSymbol (eos 100)
    [alice.name, bob.name] ['Q', 'm'] (eos 1) 3600 3 ['1', '2', ':', '0', '0'])))

/-- Alice opens a session with a key. -/
def opens (key : PublicKey) : Env × SessionCall :=
  (signedBy alice, .newsession alice.name key 2000000 [])

/-- Alice opens two sessions, deletes one of them and uses the other. -/
def twoSessions : List (Env × SessionCall) :=
  [genesisCall, opens 1, opens 2, (signedBy alice, .delsession alice.name 1),
    (signedBy bob, .run (.signatureAuth 2 host.self alice.name 1) [.inductprofil 1 sampleProfile])]

theorem two_sessions_replayed : ∃ es s, firstTransaction twoSessions = some (es, s) ∧
    (sessionsOf s.sessions alice.name).length = 1 ∧ ∀ e ∈ es, Mirrored host e.after := by
  have hrun : (firstTransaction twoSessions).any (fun result =>
      (sessionsOf result.2.sessions alice.name).length = 1 ∧
        ∀ e ∈ result.1, evicts e.before e.input.2 = false) := by
    decide +kernel
  obtain ⟨⟨es, s⟩, htrace, hrun⟩ := (Option.any_eq_true _ _).mp hrun
  obtain ⟨hone, hroom⟩ := of_decide_eq_true hrun
  exact ⟨es, s, htrace, hone, (replayed_iff (history_of_first htrace)).mpr hroom⟩

/-- The micro chain stores a session that the contract does not. -/
def lost (s : State) : Bool :=
  (replay host {} (sessionEvents s.output)).toOption.any fun db =>
    db.sessions.rows.any fun o => o ∉ sessionsOf s.sessions o.edenAccount

theorem not_mirrored_of_lost (h : lost s = true) : ¬ Mirrored host s := by
  rintro ⟨db, hreplay, hstores⟩
  rw [lost, hreplay] at h
  obtain ⟨o, ho, hlost⟩ := List.any_eq_true.mp h
  exact of_decide_eq_true hlost ((hstores.objects o).mp ho)

/-- Alice opens five sessions, and the first one is evicted. -/
def fiveSessions : List (Env × SessionCall) := genesisCall :: [1, 2, 3, 4, 5].map opens

/-- The micro chain keeps the first session, and fails when its key is used again. -/
theorem fifth_session_not_replayed : ∃ es s s', firstTransaction fiveSessions = some (es, s) ∧
    (sessionContract host ⟨fun _ => 0, toString⟩).History Untouched withoutClearall es s ∧
    (¬ ∀ e ∈ es, Mirrored host e.after) ∧
    execSession host ⟨fun _ => 0, toString⟩ (opens 1).1 s (opens 1).2 = .ok s' ∧
    ∀ db, replay host {} (sessionEvents s'.output) ≠ .ok db := by
  have hrun : (firstTransaction fiveSessions).any (fun result =>
      result.1.any (fun e => lost e.after) ∧
        (execSession host ⟨fun _ => 0, toString⟩ (opens 1).1 result.2 (opens 1).2).toOption.any
          fun s' => (replay host {} (sessionEvents s'.output)).toOption.isNone) := by
    decide +kernel
  obtain ⟨⟨es, s⟩, htrace, hrun⟩ := (Option.any_eq_true _ _).mp hrun
  obtain ⟨hlost, hrun⟩ := of_decide_eq_true hrun
  obtain ⟨s', hs', hfails⟩ := (Option.any_eq_true _ _).mp hrun
  refine ⟨es, s, s', htrace, history_of_first htrace, ?_, ok_of_toOption hs', ?_⟩
  · obtain ⟨e, he, hlost⟩ := List.any_eq_true.mp hlost
    exact fun hall => not_mirrored_of_lost hlost (hall e he)
  · intro db hdb
    rw [hdb] at hfails
    cases hfails

end Eden.SessionReplay
