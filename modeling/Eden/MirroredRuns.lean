import Eden.CallTraces
import Eden.HostFunctions
import Eden.MirrorHandlers

/-!
Runs of the contract whose transactions the micro chain filters as they are executed.
-/

namespace Eden.MirroredRuns

open Eden.ExceptReasoning
open Eden.TransactionRuns
open Eden.ChainPrimitives
open Eden.ContractState
open Eden.Runtime
open Eden.Transactions
open Eden.ActionSteps
open Eden.CallTraces
open Eden.HostFunctions
open Eden.MirrorTables
open Eden.MirrorHandlers

/-- Notifications by `atomicassets`, which the contract does not send itself. -/
def Trace.isNotice : Trace → Bool
  | .logmint _ => true
  | .logtransfer .. => true
  | _ => false

/-- What has been executed since an earlier state. -/
def executedSince (s s' : State) : List Trace :=
  (s'.output.executed.drop s.output.executed.length).map .executed

/-- The actions of a transaction in the order of their execution, with notices in between. -/
def Reports (s s' : State) (actions : List Trace) : Prop :=
  (actions.filter fun t => !Trace.isNotice t) = executedSince s s'

/-- A state of the contract, and the database after the micro chain has filtered all transactions
up to it. -/
inductive Mirrored (p : Platform) (tokenAccount : Name) (allowed : State → Call → Prop) :
    State → Database → Prop
  | first {s : State} : Untouched s → Mirrored p tokenAccount allowed s {}
  | run {s s' : State} {db db' : Database} {now : Nat} {calls : List (Env × Call)}
      {actions : List Trace} : Mirrored p tokenAccount allowed s db →
      (contract p).admits s now →
      (contract p).Allows (fun t call => allowed t call.2) { s with now := now } calls →
      (contract p).run s now calls = .ok s' → Reports s s' actions →
      filterBlock p tokenAccount db ⟨now, [actions]⟩ = .ok db' →
      Mirrored p tokenAccount allowed s' db'

section Runs

variable (p : Platform) (tokenAccount : Name)

/-- Run transactions on both sides, without notices. -/
def mirrorAll : State × Database → List Transaction → Option (State × Database)
  | acc, [] => some acc
  | (s, db), (now, calls) :: rest =>
      if s.now ≤ now ∧ now < 2 ^ 32 then
        (runCalls p (fun _ _ => True) { s with now := now } calls).bind fun s' =>
          (filterBlock p tokenAccount db ⟨now, [executedSince s s']⟩).toOption.bind fun db' =>
            mirrorAll (s', db') rest
      else none

variable {p tokenAccount}

theorem executed_not_notice {s s' : State} : Reports s s' (executedSince s s') := by
  apply List.filter_eq_self.mpr
  intro t ht
  obtain ⟨e, -, rfl⟩ := List.mem_map.mp ht
  rfl

theorem mirrored_of_mirrorAll {transactions : List Transaction} {s s' : State}
    {db db' : Database} (hmirrored : Mirrored p tokenAccount (fun _ _ => True) s db)
    (h : mirrorAll p tokenAccount (s, db) transactions = some (s', db')) :
    Mirrored p tokenAccount (fun _ _ => True) s' db' := by
  induction transactions generalizing s db with
  | nil =>
      cases h
      exact hmirrored
  | cons transaction rest ih =>
      obtain ⟨now, calls⟩ := transaction
      rw [mirrorAll] at h
      split at h
      · rename_i htime
        obtain ⟨t, hcalls, h⟩ := Option.bind_eq_some_iff.mp h
        obtain ⟨dbt, hblock, h⟩ := Option.bind_eq_some_iff.mp h
        obtain ⟨hallows, hrun⟩ := runCalls_eq_some hcalls
        exact ih (.run hmirrored htime hallows hrun executed_not_notice
          (ok_of_toOption hblock)) h
      · cases h

end Runs

/-! ### Views

A view of the database that each entry of a trace changes in a certain way is the view of the whole
trace of the contract. -/

section Views

/-- One entry of a transaction, event by event. -/
def singles : Trace → List Trace
  | .executed x => (unbatched x).map .executed
  | t => [t]

/-- What has been executed among the entries of a transaction, event by event. -/
def entries (actions : List Trace) : List Executed :=
  actions.flatMap fun
    | .executed x => unbatched x
    | _ => []

variable {p : Platform} {tokenAccount : Name}

theorem handle_singles (time : Nat) (f : Filter) (t : Trace) :
    (singles t).foldlM (handle p tokenAccount time) f = handle p tokenAccount time f t := by
  have hone : ∀ t : Trace, [t].foldlM (handle p tokenAccount time) f =
      handle p tokenAccount time f t := fun t => by
    rw [List.foldlM_cons]
    exact bind_pure _
  cases t with
  | executed x =>
      cases x with
      | events batch =>
          show (((batch.map fun e => Executed.events [e]).map Trace.executed).foldlM
            (handle p tokenAccount time) f) = _
          clear hone
          induction batch generalizing f with
          | nil => rfl
          | cons e batch ih =>
              simp only [List.map_cons, List.foldlM_cons]
              simp only [handle, List.foldlM_cons, List.foldlM_nil, bind_pure, bind_assoc]
              refine bind_congr fun db => ?_
              rw [pure_bind, ih]
              rfl
      | external a => rfl
      | action a => exact hone _
      | transfer sender receiver quantity memo => exact hone _
  | _ => exact hone _

theorem foldlM_singles (time : Nat) (f : Filter) (actions : List Trace) :
    (actions.flatMap singles).foldlM (handle p tokenAccount time) f =
      actions.foldlM (handle p tokenAccount time) f := by
  induction actions generalizing f with
  | nil => rfl
  | cons t actions ih =>
      rw [List.flatMap_cons, List.foldlM_append, handle_singles, List.foldlM_cons]
      exact bind_congr fun f' => ih f'

/-- A view of the database that entries change, of those entries that occur. -/
structure View (p : Platform) (tokenAccount : Name) (V : Type) where
  Occurs : Executed → Prop
  start : V
  post : V → Executed → V
  Shows : Database → V → Prop
  first : Shows {} start
  action : ∀ {time f a f' v}, Occurs (.action a) → dispatch p time f a = .ok f' →
    Shows f.db v → Shows f'.db (post v (.action a))
  transfer : ∀ {time f sender receiver quantity memo f' v},
    notifyTransfer p tokenAccount time f sender receiver quantity = .ok f' →
    Shows f.db v → Shows f'.db (post v (.transfer sender receiver quantity memo))
  event : ∀ {time db e db' v}, Occurs (.events [e]) → handleEvent p time db e = .ok db' →
    Shows db v → Shows db' (post v (.events [e]))
  notice : ∀ {time f t f' v}, Trace.isNotice t = true →
    handle p tokenAccount time f t = .ok f' → Shows f.db v → Shows f'.db v

variable {V : Type} (view : View p tokenAccount V)

theorem View.single {time : Nat} {f f' : Filter} {v : V} {x y : Executed} (hy : y ∈ unbatched x)
    (hoccurs : view.Occurs y) (h : handle p tokenAccount time f (.executed y) = .ok f')
    (hv : view.Shows f.db v) : view.Shows f'.db (view.post v y) := by
  cases x with
  | action a =>
      obtain rfl := List.mem_singleton.mp hy
      exact view.action hoccurs h hv
  | transfer sender receiver quantity memo =>
      obtain rfl := List.mem_singleton.mp hy
      exact view.transfer h hv
  | events batch =>
      obtain ⟨e, -, rfl⟩ := List.mem_map.mp hy
      simp only [handle, List.foldlM_cons, List.foldlM_nil, bind_pure, bind_eq_ok, pure_eq_ok] at h
      obtain ⟨db, hdb, rfl⟩ := h
      exact view.event hoccurs hdb hv
  | external => cases hy

/-- The entries handled one after the other. -/
theorem View.handled {time : Nat} {f f' : Filter} {v : V} {actions : List Trace}
    (hactions : ∀ t ∈ actions, Trace.isNotice t = true ∨ ∃ x, t = .executed x)
    (hoccurs : ∀ y ∈ entries actions, view.Occurs y)
    (h : actions.foldlM (handle p tokenAccount time) f = .ok f') (hv : view.Shows f.db v) :
    view.Shows f'.db ((entries actions).foldl view.post v) := by
  induction actions generalizing f v with
  | nil =>
      cases h
      exact hv
  | cons t actions ih =>
      rw [List.foldlM_cons] at h
      obtain ⟨f₁, hfirst, hrest⟩ := bind_eq_ok.mp h
      rw [entries, List.flatMap_cons] at hoccurs ⊢
      rw [List.foldl_append]
      refine ih (fun u hu => hactions u (List.mem_cons_of_mem t hu))
        (fun y hy => hoccurs y (List.mem_append_right _ hy)) hrest ?_
      rcases hactions t List.mem_cons_self with hnotice | ⟨x, rfl⟩
      · cases t with
        | executed => cases hnotice
        | _ => exact view.notice hnotice hfirst hv
      · rw [← handle_singles] at hfirst
        have hall : ∀ (ys : List Executed), (∀ y ∈ ys, y ∈ unbatched x ∧ view.Occurs y) →
            ∀ {g v}, (ys.map Trace.executed).foldlM (handle p tokenAccount time) g = .ok f₁ →
              view.Shows g.db v → view.Shows f₁.db (ys.foldl view.post v) := by
          intro ys hys
          induction ys with
          | nil =>
              intro g v hg hv
              cases hg
              exact hv
          | cons y ys ih =>
              intro g v hg hv
              rw [List.map_cons, List.foldlM_cons] at hg
              obtain ⟨g₁, hone, hmore⟩ := bind_eq_ok.mp hg
              obtain ⟨hy, hocc⟩ := hys y List.mem_cons_self
              exact ih (fun z hz => hys z (List.mem_cons_of_mem y hz)) hmore
                (view.single hy hocc hone hv)
        exact hall _ (fun y hy => ⟨hy, hoccurs y (List.mem_append_left _ hy)⟩) hfirst hv

theorem entries_append (l r : List Trace) : entries (l ++ r) = entries l ++ entries r :=
  List.flatMap_append

theorem entries_filter (actions : List Trace) :
    entries (actions.filter fun t => !Trace.isNotice t) = entries actions := by
  induction actions with
  | nil => rfl
  | cons t actions ih =>
      rw [List.filter_cons]
      split
      · rw [entries, entries, List.flatMap_cons, List.flatMap_cons]
        exact congrArg _ ih
      · rename_i hnotice
        rw [ih]
        cases t with
        | executed => exact absurd rfl hnotice
        | _ => rfl

/-- A transaction is the notices it meets and what the contract executes. -/
theorem Reports.trace_eq {s s' : State} {actions : List Trace} (h : Reports s s' actions)
    (hclean : s.output.serializedEvents = []) (hclean' : s'.output.serializedEvents = [])
    (hgrown : s.output.executed <+: s'.output.executed) :
    trace s'.output = trace s.output ++ entries actions := by
  obtain ⟨l, hl⟩ := hgrown
  have hsince : executedSince s s' = l.map .executed := by
    rw [executedSince, ← hl, List.drop_left]
  rw [← entries_filter, h, hsince]
  simp only [trace, hclean, hclean', List.map_nil, List.append_nil]
  rw [← hl, List.flatMap_append, entries, List.flatMap_map]

theorem Reports.executed {s s' : State} {actions : List Trace} (h : Reports s s' actions) :
    ∀ t ∈ actions, Trace.isNotice t = true ∨ ∃ x, t = .executed x := by
  intro t ht
  cases hnotice : Trace.isNotice t with
  | true => exact .inl rfl
  | false =>
      have hmem : t ∈ executedSince s s' := by
        rw [← h]
        exact List.mem_filter.mpr ⟨ht, by simp [hnotice]⟩
      obtain ⟨x, -, rfl⟩ := List.mem_map.mp hmem
      exact .inr ⟨x, rfl⟩

/-- Entries that occur in the trace of every state that is reached. -/
theorem occurs_moves {allowed : State → Call → Prop} {Occurs : Executed → Prop}
    (hcalls : ∀ s call x, allowed s call → Reported p call x → ∀ y ∈ unbatched x, Occurs y)
    {s s' : State} (hclean : s.output.serializedEvents = [])
    (hs : ∀ y ∈ trace s.output, Occurs y)
    (h : Relation.ReflTransGen (Move p allowed) s s') : ∀ y ∈ trace s'.output, Occurs y := by
  refine (Machine.moves_preserve (fun t : State => t.output.serializedEvents = [] ∧
    ∀ y ∈ trace t.output, Occurs y) ?_ h ⟨hclean, hs⟩).2
  rintro t t' hmove ⟨ht, hoccurs⟩
  rcases move_cases hmove with ⟨now, -, -, rfl⟩ | ⟨env, call, hallowed, hexec⟩
  · exact ⟨ht, hoccurs⟩
  · obtain ⟨l, hexecuted, hl⟩ := executed_call ht hexec
    have hclean' := (exec_steps ht hexec).2
    refine ⟨hclean', ?_⟩
    intro y hy
    simp only [trace, hclean', List.map_nil, List.append_nil, hexecuted, List.flatMap_append,
      List.mem_append] at hy
    rcases hy with hy | hy
    · refine hoccurs y ?_
      simpa [trace, ht] using hy
    · obtain ⟨x, hx, hy⟩ := List.mem_flatMap.mp hy
      exact hcalls t call x hallowed (hl x hx) y hy

/-- A transaction that the contract accepts in a mirrored state. -/
structure Accepted (p : Platform) (allowed : State → Call → Prop) (s : State) (now : Nat)
    (s' : State) (actions : List Trace) : Prop where
  accepted : ∃ calls, (contract p).admits s now ∧
    (contract p).Allows (fun t call => allowed t call.2) { s with now := now } calls ∧
    (contract p).run s now calls = .ok s'
  reports : Reports s s' actions

theorem Accepted.moves {allowed : State → Call → Prop} {s s' : State} {now : Nat}
    {actions : List Trace} (h : Accepted p allowed s now s' actions) :
    Relation.ReflTransGen (Move p allowed) s s' := by
  obtain ⟨calls, hadmits, hallows, hrun⟩ := h.accepted
  exact Machine.moves_of_run hadmits hallows hrun

theorem Mirrored.clean {allowed : State → Call → Prop} {s : State} {db : Database}
    (h : Mirrored p tokenAccount allowed s db) : s.output.serializedEvents = [] := by
  induction h with
  | first h => rw [h.1]
  | run _ hadmits hallows hrun _ _ ih =>
      exact (executed_moves ih (Machine.moves_of_run hadmits hallows hrun)).2

theorem entries_singles (actions : List Trace) :
    entries (actions.flatMap singles) = entries actions := by
  have hone : ∀ ys : List Executed, (∀ y ∈ ys, unbatched y = [y]) →
      entries (ys.map .executed) = ys := by
    intro ys hys
    induction ys with
    | nil => rfl
    | cons y ys ih =>
        rw [List.map_cons, entries, List.flatMap_cons]
        simp only [hys y List.mem_cons_self]
        exact congrArg (y :: ·) (ih fun z hz => hys z (List.mem_cons_of_mem y hz))
  have hsingle : ∀ t : Trace, entries (singles t) = entries [t] := by
    intro t
    cases t with
    | executed x =>
        have hfull : entries [Trace.executed x] = unbatched x := by simp [entries]
        rw [hfull, singles, hone]
        intro y hy
        cases x with
        | events batch =>
            obtain ⟨e, -, rfl⟩ := List.mem_map.mp hy
            rfl
        | external => cases hy
        | _ =>
            obtain rfl := List.mem_singleton.mp hy
            rfl
    | _ => rfl
  induction actions with
  | nil => rfl
  | cons t actions ih =>
      rw [List.flatMap_cons, entries_append, hsingle, ih]
      exact (entries_append [t] actions).symm

theorem singles_executed {actions : List Trace}
    (h : ∀ t ∈ actions, Trace.isNotice t = true ∨ ∃ x, t = .executed x) :
    ∀ t ∈ actions.flatMap singles, Trace.isNotice t = true ∨ ∃ x, t = .executed x := by
  intro t ht
  obtain ⟨u, hu, ht⟩ := List.mem_flatMap.mp ht
  rcases h u hu with hnotice | ⟨x, rfl⟩
  · cases u with
    | executed => cases hnotice
    | _ =>
        obtain rfl := List.mem_singleton.mp ht
        exact .inl hnotice
  · obtain ⟨y, -, rfl⟩ := List.mem_map.mp ht
    exact .inr ⟨y, rfl⟩

/-- A mirrored database shows the trace of the contract. -/
theorem View.mirrored {allowed : State → Call → Prop} {s : State} {db : Database}
    (hcalls : ∀ s call x, allowed s call → Reported p call x → ∀ y ∈ unbatched x, view.Occurs y)
    (h : Mirrored p tokenAccount allowed s db) :
    (∀ y ∈ trace s.output, view.Occurs y) ∧
      view.Shows db ((trace s.output).foldl view.post view.start) := by
  induction h with
  | @first s h =>
      have hempty : trace s.output = [] := by
        rw [h.1]
        rfl
      rw [hempty]
      exact ⟨by simp, view.first⟩
  | @run s s' db db' now calls actions hmirrored hadmits hallows hrun hreports hblock ih =>
      obtain ⟨hoccurs, hshows⟩ := ih
      have hmoves := Machine.moves_of_run hadmits hallows hrun
      obtain ⟨hgrown, hclean'⟩ := executed_moves hmirrored.clean hmoves
      have htrace := hreports.trace_eq hmirrored.clean hclean' hgrown
      have hoccurs' := occurs_moves hcalls hmirrored.clean hoccurs hmoves
      refine ⟨hoccurs', ?_⟩
      simp only [filterBlock, List.foldlM_cons, List.foldlM_nil, bind_pure, filterTransaction,
        bind_eq_ok, pure_eq_ok] at hblock
      obtain ⟨f, ⟨f', hhandled, -, -, rfl⟩, rfl⟩ := hblock
      rw [htrace, List.foldl_append]
      refine view.handled hreports.executed (fun y hy => hoccurs' y ?_) hhandled hshows
      rw [htrace]
      exact List.mem_append_right _ hy

/-- So does the database between two entries of a transaction that the contract accepts. -/
theorem View.within {allowed : State → Call → Prop} {s s' : State} {db : Database} {now : Nat}
    {actions l r : List Trace} {f : Filter}
    (hcalls : ∀ s call x, allowed s call → Reported p call x → ∀ y ∈ unbatched x, view.Occurs y)
    (h : Mirrored p tokenAccount allowed s db) (haccepted : Accepted p allowed s now s' actions)
    (hsplit : actions.flatMap singles = l ++ r)
    (hf : l.foldlM (handle p tokenAccount now) { db := db } = .ok f) :
    view.Shows f.db ((trace s.output ++ entries l).foldl view.post view.start) ∧
      trace s'.output = trace s.output ++ entries l ++ entries r := by
  obtain ⟨hoccurs, hshows⟩ := view.mirrored hcalls h
  obtain ⟨hgrown, hclean'⟩ := executed_moves h.clean haccepted.moves
  have htrace := haccepted.reports.trace_eq h.clean hclean' hgrown
  rw [← entries_singles, hsplit, entries_append, ← List.append_assoc] at htrace
  refine ⟨?_, htrace⟩
  have hoccurs' := occurs_moves hcalls h.clean hoccurs haccepted.moves
  have hexecuted := singles_executed haccepted.reports.executed
  rw [hsplit] at hexecuted
  rw [List.foldl_append]
  refine view.handled (fun t ht => hexecuted t (List.mem_append_left r ht))
    (fun y hy => hoccurs' y ?_) hf hshows
  rw [htrace]
  exact List.mem_append_left _ (List.mem_append_right _ hy)

end Views

end Eden.MirroredRuns
