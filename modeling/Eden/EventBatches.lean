import Eden.BinaryStreams
import Eden.Runtime

/-!
The events of an action in binary form: a buffer of events is sent when one more event could make
it too long, and the micro chain reads the events back from what has been sent.
-/

namespace Eden.EventBatches

open Eden.BinaryStreams
open Eden.ChainPrimitives
open Eden.ContractState
open Eden.Runtime

variable {codec : Codec Event}

/-- The globals `serialized_events` and `num_events`, and the data of the actions
`eosio.null::eden.events` sent up to now. -/
structure EventBuffer where
  serializedEvents : Bytes := []
  numEvents : Nat := 0
  sent : List Bytes := []

namespace EventBuffer

def sendEvents (b : EventBuffer) : EventBuffer :=
  if b.numEvents ≠ 0 then
    { serializedEvents := []
      numEvents := 0
      sent := b.sent ++ [varuint32ToBin b.numEvents ++ b.serializedEvents] }
  else b

def pushEvent (codec : Codec Event) (b : EventBuffer) (e : Event) : EventBuffer :=
  let s := codec.toBin e
  let estSize := 5 + b.serializedEvents.length + s.length
  let b := if 4 * 1024 < estSize then b.sendEvents else b
  { b with
    serializedEvents := b.serializedEvents ++ s
    numEvents := (b.numEvents + 1) % 2 ^ 32 }

end EventBuffer

/-! ### Batches -/

/-- Only a single event may make a batch longer than 4096 bytes. -/
def Sized (codec : Codec Event) (batch : List Event) : Prop :=
  (codec.vectorToBin batch).length ≤ 4096 ∨
    ∃ e, batch = [e] ∧ 4096 ≤ (codec.toBin e).length

/-- Events that wait to be sent, with room for the number of events in front. -/
def Fits (codec : Codec Event) (pending : List Event) : Prop :=
  5 + (codec.elementsToBin pending).length ≤ 4096 ∨
    ∃ e, pending = [e] ∧ 4096 < 5 + (codec.toBin e).length

/-- The batches sent up to now, and the events that wait. -/
structure Holds (codec : Codec Event) (b : EventBuffer) (batches : List (List Event))
    (pending : List Event) : Prop where
  bytes : b.serializedEvents = codec.elementsToBin pending
  count : b.numEvents = pending.length
  sent : b.sent = batches.map codec.vectorToBin
  sized : ∀ batch ∈ batches, batch ≠ [] ∧ Sized codec batch
  fits : Fits codec pending

theorem sized_of_fits {pending : List Event} (h : Fits codec pending) : Sized codec pending := by
  rcases h with hroom | ⟨e, rfl, hlong⟩
  · have hcount := varuint32ToBin_length_le pending.length
    left
    rw [Codec.vectorToBin, List.length_append]
    omega
  · have hone : varuint32ToBin [e].length = [1] := varuint32ToBin_of_lt (by simp)
    rw [Sized, Codec.vectorToBin, hone, Codec.elementsToBin_singleton, List.length_append,
      List.length_singleton]
    rcases Nat.lt_or_ge (codec.toBin e).length 4096 with hlt | hge
    · exact .inl (by omega)
    · exact .inr ⟨e, rfl, hge⟩

theorem holds_nothing (codec : Codec Event) : Holds codec {} [] [] where
  bytes := rfl
  count := rfl
  sent := rfl
  sized := fun batch hbatch => by cases hbatch
  fits := .inl (by simp [Codec.elementsToBin])

/-- What waits is sent as one more batch. -/
theorem Holds.sendEvents {b : EventBuffer} {batches : List (List Event)} {pending : List Event}
    (h : Holds codec b batches pending) :
    ∃ batches', Holds codec b.sendEvents batches' [] ∧
      batches'.flatten = batches.flatten ++ pending := by
  by_cases hne : pending = []
  · subst hne
    refine ⟨batches, ?_, (List.append_nil _).symm⟩
    have hzero : b.numEvents = 0 := h.count
    rw [EventBuffer.sendEvents, if_neg (not_not.mpr hzero)]
    exact h
  · have hcount : b.numEvents ≠ 0 := by
      rw [h.count]
      exact List.length_pos_iff.mpr hne |>.ne'
    refine ⟨batches ++ [pending], ?_, by simp⟩
    rw [EventBuffer.sendEvents, if_pos hcount]
    refine ⟨rfl, rfl, ?_, ?_, (holds_nothing codec).fits⟩
    · rw [h.sent, h.count, h.bytes, List.map_append]
      rfl
    · intro batch hbatch
      rcases List.mem_append.mp hbatch with hbatch | hbatch
      · exact h.sized batch hbatch
      · rw [List.mem_singleton.mp hbatch]
        exact ⟨hne, sized_of_fits h.fits⟩

/-- An event is added to those that wait if there is room. -/
theorem Holds.add {b : EventBuffer} {batches : List (List Event)} {pending : List Event}
    {e : Event} (h : Holds codec b batches pending) (hcount : pending.length + 1 < 2 ^ 32)
    (hfits : Fits codec (pending ++ [e])) :
    Holds codec { b with
      serializedEvents := b.serializedEvents ++ codec.toBin e
      numEvents := (b.numEvents + 1) % 2 ^ 32 } batches (pending ++ [e]) := by
  refine ⟨?_, ?_, h.sent, h.sized, hfits⟩
  · rw [h.bytes, Codec.elementsToBin_append, Codec.elementsToBin_singleton]
  · rw [h.count, Nat.mod_eq_of_lt hcount, List.length_append, List.length_singleton]

theorem Holds.pushEvent {b : EventBuffer} {batches : List (List Event)} {pending : List Event}
    (e : Event) (h : Holds codec b batches pending)
    (hcount : (batches.flatten ++ pending).length + 1 < 2 ^ 32) :
    ∃ batches' pending', Holds codec (b.pushEvent codec e) batches' pending' ∧
      batches'.flatten ++ pending' = batches.flatten ++ pending ++ [e] := by
  rw [List.length_append] at hcount
  unfold EventBuffer.pushEvent
  dsimp only
  split
  · obtain ⟨batches', hsent, hflatten⟩ := h.sendEvents
    refine ⟨batches', [] ++ [e], hsent.add (by simp) ?_, by rw [hflatten, List.nil_append]⟩
    rw [Fits, List.nil_append, Codec.elementsToBin_singleton]
    rcases Nat.lt_or_ge 4096 (5 + (codec.toBin e).length) with hlong | hroom
    · exact .inr ⟨e, rfl, hlong⟩
    · exact .inl hroom
  · rename_i hroom
    refine ⟨batches, pending ++ [e], h.add (by omega) (.inl ?_), (List.append_assoc _ _ _).symm⟩
    rw [Codec.elementsToBin_append, Codec.elementsToBin_singleton, List.length_append, ← h.bytes]
    omega

theorem Holds.pushEvents {b : EventBuffer} {batches : List (List Event)} {pending : List Event}
    (events : List Event) (h : Holds codec b batches pending)
    (hcount : (batches.flatten ++ pending).length + events.length < 2 ^ 32) :
    ∃ batches' pending', Holds codec (events.foldl (EventBuffer.pushEvent codec) b) batches'
        pending' ∧ batches'.flatten ++ pending' = batches.flatten ++ pending ++ events := by
  induction events generalizing b batches pending with
  | nil => exact ⟨batches, pending, h, (List.append_nil _).symm⟩
  | cons e events ih =>
      rw [List.length_cons] at hcount
      obtain ⟨batches₁, pending₁, h₁, hpushed⟩ := h.pushEvent e (by omega)
      have hcount₁ : (batches₁.flatten ++ pending₁).length + events.length < 2 ^ 32 := by
        rw [hpushed, List.length_append, List.length_singleton]
        omega
      obtain ⟨batches', pending', h', hall⟩ := ih h₁ hcount₁
      refine ⟨batches', pending', h', ?_⟩
      rw [hall, hpushed, List.append_assoc, List.singleton_append]

/-! ### The output of an action -/

/-- The data of the actions that send events. -/
def payloads (codec : Codec Event) (out : Output) : List Bytes :=
  out.executed.flatMap fun e =>
    match e with
    | .events batch => [codec.vectorToBin batch]
    | _ => []

/-- A buffer in binary form stands for the events of an output. -/
structure Represents (codec : Codec Event) (b : EventBuffer) (out : Output) : Prop where
  bytes : b.serializedEvents = codec.elementsToBin out.serializedEvents
  count : b.numEvents = out.serializedEvents.length
  sent : b.sent = payloads codec out

theorem represents_sendEvents {b : EventBuffer} {out : Output} (h : Represents codec b out) :
    Represents codec b.sendEvents (sendEvents out) := by
  unfold EventBuffer.sendEvents sendEvents
  by_cases hnone : out.serializedEvents = []
  · have hzero : b.numEvents = 0 := by
      rw [h.count, hnone]
      rfl
    rw [if_neg (not_not.mpr hzero), if_pos hnone]
    exact h
  · have hcount : b.numEvents ≠ 0 := by
      rw [h.count]
      exact (List.length_pos_iff.mpr hnone).ne'
    rw [if_pos hcount, if_neg hnone]
    refine ⟨rfl, rfl, ?_⟩
    rw [h.sent, h.count, h.bytes, payloads, payloads, List.flatMap_append]
    rfl

theorem represents_pushEvent {p : Platform} {b : EventBuffer} {out : Output} (e : Event)
    (hsize : ∀ e, p.eventSize e = (codec.toBin e).length)
    (hcount : out.serializedEvents.length + 1 < 2 ^ 32) (h : Represents codec b out) :
    Represents codec (b.pushEvent codec e) (pushEvent p out e) := by
  have hbytes : (out.serializedEvents.map p.eventSize).sum = b.serializedEvents.length := by
    rw [h.bytes, Codec.elementsToBin, List.length_flatMap]
    exact congrArg List.sum (List.map_congr_left fun e _ => hsize e)
  have hadd : ∀ {b' : EventBuffer} {out' : Output}, Represents codec b' out' →
      out'.serializedEvents.length + 1 < 2 ^ 32 →
      Represents codec { b' with
          serializedEvents := b'.serializedEvents ++ codec.toBin e
          numEvents := (b'.numEvents + 1) % 2 ^ 32 }
        { out' with serializedEvents := out'.serializedEvents ++ [e] } := by
    intro b' out' h' hcount'
    refine ⟨?_, ?_, h'.sent⟩
    · rw [h'.bytes, Codec.elementsToBin_append, Codec.elementsToBin_singleton]
    · rw [h'.count, Nat.mod_eq_of_lt hcount', List.length_append, List.length_singleton]
  have hlength : (sendEvents out).serializedEvents.length ≤ out.serializedEvents.length := by
    unfold sendEvents
    split
    · exact le_rfl
    · exact Nat.zero_le _
  unfold EventBuffer.pushEvent pushEvent
  dsimp only
  rw [hbytes, hsize e]
  split
  · exact hadd (represents_sendEvents h) (by omega)
  · exact hadd h hcount

/-- The events of an action as the model of the contract batches them are the ones in binary
form. -/
theorem output_represented {p : Platform} (hsize : ∀ e, p.eventSize e = (codec.toBin e).length)
    {events : List Event} (hcount : events.length < 2 ^ 32) :
    Represents codec (events.foldl (EventBuffer.pushEvent codec) {}).sendEvents
      (sendEvents (events.foldl (pushEvent p) {})) := by
  have hall : ∀ (l : List Event) (b : EventBuffer) (out : Output), Represents codec b out →
      (emitted out).length + l.length < 2 ^ 32 →
      Represents codec (l.foldl (EventBuffer.pushEvent codec) b) (l.foldl (pushEvent p) out) := by
    intro l
    induction l with
    | nil => exact fun b out h _ => h
    | cons e l ih =>
        intro b out h hroom
        rw [List.length_cons] at hroom
        have hpending : out.serializedEvents.length ≤ (emitted out).length := by
          rw [emitted, List.length_append]
          exact Nat.le_add_left _ _
        refine ih _ _ (represents_pushEvent e hsize (by omega) h) ?_
        rw [emitted_pushEvent, List.length_append, List.length_singleton]
        omega
  refine represents_sendEvents (hall events {} {} ⟨rfl, rfl, rfl⟩ ?_)
  rw [emitted]
  simpa using hcount

/-! ### Reading events back -/

/-- The events of an action are sent in batches that the micro chain reads back, all of them and
in order. -/
theorem events_batched {events : List Event} (hcodec : ∀ e ∈ events, codec.Inverts e)
    (hcount : events.length < 2 ^ 32) :
    ∃ batches : List (List Event),
      ((events.foldl (EventBuffer.pushEvent codec) {}).sendEvents).sent.mapM
          codec.vectorFromBin = .ok batches ∧
        batches.flatten = events ∧
        ((events.foldl (EventBuffer.pushEvent codec) {}).sendEvents).sent =
          batches.map (fun batch => varuint32ToBin batch.length ++ codec.elementsToBin batch) ∧
        ∀ batch ∈ batches, batch ≠ [] ∧ Sized codec batch := by
  obtain ⟨batches, pending, hpushed, hall⟩ :=
    (holds_nothing codec).pushEvents events (by simpa using hcount)
  obtain ⟨batches', hsent, hflatten⟩ := hpushed.sendEvents
  have hevents : batches'.flatten = events := by
    rw [hflatten, hall]
    rfl
  refine ⟨batches', ?_, hevents, hsent.sent, hsent.sized⟩
  rw [hsent.sent]
  have hread : ∀ batch ∈ batches', codec.vectorFromBin (codec.vectorToBin batch) = .ok batch := by
    intro batch hbatch
    have hsub := List.sublist_flatten_of_mem hbatch
    rw [hevents] at hsub
    exact Codec.vectorFromBin_toBin (fun e he => hcodec e (hsub.subset he))
      (lt_of_le_of_lt hsub.length_le hcount)
  clear hsent hflatten hevents
  induction batches' with
  | nil => rfl
  | cons batch batches' ih =>
      rw [List.forall_mem_cons] at hread
      rw [List.map_cons, List.mapM_cons, hread.1, ih hread.2]
      rfl

/-- `set_pool_event`, the one with index 12, in binary form. -/
def poolCodec : Codec Event where
  toBin
    | .setPool pool pct => 12 :: littleEndianBytes 8 pool ++ [UInt8.ofNat pct]
    | _ => []
  fromBin
    | 12 :: a :: b :: c :: d :: e :: f :: g :: h :: pct :: rest =>
        .ok (.setPool (bigEndian [h, g, f, e, d, c, b, a]) pct.toNat, rest)
    | _ => .error .overrun

theorem events_batched_pools :
    ∃ batches : List (List Event),
      (((List.replicate 500 (.setPool masterName 5)).foldl
          (EventBuffer.pushEvent poolCodec) {}).sendEvents).sent.mapM
          poolCodec.vectorFromBin = .ok batches ∧
        batches.flatten = List.replicate 500 (.setPool masterName 5) ∧
        (((List.replicate 500 (.setPool masterName 5)).foldl
          (EventBuffer.pushEvent poolCodec) {}).sendEvents).sent =
          batches.map (fun batch =>
            varuint32ToBin batch.length ++ poolCodec.elementsToBin batch) ∧
        ∀ batch ∈ batches, batch ≠ [] ∧ Sized poolCodec batch := by
  refine events_batched (fun e he => ?_) ?_
  · rw [List.eq_of_mem_replicate he]
    exact fun rest => rfl
  · rw [List.length_replicate]
    decide

end Eden.EventBatches
