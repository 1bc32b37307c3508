import Emyu.Signal.History

/-! When `SignalStatus::Destroyed` reaches the subscribers of a signal: exactly which histories
send it only after the last handle, and exactly which last drops a subscriber gets to see. -/

namespace Emyu.SignalHistory

open Runs

variable {T : Type} {full : List SignalStatus → Bool} {h h' : SignalHistory T} {op : Op T}
  {ops : List (Op T)}

/-- Every `Destroyed` in the record was sent with no handle outside subscribers left, and no
subscriber was sent a `Changed` after a `Destroyed`. -/
structure Sound (log : List Sent) : Prop where
  last : ∀ e ∈ log, e.status = .destroyed → e.remaining = 0
  final : ∀ i, ¬ [SignalStatus.destroyed, .changed].Sublist (sentTo log i)

/-- The operation runs `Drop` with no other handle outside subscribers or with no channel that
takes a status; and a flush that sends finds no channel taking one that was sent `Destroyed`. -/
def Timely (full : List SignalStatus → Bool) (h : SignalHistory T) : Op T → Prop
  | .drop kind => (h.release kind).remaining = 0 ∨ h.repr.accepting full = []
  | .dropSubscriber _ => h.remaining = 0 ∨ h.repr.accepting full = []
  | .flush => h.repr.dirty = true →
      ∀ i ∈ h.repr.accepting full, SignalStatus.destroyed ∉ sentTo h.sent i
  | _ => True

instance : (h : SignalHistory T) → (op : Op T) → Decidable (Timely full h op)
  | h, .drop kind =>
    inferInstanceAs (Decidable ((h.release kind).remaining = 0 ∨ h.repr.accepting full = []))
  | h, .dropSubscriber _ =>
    inferInstanceAs (Decidable (h.remaining = 0 ∨ h.repr.accepting full = []))
  | h, .flush =>
    inferInstanceAs (Decidable (h.repr.dirty = true →
      ∀ i ∈ h.repr.accepting full, SignalStatus.destroyed ∉ sentTo h.sent i))
  | _, .clone _ | _, .reader | _, .writer | _, .toDynFlushSignals | _, .subscribe | _, .write _
  | _, .update _ | _, .set _ | _, .recv _ | _, .dropFlusher => isTrue trivial

theorem Sound.of_append {log more : List Sent} (hs : Sound (log ++ more)) : Sound log where
  last e he := hs.last e (List.mem_append_left _ he)
  final i hSub := hs.final i (by
    rw [sentTo_append]
    exact hSub.trans (List.sublist_append_left _ _))

theorem sublist_append_changed {l : List SignalStatus} :
    [SignalStatus.destroyed, .changed].Sublist (l ++ [.changed]) ↔ .destroyed ∈ l := by
  rw [show ([SignalStatus.destroyed, .changed] : List SignalStatus) = [.destroyed] ++ [.changed]
    from rfl, List.append_sublist_append_right, List.singleton_sublist]

theorem sublist_append_destroyed {l : List SignalStatus} :
    [SignalStatus.destroyed, .changed].Sublist (l ++ [.destroyed]) ↔
      [SignalStatus.destroyed, .changed].Sublist l := by
  refine ⟨fun hSub => ?_, fun hSub => hSub.trans (List.sublist_append_left _ _)⟩
  obtain ⟨l1, l2, hEq, h1, h2⟩ := List.sublist_append_iff.mp hSub
  match l2, h2 with
  | [], _ => simpa [hEq] using h1
  | status :: rest, h2 =>
    have hLast := congrArg List.getLast? hEq
    obtain ⟨rfl, rfl⟩ : status = .destroyed ∧ rest = [] := by
      simpa using List.sublist_singleton.mp h2
    simp at hLast

/-- Sending `Destroyed` to the list keeps the record sound exactly if no handle remains or no
channel takes it. -/
theorem sound_sending_destroyed (h : SignalHistory T) (hNodup : h.repr.subscribers.Nodup)
    {log : List Sent} (hs : Sound log) : Sound (log ++ h.sending full .destroyed) ↔
      h.remaining = 0 ∨ h.repr.accepting full = [] := by
  constructor
  · intro hs'
    rcases hAcc : h.repr.accepting full with _ | ⟨i, rest⟩
    · exact .inr rfl
    · refine .inl (hs'.last ⟨i, .destroyed, h.remaining⟩ ?_ rfl)
      simp [sending, hAcc]
  · intro hOr
    refine ⟨fun e he hStatus => ?_, fun i hSub => ?_⟩
    · rcases List.mem_append.mp he with he | he
      · exact hs.last e he hStatus
      · obtain ⟨i, hi, rfl⟩ := List.mem_map.mp he
        exact hOr.resolve_right fun hNil => by simp [hNil] at hi
    · rw [sentTo_append, sentTo_sending hNodup] at hSub
      split at hSub
      · exact hs.final i (sublist_append_destroyed.mp hSub)
      · exact hs.final i (by simpa using hSub)

/-- Sending `Changed` to the list keeps the record sound exactly if no channel that takes it has
been sent `Destroyed`. -/
theorem sound_sending_changed (hNodup : h.repr.subscribers.Nodup) {log : List Sent}
    (hs : Sound log) : Sound (log ++ h.sending full .changed) ↔
      ∀ i ∈ h.repr.accepting full, SignalStatus.destroyed ∉ sentTo log i := by
  constructor
  · intro hs' i hi hMem
    refine hs'.final i ?_
    rw [sentTo_append, sentTo_sending hNodup, if_pos hi]
    exact sublist_append_changed.mpr hMem
  · intro hAll
    refine ⟨fun e he hStatus => ?_, fun i hSub => ?_⟩
    · rcases List.mem_append.mp he with he | he
      · exact hs.last e he hStatus
      · obtain ⟨i, hi, rfl⟩ := List.mem_map.mp he
        cases hStatus
    · rw [sentTo_append, sentTo_sending hNodup] at hSub
      split at hSub
      · rename_i hi
        exact hAll i hi (sublist_append_changed.mp hSub)
      · exact hs.final i (by simpa using hSub)

/-- A step from a history with a sound record keeps it sound exactly if it is timely. -/
theorem sound_step (hc : h.Consistent) (hs : Sound h.sent) (hStep : step full h op = some h') :
    Sound h'.sent ↔ Timely full h op := by
  rw [step_sent hStep]
  cases op with
  | drop kind => exact sound_sending_destroyed (h.release kind) hc.well.nodup hs
  | dropSubscriber i => exact sound_sending_destroyed h hc.well.nodup hs
  | flush =>
    by_cases hd : h.repr.dirty = true
    · have hIff : Sound (h.sent ++ h.sending full .changed) ↔ _ :=
        sound_sending_changed hc.well.nodup hs
      simpa [news, Timely, hd] using hIff
    · simpa [news, Timely, hd] using hs
  | _ => simpa [news, Timely] using hs

/-- In every history of a signal, `Destroyed` is put in a channel only when no handle outside the
subscribers remains, and no `Changed` follows it, exactly if every operation is timely. -/
theorem destroyed_sound_iff (value : T) (hRun : run (step full) (new value) ops = some h) :
    Sound h.sent ↔ Every (step full) (Timely full) (new value) ops :=
  good_iff_every Consistent (fun _ _ _ hc hStep => hc.step hStep)
    (fun _ _ _ hc hs hStep => sound_step hc hs hStep)
    (fun _ _ _ hStep hs => (step_sent hStep ▸ hs).of_append) (.new value)
    ⟨by simp [new], by simp [new]⟩ hRun

/-- `futures::channel::mpsc::channel(1)` with one sender: two statuses fill it. -/
def twoFull (q : List SignalStatus) : Bool := 2 ≤ q.length

/-- A subscriber made after the temporary writer is gone is sent `Destroyed` last. -/
theorem destroyed_sound_iff_last_drop : ∃ h,
    run (step twoFull) (new 0) [.writer, .set 1, .drop .writer, .subscribe, .drop .signal] =
      some h ∧ Sound h.sent := by
  have hRun : run (step twoFull) (new 0)
      [.writer, .set 1, .drop .writer, .subscribe, .drop .signal] = some _ := rfl
  exact ⟨_, hRun, (destroyed_sound_iff 0 hRun).mpr (by decide)⟩

/-- `signal.writer().set(1)` with a subscriber: the temporary writer's `Drop` sends `Destroyed`
while the signal is alive. -/
theorem temporary_writer_sends_destroyed : ¬ ∀ ops h,
    run (step twoFull) (new 0) ops = some h → Sound h.sent := by
  intro hAll
  have hSound := hAll [.subscribe, .writer, .set 1, .drop .writer] _ rfl
  exact absurd (hSound.last ⟨0, .destroyed, 1⟩ (by decide) rfl) (by decide)

/-- What a subscriber received after `h₀`. -/
def receivedSince (h₀ h : SignalHistory T) (i : Nat) : List SignalStatus :=
  (h.received i).drop (h₀.received i).length

/-- `recv_status` would wait: the channel is empty and its sender is alive, and no `Destroyed` was
received after `h₀`. -/
def WaitsUnseen (h₀ h : SignalHistory T) (i : Nat) : Prop :=
  (h.repr.channel i).queue = [] ∧ i ∈ h.repr.subscribers ∧
    SignalStatus.destroyed ∉ receivedSince h₀ h i

/-- Draining the channel from `h₀` yields `Destroyed` or comes to the end of the stream, and no
later history leaves the live subscriber waiting without having received `Destroyed`. -/
structure Observes (full : List SignalStatus → Bool) (h₀ : SignalHistory T) (i : Nat) : Prop where
  drains : ∃ n h, run (step full) h₀ (List.replicate n (.recv i)) = some h ∧
    (SignalStatus.destroyed ∈ receivedSince h₀ h i ∨
      (h.repr.channel i).queue = [] ∧ i ∉ h.repr.subscribers)
  seen : ∀ ops h, run (step full) h₀ ops = some h → (h.repr.channel i).isOpen = true →
    ¬ WaitsUnseen h₀ h i

theorem received_prefix {i : Nat} (hRun : run (step full) h ops = some h') :
    h.received i <+: h'.received i := by
  refine run_relation (R := fun h h' => h.received i <+: h'.received i)
    (fun _ => List.prefix_refl _) List.IsPrefix.trans (fun h op h' hStep => ?_) hRun
  cases step_move hStep with
  | recv j =>
    by_cases hij : i = j
    · subst hij
      simp
    · simp [Function.update_of_ne hij]
  | _ => exact List.prefix_refl _

theorem sent_prefix (hRun : run (step full) h ops = some h') : h.sent <+: h'.sent :=
  run_relation (R := fun h h' => h.sent <+: h'.sent) (fun _ => List.prefix_refl _)
    List.IsPrefix.trans (fun _ _ _ hStep => step_sent hStep ▸ List.prefix_append _ _) hRun

/-- What a live subscriber received since, followed by its queue, extends what was queued. -/
theorem queue_prefix {i : Nat} (hc : h.Consistent) (hc' : h'.Consistent)
    (hRun : run (step full) h ops = some h') (hOpen : (h.repr.channel i).isOpen = true)
    (hOpen' : (h'.repr.channel i).isOpen = true) :
    (h.repr.channel i).queue <+: receivedSince h h' i ++ (h'.repr.channel i).queue := by
  obtain ⟨more, hMore⟩ := sent_prefix hRun
  obtain ⟨since, hSince⟩ := received_prefix (i := i) hRun
  have hLedger := hc.ledger i hOpen
  have hLedger' := hc'.ledger i hOpen'
  rw [← hMore, sentTo_append, hLedger, ← hSince, List.append_assoc, List.append_assoc,
    List.append_cancel_left_eq] at hLedger'
  refine ⟨sentTo more i, ?_⟩
  rw [hLedger', receivedSince, ← hSince, List.drop_left]

/-- Receiving as many statuses as are queued empties the channel and changes nothing else. -/
theorem drain_run (full : List SignalStatus → Bool) {i : Nat} {q : List SignalStatus}
    (hOpen : (h.repr.channel i).isOpen = true) (hq : (h.repr.channel i).queue = q) :
    ∃ h', run (step full) h (List.replicate q.length (.recv i)) = some h' ∧
      (h'.repr.channel i).queue = [] ∧ (h'.repr.channel i).isOpen = true ∧
      h'.repr.subscribers = h.repr.subscribers ∧ h'.received i = h.received i ++ q := by
  induction q generalizing h with
  | nil => exact ⟨h, rfl, hq, hOpen, rfl, by simp⟩
  | cons status rest ih =>
    obtain ⟨m, hStep, hmOpen, hmQueue, hmSubs, hmReceived⟩ : ∃ m,
        step full h (.recv i) = some m ∧ (m.repr.channel i).isOpen = true ∧
        (m.repr.channel i).queue = rest ∧ m.repr.subscribers = h.repr.subscribers ∧
        m.received i = h.received i ++ [status] := by
      simp only [step, if_pos hOpen, SignalRepr.recv, hq, Option.map_some]
      exact ⟨_, rfl, by simpa using hOpen, by simp, rfl, by simp⟩
    obtain ⟨h', hRun, hEmpty, hOpen', hSubs, hReceived⟩ := ih hmOpen hmQueue
    refine ⟨h', ?_, hEmpty, hOpen', hSubs.trans hmSubs, ?_⟩
    · exact run_cons_eq_some.mpr ⟨m, hStep, hRun⟩
    · rw [hReceived, hmReceived, List.append_assoc]; rfl

/-- From a state where a live subscriber's sender is in place, it observes the destruction exactly
if a `Destroyed` is in its channel. -/
theorem observes_iff_queued {i : Nat} (hc : h.Consistent)
    (hOpen : (h.repr.channel i).isOpen = true) :
    Observes full h i ↔ SignalStatus.destroyed ∈ (h.repr.channel i).queue := by
  obtain ⟨hEnd, hRun, hEmpty, hOpenEnd, hSubs, hReceived⟩ :=
    drain_run full hOpen rfl
  have hSince : receivedSince h hEnd i = (h.repr.channel i).queue := by
    rw [receivedSince, hReceived, List.drop_left]
  constructor
  · intro hObs
    by_contra hNot
    refine hObs.seen _ hEnd hRun hOpenEnd ⟨hEmpty, hSubs ▸ hc.well.live i hOpen, ?_⟩
    rwa [hSince]
  · intro hMem
    refine ⟨⟨_, hEnd, hRun, .inl (hSince ▸ hMem)⟩, fun ops h' hRun' hOpen' hWaits => ?_⟩
    have hc' : h'.Consistent := run_invariant (fun _ _ _ hc hStep => hc.step hStep) hc hRun'
    have hPrefix := queue_prefix hc hc' hRun' hOpen hOpen'
    rw [hWaits.1, List.append_nil] at hPrefix
    exact hWaits.2.2 (hPrefix.subset hMem)

/-- When the last handle outside the subscribers is dropped, a live subscriber observes the
destruction exactly if its channel still takes a status or a `Destroyed` is queued in it. -/
theorem destruction_observed_iff (value : T) (hRun : run (step full) (new value) ops = some h)
    {kind : HandleKind} (hDrop : step full h (.drop kind) = some h') (hLast : h'.remaining = 0)
    {i : Nat} (hOpen : (h'.repr.channel i).isOpen = true) :
    Observes full h' i ↔ (h.repr.channel i).accepts full = true ∨
      SignalStatus.destroyed ∈ (h.repr.channel i).queue := by
  have hc := Consistent.of_run hRun
  rw [observes_iff_queued (hc.step hDrop) hOpen]
  cases step_move hDrop
  have hOpen₀ : (h.repr.channel i).isOpen = true := by
    simpa [dropSignal, release, SignalRepr.drop] using hOpen
  have hMem : i ∈ h.repr.subscribers := hc.well.live i hOpen₀
  have hQueue : ((h.release kind).dropSignal full).repr.channel i =
      (h.repr.channel i).trySend full .destroyed := by
    simp [dropSignal, release, SignalRepr.drop, sendAll_apply hc.well.nodup, hMem]
  rw [hQueue, StatusChannel.trySend_queue]
  split <;> simp_all

/-- One pending `Changed` leaves room for the `Destroyed` of the last drop. -/
theorem destruction_observed_iff_one_pending : ∃ h h',
    run (step twoFull) (new 0)
      [.subscribe, .toDynFlushSignals, .writer, .set 1, .flush, .drop .signal] = some h ∧
    step twoFull h (.drop .writer) = some h' ∧ Observes twoFull h' 0 := by
  have hRun : run (step twoFull) (new 0)
      [.subscribe, .toDynFlushSignals, .writer, .set 1, .flush, .drop .signal] = some _ := rfl
  refine ⟨_, _, hRun, rfl, ?_⟩
  have hIff := destruction_observed_iff (i := 0) 0 hRun
    (show step twoFull _ (.drop .writer) = some _ from rfl) rfl rfl
  exact hIff.mpr (by decide)

/-- Two flushed changes that the subscriber has not received fill its channel, and neither the
signal's `Drop` nor the writer's gets a `Destroyed` into it. -/
theorem full_channel_misses_destroyed : ¬ ∀ ops h kind h' i,
    run (step twoFull) (new 0) ops = some h → step twoFull h (.drop kind) = some h' →
    h'.remaining = 0 → (h'.repr.channel i).isOpen = true → Observes twoFull h' i := by
  intro hAll
  have hRun : run (step twoFull) (new 0) [.subscribe, .toDynFlushSignals, .writer, .set 1, .flush,
      .set 2, .flush, .drop .signal, .drop .writer] = some _ := rfl
  have hObs := hAll [.subscribe, .toDynFlushSignals, .writer, .set 1, .flush, .set 2, .flush,
    .drop .signal] _ .writer _ 0 rfl rfl rfl rfl
  have hQueued := (observes_iff_queued (Consistent.of_run hRun) rfl).mp hObs
  exact absurd hQueued (by decide)

end Emyu.SignalHistory
