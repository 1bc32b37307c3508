import Emyu.Signal.Destroyed

/-! What a flush puts in the channels of the subscribers: exactly which histories have every flush
of a changed signal leave a `Changed` with every live subscriber. -/

namespace Emyu.SignalHistory

open Runs

variable {T : Type} {h h' : SignalHistory T} {op : Op T} {ops : List (Op T)}

/-- A flush from `h` to `h'` does what it is for: a changed signal leaves a `Changed` with every
live subscriber, which has received one by the time its channel is empty again, and a signal that
has not changed leaves every channel as it was. -/
structure Delivers (h h' : SignalHistory T) : Prop where
  changed : h.repr.dirty = true → ∀ i, (h'.repr.channel i).isOpen = true →
    SignalStatus.changed ∈ (h'.repr.channel i).queue
  noticed : h.repr.dirty = true → ∀ i, (h'.repr.channel i).isOpen = true →
    ∀ ops k, run (step twoFull) h' ops = some k → (k.repr.channel i).isOpen = true →
      (k.repr.channel i).queue = [] → SignalStatus.changed ∈ receivedSince h' k i
  quiet : h.repr.dirty = false → h'.repr.channel = h.repr.channel ∧ h'.sent = h.sent

/-- If the operation is a flush, it delivers. -/
def FlushDelivers (h : SignalHistory T) : Op T → Prop
  | .flush => ∀ h', step twoFull h .flush = some h' → Delivers h h'
  | _ => True

/-- If the operation is a flush of a changed signal, no live subscriber has both slots of its
channel taken by a `Destroyed`. -/
def Uncrowded (h : SignalHistory T) : Op T → Prop
  | .flush => h.repr.dirty = true → ∀ i ∈ h.repr.subscribers, (h.repr.channel i).isOpen = true →
      (h.repr.channel i).queue ≠ [.destroyed, .destroyed]
  | _ => True

instance : (h : SignalHistory T) → (op : Op T) → Decidable (Uncrowded h op)
  | h, .flush =>
    inferInstanceAs (Decidable (h.repr.dirty = true → ∀ i ∈ h.repr.subscribers,
      (h.repr.channel i).isOpen = true → (h.repr.channel i).queue ≠ [.destroyed, .destroyed]))
  | _, .clone _ | _, .reader | _, .writer | _, .toDynFlushSignals | _, .subscribe | _, .write _
  | _, .update _ | _, .set _ | _, .recv _ | _, .drop _ | _, .dropFlusher
  | _, .dropSubscriber _ => isTrue trivial

/-- No channel holds more than its two slots take. -/
def Bounded (channel : Nat → StatusChannel) : Prop :=
  ∀ i, (channel i).queue.length ≤ 2

namespace Bounded

variable {channel : Nat → StatusChannel}

theorem update (hb : Bounded channel) (i : Nat) {c : StatusChannel} (hc : c.queue.length ≤ 2) :
    Bounded (Function.update channel i c) := by
  intro j
  by_cases hji : j = i
  · subst hji; simpa using hc
  · simpa [Function.update_of_ne hji] using hb j

theorem sendAll (hb : Bounded channel) (status : SignalStatus) (ids : List Nat) :
    Bounded (Emyu.sendAll twoFull status ids channel) := by
  induction ids generalizing channel with
  | nil => exact hb
  | cons i rest ih =>
    refine ih (hb.update i ?_)
    have hi := hb i
    rw [StatusChannel.trySend_queue]
    split
    · rename_i hAccepts
      simp only [StatusChannel.accepts, twoFull, Bool.and_eq_true, Bool.not_eq_true',
        decide_eq_false_iff_not] at hAccepts
      simp only [List.length_append, List.length_singleton]
      omega
    · simpa using hi

theorem step (hb : Bounded h.repr.channel) (hStep : step twoFull h op = some h') :
    Bounded h'.repr.channel := by
  cases step_move hStep with
  | recv i status rest _ hQueue =>
    have hi := hb i
    rw [hQueue, List.length_cons] at hi
    exact hb.update i (Nat.le_of_succ_le hi)
  | flush =>
    unfold SignalRepr.flush
    split
    · exact hb.sendAll _ _
    · exact hb
  | dropSubscriber i => exact (hb.sendAll _ _).update i (by simp)
  | subscribe => exact hb.update _ (by simp)
  | drop kind => exact hb.sendAll _ _
  | _ => exact hb

end Bounded

/-- A `Changed` queued for a live subscriber has been received once its channel is empty. -/
theorem received_of_queued {i : Nat} (hc : h.Consistent) (hRun : run (step twoFull) h ops = some h')
    (hOpen : (h.repr.channel i).isOpen = true) (hOpen' : (h'.repr.channel i).isOpen = true)
    (hEmpty : (h'.repr.channel i).queue = []) {status : SignalStatus}
    (hMem : status ∈ (h.repr.channel i).queue) : status ∈ receivedSince h h' i := by
  have hc' : h'.Consistent := run_invariant (fun _ _ _ hc hStep => hc.step hStep) hc hRun
  have hPrefix := queue_prefix hc hc' hRun hOpen hOpen'
  rw [hEmpty, List.append_nil] at hPrefix
  exact hPrefix.subset hMem

/-- The channel of a live subscriber after the flush of a changed signal. -/
theorem flush_channel (hWell : h.repr.WellFormed) (hDirty : h.repr.dirty = true) {i : Nat}
    (hOpen : (h.repr.channel i).isOpen = true) :
    (h.repr.flush twoFull).channel i = (h.repr.channel i).trySend twoFull .changed := by
  rw [SignalRepr.flush_channel, if_pos hDirty, sendAll_apply hWell.nodup,
    if_pos (hWell.live i hOpen)]

/-- Of the queues two slots can hold, only two `Destroyed` keep a `Changed` out and lack one. -/
theorem changed_mem_trySend {c : StatusChannel} (hOpen : c.isOpen = true)
    (hLength : c.queue.length ≤ 2) :
    SignalStatus.changed ∈ (c.trySend twoFull .changed).queue ↔
      c.queue ≠ [.destroyed, .destroyed] := by
  obtain ⟨queue, isOpen⟩ := c
  rw [StatusChannel.trySend_queue]
  match queue, hLength with
  | [], _ => simp_all [StatusChannel.accepts, twoFull]
  | [_], _ => simp_all [StatusChannel.accepts, twoFull]
  | [first, second], _ =>
    cases first <;> cases second <;> simp [StatusChannel.accepts, twoFull]

theorem delivers_iff (hc : h.Consistent) (hb : Bounded h.repr.channel)
    (hStep : step twoFull h .flush = some h') : Delivers h h' ↔ Uncrowded h .flush := by
  have hc' := hc.step hStep
  cases step_move hStep
  constructor
  · intro hDelivers hDirty i _ hOpen
    have hMem := hDelivers.changed hDirty i
    rw [flush_channel hc.well hDirty hOpen] at hMem
    exact (changed_mem_trySend hOpen (hb i)).mp (hMem (by simpa using hOpen))
  · intro hUncrowded
    have hChanged : h.repr.dirty = true → ∀ i, ((h.repr.flush twoFull).channel i).isOpen = true →
        SignalStatus.changed ∈ ((h.repr.flush twoFull).channel i).queue := by
      intro hDirty i hOpen'
      have hOpen : (h.repr.channel i).isOpen = true := by
        rwa [SignalRepr.flush_isOpen] at hOpen'
      rw [flush_channel hc.well hDirty hOpen]
      exact (changed_mem_trySend hOpen (hb i)).mpr
        (hUncrowded hDirty i (hc.well.live i hOpen) hOpen)
    refine ⟨hChanged, fun hDirty i hOpen ops k hRun hOpen' hEmpty => ?_, fun hClean => ?_⟩
    · exact received_of_queued hc' hRun hOpen hOpen' hEmpty (hChanged hDirty i hOpen)
    · exact ⟨by rw [SignalRepr.flush_of_clean hClean], by simp [hClean]⟩

/-- In a history every flush delivers exactly if no flush of a changed signal meets a live
subscriber whose channel is taken up by two `Destroyed`. -/
theorem flush_delivers_iff (value : T) (hRun : run (step twoFull) (new value) ops = some h) :
    Every (step twoFull) FlushDelivers (new value) ops ↔
      Every (step twoFull) Uncrowded (new value) ops := by
  refine every_congr (fun h => h.Consistent ∧ Bounded h.repr.channel)
    (fun _ _ _ hi hStep => ⟨hi.1.step hStep, hi.2.step hStep⟩) (fun h op h' hi hStep => ?_)
    ⟨.new value, by simp [Bounded, new, SignalRepr.new]⟩ hRun
  cases op with
  | flush =>
    rw [← delivers_iff hi.1 hi.2 hStep]
    refine ⟨fun hAll => hAll h' hStep, fun hDelivers k hk => ?_⟩
    rwa [Option.some.inj (hk.symm.trans hStep)]
  | _ => exact Iff.rfl

/-- One temporary writer leaves room for the `Changed` of the flush. -/
theorem flush_delivers_iff_one_writer :
    Every (step twoFull) FlushDelivers (new 0)
      [.subscribe, .toDynFlushSignals, .writer, .set 1, .drop .writer, .flush] := by
  have hRun : run (step twoFull) (new 0)
      [.subscribe, .toDynFlushSignals, .writer, .set 1, .drop .writer, .flush] = some _ := rfl
  exact (flush_delivers_iff 0 hRun).mpr (by decide)

/-- `signal.writer().set(1); signal.writer().set(2)` with a subscriber: each temporary writer's
`Drop` queues a `Destroyed`, and the flush gets no `Changed` in. -/
theorem two_writers_keep_changed_out : ¬ ∀ ops h,
    run (step twoFull) (new 0) ops = some h →
    Every (step twoFull) FlushDelivers (new 0) ops := by
  intro hAll
  have hEvery := hAll [.subscribe, .toDynFlushSignals, .writer, .set 1, .drop .writer, .writer,
    .set 2, .drop .writer, .flush] _ rfl
  have hFlush := (hEvery.2 _ rfl).2 _ rfl |>.2 _ rfl |>.2 _ rfl |>.2 _ rfl |>.2 _ rfl |>.2 _ rfl
    |>.2 _ rfl |>.1 _ rfl
  exact absurd (hFlush.changed rfl 0 rfl) (by decide)

end Emyu.SignalHistory
