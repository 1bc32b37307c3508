import Emyu.Signal.Destroyed

/-! The subscriber list of a signal over its histories: which senders it holds and in what order,
how long the sender of a dropped subscriber stays in it, and what a flush leaves. -/

namespace Emyu.SignalHistory

open Runs

variable {T : Type} {full : List SignalStatus → Bool} {h h' : SignalHistory T} {op : Op T}
  {ops : List (Op T)} {i : Nat}

/-- How many subscribers a history has made. -/
def subscriptions : List (Op T) → Nat
  | [] => 0
  | .subscribe :: ops => subscriptions ops + 1
  | _ :: ops => subscriptions ops

/-- What an operation makes of the changed flag: `update` and `set` set it, the guard of `write`
does not, and a flush clears it. -/
def mark (flag : Bool) : Op T → Bool
  | .update _ | .set _ => true
  | .flush => false
  | _ => flag

/-- The changed flag after a history: an `update` or `set` since the last flush. -/
def marked (ops : List (Op T)) : Bool := ops.foldl mark false

/-- Subscriber `i` was dropped, and no flush since has found the changed flag set. -/
inductive Lingers : List (Op T) → Nat → Prop where
  | dropped (ops : List (Op T)) (i : Nat) : Lingers (ops ++ [.dropSubscriber i]) i
  | kept {ops : List (Op T)} {i : Nat} (op : Op T) : Lingers ops i →
      ¬ (op = .flush ∧ marked ops = true) → Lingers (ops ++ [op]) i

/-- The subscribers whose receiver is alive, in subscription order. -/
def live (h : SignalHistory T) : List Nat :=
  (List.range h.repr.channels).filter fun i => (h.repr.channel i).isOpen

@[simp] theorem subscriptions_append (ops more : List (Op T)) :
    subscriptions (ops ++ more) = subscriptions ops + subscriptions more := by
  induction ops with
  | nil => simp [subscriptions]
  | cons op ops ih => cases op <;> simp [subscriptions, ih, Nat.add_right_comm]

@[simp] theorem marked_concat (ops : List (Op T)) (op : Op T) :
    marked (ops ++ [op]) = mark (marked ops) op := by
  simp [marked]

theorem lingers_concat : Lingers (ops ++ [op]) i ↔
    op = .dropSubscriber i ∨ Lingers ops i ∧ ¬ (op = .flush ∧ marked ops = true) := by
  constructor
  · generalize hAll : ops ++ [op] = all
    rintro (⟨ops', i⟩ | ⟨op', hLingers, hNot⟩)
    · obtain ⟨-, hOp⟩ := List.append_inj' hAll rfl
      exact .inl (by simpa using hOp)
    · obtain ⟨rfl, hOp⟩ := List.append_inj' hAll rfl
      obtain rfl : op = op' := by simpa using hOp
      exact .inr ⟨hLingers, hNot⟩
  · rintro (rfl | ⟨hLingers, hNot⟩)
    · exact .dropped ops i
    · exact .kept op hLingers hNot

theorem not_lingers_nil : ¬ Lingers ([] : List (Op T)) i := by
  generalize hAll : ([] : List (Op T)) = all
  rintro (_ | _) <;> simp at hAll

/-- Only `subscribe` makes a channel, and only it and the drop of a subscriber change which
receivers are alive. -/
theorem step_channels (hStep : step full h op = some h') (hSubscribe : subscriptions [op] = 0)
    (hDrop : ∀ i, op ≠ .dropSubscriber i) : h'.repr.channels = h.repr.channels ∧
      ∀ i, (h'.repr.channel i).isOpen = (h.repr.channel i).isOpen := by
  cases step_move hStep with
  | subscribe => cases hSubscribe
  | dropSubscriber i => exact absurd rfl (hDrop i)
  | flush => simp
  | recv i status rest => exact ⟨rfl, SignalRepr.taken_isOpen _ i rest⟩
  | drop kind => exact ⟨rfl, fun _ => sendAll_isOpen⟩
  | _ => exact ⟨rfl, fun _ => rfl⟩

/-- What a history's operations say of the channels and the flag: how many channels there are,
which receivers are alive, and whether the flag is set. -/
structure Tracked (ops : List (Op T)) (h : SignalHistory T) : Prop where
  count : h.repr.channels = subscriptions ops
  flag : h.repr.dirty = marked ops
  bound : ∀ i, .dropSubscriber i ∈ ops → i < subscriptions ops
  alive : ∀ i, (h.repr.channel i).isOpen = true ↔ i < subscriptions ops ∧ .dropSubscriber i ∉ ops

namespace Tracked

theorem new (value : T) : Tracked [] (new value) where
  count := rfl
  flag := rfl
  bound i := by simp
  alive i := by simp [SignalHistory.new, SignalRepr.new, subscriptions]

/-- A step that neither makes nor drops a subscriber. -/
theorem of_same (ht : Tracked ops h) (hStep : SignalHistory.step full h op = some h')
    (hSubscribe : subscriptions [op] = 0) (hDrop : ∀ i, op ≠ .dropSubscriber i)
    (hFlag : h'.repr.dirty = mark h.repr.dirty op) : Tracked (ops ++ [op]) h' where
  count := by
    rw [(step_channels hStep hSubscribe hDrop).1, ht.count, subscriptions_append, hSubscribe,
      Nat.add_zero]
  flag := by rw [hFlag, ht.flag, marked_concat]
  bound i hi := by
    rw [subscriptions_append, hSubscribe]
    exact ht.bound i (by simpa [(hDrop i).symm] using hi)
  alive i := by
    rw [(step_channels hStep hSubscribe hDrop).2, ht.alive, subscriptions_append, hSubscribe]
    simp [(hDrop i).symm]

theorem subscribe (ht : Tracked ops h) :
    Tracked (ops ++ [.subscribe]) { h with repr := h.repr.subscribe } where
  count := by simp [SignalRepr.subscribe, ht.count, subscriptions]
  flag := by simp [SignalRepr.subscribe, ht.flag, mark]
  bound i hi := by
    have := ht.bound i (by simpa using hi)
    simp only [subscriptions_append, subscriptions]
    omega
  alive i := by
    simp only [SignalRepr.subscribe, subscriptions_append, subscriptions, ht.count]
    by_cases hn : i = subscriptions ops
    · have hFresh : .dropSubscriber (subscriptions ops) ∉ ops := fun hi =>
        Nat.lt_irrefl _ (ht.bound _ hi)
      simp [hn, hFresh]
    · have hLt : i < subscriptions ops + 1 ↔ i < subscriptions ops := by omega
      rw [Function.update_of_ne hn, ht.alive]
      simp [hLt]

theorem dropSubscriber (ht : Tracked ops h) (hOpen : (h.repr.channel i).isOpen = true) :
    Tracked (ops ++ [.dropSubscriber i])
      { h.dropSignal full with repr := (h.repr.drop full).closeReceiver i } where
  count := by simp [SignalRepr.closeReceiver, SignalRepr.drop, ht.count, subscriptions]
  flag := by simp [SignalRepr.closeReceiver, SignalRepr.drop, ht.flag, mark]
  bound j hj := by
    simp only [subscriptions_append, subscriptions, Nat.add_zero]
    rcases List.mem_append.mp hj with hj | hj
    · exact ht.bound j hj
    · obtain rfl : j = i := by simpa using hj
      exact ((ht.alive j).mp hOpen).1
  alive j := by
    simp only [SignalRepr.closeReceiver, SignalRepr.drop, subscriptions_append, subscriptions]
    by_cases hji : j = i
    · simp [hji]
    · rw [Function.update_of_ne hji, sendAll_isOpen, ht.alive]
      simp [hji]

theorem step (ht : Tracked ops h) (hStep : SignalHistory.step full h op = some h') :
    Tracked (ops ++ [op]) h' := by
  cases step_move hStep with
  | subscribe => exact ht.subscribe
  | dropSubscriber i hOpen => exact ht.dropSubscriber hOpen
  | flush => exact ht.of_same hStep rfl (by simp) (SignalRepr.flush_dirty full h.repr)
  | _ => exact ht.of_same hStep rfl (by simp) rfl

end Tracked

/-- The list is in subscription order, and holds the live subscribers and those that linger. -/
structure Listed (ops : List (Op T)) (h : SignalHistory T) : Prop extends Tracked ops h where
  order : h.repr.subscribers.Sublist (List.range h.repr.channels)
  mem : ∀ i, i ∈ h.repr.subscribers ↔ (h.repr.channel i).isOpen = true ∨ Lingers ops i

namespace Listed

theorem new (value : T) : Listed [] (new value) where
  toTracked := .new value
  order := List.Sublist.slnil
  mem i := by simp [SignalHistory.new, SignalRepr.new, not_lingers_nil]

/-- A step that neither makes nor drops a subscriber nor prunes the list. -/
theorem of_same (hl : Listed ops h) (hStep : SignalHistory.step full h op = some h')
    (hSubscribe : subscriptions [op] = 0) (hDrop : ∀ i, op ≠ .dropSubscriber i)
    (hFlush : ¬ (op = .flush ∧ h.repr.dirty = true))
    (hSubscribers : h'.repr.subscribers = h.repr.subscribers) : Listed (ops ++ [op]) h' where
  toTracked := hl.toTracked.step hStep
  order := by
    rw [hSubscribers, (step_channels hStep hSubscribe hDrop).1]
    exact hl.order
  mem i := by
    rw [hSubscribers, (step_channels hStep hSubscribe hDrop).2, hl.mem, lingers_concat, ← hl.flag]
    simp [hDrop i, hFlush]

theorem subscribe (hl : Listed ops h) :
    Listed (ops ++ [.subscribe]) { h with repr := h.repr.subscribe } where
  toTracked := hl.toTracked.subscribe
  order := by
    simp only [SignalRepr.subscribe, List.range_succ]
    exact hl.order.append_right _
  mem i := by
    rw [lingers_concat]
    simp only [SignalRepr.subscribe, List.mem_append, List.mem_singleton]
    by_cases hn : i = h.repr.channels
    · simp [hn]
    · rw [Function.update_of_ne hn, hl.mem]
      simp [hn]

/-- A dropped subscriber's sender stays where it was. -/
theorem dropSubscriber (hl : Listed ops h) (hOpen : (h.repr.channel i).isOpen = true) :
    Listed (ops ++ [.dropSubscriber i])
      { h.dropSignal full with repr := (h.repr.drop full).closeReceiver i } where
  toTracked := hl.toTracked.dropSubscriber hOpen
  order := hl.order
  mem j := by
    rw [lingers_concat]
    simp only [SignalRepr.closeReceiver, SignalRepr.drop]
    rw [hl.mem]
    by_cases hji : j = i
    · subst hji; simp [hOpen]
    · simp [Function.update_of_ne hji, Ne.symm hji]

/-- A flush that finds the flag set prunes every subscriber dropped before it. -/
theorem flush (hl : Listed ops h) (hStep : SignalHistory.step full h .flush = some h')
    (hDirty : h.repr.dirty = true) (hRepr : h'.repr = h.repr.flush full) :
    Listed (ops ++ [.flush]) h' where
  toTracked := hl.toTracked.step hStep
  order := by
    rw [hRepr, SignalRepr.flush_subscribers, if_pos hDirty, SignalRepr.flush_channels]
    exact List.filter_sublist.trans hl.order
  mem i := by
    rw [hRepr, SignalRepr.flush_subscribers, if_pos hDirty, SignalRepr.flush_isOpen, lingers_concat,
      List.mem_filter, hl.mem, ← hl.flag]
    simpa [hDirty] using Or.inl

theorem step (hl : Listed ops h) (hStep : SignalHistory.step full h op = some h') :
    Listed (ops ++ [op]) h' := by
  cases step_move hStep with
  | subscribe => exact hl.subscribe
  | dropSubscriber i hOpen => exact hl.dropSubscriber hOpen
  | flush =>
    by_cases hDirty : h.repr.dirty = true
    · exact hl.flush hStep hDirty rfl
    · refine hl.of_same hStep rfl (by simp) (by simp [hDirty]) ?_
      rw [SignalRepr.flush_subscribers, if_neg hDirty]
  | _ => exact hl.of_same hStep rfl (by simp) (by simp) rfl

theorem of_run {value : T}
    (hRun : run (SignalHistory.step full) (SignalHistory.new value) ops = some h) :
    Listed ops h :=
  run_history (.new value) (fun _ _ _ _ hl hStep => hl.step hStep) hRun

/-- The senders of the list whose receiver is alive are those of all live subscribers. -/
theorem filter_isOpen (hl : Listed ops h) :
    (h.repr.subscribers.filter fun i => (h.repr.channel i).isOpen) = h.live := by
  refine (hl.order.filter _).eq_of_length_le ?_
  refine (List.nodup_range.filter _).length_le_of_subset fun i hi => ?_
  have hOpen := (List.mem_filter.mp hi).2
  exact List.mem_filter.mpr ⟨(hl.mem i).mpr (.inl hOpen), hOpen⟩

theorem mem_live (hl : Listed ops h) :
    i ∈ h.live ↔ i < subscriptions ops ∧ .dropSubscriber i ∉ ops := by
  rw [live, List.mem_filter, List.mem_range, hl.count, hl.alive]
  simp

end Listed

/-- A flush ends no receiver. -/
theorem flush_live (hStep : step full h .flush = some h') : h'.live = h.live := by
  obtain ⟨hChannels, hOpen⟩ := step_channels hStep rfl (by simp)
  simp only [live, hChannels, hOpen]

/-- After every history the list holds the sender of every live subscriber once, in subscription
order, and beside these exactly the senders of the subscribers dropped since the last flush that
found the changed flag set. A flush that finds it set leaves the live subscribers only; one that
finds it clear leaves the list as it was. -/
theorem subscribers_of_run (value : T) (hRun : run (step full) (new value) ops = some h) :
    h.repr.subscribers.Sublist (List.range (subscriptions ops)) ∧
    h.live.Sublist h.repr.subscribers ∧
    (∀ i, i ∈ h.live ↔ i < subscriptions ops ∧ .dropSubscriber i ∉ ops) ∧
    (∀ i, i ∈ h.repr.subscribers ↔ i ∈ h.live ∨ Lingers ops i) ∧
    ∀ h', step full h .flush = some h' → h'.live = h.live ∧
      h'.repr.subscribers = if marked ops then h'.live else h.repr.subscribers := by
  have hl := Listed.of_run hRun
  refine ⟨hl.count ▸ hl.order, ?_, fun i => hl.mem_live, fun i => ?_, fun h' hStep => ?_⟩
  · rw [← hl.filter_isOpen]
    exact List.filter_sublist
  · rw [hl.mem, hl.alive, hl.mem_live]
  · refine ⟨flush_live hStep, ?_⟩
    have hFiltered := hl.filter_isOpen
    rw [flush_live hStep, ← hl.flag, ← hFiltered]
    cases step_move hStep
    exact SignalRepr.flush_subscribers full h.repr

/-- Of two subscribers the first is dropped, and the flush after a `set` prunes its sender. -/
theorem subscribers_of_run_second : ∃ h, run (step twoFull) (new 0)
      [.subscribe, .toDynFlushSignals, .writer, .subscribe, .dropSubscriber 0, .set 1] = some h ∧
    h.repr.subscribers = [0, 1] ∧ ∃ h', step twoFull h .flush = some h' ∧
      h'.live = [1] ∧ h'.repr.subscribers = h'.live := by
  have hRun : run (step twoFull) (new 0)
      [.subscribe, .toDynFlushSignals, .writer, .subscribe, .dropSubscriber 0, .set 1] = some _ :=
    rfl
  obtain ⟨-, -, -, -, hFlush⟩ := subscribers_of_run 0 hRun
  exact ⟨_, hRun, rfl, _, rfl, rfl, (hFlush _ rfl).2⟩

/-- A flush of a signal that was not written keeps the sender of a dropped subscriber. -/
theorem clean_flush_keeps_dropped : ¬ ∀ ops h h', run (step twoFull) (new 0) ops = some h →
    step twoFull h .flush = some h' → ∀ i ∈ h'.repr.subscribers,
      (h'.repr.channel i).isOpen = true := by
  intro hAll
  have hOpen := hAll [.subscribe, .dropSubscriber 0, .toDynFlushSignals] _ _ rfl rfl 0
    (List.mem_singleton.mpr rfl)
  exact absurd hOpen (by decide)

end Emyu.SignalHistory
