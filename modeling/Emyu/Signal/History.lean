import Emyu.Lib.Run
import Emyu.Signal

/-! The histories of one signal: the handles, readers, writers and subscribers that are alive, the
operations on them in any order, and a record of every status put in a subscriber's channel. -/

namespace Emyu

open Runs

/-- The handles of a signal outside its subscribers: each holds one `Signal`. -/
inductive HandleKind where
  | signal
  | reader
  | writer
  deriving DecidableEq, Repr

/-- A status put in a subscriber's channel, with the number of handles outside subscribers that
remained then. -/
structure Sent where
  subscriber : Nat
  status : SignalStatus
  remaining : Nat
  deriving DecidableEq, Repr

inductive Op (T : Type) where
  | clone (kind : HandleKind)
  | reader
  | writer
  | toDynFlushSignals
  | subscribe
  | write (f : T → T)
  | update (f : T → T)
  | set (value : T)
  | flush
  | recv (i : Nat)
  | drop (kind : HandleKind)
  | dropFlusher
  | dropSubscriber (i : Nat)

/-- A signal's cell with what refers to it: the handles of each kind, the `dyn FlushSignals`
references to the cell, every status sent, and the statuses each subscriber has received. -/
structure SignalHistory (T : Type) where
  repr : SignalRepr T
  handles : HandleKind → Nat
  flushers : Nat
  sent : List Sent
  received : Nat → List SignalStatus

namespace SignalHistory

variable {T : Type}

/-- `Signal::new`, before anything else refers to the cell. -/
def new (value : T) : SignalHistory T where
  repr := .new value
  handles
    | .signal => 1
    | _ => 0
  flushers := 0
  sent := []
  received := fun _ => []

/-- The handles that remain outside subscribers. -/
def remaining (h : SignalHistory T) : Nat :=
  h.handles .signal + h.handles .reader + h.handles .writer

def acquire (kind : HandleKind) (h : SignalHistory T) : SignalHistory T :=
  { h with handles := Function.update h.handles kind (h.handles kind + 1) }

def release (kind : HandleKind) (h : SignalHistory T) : SignalHistory T :=
  { h with handles := Function.update h.handles kind (h.handles kind - 1) }

/-- The statuses sent when `try_send(status)` runs over the subscribers. -/
def sending (full : List SignalStatus → Bool) (status : SignalStatus) (h : SignalHistory T) :
    List Sent :=
  (h.repr.accepting full).map fun i => ⟨i, status, h.remaining⟩

/-- `Drop for Signal`, run for a handle that no longer counts. -/
def dropSignal (full : List SignalStatus → Bool) (h : SignalHistory T) : SignalHistory T :=
  { h with repr := h.repr.drop full, sent := h.sent ++ h.sending full .destroyed }

/-- One operation, when what it is called on is alive. A subscriber's fields are dropped in
order, so its reader's `Drop` runs while its receiver is still open. -/
def step (full : List SignalStatus → Bool) (h : SignalHistory T) : Op T → Option (SignalHistory T)
  | .clone kind => if 0 < h.handles kind then some (h.acquire kind) else none
  | .reader => if 0 < h.handles .signal then some (h.acquire .reader) else none
  | .writer => if 0 < h.handles .signal then some (h.acquire .writer) else none
  | .toDynFlushSignals =>
    if 0 < h.handles .signal then some { h with flushers := h.flushers + 1 } else none
  | .subscribe =>
    if 0 < h.handles .signal then some { h with repr := h.repr.subscribe } else none
  | .write f => if 0 < h.handles .writer then some { h with repr := h.repr.write f } else none
  | .update f => if 0 < h.handles .writer then some { h with repr := h.repr.update f } else none
  | .set value =>
    if 0 < h.handles .writer then some { h with repr := h.repr.set value } else none
  | .flush =>
    if 0 < h.flushers then
      some { h with
        repr := h.repr.flush full
        sent := h.sent ++ if h.repr.dirty then h.sending full .changed else [] }
    else none
  | .recv i =>
    if (h.repr.channel i).isOpen then
      (h.repr.recv i).map fun p => { h with
        repr := p.2
        received := Function.update h.received i (h.received i ++ [p.1]) }
    else none
  | .drop kind =>
    if 0 < h.handles kind then some ((h.release kind).dropSignal full) else none
  | .dropFlusher => if 0 < h.flushers then some { h with flushers := h.flushers - 1 } else none
  | .dropSubscriber i =>
    if (h.repr.channel i).isOpen then
      some { h.dropSignal full with repr := (h.repr.drop full).closeReceiver i }
    else none

/-- The statuses that an operation sends. -/
def news (full : List SignalStatus → Bool) (h : SignalHistory T) : Op T → List Sent
  | .flush => if h.repr.dirty then h.sending full .changed else []
  | .drop kind => (h.release kind).sending full .destroyed
  | .dropSubscriber _ => h.sending full .destroyed
  | _ => []

/-- The statuses sent to one subscriber, in order. -/
def sentTo (log : List Sent) (i : Nat) : List SignalStatus :=
  (log.filter fun e => e.subscriber = i).map Sent.status

@[simp] theorem sentTo_nil (i : Nat) : sentTo [] i = [] := rfl

@[simp] theorem sentTo_append (log more : List Sent) (i : Nat) :
    sentTo (log ++ more) i = sentTo log i ++ sentTo more i := by
  simp [sentTo]

variable {full : List SignalStatus → Bool} {h h' : SignalHistory T} {op : Op T} {ops : List (Op T)}

/-- What is sent to a subscriber when the list is notified: one status if its channel takes it. -/
theorem sentTo_sending {status : SignalStatus} {i : Nat} (hNodup : h.repr.subscribers.Nodup) :
    sentTo (h.sending full status) i =
      if i ∈ h.repr.accepting full then [status] else [] := by
  have hNodup' : (h.repr.accepting full).Nodup := hNodup.filter _
  unfold sending sentTo
  generalize h.repr.accepting full = ids at hNodup' ⊢
  induction ids with
  | nil => rfl
  | cons j rest ih =>
    rw [List.nodup_cons] at hNodup'
    by_cases hji : j = i
    · subst hji
      have hRest := ih hNodup'.2
      rw [if_neg hNodup'.1] at hRest
      simp [hRest]
    · simp [hji, ih hNodup'.2, Ne.symm hji]

/-- The queue of a live subscriber after the list is notified is its queue with what was sent. -/
theorem queue_sendAll {status : SignalStatus} {i : Nat} (hWell : h.repr.WellFormed)
    (hOpen : (h.repr.channel i).isOpen = true) :
    (sendAll full status h.repr.subscribers h.repr.channel i).queue =
      (h.repr.channel i).queue ++ sentTo (h.sending full status) i := by
  have hMem := hWell.live i hOpen
  rw [sendAll_apply hWell.nodup, if_pos hMem, StatusChannel.trySend_queue,
    sentTo_sending hWell.nodup]
  simp [SignalRepr.accepting, hMem]

theorem sentTo_sending_closed {status : SignalStatus} {i : Nat}
    (hNodup : h.repr.subscribers.Nodup) (hClosed : (h.repr.channel i).isOpen = false) :
    sentTo (h.sending full status) i = [] := by
  rw [sentTo_sending hNodup]
  simp [SignalRepr.accepting, StatusChannel.accepts, hClosed]

/-- What an operation can do, with the conditions it passed. -/
inductive Move (full : List SignalStatus → Bool) (h : SignalHistory T) :
    Op T → SignalHistory T → Prop where
  | clone (kind : HandleKind) : 0 < h.handles kind → Move full h (.clone kind) (h.acquire kind)
  | reader : 0 < h.handles .signal → Move full h .reader (h.acquire .reader)
  | writer : 0 < h.handles .signal → Move full h .writer (h.acquire .writer)
  | toDynFlushSignals : 0 < h.handles .signal →
      Move full h .toDynFlushSignals { h with flushers := h.flushers + 1 }
  | subscribe : 0 < h.handles .signal →
      Move full h .subscribe { h with repr := h.repr.subscribe }
  | write (f : T → T) : 0 < h.handles .writer →
      Move full h (.write f) { h with repr := h.repr.write f }
  | update (f : T → T) : 0 < h.handles .writer →
      Move full h (.update f) { h with repr := h.repr.update f }
  | set (value : T) : 0 < h.handles .writer →
      Move full h (.set value) { h with repr := h.repr.set value }
  | flush : 0 < h.flushers → Move full h .flush { h with
        repr := h.repr.flush full
        sent := h.sent ++ if h.repr.dirty then h.sending full .changed else [] }
  | recv (i : Nat) (status : SignalStatus) (rest : List SignalStatus) :
      (h.repr.channel i).isOpen = true → (h.repr.channel i).queue = status :: rest →
      Move full h (.recv i) { h with
        repr := { h.repr with
          channel := Function.update h.repr.channel i { h.repr.channel i with queue := rest } }
        received := Function.update h.received i (h.received i ++ [status]) }
  | drop (kind : HandleKind) : 0 < h.handles kind →
      Move full h (.drop kind) ((h.release kind).dropSignal full)
  | dropFlusher : 0 < h.flushers → Move full h .dropFlusher { h with flushers := h.flushers - 1 }
  | dropSubscriber (i : Nat) : (h.repr.channel i).isOpen = true →
      Move full h (.dropSubscriber i)
        { h.dropSignal full with repr := (h.repr.drop full).closeReceiver i }

theorem step_move (hStep : step full h op = some h') : Move full h op h' := by
  cases op with
  | recv i =>
    simp only [step, Option.ite_none_right_eq_some] at hStep
    obtain ⟨hOpen, hRecv⟩ := hStep
    obtain ⟨⟨status, r⟩, hr, rfl⟩ := Option.map_eq_some_iff.mp hRecv
    obtain ⟨rest, hQueue, rfl⟩ := SignalRepr.recv_cases hr
    exact .recv i status rest hOpen hQueue
  | _ =>
    simp only [step, Option.ite_none_right_eq_some, Option.some.injEq] at hStep
    obtain ⟨hAlive, rfl⟩ := hStep
    constructor
    exact hAlive

/-- An operation adds what it sends to the record. -/
theorem step_sent (hStep : step full h op = some h') : h'.sent = h.sent ++ news full h op := by
  cases step_move hStep <;> simp [news, acquire, dropSignal, release]

/-- The record is faithful: what was sent to a live subscriber is what it received followed by
what its channel holds, and a channel still to be made has been sent nothing. -/
structure Consistent (h : SignalHistory T) : Prop where
  well : h.repr.WellFormed
  ledger : ∀ i, (h.repr.channel i).isOpen = true →
    sentTo h.sent i = h.received i ++ (h.repr.channel i).queue
  fresh : ∀ i, h.repr.channels ≤ i →
    sentTo h.sent i = [] ∧ h.received i = [] ∧ (h.repr.channel i).isOpen = false

namespace Consistent

theorem new (value : T) : Consistent (new value) :=
  ⟨.new value, by simp [SignalHistory.new, SignalRepr.new],
    by simp [SignalHistory.new, SignalRepr.new]⟩

/-- Steps that send and receive nothing, and keep every channel. -/
theorem of_same (hc : h.Consistent) (hWell : h'.repr.WellFormed) (hSent : h'.sent = h.sent)
    (hReceived : h'.received = h.received) (hChannel : h'.repr.channel = h.repr.channel)
    (hChannels : h'.repr.channels = h.repr.channels) : Consistent h' :=
  ⟨hWell, by rw [hSent, hReceived, hChannel]; exact hc.ledger,
    by rw [hSent, hReceived, hChannel, hChannels]; exact hc.fresh⟩

theorem notify (hc : h.Consistent) (status : SignalStatus) (hWell : h'.repr.WellFormed)
    (hSent : h'.sent = h.sent ++ h.sending full status) (hReceived : h'.received = h.received)
    (hChannel : h'.repr.channel = sendAll full status h.repr.subscribers h.repr.channel)
    (hChannels : h'.repr.channels = h.repr.channels) : Consistent h' where
  well := hWell
  ledger i hi := by
    have hOpen : (h.repr.channel i).isOpen = true := by simpa [hChannel] using hi
    rw [hSent, sentTo_append, hc.ledger i hOpen, hReceived, hChannel, queue_sendAll hc.well hOpen,
      List.append_assoc]
  fresh i hi := by
    obtain ⟨hs, hr, hClosed⟩ := hc.fresh i (hChannels ▸ hi)
    refine ⟨?_, by rw [hReceived, hr], by simp [hChannel, hClosed]⟩
    rw [hSent, sentTo_append, hs, sentTo_sending_closed hc.well.nodup hClosed, List.append_nil]

theorem release (hc : h.Consistent) (kind : HandleKind) : Consistent (h.release kind) :=
  hc.of_same hc.well rfl rfl rfl rfl

theorem dropSignal (hc : h.Consistent) : Consistent (h.dropSignal full) :=
  hc.notify .destroyed hc.well.drop rfl rfl rfl rfl

theorem flush (hc : h.Consistent) : Consistent { h with
    repr := h.repr.flush full
    sent := h.sent ++ if h.repr.dirty then h.sending full .changed else [] } := by
  by_cases hd : h.repr.dirty = true
  · have hSent : (h.sent ++ if h.repr.dirty then h.sending full .changed else []) =
        h.sent ++ h.sending full .changed := by rw [if_pos hd]
    exact hc.notify .changed hc.well.flush hSent rfl
      (by rw [SignalRepr.flush_channel, if_pos hd]) (SignalRepr.flush_channels full h.repr)
  · have hClean : h.repr.flush full = h.repr := SignalRepr.flush_of_clean (by simpa using hd)
    exact hc.of_same hc.well.flush (by simp [hd]) rfl (by rw [hClean]) (by rw [hClean])

theorem subscribe (hc : h.Consistent) : Consistent { h with repr := h.repr.subscribe } where
  well := hc.well.subscribe
  ledger i hi := by
    by_cases hn : i = h.repr.channels
    · subst hn
      obtain ⟨hs, hr, -⟩ := hc.fresh h.repr.channels (Nat.le_refl _)
      simp [SignalRepr.subscribe, hs, hr]
    · simp only [SignalRepr.subscribe, Function.update_of_ne hn] at hi ⊢
      exact hc.ledger i hi
  fresh i hi := by
    simp only [SignalRepr.subscribe] at hi ⊢
    rw [Function.update_of_ne (by omega)]
    exact hc.fresh i (by omega)

theorem closeReceiver (hc : h.Consistent) (i : Nat) :
    Consistent { h with repr := h.repr.closeReceiver i } where
  well := hc.well.closeReceiver i
  ledger j hj := by
    by_cases hji : j = i
    · subst hji; simp [SignalRepr.closeReceiver] at hj
    · simp only [SignalRepr.closeReceiver, Function.update_of_ne hji] at hj ⊢
      exact hc.ledger j hj
  fresh j hj := by
    obtain ⟨hs, hr, hClosed⟩ := hc.fresh j hj
    refine ⟨hs, hr, ?_⟩
    by_cases hji : j = i
    · subst hji; simp [SignalRepr.closeReceiver]
    · simpa [SignalRepr.closeReceiver, Function.update_of_ne hji] using hClosed

theorem recv (hc : h.Consistent) {i : Nat} {status : SignalStatus} {rest : List SignalStatus}
    (hOpen : (h.repr.channel i).isOpen = true)
    (hQueue : (h.repr.channel i).queue = status :: rest) :
    Consistent { h with
      repr := { h.repr with
        channel := Function.update h.repr.channel i { h.repr.channel i with queue := rest } }
      received := Function.update h.received i (h.received i ++ [status]) } where
  well := hc.well.recv i rest
  ledger j hj := by
    by_cases hji : j = i
    · subst hji
      simpa [hQueue] using hc.ledger j hOpen
    · simp only [Function.update_of_ne hji] at hj ⊢
      exact hc.ledger j hj
  fresh j hj := by
    have hji : j ≠ i := by
      rintro rfl
      simp [(hc.fresh j hj).2.2] at hOpen
    simp only [Function.update_of_ne hji]
    exact hc.fresh j hj

theorem step (hc : h.Consistent) (hStep : step full h op = some h') : Consistent h' := by
  cases step_move hStep with
  | subscribe => exact hc.subscribe
  | write f => exact hc.of_same (hc.well.write f) rfl rfl rfl rfl
  | update f => exact hc.of_same (hc.well.update f) rfl rfl rfl rfl
  | set value => exact hc.of_same (hc.well.update fun _ => value) rfl rfl rfl rfl
  | flush => exact hc.flush
  | recv i status rest hOpen hQueue => exact hc.recv hOpen hQueue
  | drop kind => exact (hc.release kind).dropSignal
  | dropSubscriber i => exact hc.dropSignal.closeReceiver i
  | _ => exact hc.of_same hc.well rfl rfl rfl rfl

theorem of_run {value : T}
    (hRun : run (SignalHistory.step full) (SignalHistory.new value) ops = some h) :
    Consistent h :=
  run_invariant (fun _ _ _ hc hStep => hc.step hStep) (.new value) hRun

end Consistent

end SignalHistory

end Emyu
