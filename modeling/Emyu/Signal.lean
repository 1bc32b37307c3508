import Mathlib.Data.List.Nodup
import Mathlib.Logic.Function.Basic

/-! The shared cell of a signal: its value, its dirty flag, the status channels of its subscribers,
and what each operation of `Signal`, `SignalWriter` and `SignalSubscriber` does to them. -/

namespace Emyu

inductive SignalStatus where
  | changed
  | destroyed
  deriving DecidableEq, Repr

/-- A subscriber's `mpsc::channel(1)`: the statuses queued and whether its receiver is alive. -/
structure StatusChannel where
  queue : List SignalStatus
  isOpen : Bool
  deriving DecidableEq, Repr

namespace StatusChannel

/-- `try_send` goes through: the receiver is alive and the channel, which the futures crate
regards as full by `full`, is not. -/
def accepts (full : List SignalStatus → Bool) (c : StatusChannel) : Bool :=
  c.isOpen && !full c.queue

/-- `try_send(status).ok()`. -/
def trySend (full : List SignalStatus → Bool) (status : SignalStatus) (c : StatusChannel) :
    StatusChannel :=
  if c.accepts full then { c with queue := c.queue ++ [status] } else c

variable {full : List SignalStatus → Bool} {status : SignalStatus} {c : StatusChannel}

@[simp] theorem trySend_isOpen : (c.trySend full status).isOpen = c.isOpen := by
  unfold trySend; split <;> rfl

theorem trySend_queue : (c.trySend full status).queue =
    c.queue ++ if c.accepts full then [status] else [] := by
  unfold trySend; split <;> simp_all

/-- A live channel holds something after `try_send` when only a nonempty queue is refused. -/
theorem trySend_nonempty (hFull : ∀ q, full q = true → q ≠ []) (hOpen : c.isOpen = true) :
    (c.trySend full status).queue ≠ [] := by
  by_cases h : full c.queue = true
  · have := hFull _ h
    simp [trySend_queue, this]
  · simp [trySend_queue, accepts, hOpen, h]

end StatusChannel

/-- `SignalRepr`, with the senders of `subscribers` given by the numbers of their channels and
the state of each channel beside them. `channels` is how many channels there are. -/
structure SignalRepr (T : Type) where
  data : T
  subscribers : List Nat
  dirty : Bool
  channel : Nat → StatusChannel
  channels : Nat

/-- The loop of `Drop` and `__flush`: `try_send` to each subscriber in turn. -/
def sendAll (full : List SignalStatus → Bool) (status : SignalStatus) :
    List Nat → (Nat → StatusChannel) → Nat → StatusChannel
  | [], channel => channel
  | i :: rest, channel =>
    sendAll full status rest (Function.update channel i ((channel i).trySend full status))

theorem sendAll_of_notMem {full : List SignalStatus → Bool} {status : SignalStatus}
    {ids : List Nat} {channel : Nat → StatusChannel} {i : Nat} (h : i ∉ ids) :
    sendAll full status ids channel i = channel i := by
  induction ids generalizing channel with
  | nil => rfl
  | cons j rest ih =>
    simp only [List.mem_cons, not_or] at h
    rw [sendAll, ih h.2, Function.update_of_ne h.1]

/-- The loop tries each subscriber exactly once. -/
theorem sendAll_apply {full : List SignalStatus → Bool} {status : SignalStatus}
    {ids : List Nat} {channel : Nat → StatusChannel} {i : Nat} (hIds : ids.Nodup) :
    sendAll full status ids channel i =
      if i ∈ ids then (channel i).trySend full status else channel i := by
  induction ids generalizing channel with
  | nil => rfl
  | cons j rest ih =>
    rw [List.nodup_cons] at hIds
    by_cases hij : i = j
    · subst hij
      rw [sendAll, sendAll_of_notMem hIds.1]
      simp
    · rw [sendAll, ih hIds.2, Function.update_of_ne hij]
      simp [hij]

@[simp] theorem sendAll_isOpen {full : List SignalStatus → Bool} {status : SignalStatus}
    {ids : List Nat} {channel : Nat → StatusChannel} {i : Nat} :
    (sendAll full status ids channel i).isOpen = (channel i).isOpen := by
  induction ids generalizing channel with
  | nil => rfl
  | cons j rest ih =>
    rw [sendAll, ih]
    by_cases hij : i = j
    · subst hij; simp
    · rw [Function.update_of_ne hij]

/-- The loop takes nothing out of a channel. -/
theorem prefix_sendAll (full : List SignalStatus → Bool) (status : SignalStatus) (ids : List Nat)
    (channel : Nat → StatusChannel) (i : Nat) :
    (channel i).queue <+: (sendAll full status ids channel i).queue := by
  induction ids generalizing channel with
  | nil => exact List.prefix_refl _
  | cons j rest ih =>
    refine List.IsPrefix.trans ?_ (ih _)
    by_cases hij : i = j
    · subst hij
      rw [Function.update_self, StatusChannel.trySend_queue]
      exact List.prefix_append _ _
    · simp only [Function.update_of_ne hij, List.prefix_refl]

/-- A subscriber in the list whose channel takes a status is sent one. -/
theorem sendAll_grows {full : List SignalStatus → Bool} {status : SignalStatus} {ids : List Nat}
    {channel : Nat → StatusChannel} {i : Nat} (hMem : i ∈ ids)
    (hAccepts : (channel i).accepts full = true) :
    (channel i).queue.length < (sendAll full status ids channel i).queue.length := by
  induction ids generalizing channel with
  | nil => cases hMem
  | cons j rest ih =>
    rw [sendAll]
    by_cases hij : i = j
    · subst hij
      have hPrefix := (prefix_sendAll full status rest
        (Function.update channel i ((channel i).trySend full status)) i).length_le
      rw [Function.update_self, StatusChannel.trySend_queue, if_pos hAccepts,
        List.length_append, List.length_singleton] at hPrefix
      omega
    · have hKept : Function.update channel j ((channel j).trySend full status) i = channel i :=
        Function.update_of_ne hij _ _
      rw [← hKept] at hAccepts ⊢
      exact ih ((List.mem_cons.mp hMem).resolve_left hij) hAccepts

theorem sendAll_of_none {full : List SignalStatus → Bool} {status : SignalStatus} {ids : List Nat}
    {channel : Nat → StatusChannel} (hNone : ∀ i ∈ ids, (channel i).accepts full = false) :
    sendAll full status ids channel = channel := by
  induction ids with
  | nil => rfl
  | cons j rest ih =>
    have hSame : (channel j).trySend full status = channel j := by
      simp [StatusChannel.trySend, hNone j (List.mem_cons_self ..)]
    rw [sendAll, hSame, Function.update_eq_self]
    exact ih fun i hi => hNone i (List.mem_cons_of_mem _ hi)

namespace SignalRepr

variable {T : Type}

/-- `Signal::new`. -/
def new (value : T) : SignalRepr T where
  data := value
  subscribers := []
  dirty := false
  channel := fun _ => ⟨[], false⟩
  channels := 0

/-- `Signal::subscribe`: the new channel's sender goes to the end of `subscribers`. -/
def subscribe (r : SignalRepr T) : SignalRepr T :=
  { r with
    subscribers := r.subscribers ++ [r.channels]
    channel := Function.update r.channel r.channels ⟨[], true⟩
    channels := r.channels + 1 }

/-- `Drop for Signal`, which runs for every handle. -/
def drop (full : List SignalStatus → Bool) (r : SignalRepr T) : SignalRepr T :=
  { r with channel := sendAll full .destroyed r.subscribers r.channel }

/-- `subscribers.retain(|s| !s.is_closed())`. -/
def retainOpen (r : SignalRepr T) : SignalRepr T :=
  { r with subscribers := r.subscribers.filter fun i => (r.channel i).isOpen }

/-- `__flush`. -/
def flush (full : List SignalStatus → Bool) (r : SignalRepr T) : SignalRepr T :=
  if r.dirty then
    retainOpen { r with
      dirty := false
      channel := sendAll full .changed r.subscribers r.channel }
  else r

theorem flush_dirty (full : List SignalStatus → Bool) (r : SignalRepr T) :
    (r.flush full).dirty = false := by
  unfold flush
  split
  · rfl
  next hr => simpa using hr

@[simp] theorem flush_data (full : List SignalStatus → Bool) (r : SignalRepr T) :
    (r.flush full).data = r.data := by
  unfold flush
  split <;> rfl

theorem flush_of_clean {full : List SignalStatus → Bool} {r : SignalRepr T}
    (hr : r.dirty = false) : r.flush full = r := by
  simp [flush, hr]

@[simp] theorem flush_channels (full : List SignalStatus → Bool) (r : SignalRepr T) :
    (r.flush full).channels = r.channels := by
  unfold flush; split <;> rfl

theorem flush_channel (full : List SignalStatus → Bool) (r : SignalRepr T) :
    (r.flush full).channel =
      if r.dirty then sendAll full .changed r.subscribers r.channel else r.channel := by
  unfold flush; split <;> rfl

@[simp] theorem flush_isOpen (full : List SignalStatus → Bool) (r : SignalRepr T) (i : Nat) :
    ((r.flush full).channel i).isOpen = (r.channel i).isOpen := by
  rw [flush_channel]
  split
  · exact sendAll_isOpen
  · rfl

/-- A flush prunes the list exactly when it finds the flag set. -/
theorem flush_subscribers (full : List SignalStatus → Bool) (r : SignalRepr T) :
    (r.flush full).subscribers =
      if r.dirty then r.subscribers.filter fun i => (r.channel i).isOpen else r.subscribers := by
  by_cases hDirty : r.dirty = true <;> simp [flush, retainOpen, hDirty]

/-- A use of the guard of `SignalWriter::write`. -/
def write (f : T → T) (r : SignalRepr T) : SignalRepr T :=
  { r with data := f r.data }

/-- `SignalWriter::update`. -/
def update (f : T → T) (r : SignalRepr T) : SignalRepr T :=
  { r.write f with dirty := true }

/-- `SignalWriter::set`. -/
def set (value : T) (r : SignalRepr T) : SignalRepr T :=
  r.update fun _ => value

/-- The receiver of channel `i` takes the status at the head of its queue. -/
def recv (i : Nat) (r : SignalRepr T) : Option (SignalStatus × SignalRepr T) :=
  match (r.channel i).queue with
  | [] => none
  | status :: rest =>
    some (status, { r with
      channel := Function.update r.channel i { r.channel i with queue := rest } })

/-- The receiver of channel `i` is dropped, with what is queued. -/
def closeReceiver (i : Nat) (r : SignalRepr T) : SignalRepr T :=
  { r with channel := Function.update r.channel i ⟨[], false⟩ }

/-- The subscribers whose channel takes a status, in order. -/
def accepting (full : List SignalStatus → Bool) (r : SignalRepr T) : List Nat :=
  r.subscribers.filter fun i => (r.channel i).accepts full

theorem drop_of_accepting_nil {full : List SignalStatus → Bool} {r : SignalRepr T}
    (hNone : r.accepting full = []) : r.drop full = r := by
  have hAll : ∀ i ∈ r.subscribers, (r.channel i).accepts full = false := by
    simpa [accepting] using hNone
  rw [drop, sendAll_of_none hAll]

/-- What a receive takes and what it leaves. -/
theorem recv_cases {r r' : SignalRepr T} {i : Nat} {status : SignalStatus}
    (hr : r.recv i = some (status, r')) : ∃ rest, (r.channel i).queue = status :: rest ∧
      r' = { r with
        channel := Function.update r.channel i { r.channel i with queue := rest } } := by
  unfold recv at hr
  split at hr
  next => cases hr
  next head rest hQueue =>
    cases hr
    exact ⟨rest, hQueue, rfl⟩

/-- A receive ends no receiver. -/
@[simp] theorem taken_isOpen (channel : Nat → StatusChannel) (i : Nat) (rest : List SignalStatus)
    (j : Nat) : (Function.update channel i { channel i with queue := rest } j).isOpen =
      (channel j).isOpen := by
  by_cases hji : j = i
  · subst hji; simp
  · rw [Function.update_of_ne hji]

/-- Each channel has at most one sender in the list, and a live receiver's sender is there. -/
structure WellFormed (r : SignalRepr T) : Prop where
  nodup : r.subscribers.Nodup
  bound : ∀ i ∈ r.subscribers, i < r.channels
  live : ∀ i, (r.channel i).isOpen = true → i ∈ r.subscribers

namespace WellFormed

variable {full : List SignalStatus → Bool} {r : SignalRepr T}

theorem new (value : T) : WellFormed (new value) :=
  ⟨List.nodup_nil, by simp [SignalRepr.new], by simp [SignalRepr.new]⟩

theorem subscribe (h : WellFormed r) : WellFormed r.subscribe where
  nodup := by
    refine List.nodup_append.mpr ⟨h.nodup, List.nodup_singleton _, ?_⟩
    rintro i hi j hj rfl
    rw [List.mem_singleton] at hj
    exact absurd (h.bound i hi) (by omega)
  bound := by
    intro i hi
    rcases List.mem_append.mp hi with hi | hi
    · exact Nat.lt_succ_of_lt (h.bound i hi)
    · rw [List.mem_singleton.mp hi]; exact Nat.lt_succ_self _
  live := by
    intro i hi
    by_cases hn : i = r.channels
    · simp [SignalRepr.subscribe, hn]
    · simp only [SignalRepr.subscribe, Function.update_of_ne hn] at hi ⊢
      exact List.mem_append_left _ (h.live i hi)

/-- Changing channels without opening any keeps the list well formed. -/
theorem of_channel (h : WellFormed r) {r' : SignalRepr T} (hs : r'.subscribers = r.subscribers)
    (hn : r'.channels = r.channels)
    (hOpen : ∀ i, (r'.channel i).isOpen = true → (r.channel i).isOpen = true) :
    WellFormed r' :=
  ⟨hs ▸ h.nodup, by rw [hs, hn]; exact h.bound, fun i hi => hs ▸ h.live i (hOpen i hi)⟩

theorem drop (h : WellFormed r) : WellFormed (r.drop full) :=
  h.of_channel rfl rfl fun i hi => by simpa [SignalRepr.drop] using hi

theorem retainOpen (h : WellFormed r) : WellFormed r.retainOpen where
  nodup := h.nodup.filter _
  bound := fun i hi => h.bound i (List.mem_of_mem_filter hi)
  live := fun i hi => List.mem_filter.mpr ⟨h.live i hi, hi⟩

theorem flush (h : WellFormed r) : WellFormed (r.flush full) := by
  unfold SignalRepr.flush
  split
  · refine WellFormed.retainOpen (h.of_channel rfl rfl fun i hi => ?_)
    simpa using hi
  · exact h

theorem write (h : WellFormed r) (f : T → T) : WellFormed (r.write f) :=
  h.of_channel rfl rfl fun _ hi => hi

theorem update (h : WellFormed r) (f : T → T) : WellFormed (r.update f) :=
  h.of_channel rfl rfl fun _ hi => hi

/-- A receive leaves other statuses in the channel. -/
theorem recv (h : WellFormed r) (i : Nat) (rest : List SignalStatus) : WellFormed { r with
    channel := Function.update r.channel i { r.channel i with queue := rest } } :=
  h.of_channel rfl rfl fun j hj => by simpa using hj

theorem closeReceiver (h : WellFormed r) (i : Nat) : WellFormed (r.closeReceiver i) := by
  refine h.of_channel rfl rfl fun j hj => ?_
  by_cases hji : j = i
  · subst hji; simp [SignalRepr.closeReceiver] at hj
  · simpa [SignalRepr.closeReceiver, Function.update_of_ne hji] using hj

end WellFormed

end SignalRepr

end Emyu
