import Emyu.Lib.Run
import Emyu.Signal

/-! The operations on a signal, each made at once on the part it is on, and what a loop over the
subscribers does to channels that it has not come to yet. -/

namespace Emyu

open Runs

/-- The operations on one part of a signal each. `update` is a `write` and a `mark`, and a
subscriber's drop is a `drop` and a `close`. -/
inductive Whole (T : Type) where
  | write (f : T → T)
  | mark
  | flush
  | drop
  | subscribe
  | recv (i : Nat) (status : SignalStatus)
  | close (i : Nat)

inductive Part where
  | value
  | list
  | receiver (i : Nat)
  deriving DecidableEq

namespace SignalRepr

variable {T : Type} {full : List SignalStatus → Bool} {r r' : SignalRepr T}

/-- The list is in the order of subscription. -/
structure Ordered (r : SignalRepr T) : Prop extends r.WellFormed where
  sorted : r.subscribers.Pairwise (· < ·)

namespace Ordered

theorem new (value : T) : Ordered (new value) := ⟨.new value, List.Pairwise.nil⟩

theorem same (h : r.Ordered) (hWell : r'.WellFormed) (hList : r'.subscribers = r.subscribers) :
    r'.Ordered := ⟨hWell, hList ▸ h.sorted⟩

theorem retainOpen (h : r.Ordered) : r.retainOpen.Ordered :=
  ⟨h.toWellFormed.retainOpen, h.sorted.filter _⟩

theorem flush (h : r.Ordered) : (r.flush full).Ordered := by
  refine ⟨h.toWellFormed.flush, ?_⟩
  rw [flush_subscribers]
  split
  · exact h.sorted.filter _
  · exact h.sorted

theorem subscribe (h : r.Ordered) : r.subscribe.Ordered := by
  refine ⟨h.toWellFormed.subscribe,
    List.pairwise_append.mpr ⟨h.sorted, List.pairwise_singleton _ _, ?_⟩⟩
  intro i hi j hj
  rw [List.mem_singleton.mp hj]
  exact h.bound i hi

end Ordered

end SignalRepr

namespace Whole

variable {T : Type} {full : List SignalStatus → Bool} {o : Whole T} {r r' u : SignalRepr T}

def step (full : List SignalStatus → Bool) (r : SignalRepr T) : Whole T → Option (SignalRepr T)
  | .write f => some (r.write f)
  | .mark => some { r with dirty := true }
  | .flush => some (r.flush full)
  | .drop => some (r.drop full)
  | .subscribe => some r.subscribe
  | .recv i status => (r.recv i).bind fun p => if p.1 = status then some p.2 else none
  | .close i => some (r.closeReceiver i)

def part? : Whole T → Option Part
  | .write _ => some .value
  | .mark => none
  | .flush | .drop | .subscribe => some .list
  | .recv i _ | .close i => some (.receiver i)

def on (p : Part) (o : Whole T) : Bool := o.part? == some p

/-- The operation is no loop over the list, and not on the receiver of one of these. -/
def Apart (ids : List Nat) : Whole T → Prop
  | .write _ | .mark => True
  | .recv i _ | .close i => i ∉ ids
  | .flush | .drop | .subscribe => False

theorem step_recv {i : Nat} {status : SignalStatus} {rest : List SignalStatus}
    (hQueue : (r.channel i).queue = status :: rest) : step full r (.recv i status) = some { r with
      channel := Function.update r.channel i { r.channel i with queue := rest } } := by
  simp [step, SignalRepr.recv, hQueue]

theorem step_ordered (h : r.Ordered) (hStep : step full r o = some u) : u.Ordered := by
  have hWell := h.toWellFormed
  cases o with
  | recv i status =>
    obtain ⟨⟨head, v⟩, hRecv, hSome⟩ := Option.bind_eq_some_iff.mp hStep
    obtain ⟨rest, -, rfl⟩ := SignalRepr.recv_cases hRecv
    obtain ⟨-, rfl⟩ := by simpa using hSome
    exact h.same (hWell.recv i rest) rfl
  | write f => cases hStep; exact h.same (hWell.write f) rfl
  | mark => cases hStep; exact h.same (hWell.of_channel rfl rfl fun _ hi => hi) rfl
  | flush => cases hStep; exact h.flush
  | drop => cases hStep; exact h.same hWell.drop rfl
  | subscribe => cases hStep; exact h.subscribe
  | close i => cases hStep; exact h.same (hWell.closeReceiver i) rfl

end Whole

namespace SignalRepr

variable {T : Type} {full : List SignalStatus → Bool} {r r' u : SignalRepr T} {ids : List Nat}

/-- The two cells differ in these channels alone, and in the list. -/
structure Off (ids : List Nat) (r r' : SignalRepr T) : Prop where
  data : r'.data = r.data
  dirty : r'.dirty = r.dirty
  channels : r'.channels = r.channels
  channel : ∀ i, i ∉ ids → r'.channel i = r.channel i

theorem Off.refl (ids : List Nat) (r : SignalRepr T) : Off ids r r :=
  ⟨rfl, rfl, rfl, fun _ _ => rfl⟩

theorem Off.symm (h : Off ids r r') : Off ids r' r :=
  ⟨h.data.symm, h.dirty.symm, h.channels.symm, fun i hi => (h.channel i hi).symm⟩

theorem Off.trans (h : Off ids r r') (h' : Off ids r' u) : Off ids r u :=
  ⟨h'.data.trans h.data, h'.dirty.trans h.dirty, h'.channels.trans h.channels,
    fun i hi => (h'.channel i hi).trans (h.channel i hi)⟩

theorem Off.mono {more : List Nat} (h : Off ids r r') (hSub : ids ⊆ more) : Off more r r' :=
  ⟨h.data, h.dirty, h.channels, fun i hi => h.channel i fun hMem => hi (hSub hMem)⟩

/-- An operation apart from these channels does the same in both cells. -/
theorem Off.step {o : Whole T} (h : Off ids r r') (hApart : o.Apart ids)
    (hStep : Whole.step full r o = some u) : ∃ u', Whole.step full r' o = some u' ∧ Off ids u u' ∧
      ∀ i ∈ ids, u'.channel i = r'.channel i := by
  cases o with
  | write f =>
    cases hStep
    exact ⟨_, rfl, ⟨congrArg f h.data, h.dirty, h.channels, h.channel⟩, fun _ _ => rfl⟩
  | mark =>
    cases hStep
    exact ⟨_, rfl, ⟨h.data, rfl, h.channels, h.channel⟩, fun _ _ => rfl⟩
  | recv j status =>
    obtain ⟨⟨head, v⟩, hRecv, hSome⟩ := Option.bind_eq_some_iff.mp hStep
    obtain ⟨rest, hQueue, rfl⟩ := recv_cases hRecv
    obtain ⟨rfl, rfl⟩ := by simpa using hSome
    have hSame : r'.channel j = r.channel j := h.channel j hApart
    refine ⟨_, Whole.step_recv (hSame ▸ hQueue), ⟨h.data, h.dirty, h.channels, fun i hi => ?_⟩,
      fun i hi => ?_⟩
    · by_cases hij : i = j
      · subst hij; simp [hSame]
      · simp only [Function.update_of_ne hij]; exact h.channel i hi
    · have hij : i ≠ j := fun hEq => hApart (hEq ▸ hi)
      simp [Function.update_of_ne hij]
  | close j =>
    cases hStep
    refine ⟨_, rfl, ⟨h.data, h.dirty, h.channels, fun i hi => ?_⟩, fun i hi => ?_⟩
    · by_cases hij : i = j
      · subst hij; simp [closeReceiver]
      · simp only [closeReceiver, Function.update_of_ne hij]; exact h.channel i hi
    · have hij : i ≠ j := fun hEq => hApart (hEq ▸ hi)
      simp [closeReceiver, Function.update_of_ne hij]
  | flush | drop | subscribe => exact hApart.elim

/-- A loop over a list that has every live subscriber once does the same to all channels. -/
theorem WellFormed.sendAll (h : r.WellFormed) (status : SignalStatus) (i : Nat) :
    sendAll full status r.subscribers r.channel i = (r.channel i).trySend full status := by
  rw [sendAll_apply h.nodup]
  split
  · rfl
  next hNot =>
    have hClosed : (r.channel i).isOpen = false :=
      Bool.eq_false_iff.mpr fun hOpen => hNot (h.live i hOpen)
    simp [StatusChannel.trySend, StatusChannel.accepts, hClosed]

/-- Cells that agree on the channels have the same live subscribers, in one order. -/
theorem Ordered.retainOpen_eq (h : r.Ordered) (h' : r'.Ordered) (hSame : Off [] r r') :
    r.retainOpen = r'.retainOpen := by
  have hChannel : r'.channel = r.channel := funext fun i => hSame.channel i List.not_mem_nil
  have hPerm : r.retainOpen.subscribers.Perm r'.retainOpen.subscribers := by
    refine (List.perm_ext_iff_of_nodup h.toWellFormed.retainOpen.nodup
      h'.toWellFormed.retainOpen.nodup).mpr fun i => ?_
    simp only [SignalRepr.retainOpen, List.mem_filter, hChannel]
    refine and_congr_left fun hOpen => iff_of_true (h.live i hOpen) (h'.live i ?_)
    rw [hChannel]
    exact hOpen
  have hEq := hPerm.eq_of_pairwise (fun i j _ _ hij hji => absurd hji (Nat.lt_asymm hij))
    (h.sorted.filter _) (h'.sorted.filter _)
  obtain ⟨data, subscribers, dirty, channel, channels⟩ := r
  obtain ⟨data', subscribers', dirty', channel', channels'⟩ := r'
  obtain ⟨rfl, rfl, rfl, -⟩ := hSame
  obtain rfl := hChannel
  exact congrArg (SignalRepr.mk _ · _ _ _) hEq

end SignalRepr

namespace Whole

variable {T : Type} {full : List SignalStatus → Bool} {status : SignalStatus} {ids : List Nat}
  {r₀ r₀' r u : SignalRepr T} {ops : List (Whole T)} {o : Whole T}

/-- All that the operations do to these channels is one send, whatever the channels hold before. -/
def Passes (full : List SignalStatus → Bool) (status : SignalStatus) (ids : List Nat)
    (r₀ : SignalRepr T) (ops : List (Whole T)) (r : SignalRepr T) : Prop :=
  ∀ r₀' : SignalRepr T, r₀'.WellFormed → r₀'.subscribers = r₀.subscribers → r₀.Off ids r₀' →
    ∃ r', run (step full) r₀' ops = some r' ∧ r.Off ids r' ∧
      ∀ i ∈ ids, r'.channel i = (r₀'.channel i).trySend full status

theorem passes_nil (h : run (step full) r₀ ops = some r) : Passes full status [] r₀ ops r := by
  intro r₀' _ hSubscribers hOff
  have hChannel : r₀'.channel = r₀.channel := funext fun i => hOff.channel i List.not_mem_nil
  have hEq : r₀' = r₀ := by
    obtain ⟨data, subscribers, dirty, channel, channels⟩ := r₀
    obtain ⟨data', subscribers', dirty', channel', channels'⟩ := r₀'
    obtain ⟨rfl, rfl, rfl, -⟩ := hOff
    obtain rfl := hChannel
    obtain rfl := hSubscribers
    rfl
  exact ⟨r, hEq ▸ h, .refl [] r, by simp⟩

theorem flush_trySend (hWell : r.WellFormed) (hDirty : r.dirty = true) (i : Nat) :
    (r.flush full).channel i = (r.channel i).trySend full .changed := by
  rw [SignalRepr.flush_channel, if_pos hDirty, hWell.sendAll]

theorem passes_flush (hWell : r₀.WellFormed) (hDirty : r₀.dirty = true) (ids : List Nat) :
    Passes full .changed ids r₀ [.flush] (r₀.flush full) := by
  intro r₀' hWell' _ hOff
  have hDirty' : r₀'.dirty = true := hOff.dirty.trans hDirty
  refine ⟨r₀'.flush full, rfl, ⟨?_, ?_, by simp [hOff.channels], fun i hi => ?_⟩,
    fun i _ => flush_trySend hWell' hDirty' i⟩
  · simp [SignalRepr.flush, hDirty, hDirty', SignalRepr.retainOpen, hOff.data]
  · rw [SignalRepr.flush_dirty, SignalRepr.flush_dirty]
  · rw [flush_trySend hWell' hDirty', flush_trySend hWell hDirty, hOff.channel i hi]

theorem passes_drop (hWell : r₀.WellFormed) (ids : List Nat) :
    Passes full .destroyed ids r₀ [.drop] (r₀.drop full) := by
  intro r₀' hWell' _ hOff
  refine ⟨r₀'.drop full, rfl, ⟨hOff.data, hOff.dirty, hOff.channels, fun i hi => ?_⟩,
    fun i _ => hWell'.sendAll ..⟩
  simp only [SignalRepr.drop, hWell.sendAll, hWell'.sendAll, hOff.channel i hi]

/-- Operations apart from the channels may follow. -/
theorem Passes.snoc (h : Passes full status ids r₀ ops r) (hApart : o.Apart ids)
    (hStep : step full r o = some u) : Passes full status ids r₀ (ops ++ [o]) u := by
  intro r₀' hWell hSubscribers hOff
  obtain ⟨r', hRun, hOff', hSent⟩ := h r₀' hWell hSubscribers hOff
  obtain ⟨u', hStep', hOff'', hKept⟩ := hOff'.step hApart hStep
  exact ⟨u', run_trans hRun (by simpa using hStep'), hOff'',
    fun i hi => (hKept i hi).trans (hSent i hi)⟩

/-- The channels may hold something else before. -/
theorem Passes.rebase (h : Passes full status ids r₀ ops r) (hWell : r₀'.WellFormed)
    (hSubscribers : r₀'.subscribers = r₀.subscribers) (hOff : r₀.Off ids r₀') :
    ∃ r', run (step full) r₀' ops = some r' ∧ r.Off ids r' ∧
      (∀ i ∈ ids, r'.channel i = (r₀'.channel i).trySend full status) ∧
      Passes full status ids r₀' ops r' := by
  obtain ⟨r', hRun, hOff', hSent⟩ := h r₀' hWell hSubscribers hOff
  refine ⟨r', hRun, hOff', hSent, fun r₁ hWell₁ hSubscribers₁ hOff₁ => ?_⟩
  obtain ⟨u, hRun₁, hOffU, hSent₁⟩ :=
    h r₁ hWell₁ (hSubscribers₁.trans hSubscribers) (hOff.trans hOff₁)
  exact ⟨u, hRun₁, hOff'.symm.trans hOffU, hSent₁⟩

/-- The channel that is next. -/
theorem Passes.tail {i : Nat} (h : Passes full status (i :: ids) r₀ ops r) (hWell : r₀.WellFormed)
    (hRun : run (step full) r₀ ops = some r) : Passes full status ids r₀ ops r := by
  obtain ⟨r', hRun', -, hSent⟩ := h r₀ hWell rfl (.refl _ _)
  obtain rfl : r' = r := Option.some.inj (hRun'.symm.trans hRun)
  intro r₀' hWell' hSubscribers hOff
  obtain ⟨u, hRunU, hOffU, hSentU⟩ :=
    h r₀' hWell' hSubscribers (hOff.mono (List.subset_cons_self i ids))
  refine ⟨u, hRunU, ⟨hOffU.data, hOffU.dirty, hOffU.channels, fun j hj => ?_⟩,
    fun j hj => hSentU j (List.mem_cons_of_mem i hj)⟩
  by_cases hji : j = i
  · rw [hji] at hj ⊢
    rw [hSentU i List.mem_cons_self, hSent i List.mem_cons_self, hOff.channel i hj]
  · exact hOffU.channel j (by simp [hji, hj])

end Whole

end Emyu
