import Emyu.Lib.Run
import Emyu.Signal

/-! The atomic steps of the operations on one signal, taken by any number of threads in any order,
and why a change is never lost between the value, the dirty flag, a flush and the channels. -/

namespace Emyu

open Runs

/-- Where a thread is in its operation. -/
inductive Pc where
  | idle
  /-- `update`: the value is written and `dirty` is not stored. -/
  | storing
  /-- `__flush`: `dirty` was swapped to `false` and the list is not locked. -/
  | swapped
  /-- `__flush` holds the lock, with these subscribers left to send to. -/
  | flushing (rest : List Nat)
  /-- `Drop` holds the lock; the handle is the reader of a subscriber, or none. -/
  | dropping (rest : List Nat) (subscriber : Option Nat)
  /-- A subscriber's reader is dropped and its receiver is not. -/
  | closing (i : Nat)
  deriving DecidableEq, Repr

inductive Atomic (T : Type) where
  | write (t : Nat) (f : T → T)
  | storeDirty (t : Nat)
  | swapDirty (t : Nat)
  | lockFlush (t : Nat)
  | sendChanged (t : Nat)
  | prune (t : Nat)
  | lockDrop (t : Nat) (subscriber : Option Nat)
  | sendDestroyed (t : Nat)
  | unlockDrop (t : Nat)
  | closeReceiver (t : Nat)
  | subscribe
  | recv (i : Nat)
  | read (i : Nat)

/-- The cell with the holder of the list's lock, every thread's place, and for each subscriber
whether it is about to read and what it read last. -/
structure Threads (T : Type) where
  repr : SignalRepr T
  lock : Option Nat
  pc : Nat → Pc
  toRead : Nat → Bool
  lastRead : Nat → Option T

namespace Threads

variable {T : Type}

def new (value : T) : Threads T where
  repr := .new value
  lock := none
  pc := fun _ => .idle
  toRead := fun _ => false
  lastRead := fun _ => none

def goto (s : Threads T) (t : Nat) (p : Pc) : Threads T :=
  { s with pc := Function.update s.pc t p }

def send (full : List SignalStatus → Bool) (status : SignalStatus) (i : Nat) (r : SignalRepr T) :
    SignalRepr T :=
  { r with channel := Function.update r.channel i ((r.channel i).trySend full status) }

def step (full : List SignalStatus → Bool) (s : Threads T) : Atomic T → Option (Threads T)
  | .write t f =>
    if s.pc t = .idle then some { s.goto t .storing with repr := s.repr.write f } else none
  | .storeDirty t =>
    if s.pc t = .storing then
      some { s.goto t .idle with repr := { s.repr with dirty := true } }
    else none
  | .swapDirty t =>
    if s.pc t = .idle then
      some (if s.repr.dirty then
        { s.goto t .swapped with repr := { s.repr with dirty := false } }
      else s)
    else none
  | .lockFlush t =>
    if s.pc t = .swapped ∧ s.lock = none then
      some { s.goto t (.flushing s.repr.subscribers) with lock := some t }
    else none
  | .sendChanged t =>
    match s.pc t with
    | .flushing (i :: rest) =>
      some { s.goto t (.flushing rest) with repr := send full .changed i s.repr }
    | _ => none
  | .prune t =>
    match s.pc t with
    | .flushing [] => some { s.goto t .idle with repr := s.repr.retainOpen, lock := none }
    | _ => none
  | .lockDrop t subscriber =>
    if s.pc t = .idle ∧ s.lock = none then
      some { s.goto t (.dropping s.repr.subscribers subscriber) with lock := some t }
    else none
  | .sendDestroyed t =>
    match s.pc t with
    | .dropping (i :: rest) subscriber =>
      some { s.goto t (.dropping rest subscriber) with repr := send full .destroyed i s.repr }
    | _ => none
  | .unlockDrop t =>
    match s.pc t with
    | .dropping [] none => some { s.goto t .idle with lock := none }
    | .dropping [] (some i) => some { s.goto t (.closing i) with lock := none }
    | _ => none
  | .closeReceiver t =>
    match s.pc t with
    | .closing i => some { s.goto t .idle with repr := s.repr.closeReceiver i }
    | _ => none
  | .subscribe =>
    if s.lock = none then
      some { s with
        repr := s.repr.subscribe
        toRead := Function.update s.toRead s.repr.channels true }
    else none
  | .recv i =>
    if (s.repr.channel i).isOpen ∧ s.toRead i = false then
      (s.repr.recv i).map fun p =>
        { s with repr := p.2, toRead := Function.update s.toRead i true }
    else none
  | .read i =>
    if (s.repr.channel i).isOpen ∧ s.toRead i = true then
      some { s with
        toRead := Function.update s.toRead i false
        lastRead := Function.update s.lastRead i (some s.repr.data) }
    else none

section Move

variable {full : List SignalStatus → Bool} {s s' : Threads T} {i t : Nat}

/-- What a step can do, with the guards it passed. -/
inductive Move (full : List SignalStatus → Bool) (s : Threads T) : Atomic T → Threads T → Prop where
  | write (t : Nat) (f : T → T) : s.pc t = .idle →
      Move full s (.write t f) { s.goto t .storing with repr := s.repr.write f }
  | storeDirty (t : Nat) : s.pc t = .storing →
      Move full s (.storeDirty t) { s.goto t .idle with repr := { s.repr with dirty := true } }
  | swapDirty (t : Nat) : s.pc t = .idle → s.repr.dirty = true →
      Move full s (.swapDirty t) { s.goto t .swapped with repr := { s.repr with dirty := false } }
  | swapClean (t : Nat) : Move full s (.swapDirty t) s
  | lockFlush (t : Nat) : s.pc t = .swapped → s.lock = none →
      Move full s (.lockFlush t) { s.goto t (.flushing s.repr.subscribers) with lock := some t }
  | sendChanged (t i : Nat) (rest : List Nat) : s.pc t = .flushing (i :: rest) →
      Move full s (.sendChanged t)
        { s.goto t (.flushing rest) with repr := send full .changed i s.repr }
  | prune (t : Nat) : s.pc t = .flushing [] →
      Move full s (.prune t) { s.goto t .idle with repr := s.repr.retainOpen, lock := none }
  | lockDrop (t : Nat) (subscriber : Option Nat) : s.pc t = .idle → s.lock = none →
      Move full s (.lockDrop t subscriber)
        { s.goto t (.dropping s.repr.subscribers subscriber) with lock := some t }
  | sendDestroyed (t i : Nat) (rest : List Nat) (subscriber : Option Nat) :
      s.pc t = .dropping (i :: rest) subscriber → Move full s (.sendDestroyed t)
        { s.goto t (.dropping rest subscriber) with repr := send full .destroyed i s.repr }
  | unlockDrop (t : Nat) : s.pc t = .dropping [] none →
      Move full s (.unlockDrop t) { s.goto t .idle with lock := none }
  | unlockSubscriber (t i : Nat) : s.pc t = .dropping [] (some i) →
      Move full s (.unlockDrop t) { s.goto t (.closing i) with lock := none }
  | closeReceiver (t i : Nat) : s.pc t = .closing i →
      Move full s (.closeReceiver t) { s.goto t .idle with repr := s.repr.closeReceiver i }
  | subscribe : s.lock = none → Move full s .subscribe { s with
        repr := s.repr.subscribe
        toRead := Function.update s.toRead s.repr.channels true }
  | recv (i : Nat) (status : SignalStatus) (rest : List SignalStatus) :
      (s.repr.channel i).isOpen = true → s.toRead i = false →
      (s.repr.channel i).queue = status :: rest → Move full s (.recv i) { s with
        repr := { s.repr with
          channel := Function.update s.repr.channel i { s.repr.channel i with queue := rest } }
        toRead := Function.update s.toRead i true }
  | read (i : Nat) : (s.repr.channel i).isOpen = true → s.toRead i = true →
      Move full s (.read i) { s with
        toRead := Function.update s.toRead i false
        lastRead := Function.update s.lastRead i (some s.repr.data) }

theorem step_move {a : Atomic T} (hStep : step full s a = some s') : Move full s a s' := by
  cases a with
  | write t f =>
    simp only [step, Option.ite_none_right_eq_some, Option.some.injEq] at hStep
    obtain ⟨hPc, rfl⟩ := hStep
    exact .write t f hPc
  | storeDirty t =>
    simp only [step, Option.ite_none_right_eq_some, Option.some.injEq] at hStep
    obtain ⟨hPc, rfl⟩ := hStep
    exact .storeDirty t hPc
  | swapDirty t =>
    simp only [step, Option.ite_none_right_eq_some, Option.some.injEq] at hStep
    obtain ⟨hPc, rfl⟩ := hStep
    split
    next hDirty => exact .swapDirty t hPc hDirty
    next => exact .swapClean t
  | lockFlush t =>
    simp only [step, Option.ite_none_right_eq_some, Option.some.injEq] at hStep
    obtain ⟨⟨hPc, hLock⟩, rfl⟩ := hStep
    exact .lockFlush t hPc hLock
  | sendChanged t =>
    simp only [step] at hStep
    split at hStep
    next i rest hPc => cases hStep; exact .sendChanged t i rest hPc
    next => cases hStep
  | prune t =>
    simp only [step] at hStep
    split at hStep
    next hPc => cases hStep; exact .prune t hPc
    next => cases hStep
  | lockDrop t subscriber =>
    simp only [step, Option.ite_none_right_eq_some, Option.some.injEq] at hStep
    obtain ⟨⟨hPc, hLock⟩, rfl⟩ := hStep
    exact .lockDrop t subscriber hPc hLock
  | sendDestroyed t =>
    simp only [step] at hStep
    split at hStep
    next i rest subscriber hPc => cases hStep; exact .sendDestroyed t i rest subscriber hPc
    next => cases hStep
  | unlockDrop t =>
    simp only [step] at hStep
    split at hStep
    next hPc => cases hStep; exact .unlockDrop t hPc
    next i hPc => cases hStep; exact .unlockSubscriber t i hPc
    next => cases hStep
  | closeReceiver t =>
    simp only [step] at hStep
    split at hStep
    next i hPc => cases hStep; exact .closeReceiver t i hPc
    next => cases hStep
  | subscribe =>
    simp only [step, Option.ite_none_right_eq_some, Option.some.injEq] at hStep
    obtain ⟨hLock, rfl⟩ := hStep
    exact .subscribe hLock
  | recv i =>
    simp only [step, Option.ite_none_right_eq_some] at hStep
    obtain ⟨⟨hOpen, hRead⟩, hRecv⟩ := hStep
    obtain ⟨⟨status, r⟩, hr, rfl⟩ := Option.map_eq_some_iff.mp hRecv
    obtain ⟨rest, hQueue, rfl⟩ := SignalRepr.recv_cases hr
    exact .recv i status rest hOpen hRead hQueue
  | read i =>
    simp only [step, Option.ite_none_right_eq_some, Option.some.injEq] at hStep
    obtain ⟨⟨hOpen, hRead⟩, rfl⟩ := hStep
    exact .read i hOpen hRead

end Move

/-- The thread is going to set `dirty` or to send `Changed` to subscriber `i`. -/
def owes (i : Nat) : Pc → Prop
  | .storing => True
  | .swapped => True
  | .flushing rest => i ∈ rest
  | _ => False

/-- Subscriber `i` has the value, or is to be told to read it. -/
def Told (s : Threads T) (i : Nat) : Prop :=
  s.toRead i = true ∨ (s.repr.channel i).queue ≠ [] ∨ s.lastRead i = some s.repr.data ∨
    s.repr.dirty = true ∨ ∃ t, owes i (s.pc t)

structure Inv (s : Threads T) : Prop where
  well : s.repr.WellFormed
  told : ∀ i, (s.repr.channel i).isOpen = true → s.Told i

variable {full : List SignalStatus → Bool} {s s' : Threads T} {i t : Nat}

/-- What some thread is at still holds of one when a thread moves on to where it holds too. -/
theorem exists_goto {Q : Pc → Prop} {p : Pc} (h : ∃ u, Q (s.pc u)) (hKeep : Q (s.pc t) → Q p) :
    ∃ u, Q ((s.goto t p).pc u) := exists_update h hKeep

theorem owes_at {p : Pc} (h : owes i p) : ∃ u, owes i ((s.goto t p).pc u) :=
  ⟨t, by simpa [goto] using h⟩

theorem send_queue_ne {status : SignalStatus} {r : SignalRepr T} {j : Nat}
    (h : (r.channel j).queue ≠ []) : ((send full status i r).channel j).queue ≠ [] := by
  by_cases hji : j = i
  · subst hji
    simp [send, StatusChannel.trySend_queue, h]
  · simpa [send, Function.update_of_ne hji] using h

theorem send_well {status : SignalStatus} {r : SignalRepr T} (h : r.WellFormed) :
    (send full status i r).WellFormed := by
  refine h.of_channel rfl rfl fun j hj => ?_
  by_cases hji : j = i
  · subst hji; simpa [send] using hj
  · simpa [send, Function.update_of_ne hji] using hj

/-- A step that keeps the value, the dirty flag and what the subscriber read keeps it told, when
the channel does not become empty and nothing owed to it is forgotten. -/
theorem Told.keep (h : s.Told i) (hData : s'.repr.data = s.repr.data)
    (hDirty : s'.repr.dirty = s.repr.dirty) (hToRead : s'.toRead i = s.toRead i)
    (hLast : s'.lastRead i = s.lastRead i)
    (hQueue : (s.repr.channel i).queue ≠ [] → (s'.repr.channel i).queue ≠ [])
    (hOwes : (∃ t, owes i (s.pc t)) →
      (s'.repr.channel i).queue ≠ [] ∨ ∃ t, owes i (s'.pc t)) : s'.Told i := by
  rcases h with h | h | h | h | h
  · exact .inl (hToRead ▸ h)
  · exact .inr (.inl (hQueue h))
  · exact .inr (.inr (.inl (by rw [hLast, hData]; exact h)))
  · exact .inr (.inr (.inr (.inl (hDirty ▸ h))))
  · rcases hOwes h with h | h
    · exact .inr (.inl h)
    · exact .inr (.inr (.inr (.inr h)))

theorem Told.of_owes (h : ∃ t, owes i (s.pc t)) : s.Told i :=
  .inr (.inr (.inr (.inr h)))

theorem sendChanged_inv (hFull : ∀ q, full q = true → q ≠ []) (hi : s.Inv) {j : Nat}
    {rest : List Nat} (hPc : s.pc t = .flushing (j :: rest)) :
    Inv { s.goto t (.flushing rest) with repr := send full .changed j s.repr } := by
  refine ⟨send_well hi.well, fun i hOpen => ?_⟩
  by_cases hij : i = j
  · subst hij
    have hLive : (s.repr.channel i).isOpen = true := by simpa [send] using hOpen
    exact .inr (.inl (by simpa [send] using StatusChannel.trySend_nonempty hFull hLive))
  · have hLive : (s.repr.channel i).isOpen = true := by
      simpa [send, Function.update_of_ne hij] using hOpen
    refine (hi.told i hLive).keep rfl rfl rfl rfl send_queue_ne fun hOwes => .inr ?_
    refine exists_goto hOwes fun hAt => ?_
    rw [hPc] at hAt
    exact (List.mem_cons.mp hAt).resolve_left hij

/-- A step of a thread that owes nothing, to a place where it owes nothing, that keeps what is
queued. -/
theorem Inv.of_idle (hi : s.Inv) {p : Pc} {r : SignalRepr T} {lock : Option Nat}
    (hPc : ∀ i, ¬ owes i (s.pc t)) (hWell : r.WellFormed) (hData : r.data = s.repr.data)
    (hDirty : r.dirty = s.repr.dirty)
    (hChannel : ∀ i, (r.channel i).isOpen = true → (s.repr.channel i).isOpen = true ∧
      ((s.repr.channel i).queue ≠ [] → (r.channel i).queue ≠ [])) :
    Inv { s.goto t p with repr := r, lock := lock } where
  well := hWell
  told i hOpen := by
    obtain ⟨hLive, hQueue⟩ := hChannel i hOpen
    exact (hi.told i hLive).keep hData hDirty rfl rfl hQueue fun hOwes =>
      .inr (exists_goto hOwes fun hAt => absurd hAt (hPc i))

theorem sendDestroyed_inv (hi : s.Inv) {j : Nat} {rest : List Nat} {subscriber : Option Nat}
    (hPc : s.pc t = .dropping (j :: rest) subscriber) :
    Inv { s.goto t (.dropping rest subscriber) with repr := send full .destroyed j s.repr } := by
  refine hi.of_idle (by simp [hPc, owes]) (send_well hi.well) rfl rfl fun i h =>
    ⟨?_, send_queue_ne⟩
  by_cases hij : i = j
  · subst hij; simpa [send] using h
  · simpa [send, Function.update_of_ne hij] using h

theorem closeReceiver_inv (hi : s.Inv) {j : Nat} (hPc : s.pc t = .closing j) :
    Inv { s.goto t .idle with repr := s.repr.closeReceiver j } := by
  refine hi.of_idle (by simp [hPc, owes]) (hi.well.closeReceiver j) rfl rfl fun i h => ?_
  have hij : i ≠ j := by
    rintro rfl
    simp [SignalRepr.closeReceiver] at h
  simp only [SignalRepr.closeReceiver, Function.update_of_ne hij] at h ⊢
  exact ⟨h, fun hq => hq⟩

theorem subscribe_inv (hi : s.Inv) : Inv { s with
    repr := s.repr.subscribe
    toRead := Function.update s.toRead s.repr.channels true } := by
  refine ⟨hi.well.subscribe, fun i hOpen => ?_⟩
  by_cases hn : i = s.repr.channels
  · exact .inl (by simp [hn])
  · simp only [SignalRepr.subscribe, Function.update_of_ne hn] at hOpen
    refine (hi.told i hOpen).keep rfl rfl ?_ rfl ?_ .inr
    · exact Function.update_of_ne hn _ _
    · simp [SignalRepr.subscribe, Function.update_of_ne hn]

theorem recv_inv {j : Nat} (hi : s.Inv) (rest : List SignalStatus) : Inv { s with
    repr := { s.repr with
      channel := Function.update s.repr.channel j { s.repr.channel j with queue := rest } }
    toRead := Function.update s.toRead j true } := by
  refine ⟨hi.well.recv j rest, fun i hOpen => ?_⟩
  by_cases hij : i = j
  · exact .inl (by simp [hij])
  · simp only [Function.update_of_ne hij] at hOpen
    refine (hi.told i hOpen).keep rfl rfl ?_ rfl ?_ .inr
    · exact Function.update_of_ne hij _ _
    · simp [Function.update_of_ne hij]

theorem read_inv {j : Nat} (hi : s.Inv) : Inv { s with
    toRead := Function.update s.toRead j false
    lastRead := Function.update s.lastRead j (some s.repr.data) } := by
  refine ⟨hi.well, fun i hOpen => ?_⟩
  by_cases hij : i = j
  · exact .inr (.inr (.inl (by simp [hij])))
  · exact (hi.told i hOpen).keep rfl rfl (Function.update_of_ne hij _ _)
      (Function.update_of_ne hij _ _) (fun hq => hq) .inr

theorem Inv.move (hFull : ∀ q, full q = true → q ≠ []) {a : Atomic T} (hi : s.Inv)
    (hMove : Move full s a s') : s'.Inv := by
  cases hMove with
  | write t f hPc =>
    exact ⟨hi.well.write f, fun i _ => .of_owes (owes_at (p := .storing) trivial)⟩
  | storeDirty t hPc =>
    exact ⟨hi.well.of_channel rfl rfl fun _ h => h, fun _ _ => .inr (.inr (.inr (.inl rfl)))⟩
  | swapDirty t hPc hDirty =>
    refine ⟨hi.well.of_channel rfl rfl fun _ h => h, fun i _ => ?_⟩
    exact .of_owes (owes_at (p := .swapped) trivial)
  | swapClean t => exact hi
  | lockFlush t hPc hLock =>
    -- the subscribers a flush is to send to are all the live ones
    refine ⟨hi.well, fun i hOpen => ?_⟩
    have hMem : i ∈ s.repr.subscribers := hi.well.live i hOpen
    exact .of_owes (owes_at (p := .flushing s.repr.subscribers) hMem)
  | sendChanged t j rest hPc => exact sendChanged_inv hFull hi hPc
  | prune t hPc =>
    exact hi.of_idle (by simp [hPc, owes]) hi.well.retainOpen rfl rfl fun i h => ⟨h, fun hq => hq⟩
  | lockDrop t subscriber hPc hLock =>
    exact hi.of_idle (by simp [hPc, owes]) hi.well rfl rfl fun i h => ⟨h, fun hq => hq⟩
  | sendDestroyed t j rest subscriber hPc => exact sendDestroyed_inv hi hPc
  | unlockDrop t hPc =>
    exact hi.of_idle (by simp [hPc, owes]) hi.well rfl rfl fun i h => ⟨h, fun hq => hq⟩
  | unlockSubscriber t j hPc =>
    exact hi.of_idle (by simp [hPc, owes]) hi.well rfl rfl fun i h => ⟨h, fun hq => hq⟩
  | closeReceiver t j hPc => exact closeReceiver_inv hi hPc
  | subscribe => exact subscribe_inv hi
  | recv j status rest hOpen hRead hQueue => exact recv_inv hi rest
  | read j => exact read_inv hi

theorem step_inv (hFull : ∀ q, full q = true → q ≠ []) {a : Atomic T} (hi : s.Inv)
    (hStep : step full s a = some s') : s'.Inv :=
  hi.move hFull (step_move hStep)

theorem Inv.new (value : T) : (new value).Inv :=
  ⟨.new value, by simp [Threads.new, SignalRepr.new]⟩

/-- No operation is half done, and no subscriber is about to read. -/
structure Quiescent (s : Threads T) : Prop where
  idle : ∀ t, s.pc t = .idle
  read : ∀ i, (s.repr.channel i).isOpen = true → s.toRead i = false

/-- In every state that the threads reach, when no operation is half done and the signal is not
dirty, a live subscriber has a status waiting or has read the current value last. -/
theorem no_lost_change (hFull : ∀ q, full q = true → q ≠ []) (value : T) {as : List (Atomic T)}
    (hRun : run (step full) (new value) as = some s) (hQuiet : s.Quiescent)
    (hClean : s.repr.dirty = false) (i : Nat) (hOpen : (s.repr.channel i).isOpen = true) :
    (s.repr.channel i).queue ≠ [] ∨ s.lastRead i = some s.repr.data := by
  have hInv := run_invariant (fun _ _ _ => step_inv hFull) (.new value) hRun
  rcases hInv.told i hOpen with h | h | h | h | ⟨t, h⟩
  · simp [hQuiet.read i hOpen] at h
  · exact .inl h
  · exact .inr h
  · simp [hClean] at h
  · simp [hQuiet.idle t, owes] at h

/-- A write flushed to a subscriber that read the old value is waiting in its channel. -/
theorem no_lost_change_flushed : ∃ s, run (step fun q => 2 ≤ q.length) (new 0)
      [.subscribe, .read 0, .write 1 fun n => n + 1, .storeDirty 1, .swapDirty 2, .lockFlush 2,
        .sendChanged 2, .prune 2] = some s ∧
    ((s.repr.channel 0).queue ≠ [] ∨ s.lastRead 0 = some 1) := by
  have hRun : run (step fun q => 2 ≤ q.length) (new 0)
      [.subscribe, .read 0, .write 1 fun n => n + 1, .storeDirty 1, .swapDirty 2, .lockFlush 2,
        .sendChanged 2, .prune 2] = some _ := rfl
  refine ⟨_, hRun, no_lost_change (fun q hq => ?_) 0 hRun ⟨fun t => ?_, fun i _ => ?_⟩ rfl 0 rfl⟩
  · rintro rfl
    simp at hq
  · simp [goto, new]
  · simp [goto, new, SignalRepr.new]

/-! ### Operations run alone -/

theorem goto_self {p : Pc} (h : s.pc t = p) : s.goto t p = s := by
  subst h
  simp [goto]

theorem sendChanged_run {ids : List Nat} (hPc : s.pc t = .flushing ids) :
    run (step full) s (List.replicate ids.length (.sendChanged t)) =
      some { s.goto t (.flushing []) with
        repr := { s.repr with channel := sendAll full .changed ids s.repr.channel } } := by
  induction ids generalizing s with
  | nil => simp [sendAll, goto_self hPc]
  | cons j rest ih =>
    have hStep : step full s (.sendChanged t) =
        some { s.goto t (.flushing rest) with repr := send full .changed j s.repr } := by
      simp [step, hPc]
    rw [List.length_cons, List.replicate_succ, run_cons, hStep, Option.bind_some,
      ih (by simp [goto])]
    simp [goto, send, sendAll]

theorem sendDestroyed_run {ids : List Nat} {subscriber : Option Nat}
    (hPc : s.pc t = .dropping ids subscriber) :
    run (step full) s (List.replicate ids.length (.sendDestroyed t)) =
      some { s.goto t (.dropping [] subscriber) with
        repr := { s.repr with channel := sendAll full .destroyed ids s.repr.channel } } := by
  induction ids generalizing s with
  | nil => simp [sendAll, goto_self hPc]
  | cons j rest ih =>
    have hStep : step full s (.sendDestroyed t) =
        some { s.goto t (.dropping rest subscriber) with
          repr := send full .destroyed j s.repr } := by
      simp [step, hPc]
    rw [List.length_cons, List.replicate_succ, run_cons, hStep, Option.bind_some,
      ih (by simp [goto])]
    simp [goto, send, sendAll]

/-- `update` by a thread alone is `SignalRepr.update`. -/
theorem update_run (hPc : s.pc t = .idle) (f : T → T) :
    run (step full) s [.write t f, .storeDirty t] = some { s with repr := s.repr.update f } := by
  have hWrite : step full s (.write t f) =
      some { s.goto t .storing with repr := s.repr.write f } := by
    simp [step, hPc]
  rw [run_cons, hWrite, Option.bind_some, run_singleton]
  simp [step, goto, SignalRepr.update, ← hPc]

/-- `__flush` of a dirty signal by a thread alone is `SignalRepr.flush`. -/
theorem flush_run (hPc : s.pc t = .idle) (hLock : s.lock = none) (hDirty : s.repr.dirty = true) :
    run (step full) s ([.swapDirty t, .lockFlush t] ++
      List.replicate s.repr.subscribers.length (.sendChanged t) ++ [.prune t]) =
      some { s with repr := s.repr.flush full } := by
  let s₁ : Threads T :=
    { s.goto t (.flushing s.repr.subscribers) with
      repr := { s.repr with dirty := false }
      lock := some t }
  have hLocked : run (step full) s [.swapDirty t, .lockFlush t] = some s₁ := by
    simp [run_cons, step, hPc, hDirty, goto, hLock, s₁]
  have hPc₁ : s₁.pc t = .flushing s.repr.subscribers := by simp [s₁, goto]
  rw [run_append, run_append, hLocked, Option.bind_some, sendChanged_run hPc₁, Option.bind_some]
  simp [step, s₁, goto, SignalRepr.flush, hDirty, ← hPc, hLock]

theorem lockDrop_run (hPc : s.pc t = .idle) (hLock : s.lock = none) (subscriber : Option Nat) :
    run (step full) s ([.lockDrop t subscriber] ++
      List.replicate s.repr.subscribers.length (.sendDestroyed t)) =
      some { s.goto t (.dropping [] subscriber) with
        repr := s.repr.drop full
        lock := some t } := by
  let s₁ : Threads T :=
    { s.goto t (.dropping s.repr.subscribers subscriber) with lock := some t }
  have hLocked : run (step full) s [.lockDrop t subscriber] = some s₁ := by
    simp [step, hPc, hLock, s₁]
  have hPc₁ : s₁.pc t = .dropping s.repr.subscribers subscriber := by simp [s₁, goto]
  rw [run_append, hLocked, Option.bind_some, sendDestroyed_run hPc₁]
  simp [s₁, goto, SignalRepr.drop]

/-- `Drop for Signal` by a thread alone is `SignalRepr.drop`. -/
theorem drop_run (hPc : s.pc t = .idle) (hLock : s.lock = none) :
    run (step full) s ([.lockDrop t none] ++
      List.replicate s.repr.subscribers.length (.sendDestroyed t) ++ [.unlockDrop t]) =
      some { s with repr := s.repr.drop full } := by
  rw [run_append, lockDrop_run hPc hLock, Option.bind_some]
  simp [step, goto, ← hPc, hLock]

/-- A subscriber dropped by a thread alone: its reader's `Drop` and then its receiver. -/
theorem dropSubscriber_run (hPc : s.pc t = .idle) (hLock : s.lock = none) (i : Nat) :
    run (step full) s ([.lockDrop t (some i)] ++
      List.replicate s.repr.subscribers.length (.sendDestroyed t) ++
        [.unlockDrop t, .closeReceiver t]) =
      some { s with repr := (s.repr.drop full).closeReceiver i } := by
  rw [run_append, lockDrop_run hPc hLock, Option.bind_some]
  simp [run_cons, step, goto, ← hPc, hLock]

end Threads

end Emyu
