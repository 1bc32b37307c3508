import Emyu.Signal.Interleaving
import Mathlib.Data.List.Dedup

/-! Why the lock of the subscriber list makes nobody wait for ever: whoever holds it can go on, and
an operation under way has only so many steps left. The value is written in one step, so this is
about threads that keep no guard of it; those that do are `SyncTree`'s. -/

namespace Emyu.Threads

open Runs

variable {T : Type} {full : List SignalStatus → Bool} {s s' : Threads T} {a : Atomic T}
  {as bs : List (Atomic T)} {t n : Nat} {ids : List Nat}

/-- A thread that is there holds the lock of the list. -/
def Holding : Pc → Prop
  | .flushing _ | .dropping _ _ => True
  | _ => False

/-- The thread that takes the step, where the step is of an operation that has more than one. -/
def thread? : Atomic T → Option Nat
  | .write t _ | .storeDirty t | .swapDirty t | .lockFlush t | .sendChanged t | .prune t
  | .lockDrop t _ | .sendDestroyed t | .unlockDrop t | .closeReceiver t => some t
  | .subscribe | .recv _ | .read _ => none

/-- The lock is held by the thread that is in its critical section, and only threads that have
taken a step are in an operation. -/
structure Sound (as : List (Atomic T)) (s : Threads T) : Prop where
  lock : ∀ t, s.lock = some t ↔ Holding (s.pc t)
  busy : ∀ t, s.pc t ≠ .idle → t ∈ as.filterMap thread?

/-- The steps that only finish operations under way. -/
def Finishing : Atomic T → Prop
  | .storeDirty _ | .lockFlush _ | .sendChanged _ | .prune _ | .sendDestroyed _ | .unlockDrop _
  | .closeReceiver _ => True
  | _ => False

/-- The steps that a thread has left, when the list has at most `n` subscribers. -/
def stepsLeft (n : Nat) : Pc → Nat
  | .idle => 0
  | .storing => 1
  | .swapped => n + 2
  | .flushing rest => rest.length + 1
  | .dropping rest _ => rest.length + 2
  | .closing _ => 1

def allStepsLeft (n : Nat) (pc : Nat → Pc) : List Nat → Nat
  | [] => 0
  | t :: threads => stepsLeft n (pc t) + allStepsLeft n pc threads

/-- The steps left of all operations under way. -/
def work (as : List (Atomic T)) (s : Threads T) : Nat :=
  allStepsLeft s.repr.subscribers.length s.pc (as.filterMap thread?).dedup

theorem allStepsLeft_of_notMem {pc : Nat → Pc} {p : Pc} {threads : List Nat} (h : t ∉ threads) :
    allStepsLeft n (Function.update pc t p) threads = allStepsLeft n pc threads := by
  induction threads with
  | nil => rfl
  | cons u threads ih =>
    simp only [List.mem_cons, not_or] at h
    rw [allStepsLeft, allStepsLeft, ih h.2, Function.update_of_ne (Ne.symm h.1)]

/-- A thread that has fewer steps left leaves fewer. -/
theorem allStepsLeft_update {pc : Nat → Pc} {p : Pc} {threads : List Nat} (hNodup : threads.Nodup)
    (hMem : t ∈ threads) (hLess : stepsLeft n p < stepsLeft n (pc t)) :
    allStepsLeft n (Function.update pc t p) threads < allStepsLeft n pc threads := by
  induction threads with
  | nil => cases hMem
  | cons u threads ih =>
    rw [List.nodup_cons] at hNodup
    by_cases hut : u = t
    · subst hut
      rw [allStepsLeft, allStepsLeft, allStepsLeft_of_notMem hNodup.1, Function.update_self]
      omega
    · have hRest := ih hNodup.2 ((List.mem_cons.mp hMem).resolve_left (Ne.symm hut))
      rw [allStepsLeft, allStepsLeft, Function.update_of_ne hut]
      omega

/-! ### The lock -/

/-- A step of one thread that neither takes nor gives back the lock. -/
theorem holding_goto {p : Pc} {lock : Option Nat} (h : ∀ t, s.lock = some t ↔ Holding (s.pc t))
    (hLock : lock = s.lock) (hSame : Holding p ↔ Holding (s.pc t)) (u : Nat) :
    lock = some u ↔ Holding ((s.goto t p).pc u) := by
  rw [hLock, h]
  by_cases hut : u = t
  · subst hut
    simp [goto, hSame]
  · simp [goto, Function.update_of_ne hut]

theorem holding_taken {p : Pc} (h : ∀ t, s.lock = some t ↔ Holding (s.pc t)) (hFree : s.lock = none)
    (hp : Holding p) (u : Nat) : some t = some u ↔ Holding ((s.goto t p).pc u) := by
  by_cases hut : u = t
  · subst hut
    simp [goto, hp]
  · have hNot : ¬ Holding (s.pc u) := by simp [← h, hFree]
    simp [goto, Function.update_of_ne hut, hNot, Ne.symm hut]

theorem holding_free {p : Pc} (h : ∀ t, s.lock = some t ↔ Holding (s.pc t))
    (hAt : Holding (s.pc t)) (hp : ¬ Holding p) (u : Nat) :
    none = some u ↔ Holding ((s.goto t p).pc u) := by
  have hMine := (h t).mpr hAt
  by_cases hut : u = t
  · subst hut
    simp [goto, hp]
  · have hNot : ¬ Holding (s.pc u) := by simp [← h, hMine, Ne.symm hut]
    simp [goto, Function.update_of_ne hut, hNot]

theorem Move.lock (h : ∀ t, s.lock = some t ↔ Holding (s.pc t)) (hMove : Move full s a s') :
    ∀ t, s'.lock = some t ↔ Holding (s'.pc t) := by
  cases hMove with
  | write t f hPc => exact holding_goto h rfl (by simp [hPc, Holding])
  | storeDirty t hPc => exact holding_goto h rfl (by simp [hPc, Holding])
  | swapDirty t hPc => exact holding_goto h rfl (by simp [hPc, Holding])
  | lockFlush t hPc hFree => exact holding_taken h hFree trivial
  | sendChanged t i rest hPc => exact holding_goto h rfl (by simp [hPc, Holding])
  | prune t hPc => exact holding_free h (by simp [hPc, Holding]) (by simp [Holding])
  | lockDrop t subscriber hPc hFree => exact holding_taken h hFree trivial
  | sendDestroyed t i rest subscriber hPc => exact holding_goto h rfl (by simp [hPc, Holding])
  | unlockDrop t hPc => exact holding_free h (by simp [hPc, Holding]) (by simp [Holding])
  | unlockSubscriber t i hPc => exact holding_free h (by simp [hPc, Holding]) (by simp [Holding])
  | closeReceiver t i hPc => exact holding_goto h rfl (by simp [hPc, Holding])
  | swapClean | subscribe | recv | read => exact h

/-- A step changes the place of its own thread only. -/
theorem Move.pc (hMove : Move full s a s') {u : Nat} (hOther : thread? a ≠ some u) :
    s'.pc u = s.pc u := by
  have hGoto {t : Nat} {p : Pc} (hut : some t ≠ some u) : (s.goto t p).pc u = s.pc u :=
    Function.update_of_ne (fun hEq => hut (congrArg some hEq.symm)) ..
  cases hMove with
  | swapClean | subscribe | recv | read => rfl
  | _ => exact hGoto hOther

theorem Sound.new (value : T) : Sound [] (new value) where
  lock t := by simp [Threads.new, Holding]
  busy t h := (h rfl).elim

theorem Sound.snoc (h : Sound as s) (hStep : step full s a = some s') : Sound (as ++ [a]) s' where
  lock := (step_move hStep).lock h.lock
  busy u hBusy := by
    rw [List.filterMap_append, List.mem_append]
    by_cases hActs : thread? a = some u
    · exact .inr (by simp [hActs])
    · exact .inl (h.busy u ((step_move hStep).pc hActs ▸ hBusy))

/-! ### The work left -/

/-- The list of subscribers has no more than `n`, and the threads are all in operations that the run
began. -/
structure Bounded (n : Nat) (threads : List Nat) (s : Threads T) : Prop where
  lock : ∀ t, s.lock = some t ↔ Holding (s.pc t)
  busy : ∀ t, s.pc t ≠ .idle → t ∈ threads
  few : s.repr.subscribers.length ≤ n

variable {threads : List Nat}

/-- A finishing step leaves its thread with fewer steps, and does not make the list longer. -/
theorem Move.finishing (h : Bounded n threads s) (hFinishing : Finishing a)
    (hMove : Move full s a s') : ∃ t p, s'.pc = Function.update s.pc t p ∧ s.pc t ≠ .idle ∧
      stepsLeft n p < stepsLeft n (s.pc t) ∧
      s'.repr.subscribers.length ≤ s.repr.subscribers.length := by
  have hFew := h.few
  cases hMove with
  | storeDirty t hPc => exact ⟨t, _, rfl, by simp [hPc], by simp [hPc, stepsLeft], Nat.le_refl _⟩
  | lockFlush t hPc =>
    exact ⟨t, _, rfl, by simp [hPc], by simp [hPc, stepsLeft]; omega, Nat.le_refl _⟩
  | sendChanged t i rest hPc =>
    exact ⟨t, _, rfl, by simp [hPc], by simp [hPc, stepsLeft], Nat.le_refl _⟩
  | prune t hPc =>
    exact ⟨t, _, rfl, by simp [hPc], by simp [hPc, stepsLeft], List.length_filter_le ..⟩
  | sendDestroyed t i rest subscriber hPc =>
    exact ⟨t, _, rfl, by simp [hPc], by simp [hPc, stepsLeft], Nat.le_refl _⟩
  | unlockDrop t hPc => exact ⟨t, _, rfl, by simp [hPc], by simp [hPc, stepsLeft], Nat.le_refl _⟩
  | unlockSubscriber t i hPc =>
    exact ⟨t, _, rfl, by simp [hPc], by simp [hPc, stepsLeft], Nat.le_refl _⟩
  | closeReceiver t i hPc =>
    exact ⟨t, _, rfl, by simp [hPc], by simp [hPc, stepsLeft], Nat.le_refl _⟩
  | _ => exact hFinishing.elim

theorem Bounded.step (h : Bounded n threads s) (hFinishing : Finishing a)
    (hStep : step full s a = some s') : Bounded n threads s' := by
  have hMove := step_move hStep
  obtain ⟨t, p, hPc, hBusy, -, hLess⟩ := hMove.finishing h hFinishing
  refine ⟨hMove.lock h.lock, fun u hu => ?_, Nat.le_trans hLess h.few⟩
  by_cases hut : u = t
  · exact hut ▸ h.busy t hBusy
  · rw [hPc, Function.update_of_ne hut] at hu
    exact h.busy u hu

/-- As long as an operation is under way somebody can go on: the holder of the lock, or everybody
when nobody holds it. -/
theorem Bounded.exists_finishing (full : List SignalStatus → Bool) (h : Bounded n threads s)
    (hUnderWay : ¬ ((∀ t, s.pc t = .idle) ∧ s.lock = none)) :
    ∃ a, Finishing a ∧ Threads.step full s a ≠ none := by
  cases hLock : s.lock with
  | some t =>
    have hHolds := (h.lock t).mp hLock
    cases hPc : s.pc t with
    | flushing rest =>
      cases rest with
      | nil => exact ⟨.prune t, trivial, by simp [Threads.step, hPc]⟩
      | cons i rest => exact ⟨.sendChanged t, trivial, by simp [Threads.step, hPc]⟩
    | dropping rest subscriber =>
      cases rest with
      | nil => exact ⟨.unlockDrop t, trivial, by cases subscriber <;> simp [Threads.step, hPc]⟩
      | cons i rest => exact ⟨.sendDestroyed t, trivial, by simp [Threads.step, hPc]⟩
    | _ => simp [hPc, Holding] at hHolds
  | none =>
    obtain ⟨t, hBusy⟩ : ∃ t, s.pc t ≠ .idle := by
      by_contra hIdle
      exact hUnderWay ⟨fun t => by_contra fun hBusy => hIdle ⟨t, hBusy⟩, hLock⟩
    have hNot : ¬ Holding (s.pc t) := by simp [← h.lock, hLock]
    cases hPc : s.pc t with
    | idle => exact (hBusy hPc).elim
    | storing => exact ⟨.storeDirty t, trivial, by simp [Threads.step, hPc]⟩
    | swapped => exact ⟨.lockFlush t, trivial, by simp [Threads.step, hPc, hLock]⟩
    | closing i => exact ⟨.closeReceiver t, trivial, by simp [Threads.step, hPc]⟩
    | flushing rest => exact (hNot (by simp [hPc, Holding])).elim
    | dropping rest subscriber => exact (hNot (by simp [hPc, Holding])).elim

/-- In every state that threads reach which keep no guard of the value, the operations under way can
be finished, in a bounded number of steps and in any order: when none of them can go on, none is
under way and the list is not locked. -/
theorem all_finish (value : T) (hRun : run (step full) (new value) as = some s)
    (hFinishing : ∀ a ∈ bs, Finishing a) (hLater : run (step full) s bs = some s') :
    bs.length ≤ s.work as ∧ ((∀ a, Finishing a → step full s' a = none) →
      (∀ t, s'.pc t = .idle) ∧ s'.lock = none) := by
  have hSound : Sound as s :=
    run_history (P := Sound) (.new value) (fun _ _ _ _ h hStep => h.snoc hStep) hRun
  have hBounded : Bounded s.repr.subscribers.length (as.filterMap thread?).dedup s :=
    ⟨hSound.lock, fun t h => List.mem_dedup.mpr (hSound.busy t h), Nat.le_refl _⟩
  refine run_completes (Bounded s.repr.subscribers.length (as.filterMap thread?).dedup)
    (fun r => allStepsLeft s.repr.subscribers.length r.pc (as.filterMap thread?).dedup)
    (fun _ _ _ h hFirst hStep => h.step hFirst hStep) (fun r a r' h hFirst hStep => ?_)
    (fun _ h => h.exists_finishing full) hBounded hFinishing hLater
  obtain ⟨t, p, hPc, hBusy, hLess, -⟩ := (step_move hStep).finishing h hFirst
  rw [hPc]
  exact allStepsLeft_update (List.nodup_dedup _) (h.busy t hBusy) hLess

/-- A flush holds the lock, with one subscriber left to send to, and another waits for it. -/
def contended : List (Atomic Nat) :=
  [.subscribe, .write 1 (· + 1), .storeDirty 1, .swapDirty 1, .lockFlush 1, .write 2 (· + 1),
    .storeDirty 2, .swapDirty 2]

theorem all_finish_contended : ∃ s s',
    run (step fun _ => false) (new 0) contended = some s ∧
    run (step fun _ => false) s [.sendChanged 1, .prune 1, .lockFlush 2] = some s' ∧
    3 ≤ s.work contended ∧ ((∀ a, Finishing a → step (fun _ => false) s' a = none) →
      (∀ t, s'.pc t = .idle) ∧ s'.lock = none) := by
  have hSome : (run (step fun _ => false) (new 0)
      (contended ++ [.sendChanged 1, .prune 1, .lockFlush 2])).isSome := rfl
  obtain ⟨s', hBoth⟩ := Option.isSome_iff_exists.mp hSome
  obtain ⟨s, hRun, hLater⟩ := run_append_eq_some.mp hBoth
  have hFinishing : ∀ a ∈ ([.sendChanged 1, .prune 1, .lockFlush 2] : List (Atomic Nat)),
      Finishing a := by
    simp [Finishing]
  exact ⟨s, s', hRun, hLater, all_finish 0 hRun hFinishing hLater⟩

end Emyu.Threads
