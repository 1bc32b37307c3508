import Emyu.Lib.Run
import Emyu.Signal

/-! What the operations of the writers of one signal do to the value and to the dirty flag, step by
step and from any number of threads, and which of them leave a change that no flush will see. -/

namespace Emyu

open Runs

/-- Where a thread is in a call on a writer. -/
inductive WriterPc where
  | idle
  /-- It holds the guard that `write` returned. -/
  | guard
  /-- The closure of `update` runs; whether it has changed the value. -/
  | updating (changed : Bool)
  /-- The closure of `update` returned, its guard is gone, and `dirty` is not stored. -/
  | storing
  deriving DecidableEq, Repr

inductive WriterOp (T : Type) where
  | clone
  | drop
  | write (t : Nat)
  /-- The value is changed through the guard that the thread holds. -/
  | mutate (t : Nat) (f : T → T)
  | dropGuard (t : Nat)
  | update (t : Nat)
  | returned (t : Nat)
  | panicked (t : Nat)
  | storeDirty (t : Nat)
  | subscribe
  | flush

/-- The cell with its writer handles, the holder of the value's write lock, where each thread is,
how often the value was changed, and how often it had been at the last flush. -/
structure Writers (T : Type) where
  repr : SignalRepr T
  handles : Nat
  lock : Option Nat
  pc : Nat → WriterPc
  version : Nat
  flushed : Nat

namespace Writers

variable {T : Type}

/-- A new signal with one writer. -/
def new (value : T) : Writers T where
  repr := .new value
  handles := 1
  lock := none
  pc := fun _ => .idle
  version := 0
  flushed := 0

def goto (s : Writers T) (t : Nat) (p : WriterPc) : Writers T :=
  { s with pc := Function.update s.pc t p }

/-- The value is changed. -/
def change (s : Writers T) (f : T → T) : Writers T :=
  { s with repr := s.repr.write f, version := s.version + 1 }

/-- One step. `set` is `update` with the closure that assigns. A flush is its `swap` of `dirty`
with the sends after it; the lock of the value is not its concern. A panic in the closure of
`update` drops the guard and skips the store. -/
def step (full : List SignalStatus → Bool) (s : Writers T) : WriterOp T → Option (Writers T)
  | .clone => if 0 < s.handles then some { s with handles := s.handles + 1 } else none
  | .drop =>
    if 0 < s.handles then
      some { s with handles := s.handles - 1, repr := s.repr.drop full }
    else none
  | .write t =>
    if 0 < s.handles ∧ s.pc t = .idle ∧ s.lock = none then
      some { s.goto t .guard with lock := some t }
    else none
  | .mutate t f =>
    match s.pc t with
    | .guard => some (s.change f)
    | .updating _ => some ((s.goto t (.updating true)).change f)
    | _ => none
  | .dropGuard t =>
    if s.pc t = .guard then some { s.goto t .idle with lock := none } else none
  | .update t =>
    if 0 < s.handles ∧ s.pc t = .idle ∧ s.lock = none then
      some { s.goto t (.updating false) with lock := some t }
    else none
  | .returned t =>
    match s.pc t with
    | .updating _ => some { s.goto t .storing with lock := none }
    | _ => none
  | .panicked t =>
    match s.pc t with
    | .updating _ => some { s.goto t .idle with lock := none }
    | _ => none
  | .storeDirty t =>
    if s.pc t = .storing then
      some { s.goto t .idle with repr := { s.repr with dirty := true } }
    else none
  | .subscribe => some { s with repr := s.repr.subscribe }
  | .flush => some { s with repr := s.repr.flush full, flushed := s.version }

/-- No call on a writer is in progress. -/
def Quiet (s : Writers T) : Prop := ∀ t, s.pc t = .idle

/-- The next flush sends to every subscriber whose channel takes a status. -/
def Notifies (full : List SignalStatus → Bool) (r : SignalRepr T) : Prop :=
  ∀ i ∈ r.accepting full,
    (r.channel i).queue.length < ((r.flush full).channel i).queue.length

/-- A change since the last flush is marked, once no call on a writer is in progress. -/
def Marked (full : List SignalStatus → Bool) (s : Writers T) : Prop :=
  s.Quiet → s.version ≠ s.flushed → s.repr.dirty = true ∧ Notifies full s.repr

/-- The value is not changed through the guard of `write`, and no closure of `update` panics after
it has changed the value. -/
def Meets (s : Writers T) : WriterOp T → Prop
  | .mutate t _ => s.pc t ≠ .guard
  | .panicked t => s.pc t ≠ .updating true
  | _ => True

instance (s : Writers T) : DecidablePred s.Meets
  | .mutate t _ => inferInstanceAs (Decidable (s.pc t ≠ .guard))
  | .panicked t => inferInstanceAs (Decidable (s.pc t ≠ .updating true))
  | .clone | .drop | .write _ | .dropGuard _ | .update _ | .returned _ | .storeDirty _
  | .subscribe | .flush => isTrue trivial

/-- The thread is going to store `dirty` for a change. -/
def owesStore (p : WriterPc) : Prop := p = .updating true ∨ p = .storing

/-- A change since the last flush is marked or will be. -/
def Inv (s : Writers T) : Prop :=
  s.version ≠ s.flushed → s.repr.dirty = true ∨ ∃ t, owesStore (s.pc t)

variable {full : List SignalStatus → Bool} {s s' : Writers T} {t : Nat}

theorem notifies_of_dirty {r : SignalRepr T} (hDirty : r.dirty = true) : Notifies full r := by
  intro i hi
  obtain ⟨hMem, hAccepts⟩ := List.mem_filter.mp hi
  rw [SignalRepr.flush, if_pos hDirty]
  exact sendAll_grows hMem hAccepts

/-- A thread that owes no store may move on without paying one. -/
theorem owes_goto {p : WriterPc} (h : ∃ u, owesStore (s.pc u))
    (hKeep : owesStore (s.pc t) → owesStore p) : ∃ u, owesStore ((s.goto t p).pc u) :=
  exists_update h hKeep

theorem owes_at {p : WriterPc} (h : owesStore p) : ∃ u, owesStore ((s.goto t p).pc u) :=
  ⟨t, by simpa [goto] using h⟩

/-- A step that changes neither the value nor the flag, and owes what was owed, keeps the
invariant. -/
theorem Inv.keep (hi : s.Inv) (hVersion : s'.version = s.version)
    (hFlushed : s'.flushed = s.flushed) (hDirty : s'.repr.dirty = s.repr.dirty)
    (hOwes : (∃ t, owesStore (s.pc t)) → ∃ t, owesStore (s'.pc t)) : s'.Inv := by
  intro hNe
  rw [hVersion, hFlushed] at hNe
  rcases hi hNe with h | h
  · exact .inl (hDirty ▸ h)
  · exact .inr (hOwes h)

theorem Inv.new (value : T) : Inv (new value) := fun hNe => (hNe rfl).elim

/-- What a step can do, with the guards it passed. -/
inductive Move (full : List SignalStatus → Bool) (s : Writers T) :
    WriterOp T → Writers T → Prop where
  | clone : 0 < s.handles → Move full s .clone { s with handles := s.handles + 1 }
  | drop : 0 < s.handles →
      Move full s .drop { s with handles := s.handles - 1, repr := s.repr.drop full }
  | write (t : Nat) : s.pc t = .idle → s.lock = none →
      Move full s (.write t) { s.goto t .guard with lock := some t }
  | mutateGuard (t : Nat) (f : T → T) : s.pc t = .guard → Move full s (.mutate t f) (s.change f)
  | mutate (t : Nat) (f : T → T) (changed : Bool) : s.pc t = .updating changed →
      Move full s (.mutate t f) ((s.goto t (.updating true)).change f)
  | dropGuard (t : Nat) : s.pc t = .guard →
      Move full s (.dropGuard t) { s.goto t .idle with lock := none }
  | update (t : Nat) : s.pc t = .idle → s.lock = none →
      Move full s (.update t) { s.goto t (.updating false) with lock := some t }
  | returned (t : Nat) (changed : Bool) : s.pc t = .updating changed →
      Move full s (.returned t) { s.goto t .storing with lock := none }
  | panicked (t : Nat) (changed : Bool) : s.pc t = .updating changed →
      Move full s (.panicked t) { s.goto t .idle with lock := none }
  | storeDirty (t : Nat) : s.pc t = .storing →
      Move full s (.storeDirty t) { s.goto t .idle with repr := { s.repr with dirty := true } }
  | subscribe : Move full s .subscribe { s with repr := s.repr.subscribe }
  | flush : Move full s .flush { s with repr := s.repr.flush full, flushed := s.version }

theorem step_move {op : WriterOp T} (hStep : step full s op = some s') : Move full s op s' := by
  cases op with
  | clone =>
    simp only [step, Option.ite_none_right_eq_some, Option.some.injEq] at hStep
    obtain ⟨hAlive, rfl⟩ := hStep
    exact .clone hAlive
  | drop =>
    simp only [step, Option.ite_none_right_eq_some, Option.some.injEq] at hStep
    obtain ⟨hAlive, rfl⟩ := hStep
    exact .drop hAlive
  | write t =>
    simp only [step, Option.ite_none_right_eq_some, Option.some.injEq] at hStep
    obtain ⟨⟨-, hPc, hLock⟩, rfl⟩ := hStep
    exact .write t hPc hLock
  | mutate t f =>
    simp only [step] at hStep
    split at hStep
    next hPc => cases hStep; exact .mutateGuard t f hPc
    next changed hPc => cases hStep; exact .mutate t f changed hPc
    next => cases hStep
  | dropGuard t =>
    simp only [step, Option.ite_none_right_eq_some, Option.some.injEq] at hStep
    obtain ⟨hPc, rfl⟩ := hStep
    exact .dropGuard t hPc
  | update t =>
    simp only [step, Option.ite_none_right_eq_some, Option.some.injEq] at hStep
    obtain ⟨⟨-, hPc, hLock⟩, rfl⟩ := hStep
    exact .update t hPc hLock
  | returned t =>
    simp only [step] at hStep
    split at hStep
    next changed hPc => cases hStep; exact .returned t changed hPc
    next => cases hStep
  | panicked t =>
    simp only [step] at hStep
    split at hStep
    next changed hPc => cases hStep; exact .panicked t changed hPc
    next => cases hStep
  | storeDirty t =>
    simp only [step, Option.ite_none_right_eq_some, Option.some.injEq] at hStep
    obtain ⟨hPc, rfl⟩ := hStep
    exact .storeDirty t hPc
  | subscribe => cases hStep; exact .subscribe
  | flush => cases hStep; exact .flush

theorem Inv.step {op : WriterOp T} (hi : s.Inv) (hMeets : s.Meets op)
    (hStep : step full s op = some s') : s'.Inv := by
  cases step_move hStep with
  | mutateGuard t f hPc => exact (hMeets hPc).elim
  | mutate t f changed hPc => exact fun _ => .inr (owes_at (.inl rfl))
  | returned t changed hPc => exact hi.keep rfl rfl rfl fun h => owes_goto h fun _ => .inr rfl
  | panicked t changed hPc =>
    have hUnchanged : ¬ owesStore (s.pc t) := by
      rintro (h | h)
      · exact hMeets h
      · rw [hPc] at h; cases h
    exact hi.keep rfl rfl rfl fun h => owes_goto h fun hOwes => (hUnchanged hOwes).elim
  | storeDirty t hPc => exact fun _ => .inl rfl
  | flush => exact fun hNe => (hNe rfl).elim
  | clone | drop | subscribe => exact hi
  | write t hPc _ | update t hPc _ | dropGuard t hPc =>
    exact hi.keep rfl rfl rfl fun h => owes_goto h (by simp [hPc, owesStore])

/-- A thread there has the guard of the value. -/
def holds : WriterPc → Prop
  | .guard | .updating _ => True
  | _ => False

/-- The holder of the lock has the guard. -/
def Held (s : Writers T) : Prop := ∀ t, s.lock = some t → holds (s.pc t)

theorem Held.new (value : T) : Held (new value) := fun _ h => by cases h

theorem Held.of_free (h : s.lock = none) : s.Held := by
  intro t ht
  rw [h] at ht
  cases ht

theorem Held.free_of_quiet (h : s.Held) (hQuiet : s.Quiet) : s.lock = none := by
  rcases hLock : s.lock with _ | t
  · rfl
  · have hHolds := h t hLock
    rw [hQuiet t] at hHolds
    exact hHolds.elim

/-- A thread that moves on keeps who has the guard, unless it had the guard and gave it up. -/
theorem Held.goto (h : s.Held) {p : WriterPc} (hp : holds (s.pc t) → holds p) :
    (s.goto t p).Held := by
  intro u hu
  by_cases hut : u = t
  · subst hut
    simpa [Writers.goto] using hp (h u hu)
  · simpa [Writers.goto, Function.update_of_ne hut] using h u hu

theorem Held.taken {p : WriterPc} (hp : holds p) : Held { s.goto t p with lock := some t } := by
  rintro u ⟨⟩
  simpa [Writers.goto] using hp

theorem Held.step {op : WriterOp T} (h : s.Held) (hStep : step full s op = some s') : s'.Held := by
  cases step_move hStep with
  | clone | drop | subscribe | flush | mutateGuard => exact h
  | write t | update t => exact .taken trivial
  | mutate t => exact h.goto fun _ => trivial
  | dropGuard t | returned t | panicked t => exact .of_free rfl
  | storeDirty t hPc => exact h.goto fun hHolds => by rw [hPc] at hHolds; exact hHolds

/-- What holds in every state reached, whatever the steps. -/
structure Counted (s : Writers T) : Prop where
  held : s.Held
  counted : s.flushed ≤ s.version

theorem Counted.new (value : T) : Counted (new value) := ⟨.new value, Nat.le_refl _⟩

theorem Counted.step {op : WriterOp T} (h : s.Counted) (hStep : step full s op = some s') :
    s'.Counted := by
  refine ⟨h.held.step hStep, ?_⟩
  cases step_move hStep with
  | mutateGuard | mutate => exact Nat.le_succ_of_le h.counted
  | flush => exact Nat.le_refl _
  | _ => exact h.counted

theorem Inv.marked (hi : s.Inv) : s.Marked full := by
  intro hQuiet hNe
  rcases hi hNe with hDirty | ⟨t, hOwes⟩
  · exact ⟨hDirty, notifies_of_dirty hDirty⟩
  · rw [hQuiet t] at hOwes
    rcases hOwes with h | h <;> cases h

/-- A call of `write` whose guard changes the value once. -/
def guardChange (t : Nat) (f : T → T) : List (WriterOp T) := [.write t, .mutate t f, .dropGuard t]

/-- An `update` whose closure changes the value and panics. -/
def panicChange (t : Nat) (f : T → T) : List (WriterOp T) := [.update t, .mutate t f, .panicked t]

theorem not_marked_of_clean {r : Writers T} (hQuiet : r.Quiet) (hNe : r.version ≠ r.flushed)
    (hClean : r.repr.dirty = false) : ¬ r.Marked full := by
  intro hMarked
  have hDirty := (hMarked hQuiet hNe).1
  rw [hClean] at hDirty
  cases hDirty

/-- A thread that comes back from its call leaves the others where they were. -/
theorem Quiet.back (hQuiet : s.Quiet) {p : WriterPc} : ((s.goto t p).goto t .idle).Quiet := by
  intro u
  by_cases hut : u = t
  · subst hut
    exact Function.update_self ..
  · simpa [goto, Function.update_of_ne hut] using hQuiet u

/-- A change through the guard of `write`, of a clean signal that nobody else writes, is not
marked. -/
theorem guardChange_unmarked (hc : s.Counted) (hQuiet : s.Quiet) (hHandles : 0 < s.handles)
    (hClean : s.repr.dirty = false) (t : Nat) (f : T → T) :
    ∃ s', run (step full) s (guardChange t f) = some s' ∧ ¬ s'.Marked full := by
  have hFree := hc.held.free_of_quiet hQuiet
  have hWrite : step full s (.write t) = some { s.goto t .guard with lock := some t } := by
    simp [step, hHandles, hQuiet t, hFree]
  refine ⟨{ ((s.goto t .guard).goto t .idle).change f with lock := none }, ?_,
    not_marked_of_clean hQuiet.back (Nat.ne_of_gt (Nat.lt_succ_of_le hc.counted)) hClean⟩
  refine run_cons_eq_some.mpr ⟨_, hWrite, ?_⟩
  simp [run_cons, step, goto, change]

/-- A change by a closure of `update` that panics, of a clean signal that nobody else writes, is
not marked. -/
theorem panicChange_unmarked (hc : s.Counted) (hQuiet : s.Quiet) (hHandles : 0 < s.handles)
    (hClean : s.repr.dirty = false) (t : Nat) (f : T → T) :
    ∃ s', run (step full) s (panicChange t f) = some s' ∧ ¬ s'.Marked full := by
  have hFree := hc.held.free_of_quiet hQuiet
  have hUpdate :
      step full s (.update t) = some { s.goto t (.updating false) with lock := some t } := by
    simp [step, hHandles, hQuiet t, hFree]
  refine ⟨{ ((s.goto t (.updating true)).goto t .idle).change f with lock := none }, ?_,
    not_marked_of_clean hQuiet.back (Nat.ne_of_gt (Nat.lt_succ_of_le hc.counted)) hClean⟩
  refine run_cons_eq_some.mpr ⟨_, hUpdate, ?_⟩
  simp [run_cons, step, goto, change]

/-- In every run whose steps change the value only by closures of `update` that return, a change
is marked in every state reached. Neither exception can be left out: from every state reached with
the signal clean and no call in progress, one such change is not marked. -/
theorem marked_of_meets (full : List SignalStatus → Bool) (value : T) {ops : List (WriterOp T)}
    {s : Writers T} (hRun : run (step full) (new value) ops = some s) :
    (Every (step full) Meets (new value) ops → s.Marked full) ∧
    (s.Quiet → 0 < s.handles → s.repr.dirty = false → ∀ (t : Nat) (f : T → T),
      (∃ s', run (step full) s (guardChange t f) = some s' ∧ ¬ s'.Marked full) ∧
      (∃ s', run (step full) s (panicChange t f) = some s' ∧ ¬ s'.Marked full)) := by
  refine ⟨fun hMeets => ?_, fun hQuiet hHandles hClean t f => ?_⟩
  · have hi : s.Inv := run_invariant_of (fun _ _ _ hi hm hStep => hi.step hm hStep)
      (.new value) hMeets hRun
    exact hi.marked
  · have hc : s.Counted := run_invariant (fun _ _ _ hc hStep => hc.step hStep) (.new value) hRun
    exact ⟨guardChange_unmarked hc hQuiet hHandles hClean t f,
      panicChange_unmarked hc hQuiet hHandles hClean t f⟩

/-- `set(1)` is marked. -/
theorem marked_of_meets_set : ∃ s, run (step fun _ => false) (new 0)
    [.update 0, .mutate 0 fun _ => 1, .returned 0, .storeDirty 0] = some s ∧
    s.Marked fun _ => false := by
  have hRun : run (step fun _ => false) (new 0)
      [.update 0, .mutate 0 fun _ => 1, .returned 0, .storeDirty 0] = some _ := rfl
  exact ⟨_, hRun, (marked_of_meets _ 0 hRun).1 (by decide)⟩

/-- `*signal.writer().write() = 1` with a subscriber: the next flush sends it nothing. -/
theorem guard_write_unmarked : ¬ ∀ (ops : List (WriterOp Nat)) s,
    run (step fun _ => false) (new 0) ops = some s → s.Marked fun _ => false := by
  intro hAll
  have hRun : run (step fun _ => false) (new 0)
      (.subscribe :: guardChange 0 fun _ => 1) = some _ := rfl
  have hQuiet : ∀ t, Function.update (Function.update (fun _ => WriterPc.idle) 0 .guard) 0
      .idle t = .idle := by
    intro t
    by_cases h : t = 0 <;> simp [Function.update, h]
  exact absurd (hAll _ _ hRun hQuiet (by decide)).1 (by decide)

end Writers

end Emyu
