import Emyu.Lib.RwLock
import Emyu.World

/-! The world in the thread-safe build: the states behind their `RwLock`s, and tasks on any number
of threads that get at them through the accessors of `World` and the guards of `State`. -/

namespace Emyu

open RefCell RwLock Runs Serial

namespace SyncWorld

/-- A call is blocked in `read()` or `write()`, `f` is running, or the future that it returned is
being awaited. -/
inductive Place where
  | locking
  | closure
  | awaiting
  deriving DecidableEq, Repr

/-- A call of an accessor that has not returned, with the number of its guard. -/
structure Call where
  task : Nat
  accessor : World.Accessor
  guard : Option Nat
  place : Place

/-- `lock` is `read()` or `write()` on what `World::state` returned, and `dropGuard` the drop of
such a guard; `read` and `write` go through any guard that is out. A suspended task may be dropped
by a thread that unwinds from a panic of its own: `std` then poisons what the task had locked for
writing, as if the task had panicked. -/
inductive Action (S : Type) (Val : S → Type) where
  | call (k : Nat) (accessor : World.Accessor) (state : S)
  | lock (k : Nat) (borrow : Borrow) (state : S)
  | granted (k : Nat)
  | read (n : Nat) (state : S)
  | write (n : Nat) (state : S) (f : Val state → Val state)
  | dropGuard (n : Nat)
  | closureReturns (k : Nat)
  | futureReady (k : Nat)
  | panics (k : Nat)
  | dropTask (k : Nat) (panicking : Bool)

end SyncWorld

open SyncWorld in
/-- The states that exist with their locks, and the calls that the tasks are in, the innermost of
each task first. -/
structure SyncWorld (S : Type) (Val : S → Type) where
  present : S → Bool
  locks : Locks S Val
  calls : List Call

namespace SyncWorld

variable {S : Type} [DecidableEq S] {Val : S → Type}

def new (present : S → Bool) (value : ∀ σ, Val σ) : SyncWorld S Val where
  present := present
  locks := .new value
  calls := []

def ofTask (k : Nat) (f : Call) : Bool := f.task == k

/-- The innermost call of a task. -/
def top (w : SyncWorld S Val) (k : Nat) : Option Call := w.calls.find? (ofTask k)

/-- The calls without the innermost of the task. -/
def outer (w : SyncWorld S Val) (k : Nat) : List Call := w.calls.eraseP (ofTask k)

/-- The calls of the other tasks. -/
def others (w : SyncWorld S Val) (k : Nat) : List Call := w.calls.filter fun f => !ofTask k f

def inClosure (w : SyncWorld S Val) (k : Nat) : Bool :=
  w.calls.any fun f => ofTask k f && f.place == .closure

def topAt (w : SyncWorld S Val) (k : Nat) (p : Place) : Bool :=
  (w.top k).any fun f => f.place == p

/-- The lock that the task waits for is poisoned. -/
def refused (impl : Impl) (w : SyncWorld S Val) (k : Nat) : Bool :=
  impl.poisons &&
    (w.locks.waiting.find? fun r => r.holder == k).any fun r => w.locks.poisoned r.cell

/-- A call whose lock was granted runs its closure; a guard of a `State` belongs to no call. -/
def enter (w : SyncWorld S Val) (k : Nat) : List Call :=
  match w.top k with
  | some f =>
    if f.place = .locking then
      { f with guard := some w.locks.taken, place := .closure } :: w.outer k
    else w.calls
  | none => w.calls

/-- A task that waits for a lock does nothing else, nothing is awaited in a closure, and the guard
of an accessor is a temporary of its call. -/
def enabled (w : SyncWorld S Val) : Action S Val → Bool
  | .call k a _ => !w.locks.isWaiting k && !(a.isAsync && w.inClosure k)
  | .dropGuard n => w.calls.all fun f => f.guard != some n
  | .closureReturns k => !w.locks.isWaiting k && w.topAt k .closure
  | .futureReady k => !w.locks.isWaiting k && w.topAt k .awaiting
  | .dropTask k _ => !w.inClosure k
  | _ => true

/-- What the action does to the locks. Where the state is missing, `state()` panics and the `try`
accessors call `f(None)`. -/
def lockAction (w : SyncWorld S Val) : Action S Val → Option (RwLock.Action S Val)
  | .call k a σ =>
    if w.present σ then some (.request ⟨k, σ, a.borrow⟩)
    else if a.isTry then none
    else some (.leave k true)
  | .lock k b σ => if w.present σ then some (.request ⟨k, σ, b⟩) else some (.leave k true)
  | .granted k => some (.grant k)
  | .read n σ => some (.read n σ)
  | .write n σ f => some (.write n σ f)
  | .dropGuard n => some (.drop n)
  | .closureReturns k => (w.top k).bind fun f =>
    if f.accessor.isAsync then none else f.guard.map .drop
  | .futureReady k => (w.top k).bind fun f => f.guard.map .drop
  | .panics k => some (.leave k true)
  | .dropTask k panicking => some (.leave k panicking)

/-- The calls that the tasks are in after the action. The guard of `f(&state.read()).await` lives
until the future is done. -/
def callsAfter (impl : Impl) (w : SyncWorld S Val) : Action S Val → List Call
  | .call k a σ =>
    if w.present σ then ⟨k, a, none, .locking⟩ :: w.calls
    else if a.isTry then ⟨k, a, none, .closure⟩ :: w.calls
    else w.others k
  | .lock k _ σ => if w.present σ then w.calls else w.others k
  | .granted k => if w.refused impl k then w.others k else w.enter k
  | .closureReturns k =>
    match w.top k with
    | some f => if f.accessor.isAsync then { f with place := .awaiting } :: w.outer k else w.outer k
    | none => w.calls
  | .futureReady k => w.outer k
  | .panics k | .dropTask k _ => w.others k
  | .read _ _ | .write _ _ _ | .dropGuard _ => w.calls

/-- The locks after what is done to them, when they let it happen. -/
def locksAfter (impl : Impl) (w : SyncWorld S Val) :
    Option (RwLock.Action S Val) → Option (Locks S Val)
  | some b => w.locks.step impl b
  | none => some w.locks

def step (impl : Impl) (w : SyncWorld S Val) (a : Action S Val) : Option (SyncWorld S Val) :=
  if w.enabled a then
    (w.locksAfter impl (w.lockAction a)).map fun locks =>
      { w with locks := locks, calls := w.callsAfter impl a }
  else none

section Step

variable {impl : Impl} {w w' : SyncWorld S Val} {a : Action S Val} {as bs : List (Action S Val)}
  {present : S → Bool} {init : ∀ σ, Val σ} {σ : S} {k : Nat}

theorem step_eq_some : w.step impl a = some w' ↔
    w.enabled a = true ∧ ∃ locks, w.locksAfter impl (w.lockAction a) = some locks ∧
      { w with locks := locks, calls := w.callsAfter impl a } = w' := by
  simp only [step, Option.ite_none_right_eq_some, Option.map_eq_some_iff]

omit [DecidableEq S] in
theorem refused_iff (h : w.locks.Single) : w.refused impl k = true ↔
    impl.poisons = true ∧
      ∃ r ∈ w.locks.waiting, r.holder = k ∧ w.locks.poisoned r.cell = true := by
  rw [refused, Bool.and_eq_true_iff, Option.any_eq_true]
  refine and_congr_right fun _ => ⟨?_, ?_⟩
  · rintro ⟨r, hFind, hPoisoned⟩
    exact ⟨r, List.mem_of_find?_eq_some hFind, by simpa using List.find?_some hFind, hPoisoned⟩
  · rintro ⟨r, hMem, rfl, hPoisoned⟩
    exact ⟨r, h.find? hMem, hPoisoned⟩

/-- The locks take a step of their own, or none. -/
theorem step_locks (hStep : w.step impl a = some w') :
    w'.locks = w.locks ∧ w.lockAction a = none ∨
      ∃ b, w.lockAction a = some b ∧ w.locks.step impl b = some w'.locks := by
  obtain ⟨-, locks, hLocks, rfl⟩ := step_eq_some.mp hStep
  cases hAction : w.lockAction a with
  | some b =>
    rw [hAction] at hLocks
    exact .inr ⟨b, rfl, hLocks⟩
  | none =>
    rw [hAction] at hLocks
    exact .inl ⟨(Option.some.inj hLocks).symm, rfl⟩

/-- What every step of the locks keeps, the world's steps keep. -/
theorem keep_locks {Inv : Locks S Val → Prop}
    (hKeep : ∀ s b s', Inv s → s.step impl b = some s' → Inv s') (h : Inv w.locks)
    (hStep : w.step impl a = some w') : Inv w'.locks := by
  rcases step_locks hStep with ⟨hSame, -⟩ | ⟨b, -, hLocks⟩
  · rwa [hSame]
  · exact hKeep _ b _ h hLocks

theorem run_locks {Inv : Locks S Val → Prop}
    (hKeep : ∀ s b s', Inv s → s.step impl b = some s' → Inv s') (h : Inv w.locks)
    (hRun : run (step impl) w as = some w') : Inv w'.locks := by
  let OfLocks : SyncWorld S Val → Prop := fun w => Inv w.locks
  have hStep : ∀ w a w', OfLocks w → w.step impl a = some w' → OfLocks w' :=
    fun _ _ _ h hStep => keep_locks hKeep h hStep
  have hAll : OfLocks w' := run_invariant hStep h hRun
  exact hAll

/-- In every run of any number of tasks, switched in any order, the accesses that were made to the
states, put in the order in which their guards were taken, are the same accesses, each guard's own
in its own order, and lead from the first values to the present ones: every guard's accesses come to
the same as if they had been made at once. -/
theorem serializable (hLawful : impl.Lawful)
    (hRun : run (step impl) (new present init) as = some w) :
    ∃ order : List (Nat × Access S Val), order.Perm w.locks.trace ∧
      (order.Pairwise fun x y => x.1 ≤ y.1) ∧
      (∀ n, order.filter (fun x => x.1 == n) = w.locks.trace.filter fun x => x.1 == n) ∧
      Exec init (order.map Prod.snd) w.locks.value := by
  have hOk : w.locks.Ok init :=
    run_locks (fun _ _ _ h hStep => h.move hLawful (Locks.step_move hStep)) (.new init) hRun
  exact ⟨serial w.locks.trace, perm_serial _, sorted_serial _, filter_serial _, hOk.exec_serial⟩

/-- Two writers of two states, the second of which is the first to write. -/
def crossing : List (Action Bool fun _ => Nat) :=
  [.call 0 .getMut false, .granted 0, .call 1 .tryGetMutAsync true, .granted 1, .closureReturns 1,
    .write 1 true (· + 1), .write 0 false (· + 2), .read 0 false, .closureReturns 0, .futureReady 1]

theorem serializable_crossing :
    ∃ w, run (step (writersFirst true)) (new (fun _ => true) fun _ => 0) crossing = some w ∧
      ∃ order : List (Nat × Access Bool fun _ => Nat), order.Perm w.locks.trace ∧
        (order.Pairwise fun x y => x.1 ≤ y.1) ∧
        (∀ n, order.filter (fun x => x.1 == n) = w.locks.trace.filter fun x => x.1 == n) ∧
        Exec (fun _ => 0) (order.map Prod.snd) w.locks.value := by
  have hSome : (run (step (writersFirst true)) (new (fun _ => true) fun _ => 0) crossing).isSome :=
    rfl
  obtain ⟨w, hRun⟩ := Option.isSome_iff_exists.mp hSome
  exact ⟨w, hRun, serializable (writersFirst_lawful true) hRun⟩

end Step

end SyncWorld

end Emyu
