import Emyu.World.Sync

/-! Poisoned states of the thread-safe world: which panics poison a state, and what is left of the
state afterwards. -/

namespace Emyu.SyncWorld

open RefCell RwLock Runs Serial

variable {S : Type} [DecidableEq S] {Val : S → Type} {impl : Impl} {w w' : SyncWorld S Val}
  {a : Action S Val} {as bs : List (Action S Val)} {present : S → Bool} {init : ∀ σ, Val σ} {σ : S}
  {k : Nat}

/-- The action unwinds the task: a panic of its own, a state that the world lacks, the `unwrap` of a
lock that is poisoned, or the panic of another task on the thread that drops it. -/
def Unwinds (impl : Impl) (w : SyncWorld S Val) (k : Nat) : Action S Val → Prop
  | .panics j => j = k
  | .call j a σ => j = k ∧ w.present σ = false ∧ a.isTry = false
  | .lock j _ σ => j = k ∧ w.present σ = false
  | .granted j => j = k ∧ w.refused impl k = true
  | .dropTask j panicking => j = k ∧ panicking = true
  | _ => False

/-- The action unwinds a task that can write to the state. -/
def UnwindsWriter (impl : Impl) (σ : S) (w : SyncWorld S Val) (a : Action S Val) : Prop :=
  ∃ g ∈ w.locks.guards, g.cell = σ ∧ g.borrow = .exclusive ∧ w.Unwinds impl g.holder a

omit [DecidableEq S] in
/-- The locks see the same holders unwound. -/
theorem unwinds_iff (h : w.locks.Single) :
    w.Unwinds impl k a ↔ ∃ b, w.lockAction a = some b ∧ w.locks.Unwinds impl k b := by
  cases a with
  | call j a σ =>
    cases hPresent : w.present σ <;> cases hTry : a.isTry <;>
      simp [Unwinds, lockAction, Locks.Unwinds, hPresent, hTry]
  | lock j b σ =>
    cases hPresent : w.present σ <;> simp [Unwinds, lockAction, Locks.Unwinds, hPresent]
  | granted j => simp [Unwinds, lockAction, Locks.Unwinds, refused_iff h]
  | closureReturns j =>
    refine iff_of_false (fun hNo => hNo) ?_
    rintro ⟨b, hAction, hUnwinds⟩
    obtain ⟨f, -, hDrop⟩ := Option.bind_eq_some_iff.mp hAction
    simp only [Option.ite_none_left_eq_some] at hDrop
    obtain ⟨n, -, rfl⟩ := Option.map_eq_some_iff.mp hDrop.2
    exact hUnwinds
  | futureReady j =>
    refine iff_of_false (fun hNo => hNo) ?_
    rintro ⟨b, hAction, hUnwinds⟩
    obtain ⟨f, -, hDrop⟩ := Option.bind_eq_some_iff.mp hAction
    obtain ⟨n, -, rfl⟩ := Option.map_eq_some_iff.mp hDrop
    exact hUnwinds
  | _ => simp [Unwinds, lockAction, Locks.Unwinds]

omit [DecidableEq S] in
theorem unwindsWriter_iff (h : w.locks.Single) : w.UnwindsWriter impl σ a ↔
    ∃ b, w.lockAction a = some b ∧ w.locks.UnwindsWriter impl σ b := by
  simp only [UnwindsWriter, Locks.UnwindsWriter, unwinds_iff h]
  constructor
  · rintro ⟨g, hg, hCell, hExclusive, b, hAction, hUnwinds⟩
    exact ⟨b, hAction, g, hg, hCell, hExclusive, hUnwinds⟩
  · rintro ⟨b, hAction, g, hg, hCell, hExclusive, hUnwinds⟩
    exact ⟨g, hg, hCell, hExclusive, b, hAction, hUnwinds⟩

theorem step_poisoned (h : w.locks.Single) (hStep : w.step impl a = some w') :
    w'.locks.poisoned σ = true ↔
      w.locks.poisoned σ = true ∨ impl.poisons = true ∧ w.UnwindsWriter impl σ a := by
  rw [unwindsWriter_iff h]
  rcases step_locks hStep with ⟨hSame, hNone⟩ | ⟨b, hAction, hLocks⟩
  · simp [hSame, hNone]
  · rw [h.poisoned (Locks.step_move hLocks)]
    simp [hAction]

theorem step_single (h : w.locks.Single) (hStep : w.step impl a = some w') : w'.locks.Single :=
  keep_locks (fun _ _ _ h hStep => h.move (Locks.step_move hStep)) h hStep

/-- In every run of any number of tasks, a state is poisoned exactly if the locks are `std`'s and
some step unwound a task that had the state locked for writing. -/
theorem poisoned_iff (hRun : run (step impl) (new present init) as = some w) :
    w.locks.poisoned σ = true ↔ Sometime (step impl)
      (fun m a => impl.poisons = true ∧ m.UnwindsWriter impl σ a) (new present init) as :=
  gained_iff_sometime (fun m => m.locks.poisoned σ = true)
    (fun m : SyncWorld S Val => m.locks.Single) (fun _ _ _ => step_single)
    (fun _ _ _ => step_poisoned) (.new init) Bool.false_ne_true hRun

/-- A writer that awaits its future is dropped by a thread that panics, and a reader of the state
comes after it. -/
def droppedWriter : List (Action Unit fun _ => Nat) :=
  [.call 0 .tryGetMutAsync (), .granted 0, .write 0 () (· + 1), .closureReturns 0,
    .dropTask 0 true, .call 1 .get (), .granted 1]

theorem poisoned_iff_dropped : ∃ w,
    run (step (readersFirst true)) (new (fun _ => true) fun _ => 0) droppedWriter = some w ∧
      (w.locks.poisoned () = true ↔ Sometime (step (readersFirst true))
        (fun m a => (readersFirst true).poisons = true ∧
          m.UnwindsWriter (readersFirst true) () a)
        (new (fun _ => true) fun _ => 0) droppedWriter) := by
  have hSome : (run (step (readersFirst true)) (new (fun _ => true) fun _ => 0)
      droppedWriter).isSome := rfl
  obtain ⟨w, hRun⟩ := Option.isSome_iff_exists.mp hSome
  exact ⟨w, hRun, poisoned_iff hRun⟩

theorem run_sound (hLawful : impl.Lawful)
    (hRun : run (step impl) (new present init) as = some w) : w.locks.Sound impl init :=
  run_locks (fun _ _ _ h hStep => h.move hLawful (Locks.step_move hStep)) (.new impl init) hRun

/-- Once a state is poisoned, whatever the tasks do, it stays poisoned, its value stays what the
panicking writer left, no access is made to it, and nobody gets a guard on it. -/
theorem dead_of_poisoned (hLawful : impl.Lawful)
    (hRun : run (step impl) (new present init) as = some w)
    (hPoisoned : w.locks.poisoned σ = true) (hLater : run (step impl) w bs = some w') :
    w'.locks.poisoned σ = true ∧ w'.locks.value σ = w.locks.value σ ∧
      w'.locks.accesses σ = w.locks.accesses σ ∧ ∀ g ∈ w'.locks.guards, g.cell ≠ σ := by
  have hDead : w'.locks.Dead impl init σ (w.locks.value σ) (w.locks.accesses σ) :=
    run_locks (fun _ _ _ h hStep => h.move hLawful (Locks.step_move hStep))
      ⟨run_sound hLawful hRun, hPoisoned, rfl, rfl⟩ hLater
  exact ⟨hDead.poisoned, hDead.value_eq, hDead.accesses_eq,
    hDead.sound.isSealed.free σ hDead.poisoned⟩

/-- A writer panics in its closure, and a reader of the state comes after it. -/
def panickingWriter : List (Action Unit fun _ => Nat) :=
  [.call 0 .getMut (), .granted 0, .write 0 () (· + 1), .panics 0, .call 1 .get (), .granted 1]

theorem dead_of_poisoned_writer : ∃ w w',
    run (step (readersFirst true)) (new (fun _ => true) fun _ => 0) panickingWriter = some w ∧
      run (step (readersFirst true)) w [.call 2 .getMut (), .granted 2] = some w' ∧
      w'.locks.poisoned () = true ∧ w'.locks.value () = w.locks.value () ∧
      w'.locks.accesses () = w.locks.accesses () ∧ ∀ g ∈ w'.locks.guards, g.cell ≠ () := by
  have hSome : (run (step (readersFirst true)) (new (fun _ => true) fun _ => 0)
      (panickingWriter ++ [.call 2 .getMut (), .granted 2])).isSome := rfl
  obtain ⟨w', hBoth⟩ := Option.isSome_iff_exists.mp hSome
  obtain ⟨w, hRun, hLater⟩ := run_append_eq_some.mp hBoth
  have hPoisoned : w.locks.poisoned () = true := by
    have hKnown : (run (step (readersFirst true)) (new (fun _ => true) fun _ => 0)
      panickingWriter).map (fun w => w.locks.poisoned ()) = some true := rfl
    simpa [hRun] using hKnown
  exact ⟨w, w', hRun, hLater, dead_of_poisoned (readersFirst_lawful true) hRun hPoisoned hLater⟩

/-- A closure panics, a state that the world lacks is taken for granted, or a task is dropped by a
thread that panics. -/
def Panics (w : SyncWorld S Val) : Action S Val → Prop
  | .panics _ => True
  | .call _ a σ => w.present σ = false ∧ a.isTry = false
  | .lock _ _ σ => w.present σ = false
  | .dropTask _ panicking => panicking = true
  | _ => False

instance (w : SyncWorld S Val) : (a : Action S Val) → Decidable (w.Panics a)
  | .panics _ => isTrue trivial
  | .call _ a σ => inferInstanceAs (Decidable (w.present σ = false ∧ a.isTry = false))
  | .lock _ _ σ => inferInstanceAs (Decidable (w.present σ = false))
  | .dropTask _ panicking => inferInstanceAs (Decidable (panicking = true))
  | .granted _ | .read _ _ | .write _ _ _ | .dropGuard _ | .closureReturns _ | .futureReady _ =>
    isFalse id

omit [DecidableEq S] in
/-- Where no lock is poisoned, only a panic of somebody's own unwinds anybody. -/
theorem panics_of_unwinds (hClean : ∀ σ, w.locks.poisoned σ = false) (h : w.Unwinds impl k a) :
    w.Panics a := by
  cases a with
  | granted j =>
    obtain ⟨-, hRefused⟩ := h
    obtain ⟨r, -, hPoisoned⟩ := (Option.any_eq_true _ _).mp (Bool.and_eq_true_iff.mp hRefused).2
    rw [hClean] at hPoisoned
    cases hPoisoned
  | panics j => trivial
  | call j b σ => exact h.2
  | lock j b σ => exact h.2
  | dropTask j panicking => exact h.2
  | _ => exact h

/-- No lock is poisoned, so that `unwrap_lock!` finds every lock in order. -/
def Clean (w : SyncWorld S Val) : Prop := w.locks.Single ∧ ∀ σ, w.locks.poisoned σ = false

theorem Clean.step (h : w.Clean) (hCalm : ¬ w.Panics a) (hStep : w.step impl a = some w') :
    w'.Clean := by
  refine ⟨step_single h.1 hStep, fun σ => Bool.eq_false_iff.mpr fun hPoisoned => ?_⟩
  rcases (step_poisoned h.1 hStep).mp hPoisoned with hOld | ⟨-, g, -, -, -, hUnwinds⟩
  · rw [h.2 σ] at hOld
    cases hOld
  · exact hCalm (panics_of_unwinds h.2 hUnwinds)

/-- `unwrap_lock!` does not panic by itself: in a run in which no closure panics, no missing state
is taken for granted and no task is dropped by a thread that panics, nothing is unwound, and no lock
is ever poisoned, neither on the way nor at the end. -/
theorem never_unwinds (hQuiet : Every (step impl) (fun m a => ¬ m.Panics a) (new present init) as) :
    Every (step impl) (fun m a => (∀ σ, m.locks.poisoned σ = false) ∧ ∀ k, ¬ m.Unwinds impl k a)
        (new present init) as ∧
      ∀ w, run (step impl) (new present init) as = some w → ∀ σ, w.locks.poisoned σ = false := by
  have hNew : (new present init).Clean := ⟨.new init, fun _ => rfl⟩
  constructor
  · exact Every.of_invariant (fun m : SyncWorld S Val => m.Clean)
      (fun _ _ _ h hCalm hStep => h.step hCalm hStep)
      (fun _ _ h hCalm => ⟨h.2, fun _ hUnwinds => hCalm (panics_of_unwinds h.2 hUnwinds)⟩)
      hNew hQuiet
  · intro w hRun
    have hClean : w.Clean :=
      run_invariant_of (fun _ _ _ h hCalm hStep => h.step hCalm hStep) hNew hQuiet hRun
    exact hClean.2

theorem never_unwinds_crossing :
    Every (step (writersFirst true))
        (fun m a => (∀ σ, m.locks.poisoned σ = false) ∧ ∀ k, ¬ m.Unwinds (writersFirst true) k a)
        (new (fun _ => true) fun _ => 0) crossing ∧
      ∀ w, run (step (writersFirst true)) (new (fun _ => true) fun _ => 0) crossing = some w →
        ∀ σ, w.locks.poisoned σ = false :=
  never_unwinds (by decide)

end Emyu.SyncWorld
