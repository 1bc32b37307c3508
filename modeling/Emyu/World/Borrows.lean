import Emyu.World
import Mathlib.Data.List.Perm.Lattice

/-! Which runs of tasks on a world panic on a borrow: the flags count the guards of the calls that
are under way, and those that another task can meet are the ones held across an await. -/

namespace Emyu.World

open RefCell Runs

variable {S : Type} [DecidableEq S] {w w' : World S} {a : Action S} {as : List (Action S)}

/-- The flags count the guards, a task that is not being polled is at an await in every call it is
in, and only states that exist are borrowed. -/
structure Ok (w : World S) : Prop where
  counts : ∀ σ, Counts (w.flag σ) (guards σ w.frames)
  suspended : ∀ f ∈ w.frames, w.current ≠ some f.task → f.stage = .awaiting
  present : ∀ f ∈ w.frames, f.guard ≠ none → w.present f.state = true

/-- No closure accesses the state it was called with: the closures that run are the current
task's. -/
def Proper (w : World S) : Action S → Prop
  | .call _ σ => ∀ f ∈ w.frames, w.current = some f.task → f.stage = .closure → f.state ≠ σ
  | _ => True

/-- No future is awaited in a call that keeps a guard in the way of this access. -/
def Clear (w : World S) : Action S → Prop
  | .call a σ => ∀ f ∈ w.frames, f.stage = .awaiting →
      ∀ b ∈ guardOn σ f, b.conflicts a.borrow = false
  | _ => True

instance (w : World S) : (a : Action S) → Decidable (w.Proper a)
  | .call _ σ => inferInstanceAs (Decidable (∀ f ∈ w.frames, w.current = some f.task →
      f.stage = .closure → f.state ≠ σ))
  | .poll _ | .closureReturns | .futureReady | .pending | .dropTask _ => isTrue trivial

instance (w : World S) : (a : Action S) → Decidable (w.Clear a)
  | .call a σ => inferInstanceAs (Decidable (∀ f ∈ w.frames, f.stage = .awaiting →
      ∀ b ∈ guardOn σ f, b.conflicts a.borrow = false))
  | .poll _ | .closureReturns | .futureReady | .pending | .dropTask _ => isTrue trivial

/-- What a step can do, with the conditions it passed. -/
inductive Move (w : World S) : Action S → World S → Prop where
  | poll (k : Nat) : w.current = none → Move w (.poll k) { w with current := some k }
  | call (k : Nat) (a : Accessor) (σ : S) : w.current = some k →
      (a.isAsync && w.inClosure k) = false → Move w (.call a σ) (w.call k a σ)
  | awaits (k : Nat) (f : Frame S) : w.current = some k → w.top k = some f → f.stage = .closure →
      f.accessor.isAsync = true → Move w .closureReturns { w with
        frames := { f with stage := .awaiting } :: w.frames.eraseP fun f => f.task == k }
  | returns (k : Nat) (f : Frame S) : w.current = some k → w.top k = some f →
      f.stage = .closure → f.accessor.isAsync = false → Move w .closureReturns (w.pop k f)
  | ready (k : Nat) (f : Frame S) : w.current = some k → w.top k = some f →
      f.stage = .awaiting → Move w .futureReady (w.pop k f)
  | pending (k : Nat) : w.current = some k → w.inClosure k = false →
      Move w .pending { w with current := none }
  | dropTask (k : Nat) : w.current ≠ some k → Move w (.dropTask k) (w.unwind k)

theorem step_move (hStep : w.step a = some w') : Move w a w' := by
  cases a with
  | poll k =>
    simp only [World.step, Option.ite_none_right_eq_some, Option.some.injEq] at hStep
    obtain ⟨hNone, rfl⟩ := hStep
    exact .poll k hNone
  | call a σ =>
    obtain ⟨k, hCurrent, hCall⟩ := Option.bind_eq_some_iff.mp hStep
    simp only [Option.ite_none_left_eq_some, Option.some.injEq] at hCall
    obtain ⟨hAllowed, rfl⟩ := hCall
    exact .call k a σ hCurrent (Bool.eq_false_iff.mpr hAllowed)
  | closureReturns =>
    obtain ⟨k, hCurrent, hTask⟩ := Option.bind_eq_some_iff.mp hStep
    obtain ⟨f, hTop, hReturn⟩ := Option.bind_eq_some_iff.mp hTask
    simp only [Option.ite_none_right_eq_some] at hReturn
    obtain ⟨hStage, hReturn⟩ := hReturn
    split at hReturn
    next hAsync => cases hReturn; exact .awaits k f hCurrent hTop hStage hAsync
    next hSync =>
      cases hReturn
      exact .returns k f hCurrent hTop hStage (Bool.eq_false_iff.mpr hSync)
  | futureReady =>
    obtain ⟨k, hCurrent, hTask⟩ := Option.bind_eq_some_iff.mp hStep
    obtain ⟨f, hTop, hReady⟩ := Option.bind_eq_some_iff.mp hTask
    simp only [Option.ite_none_right_eq_some, Option.some.injEq] at hReady
    obtain ⟨hStage, rfl⟩ := hReady
    exact .ready k f hCurrent hTop hStage
  | pending =>
    obtain ⟨k, hCurrent, hPending⟩ := Option.bind_eq_some_iff.mp hStep
    simp only [Option.ite_none_left_eq_some, Option.some.injEq] at hPending
    obtain ⟨hAwaits, rfl⟩ := hPending
    exact .pending k hCurrent (Bool.eq_false_iff.mpr hAwaits)
  | dropTask k =>
    simp only [World.step, Option.ite_none_left_eq_some, Option.some.injEq] at hStep
    obtain ⟨hOther, rfl⟩ := hStep
    exact .dropTask k hOther

theorem guardOn_eq_some {σ : S} {f : Frame S} {b : Borrow} :
    guardOn σ f = some b ↔ f.state = σ ∧ f.guard = some b := by
  simp [guardOn]

theorem mem_guards {σ : S} {frames : List (Frame S)} {b : Borrow} :
    b ∈ guards σ frames ↔ ∃ f ∈ frames, guardOn σ f = some b :=
  List.mem_filterMap

theorem perm_eraseP {α : Type*} {p : α → Bool} {l : List α} {x : α} (h : l.find? p = some x) :
    l.Perm (x :: l.eraseP p) := by
  induction l with
  | nil => cases h
  | cons y rest ih =>
    by_cases hy : p y = true
    · obtain rfl : y = x := by simpa [List.find?_cons, hy] using h
      rw [List.eraseP_cons_of_pos hy]
    · have hRest : rest.find? p = some x := by simpa [List.find?_cons, hy] using h
      rw [List.eraseP_cons_of_neg hy]
      exact ((ih hRest).cons y).trans (.swap x y _)

/-- Calls that end give back what they had borrowed. -/
theorem Ok.release (h : w.Ok) {done rest : List (Frame S)} (hp : w.frames.Perm (done ++ rest))
    {current : Option Nat} {conflicts : List (Nat × S)}
    (hSuspended : ∀ f ∈ rest, current ≠ some f.task → f.stage = .awaiting) :
    Ok { w.release done rest with current := current, conflicts := conflicts } where
  counts σ := by
    have hCounts := (h.counts σ).perm (hp.filterMap (guardOn σ))
    rw [List.filterMap_append] at hCounts
    exact hCounts.releaseAll
  suspended := hSuspended
  present f hMem := h.present f (hp.mem_iff.mpr (List.mem_append_right _ hMem))

theorem Ok.pop (h : w.Ok) {k : Nat} {f : Frame S} (hTop : w.top k = some f) : (w.pop k f).Ok := by
  refine h.release (perm_eraseP hTop) fun g hMem => ?_
  exact h.suspended g (List.mem_of_mem_eraseP hMem)

theorem Ok.unwind (h : w.Ok) {k : Nat} {current : Option Nat} {conflicts : List (Nat × S)}
    (hCurrent : current = w.current ∨ w.current = some k) :
    Ok { w.unwind k with current := current, conflicts := conflicts } := by
  refine h.release (List.filter_append_perm _ _).symm fun f hMem hOther => ?_
  obtain ⟨hFrame, hTask⟩ := List.mem_filter.mp hMem
  refine h.suspended f hFrame ?_
  rcases hCurrent with rfl | hk
  · exact hOther
  · rw [hk]
    rintro ⟨⟩
    simp at hTask

theorem Ok.push (h : w.Ok) {f : Frame S} (hCurrent : w.current = some f.task)
    (hPresent : f.guard ≠ none → w.present f.state = true) {flag : S → Int}
    (hCounts : ∀ σ, Counts (flag σ) (guards σ (f :: w.frames))) :
    Ok { w.push f with flag := flag } where
  counts := hCounts
  suspended g hMem hOther := by
    rcases List.mem_cons.mp hMem with rfl | hMem
    · exact (hOther hCurrent).elim
    · exact h.suspended g hMem hOther
  present g hMem hGuard := by
    rcases List.mem_cons.mp hMem with rfl | hMem
    · exact hPresent hGuard
    · exact h.present g hMem hGuard

theorem Ok.call (h : w.Ok) {k : Nat} (hCurrent : w.current = some k) (a : Accessor) (σ : S) :
    (w.call k a σ).Ok := by
  unfold World.call
  split
  next hPresent =>
    split
    next flag hBorrow =>
      refine h.push hCurrent (fun _ => hPresent) fun τ => ?_
      by_cases hτ : τ = σ
      · subst hτ
        have hCounts := (h.counts τ).tryBorrow hBorrow
        simpa [guards, guardOn] using hCounts
      · simpa [guards, guardOn, hτ, Ne.symm hτ] using h.counts τ
    next => exact h.unwind (.inr hCurrent)
  next =>
    split
    next =>
      refine h.push hCurrent (fun hSome => (hSome rfl).elim) fun τ => ?_
      simpa [guards, guardOn] using h.counts τ
    next => exact h.unwind (.inr hCurrent)

/-- A closure of an _async accessor returns, and its guard stays. -/
theorem Ok.awaits (h : w.Ok) {k : Nat} {f : Frame S} (hTop : w.top k = some f) :
    Ok { w with
      frames := { f with stage := .awaiting } :: w.frames.eraseP fun f => f.task == k } where
  counts σ := (h.counts σ).perm ((perm_eraseP hTop).filterMap (guardOn σ))
  suspended g hMem hOther := by
    rcases List.mem_cons.mp hMem with rfl | hMem
    · rfl
    · exact h.suspended g (List.mem_of_mem_eraseP hMem) hOther
  present g hMem hGuard := by
    rcases List.mem_cons.mp hMem with rfl | hMem
    · exact h.present f (List.mem_of_find?_eq_some hTop) hGuard
    · exact h.present g (List.mem_of_mem_eraseP hMem) hGuard

/-- The poll of a task that is in no closure ends. -/
theorem Ok.pending (h : w.Ok) {k : Nat} (hCurrent : w.current = some k)
    (hAwaits : w.inClosure k = false) : Ok { w with current := none } where
  counts := h.counts
  present := h.present
  suspended f hMem _ := by
    by_cases hTask : w.current = some f.task
    · obtain rfl : k = f.task := Option.some.inj (hCurrent.symm.trans hTask)
      have hNotIn := List.any_eq_false.mp hAwaits f hMem
      cases hStage : f.stage with
      | awaiting => rfl
      | closure => simp [hStage] at hNotIn
    · exact h.suspended f hMem hTask

theorem Ok.move (h : w.Ok) (hMove : Move w a w') : w'.Ok := by
  cases hMove with
  | poll k hNone =>
    exact ⟨h.counts, fun f hMem _ => h.suspended f hMem (by simp [hNone]), h.present⟩
  | call k a σ hCurrent => exact h.call hCurrent a σ
  | awaits k f _ hTop => exact h.awaits hTop
  | returns k f _ hTop => exact h.pop hTop
  | ready k f _ hTop => exact h.pop hTop
  | pending k hCurrent hAwaits => exact h.pending hCurrent hAwaits
  | dropTask k => exact h.unwind (.inl rfl)

/-- The guards a proper access can meet are those held across an await. -/
theorem Ok.awaiting (h : w.Ok) {a : Accessor} {σ : S} (hProper : w.Proper (.call a σ))
    {f : Frame S} (hMem : f ∈ w.frames) {b : Borrow} (hGuard : guardOn σ f = some b) :
    f.stage = .awaiting := by
  by_cases hTask : w.current = some f.task
  · cases hStage : f.stage with
    | awaiting => rfl
    | closure => exact (hProper f hMem hTask hStage (guardOn_eq_some.mp hGuard).1).elim
  · exact h.suspended f hMem hTask

theorem Ok.clear_iff (h : w.Ok) {a : Accessor} {σ : S} (hProper : w.Proper (.call a σ)) :
    w.Clear (.call a σ) ↔ tryBorrow (w.flag σ) a.borrow ≠ none := by
  rw [ne_eq, (h.counts σ).tryBorrow_eq_none]
  constructor
  · rintro hClear ⟨b, hb, hConflict⟩
    obtain ⟨f, hMem, hGuard⟩ := mem_guards.mp hb
    have hNone := hClear f hMem (h.awaiting hProper hMem hGuard) b hGuard
    rw [hConflict] at hNone
    cases hNone
  · intro hNone f hMem _ b hGuard
    cases hConflict : b.conflicts a.borrow with
    | false => rfl
    | true => exact (hNone ⟨b, mem_guards.mpr ⟨f, hMem, hGuard⟩, hConflict⟩).elim

/-- A state that does not exist is not borrowed. -/
theorem Ok.clear_of_absent (h : w.Ok) {a : Accessor} {σ : S} (hAbsent : w.present σ ≠ true) :
    w.Clear (.call a σ) := by
  intro f hMem _ b hGuard
  obtain ⟨rfl, hSome⟩ := guardOn_eq_some.mp hGuard
  exact (hAbsent (h.present f hMem (by simp [hSome]))).elim

/-- A proper access panics on its borrow exactly if a guard in its way is held across an await. -/
theorem Ok.call_conflicts (h : w.Ok) {k : Nat} {a : Accessor} {σ : S}
    (hProper : w.Proper (.call a σ)) (hNone : w.conflicts = []) :
    (w.call k a σ).conflicts = [] ↔ w.Clear (.call a σ) := by
  unfold World.call
  split
  next =>
    rw [h.clear_iff hProper]
    split
    next flag hBorrow => simp [World.push, hNone, hBorrow]
    next hBorrow => simp [hBorrow]
  next hAbsent =>
    refine iff_of_true ?_ (h.clear_of_absent hAbsent)
    split
    next => exact hNone
    next => exact hNone

/-- Only an access can panic on a borrow. -/
theorem Move.conflicts (hMove : Move w a w') (hCall : ∀ b σ, a ≠ .call b σ) :
    w'.conflicts = w.conflicts := by
  cases hMove with
  | call k a σ => exact (hCall a σ rfl).elim
  | _ => rfl

theorem Ok.move_conflicts (h : w.Ok) (hProper : w.Proper a) (hNone : w.conflicts = [])
    (hMove : Move w a w') : w'.conflicts = [] ↔ w.Clear a := by
  cases a with
  | call a σ =>
    cases hMove
    exact h.call_conflicts hProper hNone
  | _ =>
    rw [hMove.conflicts (by simp)]
    exact iff_of_true hNone trivial

/-- A panic stays in the record. -/
theorem Move.conflicts_grow (hMove : Move w a w') (hNone : w'.conflicts = []) :
    w.conflicts = [] := by
  cases hMove with
  | call k a σ =>
    unfold World.call at hNone
    split at hNone
    · split at hNone
      · exact hNone
      · simp at hNone
    · split at hNone <;> exact hNone
  | _ => exact hNone

theorem Ok.new (present : S → Bool) : (new present).Ok :=
  ⟨fun _ => .nil, by simp [World.new], by simp [World.new]⟩

/-- In every run of any number of tasks in which no closure accesses the state it was called with,
no borrow panics exactly if no access finds a guard in its way that an _async accessor holds across
its await. -/
theorem no_conflict_iff (present : S → Bool) (hRun : run step (new present) as = some w)
    (hProper : Every step Proper (new present) as) :
    w.conflicts = [] ↔ Every step Clear (new present) as :=
  good_iff_every_of Ok (fun _ _ _ h hStep => h.move (step_move hStep))
    (fun _ _ _ h hProper hNone hStep => h.move_conflicts hProper hNone (step_move hStep))
    (fun _ _ _ hStep hNone => (step_move hStep).conflicts_grow hNone) (.new present) rfl hProper
    hRun

/-- Two tasks read one state, the second while the first awaits. -/
def twoReaders : List (Action Unit) :=
  [.poll 0, .call .getAsync (), .closureReturns, .pending, .poll 1, .call .get (), .closureReturns,
    .pending, .poll 0, .futureReady, .call .getMut (), .closureReturns]

theorem no_conflict_iff_readers : ∃ w, run step (new fun _ : Unit => true) twoReaders = some w ∧
    w.frames.length = 0 ∧ w.conflicts = [] := by
  have hRun : run step (new fun _ : Unit => true) twoReaders = some _ := rfl
  exact ⟨_, hRun, rfl, (no_conflict_iff _ hRun (by decide)).mpr (by decide)⟩

/-- A read in one task panics while another task is suspended inside `get_mut_async`: its guard
lives until the future is done. -/
theorem guard_lives_across_await : ¬ ∀ (as : List (Action Unit)) (w : World Unit),
    run step (new fun _ => true) as = some w → Every step Proper (new fun _ => true) as →
      w.conflicts = [] := by
  intro h
  have hNone := h [.poll 0, .call .getMutAsync (), .closureReturns, .pending, .poll 1,
    .call .get ()] _ rfl (by decide)
  cases hNone

end Emyu.World
