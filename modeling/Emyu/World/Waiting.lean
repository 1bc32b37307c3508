import Emyu.World.Sync

/-! Who waits in the thread-safe world: when tasks on threads of their own ask for states in an
order that goes up, every call returns. -/

namespace Emyu.SyncWorld

open RefCell RwLock Runs Serial

variable {S : Type} [DecidableEq S] {Val : S → Type} {impl : Impl} {w w' : SyncWorld S Val}
  {a : Action S Val} {as bs : List (Action S Val)} {present : S → Bool} {init : ∀ σ, Val σ} {σ : S}
  {k n : Nat} {f : Call} {rank : S → Nat}

/-- The actions that only finish what is under way. -/
def Finishing : Action S Val → Prop
  | .granted _ | .dropGuard _ | .closureReturns _ | .futureReady _ => True
  | _ => False

/-- What a step can do to the locks and the calls. -/
inductive Move (impl : Impl) (w : SyncWorld S Val) :
    Action S Val → Locks S Val → List Call → Prop where
  | ask (k : Nat) (a : World.Accessor) (σ : S) : w.present σ = true →
      w.locks.isWaiting k = false → Move impl w (.call k a σ)
        { w.locks with waiting := w.locks.waiting ++ [⟨k, σ, a.borrow⟩] }
        (⟨k, a, none, .locking⟩ :: w.calls)
  | askState (k : Nat) (b : Borrow) (σ : S) : w.present σ = true →
      w.locks.isWaiting k = false → Move impl w (.lock k b σ)
        { w.locks with waiting := w.locks.waiting ++ [⟨k, σ, b⟩] } w.calls
  | missing (k : Nat) (a : World.Accessor) (σ : S) : w.locks.isWaiting k = false →
      Move impl w (.call k a σ) w.locks (⟨k, a, none, .closure⟩ :: w.calls)
  | unwind (a : Action S Val) (k : Nat) (panicking : Bool) : ¬ Finishing a →
      w.locks.isWaiting k = false →
      Move impl w a (w.locks.leave impl k panicking) (w.others k)
  | refused (r : Request S) : r ∈ w.locks.waiting → Move impl w (.granted r.holder)
      ((w.locks.unqueue r.holder).leave impl r.holder true) (w.others r.holder)
  | granted (r : Request S) : r ∈ w.locks.waiting → Move impl w (.granted r.holder)
      ((w.locks.unqueue r.holder).push r) (w.enter r.holder)
  | access (a : Action S Val) (value : ∀ σ, Val σ) (trace : List (Nat × Access S Val)) :
      ¬ Finishing a → Move impl w a { w.locks with value := value, trace := trace } w.calls
  | dropGuard (g : Guard S) : g ∈ w.locks.guards → (∀ f ∈ w.calls, f.guard ≠ some g.number) →
      Move impl w (.dropGuard g.number)
        { w.locks with guards := w.locks.guards.filter fun k => k.number != g.number } w.calls
  | awaits (k : Nat) (f : Call) : w.top k = some f → f.place = .closure →
      Move impl w (.closureReturns k) w.locks ({ f with place := .awaiting } :: w.outer k)
  | returns (a : Action S Val) (k : Nat) (f : Call) : w.top k = some f → f.guard = none →
      Move impl w a w.locks (w.outer k)
  | returnsGuard (a : Action S Val) (k : Nat) (f : Call) (g : Guard S) : w.top k = some f →
      f.guard = some g.number → g ∈ w.locks.guards → Move impl w a
        { w.locks with guards := w.locks.guards.filter fun k => k.number != g.number } (w.outer k)

theorem returns_move {locks : Locks S Val} (hTop : w.top k = some f)
    (hLocks : w.locksAfter impl (f.guard.map .drop) = some locks) :
    Move impl w a locks (w.outer k) := by
  cases hGuard : f.guard with
  | none =>
    obtain rfl : w.locks = locks := by simpa [hGuard, locksAfter] using hLocks
    exact .returns a k f hTop hGuard
  | some n =>
    have hStep : w.locks.step impl (.drop n) = some locks := by
      simpa [hGuard, locksAfter] using hLocks
    cases Locks.step_move hStep with
    | drop g hMem => exact .returnsGuard a k f g hTop hGuard hMem

omit [DecidableEq S] in
theorem top_of_topAt {p : Place} (h : w.topAt k p = true) :
    ∃ f, w.top k = some f ∧ f.place = p := by
  simpa [topAt, Option.any_eq_true] using h

theorem step_move (hSingle : w.locks.Single) (hStep : w.step impl a = some w') :
    ∃ locks calls, Move impl w a locks calls ∧ { w with locks := locks, calls := calls } = w' := by
  obtain ⟨hEnabled, locks, hLocks, rfl⟩ := step_eq_some.mp hStep
  refine ⟨locks, _, ?_, rfl⟩
  cases a with
  | call k a σ =>
    have hIdle : w.locks.isWaiting k = false := by
      simpa using (Bool.and_eq_true_iff.mp hEnabled).1
    cases hPresent : w.present σ with
    | true =>
      simp only [lockAction, callsAfter, hPresent, if_true, locksAfter] at hLocks ⊢
      cases Locks.step_move hLocks
      exact .ask k a σ hPresent hIdle
    | false =>
      cases hTry : a.isTry with
      | true =>
        obtain rfl : w.locks = locks := by
          simpa [lockAction, hPresent, hTry, locksAfter] using hLocks
        simp only [callsAfter, hPresent, hTry, if_true, Bool.false_eq_true, if_false]
        exact .missing k a σ hIdle
      | false =>
        simp only [lockAction, callsAfter, hPresent, hTry, Bool.false_eq_true, if_false,
          locksAfter] at hLocks ⊢
        cases Locks.step_move hLocks
        exact .unwind _ k true id hIdle
  | lock k b σ =>
    cases hPresent : w.present σ with
    | true =>
      simp only [lockAction, callsAfter, hPresent, if_true, locksAfter] at hLocks ⊢
      cases Locks.step_move hLocks with
      | request r hIdle => exact .askState k b σ hPresent hIdle
    | false =>
      simp only [lockAction, callsAfter, hPresent, Bool.false_eq_true, if_false,
        locksAfter] at hLocks ⊢
      cases Locks.step_move hLocks with
      | leave k p hIdle => exact .unwind _ k true id hIdle
  | granted k =>
    have hGrant : w.locks.step impl (.grant k) = some locks := hLocks
    simp only [callsAfter]
    cases Locks.step_move hGrant with
    | grant r hMem _ hClean =>
      have hEntered : w.refused impl r.holder = false := by
        refine Bool.eq_false_iff.mpr fun hRefused => ?_
        obtain ⟨hPoisons, q, hq, hHolder, hPoisoned⟩ := (refused_iff hSingle).mp hRefused
        obtain rfl := hSingle.eq hq hMem hHolder
        simp [hPoisons, hPoisoned] at hClean
      rw [hEntered]
      exact .granted r hMem
    | refuse r hMem hPoisons hPoisoned =>
      rw [(refused_iff hSingle).mpr ⟨hPoisons, r, hMem, rfl, hPoisoned⟩]
      exact .refused r hMem
  | read n σ =>
    have hAct : w.locks.step impl (.read n σ) = some locks := hLocks
    cases Locks.step_move hAct with
    | read g => exact .access _ w.locks.value _ id
  | write n σ f =>
    have hAct : w.locks.step impl (.write n σ f) = some locks := hLocks
    cases Locks.step_move hAct with
    | write g f => exact .access _ _ _ id
  | dropGuard n =>
    have hAct : w.locks.step impl (.drop n) = some locks := hLocks
    cases Locks.step_move hAct with
    | drop g hMem =>
      refine .dropGuard g hMem fun f hf => ?_
      simpa using List.all_eq_true.mp hEnabled f hf
  | closureReturns k =>
    obtain ⟨f, hTop, hPlace⟩ := top_of_topAt (Bool.and_eq_true_iff.mp hEnabled).2
    simp only [lockAction, callsAfter, hTop, Option.bind_some] at hLocks ⊢
    split at hLocks
    next hAsync =>
      obtain rfl : w.locks = locks := by simpa [locksAfter] using hLocks
      rw [if_pos hAsync]
      exact .awaits k f hTop hPlace
    next hSync =>
      rw [if_neg hSync]
      exact returns_move hTop hLocks
  | futureReady k =>
    obtain ⟨f, hTop, -⟩ := top_of_topAt (Bool.and_eq_true_iff.mp hEnabled).2
    simp only [lockAction, hTop, Option.bind_some] at hLocks
    exact returns_move hTop hLocks
  | panics k =>
    have hAct : w.locks.step impl (.leave k true) = some locks := hLocks
    cases Locks.step_move hAct with
    | leave k p hIdle => exact .unwind _ k true id hIdle
  | dropTask k panicking =>
    have hAct : w.locks.step impl (.leave k panicking) = some locks := hLocks
    cases Locks.step_move hAct with
    | leave k p hIdle => exact .unwind _ k panicking id hIdle

/-! ### How the calls nest -/

/-- An inner and an outer call: they have guards of their own, and the outer call of a task waits
for nothing. -/
def Apart (f e : Call) : Prop :=
  (∀ n, f.guard = some n → e.guard ≠ some n) ∧ (f.task = e.task → e.place ≠ .locking)

/-- The guards of the calls are out, and a call that is at its lock makes its task wait. -/
structure Nests (locks : Locks S Val) (calls : List Call) : Prop where
  out : ∀ f ∈ calls, ∀ n, f.guard = some n → ∃ g ∈ locks.guards, g.number = n ∧ g.holder = f.task
  apart : calls.Pairwise Apart
  locking : ∀ f ∈ calls, f.place = .locking → locks.isWaiting f.task = true

variable {locks locks' : Locks S Val} {calls calls' : List Call}

omit [DecidableEq S] in
/-- The innermost call of a task among the others. -/
theorem top_split (hTop : w.top k = some f) : f.task = k ∧ ∃ before after,
    w.calls = before ++ f :: after ∧ w.outer k = before ++ after ∧ ∀ e ∈ before, e.task ≠ k := by
  obtain ⟨hTask, before, after, hCalls, hBefore⟩ := List.find?_eq_some_iff_append.mp hTop
  have hTask : f.task = k := by simpa [ofTask] using hTask
  refine ⟨hTask, before, after, hCalls, ?_, fun e he => by simpa [ofTask] using hBefore e he⟩
  have hNone : ∀ e ∈ before, ¬ ofTask k e = true := fun e he => by simpa using hBefore e he
  rw [outer, hCalls, List.eraseP_append_right _ hNone, List.eraseP_cons_of_pos]
  simp [ofTask, hTask]

omit [DecidableEq S] in
theorem outer_sublist : (w.outer k).Sublist w.calls := List.eraseP_sublist

omit [DecidableEq S] in
theorem others_sublist : (w.others k).Sublist w.calls := List.filter_sublist

omit [DecidableEq S] in
theorem mem_calls (hTop : w.top k = some f) {e : Call} (he : e ∈ w.calls) :
    e = f ∨ e ∈ w.outer k := by
  obtain ⟨-, before, after, hCalls, hOuter, -⟩ := top_split hTop
  rw [hCalls, List.mem_append, List.mem_cons] at he
  rw [hOuter, List.mem_append]
  tauto

omit [DecidableEq S] in
theorem top_of_mem {e : Call} (he : e ∈ w.calls) : ∃ f, w.top e.task = some f := by
  have hSome : (w.top e.task).isSome := List.find?_isSome.mpr ⟨e, he, by simp [ofTask]⟩
  exact Option.isSome_iff_exists.mp hSome

omit [DecidableEq S] in
/-- The other calls have other guards than the innermost call of a task, and those of the task
wait for nothing. -/
theorem Nests.outer_apart (h : Nests locks w.calls) (hTop : w.top k = some f) {e : Call}
    (he : e ∈ w.outer k) :
    (∀ n, f.guard = some n → e.guard ≠ some n) ∧ (e.task = k → e.place ≠ .locking) := by
  obtain ⟨rfl, before, after, hCalls, hOuter, hBefore⟩ := top_split hTop
  have hApart := h.apart
  rw [hCalls] at hApart
  obtain ⟨-, hTail, hCross⟩ := List.pairwise_append.mp hApart
  rw [hOuter] at he
  rcases List.mem_append.mp he with he | he
  · refine ⟨fun n hf hEq => ?_, fun hTask => (hBefore e he hTask).elim⟩
    exact (hCross e he f (List.mem_cons_self ..)).1 n hEq hf
  · have hPair := (List.pairwise_cons.mp hTail).1 e he
    exact ⟨hPair.1, fun hTask => hPair.2 hTask.symm⟩

omit [DecidableEq S] in
/-- A call that is at its lock is the innermost of its task. -/
theorem Nests.top_of_locking (h : Nests locks w.calls) {e : Call} (he : e ∈ w.calls)
    (hPlace : e.place = .locking) : w.top e.task = some e := by
  obtain ⟨f, hTop⟩ := top_of_mem he
  rcases mem_calls hTop he with rfl | hOuter
  · exact hTop
  · exact ((h.outer_apart hTop hOuter).2 rfl hPlace).elim

omit [DecidableEq S] in
/-- Calls end, and other guards than those of the calls that go on are dropped. -/
theorem Nests.mono (h : Nests locks calls) (hSub : calls'.Sublist calls)
    (hOut : ∀ f ∈ calls', ∀ g ∈ locks.guards, f.guard = some g.number → g.holder = f.task →
      g ∈ locks'.guards)
    (hWaiting : ∀ f ∈ calls', locks.isWaiting f.task = true → locks'.isWaiting f.task = true) :
    Nests locks' calls' where
  out f hf n hGuard := by
    obtain ⟨g, hg, rfl, hHolder⟩ := h.out f (hSub.subset hf) n hGuard
    exact ⟨g, hOut f hf g hg hGuard hHolder, rfl, hHolder⟩
  apart := h.apart.sublist hSub
  locking f hf hPlace := hWaiting f hf (h.locking f (hSub.subset hf) hPlace)

omit [DecidableEq S] in
/-- One more innermost call. -/
theorem Nests.cons (h : Nests locks calls) (hApart : ∀ e ∈ calls, Apart f e)
    (hOut : ∀ n, f.guard = some n → ∃ g ∈ locks.guards, g.number = n ∧ g.holder = f.task)
    (hLocking : f.place = .locking → locks.isWaiting f.task = true) : Nests locks (f :: calls) where
  out e he := by
    rcases List.mem_cons.mp he with rfl | he
    · exact hOut
    · exact h.out e he
  apart := List.pairwise_cons.mpr ⟨hApart, h.apart⟩
  locking e he := by
    rcases List.mem_cons.mp he with rfl | he
    · exact hLocking
    · exact h.locking e he

omit [DecidableEq S] in
theorem Nests.apart_new (h : Nests locks calls) {p : Place} {b : World.Accessor}
    (hIdle : locks.isWaiting k = false) : ∀ e ∈ calls, Apart ⟨k, b, none, p⟩ e := by
  refine fun e he => ⟨by simp, fun hTask hPlace => ?_⟩
  have hWaits := h.locking e he hPlace
  rw [← hTask, hIdle] at hWaits
  cases hWaits

omit [DecidableEq S] in
theorem isWaiting_append {r : Request S} (h : locks.isWaiting k = true) :
    Locks.isWaiting { locks with waiting := locks.waiting ++ [r] } k = true := by
  simp only [Locks.isWaiting, List.any_append, Bool.or_eq_true]
  exact .inl h

omit [DecidableEq S] in
theorem isWaiting_unqueue {j : Nat} (hOther : k ≠ j) :
    (locks.unqueue j).isWaiting k = locks.isWaiting k := by
  simp only [Locks.isWaiting, Locks.unqueue, List.any_filter]
  congr 1
  funext r
  by_cases hHolder : r.holder = k <;> simp [hHolder, hOther]

omit [DecidableEq S] in
theorem mem_others {e : Call} : e ∈ w.others k ↔ e ∈ w.calls ∧ e.task ≠ k := by
  simp [others, ofTask]

/-- A task is unwound, or dropped: its calls and its guards go. -/
theorem Nests.unwind (h : Nests w.locks w.calls) {panicking : Bool}
    (hGuards : locks.guards = w.locks.guards)
    (hWaiting : ∀ j, j ≠ k → locks.isWaiting j = w.locks.isWaiting j) :
    Nests (locks.leave impl k panicking) (w.others k) := by
  refine h.mono others_sublist (fun f hf g hg _ hHolder => ?_) fun f hf hWaits => ?_
  · refine List.mem_filter.mpr ⟨hGuards ▸ hg, ?_⟩
    simpa [hHolder] using (mem_others.mp hf).2
  · exact (hWaiting f.task (mem_others.mp hf).2).trans hWaits

omit [DecidableEq S] in
/-- The innermost call of a task, somewhere else. -/
theorem Nests.replace (h : Nests locks (w.outer k)) (hOld : Nests w.locks w.calls)
    (hTop : w.top k = some f) {guard : Option Nat} {p : Place} (hPlace : p ≠ .locking)
    (hOther : ∀ e ∈ w.outer k, ∀ n, guard = some n → e.guard ≠ some n)
    (hOut : ∀ n, guard = some n → ∃ g ∈ locks.guards, g.number = n ∧ g.holder = f.task) :
    Nests locks ({ f with guard := guard, place := p } :: w.outer k) := by
  refine h.cons (fun e he => ⟨hOther e he, fun hTask => ?_⟩) hOut fun hLocking =>
    (hPlace hLocking).elim
  exact (hOld.outer_apart hTop he).2 (hTask.symm.trans (top_split hTop).1)

/-- The lock of a call, or of a guard of a `State`, is granted. -/
theorem Nests.granted (h : Nests w.locks w.calls) (hOk : w.locks.Ok init) {r : Request S} :
    Nests ((w.locks.unqueue r.holder).push r) (w.enter r.holder) := by
  -- the calls that do not wait for this lock wait as before
  have hRest : ∀ calls : List Call, calls.Sublist w.calls →
      (∀ e ∈ calls, e.task = r.holder → e.place ≠ .locking) →
      Nests ((w.locks.unqueue r.holder).push r) calls := by
    intro calls hSub hFree
    refine ⟨fun e he n hGuard => ?_, h.apart.sublist hSub, fun e he hPlace => ?_⟩
    · obtain ⟨g, hg, hNumber, hHolder⟩ := h.out e (hSub.subset he) n hGuard
      exact ⟨g, List.mem_append_left _ hg, hNumber, hHolder⟩
    · have hNe : e.task ≠ r.holder := fun hTask => hFree e he hTask hPlace
      exact (isWaiting_unqueue hNe).trans (h.locking e (hSub.subset he) hPlace)
  unfold enter
  split
  next f hTop =>
    have hTask := (top_split hTop).1
    split
    next hLocking =>
      refine (hRest _ outer_sublist fun e he => (h.outer_apart hTop he).2).replace h hTop (by simp)
        (fun e he n hNew hGuard => ?_) fun n hNew => ?_
      · obtain rfl : w.locks.taken = n := by simpa using hNew
        obtain ⟨g, hg, hNumber, -⟩ := h.out e (outer_sublist.subset he) _ hGuard
        exact Nat.lt_irrefl _ (hNumber ▸ hOk.numbers g hg)
      · obtain rfl : w.locks.taken = n := by simpa using hNew
        exact ⟨_, List.mem_append_right _ (List.mem_singleton.mpr rfl), rfl, hTask.symm⟩
    next hElse =>
      refine hRest _ (.refl _) fun e he hSame hPlace => ?_
      have hTop' := h.top_of_locking he hPlace
      rw [hSame, hTop] at hTop'
      exact hElse (Option.some.inj hTop' ▸ hPlace)
  next hNone =>
    refine hRest _ (.refl _) fun e he hSame _ => ?_
    obtain ⟨f, hTop⟩ := top_of_mem he
    rw [hSame, hNone] at hTop
    cases hTop

theorem Nests.move (h : Nests w.locks w.calls) (hOk : w.locks.Ok init)
    (hMove : Move impl w a locks calls) : Nests locks calls := by
  cases hMove with
  | ask k b σ _ hIdle =>
    have hGrown : Nests { w.locks with waiting := w.locks.waiting ++ [⟨k, σ, b.borrow⟩] } w.calls :=
      h.mono (.refl _) (fun _ _ g hg _ _ => hg) fun _ _ => isWaiting_append
    refine hGrown.cons (h.apart_new hIdle) (by simp) fun _ => ?_
    simp [Locks.isWaiting]
  | askState k b σ =>
    exact h.mono (.refl _) (fun _ _ g hg _ _ => hg) fun _ _ => isWaiting_append
  | missing k b σ hIdle => exact h.cons (h.apart_new hIdle) (by simp) (by simp)
  | unwind a k panicking => exact h.unwind rfl fun _ _ => rfl
  | refused r => exact h.unwind rfl fun j hOther => isWaiting_unqueue hOther
  | granted r => exact h.granted hOk
  | access => exact h.mono (.refl _) (fun _ _ g hg _ _ => hg) fun _ _ hWaits => hWaits
  | dropGuard g hg hFree =>
    refine h.mono (.refl _) (fun f hf k hk hGuard _ => ?_) fun _ _ hWaits => hWaits
    refine List.mem_filter.mpr ⟨hk, ?_⟩
    have hNe : k.number ≠ g.number := fun hEq => hFree f hf (hEq ▸ hGuard)
    simpa using hNe
  | awaits k f hTop =>
    have hOuter : Nests w.locks (w.outer k) :=
      h.mono outer_sublist (fun _ _ g hg _ _ => hg) fun _ _ hWaits => hWaits
    exact hOuter.replace h hTop (by simp) (fun e he => (h.outer_apart hTop he).1)
      (h.out f (List.mem_of_find?_eq_some hTop))
  | returns a k f hTop =>
    exact h.mono outer_sublist (fun _ _ g hg _ _ => hg) fun _ _ hWaits => hWaits
  | returnsGuard a k f g hTop hGuard hg =>
    refine h.mono outer_sublist (fun e he k hk hOwn _ => ?_) fun _ _ hWaits => hWaits
    refine List.mem_filter.mpr ⟨hk, ?_⟩
    have hNe : k.number ≠ g.number := fun hEq =>
      (h.outer_apart hTop he).1 g.number hGuard (hEq ▸ hOwn)
    simpa using hNe

/-! ### Everybody gets through -/

/-- Whoever asks for a state has guards of states of a smaller rank only. -/
def Climbing (rank : S → Nat) (w : SyncWorld S Val) : Action S Val → Prop
  | .call k _ σ | .lock k _ σ =>
    w.present σ = true → ∀ g ∈ w.locks.guards, g.holder = k → rank g.cell < rank σ
  | _ => True

instance (w : SyncWorld S Val) : (a : Action S Val) → Decidable (w.Climbing rank a)
  | .call k _ σ | .lock k _ σ => inferInstanceAs (Decidable
      (w.present σ = true → ∀ g ∈ w.locks.guards, g.holder = k → rank g.cell < rank σ))
  | .granted _ | .read _ _ | .write _ _ _ | .dropGuard _ | .closureReturns _ | .futureReady _
  | .panics _ | .dropTask _ _ => isTrue trivial

omit [DecidableEq S] in
theorem climbing_locks {b : RwLock.Action S Val} (h : w.Climbing rank a)
    (hAction : w.lockAction a = some b) : w.locks.Climbing rank b := by
  cases b with
  | request r =>
    cases a with
    | call k c σ =>
      simp only [lockAction] at hAction
      split at hAction
      next hPresent =>
        cases hAction
        exact h hPresent
      next => split at hAction <;> cases hAction
    | lock k c σ =>
      simp only [lockAction] at hAction
      split at hAction
      next hPresent =>
        cases hAction
        exact h hPresent
      next => cases hAction
    | closureReturns k =>
      obtain ⟨f, -, hDrop⟩ := Option.bind_eq_some_iff.mp hAction
      split at hDrop
      next => cases hDrop
      next =>
        obtain ⟨n, -, hNo⟩ := Option.map_eq_some_iff.mp hDrop
        cases hNo
    | futureReady k =>
      obtain ⟨f, -, hDrop⟩ := Option.bind_eq_some_iff.mp hAction
      obtain ⟨n, -, hNo⟩ := Option.map_eq_some_iff.mp hDrop
      cases hNo
    | _ => cases hAction
  | _ => trivial

/-- What a run of tasks that ask for states in order keeps up. -/
structure Orderly (rank : S → Nat) (init : ∀ σ, Val σ) (w : SyncWorld S Val) : Prop where
  ok : w.locks.Ok init
  climbs : w.locks.Climbs rank
  nests : Nests w.locks w.calls

theorem Orderly.new (rank : S → Nat) (present : S → Bool) (init : ∀ σ, Val σ) :
    (new present init).Orderly rank init :=
  ⟨.new init, ⟨.new init, by simp [SyncWorld.new, Locks.new]⟩,
    ⟨by simp [SyncWorld.new], .nil, by simp [SyncWorld.new]⟩⟩

theorem Orderly.step (hLawful : impl.Lawful) (h : w.Orderly rank init)
    (hClimbing : w.Climbing rank a) (hStep : w.step impl a = some w') : w'.Orderly rank init := by
  obtain ⟨locks, calls, hMove, rfl⟩ := step_move h.climbs.single hStep
  refine ⟨?_, ?_, h.nests.move h.ok hMove⟩
  · exact keep_locks (fun _ _ _ h hStep => h.move hLawful (Locks.step_move hStep)) h.ok hStep
  · rcases step_locks hStep with ⟨hSame, -⟩ | ⟨b, hAction, hLocks⟩
    · rw [hSame]
      exact h.climbs
    · exact h.climbs.move (climbing_locks hClimbing hAction) (Locks.step_move hLocks)

/-- What a call has still to go through. -/
def Place.steps : Place → Nat
  | .locking => 3
  | .closure => 2
  | .awaiting => 1

def stepsLeft : List Call → Nat
  | [] => 0
  | f :: rest => f.place.steps + stepsLeft rest

/-- The steps that are left before every call has returned and every guard is dropped. -/
def pending (w : SyncWorld S Val) : Nat := w.locks.pending + stepsLeft w.calls

theorem stepsLeft_append : stepsLeft (calls ++ calls') = stepsLeft calls + stepsLeft calls' := by
  induction calls with
  | nil => simp [stepsLeft]
  | cons f rest ih =>
    simp only [List.cons_append, stepsLeft, ih]
    omega

theorem stepsLeft_sublist (h : calls'.Sublist calls) : stepsLeft calls' ≤ stepsLeft calls := by
  induction h with
  | slnil => exact Nat.le_refl _
  | cons f _ ih =>
    simp only [stepsLeft]
    omega
  | cons_cons f _ ih =>
    simp only [stepsLeft]
    omega

omit [DecidableEq S] in
theorem stepsLeft_outer (hTop : w.top k = some f) :
    stepsLeft w.calls = f.place.steps + stepsLeft (w.outer k) := by
  obtain ⟨-, before, after, hCalls, hOuter, -⟩ := top_split hTop
  rw [hCalls, hOuter, stepsLeft_append, stepsLeft_append, stepsLeft]
  omega

omit [DecidableEq S] in
theorem stepsLeft_enter : stepsLeft (w.enter k) ≤ stepsLeft w.calls := by
  unfold enter
  split
  next f hTop =>
    split
    next hLocking =>
      rw [stepsLeft_outer hTop, hLocking]
      simp [stepsLeft, Place.steps]
    next => exact Nat.le_refl _
  next => exact Nat.le_refl _

theorem Place.steps_pos (p : Place) : 0 < p.steps := by
  cases p <;> simp [steps]

theorem Move.pending (hMove : Move impl w a locks calls) (hFinishing : Finishing a) :
    SyncWorld.pending { w with locks := locks, calls := calls } < w.pending := by
  cases hMove with
  | ask | askState | missing => exact hFinishing.elim
  | unwind _ _ _ hNot => exact (hNot hFinishing).elim
  | access _ _ _ hNot => exact (hNot hFinishing).elim
  | refused r hr =>
    have hQueue := Locks.length_filter_lt (p := fun q => q.holder != r.holder) hr (by simp)
    have hGuards := List.length_filter_le (fun g => g.holder != r.holder) w.locks.guards
    have hCalls := stepsLeft_sublist (others_sublist (w := w) (k := r.holder))
    simp only [SyncWorld.pending, Locks.pending, Locks.leave, Locks.unqueue]
    omega
  | granted r hr =>
    have hQueue := Locks.length_filter_lt (p := fun q => q.holder != r.holder) hr (by simp)
    have hCalls := stepsLeft_enter (w := w) (k := r.holder)
    simp only [SyncWorld.pending, Locks.pending, Locks.push, Locks.unqueue, List.length_append,
      List.length_singleton]
    omega
  | dropGuard g hg =>
    have hGuards := Locks.length_filter_lt (p := fun k => k.number != g.number) hg (by simp)
    simp only [SyncWorld.pending, Locks.pending]
    omega
  | awaits k f hTop hPlace =>
    have hCalls := stepsLeft_outer hTop
    simp only [SyncWorld.pending, stepsLeft, hPlace, Place.steps] at hCalls ⊢
    omega
  | returns a k f hTop =>
    have hCalls := stepsLeft_outer hTop
    have hSteps := f.place.steps_pos
    simp only [SyncWorld.pending]
    omega
  | returnsGuard a k f g hTop =>
    have hCalls := stepsLeft_outer hTop
    have hSteps := f.place.steps_pos
    have hGuards := List.length_filter_le (fun k => k.number != g.number) w.locks.guards
    simp only [SyncWorld.pending, Locks.pending]
    omega

omit [DecidableEq S] in
theorem finishing_climbing (h : Finishing a) : w.Climbing rank a := by
  cases a with
  | call | lock => exact h.elim
  | _ => trivial

/-- A guard of a task that runs can be dropped. -/
theorem drop_ne_none (impl : Impl) {g : Guard S} (hg : g ∈ w.locks.guards)
    (hIdle : w.locks.isWaiting g.holder = false) : w.locks.step impl (.drop g.number) ≠ none := by
  have hSome : (w.locks.guard? g.number).isSome :=
    List.find?_isSome.mpr ⟨g, hg, by simp [hIdle]⟩
  obtain ⟨k, hk⟩ := Option.isSome_iff_exists.mp hSome
  simp [Locks.step, hk]

/-- The innermost call of a task that does not wait can go on to return. -/
theorem Nests.exists_return (h : Nests w.locks w.calls) (hIdle : w.locks.isWaiting k = false)
    (hTop : w.top k = some f) : ∃ a, Finishing a ∧ w.step impl a ≠ none := by
  obtain ⟨hTask, -⟩ := top_split hTop
  have hMem := List.mem_of_find?_eq_some hTop
  have hDrop : w.locksAfter impl (f.guard.map .drop) ≠ none := by
    cases hGuard : f.guard with
    | none => simp [locksAfter]
    | some n =>
      obtain ⟨g, hg, rfl, hHolder⟩ := h.out f hMem n hGuard
      exact drop_ne_none impl hg (by rwa [hHolder, hTask])
  cases hPlace : f.place with
  | locking =>
    have hWaits := h.locking f hMem hPlace
    rw [hTask, hIdle] at hWaits
    cases hWaits
  | closure =>
    refine ⟨.closureReturns k, trivial, ?_⟩
    cases hAsync : f.accessor.isAsync with
    | true =>
      simp [SyncWorld.step, enabled, topAt, lockAction, hTop, hIdle, hPlace, hAsync, locksAfter]
    | false =>
      simpa [SyncWorld.step, enabled, topAt, lockAction, hTop, hIdle, hPlace, hAsync] using hDrop
  | awaiting =>
    refine ⟨.futureReady k, trivial, ?_⟩
    simpa [SyncWorld.step, enabled, topAt, lockAction, hTop, hIdle, hPlace] using hDrop

theorem Orderly.exists_finishing (h : w.Orderly rank init) (hLawful : impl.Lawful)
    (hUnderWay : ¬ (w.calls = [] ∧ w.locks.waiting = [] ∧ w.locks.guards = [])) :
    ∃ a, Finishing a ∧ w.step impl a ≠ none := by
  by_cases hLocks : w.locks.waiting ≠ [] ∨ w.locks.guards ≠ []
  · obtain ⟨b, hFinishing, hSome⟩ := h.climbs.exists_finishing hLawful hLocks
    cases b with
    | grant k =>
      refine ⟨.granted k, trivial, ?_⟩
      simpa [SyncWorld.step, enabled, lockAction, locksAfter] using hSome
    | drop n =>
      obtain ⟨s', hStep⟩ := Option.ne_none_iff_exists'.mp hSome
      cases Locks.step_move hStep with
      | drop g hg hIdle =>
        cases hTop : w.top g.holder with
        | some f => exact h.nests.exists_return hIdle hTop
        | none =>
          -- the guard belongs to no call
          refine ⟨.dropGuard g.number, trivial, ?_⟩
          have hNone : ∀ f ∈ w.calls, f.guard ≠ some g.number := by
            intro f hf hGuard
            obtain ⟨k, hk, hNumber, hHolder⟩ := h.nests.out f hf _ hGuard
            obtain rfl := h.ok.eq hk hg hNumber
            obtain ⟨e, hTop'⟩ := top_of_mem hf
            rw [← hHolder, hTop] at hTop'
            cases hTop'
          have hDrop := drop_ne_none impl hg hIdle
          have hEnabled : w.enabled (.dropGuard g.number) = true :=
            List.all_eq_true.mpr fun f hf => by simpa using hNone f hf
          simpa [SyncWorld.step, hEnabled, lockAction, locksAfter] using hDrop
    | _ => exact hFinishing.elim
  · rw [not_or, not_not, not_not] at hLocks
    obtain ⟨f, hf⟩ := List.exists_mem_of_ne_nil _ fun hNil => hUnderWay ⟨hNil, hLocks⟩
    obtain ⟨e, hTop⟩ := top_of_mem hf
    exact h.nests.exists_return (by simp [Locks.isWaiting, hLocks.1]) hTop

/-- In every run of tasks on threads of their own in which whoever asks for a state has guards of
states of a smaller rank only, there is no deadlock: whatever is under way can be finished, in a
bounded number of steps and in any order, until every call has returned, nobody waits and no guard
is out. -/
theorem all_return (hLawful : impl.Lawful)
    (hRun : run (step impl) (new present init) as = some w)
    (hClimbing : Every (step impl) (Climbing rank) (new present init) as)
    (hFinishing : ∀ a ∈ bs, Finishing a) (hLater : run (step impl) w bs = some w') :
    bs.length ≤ w.pending ∧ ((∀ a, Finishing a → w'.step impl a = none) →
      w'.calls = [] ∧ w'.locks.waiting = [] ∧ w'.locks.guards = []) := by
  have hOrderly : w.Orderly rank init :=
    run_invariant_of (fun _ _ _ h hClimbing hStep => h.step hLawful hClimbing hStep)
      (.new rank present init) hClimbing hRun
  refine run_completes (Orderly rank init) SyncWorld.pending
    (fun _ _ _ h hFirst hStep => h.step hLawful (finishing_climbing hFirst) hStep)
    (fun _ _ _ h hFirst hStep => ?_) (fun _ h => h.exists_finishing hLawful) hOrderly hFinishing
    hLater
  obtain ⟨locks, calls, hMove, rfl⟩ := step_move h.climbs.single hStep
  exact hMove.pending hFirst

/-- One task awaits with a state and asks for the next, which another task reads. -/
def climbers : List (Action Bool fun _ => Nat) :=
  [.call 0 .getMutAsync false, .granted 0, .closureReturns 0, .lock 1 .shared true, .granted 1,
    .call 0 .getMut true]

def climbersReturn : List (Action Bool fun _ => Nat) :=
  [.dropGuard 1, .granted 0, .closureReturns 0, .futureReady 0]

theorem all_return_climbers : ∃ w w',
    run (step (writersFirst true)) (new (fun _ => true) fun _ => 0) climbers = some w ∧
      run (step (writersFirst true)) w climbersReturn = some w' ∧ 4 ≤ w.pending ∧
      ((∀ a, Finishing a → w'.step (writersFirst true) a = none) →
        w'.calls = [] ∧ w'.locks.waiting = [] ∧ w'.locks.guards = []) := by
  have hSome : (run (step (writersFirst true)) (new (fun _ => true) fun _ => 0)
      (climbers ++ climbersReturn)).isSome := rfl
  obtain ⟨w', hBoth⟩ := Option.isSome_iff_exists.mp hSome
  obtain ⟨w, hRun, hLater⟩ := run_append_eq_some.mp hBoth
  have hClimbing : Every (step (writersFirst true)) (Climbing fun σ => if σ then 1 else 0)
      (new (fun _ => true) fun _ => 0) climbers := by decide
  have hFinishing : ∀ a ∈ climbersReturn, Finishing a := by
    simp [climbersReturn, Finishing]
  exact ⟨w, w', hRun, hLater,
    all_return (writersFirst_lawful true) hRun hClimbing hFinishing hLater⟩

end Emyu.SyncWorld
