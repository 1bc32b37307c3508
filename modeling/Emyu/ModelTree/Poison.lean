import Emyu.ModelTree.Atomic

/-! A thread-safe host and other threads, any of whom can panic between two statements: what is
still seen of the models and the values of the signals after that, and which locks are poisoned. -/

namespace Emyu.ModelTree

open Macro Named Relation Runs RefCell RwLock

/-- The list of subscribers that is locked is unlocked, and no more is sent. -/
def HostPhase.unwind {V : Type} : HostPhase V → HostPhase V
  | .sending _ _ signals => .flushing signals
  | phase => phase

theorem HostPhase.unwind_idle {V : Type} {phase : HostPhase V} (h : phase.unwind = .idle) :
    phase = .idle := by
  cases phase with
  | sending => cases h
  | _ => exact h

/-- The host that makes each update at once, and whether it has panicked: not in an update. -/
inductive WholeHost.StepOrPanic {V K T : Type} (P : Program V K T) (root : Nat) :
    WholeHost V K T × Bool → WholeHost V K T × Bool → Prop where
  | steps (a b : WholeHost V K T) : Step P root a b → StepOrPanic P root (a, false) (b, false)
  | panics (a : WholeHost V K T) : StepOrPanic P root (a, false) (a, true)

/-- A host that has panicked has `stopped`. -/
structure PanickingHost (V K T : Type) where
  host : SyncHost V K T
  poisoned : Cell → Bool
  stopped : Bool

/-- An action of another thread. -/
def SyncHost.Action.ofOthers {V K T : Type} : Action V K T → Bool
  | .turn (.ask _ _) | .turn (.granted _) | .turn (.drop _ _) | .turn (.touch _ _ _) => true
  | _ => false

section Readers

variable {V K T : Type}

/-- The list of subscribers of a signal. -/
def Cell.listed : Cell → Bool
  | .subscribers _ => true
  | _ => false

theorem Cell.not_locked {cell : Cell} (h : cell.listed = false) (locked : Option Nat) :
    (locked.any fun σ => cell == .subscribers σ) = false := by
  cases cell with
  | subscribers σ => cases h
  | _ => cases locked <;> rfl

theorem Cell.lock_of_not_list {cell : Cell} (h : cell.listed = false) (impl : Impl) :
    cell.lock impl = impl := by
  cases cell with
  | subscribers σ => cases h
  | _ => rfl

/-- The guard is one for reading, or of a list of subscribers. -/
def Guard.reads (g : Guard) : Bool := g.2 == .shared || g.1.listed

/-- The thread asks for no write guard of a model or a value, and writes nothing with the one it
has. -/
def SyncTree.Action.reads : SyncTree.Action T → Bool
  | .ask _ g => g.reads
  | a => !a.writes

def SyncHost.Action.reads : SyncHost.Action V K T → Bool
  | .turn a => a.reads
  | _ => true

theorem SyncTree.writes_of_reads {a : SyncTree.Action T} (h : a.reads = true) :
    a.writes = false := by
  cases a with
  | touch k σ x => simpa [SyncTree.Action.reads] using h
  | _ => rfl

theorem SyncHost.writes_of_reads {a : SyncHost.Action V K T} (h : a.reads = true) :
    a.writes = false := by
  cases a with
  | turn x => exact SyncTree.writes_of_reads h
  | _ => rfl

/-- Threads that wait for one guard at a time, and write to lists of subscribers only. -/
structure SyncTree.Readers (s : SyncTree V K T) : Prop where
  reads : ∀ q ∈ s.held ++ s.asking, q.2.reads = true
  single : s.asking.Pairwise fun r q => r.1 ≠ q.1

variable {impl : Impl} {P : BorrowingProgram V K T} {s t : SyncTree V K T}

theorem SyncTree.Readers.shared (h : s.Readers) {q : Nat × Guard}
    (hMem : q ∈ s.held ++ s.asking) (hCell : q.2.1.listed = false) : q.2.2 = .shared := by
  have hReads := h.reads q hMem
  simpa [Guard.reads, hCell] using hReads

theorem SyncTree.Readers.sub (h : s.Readers)
    (hMem : ∀ q ∈ t.held ++ t.asking, q ∈ s.held ++ s.asking)
    (hSub : t.asking.Sublist s.asking) : t.Readers :=
  ⟨fun q hq => h.reads q (hMem q hq), h.single.sublist hSub⟩

theorem SyncTree.Readers.move (h : s.Readers) {a : SyncTree.Action T} (hReads : a.reads = true)
    (hMove : SyncTree.Move impl P s a t) : t.Readers := by
  cases hMove with
  | hostAsks => exact ⟨h.reads, h.single⟩
  | host => exact ⟨h.reads, h.single⟩
  | touch => exact ⟨h.reads, h.single⟩
  | ask k g hIdle =>
    refine ⟨fun q hq => ?_, SyncTree.single_ask h.single hIdle⟩
    rw [← List.append_assoc] at hq
    rcases List.mem_append.mp hq with hOld | hNew
    · exact h.reads q hOld
    · rw [List.mem_singleton.mp hNew]
      exact hReads
  | granted q hMem =>
    refine h.sub (fun r hr => ?_) List.filter_sublist
    simp only [List.mem_append, List.mem_singleton, List.mem_filter] at hr ⊢
    rcases hr with (hOld | rfl) | ⟨hAsks, -⟩
    · exact .inl hOld
    · exact .inr hMem
    · exact .inr hAsks
  | drop k g => exact h.sub (fun q hq => (List.erase_sublist.append_right _).subset hq) (.refl _)

theorem SyncHost.readers_move {root : Nat} {s t : SyncHost V K T} (h : s.tree.Readers)
    {a : SyncHost.Action V K T} (hReads : a.reads = true)
    (hMove : SyncHost.Move impl P root s a t) : t.tree.Readers := by
  cases hMove with
  | turn x tree hTree => exact h.move hReads (SyncTree.step_move hTree)
  | _ => exact ⟨h.reads, h.single⟩

end Readers

namespace PanickingHost

/-- The handles of signals that a panic drops are dropped after it, like any other. -/
inductive Action (V K T : Type) where
  | act (a : SyncHost.Action V K T)
  | hostPanics
  | otherPanics (k : Nat)

variable {V K T : Type}

def Action.writes : Action V K T → Bool
  | .act a => a.writes
  | _ => false

def Action.reads : Action V K T → Bool
  | .act a => a.reads
  | _ => true

def new (heap : Heap K T) (held asking : List (Nat × Guard)) : PanickingHost V K T where
  host := .new heap held asking
  poisoned := fun _ => false
  stopped := false

/-- The lock that the host is let into next. -/
def hostEnters (impl : Impl) (s : PanickingHost V K T) : SyncHost.Action V K T → Option Cell
  | .turn .host =>
    (s.host.tree.host.next?.filter (s.host.tree.admits impl)).map Prod.fst
  | .flush =>
    match s.host.phase with
    | .swapped σ _ =>
      if s.host.tree.admits impl (.subscribers σ, .exclusive) then some (.subscribers σ) else none
    | _ => none
  | _ => none

/-- The host is let into a lock that is poisoned. -/
def hostRefused (impl : Impl) (s : PanickingHost V K T) (a : SyncHost.Action V K T) : Bool :=
  (s.hostEnters impl a).any fun cell => impl.poisons && s.poisoned cell

/-- The lock that the thread waits for is poisoned. -/
def refused (impl : Impl) (s : PanickingHost V K T) (k : Nat) : Bool :=
  (s.host.tree.asking.find? fun q => q.1 == k).any fun q => impl.poisons && s.poisoned q.2.1

/-- The cells that the host writes to. -/
def hostWrites (s : PanickingHost V K T) (cell : Cell) : Bool :=
  s.host.tree.host.guards.contains (cell, .exclusive) ||
    s.host.phase.locked.any fun σ => cell == .subscribers σ

/-- The host's calls drop what they have, which poisons what they were writing to. -/
def unwind (impl : Impl) (s : PanickingHost V K T) : PanickingHost V K T where
  host := { s.host.setHost s.host.tree.host.unwind with phase := s.host.phase.unwind }
  poisoned := fun cell => s.poisoned cell || impl.poisons && s.hostWrites cell
  stopped := true

/-- Another thread drops all its guards, which poisons what it was writing to. -/
def leave (impl : Impl) (s : PanickingHost V K T) (k : Nat) : PanickingHost V K T where
  host := { s.host with tree := { s.host.tree with
    held := s.host.tree.held.filter fun q => q.1 != k
    asking := s.host.tree.asking.filter fun q => q.1 != k } }
  poisoned := fun cell =>
    s.poisoned cell || impl.poisons && s.host.tree.held.contains (k, cell, .exclusive)
  stopped := s.stopped

/-- A thread's lock is taken and the result unwrapped, which panics on a poisoned lock. -/
def unwrapLock (impl : Impl) (s : PanickingHost V K T) (host : SyncHost V K T) :
    SyncHost.Action V K T → PanickingHost V K T
  | .turn (.granted k) => if s.refused impl k then s.leave impl k else { s with host := host }
  | _ => { s with host := host }

/-- A thread that is blocked in a lock does not panic, but when it is let into a poisoned one. -/
def step (impl : Impl) (P : BorrowingProgram V K T) (root : Nat) (s : PanickingHost V K T) :
    Action V K T → Option (PanickingHost V K T)
  | .act a =>
    if s.stopped && !a.ofOthers || s.hostRefused impl a then none
    else (s.host.step impl P root a).map fun host => s.unwrapLock impl host a
  | .hostPanics =>
    if s.stopped || s.host.tree.hostWaits && !s.hostRefused impl (.turn .host) then none
    else some (s.unwind impl)
  | .otherPanics k => if s.host.tree.isAsking k then none else some (s.leave impl k)

section Move

variable {impl : Impl} {P : BorrowingProgram V K T} {root : Nat} {s t : PanickingHost V K T}
  {x : Action V K T}

/-- What a step can do: the host and the others go on, a thread is let in that finds its lock
poisoned, or somebody panics. -/
inductive Move (impl : Impl) (P : BorrowingProgram V K T) (root : Nat) (s : PanickingHost V K T) :
    Action V K T → PanickingHost V K T → Prop where
  | acted (a : SyncHost.Action V K T) (host : SyncHost V K T) :
      (s.stopped = true → a.ofOthers = true) →
      (∀ k, a = .turn (.granted k) → s.refused impl k = false) →
      s.host.step impl P root a = some host →
      Move impl P root s (.act a) { s with host := host }
  | refused (k : Nat) : Move impl P root s (.act (.turn (.granted k))) (s.leave impl k)
  | hostPanics : s.stopped = false → Move impl P root s .hostPanics (s.unwind impl)
  | otherPanics (k : Nat) : Move impl P root s (.otherPanics k) (s.leave impl k)

theorem step_move (hStep : step impl P root s x = some t) : Move impl P root s x t := by
  cases x with
  | act a =>
    simp only [step, Option.ite_none_left_eq_some] at hStep
    obtain ⟨hOwn, hStep⟩ := hStep
    obtain ⟨host, hHost, rfl⟩ := Option.map_eq_some_iff.mp hStep
    have hOthers : s.stopped = true → a.ofOthers = true := fun hStopped =>
      eq_true_of_ne_false fun hNot => hOwn (by simp [hStopped, hNot])
    by_cases hGranted : ∃ k, a = .turn (.granted k) ∧ s.refused impl k = true
    · obtain ⟨k, rfl, hRefused⟩ := hGranted
      simp only [unwrapLock, hRefused, if_true]
      exact .refused k
    · have hIn : ∀ k, a = .turn (.granted k) → s.refused impl k = false := fun k hk =>
        Bool.eq_false_iff.mpr fun hRefused => hGranted ⟨k, hk, hRefused⟩
      have hSame : s.unwrapLock impl host a = { s with host := host } := by
        unfold unwrapLock
        split
        next k => simp [hIn k rfl]
        next => rfl
      rw [hSame]
      exact .acted a host hOthers hIn hHost
  | hostPanics =>
    simp only [step, Option.ite_none_left_eq_some, Option.some.injEq] at hStep
    obtain ⟨hRuns, rfl⟩ := hStep
    exact .hostPanics (by simp_all)
  | otherPanics k =>
    simp only [step, Option.ite_none_left_eq_some, Option.some.injEq] at hStep
    obtain ⟨-, rfl⟩ := hStep
    exact .otherPanics k

end Move

section Others

variable {impl : Impl} {P : BorrowingProgram V K T} {root : Nat} {s : PanickingHost V K T}
  {host : SyncHost V K T} {a : SyncHost.Action V K T}

/-- What another thread that goes on leaves as it is, and whom it can join. -/
structure OthersStep (impl : Impl) (s : PanickingHost V K T) (host : SyncHost V K T) : Prop where
  calls_eq : host.tree.host.calls = s.host.tree.host.calls
  waits_eq : host.tree.hostWaits = s.host.tree.hostWaits
  phase_eq : host.phase = s.host.phase
  begun_eq : host.begun = s.host.begun
  alike : ∀ heap, s.host.tree.host.heap.Alike heap → host.tree.host.heap.Alike heap
  held : ∀ q ∈ host.tree.held, q ∈ s.host.tree.held ∨
    q ∈ s.host.tree.asking ∧ (impl.poisons && s.poisoned q.2.1) = false

theorem others_step (hOthers : a.ofOthers = true) (hReads : a.writes = false)
    (hRefused : ∀ k, a = .turn (.granted k) → s.refused impl k = false)
    (hStep : s.host.step impl P root a = some host) : OthersStep impl s host := by
  cases a with
  | turn x =>
    simp only [SyncHost.step, Option.ite_none_left_eq_some] at hStep
    obtain ⟨tree, hTree, rfl⟩ := Option.map_eq_some_iff.mp hStep.2
    cases x with
    | ask k g =>
      simp only [SyncTree.step, Option.ite_none_left_eq_some, Option.some.injEq] at hTree
      obtain ⟨-, rfl⟩ := hTree
      exact ⟨rfl, rfl, rfl, rfl, fun _ hAlike => hAlike, fun q hq => .inl hq⟩
    | granted k =>
      obtain ⟨q, hFind, hEnters⟩ := Option.bind_eq_some_iff.mp hTree
      simp only [Option.ite_none_right_eq_some, Option.some.injEq] at hEnters
      obtain ⟨-, rfl⟩ := hEnters
      refine ⟨rfl, rfl, rfl, rfl, fun _ hAlike => hAlike, fun r hr => ?_⟩
      rcases List.mem_append.mp hr with hOld | hNew
      · exact .inl hOld
      · obtain rfl := List.mem_singleton.mp hNew
        have hIn := hRefused k rfl
        rw [refused, hFind] at hIn
        exact .inr ⟨List.mem_of_find?_eq_some hFind, hIn⟩
    | drop k g =>
      simp only [SyncTree.step, Option.ite_none_right_eq_some, Option.some.injEq] at hTree
      obtain ⟨-, rfl⟩ := hTree
      exact ⟨rfl, rfl, rfl, rfl, fun _ hAlike => hAlike,
        fun q hq => .inl (List.mem_of_mem_erase hq)⟩
    | touch k σ y =>
      simp only [SyncTree.step, Option.ite_none_right_eq_some, Option.some.injEq] at hTree
      obtain ⟨-, rfl⟩ := hTree
      exact ⟨rfl, rfl, rfl, rfl, fun _ hAlike => hAlike.touch hReads, fun q hq => .inl hq⟩
    | _ => cases hOthers
  | _ => cases hOthers

end Others

section Leave

variable {impl : Impl} {P : BorrowingProgram V K T} {root : Nat} {s : PanickingHost V K T}
  {a : WholeHost V K T}

theorem sound_leave (h : s.host.Sound) (k : Nat) : (s.leave impl k).host.Sound :=
  ⟨⟨h.kept.panicked, h.kept.counted, fun q hq => h.kept.apart q (List.mem_filter.mp hq).1⟩,
    h.rests⟩

theorem matches_leave (h : s.host.Matches P root a) (k : Nat) :
    (s.leave impl k).host.Matches P root a := by
  cases h with
  | idle heap hPhase hAlike => exact .idle heap hPhase hAlike
  | handling message a hPhase hFollows => exact .handling message a hPhase hFollows
  | flushing heap signals hLeft hAlike => exact .flushing heap signals hLeft hAlike

end Leave

section Whole

variable {impl : Impl} {P : BorrowingProgram V K T} {root : Nat} {s t : PanickingHost V K T}
  {x : Action V K T} {a : WholeHost V K T × Bool}

/-- How far the host that makes each update at once has come. When an update panics it stays in
front of the update, and the root model is poisoned. -/
inductive Upto (P : BorrowingProgram V K T) (root : Nat) (s : PanickingHost V K T) :
    WholeHost V K T × Bool → Prop where
  | running (a : WholeHost V K T) : s.stopped = false → s.host.Sound →
      s.host.Matches P root a → Upto P root s (a, false)
  | stopped (a : WholeHost V K T) : s.stopped = true → SyncHost.Shows root s.host a →
      (s.poisoned (.model root) = false → s.host.tree.host.heap.Alike a.heap) →
      Upto P root s (a, true)

theorem Upto.shows (h : Upto P root s a) :
    SyncHost.Shows root s.host a.1 ∧ a.2 = s.stopped := by
  cases h with
  | running a hRuns hSound hMatches => exact ⟨hMatches.shows hSound.kept, hRuns.symm⟩
  | stopped a hStopped hShows => exact ⟨hShows, hStopped.symm⟩

theorem Upto.unwind (hPoisons : impl.poisons = true) (h : Upto P root s a)
    (hRuns : s.stopped = false) :
    ∃ b, WholeHost.StepOrPanic P.toProgram root a b ∧ Upto P root (s.unwind impl) b := by
  cases h with
  | running a _ hSound hMatches =>
    obtain ⟨hBegun, hIdle, hHeap⟩ := hMatches.shows hSound.kept
    -- the other host panics here too, or in front of the update that is under way
    have hIdle' (h : s.host.phase.unwind = .idle) := hIdle (HostPhase.unwind_idle h)
    refine ⟨_, .panics a, .stopped a rfl ⟨hBegun, hIdle', hHeap⟩ fun hClean => ?_⟩
    refine hMatches.alike fun hUpdating => ?_
    simp [PanickingHost.unwind, hostWrites, hPoisons, hUpdating] at hClean
  | stopped a hStopped =>
    rw [hRuns] at hStopped
    cases hStopped

theorem Upto.leave (h : Upto P root s a) (k : Nat) : Upto P root (s.leave impl k) a := by
  cases h with
  | running a hRuns hSound hMatches =>
    exact .running a hRuns (sound_leave hSound k) (matches_leave hMatches k)
  | stopped a hStopped hShows hAlike =>
    refine .stopped a hStopped ⟨hShows.begun, hShows.idle, fun j b hHeld => ?_⟩ fun hClean => ?_
    · exact hShows.heap j b (List.mem_filter.mp hHeld).1
    · exact hAlike (Bool.or_eq_false_iff.mp hClean).1

theorem Upto.move (hP : P.ValuesOnly) (hLawful : impl.Lawful) (hPoisons : impl.poisons = true)
    (h : Upto P root s a) (hReads : x.writes = false) (hMove : Move impl P root s x t) :
    ∃ b, ReflTransGen (WholeHost.StepOrPanic P.toProgram root) a b ∧ Upto P root t b := by
  cases hMove with
  | acted y host hOthers hRefused hStep =>
    cases h with
    | running a hRuns hSound hMatches =>
      have hHost := SyncHost.step_move hStep
      obtain ⟨b, hSteps, hMatches'⟩ := SyncHost.move_matches hP hLawful hSound hMatches hReads hHost
      have hRunning : ReflTransGen (WholeHost.StepOrPanic P.toProgram root) (a, false) (b, false) :=
        hSteps.lift (fun c => (c, false)) WholeHost.StepOrPanic.steps
      exact ⟨_, hRunning, .running b hRuns (hSound.move hLawful hHost) hMatches'⟩
    | stopped a hStopped hShows hAlike =>
      have hSame := others_step (hOthers hStopped) hReads hRefused hStep
      refine ⟨_, .refl, .stopped a hStopped ⟨hShows.begun.trans hSame.begun_eq.symm,
        fun hIdle => hShows.idle (hSame.phase_eq ▸ hIdle), fun k b hHeld => ?_⟩
        fun hClean => hSame.alike _ (hAlike hClean)⟩
      rcases hSame.held _ hHeld with hOld | ⟨-, hClean⟩
      · exact hSame.alike _ (hShows.heap k b hOld)
      · exact hSame.alike _ (hAlike (by simpa [hPoisons] using hClean))
  | refused k => exact ⟨a, .refl, h.leave k⟩
  | hostPanics hRuns =>
    obtain ⟨b, hPanics, hNext⟩ := h.unwind hPoisons hRuns
    exact ⟨b, .single hPanics, hNext⟩
  | otherPanics k => exact ⟨a, .refl, h.leave k⟩

/-- There is one history of a host that makes each update at once, and panics where this one does
or before the update that does, in which all that is seen under guards of the root model is seen. -/
def Whole (impl : Impl) (P : BorrowingProgram V K T) (root : Nat) (heap : Heap K T)
    (held asking : List (Nat × Guard)) (as : List (Action V K T)) : Prop :=
  ∃ history : Nat → WholeHost V K T × Bool, history 0 = (⟨heap, .idle, []⟩, false) ∧
    (∀ n, ReflTransGen (WholeHost.StepOrPanic P.toProgram root) (history n) (history (n + 1))) ∧
    ∀ n s, run (step impl P root) (new heap held asking) (as.take n) = some s →
      SyncHost.Shows root s.host (history n).1 ∧ (history n).2 = s.stopped

/-- Where locks poison, nobody sees the update that a panic has cut short. -/
theorem whole_of_poisons (hP : P.ValuesOnly) (hLawful : impl.Lawful)
    (hPoisons : impl.poisons = true) (heap : Heap K T) (held asking : List (Nat × Guard))
    (as : List (Action V K T)) (hReads : ∀ x ∈ as, x.writes = false) :
    Whole impl P root heap held asking as := by
  have hNew : Upto P root (new heap held asking) (⟨heap, .idle, []⟩, false) :=
    .running _ rfl (.new heap held asking) (.idle heap rfl (.refl heap))
  obtain ⟨history, hStart, hNext, hAll⟩ := run_follows
    (R := fun (s : PanickingHost V K T) a => Upto P root s a)
    (fun _ _ _ _ hReads hUpto hStep => hUpto.move hP hLawful hPoisons hReads (step_move hStep))
    hNew as hReads
  exact ⟨history, hStart, hNext, fun n s hRun => (hAll n s hRun).shows⟩

end Whole

section Settled

variable {impl : Impl} {P : BorrowingProgram V K T} {root : Nat} {s t : PanickingHost V K T}
  {x : Action V K T} {as bs : List (Action V K T)} {heap : Heap K T}
  {held asking : List (Nat × Guard)} {k : Nat} {cell : Cell}

/-- A running host has no model and no value poisoned; one that has panicked is in no call, and
nobody has a guard of a poisoned model or value. -/
structure Ok (impl : Impl) (s : PanickingHost V K T) : Prop where
  readers : s.host.tree.Readers
  running : s.stopped = false → s.host.Sound ∧
    ∀ cell, cell.listed = false → s.poisoned cell = false
  stopped : s.stopped = true → s.host.tree.host.calls = [] ∧ s.host.tree.hostWaits = false
  poisons : ∀ cell, s.poisoned cell = true → impl.poisons = true
  clean : ∀ q ∈ s.host.tree.held, q.2.1.listed = false → s.poisoned q.2.1 = false

theorem Ok.acted (hLawful : impl.Lawful) (h : Ok impl s)
    {a : SyncHost.Action V K T} (hReads : a.reads = true) {host : SyncHost V K T}
    (hOthers : s.stopped = true → a.ofOthers = true)
    (hRefused : ∀ k, a = .turn (.granted k) → s.refused impl k = false)
    (hStep : s.host.step impl P root a = some host) : Ok impl { s with host := host } where
  readers := SyncHost.readers_move h.readers hReads (SyncHost.step_move hStep)
  running hRuns := by
    obtain ⟨hSound, hClean⟩ := h.running hRuns
    exact ⟨hSound.move hLawful (SyncHost.step_move hStep), hClean⟩
  stopped hStopped := by
    have hSame := others_step (hOthers hStopped) (SyncHost.writes_of_reads hReads) hRefused hStep
    rw [hSame.calls_eq, hSame.waits_eq]
    exact h.stopped hStopped
  poisons := h.poisons
  clean q hq hCell := by
    cases hStopped : s.stopped with
    | false => exact (h.running hStopped).2 _ hCell
    | true =>
      have hSame := others_step (hOthers hStopped) (SyncHost.writes_of_reads hReads) hRefused hStep
      rcases hSame.held q hq with hOld | ⟨-, hClean⟩
      · exact h.clean q hOld hCell
      · refine eq_false_of_ne_true fun hPoisoned => ?_
        rw [h.poisons _ hPoisoned, hPoisoned] at hClean
        cases hClean

theorem Ok.unwind (h : Ok impl s) (hRuns : s.stopped = false) :
    Ok impl (s.unwind impl) where
  readers := ⟨h.readers.reads, h.readers.single⟩
  running hNot := by cases hNot
  stopped _ := ⟨rfl, rfl⟩
  poisons cell hPoisoned := by
    rcases Bool.or_eq_true_iff.mp hPoisoned with hOld | hNew
    · exact h.poisons cell hOld
    · exact (Bool.and_eq_true_iff.mp hNew).1
  clean q hq hCell := by
    obtain ⟨hSound, hClean⟩ := h.running hRuns
    have hFree : (q.2.1, Borrow.exclusive) ∉ s.host.tree.host.guards := fun hWriting => by
      have hApart := hSound.kept.apart q hq _ hWriting
      rw [Locks.conflicts_exclusive] at hApart
      cases hApart
    simp [PanickingHost.unwind, hostWrites, hClean _ hCell, hFree, Cell.not_locked hCell]

/-- A reader that panics poisons at most lists of subscribers. -/
theorem Ok.leave_poisoned (h : Ok impl s) (hCell : cell.listed = false) :
    (s.leave impl k).poisoned cell = s.poisoned cell := by
  have hFree : (k, cell, Borrow.exclusive) ∉ s.host.tree.held := fun hMem => by
    cases h.readers.shared (List.mem_append_left _ hMem) hCell
  simp [PanickingHost.leave, hFree]

theorem Ok.leave (h : Ok impl s) (k : Nat) : Ok impl (s.leave impl k) where
  readers := by
    refine h.readers.sub (fun q hq => ?_) List.filter_sublist
    exact (List.filter_sublist.append List.filter_sublist).subset hq
  running hRuns := by
    obtain ⟨hSound, hClean⟩ := h.running hRuns
    exact ⟨sound_leave hSound k, fun cell hCell =>
      (h.leave_poisoned hCell).trans (hClean cell hCell)⟩
  stopped := h.stopped
  poisons cell hPoisoned := by
    rcases Bool.or_eq_true_iff.mp hPoisoned with hOld | hNew
    · exact h.poisons cell hOld
    · exact (Bool.and_eq_true_iff.mp hNew).1
  clean q hq hCell :=
    (h.leave_poisoned hCell).trans (h.clean q (List.mem_filter.mp hq).1 hCell)

theorem Ok.step (hLawful : impl.Lawful) (h : Ok impl s)
    (hReads : x.reads = true) (hStep : step impl P root s x = some t) : Ok impl t := by
  cases step_move hStep with
  | acted a host hOthers hRefused hHost => exact h.acted hLawful hReads hOthers hRefused hHost
  | refused k => exact h.leave k
  | hostPanics hRuns => exact h.unwind hRuns
  | otherPanics k => exact h.leave k

theorem new_ok (hReads : ∀ q ∈ held ++ asking, q.2.reads = true)
    (hSingle : asking.Pairwise fun r q => r.1 ≠ q.1) :
    Ok impl (new heap held asking : PanickingHost V K T) where
  readers := ⟨hReads, hSingle⟩
  running _ := ⟨.new heap held asking, fun _ _ => rfl⟩
  stopped hNot := by cases hNot
  poisons _ hNot := by cases hNot
  clean _ _ _ := rfl

/-- The models, the values and their locks stay as a panic has left them. -/
structure Settled (s t : PanickingHost V K T) : Prop where
  stopped : t.stopped = true
  alike : t.host.tree.host.heap.Alike s.host.tree.host.heap
  poisoned : ∀ cell, cell.listed = false → t.poisoned cell = s.poisoned cell

theorem Settled.step {r : PanickingHost V K T} (hSettled : Settled r s) (h : Ok impl s)
    (hReads : x.reads = true) (hStep : PanickingHost.step impl P root s x = some t) :
    Settled r t := by
  cases step_move hStep with
  | acted a host hOthers hRefused hHost =>
    have hSame := others_step (hOthers hSettled.stopped) (SyncHost.writes_of_reads hReads) hRefused
      hHost
    exact ⟨hSettled.stopped, hSame.alike _ hSettled.alike, hSettled.poisoned⟩
  | hostPanics hRuns =>
    rw [hSettled.stopped] at hRuns
    cases hRuns
  | refused k | otherPanics k =>
    exact ⟨hSettled.stopped, hSettled.alike, fun cell hCell =>
      (h.leave_poisoned hCell).trans (hSettled.poisoned cell hCell)⟩

/-- Only readers are left. -/
theorem Ok.admits_reader (hShares : impl.SharesReaders) (h : Ok impl s)
    (hStopped : s.stopped = true) (hCell : cell.listed = false) :
    s.host.tree.admits impl (cell, .shared) = true := by
  obtain ⟨hCalls, hWaits⟩ := h.stopped hStopped
  rw [SyncTree.admits, Cell.lock_of_not_list hCell]
  refine hShares _ _ (fun hHeld => ?_) fun hQueued => ?_
  · obtain ⟨r, hr, rfl, hExclusive⟩ := Locks.mem_borrowsOn.mp hHeld
    rcases SyncTree.mem_guards.mp hr with ⟨g, hg, -⟩ | ⟨q, hq, rfl⟩
    · simp [Borrowing.guards, hCalls] at hg
    · cases (h.readers.shared (List.mem_append_left _ hq) hCell).symm.trans hExclusive
  · obtain ⟨r, hr, rfl, hExclusive⟩ := Locks.mem_borrowsOn.mp hQueued
    rcases SyncTree.mem_waiting.mp hr with ⟨g, hAsks, -⟩ | ⟨q, hq, rfl⟩
    · rw [hWaits] at hAsks
      cases hAsks
    · cases (h.readers.shared (List.mem_append_right _ hq) hCell).symm.trans hExclusive

/-- Whoever waits to read is let in, or finds the lock poisoned. -/
theorem Ok.answered (hShares : impl.SharesReaders) (h : Ok impl s)
    (hStopped : s.stopped = true) {b : Borrow} (hAsks : (k, cell, b) ∈ s.host.tree.asking)
    (hCell : cell.listed = false) :
    ∃ u, PanickingHost.step impl P root s (.act (.turn (.granted k))) = some u ∧
      u.host.tree.isAsking k = false ∧
      (s.poisoned cell = false → (k, cell, b) ∈ u.host.tree.held) := by
  obtain rfl : b = .shared := h.readers.shared (List.mem_append_right _ hAsks) hCell
  have hFind := SyncTree.find?_asking h.readers.single hAsks
  have hAdmits := h.admits_reader hShares hStopped hCell
  have hOpen : s.host.shutOut (.granted k) = false := by
    simp [SyncHost.shutOut, hFind, Cell.not_locked hCell]
  have hHost : s.host.step impl P root (.turn (.granted k)) = some { s.host with
      tree := { s.host.tree with
        held := s.host.tree.held ++ [(k, cell, .shared)]
        asking := s.host.tree.asking.filter fun r => r.1 != k } } := by
    simp [SyncHost.step, SyncTree.step, hFind, hOpen, hAdmits]
  have hStep := congrArg (Option.map fun host => s.unwrapLock impl host (.turn (.granted k))) hHost
  refine ⟨_, (if_neg (by simp [SyncHost.Action.ofOthers, hostRefused, hostEnters])).trans hStep, ?_⟩
  simp only [unwrapLock]
  split
  next hRefused =>
    refine ⟨by simp [SyncTree.isAsking, PanickingHost.leave], fun hClean => ?_⟩
    simp [refused, hFind, hClean] at hRefused
  next => exact ⟨by simp [SyncTree.isAsking], fun _ => by simp⟩

/-- After a panic of the host the models, the values of the signals and their poisoned locks stay as
they are, whatever its readers do, nobody has a guard of what is poisoned, and whoever asks for a
model or a value, be it again, is answered at once. -/
theorem settles_after_panic (hLawful : impl.Lawful) (hShares : impl.SharesReaders)
    (hHeld : ∀ q ∈ held ++ asking, q.2.reads = true)
    (hSingle : asking.Pairwise fun r q => r.1 ≠ q.1) (hReads : ∀ x ∈ as ++ bs, x.reads = true)
    (hRun : run (step impl P root) (new heap held asking) as = some s)
    (hStopped : s.stopped = true) (hLater : run (step impl P root) s bs = some t) :
    t.host.tree.host.heap.Alike s.host.tree.host.heap ∧
      (∀ cell, cell.listed = false → t.poisoned cell = s.poisoned cell ∧
        ∀ k b, (k, cell, b) ∈ t.host.tree.held → t.poisoned cell = false) ∧
      ∀ k cell b, (k, cell, b) ∈ t.host.tree.asking → cell.listed = false →
        ∃ u, step impl P root t (.act (.turn (.granted k))) = some u ∧
          u.host.tree.isAsking k = false ∧
          (t.poisoned cell = false → (k, cell, b) ∈ u.host.tree.held) := by
  have hAs : Every (step impl P root) (fun _ x => x.reads = true) (new heap held asking) as :=
    .of_mem fun x hx => hReads x (List.mem_append_left _ hx)
  have hBs : Every (step impl P root) (fun _ x => x.reads = true) s bs :=
    .of_mem fun x hx => hReads x (List.mem_append_right _ hx)
  have hOk : Ok impl s :=
    run_invariant_of (fun _ _ _ h hReads hStep => h.step hLawful hReads hStep)
      (new_ok hHeld hSingle) hAs hRun
  have hKeep : ∀ t x u, (Ok impl t ∧ Settled s t) → x.reads = true →
      step impl P root t x = some u → Ok impl u ∧ Settled s u :=
    fun _ _ _ h hReads hStep => ⟨h.1.step hLawful hReads hStep, h.2.step h.1 hReads hStep⟩
  obtain ⟨hOk', hSettled⟩ :=
    run_invariant_of hKeep ⟨hOk, hStopped, .refl _, fun _ _ => rfl⟩ hBs hLater
  refine ⟨hSettled.alike, fun cell hCell => ⟨hSettled.poisoned cell hCell, fun k b hMem => ?_⟩,
    fun k cell b hAsks hCell => hOk'.answered hShares hSettled.stopped hAsks hCell⟩
  exact hOk'.clean _ hMem hCell

end Settled

section Alone

variable {impl : Impl} {P : BorrowingProgram V K T} {root : Nat} {s : PanickingHost V K T}
  {x : Action V K T}

def asksAlone (s : PanickingHost V K T) (g : Guard) : Bool :=
  Locks.borrowsOn g.1 s.host.tree.guards == [] && Locks.borrowsOn g.1 s.host.tree.waiting == [g.2]

/-- Whoever is let in has been the only one at a free lock. -/
def Alone (s : PanickingHost V K T) : Action V K T → Prop
  | .act (.turn .host) => s.host.tree.host.next?.all s.asksAlone = true
  | .act (.turn (.granted k)) => ((s.host.tree.asking.find? fun q => q.1 == k).all fun q =>
      s.asksAlone q.2) = true
  | _ => True

instance (s : PanickingHost V K T) : (x : Action V K T) → Decidable (s.Alone x)
  | .act (.turn .host) => inferInstanceAs (Decidable (_ = true))
  | .act (.turn (.granted _)) => inferInstanceAs (Decidable (_ = true))
  | .act (.turn .hostAsks) | .act (.turn (.ask _ _)) | .act (.turn (.drop _ _))
  | .act (.turn (.touch _ _ _)) | .act (.next _ _) | .act .accumulate | .act .flush | .hostPanics
  | .otherPanics _ => isTrue trivial

theorem admits_alone (hLawful : impl.Lawful) {g : Guard} (hAlone : s.asksAlone g = true) :
    s.host.tree.admits impl g = true := by
  simp only [asksAlone, Bool.and_eq_true, beq_iff_eq] at hAlone
  rw [SyncTree.admits, hAlone.1, hAlone.2]
  exact (g.1.lock_lawful hLawful).alone g.2

/-- The lists of subscribers are behind mutexes anyway. -/
theorem flush_mutex {full : List SignalStatus → Bool} (hNever : impl.poisons = false) :
    s.host.flush impl full = s.host.flush (readersFirst false) full := by
  have hLists (σ : Nat) : s.host.tree.admits impl (.subscribers σ, .exclusive) =
      s.host.tree.admits (readersFirst false) (.subscribers σ, .exclusive) := by
    have hLock : (Cell.subscribers σ).lock impl = (Cell.subscribers σ).lock (readersFirst false) :=
      congrArg mutex hNever
    rw [SyncTree.admits, SyncTree.admits, hLock]
  unfold SyncHost.flush
  cases s.host.phase with
  | swapped σ signals => simp only [hLists σ]
  | _ => rfl

/-- All locks that do not poison let in who is alone. -/
theorem step_alone (hLawful : impl.Lawful) (hNever : impl.poisons = false) (hAlone : s.Alone x) :
    step impl P root s x = step (readersFirst false) P root s x := by
  have hReaders := readersFirst_lawful false
  have hPoisons : (readersFirst false).poisons = false := rfl
  cases x with
  | act a =>
    cases a with
    | turn y =>
      cases y with
      | host =>
        cases hNext : s.host.tree.host.next? with
        | none => simp [step, hostRefused, hostEnters, unwrapLock, SyncHost.step, SyncTree.step,
            hNext]
        | some g =>
          have hOnly : s.asksAlone g = true := by simpa [Alone, hNext] using hAlone
          simp [step, hostRefused, unwrapLock, SyncHost.step, SyncTree.step, hNext, hNever,
            hPoisons, admits_alone hLawful hOnly, admits_alone hReaders hOnly]
      | granted k =>
        cases hFind : s.host.tree.asking.find? fun q => q.1 == k with
        | none => simp [step, hostRefused, hostEnters, SyncHost.step, SyncTree.step, hFind]
        | some q =>
          have hOnly : s.asksAlone q.2 = true := by simpa [Alone, hFind] using hAlone
          simp [step, hostRefused, refused, unwrapLock, SyncHost.step, SyncTree.step, hFind, hNever,
            hPoisons, admits_alone hLawful hOnly, admits_alone hReaders hOnly]
      | _ => rfl
    | flush =>
      simp [step, hostRefused, unwrapLock, SyncHost.step, flush_mutex hNever, hNever, hPoisons]
    | _ => rfl
  | hostPanics => simp [step, hostRefused, unwind, hNever, hPoisons]
  | otherPanics k => simp [step, leave, hNever, hPoisons]

end Alone

end PanickingHost

/-! ### An update that is cut short -/

section House

/-- The house locks itself and toggles its lamp. -/
def lockingBorrowing : BorrowingProgram Unit HouseModels Bool where
  full := houseFull
  expansion := houseProgram.expansion
  generated := houseProgram.generated
  block
    | .lamp, _, _, m, h => (houseSignal h m "light").map .act
    | .house, _, _, m, h => (houseSignal h m "locked").map .act ++
      (h.models[m]?.bind fun model => model.children "lamp").toList.map fun child =>
        .act (.send child ⟨"Toggle", []⟩)

theorem lockingBorrowing_valuesOnly : lockingBorrowing.ValuesOnly := by
  intro k block env m h h' hModels _
  simp only [lockingBorrowing]
  split <;> simp [houseSignal_models hModels, hModels]

/-- The house is locked when its lamp is lit, and only then. -/
def InStep (h : Heap HouseModels Bool) : Prop :=
  h.models = houseHeap.models ∧ ∃ locked light, h.signals = [locked, light] ∧
    locked.data = light.data

variable {h h' : Heap HouseModels Bool}

theorem InStep.flush (hInStep : InStep h) {full : List SignalStatus → Bool} (σ : Nat) :
    InStep (h.flush full σ) := by
  obtain ⟨hModels, locked, light, hSignals, hEq⟩ := hInStep
  refine ⟨hModels, ?_⟩
  rw [Heap.flush, hSignals]
  obtain _ | _ | σ := σ
  · exact ⟨_, light, rfl, (SignalRepr.flush_data _ _).trans hEq⟩
  · exact ⟨locked, _, rfl, hEq.trans (SignalRepr.flush_data _ _).symm⟩
  · exact ⟨locked, light, List.modify_eq_self (by simp), hEq⟩

theorem exec_use {V K T : Type} {P : Program V K T} {h h' : Heap K T} {σ : Nat} {u : SignalUse T}
    {rest : List (Stmt V K T)} {w : List Nat} (hExec : P.Exec h (.use σ u :: rest) h' w) :
    ∃ r w', h.signals[σ]? = some r ∧
      P.Exec { h with signals := h.signals.set σ (u.apply P.full r) } rest h' w' := by
  cases hExec with
  | act hHeap hRest =>
    obtain ⟨r, hr, rfl⟩ := Option.map_eq_some_iff.mp hHeap
    exact ⟨r, _, hr, hRest⟩

theorem exec_send {V K T : Type} {P : Program V K T} {h h' : Heap K T} {m : Nat}
    {message : Message V} {w : List Nat} (hExec : P.Exec h [.send m message] h' w) :
    ∃ body w', P.body h m message = some body ∧ P.Exec h body h' w' := by
  cases hExec with
  | act hHeap => cases hHeap
  | send hBody hRun hRest =>
    cases hRest
    exact ⟨_, _, hBody, hRun⟩

/-- Whatever the message, the house locks or unlocks itself and its lamp goes on or off. -/
theorem InStep.update (hInStep : InStep h) {message : Message Unit} {w : List Nat}
    (hUpdate : lockingBorrowing.toProgram.Exec h [.send 0 message] h' w) : InStep h' := by
  obtain ⟨models, signals⟩ := h
  obtain ⟨rfl, locked, light, rfl, hEq⟩ := hInStep
  obtain ⟨body, _, hBody, hHouse⟩ := exec_send hUpdate
  obtain ⟨ran, -, hBlock⟩ := Option.bind_eq_some_iff.mp hBody
  cases hBlock
  obtain ⟨_, _, hLocked, hHouse⟩ := exec_use hHouse
  cases hLocked
  obtain ⟨_, _, hWriter, hHouse⟩ := exec_use hHouse
  cases hWriter
  obtain ⟨body, _, hBody, hLamp⟩ := exec_send hHouse
  cases hBody
  obtain ⟨_, _, hLight, hLamp⟩ := exec_use hLamp
  cases hLight
  obtain ⟨_, _, hWriter, hLamp⟩ := exec_use hLamp
  cases hWriter
  cases hLamp
  exact ⟨rfl, _, _, rfl, congrArg not hEq⟩

/-- As long as no interceptor does anything, the house and its lamp are in step. -/
def Quiet (a : WholeHost Unit HouseModels Bool × Bool) : Prop :=
  (∀ b ∈ a.1.begun, b.1 = []) →
    (∀ rest message, a.1.stage = .intercepting rest message → rest = []) ∧ InStep a.1.heap

theorem Quiet.step {a b : WholeHost Unit HouseModels Bool × Bool} (hQuiet : Quiet a)
    (hStep : WholeHost.StepOrPanic lockingBorrowing.toProgram 0 a b) : Quiet b := by
  cases hStep with
  | panics a => exact hQuiet
  | steps a b hStep =>
    intro hBegun
    cases hStep with
    | next heap interceptors message begun =>
      obtain ⟨-, hInStep⟩ := hQuiet fun b hb => hBegun b (List.mem_append_left _ hb)
      refine ⟨fun rest message hStage => ?_, hInStep⟩
      cases hStage
      exact hBegun _ (List.mem_append_right _ (List.mem_singleton.mpr rfl))
    | handles a b hHandling =>
      cases hHandling with
      | intercepts heap heap' rest rest' message begun hStmt =>
        obtain rfl := (hQuiet hBegun).1 rest message rfl
        cases hStmt
      | updates heap updated message begun w hUpdate =>
        exact ⟨fun _ _ hStage => (by cases hStage), (hQuiet hBegun).2.update hUpdate⟩
    | accumulates heap begun => exact ⟨fun _ _ hStage => (by cases hStage), (hQuiet hBegun).2⟩
    | flushes heap σ signals begun =>
      exact ⟨fun _ _ hStage => (by cases hStage), (hQuiet hBegun).2.flush σ⟩
    | rests heap begun => exact ⟨fun _ _ hStage => (by cases hStage), (hQuiet hBegun).2⟩

/-- The host panics when the house is locked and its lamp still dark, and somebody looks at the
house. -/
def cutShort : List (PanickingHost.Action Unit HouseModels Bool) :=
  [.act (.next [] ⟨"Toggle", []⟩), .act (.turn .hostAsks), .act (.turn .host),
    .act (.turn .hostAsks), .act (.turn .host), .act (.turn .hostAsks), .act (.turn .host),
    .hostPanics, .act (.turn (.ask 0 (.model 0, .shared))), .act (.turn (.granted 0))]

theorem cutShort_seen {impl : Impl} (hLawful : impl.Lawful) (hNever : impl.poisons = false) :
    ∃ s, run (PanickingHost.step impl lockingBorrowing 0) (.new houseHeap [] []) cutShort =
        some s ∧
      s.host.tree.held = [(0, .model 0, .shared)] ∧ s.host.begun = [([], ⟨"Toggle", []⟩)] ∧
      s.host.tree.host.heap.signals.map SignalRepr.data = [true, false] := by
  have hAlone : Every (PanickingHost.step (readersFirst false) lockingBorrowing 0)
      PanickingHost.Alone (.new houseHeap [] []) cutShort := by
    decide
  rw [run_congr (hAlone.mono fun _ _ => PanickingHost.step_alone hLawful hNever)]
  exact ⟨_, rfl, rfl, rfl, rfl⟩

theorem Quiet.steps {a b : WholeHost Unit HouseModels Bool × Bool} (hQuiet : Quiet a)
    (hSteps : ReflTransGen (WholeHost.StepOrPanic lockingBorrowing.toProgram 0) a b) : Quiet b := by
  induction hSteps with
  | refl => exact hQuiet
  | tail _ hLast ih => exact ih.step hLast

/-- No host that makes each update at once has a locked house with a dark lamp. -/
theorem not_whole {impl : Impl} (hLawful : impl.Lawful) (hNever : impl.poisons = false) :
    ¬ PanickingHost.Whole impl lockingBorrowing 0 houseHeap [] [] cutShort := by
  rintro ⟨history, hStart, hNext, hAll⟩
  have hQuiet (n : Nat) : Quiet (history n) := by
    induction n with
    | zero =>
      rw [hStart]
      exact fun _ => ⟨fun _ _ hStage => (by cases hStage), rfl, _, _, rfl, rfl⟩
    | succ n ih => exact ih.steps (hNext n)
  obtain ⟨s, hRun, hHeld, hBegun, hSeen⟩ := cutShort_seen hLawful hNever
  obtain ⟨hShows, -⟩ := hAll cutShort.length s (by rwa [List.take_length])
  have hNone : ∀ b ∈ (history cutShort.length).1.begun, b.1 = [] := by
    rw [hShows.begun, hBegun]
    exact fun b hb => congrArg Prod.fst (List.mem_singleton.mp hb)
  obtain ⟨-, -, locked, light, hSignals, hEq⟩ := hQuiet cutShort.length hNone
  have hLook : (0, .model 0, .shared) ∈ s.host.tree.held := hHeld ▸ List.mem_singleton.mpr rfl
  rw [(hShows.heap 0 .shared hLook).values, hSignals] at hSeen
  simp [hEq] at hSeen

/-- Whoever looks at the root model is kept from half-done updates exactly where locks poison, as
`std`'s do and `spin`'s do not. -/
theorem whole_iff_poisons {impl : Impl} (hLawful : impl.Lawful) :
    (∀ (V K T : Type) (P : BorrowingProgram V K T) (root : Nat) (heap : Heap K T)
      (held asking : List (Nat × Guard)) (as : List (PanickingHost.Action V K T)),
      P.ValuesOnly → (∀ x ∈ as, x.writes = false) →
      PanickingHost.Whole impl P root heap held asking as) ↔ impl.poisons = true := by
  constructor
  · intro hAll
    refine eq_true_of_ne_false fun hNever => ?_
    exact not_whole hLawful hNever (hAll _ _ _ lockingBorrowing 0 houseHeap [] [] cutShort
      lockingBorrowing_valuesOnly (by decide))
  · intro hPoisons V K T P root heap held asking as hP hReads
    exact PanickingHost.whole_of_poisons hP hLawful hPoisons heap held asking as hReads

theorem whole_iff_poisons_readersFirst :
    (∀ (V K T : Type) (P : BorrowingProgram V K T) (root : Nat) (heap : Heap K T)
      (held asking : List (Nat × Guard)) (as : List (PanickingHost.Action V K T)),
      P.ValuesOnly → (∀ x ∈ as, x.writes = false) →
      PanickingHost.Whole (readersFirst true) P root heap held asking as) ↔
        (readersFirst true).poisons = true :=
  whole_iff_poisons (readersFirst_lawful true)

/-- After the panic somebody subscribes to the lamp's light, looks at it and looks again, and
somebody else asks for the house. -/
def lookAgain : List (PanickingHost.Action Unit HouseModels Bool) :=
  [.act (.turn (.ask 1 (.subscribers 1, .exclusive))), .act (.turn (.granted 1)),
    .act (.turn (.touch 1 1 .subscribe)), .act (.turn (.drop 1 (.subscribers 1, .exclusive))),
    .act (.turn (.ask 1 (.value 1, .shared))), .act (.turn (.granted 1)),
    .act (.turn (.ask 1 (.value 1, .shared))), .act (.turn (.ask 2 (.model 0, .shared)))]

theorem settles_after_panic_lookAgain : ∃ s t,
    run (PanickingHost.step (writersFirst true) lockingBorrowing 0) (.new houseHeap [] [])
      cutShort = some s ∧
    run (PanickingHost.step (writersFirst true) lockingBorrowing 0) s lookAgain = some t ∧
    t.host.tree.host.heap.Alike s.host.tree.host.heap ∧
      (∀ cell, cell.listed = false → t.poisoned cell = s.poisoned cell ∧
        ∀ k b, (k, cell, b) ∈ t.host.tree.held → t.poisoned cell = false) ∧
      ∀ k cell b, (k, cell, b) ∈ t.host.tree.asking → cell.listed = false →
        ∃ u, PanickingHost.step (writersFirst true) lockingBorrowing 0 t
            (.act (.turn (.granted k))) = some u ∧
          u.host.tree.isAsking k = false ∧
          (t.poisoned cell = false → (k, cell, b) ∈ u.host.tree.held) := by
  obtain ⟨s, t, hRun, hStopped, hLater⟩ : ∃ s t,
      run (PanickingHost.step (writersFirst true) lockingBorrowing 0) (.new houseHeap [] [])
        cutShort = some s ∧ s.stopped = true ∧
      run (PanickingHost.step (writersFirst true) lockingBorrowing 0) s lookAgain = some t :=
    ⟨_, _, rfl, rfl, rfl⟩
  exact ⟨s, t, hRun, hLater, PanickingHost.settles_after_panic (writersFirst_lawful true)
    (writersFirst_sharesReaders true) (by simp) .nil (by decide) hRun hStopped hLater⟩

end House

end Emyu.ModelTree
