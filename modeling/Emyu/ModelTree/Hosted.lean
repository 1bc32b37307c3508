import Emyu.Host.Step
import Emyu.ModelTree.Flush

/-! The host of a tree of models: the steps of `handle_message`, taken one after the other, are what
`Handles` says of the tree. -/

namespace Emyu

open Fifo Runs

namespace Host

variable {A : Application} {ready : Nat → Channel A.RootMessage → Nat → Bool} {s : Host A}

/-- The loop at the end of `handle_message`. -/
theorem run_flushing (hPhase : s.phase = .flushing) :
    run (step ready) s (List.replicate (s.signals.length + 1) .host) =
      some { s with
        phase := .waiting
        signals := []
        world := s.signals.foldl (fun world signal => A.flush signal world) s.world } := by
  obtain ⟨signals, hSignals⟩ : ∃ signals, s.signals = signals := ⟨_, rfl⟩
  induction signals generalizing s with
  | nil => simp [hSignals, run_cons, step, hostStep, hPhase]
  | cons signal rest ih =>
    have hStep : s.step ready .host =
        some { s with signals := rest, world := A.flush signal s.world } := by
      simp [step, hostStep, hPhase, hSignals]
    have hRest := ih (s := { s with signals := rest, world := A.flush signal s.world }) hPhase rfl
    rw [hSignals, List.length_cons, List.replicate_succ, run_cons, hStep, Option.bind_some]
    exact hRest

/-- The interceptors run one by one, and what each keeps of the world they all keep. -/
theorem run_intercepting {message : A.RootMessage} {k : Nat} {R : A.World → A.World → Prop}
    (hPhase : s.phase = .intercepting message k) (hRefl : ∀ w, R w w)
    (hTrans : ∀ {u v w}, R u v → R v w → R u w)
    (hR : ∀ interceptor ∈ s.interceptors.drop k, ∀ seen, R seen.2.1 (interceptor.head seen)) :
    ∃ n t, run (step ready) s (List.replicate n .host) = some t ∧ t.phase = .updating message ∧
      t.model = s.model ∧ t.signals = s.signals ∧ R s.world t.world := by
  obtain ⟨left, hLeft⟩ : ∃ left, s.interceptors.drop k = left := ⟨_, rfl⟩
  induction left generalizing s k with
  | nil =>
    have hNone : s.interceptors[k]? = none :=
      List.getElem?_eq_none (List.drop_eq_nil_iff.mp hLeft)
    refine ⟨1, { s with phase := .updating message }, ?_, rfl, rfl, rfl, hRefl _⟩
    simp [step, hostStep, hPhase, hNone]
  | cons interceptor rest ih =>
    have hSome : s.interceptors[k]? = some interceptor := by
      have hHead := congrArg (fun l => l[0]?) hLeft
      simpa using hHead
    let s₁ : Host A := { s with
      phase := .intercepting message (k + 1)
      interceptors := s.interceptors.set k (interceptor.next (s.model, s.world, message))
      world := interceptor.head (s.model, s.world, message)
      trail := s.trail ++ [.intercepted k s.model message] }
    have hStep : s.step ready .host = some s₁ := by
      simp [step, hostStep, hPhase, hSome, s₁]
    have hDrop : s₁.interceptors.drop (k + 1) = rest := by
      have hTail := congrArg List.tail hLeft
      rw [List.tail_drop, List.tail_cons] at hTail
      simp only [s₁]
      rw [List.drop_set_of_lt (Nat.lt_succ_self k), hTail]
    obtain ⟨n, t, hRun, hUpdating, hModel, hSignals, hWorld⟩ := ih (s := s₁) (k := k + 1) rfl
      (fun i hi seen => hR i (by
        rw [hLeft]
        rw [hDrop] at hi
        exact List.mem_cons_of_mem _ hi) seen) hDrop
    have hFirst : R s.world s₁.world :=
      hR interceptor (by simp [hLeft]) (s.model, s.world, message)
    refine ⟨n + 1, t, ?_, hUpdating, hModel, hSignals, hTrans hFirst hWorld⟩
    rw [List.replicate_succ, run_cons, hStep]
    exact hRun

/-- From the update on, `handle_message` needs no one else. -/
theorem run_updating {message : A.RootMessage} (hPhase : s.phase = .updating message) :
    ∃ n t, run (step ready) s (List.replicate n .host) = some t ∧ t.phase = .waiting ∧
      t.model = (A.update s.model s.world message).1 ∧ t.signals = [] ∧
      t.world = (s.signals ++ A.accumulateSignals t.model
        (A.update s.model s.world message).2.1).foldl (fun world signal => A.flush signal world)
        (A.update s.model s.world message).2.1 := by
  let s₁ : Host A := { s with
    phase := .accumulating (A.update s.model s.world message).2.2
    model := (A.update s.model s.world message).1
    world := (A.update s.model s.world message).2.1
    applied := s.applied ++ [(s.world, message)]
    trail := s.trail ++ [.updated s.model message] }
  let s₂ : Host A := { s₁ with
    phase := .spawning (A.update s.model s.world message).2.2
    signals := s₁.signals ++ A.accumulateSignals s₁.model s₁.world }
  have hUpdate : s.step ready .host = some s₁ := by simp [step, hostStep, hPhase, s₁]
  have hAccumulate : s₁.step ready .host = some s₂ := by simp [step, hostStep, s₁, s₂]
  obtain ⟨s₃, hSpawn, hFlushing, hModel, hSignals, hWorld⟩ : ∃ s₃, s₂.step ready .host = some s₃ ∧
      s₃.phase = .flushing ∧ s₃.model = s₂.model ∧ s₃.signals = s₂.signals ∧
      s₃.world = s₂.world := by
    cases hCommand : (A.update s.model s.world message).2.2 with
    | none => exact ⟨{ s₂ with phase := .flushing }, by simp [step, hostStep, s₂, hCommand], rfl,
        rfl, rfl, rfl⟩
    | some command => exact ⟨{ s₂.spawn command with phase := .flushing },
        by simp [step, hostStep, s₂, hCommand], rfl, rfl, rfl, rfl⟩
  obtain ⟨t, hFlush, hWaiting, hModel', hEmpty, hFlushed⟩ : ∃ t,
      run (step ready) s₃ (List.replicate (s₃.signals.length + 1) .host) = some t ∧
      t.phase = .waiting ∧ t.model = s₃.model ∧ t.signals = [] ∧
      t.world = s₃.signals.foldl (fun world signal => A.flush signal world) s₃.world :=
    ⟨_, run_flushing hFlushing, rfl, rfl, rfl, rfl⟩
  refine ⟨s₃.signals.length + 1 + 3, t, ?_, hWaiting, hModel'.trans hModel, hEmpty, ?_⟩
  · rw [List.replicate_succ, run_cons, hUpdate, Option.bind_some, List.replicate_succ, run_cons,
      hAccumulate, Option.bind_some, List.replicate_succ, run_cons, hSpawn, Option.bind_some]
    exact hFlush
  · rw [hFlushed, hSignals, hWorld, hModel', hModel]

end Host

namespace ModelTree

open Macro

variable {V K T Effect : Type}

/-- An application of model trees: `run` is what the updater of the root model does to the heap for
a message, and the command it returns. -/
def Program.application (P : Program V K T) (act : Effect → Heap K T → Heap K T)
    (run : Nat → Heap K T → Message V →
      Heap K T × Command CommandContext (Nat × Heap K T) Effect (Message V)) : Application where
  Model := Nat
  World := Heap K T
  Effect := Effect
  Signal := Nat
  Models := Unit
  Message := fun _ => Message V
  root := ()
  decEq := inferInstance
  update := fun root heap message => (root, run root heap message)
  accumulateSignals := fun root heap => P.accumulateSignals heap root
  flush := fun σ heap => heap.flush P.full σ
  act := act

theorem Program.Exec.trans {P : Program V K T} {h₁ h₂ h₃ : Heap K T}
    {stmts stmts' : List (Stmt V K T)} {w w' : List Nat} (h : P.Exec h₁ stmts h₂ w)
    (h' : P.Exec h₂ stmts' h₃ w') : P.Exec h₁ (stmts ++ stmts') h₃ (w ++ w') := by
  induction h with
  | done => exact h'
  | act ha _ ih =>
    rw [List.append_assoc]
    exact .act ha (ih h')
  | send hb hBody _ _ ih =>
    rw [List.append_assoc]
    exact .send hb hBody (ih h')

/-- The host's own steps handle the message of the tree of models it holds, when its interceptors
and its updaters do what some statements do. -/
theorem handle_message_handles {P : Program V K T} {act : Effect → Heap K T → Heap K T}
    {run : Nat → Heap K T → Message V →
      Heap K T × Command CommandContext (Nat × Heap K T) Effect (Message V)}
    {ready : Nat → Channel (Message V) → Nat → Bool} {s : Host (P.application act run)}
    {message : Message V} (hPhase : s.phase = .intercepting message 0)
    (hInterceptors : ∀ interceptor ∈ s.interceptors, ∀ seen : Nat × Heap K T × Message V,
      ∃ stmts w, P.Exec seen.2.1 stmts (interceptor.head seen) w)
    (hRun : ∀ heap, ∃ w, P.Exec heap [.send s.model message] (run s.model heap message).1 w) :
    ∃ n t updated w, Runs.run (Host.step ready) s (List.replicate n .host) = some t ∧
      t.phase = .waiting ∧ TreeHost.Handles P ⟨s.model, s.signals, s.world⟩ message
        ⟨t.model, t.signals, t.world⟩ updated w := by
  let Reaches (h h' : Heap K T) : Prop := ∃ stmts w, P.Exec h stmts h' w
  have hTrans : ∀ {u v w : Heap K T}, Reaches u v → Reaches v w → Reaches u w := by
    intro u v w hu hv
    obtain ⟨stmts, written, hu⟩ := hu
    obtain ⟨stmts', written', hv⟩ := hv
    exact ⟨_, _, hu.trans hv⟩
  obtain ⟨n, t, hIntercept, hUpdating, hModel, hSignals, stmts, w, hSeen⟩ :=
    @Host.run_intercepting (P.application act run) ready s message 0 Reaches hPhase
      (fun h => ⟨[], [], .done h⟩) hTrans fun i hi => hInterceptors i (List.mem_of_mem_drop hi)
  obtain ⟨n', t', hHandle, hWaiting, hModel', hEmpty, hWorld⟩ :=
    @Host.run_updating (P.application act run) ready t message hUpdating
  have hRoot : t'.model = s.model := hModel'.trans hModel
  let updated : Heap K T := (run s.model t.world message).1
  obtain ⟨w', hUpdate⟩ := hRun t.world
  have hHandles : TreeHost.Handles P ⟨s.model, s.signals, s.world⟩ message _ updated (w ++ w') :=
    .intro hSeen hUpdate
  refine ⟨n + n', t', updated, w ++ w', ?_, hWaiting, ?_⟩
  · rw [List.replicate_add]
    exact run_trans hIntercept hHandle
  · have hHeap : t'.world = (TreeHost.flushAll P.full ⟨s.model,
        List.append s.signals (P.accumulateSignals updated s.model), updated⟩).heap := by
      rw [hWorld, hRoot, hSignals, hModel]
      rfl
    rw [hRoot, hEmpty, hHeap]
    exact hHandles

end ModelTree

end Emyu
