import Emyu.Host.Linear
import Emyu.Macro.Calls

/-! The host of a generated root model: from the methods of the impl block, through the messages and
the channel, to the blocks that run. -/

namespace Emyu

open Macro Named Polling Fifo Runs

section Application

variable {V M W E R C : Type}

/-- What a block of an updater does: it changes the model and the world, and a value of the type
`Command` may come out. -/
abbrev Body (V M W E R : Type) :=
  Block → Env Ident V → M → W → M × W × Command CommandContext (M × W) E R

/-- The value of an arm: that of its call, or `Command::none()`. -/
def Macro.Rhs.command (rhs : Rhs) (c : Command CommandContext W E R) :
    Command CommandContext W E R :=
  match rhs with
  | .call _ => c
  | .callThenNone _ _ => .none

/-- The values of the message enum. -/
abbrev Macro.Expansion.RootMessage (x : Expansion) (V : Type) :=
  { m : Message V // x.message.Inhabited m }

/-- `Model::update` as it is generated. -/
def Macro.ImplModel.run (x : ImplModel) (body : Body V M W E R) (model : M) (world : W)
    (m : Message V) : M × W × Command CommandContext (M × W) E R :=
  match x.update m with
  | some ran =>
    let (model', world', command) := body ran.block ran.env model world
    (model', world', (x.matchCases[ran.arm]?).elim .none fun c => c.rhs.command command)
  | none => (model, world, .none)

/-- The parts of an application that are not generated: its types, what the blocks and the effects
do, the signals of the root model, and the messages of the models that handles are zoomed to. -/
structure Handwritten (x : Expansion) (V : Type) where
  Model : Type
  World : Type
  Effect : Type
  Signal : Type
  Child : Type
  decEq : DecidableEq Child
  childMessage : Child → Type
  body : Body V Model World Effect (x.RootMessage V)
  accumulateSignals : Model → World → List Signal
  flush : Signal → World → World
  act : Effect → World → World

namespace Handwritten

variable {x : Expansion} (H : Handwritten x V)

abbrev Message : Option H.Child → Type
  | none => x.RootMessage V
  | some child => H.childMessage child

/-- The application with the root model that the expansion is for. -/
abbrev application : Application where
  Model := H.Model
  World := H.World
  Effect := H.Effect
  Signal := H.Signal
  Models := Option H.Child
  Message := H.Message
  root := none
  decEq :=
    have := H.decEq
    inferInstance
  update model world message := x.implModel.run H.body model world message.1
  accumulateSignals := H.accumulateSignals
  flush := H.flush
  act := H.act

/-- The model after a call, which found this world: the block of the method that was called. -/
def after (item : InterfaceImpl) (model : H.Model) (call : H.World × Nat × List V) : H.Model :=
  match item.ownBlock call.2.1 call.2.2 with
  | some (block, env) => (H.body block env model call.1).1
  | none => model

end Handwritten

end Application

namespace Host

variable {V : Type} {T : Toolchain} {item : InterfaceImpl} {raw : RawModelArgs} {x : Expansion}
  {H : Handwritten x V}
  {ready : Nat → Channel H.application.RootMessage → Nat → Bool}
  {s t : Host H.application} {as : List (Action H.application)}

theorem update_eq_after (hBuild : build T item raw = .ok x) (hCompiles : Compiles item x)
    (world : H.World) (message : x.RootMessage V) :
    ∃ i args, x.call i args = some message.1 ∧ ∀ model,
      (H.application.update model world message).1 = H.after item model (world, i, args) := by
  obtain ⟨c, h, rfl⟩ := generated_of_build hBuild hCompiles
  obtain ⟨i, args, own, hCall, -, hOwn, hUpdate⟩ := h.runs_own message.2
  obtain ⟨ran, hRan, rfl⟩ := Option.map_eq_some_iff.mp hUpdate
  refine ⟨i, args, hCall, fun model => ?_⟩
  simp [Handwritten.application, ImplModel.run, Handwritten.after, hRan, hOwn]

/-- The applied messages are calls, and the model went through the blocks of their methods, each in
the world that its update found. -/
theorem fold_eq_after (hBuild : build T item raw = .ok x) (hCompiles : Compiles item x)
    (model : H.Model) (applied : List (H.World × x.RootMessage V)) :
    ∃ calls : List (Nat × List V),
      calls.map (fun call => x.call call.1 call.2) = applied.map (fun p => some p.2.1) ∧
      fold H.application model applied =
        ((applied.map Prod.fst).zip calls).foldl (H.after item) model := by
  induction applied generalizing model with
  | nil => exact ⟨[], rfl, rfl⟩
  | cons p rest ih =>
    obtain ⟨i, args, hCall, hAfter⟩ := update_eq_after (H := H) hBuild hCompiles p.1 p.2
    obtain ⟨calls, hCalls, hFold⟩ := ih (H.after item model (p.1, i, args))
    refine ⟨(i, args) :: calls, by simp [hCall, hCalls], ?_⟩
    rw [List.map_cons, List.zip_cons_cons, List.foldl_cons, ← hFold, ← hAfter model]
    rfl

/-- In every state that a host with a generated root model reaches, whoever sends and whatever the
commands do: the messages that were accepted are, in order, those of some calls of the generated
methods, the one under way and those in the queue; no handle's messages are out of the order of its
calls; and the model is what the blocks of the methods called make of the first one, each with the
arguments of its call and in the world that its update found. -/
theorem generated_linearised (hBuild : build T item raw = .ok x) (hCompiles : Compiles item x)
    (model : H.Model) (world : H.World) (interceptors : List H.application.Interceptor)
    (buffer : Nat) (hRun : run (step ready) (new model world interceptors buffer) as = some s) :
    ∃ calls : List (Nat × List V),
      calls.map (fun call => x.call call.1 call.2) = s.applied.map (fun p => some p.2.1) ∧
      s.channel.accepted.map (fun p => some p.2.1) =
        calls.map (fun call => x.call call.1 call.2) ++
          (s.phase.current.toList ++ s.channel.queue).map (fun m => some m.1) ∧
      (∀ id, (sentBy id s.channel.accepted).Sublist (sentBy id s.channel.called)) ∧
      s.model = ((s.applied.map Prod.fst).zip calls).foldl (H.after item) model := by
  have h := (Linear.new model world interceptors buffer).run hRun
  obtain ⟨calls, hCalls, hFold⟩ := fold_eq_after (H := H) hBuild hCompiles model s.applied
  refine ⟨calls, hCalls, ?_, fun id => ?_, h.model_eq.trans hFold⟩
  · have hAccepted : s.channel.accepted.map Prod.snd =
        s.applied.map Prod.snd ++ s.phase.current.toList ++ s.channel.queue := by
      rw [h.channel.fifo, h.taken]
    have hValues := congrArg (List.map fun m : x.RootMessage V => some m.1) hAccepted
    rw [hCalls]
    simpa only [List.map_append, List.map_map, Function.comp_def, List.append_assoc] using hValues
  · exact (List.sublist_append_left _ _).trans (h.channel.order id)

/-- The arm is of the type that `update` returns: a method that it returns the value of declares a
command. -/
def ArmTyped (x : ImplModel) (c : MatchCase) : Prop :=
  match c.rhs with
  | .call fnCall => ∃ fn ∈ x.modelFns, fn.name = fnCall.name ∧ fn.context.output.isCommand = true
  | .callThenNone _ _ => True

/-- Bodies that keep their arguments, over a world that nobody changes. -/
def keepArgs (x : Expansion) : Handwritten x Nat where
  Model := List Nat
  World := Unit
  Effect := Unit
  Signal := Unit
  Child := Empty
  decEq := inferInstance
  childMessage := Empty.elim
  body _ env model world := (model ++ env.map Prod.snd, world, .none)
  accumulateSignals _ _ := []
  flush _ world := world
  act _ world := world

/-- `clamp` is called on one handle and `reset` on another one, and then `clamp` again, while the
host handles the messages. -/
def clampSend {x : Expansion} (clamp reset clampAgain : x.RootMessage Nat) :
    List (Action (keepArgs x).application) :=
  [.updater, .updater, .run, .send 1 ⟨none, clamp⟩, .send 2 ⟨none, reset⟩, .accept 2, .host,
    .accept 1] ++ List.replicate 8 .host ++ [.send 1 ⟨none, clampAgain⟩, .accept 1] ++
  List.replicate 9 .host

theorem inhabited_gauge (hBuild : build gaugeTools gauge gaugeArgs = .ok x)
    (hVariants : (x.message.variants.map Variant.name).Nodup) {m : Message Nat} (i : Nat)
    (args : List Nat) (hCall : x.call i args = some m) : x.message.Inhabited m :=
  ((calls_are_messages Nat hBuild (gauge_compiles hVariants)).2.1 m).mpr ⟨i, args, hCall⟩

/-- The run with the messages of these calls, in the expansion of `gauge`. -/
theorem exists_clampSend : ∃ x, build gaugeTools gauge gaugeArgs = .ok x ∧
    (x.message.variants.map Variant.name).Nodup ∧
    (∀ c ∈ x.implModel.matchCases, ArmTyped x.implModel c) ∧
    ∃ (clamp reset clampAgain : x.RootMessage Nat) (s : Host (keepArgs x).application),
      x.call 0 [2, 9] = some clamp.1 ∧ x.call 1 [] = some reset.1 ∧
      x.call 0 [3, 4] = some clampAgain.1 ∧
      run (step Channel.unparked) (new [] () [] 1) (clampSend clamp reset clampAgain) = some s ∧
      s.applied.length = 3 ∧ s.model = [2, 9, 3, 4] := by
  have hBuild : build gaugeTools gauge gaugeArgs = .ok _ := rfl
  have hInhabited := @inhabited_gauge _ hBuild (by decide)
  refine ⟨_, hBuild, by decide, fun c hc => ?_, ⟨_, hInhabited 0 [2, 9] rfl⟩,
    ⟨_, hInhabited 1 [] rfl⟩, ⟨_, hInhabited 0 [3, 4] rfl⟩, _, rfl, rfl, rfl, rfl, rfl, rfl⟩
  rcases List.mem_cons.mp hc with rfl | hc
  · trivial
  · obtain rfl := List.mem_singleton.mp hc
    trivial

theorem generated_linearised_clamp : ∃ x, build gaugeTools gauge gaugeArgs = .ok x ∧
    ∃ (clamp reset clampAgain : x.RootMessage Nat) (s : Host (keepArgs x).application),
      x.call 0 [2, 9] = some clamp.1 ∧ x.call 1 [] = some reset.1 ∧
      x.call 0 [3, 4] = some clampAgain.1 ∧
      run (step Channel.unparked) (new [] () [] 1) (clampSend clamp reset clampAgain) = some s ∧
      s.model = [2, 9, 3, 4] ∧
      ∃ calls : List (Nat × List Nat),
        calls.map (fun call => x.call call.1 call.2) = s.applied.map (fun p => some p.2.1) ∧
        s.channel.accepted.map (fun p => some p.2.1) =
          calls.map (fun call => x.call call.1 call.2) ++
            (s.phase.current.toList ++ s.channel.queue).map (fun m => some m.1) ∧
        (∀ id, (sentBy id s.channel.accepted).Sublist (sentBy id s.channel.called)) ∧
        s.model = ((s.applied.map Prod.fst).zip calls).foldl ((keepArgs x).after gauge) [] := by
  obtain ⟨x, hBuild, hVariants, -, clamp, reset, clampAgain, s, hClamp, hReset, hAgain, hRun, -,
    hModel⟩ := exists_clampSend
  exact ⟨x, hBuild, clamp, reset, clampAgain, s, hClamp, hReset, hAgain, hRun, hModel,
    generated_linearised (H := keepArgs x) hBuild (gauge_compiles hVariants) [] () [] 1 hRun⟩

/-- The methods are generated without a return type, so the arms that are well typed all end with
`Command::none()`. -/
theorem run_command (hTyped : ∀ c ∈ x.implModel.matchCases, ArmTyped x.implModel c)
    (model : H.Model) (world : H.World) (m : Message V) :
    (x.implModel.run H.body model world m).2.2 = .none := by
  unfold ImplModel.run
  cases x.implModel.update m with
  | none => rfl
  | some ran =>
    show ((x.implModel.matchCases[ran.arm]?).elim _ _) = _
    cases hCase : x.implModel.matchCases[ran.arm]? with
    | none => rfl
    | some c =>
      have hArm := hTyped c (List.mem_of_getElem? hCase)
      unfold ArmTyped at hArm
      split at hArm
      next fnCall hRhs =>
        obtain ⟨fn, -, -, hCommand⟩ := hArm
        simp [ModelFn.context, ReturnType.isCommand] at hCommand
      next hRhs => simp [Rhs.command, hRhs]

/-- No task was spawned, and none is about to be. -/
structure Taskless (s : Host H.application) : Prop where
  tasks : s.tasks = []
  starts : s.starts = []
  phase : ∀ f, s.phase ≠ .accumulating (some f) ∧ s.phase ≠ .spawning (some f)

theorem Taskless.move (hTyped : ∀ c ∈ x.implModel.matchCases, ArmTyped x.implModel c)
    (h : s.Taskless) (hMove : Move ready s t) : t.Taskless := by
  have hNoTask : ∀ {k : Nat} {task : Task H.application}, s.tasks[k]? ≠ some task := by
    intro k task hTask
    simp [h.tasks] at hTask
  cases hMove with
  | updated message =>
    have hNone := run_command (H := H) hTyped s.model s.world message.1
    refine ⟨h.tasks, h.starts, fun f => ⟨fun hPhase => ?_, by simp⟩⟩
    have hSome := (Phase.accumulating.inj hPhase).symm.trans hNone
    cases hSome
  | accumulated command hPhase =>
    refine ⟨h.tasks, h.starts, fun f => ⟨by simp, fun hNew => ?_⟩⟩
    obtain rfl := Phase.spawning.inj hNew
    exact (h.phase f).1 hPhase
  | spawned command hPhase => exact ((h.phase command).2 hPhase).elim
  | started k task hTask => exact (hNoTask hTask).elim
  | advanced k task w hTask => exact (hNoTask hTask).elim
  | emitted k task message root c hTask => exact (hNoTask hTask).elim
  | finished k task c hTask => exact (hNoTask hTask).elim
  | flushed | world | channel | opened | zoomed | idle => exact ⟨h.tasks, h.starts, h.phase⟩
  | _ => exact ⟨h.tasks, h.starts, fun f => ⟨by simp, by simp⟩⟩

/-- A generated root model whose expansion type checks never has the host run a command: in every
state that is reached, no task was spawned and no closure of a command called. -/
theorem never_spawns (hTyped : ∀ c ∈ x.implModel.matchCases, ArmTyped x.implModel c)
    (model : H.Model) (world : H.World) (interceptors : List H.application.Interceptor)
    (buffer : Nat) (hRun : run (step ready) (new model world interceptors buffer) as = some s) :
    s.tasks = [] ∧ s.starts = [] := by
  have h : s.Taskless := run_invariant (fun _ _ _ h hStep => h.move hTyped (step_move hStep))
    ⟨rfl, rfl, fun f => ⟨by simp [new], by simp [new]⟩⟩ hRun
  exact ⟨h.tasks, h.starts⟩

theorem never_spawns_clamp : ∃ x, build gaugeTools gauge gaugeArgs = .ok x ∧
    ∃ (clamp reset clampAgain : x.RootMessage Nat) (s : Host (keepArgs x).application),
      run (step Channel.unparked) (new [] () [] 1) (clampSend clamp reset clampAgain) = some s ∧
        s.applied.length = 3 ∧ s.tasks = [] ∧ s.starts = [] := by
  obtain ⟨x, hBuild, -, hTyped, clamp, reset, clampAgain, s, -, -, -, hRun, hApplied, -⟩ :=
    exists_clampSend
  exact ⟨x, hBuild, clamp, reset, clampAgain, s, hRun, hApplied,
    never_spawns (H := keepArgs x) hTyped [] () [] 1 hRun⟩

end Host

end Emyu
