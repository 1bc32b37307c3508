import Emyu.Host.Linear
import Mathlib.Data.List.Induction

/-! `HostBuilder`: what each of its methods sets, what a builder holds after any calls of them, and
what `build` makes of it. -/

namespace Emyu

/-- The state types that a program keeps in its world, and the values of each. -/
structure StateTypes where
  State : Type
  Value : State → Type
  decEq : DecidableEq State

instance (S : StateTypes) : DecidableEq S.State := S.decEq

/-- `WorldRepr`: a `TypeMap`, which has at most one value of each type. -/
structure WorldRepr (S : StateTypes) where
  typeMap : (t : S.State) → Option (S.Value t)

namespace WorldRepr

variable {S : StateTypes}

/-- `WorldRepr::default`. -/
def empty : WorldRepr S := ⟨fun _ => none⟩

/-- `add_with`. `add` calls it with `S::default()`. -/
def addWith (w : WorldRepr S) {t : S.State} (value : S.Value t) : WorldRepr S :=
  ⟨Function.update w.typeMap t (some value)⟩

def tryState (w : WorldRepr S) (t : S.State) : Option (S.Value t) := w.typeMap t

/-- `add_with` replaces the value of its own type and keeps the others. -/
theorem tryState_addWith (w : WorldRepr S) {u : S.State} (value : S.Value u) (t : S.State) :
    (w.addWith value).tryState t =
      (if h : u = t then some (h ▸ value) else none).or (w.tryState t) := by
  by_cases h : u = t
  · subst h
    simp [addWith, tryState]
  · simp [addWith, tryState, Function.update_of_ne (Ne.symm h), h]

end WorldRepr

/-- What `build` puts in a `Host`; `message_rx` and the sender of `updater` are the two ends of
`channel`. -/
structure BuiltHost (A : Application) (S : StateTypes) (Spawner : Type) where
  model : A.Model
  world : WorldRepr S
  interceptors : List A.Interceptor
  spawner : Spawner
  signals : List A.Signal
  updater : Updater A
  buffer : Nat
  channel : Fifo.Channel A.RootMessage

structure HostBuilder (A : Application) (S : StateTypes) (Spawner : Type) where
  model : Option A.Model
  world : WorldRepr S
  interceptors : List A.Interceptor
  spawner : Option Spawner
  bufferSize : Nat

namespace HostBuilder

variable {A : Application} {S : StateTypes} {Spawner : Type}

/-- `DEFAULT_CHANNEL_BUFFER_SIZE`. -/
def defaultChannelBufferSize : Nat := 64

/-- `HostBuilder::default`, which `new` returns. -/
def new : HostBuilder A S Spawner where
  model := none
  world := .empty
  interceptors := []
  spawner := none
  bufferSize := defaultChannelBufferSize

section Setters

variable (b : HostBuilder A S Spawner)

def setModel (value : A.Model) : HostBuilder A S Spawner := { b with model := some value }

def stateWith {t : S.State} (value : S.Value t) : HostBuilder A S Spawner :=
  { b with world := b.world.addWith value }

def interceptor (value : A.Interceptor) : HostBuilder A S Spawner :=
  { b with interceptors := b.interceptors ++ [value] }

def setBufferSize (value : Nat) : HostBuilder A S Spawner := { b with bufferSize := value }

/-- `build`, which panics with the text of the `Except.error`. `mpsc::channel` takes the buffer
sizes that are `allowed`. -/
def build (allowed : Nat → Bool) : Except String (BuiltHost A S Spawner) := do
  let model ← b.model.elim (.error "RootModel was not initialized") .ok
  if !allowed b.bufferSize then
    .error "requested buffer size too large"
  let spawner ← b.spawner.elim (.error "spawner was not initialized") .ok
  .ok {
    model := model
    world := b.world
    interceptors := b.interceptors
    spawner := spawner
    signals := []
    updater := .new
    buffer := b.bufferSize
    channel := .new }

end Setters

/-- The public methods that take a builder and return one. `defaultModel` and `state` come with
what `Default::default` returned to them. -/
inductive Call (A : Application) (S : StateTypes) where
  | model (value : A.Model)
  | defaultModel (value : A.Model)
  | state {t : S.State} (value : S.Value t)
  | stateWith {t : S.State} (value : S.Value t)
  | interceptor (value : A.Interceptor)
  | bufferSize (value : Nat)

namespace Call

/-- The method itself. -/
def apply (b : HostBuilder A S Spawner) : Call A S → HostBuilder A S Spawner
  | .model value => b.setModel value
  | .defaultModel value => b.setModel value
  | .state value => b.stateWith value
  | .stateWith value => b.stateWith value
  | .interceptor value => b.interceptor value
  | .bufferSize value => b.setBufferSize value

def model? : Call A S → Option A.Model
  | .model value | .defaultModel value => some value
  | _ => none

def state? (t : S.State) : Call A S → Option (S.Value t)
  | .state (t := u) value | .stateWith (t := u) value =>
    if h : u = t then some (h ▸ value) else none
  | _ => none

def interceptor? : Call A S → Option A.Interceptor
  | .interceptor value => some value
  | _ => none

def bufferSize? : Call A S → Option Nat
  | .bufferSize value => some value
  | _ => none

end Call

/-- The builder after the calls in order. -/
def after (calls : List (Call A S)) : HostBuilder A S Spawner := calls.foldl Call.apply new

variable {calls : List (Call A S)}

theorem after_append (call : Call A S) :
    (after (calls ++ [call]) : HostBuilder A S Spawner) = call.apply (after calls) := by
  simp [after]

theorem after_model :
    (after calls : HostBuilder A S Spawner).model = (calls.filterMap Call.model?).getLast? := by
  induction calls using List.reverseRecOn with
  | nil => rfl
  | append_singleton calls call ih =>
    rw [after_append, List.filterMap_append, List.getLast?_append]
    cases call <;>
      simp [Call.apply, Call.model?, setModel, stateWith, interceptor, setBufferSize, ih]

theorem after_world (t : S.State) :
    (after calls : HostBuilder A S Spawner).world.tryState t =
      (calls.filterMap (Call.state? t)).getLast? := by
  induction calls using List.reverseRecOn with
  | nil => rfl
  | append_singleton calls call ih =>
    rw [after_append, List.filterMap_append, List.getLast?_append, ← ih]
    cases call with
    | state value | stateWith value =>
      simp only [Call.apply, stateWith, WorldRepr.tryState_addWith, List.filterMap_cons,
        Call.state?]
      split <;> rfl
    | _ => simp [Call.apply, Call.state?, setModel, interceptor, setBufferSize]

theorem after_interceptors :
    (after calls : HostBuilder A S Spawner).interceptors = calls.filterMap Call.interceptor? := by
  induction calls using List.reverseRecOn with
  | nil => rfl
  | append_singleton calls call ih =>
    rw [after_append, List.filterMap_append]
    cases call <;>
      simp [Call.apply, Call.interceptor?, setModel, stateWith, interceptor, setBufferSize, ih]

theorem after_bufferSize :
    (after calls : HostBuilder A S Spawner).bufferSize =
      (calls.filterMap Call.bufferSize?).getLast?.getD defaultChannelBufferSize := by
  induction calls using List.reverseRecOn with
  | nil => rfl
  | append_singleton calls call ih =>
    rw [after_append, List.filterMap_append, List.getLast?_append]
    cases call <;>
      simp [Call.apply, Call.bufferSize?, setModel, stateWith, interceptor, setBufferSize, ih]

/-- No call sets the spawner. -/
theorem after_spawner : (after calls : HostBuilder A S Spawner).spawner = none := by
  induction calls using List.reverseRecOn with
  | nil => rfl
  | append_singleton calls call ih => rw [after_append]; cases call <;> exact ih

theorem build_of_model {allowed : Nat → Bool} {b : HostBuilder A S Spawner} {model : A.Model}
    {spawner : Spawner} (hModel : b.model = some model) (hAllowed : allowed b.bufferSize = true)
    (hSpawner : b.spawner = some spawner) :
    b.build allowed = .ok {
      model := model
      world := b.world
      interceptors := b.interceptors
      spawner := spawner
      signals := []
      updater := .new
      buffer := b.bufferSize
      channel := .new } := by
  unfold build
  rw [hModel, hAllowed, hSpawner]
  rfl

/-- The host that the calls ask for, whatever its spawner. -/
structure Matches (calls : List (Call A S)) (host : BuiltHost A S Spawner) : Prop where
  model : (calls.filterMap Call.model?).getLast? = some host.model
  interceptors : host.interceptors = calls.filterMap Call.interceptor?
  world : ∀ t, host.world.tryState t = (calls.filterMap (Call.state? t)).getLast?
  buffer : host.buffer =
    (calls.filterMap Call.bufferSize?).getLast?.getD defaultChannelBufferSize

/-- With a spawner, the calls would yield the host they ask for. -/
theorem build_matches {allowed : Nat → Bool} {model : A.Model} (spawner : Spawner)
    (hModel : (calls.filterMap Call.model?).getLast? = some model)
    (hAllowed : allowed (after calls : HostBuilder A S Spawner).bufferSize = true) :
    ∃ host, { (after calls : HostBuilder A S Spawner) with spawner := some spawner }.build allowed =
      .ok host ∧ Matches calls host ∧ host.spawner = spawner :=
  ⟨_, build_of_model (after_model.trans hModel) hAllowed rfl,
    ⟨hModel, after_interceptors, after_world, after_bufferSize⟩, rfl⟩

/-- `build` returns, and the host is the one that the calls ask for. -/
def Yields (Spawner : Type) (allowed : Nat → Bool) (calls : List (Call A S)) : Prop :=
  ∃ host : BuiltHost A S Spawner, (after calls).build allowed = .ok host ∧ Matches calls host

/-- `build` panics after every sequence of calls, for want of a model or else of a spawner. -/
theorem build_after {allowed : Nat → Bool}
    (hAllowed : allowed (after calls : HostBuilder A S Spawner).bufferSize = true) :
    (after calls : HostBuilder A S Spawner).build allowed =
      .error (match (calls.filterMap Call.model?).getLast? with
        | none => "RootModel was not initialized"
        | some _ => "spawner was not initialized") := by
  unfold build
  rw [after_model, after_spawner, hAllowed]
  cases (calls.filterMap Call.model?).getLast? <;> rfl

/-- No sequence of calls yields a host. -/
theorem not_yields (Spawner : Type) (allowed : Nat → Bool) (calls : List (Call A S)) :
    ¬ Yields Spawner allowed calls := by
  rintro ⟨host, hBuild, -⟩
  unfold build at hBuild
  rw [after_spawner] at hBuild
  cases hModel : (after calls : HostBuilder A S Spawner).model with
  | none => rw [hModel] at hBuild; cases hBuild
  | some model =>
    rw [hModel] at hBuild
    cases hAllowed : allowed (after calls : HostBuilder A S Spawner).bufferSize <;>
      (rw [hAllowed] at hBuild; cases hBuild)

/-- One state type, a counter. -/
def counters : StateTypes := ⟨Unit, fun _ => Nat, inferInstance⟩

/-- `Host::builder().model(..).state_with(1).buffer_size(0).build()` panics. -/
theorem builder_without_spawner_panics : ¬ ∀ calls : List (Call journal counters),
    (calls.filterMap Call.model?).isEmpty = false → Yields Unit (fun _ => true) calls := by
  intro hAll
  obtain ⟨host, hBuild, -⟩ := hAll [.model [], .stateWith (t := ()) (1 : Nat), .bufferSize 0] rfl
  cases hBuild

end HostBuilder

namespace BuiltHost

variable {A : Application} {S : StateTypes} {Spawner : Type}

/-- The host before its `run`, in a program whose world holds the built one by `share`. -/
def start (share : WorldRepr S → A.World) (host : BuiltHost A S Spawner) : Host A :=
  { Host.new host.model (share host.world) host.interceptors host.buffer with
    signals := host.signals
    channel := host.channel
    updaters := fun _ => host.updater }

/-- What `build` makes, given a spawner, is where the runs of a host begin. -/
theorem start_of_build {allowed : Nat → Bool} {b : HostBuilder A S Spawner}
    {host : BuiltHost A S Spawner} (share : WorldRepr S → A.World)
    (hBuild : b.build allowed = .ok host) :
    host.start share = Host.new host.model (share b.world) b.interceptors b.bufferSize := by
  obtain ⟨model, world, interceptors, spawner, bufferSize⟩ := b
  unfold HostBuilder.build at hBuild
  cases model with
  | none => cases hBuild
  | some model =>
    cases hAllowed : allowed bufferSize <;> simp only [hAllowed] at hBuild
    · cases hBuild
    · cases spawner with
      | none => cases hBuild
      | some spawner => cases hBuild; rfl

end BuiltHost

end Emyu
