import Emyu.Command
import Emyu.Lib.Fifo

/-! The host: its message loop in the steps that other code can come between, the tasks it spawns,
and what everybody else does with the handles they hold. -/

namespace Emyu

open Polling Fifo

/-- `CommandContext`: the host's own model and world, and the sender its `updater` was given. -/
structure CommandContext where
  updater : Nat
  deriving DecidableEq

/-- An application: its root model and what the host calls of it. `World` is everything shared that
the model, the commands and the rest of the program can change; `Models` are the model types. -/
structure Application where
  Model : Type
  World : Type
  Effect : Type
  Signal : Type
  Models : Type
  Message : Models → Type
  root : Models
  decEq : DecidableEq Models
  update : Model → World → Message root →
    Model × World × Command CommandContext (Model × World) Effect (Message root)
  accumulateSignals : Model → World → List Signal
  flush : Signal → World → World
  act : Effect → World → World

namespace Application

variable (A : Application)

instance : DecidableEq A.Models := A.decEq

abbrev RootMessage := A.Message A.root

/-- `CommandRepr`, the closure inside a command. -/
abbrev CommandRepr := CommandContext → A.Model × A.World →
  List A.Effect × Strm (A.Model × A.World) A.Effect A.RootMessage

/-- An `Interceptor`: it sees the model, the world and the message, and may change the world. -/
abbrev Interceptor := Mealy (A.Model × A.World × A.RootMessage) A.World

end Application

variable {A : Application}

/-- `Updater`: the message type it takes and the mapper to the root's. Its `tx` is the sender of
the same number. -/
structure Updater (A : Application) where
  model : A.Models
  mapper : A.Message model → A.RootMessage

namespace Updater

def new : Updater A := ⟨A.root, id⟩

/-- `zoom`, for a handle whose messages are those of `parent`. -/
def zoom (u : Updater A) {child parent : A.Models} (lens : A.Message child → A.Message parent) :
    Option (Updater A) :=
  if h : parent = u.model then some ⟨child, fun m => u.mapper (h ▸ lens m)⟩ else none

/-- `(self.mapper)(message)`. -/
def map (u : Updater A) (message : Σ m, A.Message m) : Option A.RootMessage :=
  if h : message.1 = u.model then some (u.mapper (h ▸ message.2)) else none

@[simp] theorem map_new (message : A.RootMessage) :
    (new : Updater A).map ⟨A.root, message⟩ = some message := by
  simp [map, new]

end Updater

/-- Where the message loop is: in `message_rx.next().await`, or between two steps of
`handle_message`. -/
inductive Phase (A : Application) where
  | built
  | waiting
  | intercepting (message : A.RootMessage) (k : Nat)
  | updating (message : A.RootMessage)
  | accumulating (command : Option A.CommandRepr)
  | spawning (command : Option A.CommandRepr)
  | flushing
  | stopped

inductive Stage (A : Application) where
  | spawned
  | running (stream : Strm (A.Model × A.World) A.Effect A.RootMessage)
  | ended

/-- The future that `handle_message` spawns for a command: `command` was returned for the message
`parent`, counted from 0, and `emitted` records the values of its stream. -/
structure Task (A : Application) where
  parent : Nat
  command : A.CommandRepr
  context : CommandContext
  sender : Nat
  stage : Stage A
  emitted : List A.RootMessage

inductive Seen (A : Application) where
  | intercepted (k : Nat) (model : A.Model) (message : A.RootMessage)
  | updated (model : A.Model) (message : A.RootMessage)

/-- The host, the handles to it and its tasks. `outside` says which senders belong to handles that
neither the host nor one of its tasks keeps to itself. `applied` records each update with the world
it found, `trail` the calls of interceptors and updates with the model they saw, and `starts` the
commands called. -/
structure Host (A : Application) where
  phase : Phase A
  model : A.Model
  world : A.World
  interceptors : List A.Interceptor
  signals : List A.Signal
  buffer : Nat
  channel : Channel A.RootMessage
  updaters : Nat → Updater A
  outside : Nat → Bool
  tasks : List (Task A)
  applied : List (A.World × A.RootMessage)
  trail : List (Seen A)
  starts : List (Nat × CommandContext)

inductive Action (A : Application) where
  | updater
  | run
  | host
  | poll (k : Nat)
  | send (id : Nat) (message : Σ m, A.Message m)
  | accept (id : Nat)
  | cancel (id : Nat)
  | clone (id : Nat)
  | zoom (id : Nat) (child parent : A.Models) (lens : A.Message child → A.Message parent)
  | drop (id : Nat)
  | world (w : A.World)

namespace Host

/-- What `HostBuilder::build` makes: sender 0 is the host's own `updater`. -/
def new (model : A.Model) (world : A.World) (interceptors : List A.Interceptor) (buffer : Nat) :
    Host A where
  phase := .built
  model := model
  world := world
  interceptors := interceptors
  signals := []
  buffer := buffer
  channel := .new
  updaters := fun _ => .new
  outside := fun _ => false
  tasks := []
  applied := []
  trail := []
  starts := []

/-- A new sender for the updater `u`, held outside or not. -/
def openUpdater (s : Host A) (u : Updater A) (outside : Bool) : Host A :=
  { s with
    channel := s.channel.openSender
    updaters := Function.update s.updaters s.channel.made u
    outside := Function.update s.outside s.channel.made outside }

/-- `spawn_detached`: a context and an updater of its own for the task, both clones of the
host's `updater`. -/
def spawn (s : Host A) (command : A.CommandRepr) : Host A :=
  let s' := (s.openUpdater (s.updaters 0) true).openUpdater (s.updaters 0) false
  { s' with
    tasks := s.tasks ++ [{
      parent := s.applied.length - 1
      command := command
      context := ⟨s.channel.made⟩
      sender := s.channel.made + 1
      stage := .spawned
      emitted := [] }] }

def setTask (s : Host A) (k : Nat) (t : Task A) : Host A := { s with tasks := s.tasks.set k t }

section Step

variable (ready : Nat → Channel A.RootMessage → Nat → Bool)

/-- The channel operation `op`, under futures' rule for which waiting sends are taken. -/
def channelStep (s : Host A) (op : Op A.RootMessage) : Option (Host A) :=
  (s.channel.step (ready s.buffer) op).map fun channel => { s with channel := channel }

/-- The next step of `run`, `run_once` and `handle_message`. -/
def hostStep (s : Host A) : Option (Host A) :=
  match s.phase with
  | .waiting =>
    match s.channel.poll with
    | .ready (some message) =>
      (s.channelStep ready .take).map fun s => { s with phase := .intercepting message 0 }
    | .ready none => some { s with phase := .stopped }
    | .pending => none
  | .intercepting message k =>
    match s.interceptors[k]? with
    | some interceptor =>
      some { s with
        phase := .intercepting message (k + 1)
        interceptors := s.interceptors.set k (interceptor.next (s.model, s.world, message))
        world := interceptor.head (s.model, s.world, message)
        trail := s.trail ++ [.intercepted k s.model message] }
    | none => some { s with phase := .updating message }
  | .updating message =>
    let (model, world, command) := A.update s.model s.world message
    some { s with
      phase := .accumulating command
      model := model
      world := world
      applied := s.applied ++ [(s.world, message)]
      trail := s.trail ++ [.updated s.model message] }
  | .accumulating command =>
    some { s with
      phase := .spawning command
      signals := s.signals ++ A.accumulateSignals s.model s.world }
  | .spawning none => some { s with phase := .flushing }
  | .spawning (some command) => some { s.spawn command with phase := .flushing }
  | .flushing =>
    match s.signals with
    | signal :: rest => some { s with signals := rest, world := A.flush signal s.world }
    | [] => some { s with phase := .waiting }
  | .built => none
  | .stopped => none

/-- A poll of the task `k`. While a send of its waits for room nothing happens. -/
def pollTask (s : Host A) (k : Nat) (t : Task A) : Option (Host A) :=
  match t.stage with
  | .spawned =>
    let (effects, stream) := t.command t.context (s.model, s.world)
    some { s.setTask k { t with stage := .running (emit effects stream) } with
      starts := s.starts ++ [(k, t.context)] }
  | .running stream =>
    if (s.channel.pending t.sender).isSome then some s
    else
      let rest := stream.next (s.model, s.world)
      match stream.head (s.model, s.world) with
      | none => some (s.setTask k { t with stage := .running rest })
      | some (.effect e) =>
        some { s.setTask k { t with stage := .running rest } with world := A.act e s.world }
      | some (.item message) =>
        ((s.updaters t.sender).map ⟨A.root, message⟩).bind fun root =>
          (s.channelStep ready (.call t.sender root)).map fun s =>
            s.setTask k { t with stage := .running rest, emitted := t.emitted ++ [message] }
      | some .ended =>
        (s.channelStep ready (.close t.sender)).map fun s => s.setTask k { t with stage := .ended }
  | .ended => none

/-- One step of anybody. Handles held outside can be used in every way the types allow. -/
def step (s : Host A) : Action A → Option (Host A)
  | .updater =>
    match s.phase with
    | .built => some (s.openUpdater (s.updaters 0) true)
    | _ => none
  | .run =>
    match s.phase with
    | .built => some { s with phase := .waiting }
    | _ => none
  | .host => s.hostStep ready
  | .poll k => s.tasks[k]?.bind fun t => s.pollTask ready k t
  | .send id message =>
    if s.outside id then
      ((s.updaters id).map message).bind fun root => s.channelStep ready (.call id root)
    else none
  | .accept id => s.channelStep ready (.accept id)
  | .cancel id => if s.outside id then s.channelStep ready (.cancel id) else none
  | .clone id =>
    if s.outside id ∧ s.channel.alive id then some (s.openUpdater (s.updaters id) true) else none
  | .zoom id _ _ lens =>
    if s.outside id then
      ((s.updaters id).zoom lens).bind fun u => (s.openUpdater u true).channelStep ready (.close id)
    else none
  | .drop id => if s.outside id then s.channelStep ready (.close id) else none
  | .world w => some { s with world := w }

end Step

end Host

end Emyu
