import Emyu.Signal.Interleaving
import Mathlib.Data.Fin.Basic

/-! The expansion of `join_signals!`: the block that makes the output, the task that follows the
inputs, and what other threads do to the inputs and the output meanwhile. -/

namespace Emyu

open Runs

namespace Join

/-- Where the block is: at its `k`-th initial read, at its `k`-th `subscribe`, or past the spawn. -/
inductive Block where
  | reading (k : Nat)
  | subscribing (k : Nat)
  | returned
  deriving DecidableEq

/-- Where the task is: in `select!`, at its `k`-th read, inside `writer.set`, or past it. -/
inductive Task where
  | selecting
  | reading (k : Nat)
  | storing
  | looping
  deriving DecidableEq

end Join

/-- A join of `n` signals. `values` holds what was last read of each input, `sub` the channels of
the task's own subscribers; the `toRead` and `lastRead` of these say which inputs the task is still
to read and what it read. -/
structure Join {n : Nat} (T : Fin n → Type) where
  inputs : ∀ i, Threads (T i)
  output : Threads (∀ i, T i)
  values : ∀ i, T i
  sub : Fin n → Option Nat
  block : Join.Block
  task : Join.Task

namespace Join

variable {n : Nat} {T : Fin n → Type}

/-- `block` and `task` are the next step of the expansion, `recv` is a branch of `select!`; `input`
and `output` are steps of others, among them the `Drop`s of the handles that the block lets go. -/
inductive Action (T : Fin n → Type) where
  | block
  | recv (i : Fin n)
  | task
  | input (i : Fin n) (a : Atomic (T i))
  | output (a : Atomic (∀ i, T i))

def new (values : ∀ i, T i) : Join T where
  inputs := fun i => .new (values i)
  output := .new values
  values := values
  sub := fun _ => none
  block := .reading 0
  task := .selecting

def setInput (s : Join T) (i : Fin n) (r : Threads (T i)) : Join T :=
  { s with inputs := Function.update s.inputs i r }

/-- The subscriber is about to read. -/
def expect {α : Type} (r : Threads α) : Option Nat → Threads α
  | some c => { r with toRead := Function.update r.toRead c true }
  | none => r

/-- The new subscriber `c` has the value that was read before. -/
def settle {α : Type} (r : Threads α) (c : Nat) (value : α) : Threads α :=
  { r with
    toRead := Function.update r.toRead c false
    lastRead := Function.update r.lastRead c (some value) }

/-- A step that others can take on an input: the task's subscriber is not theirs, and a subscriber
that they drop exists. -/
def foreign {α : Type} (c : Option Nat) (r : Threads α) : Atomic α → Bool
  | .recv i => c ≠ some i
  | .read i => c ≠ some i
  | .lockDrop _ (some i) => c ≠ some i ∧ i < r.repr.channels
  | _ => true

/-- A step that others can take on the output, which only the task's writer writes. -/
def listens {α : Type} : Atomic α → Bool
  | .write _ _ => false
  | .storeDirty t => t ≠ 0
  | .swapDirty t => t ≠ 0
  | .lockFlush t => t ≠ 0
  | .sendChanged t => t ≠ 0
  | .prune t => t ≠ 0
  | .lockDrop t _ => t ≠ 0
  | .sendDestroyed t => t ≠ 0
  | .unlockDrop t => t ≠ 0
  | .closeReceiver t => t ≠ 0
  | _ => true

/-- The block: `initial`, the output with its writer, a subscriber of each input, the spawn. Others
may run between two reads of one tuple, where the code holds the guards of the reads before. -/
def blockStep (full : List SignalStatus → Bool) (s : Join T) : Option (Join T) :=
  match s.block with
  | .reading k =>
    if h : k < n then
      some { s with
        values := Function.update s.values ⟨k, h⟩ (s.inputs ⟨k, h⟩).repr.data
        block := .reading (k + 1) }
    else some { s with output := .new s.values, block := .subscribing 0 }
  | .subscribing k =>
    if h : k < n then
      let i : Fin n := ⟨k, h⟩
      let c := (s.inputs i).repr.channels
      ((s.inputs i).step full .subscribe).map fun r => { s.setInput i (settle r c (s.values i)) with
        sub := Function.update s.sub i (some c)
        block := .subscribing (k + 1) }
    else some { s with block := .returned }
  | .returned => none

/-- The task after `select!`: it reads all inputs and sets the output. The branch `complete` is
never taken, as each turn makes new futures and a subscriber's sender lives as long as it. -/
def taskStep (full : List SignalStatus → Bool) (s : Join T) : Option (Join T) :=
  match s.task with
  | .selecting => none
  | .reading k =>
    if h : k < n then
      let i : Fin n := ⟨k, h⟩
      (s.sub i).bind fun c => ((s.inputs i).step full (.read c)).map fun r => { s.setInput i r with
        values := Function.update s.values i (s.inputs i).repr.data
        task := .reading (k + 1) }
    else (s.output.step full (.write 0 fun _ => s.values)).map fun r =>
      { s with output := r, task := .storing }
  | .storing => (s.output.step full (.storeDirty 0)).map fun r =>
      { s with output := r, task := .looping }
  | .looping => some { s with task := .selecting }

/-- A branch of `select!`: any status of any input wakes the task. -/
def recvStep (full : List SignalStatus → Bool) (s : Join T) (i : Fin n) : Option (Join T) :=
  (s.sub i).bind fun c => ((s.inputs i).step full (.recv c)).map fun r =>
    { s with
      inputs := fun j => expect (Function.update s.inputs i r j) (s.sub j)
      task := .reading 0 }

def step (full : List SignalStatus → Bool) (s : Join T) : Action T → Option (Join T)
  | .block => s.blockStep full
  | .recv i => if s.block = .returned ∧ s.task = .selecting then s.recvStep full i else none
  | .task => if s.block = .returned then s.taskStep full else none
  | .input i a =>
    if foreign (s.sub i) (s.inputs i) a then ((s.inputs i).step full a).map (s.setInput i)
    else none
  | .output a =>
    if s.block = .returned ∧ listens a then
      (s.output.step full a).map fun r => { s with output := r }
    else none

end Join

namespace Threads

variable {α : Type}

/-- No change is on its way from a write to the channels. -/
def Settled (s : Threads α) : Prop := s.repr.dirty = false ∧ ∀ t i, ¬owes i (s.pc t)

/-- The subscriber has the value, or something makes it read. -/
def Heard (s : Threads α) (i : Nat) : Prop :=
  s.toRead i = true ∨ (s.repr.channel i).queue ≠ [] ∨ s.lastRead i = some s.repr.data

end Threads

namespace Join

variable {n : Nat} {T : Fin n → Type}

/-- What the join is for: when no input has a change on its way and the task waits with nothing
queued, the output is the tuple of the inputs, and its subscribers, once they have read, know. -/
def Follows (s : Join T) : Prop :=
  (∀ i, (s.inputs i).Settled) → s.block = .returned → s.task = .selecting →
  (∀ i c, s.sub i = some c → ((s.inputs i).repr.channel c).queue = []) →
    (s.output.repr.data = fun i => (s.inputs i).repr.data) ∧
    ∀ j, (s.output.repr.channel j).isOpen = true → s.output.toRead j = false →
      (s.output.repr.channel j).queue ≠ [] ∨
        s.output.lastRead j = some fun i => (s.inputs i).repr.data

/-- The block has read the input and not subscribed to it. -/
def Missing (s : Join T) (i : Fin n) : Prop :=
  s.sub i = none ∧ match s.block with
    | .reading k => i.val < k
    | _ => True

/-- No flush of an input goes out to its subscribers with a value that the block, which read before
it and subscribes after it, has not seen; and the task goes back to `select!` when its last `set`
was flushed, or nobody subscribed to the output. -/
def Meets (s : Join T) : Action T → Prop
  | .input i (.lockFlush _) => s.Missing i → (s.inputs i).repr.data = s.values i
  | .task => s.task = .looping →
      s.output.Settled ∨ ∀ j, (s.output.repr.channel j).isOpen = false
  | _ => True

end Join

end Emyu
