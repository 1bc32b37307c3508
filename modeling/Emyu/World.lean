import Emyu.Lib.RefCell
import Emyu.Lib.Run
import Mathlib.Logic.Function.Basic

/-! The world in the single-threaded build: the states behind their `RefCell`s, and the tasks of one
executor that get at them through the accessors of `World`, switched at their await points. -/

namespace Emyu

open RefCell

namespace World

/-- The methods of `World` that hand a state to a closure. -/
inductive Accessor where
  | tryGet
  | get
  | tryGetMut
  | getMut
  | tryGetAsync
  | getAsync
  | tryGetMutAsync
  | getMutAsync
  deriving DecidableEq, Repr

namespace Accessor

/-- `state.read()` or `state.write()`. -/
def borrow : Accessor → Borrow
  | .tryGet | .get | .tryGetAsync | .getAsync => .shared
  | .tryGetMut | .getMut | .tryGetMutAsync | .getMutAsync => .exclusive

/-- The accessor calls `f(None)` where the world lacks the state. -/
def isTry : Accessor → Bool
  | .tryGet | .tryGetMut | .tryGetAsync | .tryGetMutAsync => true
  | _ => false

def isAsync : Accessor → Bool
  | .tryGetAsync | .getAsync | .tryGetMutAsync | .getMutAsync => true
  | _ => false

end Accessor

/-- `f` is running, or has returned a future that is being awaited. -/
inductive Stage where
  | closure
  | awaiting
  deriving DecidableEq, Repr

/-- A call of an accessor that has not returned. `guard` is the temporary that `f` was given a
reference into. -/
structure Frame (S : Type) where
  task : Nat
  state : S
  accessor : Accessor
  guard : Option Borrow
  stage : Stage

/-- `pending` is an await in the current task that is not ready. -/
inductive Action (S : Type) where
  | poll (k : Nat)
  | call (accessor : Accessor) (state : S)
  | closureReturns
  | futureReady
  | pending
  | dropTask (k : Nat)

end World

open World in
/-- The states, by their types, with the borrow flag of each, and the calls that the tasks are in,
the innermost of each task first. `current` is the task that is being polled, and `conflicts`
records the borrows that panicked. -/
structure World (S : Type) where
  present : S → Bool
  flag : S → Int
  frames : List (Frame S)
  current : Option Nat
  conflicts : List (Nat × S)

namespace World

variable {S : Type} [DecidableEq S]

def new (present : S → Bool) : World S where
  present := present
  flag := fun _ => 0
  frames := []
  current := none
  conflicts := []

/-- The innermost call of a task. -/
def top (w : World S) (k : Nat) : Option (Frame S) := w.frames.find? fun f => f.task == k

/-- The task is inside a closure, where nothing can be awaited. -/
def inClosure (w : World S) (k : Nat) : Bool :=
  w.frames.any fun f => f.task == k && f.stage == .closure

def push (w : World S) (f : Frame S) : World S := { w with frames := f :: w.frames }

/-- The guard that a call holds on a state. -/
def guardOn (σ : S) (f : Frame S) : Option Borrow := if f.state = σ then f.guard else none

/-- The guards on a state, of all calls. -/
def guards (σ : S) (frames : List (Frame S)) : List Borrow := frames.filterMap (guardOn σ)

/-- The calls are over, by return or by unwinding, and their guards are dropped. -/
def release (w : World S) (done rest : List (Frame S)) : World S :=
  { w with
    flag := fun σ => (guards σ done).foldl RefCell.release (w.flag σ)
    frames := rest }

/-- The innermost call of a task returns. -/
def pop (w : World S) (k : Nat) (f : Frame S) : World S :=
  w.release [f] (w.frames.eraseP fun f => f.task == k)

/-- Everything that a task is in is dropped. -/
def unwind (w : World S) (k : Nat) : World S :=
  w.release (w.frames.filter fun f => f.task == k) (w.frames.filter fun f => f.task != k)

/-- A call of an accessor by the task `k`: `f` is called with a reference through a guard, which
stays a temporary of the call; a borrow that fails and a state that is missing panic. -/
def call (w : World S) (k : Nat) (a : Accessor) (σ : S) : World S :=
  if w.present σ then
    match tryBorrow (w.flag σ) a.borrow with
    | some flag =>
      { w.push ⟨k, σ, a, some a.borrow, .closure⟩ with flag := Function.update w.flag σ flag }
    | none => { w.unwind k with current := none, conflicts := w.conflicts ++ [(k, σ)] }
  else if a.isTry then w.push ⟨k, σ, a, none, .closure⟩
  else { w.unwind k with current := none }

/-- One step of the executor. The guard of `f(&state.read()).await` is a temporary of the whole
expression, so only a call without `.await` drops it when the closure returns. -/
def step (w : World S) : Action S → Option (World S)
  | .poll k => if w.current = none then some { w with current := some k } else none
  | .call a σ => w.current.bind fun k =>
    if a.isAsync && w.inClosure k then none else some (w.call k a σ)
  | .closureReturns => w.current.bind fun k => (w.top k).bind fun f =>
    if f.stage = .closure then
      if f.accessor.isAsync then
        some { w with frames :=
          { f with stage := .awaiting } :: w.frames.eraseP fun f => f.task == k }
      else some (w.pop k f)
    else none
  | .futureReady => w.current.bind fun k => (w.top k).bind fun f =>
    if f.stage = .awaiting then some (w.pop k f) else none
  | .pending => w.current.bind fun k =>
    if w.inClosure k then none else some { w with current := none }
  | .dropTask k => if w.current = some k then none else some (w.unwind k)

end World

end Emyu
