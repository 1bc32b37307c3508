import Emyu.Lib.Combinators

/-! Commands: an optional closure from the context to a stream, its constructors and `then` and
`chain`, over the combinators of the futures crate as a parameter. -/

universe u

namespace Emyu

open Polling

/-- `Command`: calling the closure sees the world, has effects and returns the stream. -/
def Command (Ctx W E T : Type u) := Option (Ctx → W → List E × Strm W E T)

/-- `YieldNow`: pending once, then ready. -/
def yieldStep {W E : Type u} : Bool → W → Option (E ⊕ PUnit.{u + 1}) × Bool
  | true, _ => (some (.inr ⟨⟩), true)
  | false, _ => (none, true)

def yieldNow {W E : Type u} : Fut W E PUnit.{u + 1} := Mealy.unfold yieldStep false

namespace Command

variable {Ctx W E T O : Type u}

protected def none : Command Ctx W E T := Option.none

protected def some (f : Ctx → W → List E × Strm W E T) : Command Ctx W E T := Option.some f

theorem none_or_some (c : Command Ctx W E T) :
    c = Command.none ∨ ∃ f, c = Command.some f := by
  cases c with
  | none => exact .inl rfl
  | some f => exact .inr ⟨f, rfl⟩

/-- `stream::once(yield_now()).filter_map(|_| async { None })`. -/
def yielding (F : Combinators W E) : Strm W E T :=
  F.filterMap (F.once yieldNow) (.stateless fun _ => ([], ready Option.none))

def stream (F : Combinators W E) (f : Ctx → W → List E × Strm W E T) : Command Ctx W E T :=
  .some fun ctx w => ((f ctx w).1, F.chain (yielding F) (f ctx w).2)

def future (F : Combinators W E) (f : Ctx → W → List E × Fut W E T) : Command Ctx W E T :=
  stream F fun ctx w => ((f ctx w).1, F.once (f ctx w).2)

def done (F : Combinators W E) (value : T) : Command Ctx W E T :=
  future F fun _ _ => ([], ready value)

/-- `c.0.map(|f| f(ctx.clone())).unwrap_or_else(stream::empty)`. -/
def call (F : Combinators W E) (c : Command Ctx W E T) (ctx : Ctx) (w : W) :
    List E × Strm W E T :=
  match c with
  | .some f => f ctx w
  | .none => ([], F.empty)

variable [Acts E W]

/-- The closure that `then` gives to `flat_map`: call `f`, then the closure of its command. -/
def bindFn (F : Combinators W E) (f : Fn W E T (Command Ctx W E O)) (ctx : Ctx) :
    Fn W E T (Strm W E O) :=
  ⟨fun past i =>
    let (es, c) := f.answer past i
    let (es', s) := c.call F ctx (actAll es i.2)
    (es ++ es', s)⟩

def then_ (F : Combinators W E) (c : Command Ctx W E T) (f : Fn W E T (Command Ctx W E O)) :
    Command Ctx W E O :=
  c.map fun streamFn ctx w => ((streamFn ctx w).1, F.flatMap (streamFn ctx w).2 (bindFn F f ctx))

/-- `chain`: both closures are called, one after the other, when the chained one is. -/
def chain (F : Combinators W E) (a b : Command Ctx W E T) : Command Ctx W E T :=
  match a with
  | .none => b
  | .some firstFn =>
    match b with
    | .none => .some firstFn
    | .some secondFn => .some fun ctx w =>
      let (es, s) := firstFn ctx w
      let (es', s') := secondFn ctx (actAll es w)
      (es ++ es', F.chain s s')

omit [Acts E W] in
/-- What a task that runs the command does up to its items: the closure is called at the first
poll, and `none()` does nothing. -/
def task (c : Command Ctx W E T) (ctx : Ctx) : Strm W E T :=
  match c with
  | .none => empty
  | .some f => .node fun w => (Option.none, emit (f ctx w).1 (f ctx w).2)

/-- The traces of the command: effects of its closures and streams, items, and the end. -/
def trace (env : W → W → Prop) (c : Command Ctx W E T) (ctx : Ctx) (w : W) :
    Set (List (Event E T)) :=
  {l | Trace env (c.task ctx) w l}

end Command

end Emyu
