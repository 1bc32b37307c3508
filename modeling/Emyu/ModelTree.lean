import Emyu.Macro.Routing
import Emyu.Signal

/-! Models that hold signals and other models, as the cells that their handles share, and what the
code of an application does to them between the calls that the expansion generates. -/

namespace Emyu.ModelTree

open Macro Named

/-- A model: its type, and the cells behind its `Signal` and its `ModelBase` fields. -/
structure Model (K : Type) where
  type : K
  signals : Ident → Option Nat
  children : Ident → Option Nat

structure Heap (K T : Type) where
  models : List (Model K)
  signals : List (SignalRepr T)

/-- What a handle of a signal is used for; `set(v)` is `update(|x| *x = v)`. -/
inductive SignalUse (T : Type) where
  | write (f : T → T)
  | update (f : T → T)
  | subscribe
  | recv (i : Nat)
  | closeReceiver (i : Nat)
  | drop

/-- What the code of an application does: `assign` is any write through a guard of the model, and
`send` is `ModelBase::update`. -/
inductive Stmt (V K T : Type) where
  | newSignal (value : T)
  | newModel (model : Model K)
  | assign (m : Nat) (model : Model K)
  | use (σ : Nat) (u : SignalUse T)
  | send (m : Nat) (message : Message V)

namespace SignalUse

variable {T : Type}

def apply (full : List SignalStatus → Bool) (r : SignalRepr T) : SignalUse T → SignalRepr T
  | .write f => r.write f
  | .update f => r.update f
  | .subscribe => r.subscribe
  | .recv i =>
    match r.recv i with
    | some (_, r') => r'
    | none => r
  | .closeReceiver i => r.closeReceiver i
  | .drop => r.drop full

def isUpdate : SignalUse T → Bool
  | .update _ => true
  | _ => false

theorem apply_dirty (full : List SignalStatus → Bool) (r : SignalRepr T) (u : SignalUse T) :
    (u.apply full r).dirty = (r.dirty || u.isUpdate) := by
  cases u with
  | recv i =>
    simp only [apply, SignalRepr.recv, isUpdate, Bool.or_false]
    cases (r.channel i).queue <;> rfl
  | update f => simp [apply, SignalRepr.update, isUpdate]
  | _ => simp [apply, isUpdate, SignalRepr.write, SignalRepr.subscribe, SignalRepr.drop,
      SignalRepr.closeReceiver]

end SignalUse

namespace Heap

variable {V K T : Type}

/-- A statement other than a call of another model's `update`. -/
def apply (full : List SignalStatus → Bool) (h : Heap K T) : Stmt V K T → Option (Heap K T)
  | .newSignal value => some { h with signals := h.signals ++ [.new value] }
  | .newModel model => some { h with models := h.models ++ [model] }
  | .assign m model =>
    if m < h.models.length then some { h with models := h.models.set m model } else none
  | .use σ u =>
    h.signals[σ]?.map fun r => { h with signals := h.signals.set σ (u.apply full r) }
  | .send _ _ => none

/-- What a statement can do, with the conditions it passed. -/
inductive Move (full : List SignalStatus → Bool) (h : Heap K T) :
    Stmt V K T → Heap K T → Prop where
  | newSignal (value : T) :
      Move full h (.newSignal value) { h with signals := h.signals ++ [.new value] }
  | newModel (model : Model K) :
      Move full h (.newModel model) { h with models := h.models ++ [model] }
  | assign (m : Nat) (model : Model K) : m < h.models.length →
      Move full h (.assign m model) { h with models := h.models.set m model }
  | use (σ : Nat) (u : SignalUse T) (r : SignalRepr T) : h.signals[σ]? = some r →
      Move full h (.use σ u) { h with signals := h.signals.set σ (u.apply full r) }

theorem apply_move {full : List SignalStatus → Bool} {h h' : Heap K T} {stmt : Stmt V K T}
    (ha : h.apply full stmt = some h') : Move full h stmt h' := by
  cases stmt with
  | newSignal value => cases ha; exact .newSignal value
  | newModel model => cases ha; exact .newModel model
  | assign m model =>
    simp only [apply, Option.ite_none_right_eq_some, Option.some.injEq] at ha
    obtain ⟨hm, rfl⟩ := ha
    exact .assign m model hm
  | use σ u =>
    obtain ⟨r, hr, rfl⟩ := Option.map_eq_some_iff.mp ha
    exact .use σ u r hr
  | send m message => cases ha

/-- `__flush` on the cell of a signal. -/
def flush (full : List SignalStatus → Bool) (h : Heap K T) (σ : Nat) : Heap K T :=
  { h with signals := h.signals.modify σ (SignalRepr.flush full) }

/-- A chain of `zoom`s from the model in cell `m`, by the fields that the lenses pick. -/
def zoom (h : Heap K T) : Nat → List Ident → Option Nat
  | m, [] => some m
  | m, lens :: lenses => (h.models[m]?.bind fun model => model.children lens).bind fun child =>
      zoom h child lenses

def dirty (h : Heap K T) (σ : Nat) : Bool := h.signals[σ]?.any SignalRepr.dirty

end Heap

/-- The signal cells that a statement writes with `update` or `set`. -/
def Stmt.written {V K T : Type} : Stmt V K T → List Nat
  | .use σ u => if u.isUpdate then [σ] else []
  | _ => []

/-- An application: the expansion of each of its model types, and what the block of an updater does
for the model in a cell. `full` is when a status channel refuses. -/
structure Program (V K T : Type) where
  full : List SignalStatus → Bool
  expansion : K → Expansion
  generated : ∀ k, ∃ tools item attrs, build tools item attrs = .ok (expansion k)
  block : K → Block → Env Ident V → Nat → Heap K T → List (Stmt V K T)

namespace Program

variable {V K T : Type} (P : Program V K T)

/-- What `ModelBase::update` runs for a message: the block that the generated `update` picks. -/
def body (h : Heap K T) (m : Nat) (message : Message V) : Option (List (Stmt V K T)) := do
  let model ← h.models[m]?
  let ran ← (P.expansion model.type).implModel.update message
  pure (P.block model.type ran.block ran.env m h)

/-- `ModelBase::get` for the message type of the `g`-th generated getter. -/
def get (h : Heap K T) (m g : Nat) : Option Nat := do
  let model ← h.models[m]?
  let message ← (P.expansion model.type).getterMessages[g]?
  model.signals message.fieldName

/-- `ModelBase::__accumulate_signals`. -/
def accumulateSignals (h : Heap K T) (m : Nat) : List Nat :=
  match h.models[m]? with
  | some model =>
    (P.expansion model.type).implModel.accumulateSignals.filterMap fun a =>
      model.signals a.fieldName
  | none => []

/-- The statements run to their end, with the signals they write. -/
inductive Exec : Heap K T → List (Stmt V K T) → Heap K T → List Nat → Prop where
  | done (h : Heap K T) : Exec h [] h []
  | act {h h' h'' : Heap K T} {stmt : Stmt V K T} {rest : List (Stmt V K T)} {w : List Nat} :
      h.apply P.full stmt = some h' → Exec h' rest h'' w →
      Exec h (stmt :: rest) h'' (stmt.written ++ w)
  | send {h h' h'' : Heap K T} {m : Nat} {message : Message V} {body rest : List (Stmt V K T)}
      {w w' : List Nat} :
      P.body h m message = some body → Exec h body h' w → Exec h' rest h'' w' →
      Exec h (.send m message :: rest) h'' (w ++ w')

/-- A signal that the getter of the model in cell `m` leads to, by any zooms and any getter. -/
def Observable (h : Heap K T) (m σ : Nat) : Prop :=
  ∃ lenses child g, h.zoom m lenses = some child ∧ P.get h child g = some σ

end Program

/-- The parts of the host that `handle_message` changes. -/
structure TreeHost (K T : Type) where
  root : Nat
  signals : List Nat
  heap : Heap K T

namespace TreeHost

variable {V K T : Type}

def new (root : Nat) (heap : Heap K T) : TreeHost K T := ⟨root, [], heap⟩

/-- `while let Some(signal) = self.signals.pop_front()`. -/
def flushAll (full : List SignalStatus → Bool) (s : TreeHost K T) : TreeHost K T :=
  { s with signals := [], heap := s.signals.foldl (Heap.flush full) s.heap }

/-- `handle_message`, with the heap as the interceptors and the update leave it and the signals
they write. -/
inductive Handles (P : Program V K T) (s : TreeHost K T) (message : Message V) :
    TreeHost K T → Heap K T → List Nat → Prop where
  | intro {interceptors : List (Stmt V K T)} {seen updated : Heap K T} {w w' : List Nat} :
      P.Exec s.heap interceptors seen w → P.Exec seen [.send s.root message] updated w' →
      Handles P s message
        (flushAll P.full { s with
          signals := s.signals ++ P.accumulateSignals updated s.root
          heap := updated })
        updated (w ++ w')

/-- Between two messages the signals are read, written and subscribed to by others. -/
inductive Reachable (P : Program V K T) : TreeHost K T → Prop where
  | new (root : Nat) (heap : Heap K T) : Reachable P (.new root heap)
  | others {s : TreeHost K T} {stmts : List (Stmt V K T)} {heap : Heap K T} {w : List Nat} :
      Reachable P s → P.Exec s.heap stmts heap w → Reachable P { s with heap := heap }
  | handled {s s' : TreeHost K T} {message : Message V} {updated : Heap K T} {w : List Nat} :
      Reachable P s → Handles P s message s' updated w → Reachable P s'

end TreeHost

end Emyu.ModelTree
