import Emyu.Lib.RefCell
import Emyu.ModelTree.Deferred

/-! The models and the signals of a tree as the `RefCell`s of the single-threaded build: which
borrows the code of a message takes, where it panics, and that otherwise it does what it does
without them. -/

namespace Emyu.ModelTree

open Macro Named Runs RefCell

/-- What is borrowed: a model, the value of a signal, or the list of its subscribers. -/
inductive Cell where
  | model (m : Nat)
  | value (σ : Nat)
  | subscribers (σ : Nat)
  deriving DecidableEq, Repr

/-- A guard, and the cell it is of. -/
abbrev Guard := Cell × Borrow

/-- What the code of an application does, with its guards: `borrow` keeps one that `drop i` drops,
counted from the youngest. An `update` of a signal whose closure does more than to compute a value
is a `borrow`, what the closure does, the `drop`, and `mark`, which sets `dirty`. -/
inductive Access (V K T : Type) where
  | act (stmt : Stmt V K T)
  | borrow (b : Borrow) (cell : Cell)
  | drop (i : Nat)
  | mark (σ : Nat)

/-- A call under way: the model that `ModelBase::update` has borrowed for it, if it is one, the
guards it keeps and what it has left to do. -/
structure Call (V K T : Type) where
  own : Option Nat
  kept : List Guard
  rest : List (Access V K T)

/-- The cells with their borrow flags and the calls under way, the innermost first. -/
structure Borrowing (K V T : Type) where
  heap : Heap K T
  flags : Cell → Int
  calls : List (Call V K T)
  panicked : Bool

def guardsOn (cell : Cell) (guards : List Guard) : List Borrow :=
  guards.filterMap fun g => if g.1 = cell then some g.2 else none

/-- Guards are dropped. -/
def releaseAll (guards : List Guard) (flags : Cell → Int) : Cell → Int :=
  guards.foldl (fun flags g => Function.update flags g.1 (release (flags g.1) g.2)) flags

/-- The guard that an operation needs: one that is kept, or a temporary one. -/
def through (guards : List Guard) (g : Guard) : Option Guard :=
  if g ∈ guards then none else some g

/-- What a use of a signal borrows by itself: `write` stands for what is done with the guard of
`SignalWriter::write`, and `update` takes that guard. -/
def SignalUse.asks {T : Type} (guards : List Guard) (σ : Nat) : SignalUse T → Option Guard
  | .write _ => through guards (.value σ, .exclusive)
  | .update _ => some (.value σ, .exclusive)
  | .subscribe | .drop => some (.subscribers σ, .exclusive)
  | .recv _ | .closeReceiver _ => none

namespace Access

variable {V K T : Type}

/-- The statement without its borrows. -/
def stmt? : Access V K T → Option (Stmt V K T)
  | .act stmt => some stmt
  | .mark σ => some (.use σ (.update id))
  | _ => none

def erase (accesses : List (Access V K T)) : List (Stmt V K T) := accesses.filterMap stmt?

variable {rest more : List (Access V K T)}

@[simp] theorem erase_nil : erase ([] : List (Access V K T)) = [] := rfl

@[simp] theorem erase_act {stmt : Stmt V K T} :
    erase (.act stmt :: rest) = stmt :: erase rest := rfl

@[simp] theorem erase_borrow {b : Borrow} {cell : Cell} :
    erase (.borrow b cell :: rest) = erase rest := rfl

@[simp] theorem erase_drop {i : Nat} : erase (.drop i :: rest) = erase rest := rfl

@[simp] theorem erase_mark {σ : Nat} :
    erase (.mark σ :: rest) = .use σ (.update id) :: erase rest := rfl

theorem eq_send {a : Access V K T} {m : Nat} {message : Message V}
    (h : a.stmt? = some (.send m message)) : a = .act (.send m message) := by
  cases a with
  | act stmt => rw [Option.some.inj h]
  | _ => cases h

theorem erase_cons_of_some {a : Access V K T} {stmt : Stmt V K T} (h : a.stmt? = some stmt) :
    erase (a :: rest) = stmt :: erase rest :=
  List.filterMap_cons_some h

@[simp] theorem erase_append : erase (more ++ rest) = erase more ++ erase rest :=
  List.filterMap_append

/-- What is borrowed for an access by code that has these guards: `assign` goes through one of
them, or through a temporary `write()`. -/
def asks (guards : List Guard) : Access V K T → Option Guard
  | .borrow b cell => some (cell, b)
  | .act (.send m _) => some (.model m, .exclusive)
  | .act (.assign m _) => through guards (.model m, .exclusive)
  | .act (.use σ u) => u.asks guards σ
  | _ => none

/-- The guards that are kept after an access. -/
def keeps (kept : List Guard) : Access V K T → List Guard
  | .borrow b cell => (cell, b) :: kept
  | .drop i => kept.eraseIdx i
  | .act _ | .mark _ => kept

end Access

theorem Access.keeps_of_stmt {V K T : Type} {kept : List Guard} {a : Access V K T}
    {stmt : Stmt V K T} (h : a.stmt? = some stmt) : a.keeps kept = kept := by
  cases a with
  | act | mark => rfl
  | _ => cases h

def Call.guards {V K T : Type} (c : Call V K T) : List Guard :=
  c.kept ++ (c.own.map fun m => (.model m, .exclusive)).toList

/-- A program whose blocks are given with their guards. -/
structure BorrowingProgram (V K T : Type) where
  full : List SignalStatus → Bool
  expansion : K → Expansion
  generated : ∀ k, ∃ tools item attrs, build tools item attrs = .ok (expansion k)
  block : K → Block → Env Ident V → Nat → Heap K T → List (Access V K T)

namespace BorrowingProgram

variable {V K T : Type} (P : BorrowingProgram V K T)

def toProgram : Program V K T where
  full := P.full
  expansion := P.expansion
  generated := P.generated
  block k block env m h := Access.erase (P.block k block env m h)

/-- What `ModelBase::update` runs for a message, with its guards. -/
def body (h : Heap K T) (m : Nat) (message : Message V) : Option (List (Access V K T)) := do
  let model ← h.models[m]?
  let ran ← (P.expansion model.type).implModel.update message
  pure (P.block model.type ran.block ran.env m h)

end BorrowingProgram

section Descends

variable {V K T : Type}

/-- Every model and every signal lies deeper than the models that have it in a field. -/
structure Heap.Nested (depth : Cell → Nat) (h : Heap K T) : Prop where
  children : ∀ m model field child, h.models[m]? = some model →
    model.children field = some child → depth (.model m) < depth (.model child)
  signals : ∀ m model field σ, h.models[m]? = some model → model.signals field = some σ →
    depth (.model m) < depth (.value σ) ∧ depth (.model m) < depth (.subscribers σ)

theorem Heap.Nested.of_models {depth : Cell → Nat} {h h' : Heap K T} (hNested : h.Nested depth)
    (hModels : h'.models = h.models) : h'.Nested depth where
  children m model field child hModel :=
    hNested.children m model field child (hModels ▸ hModel)
  signals m model field σ hModel := hNested.signals m model field σ (hModels ▸ hModel)

/-- The cell lies deeper than those that the guards are of. -/
def Below (depth : Cell → Nat) (guards : List Guard) (cell : Cell) : Prop :=
  ∀ g ∈ guards, depth g.1 < depth cell

/-- The accesses only borrow cells that lie deeper than those the call has guards of by then. -/
def Descending (depth : Cell → Nat) (own : Option Nat) : List Guard → List (Access V K T) → Prop
  | _, [] => True
  | kept, a :: rest =>
    (∀ g, a.asks (Call.guards ⟨own, kept, rest⟩) = some g →
      Below depth (Call.guards ⟨own, kept, rest⟩) g.1) ∧
    Descending depth own (a.keeps kept) rest

def Call.Descends (depth : Cell → Nat) (c : Call V K T) : Prop :=
  Descending depth c.own c.kept c.rest

/-- In a nested heap every block descends from the model it is run for. -/
def BorrowingProgram.Descends (P : BorrowingProgram V K T) (depth : Cell → Nat) : Prop :=
  ∀ k block env m h, h.Nested depth → Descending depth (some m) [] (P.block k block env m h)

theorem Call.descends_cons {depth : Cell → Nat} {c : Call V K T} {a : Access V K T}
    {rest : List (Access V K T)} (hRest : c.rest = a :: rest) :
    c.Descends depth ↔ (∀ g, a.asks c.guards = some g → Below depth c.guards g.1) ∧
      Descending depth c.own (a.keeps c.kept) rest := by
  rw [Call.Descends, hRest]
  rfl

theorem BorrowingProgram.Descends.body {P : BorrowingProgram V K T} {depth : Cell → Nat}
    (hP : P.Descends depth) {h : Heap K T} (hNested : h.Nested depth) {m : Nat}
    {message : Message V} {body : List (Access V K T)} (hBody : P.body h m message = some body) :
    Descending depth (some m) [] body := by
  obtain ⟨model, -, hRan⟩ := Option.bind_eq_some_iff.mp hBody
  obtain ⟨ran, -, hEq⟩ := Option.bind_eq_some_iff.mp hRan
  cases hEq
  exact hP _ _ _ _ _ hNested

end Descends

namespace Borrowing

variable {V K T : Type}

/-- All guards of the calls under way. -/
def guards (s : Borrowing K V T) : List Guard := s.calls.flatMap Call.guards

/-- A panic: every call unwinds and drops its guards. -/
def unwind (s : Borrowing K V T) : Borrowing K V T :=
  { s with flags := releaseAll s.guards s.flags, calls := [], panicked := true }

def refuses (s : Borrowing K V T) (guard : Option Guard) : Bool :=
  guard.any fun g => (tryBorrow (s.flags g.1) g.2).isNone

def take (flags : Cell → Int) (g : Guard) : Cell → Int :=
  Function.update flags g.1 ((tryBorrow (flags g.1) g.2).getD (flags g.1))

/-- An access that is not refused, by the call `c` with the calls around it. -/
def perform (P : BorrowingProgram V K T) (s : Borrowing K V T) (c : Call V K T)
    (calls : List (Call V K T)) : Access V K T → Option (Borrowing K V T)
  | .borrow b cell => some { s with
      flags := take s.flags (cell, b)
      calls := { c with kept := (cell, b) :: c.kept } :: calls }
  | .drop i => some { s with
      flags := releaseAll c.kept[i]?.toList s.flags
      calls := { c with kept := c.kept.eraseIdx i } :: calls }
  | .act (.send m message) => (P.body s.heap m message).map fun body => { s with
      flags := take s.flags (.model m, .exclusive)
      calls := ⟨some m, [], body⟩ :: c :: calls }
  | .act stmt => (s.heap.apply P.full stmt).map fun heap => { s with
      heap := heap
      calls := c :: calls }
  | .mark σ => (s.heap.apply P.full (.use σ (.update id) : Stmt V K T)).map fun heap => { s with
      heap := heap
      calls := c :: calls }

/-- The innermost call goes on, returns or panics. -/
def step (P : BorrowingProgram V K T) (s : Borrowing K V T) (_ : Unit) :
    Option (Borrowing K V T) :=
  match s.calls with
  | [] => none
  | c :: calls =>
    match c.rest with
    | [] => some { s with flags := releaseAll c.guards s.flags, calls := calls }
    | a :: rest =>
      if s.refuses (a.asks c.guards) then some s.unwind
      else s.perform P { c with rest := rest } calls a

/-- The next access borrows a cell of which a guard is alive that is in its way, in a call under way
or `outside` of them. -/
def Clashes (outside : Cell → List Borrow) (s : Borrowing K V T) (_ : Unit) : Prop :=
  ∃ c calls a rest g, s.calls = c :: calls ∧ c.rest = a :: rest ∧ a.asks c.guards = some g ∧
    ∃ b ∈ guardsOn g.1 s.guards ++ outside g.1, b.conflicts g.2 = true

section Move

variable {P : BorrowingProgram V K T} {s t : Borrowing K V T} {u : Unit} {c : Call V K T}
  {calls : List (Call V K T)}

/-- What a step can do, with the conditions it passed. -/
inductive Move (P : BorrowingProgram V K T) (s : Borrowing K V T) : Borrowing K V T → Prop where
  | returned (c : Call V K T) (calls : List (Call V K T)) : s.calls = c :: calls → c.rest = [] →
      Move P s { s with flags := releaseAll c.guards s.flags, calls := calls }
  | panicked (c : Call V K T) (calls : List (Call V K T)) (a : Access V K T)
      (rest : List (Access V K T)) (g : Guard) : s.calls = c :: calls → c.rest = a :: rest →
      a.asks c.guards = some g → tryBorrow (s.flags g.1) g.2 = none → Move P s s.unwind
  | borrowed (c : Call V K T) (calls : List (Call V K T)) (b : Borrow) (cell : Cell)
      (rest : List (Access V K T)) (flag : Int) : s.calls = c :: calls →
      c.rest = .borrow b cell :: rest → tryBorrow (s.flags cell) b = some flag →
      Move P s { s with
        flags := Function.update s.flags cell flag
        calls := { c with kept := (cell, b) :: c.kept, rest := rest } :: calls }
  | dropped (c : Call V K T) (calls : List (Call V K T)) (i : Nat) (rest : List (Access V K T)) :
      s.calls = c :: calls → c.rest = .drop i :: rest →
      Move P s { s with
        flags := releaseAll c.kept[i]?.toList s.flags
        calls := { c with kept := c.kept.eraseIdx i, rest := rest } :: calls }
  | sent (c : Call V K T) (calls : List (Call V K T)) (m : Nat) (message : Message V)
      (rest body : List (Access V K T)) (flag : Int) : s.calls = c :: calls →
      c.rest = .act (.send m message) :: rest → P.body s.heap m message = some body →
      tryBorrow (s.flags (.model m)) .exclusive = some flag →
      Move P s { s with
        flags := Function.update s.flags (.model m) flag
        calls := ⟨some m, [], body⟩ :: { c with rest := rest } :: calls }
  | acted (c : Call V K T) (calls : List (Call V K T)) (a : Access V K T) (stmt : Stmt V K T)
      (rest : List (Access V K T)) (heap : Heap K T) : s.calls = c :: calls →
      c.rest = a :: rest → a.stmt? = some stmt → s.refuses (a.asks c.guards) = false →
      s.heap.apply P.full stmt = some heap →
      Move P s { s with heap := heap, calls := { c with rest := rest } :: calls }

theorem take_of_some {flags : Cell → Int} {g : Guard} {flag : Int}
    (h : tryBorrow (flags g.1) g.2 = some flag) :
    take flags g = Function.update flags g.1 flag := by
  rw [take, h]
  rfl

theorem granted {g : Guard} (h : s.refuses (some g) = false) :
    ∃ flag, tryBorrow (s.flags g.1) g.2 = some flag :=
  Option.isSome_iff_exists.mp (by simpa [refuses] using h)

theorem refused {guard : Option Guard} (h : s.refuses guard = true) :
    ∃ g, guard = some g ∧ tryBorrow (s.flags g.1) g.2 = none := by
  cases guard with
  | none => cases h
  | some g => exact ⟨g, rfl, by simpa [refuses] using h⟩

theorem step_of_free {a : Access V K T} {rest : List (Access V K T)} (hCalls : s.calls = c :: calls)
    (hRest : c.rest = a :: rest) (hFree : s.refuses (a.asks c.guards) = false) :
    step P s u = s.perform P { c with rest := rest } calls a := by
  simp [step, hCalls, hRest, hFree]

theorem step_move (hStep : step P s u = some t) : Move P s t := by
  unfold step at hStep
  split at hStep
  next => cases hStep
  next c calls hCalls =>
  split at hStep
  next hRest =>
    cases hStep
    exact .returned c calls hCalls hRest
  next a rest hRest =>
  split at hStep
  next hRefuses =>
    cases hStep
    obtain ⟨g, hAsks, hNone⟩ := refused hRefuses
    exact .panicked c calls a rest g hCalls hRest hAsks hNone
  next hGranted =>
    have hFree := Bool.eq_false_iff.mpr hGranted
    cases a with
    | borrow b cell =>
      cases hStep
      obtain ⟨flag, hFlag⟩ := granted hFree
      rw [take_of_some (g := (cell, b)) hFlag]
      exact .borrowed c calls b cell rest flag hCalls hRest hFlag
    | drop i =>
      cases hStep
      exact .dropped c calls i rest hCalls hRest
    | act stmt =>
      cases stmt with
      | send m message =>
        obtain ⟨body, hBody, rfl⟩ := Option.map_eq_some_iff.mp hStep
        obtain ⟨flag, hFlag⟩ := granted hFree
        rw [take_of_some (g := (.model m, .exclusive)) hFlag]
        exact .sent c calls m message rest body flag hCalls hRest hBody hFlag
      | _ =>
        simp only [perform] at hStep
        obtain ⟨heap, hHeap, rfl⟩ := Option.map_eq_some_iff.mp hStep
        exact .acted c calls _ _ rest heap hCalls hRest rfl hFree hHeap
    | mark σ =>
      obtain ⟨heap, hHeap, rfl⟩ := Option.map_eq_some_iff.mp hStep
      exact .acted c calls _ _ rest heap hCalls hRest rfl hFree hHeap

end Move

section Counted

variable {P : BorrowingProgram V K T} {s t : Borrowing K V T} {u : Unit}
  {outside : Cell → List Borrow} {guards more : List Guard} {flags : Cell → Int} {cell : Cell}

@[simp] theorem guardsOn_append :
    guardsOn cell (guards ++ more) = guardsOn cell guards ++ guardsOn cell more := by
  simp [guardsOn]

theorem guardsOn_cons (cell : Cell) (g : Guard) (guards : List Guard) :
    guardsOn cell (g :: guards) =
      if g.1 = cell then g.2 :: guardsOn cell guards else guardsOn cell guards := by
  rw [guardsOn, List.filterMap_cons]
  split
  next h => simp_all [guardsOn]
  next h => simp_all [guardsOn]

theorem releaseAll_apply :
    releaseAll guards flags cell = (guardsOn cell guards).foldl release (flags cell) := by
  induction guards generalizing flags with
  | nil => rfl
  | cons g rest ih =>
    rw [releaseAll, List.foldl_cons, ← releaseAll, ih, guardsOn_cons]
    by_cases hg : g.1 = cell
    · subst hg
      simp
    · simp [hg, Function.update_of_ne (Ne.symm hg)]

/-- The flags count the guards of the calls and those outside of them. -/
def Counted (outside : Cell → List Borrow) (s : Borrowing K V T) : Prop :=
  ∀ cell, Counts (s.flags cell) (guardsOn cell s.guards ++ outside cell)

theorem Counted.same (h : s.Counted outside) (hFlags : t.flags = s.flags)
    (hGuards : t.guards = s.guards) : t.Counted outside := fun m => hFlags ▸ hGuards ▸ h m

/-- Some guards are dropped. -/
theorem Counted.release (h : s.Counted outside) (hFlags : t.flags = releaseAll guards s.flags)
    (hGuards : s.guards.Perm (guards ++ t.guards)) : t.Counted outside := by
  intro cell
  have hOn : (guardsOn cell s.guards).Perm (guardsOn cell guards ++ guardsOn cell t.guards) :=
    guardsOn_append ▸ hGuards.filterMap _
  have hPerm := hOn.append_right (outside cell)
  rw [List.append_assoc] at hPerm
  rw [hFlags, releaseAll_apply]
  exact ((h cell).perm hPerm).releaseAll

theorem Counted.take (h : s.Counted outside) {g : Guard} {flag : Int}
    (hFlag : tryBorrow (s.flags g.1) g.2 = some flag)
    (hFlags : t.flags = Function.update s.flags g.1 flag)
    (hGuards : ∀ cell, guardsOn cell t.guards = guardsOn cell (g :: s.guards)) :
    t.Counted outside := by
  intro cell
  rw [hFlags, hGuards, guardsOn_cons]
  by_cases hg : g.1 = cell
  · subst hg
    simpa using (h g.1).tryBorrow hFlag
  · simpa [hg, Function.update_of_ne (Ne.symm hg)] using h cell

theorem guards_cons {c : Call V K T} {calls : List (Call V K T)} (hCalls : s.calls = c :: calls) :
    s.guards = c.guards ++ calls.flatMap Call.guards := by
  rw [guards, hCalls, List.flatMap_cons]

theorem Counted.unwind (h : s.Counted outside) : s.unwind.Counted outside :=
  h.release rfl (by simp [Borrowing.unwind, guards])

theorem perm_eraseIdx (guards : List Guard) (i : Nat) :
    guards.Perm (guards[i]?.toList ++ guards.eraseIdx i) := by
  by_cases hi : i < guards.length
  · rw [List.getElem?_eq_getElem hi]
    exact (List.getElem_cons_eraseIdx_perm hi).symm
  · have hLe := Nat.le_of_not_lt hi
    rw [List.getElem?_eq_none hLe, List.eraseIdx_of_length_le hLe]
    exact .refl _

theorem Counted.move (h : s.Counted outside) (hMove : Move P s t) : t.Counted outside := by
  cases hMove with
  | returned c calls hCalls hRest => exact h.release rfl (.of_eq (guards_cons hCalls))
  | panicked => exact h.unwind
  | borrowed c calls b cell rest flag hCalls hRest hFlag =>
    refine h.take (g := (cell, b)) hFlag rfl fun cell' => ?_
    rw [guards_cons hCalls]
    rfl
  | dropped c calls i rest hCalls hRest =>
    refine h.release rfl ?_
    rw [guards_cons hCalls]
    have hKept := ((perm_eraseIdx c.kept i).append_right
      (c.own.map fun m => (Cell.model m, Borrow.exclusive)).toList).append_right
        (calls.flatMap Call.guards)
    simpa only [guards, Call.guards, List.flatMap_cons, List.append_assoc] using hKept
  | sent c calls m message rest body flag hCalls hRest hBody hFlag =>
    refine h.take (g := (.model m, .exclusive)) hFlag rfl fun cell' => ?_
    rw [guards_cons hCalls]
    rfl
  | acted c calls a stmt rest heap hCalls hRest =>
    refine h.same rfl ?_
    rw [guards_cons hCalls]
    rfl

theorem Counted.step (h : s.Counted outside) (hStep : step P s u = some t) : t.Counted outside :=
  h.move (step_move hStep)

theorem Counted.clashes_iff (h : s.Counted outside) {c : Call V K T} {calls : List (Call V K T)}
    {a : Access V K T} {rest : List (Access V K T)} (hCalls : s.calls = c :: calls)
    (hRest : c.rest = a :: rest) :
    s.Clashes outside u ↔ s.refuses (a.asks c.guards) = true := by
  constructor
  · rintro ⟨c', calls', a', rest', g, hCalls', hRest', hAsks, hInWay⟩
    obtain ⟨rfl, -⟩ := List.cons.inj (hCalls.symm.trans hCalls')
    obtain ⟨rfl, -⟩ := List.cons.inj (hRest.symm.trans hRest')
    simp [refuses, hAsks, (h g.1).tryBorrow_eq_none.mpr hInWay]
  · intro hRefuses
    obtain ⟨g, hAsks, hNone⟩ := refused hRefuses
    exact ⟨c, calls, a, rest, g, hCalls, hRest, hAsks, (h g.1).tryBorrow_eq_none.mp hNone⟩

theorem step_done (hCalls : s.calls = []) : step P s u = none := by
  simp [step, hCalls]

/-- A panic is a clash of guards. -/
theorem panicked_iff_clashes (h : s.Counted outside) (hStep : step P s u = some t) :
    t.panicked = true ↔ s.panicked = true ∨ s.Clashes outside u := by
  have hSame (hFree : ¬ s.Clashes outside u) :
      s.panicked = true ↔ s.panicked = true ∨ s.Clashes outside u := by
    simp [hFree]
  cases step_move hStep with
  | returned c calls hCalls hRest =>
    refine hSame ?_
    rintro ⟨c', calls', a, rest, g, hCalls', hRest', -⟩
    obtain ⟨rfl, -⟩ := List.cons.inj (hCalls.symm.trans hCalls')
    rw [hRest] at hRest'
    cases hRest'
  | panicked c calls a rest g hCalls hRest hAsks hNone =>
    refine iff_of_true rfl (.inr ((h.clashes_iff hCalls hRest).mpr ?_))
    simp [refuses, hAsks, hNone]
  | borrowed c calls b cell rest flag hCalls hRest hFlag =>
    refine hSame fun hClash => ?_
    simp [h.clashes_iff hCalls hRest, refuses, Access.asks, hFlag] at hClash
  | dropped c calls i rest hCalls hRest =>
    refine hSame fun hClash => ?_
    simp [h.clashes_iff hCalls hRest, refuses, Access.asks] at hClash
  | sent c calls m message rest body flag hCalls hRest hBody hFlag =>
    refine hSame fun hClash => ?_
    simp [h.clashes_iff hCalls hRest, refuses, Access.asks, hFlag] at hClash
  | acted c calls a stmt rest heap hCalls hRest _ hFree hHeap =>
    refine hSame fun hClash => ?_
    rw [h.clashes_iff hCalls hRest, hFree] at hClash
    cases hClash

end Counted

section Erased

variable {P : BorrowingProgram V K T} {s t : Borrowing K V T} {u : Unit}
  {more rest : List (Access V K T)}

/-- What is left to do, without the borrows. -/
def running (s : Borrowing K V T) : Running V K T :=
  ⟨s.heap, s.calls.flatMap fun c => Access.erase c.rest⟩

theorem toProgram_body (h : Heap K T) (m : Nat) (message : Message V) :
    P.toProgram.body h m message = (P.body h m message).map Access.erase := by
  unfold Program.body BorrowingProgram.body
  cases h.models[m]? with
  | none => rfl
  | some model =>
    simp only [BorrowingProgram.toProgram, Option.bind_eq_bind, Option.bind_some]
    cases (P.expansion model.type).implModel.update message <;> rfl

/-- A step that does not panic is one without the borrows, or none. -/
theorem step_running (hStep : step P s u = some t) (hFine : t.panicked = false) :
    t.running = s.running ∨ P.toProgram.step s.running u = some t.running := by
  cases step_move hStep with
  | returned c calls hCalls hRest =>
    refine .inl ?_
    simp [running, hCalls, hRest]
  | panicked => cases hFine
  | borrowed c calls b cell rest flag hCalls hRest hFlag =>
    refine .inl ?_
    simp [running, hCalls, hRest]
  | dropped c calls i rest hCalls hRest =>
    refine .inl ?_
    simp [running, hCalls, hRest]
  | sent c calls m message rest body flag hCalls hRest hBody hFlag =>
    refine .inr ?_
    have hErased : s.running = ⟨s.heap, .send m message ::
        (Access.erase rest ++ calls.flatMap fun c => Access.erase c.rest)⟩ := by
      simp [running, hCalls, hRest]
    rw [hErased, Program.step_send (by rw [toProgram_body, hBody]; rfl)]
    simp [running]
  | acted c calls a stmt rest heap hCalls hRest hStmt hFree hHeap =>
    refine .inr ?_
    have hErased : s.running = ⟨s.heap, stmt ::
        (Access.erase rest ++ calls.flatMap fun c => Access.erase c.rest)⟩ := by
      simp [running, hCalls, hRest, Access.erase_cons_of_some hStmt]
    rw [hErased, Program.step_act (P := P.toProgram) hHeap]
    simp [running]

theorem step_panicked (hPanicked : s.panicked = true) (hStep : step P s u = some t) :
    t.panicked = true := by
  cases step_move hStep with
  | panicked => rfl
  | _ => exact hPanicked

theorem run_panicked {as : List Unit} (hPanicked : s.panicked = true)
    (hRun : run (step P) s as = some t) : t.panicked = true := by
  have hKeep (s : Borrowing K V T) (u : Unit) (t : Borrowing K V T) :
      s.panicked = true → step P s u = some t → t.panicked = true := step_panicked
  have hLater := run_invariant hKeep hPanicked hRun
  exact hLater

/-- A run that does not panic does what it does without the borrows. -/
theorem run_running {as : List Unit} (hRun : run (step P) s as = some t)
    (hFine : t.panicked = false) :
    ∃ bs, run P.toProgram.step s.running bs = some t.running := by
  induction as generalizing s with
  | nil => cases hRun; exact ⟨[], rfl⟩
  | cons a as ih =>
    obtain ⟨m, hStep, hRest⟩ := run_cons_eq_some.mp hRun
    have hFineM : m.panicked = false := by
      by_contra hPanicked
      have hLater := run_panicked (eq_true_of_ne_false hPanicked) hRest
      rw [hFine] at hLater
      cases hLater
    obtain ⟨bs, hBs⟩ := ih hRest
    rcases step_running hStep hFineM with hSame | hNext
    · exact ⟨bs, hSame ▸ hBs⟩
    · exact ⟨a :: bs, run_cons_eq_some.mpr ⟨_, hNext, hBs⟩⟩

/-- How much is left before the next statement is the next access, at most. -/
def size (s : Borrowing K V T) : Nat := s.calls.foldr (fun c n => c.rest.length + 1 + n) 0

/-- Everybody is done, or the next access is a statement. -/
def Ready (s : Borrowing K V T) : Prop :=
  s.calls = [] ∨ ∃ c calls a stmt rest, s.calls = c :: calls ∧ c.rest = a :: rest ∧
    a.stmt? = some stmt

/-- Returns, and borrows and drops of guards, come to an end. -/
theorem exists_ready (P : BorrowingProgram V K T) (s : Borrowing K V T) :
    ∃ as t, run (step P) s as = some t ∧
      (t.panicked = true ∧ t.calls = [] ∨ t.running = s.running ∧ t.Ready) := by
  induction hSize : s.size using Nat.strongRecOn generalizing s with
  | _ n ih =>
    -- a step before the next statement, and then the rest of them
    have hThen {t : Borrowing K V T} (hStep : step P s () = some t)
        (hRunning : t.running = s.running) (hLess : t.size < s.size) :
        ∃ as t, run (step P) s as = some t ∧
          (t.panicked = true ∧ t.calls = [] ∨ t.running = s.running ∧ t.Ready) := by
      obtain ⟨as, t', hRun, hEnd⟩ := ih t.size (hSize ▸ hLess) t rfl
      exact ⟨() :: as, t', run_cons_eq_some.mpr ⟨t, hStep, hRun⟩, hRunning ▸ hEnd⟩
    cases hCalls : s.calls with
    | nil => exact ⟨[], s, rfl, .inr ⟨rfl, .inl hCalls⟩⟩
    | cons c calls =>
      cases hRest : c.rest with
      | nil =>
        refine hThen (by simp [step, hCalls, hRest]; rfl) ?_ ?_
        · simp [running, hCalls, hRest]
        · simp [size, hCalls, hRest]
      | cons a rest =>
        by_cases hRefuses : s.refuses (a.asks c.guards) = true
        · refine ⟨[()], s.unwind, ?_, .inl ⟨rfl, rfl⟩⟩
          simp [step, hCalls, hRest, hRefuses]
        · cases a with
          | act stmt =>
            exact ⟨[], s, rfl, .inr ⟨rfl, .inr ⟨c, calls, _, stmt, rest, hCalls, hRest, rfl⟩⟩⟩
          | mark σ =>
            exact ⟨[], s, rfl, .inr ⟨rfl, .inr ⟨c, calls, _, _, rest, hCalls, hRest, rfl⟩⟩⟩
          | borrow b cell =>
            refine hThen (by simp [step, hCalls, hRest, hRefuses, perform]; rfl) ?_ ?_
            · simp [running, hCalls, hRest]
            · simp [size, hCalls, hRest]
          | drop i =>
            refine hThen (by simp [step, hCalls, hRest, hRefuses, perform]; rfl) ?_ ?_
            · simp [running, hCalls, hRest]
            · simp [size, hCalls, hRest]

theorem perform_stmt {c : Call V K T} {calls : List (Call V K T)} {a : Access V K T}
    {stmt : Stmt V K T} {heap : Heap K T} (hStmt : a.stmt? = some stmt)
    (hHeap : s.heap.apply P.full stmt = some heap) :
    s.perform P c calls a = some { s with heap := heap, calls := c :: calls } := by
  cases a with
  | act stmt' =>
    cases hStmt
    cases stmt with
    | send m message => cases hHeap
    | _ => simp only [perform, hHeap, Option.map_some]
  | mark σ =>
    cases hStmt
    simp only [perform, hHeap, Option.map_some]
  | _ => cases hStmt

/-- What can be done next without the borrows is done with them, or they clash. -/
theorem Ready.follow (hReady : s.Ready) {r : Running V K T}
    (hStep : P.toProgram.step s.running u = some r) : ∃ t, step P s u = some t ∧
      (t.panicked = true ∧ t.calls = [] ∨ t.running = r) := by
  rcases hReady with hCalls | ⟨c, calls, a, stmt, rest, hCalls, hRest, hStmt⟩
  · simp [running, hCalls, Program.step] at hStep
  by_cases hRefuses : s.refuses (a.asks c.guards) = true
  · exact ⟨s.unwind, by simp [step, hCalls, hRest, hRefuses], .inl ⟨rfl, rfl⟩⟩
  have hNext : step P s u = s.perform P { c with rest := rest } calls a :=
    step_of_free hCalls hRest (Bool.eq_false_iff.mpr hRefuses)
  have hErased : s.running.rest =
      stmt :: (Access.erase rest ++ calls.flatMap fun c => Access.erase c.rest) := by
    simp [running, hCalls, hRest, Access.erase_cons_of_some hStmt]
  rcases Program.step_cases hStep with
    ⟨stmt', rest', hEq, hHeap, hLeft⟩ | ⟨m, message, body, rest', hEq, hBody, rfl⟩
  · obtain ⟨rfl, rfl⟩ := List.cons.inj (hErased.symm.trans hEq)
    refine ⟨_, hNext.trans (perform_stmt hStmt hHeap), .inr ?_⟩
    obtain ⟨heap, left⟩ := r
    simp only at hLeft
    simp [running, hLeft]
  · obtain ⟨rfl, rfl⟩ := List.cons.inj (hErased.symm.trans hEq)
    obtain rfl := Access.eq_send hStmt
    rw [toProgram_body] at hBody
    obtain ⟨accesses, hAccesses, rfl⟩ := Option.map_eq_some_iff.mp hBody
    have hAccesses : P.body s.heap m message = some accesses := hAccesses
    refine ⟨_, hNext.trans (by rw [perform, hAccesses, Option.map_some]), .inr ?_⟩
    simp [running]

/-- What ends without the borrows ends with them, or they clash. -/
theorem follows {bs : List Unit} {h' : Heap K T}
    (hRun : run P.toProgram.step s.running bs = some ⟨h', []⟩) : ∃ as t,
      run (step P) s as = some t ∧ t.calls = [] ∧ (t.panicked = true ∨ t.heap = h') := by
  induction bs generalizing s with
  | nil =>
    obtain ⟨as, t, hAs, ⟨hPanicked, hCalls⟩ | ⟨hRunning, hReady⟩⟩ := exists_ready P s
    · exact ⟨as, t, hAs, hCalls, .inl hPanicked⟩
    · have hDone : t.running = ⟨h', []⟩ := hRunning.trans (Option.some.inj hRun)
      rcases hReady with hCalls | ⟨c, calls, a, stmt, rest, hCalls, hRest, hStmt⟩
      · exact ⟨as, t, hAs, hCalls, .inr (congrArg Running.heap hDone)⟩
      · simp [running, hCalls, hRest, Access.erase_cons_of_some hStmt] at hDone
  | cons b bs ih =>
    obtain ⟨r, hStep, hLater⟩ := run_cons_eq_some.mp hRun
    obtain ⟨as, m, hAs, ⟨hPanicked, hCalls⟩ | ⟨hRunning, hReady⟩⟩ := exists_ready P s
    · exact ⟨as, m, hAs, hCalls, .inl hPanicked⟩
    · obtain ⟨t, hNext, ⟨hPanicked, hCalls⟩ | rfl⟩ := hReady.follow (hRunning ▸ hStep)
      · exact ⟨as ++ [b], t, run_trans hAs (run_singleton.trans hNext), hCalls, .inl hPanicked⟩
      · obtain ⟨cs, t', hCs, hEnd⟩ := ih hLater
        exact ⟨as ++ b :: cs, t', run_trans hAs (run_cons_eq_some.mpr ⟨t, hNext, hCs⟩), hEnd⟩

end Erased

section Layered

variable {P : BorrowingProgram V K T} {s t : Borrowing K V T} {u : Unit} {depth : Cell → Nat}
  {c : Call V K T} {calls : List (Call V K T)} {a : Access V K T} {rest : List (Access V K T)}

/-- The calls under way go down the tree: each descends, and its guards are of models below those
that the calls around it have guards of. -/
def Layered (depth : Cell → Nat) : List (Call V K T) → Prop
  | [] => True
  | c :: calls =>
    c.Descends depth ∧ (∀ g ∈ c.guards, Below depth (calls.flatMap Call.guards) g.1) ∧
    (c.own = none → calls.flatMap Call.guards = []) ∧ Layered depth calls

theorem Layered.below (h : Layered depth (c :: calls)) (hRest : c.rest = a :: rest) {g : Guard}
    (hAsks : a.asks c.guards = some g) :
    Below depth (c.guards ++ calls.flatMap Call.guards) g.1 := by
  obtain ⟨hDescends, hBelow, hOuter, -⟩ := h
  have hOwn : Below depth c.guards g.1 := (Call.descends_cons hRest).mp hDescends |>.1 g hAsks
  intro g' hg'
  rcases List.mem_append.mp hg' with hg' | hg'
  · exact hOwn g' hg'
  · cases hNone : c.own with
    | none =>
      rw [hOuter hNone] at hg'
      cases hg'
    | some m =>
      have hMem : (Cell.model m, Borrow.exclusive) ∈ c.guards := by simp [Call.guards, hNone]
      exact Nat.lt_trans (hBelow _ hMem g' hg') (hOwn _ hMem)

theorem Layered.not_clashes (h : Layered depth s.calls) : ¬ s.Clashes (fun _ => []) u := by
  rintro ⟨c, calls, a, rest, g, hCalls, hRest, hAsks, b, hb, -⟩
  rw [hCalls] at h
  rw [List.append_nil, guards_cons hCalls] at hb
  obtain ⟨g', hg', hOn⟩ := List.mem_filterMap.mp hb
  obtain ⟨hSame, -⟩ := Option.ite_none_right_eq_some.mp hOn
  have hLt := h.below hRest hAsks g' hg'
  rw [hSame] at hLt
  exact Nat.lt_irrefl _ hLt

/-- The call goes on. -/
theorem Layered.next (h : Layered depth (c :: calls)) (hRest : c.rest = a :: rest)
    (hNew : ∀ g ∈ a.keeps c.kept, g ∉ c.kept → a.asks c.guards = some g) :
    Layered depth ({ c with kept := a.keeps c.kept, rest := rest } :: calls) := by
  obtain ⟨hDescends, hBelow, hOuter, hCalls⟩ := id h
  refine ⟨((Call.descends_cons hRest).mp hDescends).2, fun g hg => ?_, hOuter, hCalls⟩
  rcases List.mem_append.mp hg with hKept | hOwn
  · by_cases hOld : g ∈ c.kept
    · exact hBelow g (List.mem_append_left _ hOld)
    · exact fun g' hg' => h.below hRest (hNew g hKept hOld) g' (List.mem_append_right _ hg')
  · exact hBelow g (List.mem_append_right _ hOwn)

theorem Layered.move (hP : P.Descends depth) (hNested : s.heap.Nested depth)
    (h : Layered depth s.calls) (hMove : Move P s t) : Layered depth t.calls := by
  cases hMove with
  | returned c calls hCalls hRest =>
    rw [hCalls] at h
    exact h.2.2.2
  | panicked => trivial
  | borrowed c calls b cell rest flag hCalls hRest hFlag =>
    rw [hCalls] at h
    refine h.next hRest fun g hg hOld => ?_
    rcases List.mem_cons.mp hg with rfl | hg
    · rfl
    · exact (hOld hg).elim
  | dropped c calls i rest hCalls hRest =>
    rw [hCalls] at h
    exact h.next hRest fun g hg hOld => (hOld (List.mem_of_mem_eraseIdx hg)).elim
  | sent c calls m message rest body flag hCalls hRest hBody hFlag =>
    rw [hCalls] at h
    have hNext := h.next hRest fun g hg hOld => (hOld hg).elim
    have hBelow := h.below hRest (g := (.model m, .exclusive)) rfl
    have hOwn : (some m : Option Nat) ≠ none := Option.some_ne_none m
    refine ⟨hP.body hNested hBody, fun g hg => ?_, fun hNone => (hOwn hNone).elim, hNext⟩
    rw [List.mem_singleton.mp hg]
    exact hBelow
  | acted c calls a stmt rest heap hCalls hRest hStmt =>
    rw [hCalls] at h
    have hSame : a.keeps c.kept = c.kept := Access.keeps_of_stmt hStmt
    have hNext := h.next hRest fun g hg hOld => (hOld (hSame ▸ hg)).elim
    rwa [hSame] at hNext

/-- Nothing has panicked, and nothing is in the way of going further down. -/
structure Fine (depth : Cell → Nat) (s : Borrowing K V T) : Prop where
  panicked : s.panicked = false
  counted : s.Counted fun _ => []
  layered : Layered depth s.calls

theorem Fine.step (hP : P.Descends depth) (hNested : s.heap.Nested depth) (h : s.Fine depth)
    (hStep : step P s u = some t) : t.Fine depth where
  panicked := by
    refine eq_false_of_ne_true fun hPanicked => ?_
    rcases (panicked_iff_clashes h.counted hStep).mp hPanicked with hPanicked | hClashes
    · exact Bool.false_ne_true (h.panicked.symm.trans hPanicked)
    · exact h.layered.not_clashes hClashes
  counted := h.counted.step hStep
  layered := h.layered.move hP hNested (step_move hStep)

end Layered

end Borrowing

namespace TreeHost

variable {V K T : Type} {P : BorrowingProgram V K T} {s : TreeHost K T} {message : Message V}
  {interceptors : List (List (Access V K T))} {flags : Cell → Int} {outside : Cell → List Borrow}
  {seen updated : Heap K T} {w w' : List Nat}

/-- `handle_message` up to the flushes: the interceptors, the update and `__accumulate_signals`. -/
def handling (s : TreeHost K T) (flags : Cell → Int) (interceptors : List (List (Access V K T)))
    (message : Message V) : Borrowing K V T where
  heap := s.heap
  flags := flags
  calls := interceptors.map (fun accesses => ⟨none, [], accesses⟩) ++
    [⟨none, [], [.act (.send s.root message), .borrow .shared (.model s.root), .drop 0]⟩]
  panicked := false

theorem handling_guards : (s.handling flags interceptors message).guards = [] := by
  simp [Borrowing.guards, handling, Call.guards, List.flatMap_append, List.flatMap_map]

theorem handling_running : (s.handling flags interceptors message).running =
    ⟨s.heap, interceptors.flatMap Access.erase ++ [.send s.root message]⟩ := by
  simp [Borrowing.running, handling, List.flatMap_append, List.flatMap_map]

theorem handling_counted (hFlags : ∀ cell, Counts (flags cell) (outside cell)) :
    (s.handling flags interceptors message).Counted outside := by
  intro cell
  rw [handling_guards]
  exact hFlags cell

/-- Whoever keeps guards meanwhile: a message that is handled without the borrows is handled with
them, or a borrow panics at the first clash with a guard that is alive; and every flag is then as
it was before. -/
theorem handled_or_clashed (hFlags : ∀ cell, Counts (flags cell) (outside cell))
    (hSeen : P.toProgram.Exec s.heap (interceptors.flatMap Access.erase) seen w)
    (hUpdate : P.toProgram.Exec seen [.send s.root message] updated w') : ∃ as t,
      run (Borrowing.step P) (s.handling flags interceptors message) as = some t ∧
      t.calls = [] ∧ t.flags = flags ∧
      (t.panicked = true ↔ Sometime (Borrowing.step P) (Borrowing.Clashes outside)
        (s.handling flags interceptors message) as) ∧
      (t.panicked = false → t.heap = updated) := by
  obtain ⟨as₁, hFirst⟩ := Program.exec_run hSeen [.send s.root message]
  obtain ⟨as₂, hSecond⟩ := Program.exec_run hUpdate []
  have hFree : run P.toProgram.step (s.handling flags interceptors message).running
      (as₁ ++ as₂) = some ⟨updated, []⟩ := by
    rw [handling_running]
    exact run_trans hFirst hSecond
  obtain ⟨as, t, hRun, hCalls, hEnd⟩ := Borrowing.follows hFree
  have hCounted : t.Counted outside :=
    run_invariant (fun _ _ _ h => h.step) (handling_counted hFlags) hRun
  refine ⟨as, t, hRun, hCalls, funext fun cell => ?_, ?_, fun hFine => ?_⟩
  · have hEmpty : t.guards = [] := by simp [Borrowing.guards, hCalls]
    have hOutside := hCounted cell
    rw [hEmpty] at hOutside
    exact hOutside.flag_eq (hFlags cell)
  · exact gained_iff_sometime (fun s => s.panicked = true) (Borrowing.Counted outside)
      (fun _ _ _ h => h.step) (fun _ _ _ h => Borrowing.panicked_iff_clashes h)
      (handling_counted hFlags) Bool.false_ne_true hRun
  · rw [hFine] at hEnd
    exact hEnd.resolve_left Bool.false_ne_true

theorem handling_layered {depth : Cell → Nat}
    (hInterceptors : ∀ accesses ∈ interceptors, Descending depth none [] accesses) :
    Borrowing.Layered depth (s.handling flags interceptors message).calls := by
  have hHost : Descending depth none []
      [.act (.send s.root message), .borrow .shared (.model s.root), (.drop 0 : Access V K T)] := by
    simp [Descending, Access.keeps, Access.asks, Below, Call.guards]
  induction interceptors with
  | nil => exact ⟨hHost, fun g hg => (List.not_mem_nil hg).elim, fun _ => rfl, trivial⟩
  | cons accesses rest ih =>
    have hRest := ih fun accesses h => hInterceptors accesses (List.mem_cons_of_mem _ h)
    have hEmpty : (s.handling flags rest message).guards = [] := handling_guards
    exact ⟨hInterceptors accesses List.mem_cons_self, fun g hg => (List.not_mem_nil hg).elim,
      fun _ => hEmpty, hRest⟩

/-- When the tree stays nested, every block, like every interceptor, only borrows cells that lie
deeper than those it has guards of, and nobody else has a guard, no borrow of a message ever panics:
the message is handled as without them, and no guard is left. -/
theorem never_clashes {depth : Cell → Nat} (hP : P.Descends depth)
    (hInterceptors : ∀ accesses ∈ interceptors, Descending depth none [] accesses)
    {as : List Unit} {t : Borrowing K V T}
    (hNested : Every (Borrowing.step P) (fun s _ => s.heap.Nested depth)
      (s.handling (fun _ => 0) interceptors message) as)
    (hRun : run (Borrowing.step P) (s.handling (fun _ => 0) interceptors message) as = some t) :
    t.panicked = false ∧ (t.calls = [] → (t.flags = fun _ => 0) ∧
      ∃ written, Handles P.toProgram s message
        (flushAll P.full { s with
          signals := s.signals ++ P.toProgram.accumulateSignals t.heap s.root
          heap := t.heap })
        t.heap written) := by
  have hCounted : (s.handling (fun _ => 0) interceptors message).Counted fun _ => [] :=
    handling_counted fun _ => Counts.nil
  obtain ⟨hFine, hCounted', -⟩ : t.Fine depth :=
    run_invariant_of (fun _ _ _ hFine hHeap hStep => Borrowing.Fine.step hP hHeap hFine hStep)
      ⟨rfl, hCounted, handling_layered hInterceptors⟩ hNested hRun
  refine ⟨hFine, fun hCalls => ⟨funext fun cell => ?_, ?_⟩⟩
  · have hEmpty : t.guards = [] := by simp [Borrowing.guards, hCalls]
    have hFlag := hCounted' cell
    rw [hEmpty] at hFlag
    exact hFlag.flag_eq Counts.nil
  · obtain ⟨bs, hBs⟩ := Borrowing.run_running hRun hFine
    have hDone : t.running = ⟨t.heap, []⟩ := by simp [Borrowing.running, hCalls]
    rw [handling_running, hDone] at hBs
    obtain ⟨w, he⟩ := Program.run_exec hBs
    obtain ⟨seen, w₁, w₂, hSeen, hUpdate⟩ := he.split
    exact ⟨_, .intro hSeen hUpdate⟩

end TreeHost

section House

/-- The house looks at its lamp before it toggles it. -/
def houseBorrowing : BorrowingProgram Unit HouseModels Bool where
  full := houseFull
  expansion := houseProgram.expansion
  generated := houseProgram.generated
  block
    | .lamp, _, _, m, h => (houseSignal h m "light").map .act
    | .house, ["{ self.lamp.update(LampMessage::Toggle {}); }"], _, m, h =>
      (h.models[m]?.bind fun model => model.children "lamp").toList.flatMap fun child =>
        [.borrow .shared (.model child), .drop 0, .act (.send child ⟨"Toggle", []⟩)]
    | .house, _, _, m, h => (houseSignal h m "locked").map .act

theorem houseSignal_descending {depth : Cell → Nat} {h : Heap HouseModels Bool}
    (hNested : h.Nested depth) (m : Nat) (field : Ident) :
    Descending depth (some m) [] ((houseSignal h m field).map .act) := by
  unfold houseSignal
  cases hField : h.models[m]?.bind fun model => model.signals field with
  | none => trivial
  | some σ =>
    obtain ⟨model, hModel, hSignal⟩ := Option.bind_eq_some_iff.mp hField
    obtain ⟨hValue, hSubscribers⟩ := hNested.signals m model field σ hModel hSignal
    simp [Descending, Access.asks, SignalUse.asks, Access.keeps, Below, Call.guards, hValue,
      hSubscribers]

theorem houseBorrowing_descends (depth : Cell → Nat) : houseBorrowing.Descends depth := by
  intro k block env m h hNested
  simp only [houseBorrowing]
  split
  next => exact houseSignal_descending hNested m "light"
  next =>
    cases hLamp : h.models[m]?.bind fun model => model.children "lamp" with
    | none => trivial
    | some child =>
      obtain ⟨model, hModel, hChild⟩ := Option.bind_eq_some_iff.mp hLamp
      have hDeeper := hNested.children m model "lamp" child hModel hChild
      simp [Descending, Access.asks, Access.keeps, Below, Call.guards, hDeeper]
  next => exact houseSignal_descending hNested m "locked"

/-- The signals lie below both models. -/
def houseDepth : Cell → Nat
  | .model m => m
  | .value σ | .subscribers σ => σ + 2

theorem houseHeap_nested : houseHeap.Nested houseDepth where
  children m model field child hModel hChild := by
    match m with
    | 0 =>
      cases hModel
      obtain ⟨-, hOne⟩ := Option.ite_none_right_eq_some.mp hChild
      cases hOne
      exact Nat.zero_lt_one
    | 1 =>
      cases hModel
      cases hChild
    | m + 2 => cases hModel
  signals m model field σ hModel hSignal := by
    have hAbove : m < σ + 2 := by
      match m with
      | 0 => omega
      | 1 => omega
      | m + 2 => cases hModel
    exact ⟨hAbove, hAbove⟩

theorem lit_toggles : houseBorrowing.toProgram.Exec houseHeap [.send 0 ⟨"Toggle", []⟩] litHeap
    ([1] ++ ([] ++ []) ++ [] ++ []) := by
  have hLight : houseBorrowing.toProgram.Exec houseHeap [.use 1 (.update not), .use 1 .drop]
      litHeap ([1] ++ ([] ++ [])) := .act rfl (.act rfl (.done _))
  exact .send rfl (.send rfl hLight (.done _)) (.done _)

/-- Somebody keeps a guard of the value of the lamp's light, which the house toggles. -/
theorem handled_or_clashed_watched : ∃ as t,
    run (Borrowing.step houseBorrowing)
      (houseHost.handling (fun cell => if cell = .value 1 then 1 else 0) [] ⟨"Toggle", []⟩) as =
        some t ∧
    t.calls = [] ∧ (t.flags = fun cell => if cell = .value 1 then 1 else 0) ∧
    (t.panicked = true ↔ Sometime (Borrowing.step houseBorrowing)
      (Borrowing.Clashes fun cell => if cell = .value 1 then [.shared] else [])
      (houseHost.handling (fun cell => if cell = .value 1 then 1 else 0) [] ⟨"Toggle", []⟩) as) ∧
    (t.panicked = false → t.heap = litHeap) := by
  refine TreeHost.handled_or_clashed (fun cell => ?_) (.done _) lit_toggles
  split
  next => exact .inl ⟨rfl, by simp⟩
  next => exact .nil

theorem never_clashes_toggle : ∃ t,
    run (Borrowing.step houseBorrowing) (houseHost.handling (fun _ => 0) [] ⟨"Toggle", []⟩)
      (List.replicate 11 ()) = some t ∧ t.calls = [] ∧ t.panicked = false := by
  obtain ⟨t, hRun, hCalls⟩ : ∃ t, run (Borrowing.step houseBorrowing)
      (houseHost.handling (fun _ => 0) [] ⟨"Toggle", []⟩) (List.replicate 11 ()) = some t ∧
      t.calls = [] := ⟨_, rfl, rfl⟩
  have hNested {h : Heap HouseModels Bool} (hModels : h.models = houseHeap.models) :
      h.Nested houseDepth := houseHeap_nested.of_models hModels
  have hEvery : Every (Borrowing.step houseBorrowing) (fun s _ => s.heap.Nested houseDepth)
      (houseHost.handling (fun _ => 0) [] ⟨"Toggle", []⟩) (List.replicate 11 ()) :=
    .cons (hNested rfl) rfl <| .cons (hNested rfl) rfl <| .cons (hNested rfl) rfl <|
      .cons (hNested rfl) rfl <| .cons (hNested rfl) rfl <| .cons (hNested rfl) rfl <|
      .cons (hNested rfl) rfl <| .cons (hNested rfl) rfl <| .cons (hNested rfl) rfl <|
      .cons (hNested rfl) rfl <| .cons (hNested rfl) rfl trivial
  exact ⟨t, hRun, hCalls,
    (TreeHost.never_clashes (houseBorrowing_descends houseDepth) (by simp) hEvery hRun).1⟩

end House

end Emyu.ModelTree
