import Emyu.ModelTree.Locks

/-! The thread-safe host refines one that makes each update at once: the guard of the root model
that `ModelBase::update` keeps hides the updates of the models below it, and of the values of their
signals, from whoever reads the root. -/

namespace Emyu.ModelTree

open Macro Named Relation Runs RefCell RwLock

namespace Borrowing

variable {V K T : Type} {P : BorrowingProgram V K T} {s t : Borrowing K V T} {u : Unit}
  {c : Call V K T} {calls inner outer : List (Call V K T)}

theorem perform_append (a : Access V K T) :
    perform P { s with calls := inner ++ outer } c (calls ++ outer) a =
      (perform P { s with calls := inner } c calls a).map fun t =>
        { t with calls := t.calls ++ outer } := by
  cases a with
  | act stmt => cases stmt <;> simp [perform, Function.comp_def]
  | mark σ => simp [perform, Function.comp_def]
  | borrow b m => simp [perform]
  | drop i => simp [perform]

/-- The calls around it play no part in what the innermost one does. -/
theorem step_append (hCalls : s.calls = inner ++ outer) (hInner : inner ≠ [])
    (hStep : step P s u = some t) (hFine : t.panicked = false) :
    ∃ t', step P { s with calls := inner } u = some t' ∧
      t = { t' with calls := t'.calls ++ outer } := by
  obtain ⟨heap, flags, calls, panicked⟩ := s
  obtain rfl : calls = inner ++ outer := hCalls
  obtain ⟨c, calls, rfl⟩ := List.exists_cons_of_ne_nil hInner
  cases hRest : c.rest with
  | nil =>
    have hAlone : step P ⟨heap, flags, c :: calls, panicked⟩ u =
        some ⟨heap, releaseAll c.guards flags, calls, panicked⟩ := by
      simp only [step, hRest]
    simp only [step, List.cons_append, hRest] at hStep
    cases hStep
    exact ⟨_, hAlone, rfl⟩
  | cons a rest =>
    by_cases hRefuses : refuses ⟨heap, flags, c :: calls, panicked⟩ (a.asks c.guards) = true
    · have hUnwound : step P ⟨heap, flags, c :: calls ++ outer, panicked⟩ u =
          some (unwind ⟨heap, flags, c :: calls ++ outer, panicked⟩) := by
        simp only [step, List.cons_append, hRest]
        exact if_pos hRefuses
      obtain rfl := Option.some.inj (hUnwound.symm.trans hStep)
      cases hFine
    · have hNext (outer : List (Call V K T)) :
          step P ⟨heap, flags, c :: calls ++ outer, panicked⟩ u =
            perform P ⟨heap, flags, c :: calls ++ outer, panicked⟩ { c with rest := rest }
              (calls ++ outer) a := by
        simp only [step, List.cons_append, hRest]
        exact if_neg hRefuses
      have hAlone := hNext []
      simp only [List.append_nil] at hAlone
      rw [hNext, perform_append (s := ⟨heap, flags, c :: calls, panicked⟩)] at hStep
      obtain ⟨t', hPerform, rfl⟩ := Option.map_eq_some_iff.mp hStep
      exact ⟨t', hAlone.trans hPerform, rfl⟩

/-- The outermost call stays until it returns. -/
theorem step_outermost (hStep : step P s u = some t) :
    t.calls = [] ∨
      t.calls.getLast?.bind Call.own = s.calls.getLast?.bind Call.own := by
  have hSame {c c' : Call V K T} (calls : List (Call V K T)) (hOwn : c'.own = c.own) :
      (c' :: calls).getLast?.bind Call.own = (c :: calls).getLast?.bind Call.own := by
    cases calls with
    | nil => exact hOwn
    | cons d calls => simp [List.getLast?_cons_cons]
  cases step_move hStep with
  | returned c calls hCalls hRest =>
    cases calls with
    | nil => exact .inl rfl
    | cons d calls => exact .inr (by simp [hCalls, List.getLast?_cons_cons])
  | panicked => exact .inl rfl
  | borrowed c calls b m rest flag hCalls => exact .inr (hCalls ▸ hSame calls rfl)
  | dropped c calls i rest hCalls => exact .inr (hCalls ▸ hSame calls rfl)
  | sent c calls m message rest body flag hCalls =>
    refine .inr ?_
    rw [hCalls, List.getLast?_cons_cons]
    exact hSame calls rfl
  | acted c calls a stmt rest heap hCalls => exact .inr (hCalls ▸ hSame calls rfl)

/-- A step that does not panic is one without the borrows, or none, and it is one for code that
cannot tell the heaps apart. -/
theorem alike_step (hP : P.ValuesOnly) (hStep : step P s u = some t) (hFine : t.panicked = false)
    {h : Heap K T} (hAlike : s.heap.Alike h) : ∃ k bs, t.heap.Alike k ∧
      run P.toProgram.step ⟨h, s.running.rest⟩ bs = some ⟨k, t.running.rest⟩ := by
  rcases step_running hStep hFine with hSame | hNext
  · obtain ⟨hHeap, hRest⟩ := Running.mk.inj hSame
    refine ⟨h, [], hHeap ▸ hAlike, ?_⟩
    rw [hSame]
    rfl
  · obtain ⟨k, hk, hStep'⟩ := hP.respects.running (k := t.heap) hAlike hNext
    exact ⟨k, [u], hk, run_singleton.trans hStep'⟩

end Borrowing

/-! ### The host that makes each update at once -/

/-- Where that host is: between two messages, in the interceptors of one, after its update or in
the flushes. -/
inductive Stage (V K T : Type) where
  | idle
  | intercepting (rest : List (Stmt V K T)) (message : Message V)
  | updated
  | flushing (signals : List Nat)

/-- `begun` records the messages that were received, each with what the interceptors do for it. -/
structure WholeHost (V K T : Type) where
  heap : Heap K T
  stage : Stage V K T
  begun : List (List (Stmt V K T) × Message V)

namespace WholeHost

variable {V K T : Type}

/-- A step on a message: of an interceptor, or the whole update. -/
inductive Handling (P : Program V K T) (root : Nat) : WholeHost V K T → WholeHost V K T → Prop where
  | intercepts (heap heap' : Heap K T) (rest rest' : List (Stmt V K T)) (message : Message V)
      (begun : List (List (Stmt V K T) × Message V)) :
      P.step ⟨heap, rest⟩ () = some ⟨heap', rest'⟩ →
      Handling P root ⟨heap, .intercepting rest message, begun⟩
        ⟨heap', .intercepting rest' message, begun⟩
  | updates (heap updated : Heap K T) (message : Message V)
      (begun : List (List (Stmt V K T) × Message V)) (w : List Nat) :
      P.Exec heap [.send root message] updated w →
      Handling P root ⟨heap, .intercepting [] message, begun⟩ ⟨updated, .updated, begun⟩

inductive Step (P : Program V K T) (root : Nat) : WholeHost V K T → WholeHost V K T → Prop where
  | next (heap : Heap K T) (interceptors : List (Stmt V K T)) (message : Message V)
      (begun : List (List (Stmt V K T) × Message V)) :
      Step P root ⟨heap, .idle, begun⟩
        ⟨heap, .intercepting interceptors message, begun ++ [(interceptors, message)]⟩
  | handles (a b : WholeHost V K T) : Handling P root a b → Step P root a b
  | accumulates (heap : Heap K T) (begun : List (List (Stmt V K T) × Message V)) :
      Step P root ⟨heap, .updated, begun⟩ ⟨heap, .flushing (P.accumulateSignals heap root), begun⟩
  | flushes (heap : Heap K T) (σ : Nat) (signals : List Nat)
      (begun : List (List (Stmt V K T) × Message V)) :
      Step P root ⟨heap, .flushing (σ :: signals), begun⟩
        ⟨heap.flush P.full σ, .flushing signals, begun⟩
  | rests (heap : Heap K T) (begun : List (List (Stmt V K T) × Message V)) :
      Step P root ⟨heap, .flushing [], begun⟩ ⟨heap, .idle, begun⟩

end WholeHost

/-! ### One message -/

section Follows

variable {V K T : Type} {P : BorrowingProgram V K T} {root : Nat} {message : Message V}
  {begun : List (List (Stmt V K T) × Message V)} {b b' : Borrowing K V T} {a : WholeHost V K T}
  {u : Unit}

/-- How far `handle_message` is: in the interceptors, in the update with the root model borrowed for
it, or past it. -/
inductive Follows (P : BorrowingProgram V K T) (root : Nat) (message : Message V)
    (begun : List (List (Stmt V K T) × Message V)) (b : Borrowing K V T) :
    WholeHost V K T → Prop where
  | intercepting (calls : List (Call V K T)) (heap : Heap K T) :
      b.calls = calls ++
        [⟨none, [], [.act (.send root message), .borrow .shared (.model root), .drop 0]⟩] →
      b.heap.Alike heap → Follows P root message begun b
        ⟨heap, .intercepting (calls.flatMap fun c => Access.erase c.rest) message, begun⟩
  | updating (calls : List (Call V K T)) (heap seen : Heap K T) (bs : List Unit) :
      b.calls = calls ++ [⟨none, [], [.borrow .shared (.model root), .drop 0]⟩] →
      calls.getLast?.bind Call.own = some root →
      run P.toProgram.step ⟨heap, [.send root message]⟩ bs =
        some ⟨seen, calls.flatMap fun c => Access.erase c.rest⟩ →
      b.heap.Alike seen →
      Follows P root message begun b ⟨heap, .intercepting [] message, begun⟩
  | updated (heap : Heap K T) : b.running.rest = [] → b.heap.Alike heap →
      Follows P root message begun b ⟨heap, .updated, begun⟩

/-- The host's own code goes on with the update. -/
theorem Follows.begin (hP : P.ValuesOnly) (hStep : Borrowing.step P b u = some b')
    (hFine : b'.panicked = false) {heap : Heap K T} (hAlike : b.heap.Alike heap)
    (hCalls : b.calls =
      [⟨none, [], [.act (.send root message), .borrow .shared (.model root), .drop 0]⟩]) :
    Follows P root message begun b' ⟨heap, .intercepting [] message, begun⟩ := by
  cases Borrowing.step_move hStep with
  | sent c calls m message' rest body flag hCalls' hRest hBody =>
    obtain ⟨rfl, rfl⟩ := List.cons.inj (hCalls.symm.trans hCalls')
    cases hRest
    refine .updating [⟨some root, [], body⟩] heap heap [()] rfl rfl ?_ hAlike
    rw [hP.respects.body hAlike] at hBody
    rw [run_singleton, Program.step_send (by rw [Borrowing.toProgram_body, hBody]; rfl)]
    simp
  | acted c calls a stmt rest heap hCalls' hRest hStmt _ hHeap =>
    obtain ⟨rfl, rfl⟩ := List.cons.inj (hCalls.symm.trans hCalls')
    cases hRest
    cases hStmt
    cases hHeap
  | panicked => cases hFine
  | returned c calls hCalls' hRest =>
    obtain ⟨rfl, rfl⟩ := List.cons.inj (hCalls.symm.trans hCalls')
    cases hRest
  | borrowed c calls b cell rest flag hCalls' hRest =>
    obtain ⟨rfl, rfl⟩ := List.cons.inj (hCalls.symm.trans hCalls')
    cases hRest
  | dropped c calls i rest hCalls' hRest =>
    obtain ⟨rfl, rfl⟩ := List.cons.inj (hCalls.symm.trans hCalls')
    cases hRest

/-- The interceptors of the other host go on. -/
theorem WholeHost.intercepts_run {P : Program V K T} {heap heap' : Heap K T}
    {rest rest' : List (Stmt V K T)} {bs : List Unit}
    (hRun : run P.step ⟨heap, rest⟩ bs = some ⟨heap', rest'⟩) :
    ReflTransGen (WholeHost.Handling P root) ⟨heap, .intercepting rest message, begun⟩
      ⟨heap', .intercepting rest' message, begun⟩ := by
  induction bs generalizing heap rest with
  | nil =>
    cases hRun
    exact .refl
  | cons b bs ih =>
    obtain ⟨⟨h, more⟩, hStep, hRest⟩ := run_cons_eq_some.mp hRun
    exact .head (.intercepts _ _ _ _ _ _ hStep) (ih hRest)

theorem Follows.step (hP : P.ValuesOnly) (h : Follows P root message begun b a)
    (hStep : Borrowing.step P b u = some b') (hFine : b'.panicked = false) :
    ∃ a', ReflTransGen (WholeHost.Handling P.toProgram root) a a' ∧
      Follows P root message begun b' a' := by
  cases h with
  | intercepting calls heap hCalls hAlike =>
    by_cases hInner : calls = []
    · subst hInner
      exact ⟨_, .refl, .begin hP hStep hFine hAlike hCalls⟩
    · obtain ⟨t, hInnerStep, rfl⟩ := Borrowing.step_append hCalls hInner hStep hFine
      obtain ⟨k, bs, hk, hRun⟩ := Borrowing.alike_step hP hInnerStep hFine hAlike
      exact ⟨_, WholeHost.intercepts_run hRun, .intercepting t.calls k rfl hk⟩
  | updating calls heap seen bs hCalls hOwn hReached hAlike =>
    have hInner : calls ≠ [] := by
      rintro rfl
      cases hOwn
    obtain ⟨t, hInnerStep, rfl⟩ := Borrowing.step_append hCalls hInner hStep hFine
    obtain ⟨k, cs, hk, hNext⟩ := Borrowing.alike_step hP hInnerStep hFine hAlike
    have hLater := run_trans hReached hNext
    rcases Borrowing.step_outermost hInnerStep with hDone | hSame
    · have hEnd : t.running.rest = [] := by simp [Borrowing.running, hDone]
      rw [hEnd] at hLater
      obtain ⟨w, hUpdate⟩ := Program.run_exec hLater
      exact ⟨_, .single (.updates _ _ _ _ w hUpdate),
        .updated k (by simp [Borrowing.running, hDone]) hk⟩
    · exact ⟨_, .refl, .updating t.calls heap k _ rfl (hSame.trans hOwn) hLater hk⟩
  | updated heap hRest hAlike =>
    rcases Borrowing.step_running hStep hFine with hSame | hNext
    · obtain ⟨hHeap, hLeft⟩ := Running.mk.inj hSame
      exact ⟨_, .refl, .updated heap (hLeft.trans hRest) (hHeap ▸ hAlike)⟩
    · simp [Program.step, hRest] at hNext

/-- Another thread does something to a signal other than to write its value. -/
theorem Follows.touch (h : Follows P root message begun b a) {full : List SignalStatus → Bool}
    {σ : Nat} {x : SignalAtom T} (hNot : x.isWrite = false) :
    Follows P root message begun (b.touch full σ x) a := by
  cases h with
  | intercepting calls heap hCalls hAlike =>
    exact .intercepting calls heap hCalls (hAlike.touch hNot)
  | updating calls heap seen bs hCalls hOwn hReached hAlike =>
    exact .updating calls heap seen bs hCalls hOwn hReached (hAlike.touch hNot)
  | updated heap hRest hAlike => exact .updated heap hRest (hAlike.touch hNot)

theorem Follows.begun_eq (h : Follows P root message begun b a) : a.begun = begun := by
  cases h <;> rfl

/-- But in the update the models and the values are those of the host that makes it at once. -/
theorem Follows.alike (h : Follows P root message begun b a)
    (hFree : (.model root, Borrow.exclusive) ∉ b.guards) : b.heap.Alike a.heap := by
  cases h with
  | intercepting _ _ _ hAlike => exact hAlike
  | updating calls heap seen bs hCalls hOwn =>
    refine (hFree ?_).elim
    obtain ⟨c, hLast, hRoot⟩ := Option.bind_eq_some_iff.mp hOwn
    have hCall : c ∈ b.calls := by
      rw [hCalls]
      exact List.mem_append_left _ (List.mem_of_getLast? hLast)
    exact List.mem_flatMap.mpr ⟨c, hCall, by simp [Call.guards, hRoot]⟩
  | updated _ _ hAlike => exact hAlike

theorem handling_follows {s : TreeHost K T} {interceptors : List (List (Access V K T))}
    {flags : Cell → Int} {heap : Heap K T} (hAlike : s.heap.Alike heap) :
    Follows P s.root message begun (s.handling flags interceptors message)
      ⟨heap, .intercepting (interceptors.flatMap Access.erase) message, begun⟩ := by
  have hFollows : Follows P s.root message begun (s.handling flags interceptors message) _ :=
    .intercepting (interceptors.map fun accesses => ⟨none, [], accesses⟩) heap rfl hAlike
  rw [List.flatMap_map] at hFollows
  exact hFollows

end Follows

/-! ### Message after message -/

/-- Where a host is: between two messages, in one, or in the flushes after it. In the `__flush` of a
signal it has swapped `dirty`, and then locked the list, with these subscribers left to send to. -/
inductive HostPhase (V : Type) where
  | idle
  | handling (message : Message V)
  | flushing (signals : List Nat)
  | swapped (σ : Nat) (signals : List Nat)
  | sending (σ : Nat) (rest : List Nat) (signals : List Nat)

/-- The subscribers that a loop over the list goes through. -/
def Heap.subscribers {K T : Type} (h : Heap K T) (σ : Nat) : List Nat :=
  h.signals[σ]?.elim [] SignalRepr.subscribers

/-- The list of subscribers that the host has locked. -/
def HostPhase.locked {V : Type} : HostPhase V → Option Nat
  | .sending σ _ _ => some σ
  | _ => none

/-- The signals left to flush. -/
def HostPhase.left {V : Type} : HostPhase V → Option (List Nat)
  | .flushing signals | .swapped _ signals | .sending _ _ signals => some signals
  | _ => none

/-- A host that handles one message after another, and the other threads. `begun` records the
messages that were received, each with what the interceptors do for it. -/
structure SyncHost (V K T : Type) where
  tree : SyncTree V K T
  phase : HostPhase V
  begun : List (List (Stmt V K T) × Message V)

/-- The thread writes to the value of a signal. -/
def SyncTree.Action.writes {T : Type} : SyncTree.Action T → Bool
  | .touch _ _ a => a.isWrite
  | _ => false

namespace SyncHost

inductive Action (V K T : Type) where
  | next (interceptors : List (List (Access V K T))) (message : Message V)
  | turn (a : SyncTree.Action T)
  | accumulate
  | flush

def Action.writes {V K T : Type} : Action V K T → Bool
  | .turn a => a.writes
  | _ => false

variable {V K T : Type}

def new (heap : Heap K T) (held asking : List (Nat × Guard)) : SyncHost V K T where
  tree := ⟨⟨heap, fun _ => 0, [], false⟩, false, held, asking⟩
  phase := .idle
  begun := []

def setHost (s : SyncHost V K T) (host : Borrowing K V T) : SyncHost V K T :=
  { s with tree := { s.tree with host := host, hostWaits := false } }

/-- The thread asks for a list of subscribers that the host has locked. -/
def shutOut (s : SyncHost V K T) : SyncTree.Action T → Bool
  | .granted k => (s.tree.asking.find? fun q => q.1 == k).any fun q =>
    s.phase.locked.any fun σ => q.2.1 == .subscribers σ
  | _ => false

/-- The next step of `while let Some(signal) = self.signals.pop_front()` with its `__flush`. -/
def flush (impl : Impl) (full : List SignalStatus → Bool) (s : SyncHost V K T) :
    Option (SyncHost V K T) :=
  match s.phase with
  | .flushing [] => some { s with phase := .idle }
  | .flushing (σ :: signals) =>
    if s.tree.host.heap.dirty σ then
      some { s.setHost (s.tree.host.touch full σ (.setDirty false)) with
        phase := .swapped σ signals }
    else some { s with phase := .flushing signals }
  | .swapped σ signals =>
    if s.tree.admits impl (.subscribers σ, .exclusive) then
      some { s with phase := .sending σ (s.tree.host.heap.subscribers σ) signals }
    else none
  | .sending σ (i :: rest) signals =>
    some { s.setHost (s.tree.host.touch full σ (.send .changed i)) with
      phase := .sending σ rest signals }
  | .sending σ [] signals =>
    some { s.setHost (s.tree.host.touch full σ .retain) with phase := .flushing signals }
  | _ => none

/-- `handle_message` for message after message, and the other threads' turns. -/
def step (impl : Impl) (P : BorrowingProgram V K T) (root : Nat) (s : SyncHost V K T) :
    Action V K T → Option (SyncHost V K T)
  | .next interceptors message =>
    match s.phase with
    | .idle => some { s.setHost ((⟨root, [], s.tree.host.heap⟩ : TreeHost K T).handling
        s.tree.host.flags interceptors message) with
      phase := .handling message
      begun := s.begun ++ [(interceptors.flatMap Access.erase, message)] }
    | _ => none
  | .turn a =>
    if s.shutOut a then none else (s.tree.step impl P a).map fun tree => { s with tree := tree }
  | .accumulate =>
    match s.phase with
    | .handling _ =>
      if s.tree.host.calls.isEmpty && !s.tree.host.panicked then
        some { s with phase := .flushing (P.toProgram.accumulateSignals s.tree.host.heap root) }
      else none
    | _ => none
  | .flush => s.flush impl P.full

variable {impl : Impl} {P : BorrowingProgram V K T} {root : Nat} {s t : SyncHost V K T}
  {a : WholeHost V K T}

/-- What a step can do, with the conditions it passed. -/
inductive Move (impl : Impl) (P : BorrowingProgram V K T) (root : Nat) (s : SyncHost V K T) :
    Action V K T → SyncHost V K T → Prop where
  | next (interceptors : List (List (Access V K T))) (message : Message V) : s.phase = .idle →
      Move impl P root s (.next interceptors message) { s.setHost
          ((⟨root, [], s.tree.host.heap⟩ : TreeHost K T).handling s.tree.host.flags interceptors
            message) with
        phase := .handling message
        begun := s.begun ++ [(interceptors.flatMap Access.erase, message)] }
  | turn (x : SyncTree.Action T) (tree : SyncTree V K T) : s.tree.step impl P x = some tree →
      Move impl P root s (.turn x) { s with tree := tree }
  | accumulate (message : Message V) : s.phase = .handling message → s.tree.host.calls = [] →
      Move impl P root s .accumulate
        { s with phase := .flushing (P.toProgram.accumulateSignals s.tree.host.heap root) }
  | rests : s.phase = .flushing [] → Move impl P root s .flush { s with phase := .idle }
  | swaps (σ : Nat) (signals : List Nat) : s.phase = .flushing (σ :: signals) →
      Move impl P root s .flush { s.setHost (s.tree.host.touch P.full σ (.setDirty false)) with
        phase := .swapped σ signals }
  | passes (σ : Nat) (signals : List Nat) : s.phase = .flushing (σ :: signals) →
      Move impl P root s .flush { s with phase := .flushing signals }
  | locks (σ : Nat) (signals : List Nat) : s.phase = .swapped σ signals →
      Move impl P root s .flush
        { s with phase := .sending σ (s.tree.host.heap.subscribers σ) signals }
  | sends (σ i : Nat) (rest signals : List Nat) : s.phase = .sending σ (i :: rest) signals →
      Move impl P root s .flush { s.setHost (s.tree.host.touch P.full σ (.send .changed i)) with
        phase := .sending σ rest signals }
  | prunes (σ : Nat) (signals : List Nat) : s.phase = .sending σ [] signals →
      Move impl P root s .flush { s.setHost (s.tree.host.touch P.full σ .retain) with
        phase := .flushing signals }

theorem flush_move (hStep : s.flush impl P.full = some t) : Move impl P root s .flush t := by
  unfold flush at hStep
  split at hStep
  next hPhase =>
    cases hStep
    exact .rests hPhase
  next σ signals hPhase =>
    split at hStep
    next =>
      cases hStep
      exact .swaps σ signals hPhase
    next =>
      cases hStep
      exact .passes σ signals hPhase
  next σ signals hPhase =>
    simp only [Option.ite_none_right_eq_some, Option.some.injEq] at hStep
    obtain ⟨-, rfl⟩ := hStep
    exact .locks σ signals hPhase
  next σ i rest signals hPhase =>
    cases hStep
    exact .sends σ i rest signals hPhase
  next σ signals hPhase =>
    cases hStep
    exact .prunes σ signals hPhase
  next => cases hStep

theorem step_move {x : Action V K T} (hStep : s.step impl P root x = some t) :
    Move impl P root s x t := by
  cases x with
  | next interceptors message =>
    simp only [step] at hStep
    split at hStep
    next hPhase =>
      cases hStep
      exact .next interceptors message hPhase
    next => cases hStep
  | turn x =>
    simp only [step, Option.ite_none_left_eq_some] at hStep
    obtain ⟨tree, hTree, rfl⟩ := Option.map_eq_some_iff.mp hStep.2
    exact .turn x tree hTree
  | accumulate =>
    simp only [step] at hStep
    split at hStep
    next message hPhase =>
      simp only [Option.ite_none_right_eq_some, Option.some.injEq] at hStep
      obtain ⟨hOver, rfl⟩ := hStep
      exact .accumulate message hPhase (by simp_all)
    next => cases hStep
  | flush => exact flush_move hStep

/-- The host that makes each update at once is where this one is. -/
inductive Matches (P : BorrowingProgram V K T) (root : Nat) (s : SyncHost V K T) :
    WholeHost V K T → Prop where
  | idle (heap : Heap K T) : s.phase = .idle → s.tree.host.heap.Alike heap →
      Matches P root s ⟨heap, .idle, s.begun⟩
  | handling (message : Message V) (a : WholeHost V K T) : s.phase = .handling message →
      Follows P root message s.begun s.tree.host a → Matches P root s a
  | flushing (heap : Heap K T) (signals : List Nat) : s.phase.left = some signals →
      s.tree.host.heap.Alike heap → Matches P root s ⟨heap, .flushing signals, s.begun⟩

/-- A turn leaves the host as it is, moves it, or is a step of another thread on a signal. -/
theorem turn_host {tree tree' : SyncTree V K T} {x : SyncTree.Action T}
    (hStep : tree.step impl P x = some tree') : tree'.host = tree.host ∨
      Borrowing.step P tree.host () = some tree'.host ∨
      ∃ k σ a, x = .touch k σ a ∧ tree'.host = tree.host.touch P.full σ a := by
  cases SyncTree.step_move hStep with
  | host host _ hHost => exact .inr (.inl hHost)
  | touch k σ a => exact .inr (.inr ⟨k, σ, a, rfl, rfl⟩)
  | _ => exact .inl rfl

/-- The code, the models and the values of a host without a call stay as they are. -/
theorem turn_done {tree tree' : SyncTree V K T} {x : SyncTree.Action T}
    (hStep : tree.step impl P x = some tree') (hCalls : tree.host.calls = []) :
    tree'.host.calls = [] ∧ (x.writes = false →
      ∀ heap, tree.host.heap.Alike heap → tree'.host.heap.Alike heap) := by
  rcases turn_host hStep with hSame | hHost | ⟨k, σ, a, rfl, hTouch⟩
  · rw [hSame]
    exact ⟨hCalls, fun _ _ hAlike => hAlike⟩
  · rw [Borrowing.step_done hCalls] at hHost
    cases hHost
  · rw [hTouch]
    exact ⟨hCalls, fun hReads _ hAlike => hAlike.touch hReads⟩

/-- A new message begins without guards. -/
theorem kept_handling {tree : SyncTree V K T} (hKept : tree.Kept) (hCalls : tree.host.calls = [])
    {host : TreeHost K T} {interceptors : List (List (Access V K T))} {message : Message V} :
    SyncTree.Kept { tree with
      host := host.handling tree.host.flags interceptors message
      hostWaits := false } where
  panicked := rfl
  counted := TreeHost.handling_counted fun cell => by
    have hCounts := hKept.counted cell
    simpa [Borrowing.guards, hCalls, guardsOn] using hCounts
  apart q _ b hMem := by
    rw [TreeHost.handling_guards] at hMem
    cases hMem

theorem kept_touch (hKept : s.tree.Kept) {full : List SignalStatus → Bool} {σ : Nat}
    {x : SignalAtom T} : (s.setHost (s.tree.host.touch full σ x)).tree.Kept :=
  ⟨hKept.panicked, hKept.counted.same rfl rfl, hKept.apart⟩

/-- Nobody has a guard that is in the way of one of the host's, and but in a message the host is in
no call. -/
structure Sound (s : SyncHost V K T) : Prop where
  kept : s.tree.Kept
  rests : (∀ message, s.phase ≠ .handling message) → s.tree.host.calls = []

theorem Sound.move (hLawful : impl.Lawful) (h : s.Sound) {x : Action V K T}
    (hMove : Move impl P root s x t) : t.Sound := by
  cases hMove with
  | next interceptors message hPhase =>
    exact ⟨kept_handling h.kept (h.rests (by simp [hPhase])), fun hNot => (hNot message rfl).elim⟩
  | turn x tree hTree =>
    exact ⟨h.kept.move hLawful (SyncTree.step_move hTree), fun hPhase =>
      (turn_done hTree (h.rests hPhase)).1⟩
  | accumulate message hPhase hCalls => exact ⟨h.kept, fun _ => hCalls⟩
  | rests hPhase | passes σ signals hPhase | locks σ signals hPhase =>
    exact ⟨h.kept, fun _ => h.rests (by simp [hPhase])⟩
  | swaps σ signals hPhase | sends σ i rest signals hPhase | prunes σ signals hPhase =>
    exact ⟨kept_touch h.kept, fun _ => h.rests (by simp [hPhase])⟩

theorem turn_matches (hP : P.ValuesOnly) (hLawful : impl.Lawful) (hSound : s.Sound)
    (hMatches : Matches P root s a) {x : SyncTree.Action T} (hReads : x.writes = false)
    {tree : SyncTree V K T} (hStep : s.tree.step impl P x = some tree) :
    ∃ b, ReflTransGen (WholeHost.Step P.toProgram root) a b ∧
      Matches P root { s with tree := tree } b := by
  cases hMatches with
  | idle heap hPhase hAlike =>
    obtain ⟨-, hKeep⟩ := turn_done hStep (hSound.rests (by simp [hPhase]))
    exact ⟨_, .refl, .idle heap hPhase (hKeep hReads _ hAlike)⟩
  | handling message a hPhase hFollows =>
    rcases turn_host hStep with hSame | hHost | ⟨k, σ, y, rfl, hTouch⟩
    · exact ⟨a, .refl, .handling message a hPhase (hSame ▸ hFollows)⟩
    · have hFine := (hSound.kept.move hLawful (SyncTree.step_move hStep)).panicked
      obtain ⟨b, hSteps, hNext⟩ := hFollows.step hP hHost hFine
      exact ⟨b, ReflTransGen.mono .handles _ _ hSteps, .handling message b hPhase hNext⟩
    · exact ⟨a, .refl, .handling message a hPhase (hTouch ▸ hFollows.touch hReads)⟩
  | flushing heap signals hLeft hAlike =>
    have hPhase (message : Message V) : s.phase ≠ .handling message := fun hNot => by
      simp [hNot, HostPhase.left] at hLeft
    obtain ⟨-, hKeep⟩ := turn_done hStep (hSound.rests hPhase)
    exact ⟨_, .refl, .flushing heap signals hLeft (hKeep hReads _ hAlike)⟩

theorem Matches.flushing_eq (h : Matches P root s a) {signals : List Nat}
    (hLeft : s.phase.left = some signals) :
    ∃ heap, a = ⟨heap, .flushing signals, s.begun⟩ ∧ s.tree.host.heap.Alike heap := by
  cases h with
  | idle heap hPhase => simp [hPhase, HostPhase.left] at hLeft
  | handling _ _ hPhase => simp [hPhase, HostPhase.left] at hLeft
  | flushing heap _ hSame hAlike =>
    cases hLeft.symm.trans hSame
    exact ⟨heap, rfl, hAlike⟩

/-- A step is matched by steps of the host that makes each update at once. The flush of a signal
counts as made when `dirty` is swapped. -/
theorem move_matches (hP : P.ValuesOnly) (hLawful : impl.Lawful) (hSound : s.Sound)
    (hMatches : Matches P root s a) {x : Action V K T} (hReads : x.writes = false)
    (hMove : Move impl P root s x t) :
    ∃ b, ReflTransGen (WholeHost.Step P.toProgram root) a b ∧ Matches P root t b := by
  have hFlushing {signals : List Nat} (hLeft : s.phase.left = some signals) :=
    hMatches.flushing_eq hLeft
  cases hMove with
  | turn x tree hTree => exact turn_matches hP hLawful hSound hMatches hReads hTree
  | next interceptors message hPhase =>
    cases hMatches with
    | idle heap _ hAlike =>
      exact ⟨_, .single (.next _ _ _ _),
        .handling message _ rfl (handling_follows (s := ⟨root, [], s.tree.host.heap⟩) hAlike)⟩
    | handling _ _ hOther => cases hPhase.symm.trans hOther
    | flushing _ _ hLeft => simp [hPhase, HostPhase.left] at hLeft
  | accumulate message hPhase hCalls =>
    cases hMatches with
    | idle _ hOther => cases hPhase.symm.trans hOther
    | flushing _ _ hLeft => simp [hPhase, HostPhase.left] at hLeft
    | handling _ _ hSame hFollows =>
      cases hPhase.symm.trans hSame
      cases hFollows with
      | intercepting calls _ hRest => simp [hCalls] at hRest
      | updating calls _ _ _ hRest => simp [hCalls] at hRest
      | updated heap _ hAlike =>
        have hSignals : P.toProgram.accumulateSignals s.tree.host.heap root =
            P.toProgram.accumulateSignals heap root := by
          simp only [Program.accumulateSignals, hAlike.models]
        exact ⟨_, .single (.accumulates _ _), .flushing heap _ (congrArg some hSignals) hAlike⟩
  | rests hPhase =>
    obtain ⟨heap, rfl, hAlike⟩ := hFlushing (congrArg HostPhase.left hPhase)
    exact ⟨_, .single (.rests _ _), .idle heap rfl hAlike⟩
  | swaps σ signals hPhase =>
    obtain ⟨heap, rfl, hAlike⟩ := hFlushing (congrArg HostPhase.left hPhase)
    exact ⟨_, .single (.flushes _ _ _ _),
      .flushing _ signals rfl (hAlike.touch rfl).flush_right⟩
  | passes σ signals hPhase =>
    obtain ⟨heap, rfl, hAlike⟩ := hFlushing (congrArg HostPhase.left hPhase)
    exact ⟨_, .single (.flushes _ _ _ _), .flushing _ signals rfl hAlike.flush_right⟩
  | locks σ signals hPhase =>
    obtain ⟨heap, rfl, hAlike⟩ := hFlushing (congrArg HostPhase.left hPhase)
    exact ⟨_, .refl, .flushing heap signals rfl hAlike⟩
  | sends σ i rest signals hPhase | prunes σ signals hPhase =>
    obtain ⟨heap, rfl, hAlike⟩ := hFlushing (congrArg HostPhase.left hPhase)
    exact ⟨_, .refl, .flushing heap signals rfl (hAlike.touch rfl)⟩

/-- What can be seen of a host that makes each update at once: whoever reads the root model sees
its models and the values of its signals. -/
structure Shows (root : Nat) (s : SyncHost V K T) (a : WholeHost V K T) : Prop where
  begun : a.begun = s.begun
  idle : s.phase = .idle → a.stage = .idle
  heap : ∀ k b, (k, .model root, b) ∈ s.tree.held → s.tree.host.heap.Alike a.heap

theorem Matches.begun_eq (h : Matches P root s a) : a.begun = s.begun := by
  cases h with
  | handling message a _ hFollows => exact hFollows.begun_eq
  | _ => rfl

theorem Matches.alike (h : Matches P root s a)
    (hFree : (.model root, Borrow.exclusive) ∉ s.tree.host.guards) :
    s.tree.host.heap.Alike a.heap := by
  cases h with
  | handling message a _ hFollows => exact hFollows.alike hFree
  | idle _ _ hAlike => exact hAlike
  | flushing _ _ _ hAlike => exact hAlike

theorem Matches.shows (h : Matches P root s a) (hKept : s.tree.Kept) : Shows root s a where
  begun := h.begun_eq
  idle hIdle := by
    cases h with
    | idle => rfl
    | handling _ _ hPhase => cases hIdle.symm.trans hPhase
    | flushing _ _ hLeft => simp [hIdle, HostPhase.left] at hLeft
  heap k b hReads := h.alike fun hUpdating => by
    have hFree := hKept.apart _ hReads _ hUpdating
    rw [Locks.conflicts_exclusive] at hFree
    cases hFree

theorem Sound.new (heap : Heap K T) (held asking : List (Nat × Guard)) :
    (new heap held asking : SyncHost V K T).Sound where
  kept := ⟨rfl, fun _ => .nil, fun _ _ _ hMem => (List.not_mem_nil hMem).elim⟩
  rests _ := rfl

/-- However the host and the other threads take turns, as long as only the host writes to models and
to values of signals, there is one history of a host that makes each update at once in which all
that is seen of them under guards of the root model is seen, look after look. -/
theorem refines_whole (hP : P.ValuesOnly) (hLawful : impl.Lawful) (heap : Heap K T)
    (held asking : List (Nat × Guard)) (as : List (Action V K T))
    (hReads : ∀ a ∈ as, a.writes = false) : ∃ history : Nat → WholeHost V K T,
      history 0 = ⟨heap, .idle, []⟩ ∧
      (∀ n, ReflTransGen (WholeHost.Step P.toProgram root) (history n) (history (n + 1))) ∧
      ∀ n s, run (step impl P root) (new heap held asking) (as.take n) = some s →
        Shows root s (history n) := by
  have hPairs : ∀ s x t a, x.writes = false → (s.Sound ∧ Matches P root s a) →
      s.step impl P root x = some t → ∃ b,
        ReflTransGen (WholeHost.Step P.toProgram root) a b ∧ t.Sound ∧ Matches P root t b := by
    rintro s x t a hReads ⟨hSound, hMatches⟩ hStep
    have hMove := step_move hStep
    obtain ⟨b, hSteps, hNext⟩ := move_matches hP hLawful hSound hMatches hReads hMove
    exact ⟨b, hSteps, hSound.move hLawful hMove, hNext⟩
  obtain ⟨history, hStart, hNext, hAll⟩ := run_follows
    (R := fun (s : SyncHost V K T) a => s.Sound ∧ Matches P root s a) hPairs
    ⟨.new heap held asking, .idle heap rfl (.refl heap)⟩ as hReads
  refine ⟨history, hStart, hNext, fun n s hRun => ?_⟩
  obtain ⟨hSound, hMatches⟩ := hAll n s hRun
  exact hMatches.shows hSound.kept

end SyncHost

section House

/-- Whoever looks at the house subscribes to whether it is locked, takes what is queued and marks
the signal dirty. -/
def listening : List (SyncTree.Action Bool) :=
  [.ask 0 (.subscribers 0, .exclusive), .granted 0, .touch 0 0 .subscribe,
    .drop 0 (.subscribers 0, .exclusive), .touch 0 0 (.recv 1), .touch 0 0 (.setDirty true)]

/-- The host does the rest of the message, and then the next one waits for whoever looks at the
house. -/
def togglings : List (SyncHost.Action Unit HouseModels Bool) :=
  let rest : List (SyncTree.Action Bool) := [.hostAsks, .host, .host, .host]
  .next [] ⟨"Toggle", []⟩ :: (lookAfter ++ rest ++ listening).map .turn ++
    [.accumulate, .flush, .flush, .turn (.ask 1 (.subscribers 0, .exclusive)), .flush, .flush,
      .flush, .flush, .next [] ⟨"Toggle", []⟩, .turn .hostAsks]

theorem refines_whole_togglings :
    (run (SyncHost.step (writersFirst true) houseBorrowing 0) (.new houseHeap [] [])
      togglings).isSome ∧
    ∃ history : Nat → WholeHost Unit HouseModels Bool, history 0 = ⟨houseHeap, .idle, []⟩ ∧
      (∀ n, ReflTransGen (WholeHost.Step houseBorrowing.toProgram 0) (history n)
        (history (n + 1))) ∧
      ∀ n s, run (SyncHost.step (writersFirst true) houseBorrowing 0) (.new houseHeap [] [])
        (togglings.take n) = some s → SyncHost.Shows 0 s (history n) :=
  ⟨rfl, SyncHost.refines_whole houseBorrowing_onlyModels.valuesOnly (writersFirst_lawful true)
    houseHeap [] [] togglings (by decide)⟩

end House

end Emyu.ModelTree
