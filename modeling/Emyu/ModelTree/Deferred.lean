import Emyu.Lib.Run
import Emyu.ModelTree.Flush

/-! When the subscribers of a tree of models are told of a message: the flush phase is meant to do
it, after `Model::update` has returned, but a handle that the update drops sends at once. -/

namespace Emyu.ModelTree

open Macro Runs

variable {V K T : Type} {P : Program V K T} {h h' : Heap K T}

/-- An update under way: the heap, and what is left to run, nested updates first. -/
structure Running (V K T : Type) where
  heap : Heap K T
  rest : List (Stmt V K T)

/-- The next statement of an update. -/
def Program.step (P : Program V K T) (c : Running V K T) (_ : Unit) : Option (Running V K T) :=
  match c.rest with
  | [] => none
  | .send m message :: rest => (P.body c.heap m message).map fun body => ⟨c.heap, body ++ rest⟩
  | stmt :: rest => (c.heap.apply P.full stmt).map fun heap => ⟨heap, rest⟩

/-- What is queued for the subscriber `i` of a signal. -/
def Heap.queue (h : Heap K T) (σ i : Nat) : List SignalStatus :=
  (h.signals[σ]?.map fun r => (r.channel i).queue).getD []

/-- A subscriber is sent something. -/
def Heap.Enqueues (h h' : Heap K T) : Prop :=
  ∃ σ i, (h.queue σ i).length < (h'.queue σ i).length

/-- The statement drops a handle of a signal with a subscriber whose channel takes a status. -/
def Heap.heard (full : List SignalStatus → Bool) (h : Heap K T) : Stmt V K T → Bool
  | .use σ .drop => h.signals[σ]?.any fun r => !(r.accepting full).isEmpty
  | _ => false

theorem SignalUse.apply_queue_le (full : List SignalStatus → Bool) (r : SignalRepr T) (i : Nat)
    {u : SignalUse T} (hDrop : u ≠ .drop) :
    ((u.apply full r).channel i).queue.length ≤ (r.channel i).queue.length := by
  cases u with
  | write f => exact Nat.le_refl _
  | update f => exact Nat.le_refl _
  | subscribe =>
    by_cases hi : i = r.channels
    · simp [apply, SignalRepr.subscribe, hi]
    · simp [apply, SignalRepr.subscribe, hi]
  | recv j =>
    simp only [apply, SignalRepr.recv]
    cases hQueue : (r.channel j).queue with
    | nil => exact Nat.le_refl _
    | cons status rest =>
      by_cases hi : i = j
      · subst hi
        simp [hQueue]
      · simp [hi]
  | closeReceiver j =>
    by_cases hi : i = j
    · simp [apply, SignalRepr.closeReceiver, hi]
    · simp [apply, SignalRepr.closeReceiver, hi]
  | drop => exact (hDrop rfl).elim

theorem Heap.queue_set {σ τ : Nat} {r r' : SignalRepr T} (hr : h.signals[τ]? = some r) (i : Nat) :
    ({ h with signals := h.signals.set τ r' } : Heap K T).queue σ i =
      if τ = σ then (r'.channel i).queue else h.queue σ i := by
  have hτ := (List.getElem?_eq_some_iff.mp hr).1
  by_cases hσ : τ = σ
  · subst hσ
    simp [Heap.queue, hτ]
  · simp [Heap.queue, List.getElem?_set_ne hσ, hσ]

theorem not_enqueues_of_le (hLe : ∀ σ i, (h'.queue σ i).length ≤ (h.queue σ i).length) :
    ¬h.Enqueues h' := by
  rintro ⟨σ, i, hLt⟩
  exact absurd hLt (Nat.not_lt_of_le (hLe σ i))

/-- A use of a signal that makes no queue of its own longer makes none longer. -/
theorem not_enqueues_of_use {τ : Nat} {r r' : SignalRepr T} (hr : h.signals[τ]? = some r)
    (hLe : ∀ i, (r'.channel i).queue.length ≤ (r.channel i).queue.length) :
    ¬h.Enqueues { h with signals := h.signals.set τ r' } := by
  refine not_enqueues_of_le fun σ i => ?_
  rw [Heap.queue_set hr]
  split
  next hσ =>
    subst hσ
    simpa [Heap.queue, hr] using hLe i
  next => exact Nat.le_refl _

/-- The `Drop` of a handle sends something exactly if a channel takes a status. -/
theorem drop_enqueues {full : List SignalStatus → Bool} {τ : Nat} {r : SignalRepr T}
    (hr : h.signals[τ]? = some r) :
    h.Enqueues { h with signals := h.signals.set τ (r.drop full) } ↔ r.accepting full ≠ [] := by
  constructor
  · intro hSends hNil
    refine not_enqueues_of_use hr (fun i => ?_) hSends
    rw [SignalRepr.drop_of_accepting_nil hNil]
  · intro hSome
    obtain ⟨i, hi⟩ := List.exists_mem_of_ne_nil _ hSome
    obtain ⟨hMem, hAccepts⟩ := List.mem_filter.mp hi
    have hOld : h.queue τ i = (r.channel i).queue := by simp [Heap.queue, hr]
    refine ⟨τ, i, ?_⟩
    rw [Heap.queue_set hr, if_pos rfl, hOld]
    exact sendAll_grows hMem hAccepts

/-- A statement sends something exactly if it drops a handle and somebody hears it. -/
theorem apply_enqueues {full : List SignalStatus → Bool} {stmt : Stmt V K T}
    (ha : h.apply full stmt = some h') : h.Enqueues h' ↔ h.heard full stmt = true := by
  cases Heap.apply_move ha with
  | newSignal value =>
    refine iff_of_false (not_enqueues_of_le fun σ i => ?_) (by simp [Heap.heard])
    by_cases hσ : σ < h.signals.length
    · simp [Heap.queue, List.getElem?_append_left hσ]
    · rw [Heap.queue, Heap.queue, List.getElem?_append_right (by omega)]
      cases σ - h.signals.length <;> simp [SignalRepr.new]
  | newModel model =>
    exact iff_of_false (not_enqueues_of_le fun _ _ => Nat.le_refl _) (by simp [Heap.heard])
  | assign m model =>
    exact iff_of_false (not_enqueues_of_le fun _ _ => Nat.le_refl _) (by simp [Heap.heard])
  | use τ u r hr =>
    by_cases hu : u = .drop
    · subst hu
      exact (drop_enqueues hr).trans (by simp [Heap.heard, hr])
    · have hQuiet : h.heard full (.use τ u : Stmt V K T) = false := by
        cases u <;> first | rfl | exact (hu rfl).elim
      have hLe (i : Nat) := SignalUse.apply_queue_le full r i hu
      exact iff_of_false (not_enqueues_of_use hr hLe) (by simp [hQuiet])

namespace Program

variable {c d : Running V K T} {as : List Unit} {stmts more : List (Stmt V K T)} {w : List Nat}

theorem step_act {stmt : Stmt V K T} (ha : h.apply P.full stmt = some h') :
    P.step ⟨h, stmt :: more⟩ () = some ⟨h', more⟩ := by
  cases stmt with
  | send m message => cases ha
  | _ => simp only [step, ha, Option.map_some]

theorem step_send {m : Nat} {message : Message V} {body : List (Stmt V K T)}
    (hb : P.body h m message = some body) :
    P.step ⟨h, .send m message :: more⟩ () = some ⟨h, body ++ more⟩ := by
  simp only [step, hb, Option.map_some]

/-- A step runs a statement, or begins the update of the model that a message is for. -/
theorem step_cases {u : Unit} (hStep : P.step c u = some d) :
    (∃ stmt rest, c.rest = stmt :: rest ∧ c.heap.apply P.full stmt = some d.heap ∧
      d.rest = rest) ∨
    ∃ m message body rest, c.rest = .send m message :: rest ∧
      P.body c.heap m message = some body ∧ d = ⟨c.heap, body ++ rest⟩ := by
  unfold step at hStep
  split at hStep
  next => cases hStep
  next m message rest hRest =>
    obtain ⟨body, hb, rfl⟩ := Option.map_eq_some_iff.mp hStep
    exact .inr ⟨m, message, body, rest, hRest, hb, rfl⟩
  next stmt rest _ hRest =>
    obtain ⟨heap, ha, rfl⟩ := Option.map_eq_some_iff.mp hStep
    exact .inl ⟨stmt, rest, hRest, ha, rfl⟩

/-- The steps run what `Exec` says, whatever comes after it. -/
theorem exec_run (he : P.Exec h stmts h' w) (more : List (Stmt V K T)) :
    ∃ as, run P.step ⟨h, stmts ++ more⟩ as = some ⟨h', more⟩ := by
  induction he generalizing more with
  | done h => exact ⟨[], rfl⟩
  | act ha _ ih =>
    obtain ⟨as, hRun⟩ := ih more
    exact ⟨() :: as, run_cons_eq_some.mpr ⟨_, step_act ha, hRun⟩⟩
  | @send h h₁ h₂ m message body rest _ _ hb _ _ ihBody ihRest =>
    obtain ⟨as, hRun⟩ := ihBody (rest ++ more)
    obtain ⟨bs, hRun'⟩ := ihRest more
    refine ⟨() :: (as ++ bs), run_cons_eq_some.mpr ⟨_, step_send hb, ?_⟩⟩
    exact run_trans hRun hRun'

theorem Exec.split (he : P.Exec h (stmts ++ more) h' w) :
    ∃ h₁ w₁ w₂, P.Exec h stmts h₁ w₁ ∧ P.Exec h₁ more h' w₂ := by
  induction stmts generalizing h w with
  | nil => exact ⟨h, [], w, .done h, he⟩
  | cons stmt rest ih =>
    cases he with
    | act ha he' =>
      obtain ⟨h₁, w₁, w₂, hFirst, hSecond⟩ := ih he'
      exact ⟨h₁, _, w₂, .act ha hFirst, hSecond⟩
    | send hb hBody he' =>
      obtain ⟨h₁, w₁, w₂, hFirst, hSecond⟩ := ih he'
      exact ⟨h₁, _, w₂, .send hb hBody hFirst, hSecond⟩

/-- What the steps run to its end is an execution. -/
theorem run_exec (hRun : run P.step ⟨h, stmts⟩ as = some ⟨h', []⟩) :
    ∃ w, P.Exec h stmts h' w := by
  induction as generalizing h stmts with
  | nil => cases hRun; exact ⟨[], .done _⟩
  | cons a as ih =>
    obtain ⟨⟨h₁, left⟩, hStep, hRest⟩ := run_cons_eq_some.mp hRun
    obtain ⟨w, he⟩ := ih hRest
    rcases step_cases hStep with ⟨stmt, rest, rfl, ha, rfl⟩ | ⟨m, message, body, rest, rfl, hb, hd⟩
    · exact ⟨_, .act ha he⟩
    · cases hd
      obtain ⟨h₂, w₁, w₂, hBody, hAfter⟩ := he.split
      exact ⟨_, .send hb hBody hAfter⟩

/-- The next statement drops no handle that somebody hears. -/
def Unheard (P : Program V K T) (c : Running V K T) (_ : Unit) : Prop :=
  ∀ stmt ∈ c.rest.head?, c.heap.heard P.full stmt = false

instance (c : Running V K T) (u : Unit) : Decidable (P.Unheard c u) :=
  inferInstanceAs (Decidable (∀ stmt ∈ c.rest.head?, c.heap.heard P.full stmt = false))

def Quiet (P : Program V K T) (c : Running V K T) (u : Unit) : Prop :=
  ∀ d ∈ P.step c u, ¬c.heap.Enqueues d.heap

/-- From its start to its return the update sends nothing, so a subscriber whose channel was empty
sleeps until then. -/
structure Deferred (P : Program V K T) (c : Running V K T) (as : List Unit) : Prop where
  quiet : Every P.step P.Quiet c as
  asleep : ∀ bs d, bs <+: as → run P.step c bs = some d →
    ∀ σ i, c.heap.queue σ i = [] → d.heap.queue σ i = []

theorem quiet_iff_unheard {u : Unit} (hStep : P.step c u = some d) :
    P.Quiet c u ↔ P.Unheard c u := by
  have hQuiet : P.Quiet c u ↔ ¬c.heap.Enqueues d.heap := by simp [Quiet, hStep]
  rw [hQuiet]
  rcases step_cases hStep with ⟨stmt, rest, hRest, ha, -⟩ | ⟨m, message, body, rest, hRest, -, rfl⟩
  · simp [apply_enqueues ha, Unheard, hRest]
  · refine iff_of_true ?_ (by simp [Unheard, hRest, Heap.heard])
    rintro ⟨σ, i, hLt⟩
    exact absurd hLt (Nat.lt_irrefl _)

/-- Steps that send nothing leave an empty channel empty. -/
theorem asleep_of_quiet {bs : List Unit} (hQuiet : Every P.step P.Quiet c as) (hPrefix : bs <+: as)
    (hRun : run P.step c bs = some d) {σ i : Nat} (hEmpty : c.heap.queue σ i = []) :
    d.heap.queue σ i = [] := by
  induction bs generalizing c as with
  | nil => cases hRun; exact hEmpty
  | cons a bs ih =>
    obtain ⟨as', rfl, hPrefix'⟩ := List.cons_prefix_iff.mp hPrefix
    obtain ⟨m, hStep, hRest⟩ := run_cons_eq_some.mp hRun
    obtain ⟨hFirst, hLater⟩ := hQuiet
    refine ih (hLater m hStep) hPrefix' hRest ?_
    by_contra hSome
    refine hFirst m hStep ⟨σ, i, ?_⟩
    rw [hEmpty]
    exact List.length_pos_iff.mpr hSome

/-- An update defers its notifications exactly if it drops no handle that somebody hears. -/
theorem deferred_iff_every (hRun : run P.step c as = some d) :
    P.Deferred c as ↔ Every P.step P.Unheard c as := by
  have hEvery : Every P.step P.Quiet c as ↔ Every P.step P.Unheard c as :=
    every_congr (fun _ => True) (fun _ _ _ _ _ => trivial)
      (fun _ _ _ _ hStep => quiet_iff_unheard hStep) trivial hRun
  rw [← hEvery]
  exact ⟨Deferred.quiet, fun hQuiet =>
    ⟨hQuiet, fun _ _ hPrefix hRun' _ _ hEmpty => asleep_of_quiet hQuiet hPrefix hRun' hEmpty⟩⟩

/-- `writer().update(f)` on signals in turn: the temporary writers are dropped at once. -/
def writerUpdates : List (Nat × (T → T)) → List (Stmt V K T)
  | [] => []
  | (σ, f) :: writes => .use σ (.update f) :: .use σ .drop :: writerUpdates writes

/-- Signals without a listening subscriber stay so under a writer's update and drop. -/
theorem set_silent {σ τ : Nat} {f : T → T} {r : SignalRepr T} (hr : h.signals[σ]? = some r)
    (hNone : r.accepting P.full = []) :
    (∀ r' ∈ (h.signals.set σ ((r.update f).drop P.full))[τ]?, r'.accepting P.full = []) ↔
      ∀ r' ∈ h.signals[τ]?, r'.accepting P.full = [] := by
  have hσ := (List.getElem?_eq_some_iff.mp hr).1
  have hUpdate : (r.update f).accepting P.full = [] := hNone
  by_cases hτ : σ = τ
  · subst hτ
    rw [List.getElem?_set_self hσ, hr, SignalRepr.drop_of_accepting_nil hUpdate]
    simp [hUpdate, hNone]
  · rw [List.getElem?_set_ne hτ]

theorem run_use {σ : Nat} {u : SignalUse T}
    (hRun : run P.step ⟨h, .use σ u :: more⟩ as = some ⟨h', []⟩) :
    ∃ r bs, as = () :: bs ∧ h.signals[σ]? = some r ∧
      run P.step ⟨{ h with signals := h.signals.set σ (u.apply P.full r) }, more⟩ bs =
        some ⟨h', []⟩ := by
  cases as with
  | nil => cases hRun
  | cons a bs =>
    obtain ⟨m, hStep, hRest⟩ := run_cons_eq_some.mp hRun
    obtain ⟨h₁, hSet, rfl⟩ := Option.map_eq_some_iff.mp hStep
    obtain ⟨r, hr, rfl⟩ := Option.map_eq_some_iff.mp hSet
    exact ⟨r, bs, rfl, hr, hRest⟩

theorem every_use {σ : Nat} {u : SignalUse T} {r : SignalRepr T} (hr : h.signals[σ]? = some r) :
    Every P.step P.Unheard ⟨h, .use σ u :: more⟩ (() :: as) ↔
      h.heard P.full (.use σ u : Stmt V K T) = false ∧ Every P.step P.Unheard
        ⟨{ h with signals := h.signals.set σ (u.apply P.full r) }, more⟩ as := by
  have ha : h.apply P.full (.use σ u : Stmt V K T) =
      some { h with signals := h.signals.set σ (u.apply P.full r) } := by
    simp [Heap.apply, hr]
  simp [Every, Unheard, step_act ha]

/-- An updater that only writes through temporary writers defers its notifications exactly if
nobody listens to the signals it writes. -/
theorem unheard_writes_iff {writes : List (Nat × (T → T))}
    (hRun : run P.step ⟨h, writerUpdates writes⟩ as = some ⟨h', []⟩) :
    Every P.step P.Unheard ⟨h, writerUpdates writes⟩ as ↔
      ∀ p ∈ writes, ∀ r ∈ h.signals[p.1]?, r.accepting P.full = [] := by
  induction writes generalizing h as with
  | nil =>
    cases as with
    | nil => simp [Every]
    | cons a as =>
      obtain ⟨m, hStep, -⟩ := run_cons_eq_some.mp hRun
      cases hStep
  | cons p writes ih =>
    obtain ⟨σ, f⟩ := p
    obtain ⟨r, as, rfl, hr, hAfter⟩ := run_use hRun
    obtain ⟨r', as, rfl, hr', hRest⟩ := run_use hAfter
    have hσ := (List.getElem?_eq_some_iff.mp hr).1
    obtain rfl : r.update f = r' := by
      simpa [SignalUse.apply, hσ] using hr'
    have hDrop : ∀ h₁ : Heap K T, h₁.signals[σ]? = some (r.update f) →
        (h₁.heard P.full (.use σ .drop : Stmt V K T) = false ↔ r.accepting P.full = []) := by
      intro h₁ h
      simp [Heap.heard, h, SignalRepr.accepting, SignalRepr.update, SignalRepr.write]
    rw [writerUpdates, every_use hr, every_use hr', ih hRest, hDrop _ hr']
    simp only [List.set_set, List.forall_mem_cons, hr, Option.mem_def, Option.some.injEq,
      forall_eq']
    refine ⟨fun h => ⟨h.2.1, ?_⟩, fun h => ⟨by simp [Heap.heard], h.1, ?_⟩⟩
    · exact fun p hp => (set_silent hr h.2.1).mp (h.2.2 p hp)
    · exact fun p hp => (set_silent hr h.1).mpr (h.2 p hp)

end Program

namespace TreeHost

variable {s : TreeHost K T} {message : Message V} {seen updated : Heap K T} {w : List Nat}
  {interceptors : List (Stmt V K T)} {as : List Unit}

/-- For every message in every reachable state of the host: the update sends nothing before it
returns, and leaves every notification to the flush, exactly if it drops no handle of a signal
while a subscriber's channel takes a status. -/
theorem deferred_iff (hr : Reachable P s) (hSeen : P.Exec s.heap interceptors seen w)
    (hUpdate : run P.step ⟨seen, [.send s.root message]⟩ as = some ⟨updated, []⟩) :
    (∃ s' written, Handles P s message s' updated written ∧ Reachable P s') ∧
    (P.Deferred ⟨seen, [.send s.root message]⟩ as ↔
      Every P.step P.Unheard ⟨seen, [.send s.root message]⟩ as) := by
  obtain ⟨w', he⟩ := Program.run_exec hUpdate
  have hHandles := Handles.intro hSeen he
  exact ⟨⟨_, _, hHandles, .handled hr hHandles⟩, Program.deferred_iff_every hUpdate⟩

/-- An updater whose body only writes through `writer()`: nothing but the state that the message
finds matters. -/
theorem deferred_writes_iff {writes : List (Nat × (T → T))}
    (hBody : P.body seen s.root message = some (Program.writerUpdates writes))
    (hUpdate : run P.step ⟨seen, [.send s.root message]⟩ as = some ⟨updated, []⟩) :
    P.Deferred ⟨seen, [.send s.root message]⟩ as ↔
      ∀ p ∈ writes, ∀ r ∈ seen.signals[p.1]?, r.accepting P.full = [] := by
  rw [Program.deferred_iff_every hUpdate]
  cases as with
  | nil => cases hUpdate
  | cons a as =>
    obtain ⟨m, hStep, hRest⟩ := run_cons_eq_some.mp hUpdate
    have hBegin : P.step ⟨seen, [.send s.root message]⟩ () =
        some ⟨seen, Program.writerUpdates writes ++ []⟩ := Program.step_send hBody
    obtain rfl := Option.some.inj (hBegin.symm.trans hStep)
    rw [List.append_nil] at hBegin hRest
    rw [← Program.unheard_writes_iff hRest]
    simp [Every, hBegin, Program.Unheard, Heap.heard]

end TreeHost

section House

/-- The house with an updater that writes `locked` through a writer which it keeps. -/
def keepingProgram : Program Unit HouseModels Bool :=
  { houseProgram with block := fun _ _ _ _ _ => [.use 0 (.update not)] }

/-- The subscriber of `locked` sleeps until the flush. -/
theorem deferred_iff_kept : ∃ updated,
    run keepingProgram.step ⟨houseHeap, [.send 0 ⟨"Lock", []⟩]⟩ [(), ()] = some ⟨updated, []⟩ ∧
    keepingProgram.Deferred ⟨houseHeap, [.send 0 ⟨"Lock", []⟩]⟩ [(), ()] ∧
    (houseHeap.signals[0]?.map fun r => (r.subscribers, r.channel 0)) = some ([0], ⟨[], true⟩) ∧
    updated.queue 0 0 = [] ∧ (updated.flush houseFull 0).queue 0 0 = [.changed] := by
  have hRun : run keepingProgram.step ⟨houseHeap, [.send 0 ⟨"Lock", []⟩]⟩ [(), ()] =
    some ⟨_, []⟩ := rfl
  have h := TreeHost.deferred_iff (P := keepingProgram) (s := houseHost) (.new 0 houseHeap)
    (.done houseHeap) hRun
  exact ⟨_, hRun, h.2.mpr (by decide), rfl, rfl, rfl⟩

/-- The updater of the house sets `locked` through a temporary writer, and the subscriber of
`locked` is sent `Destroyed` while `Model::update` runs. -/
theorem writer_notifies_at_once : TreeHost.Reachable houseProgram houseHost ∧
    run houseProgram.step ⟨houseHeap, [.send 0 ⟨"Lock", []⟩]⟩ [(), (), ()] =
      some ⟨lockedHeap, []⟩ ∧
    houseHeap.queue 0 0 = [] ∧ lockedHeap.queue 0 0 = [.destroyed] ∧
    ¬houseProgram.Deferred ⟨houseHeap, [.send 0 ⟨"Lock", []⟩]⟩ [(), (), ()] := by
  refine ⟨.new 0 houseHeap, rfl, rfl, rfl, fun h => ?_⟩
  have hAsleep := h.asleep [(), (), ()] ⟨lockedHeap, []⟩ (List.prefix_refl _) rfl 0 0 rfl
  cases hAsleep

end House

end Emyu.ModelTree
