import Emyu.Lib.RwLock
import Emyu.ModelTree.Others

/-! The models and the signals of a tree behind the locks of the thread-safe build: a host that
handles a message while other threads get guards of models and signals, use the signals and wait,
when nobody waits for ever and when somebody does. No code of these threads panics by itself, so no
lock is ever poisoned. -/

namespace Emyu.ModelTree

open Macro Named Relation Runs RefCell RwLock

/-- The lists of subscribers are behind mutexes, all else is behind `RwLock`s. -/
def Cell.lock (impl : Impl) : Cell → Impl
  | .subscribers _ => mutex impl.poisons
  | _ => impl

theorem Cell.lock_lawful {impl : Impl} (hLawful : impl.Lawful) (cell : Cell) :
    (cell.lock impl).Lawful := by
  cases cell with
  | subscribers σ => exact mutex_lawful _
  | _ => exact hLawful

/-- What the code borrows next. -/
def Borrowing.next? {V K T : Type} (s : Borrowing K V T) : Option Guard :=
  s.calls.head?.bind fun c => c.rest.head?.bind fun a => a.asks c.guards

namespace Borrowing

variable {V K T : Type} {P : BorrowingProgram V K T} {s t : Borrowing K V T} {u : Unit}

theorem mem_guardsOn {cell : Cell} {b : Borrow} {guards : List Guard} :
    b ∈ guardsOn cell guards ↔ (cell, b) ∈ guards := by
  constructor
  · intro hMem
    obtain ⟨g, hg, hOn⟩ := List.mem_filterMap.mp hMem
    obtain ⟨rfl, hBorrow⟩ := Option.ite_none_right_eq_some.mp hOn
    cases hBorrow
    exact hg
  · exact fun hMem => List.mem_filterMap.mpr ⟨_, hMem, if_pos rfl⟩

/-- Calls that go down the tree borrow below all of their guards. -/
theorem Layered.next_below {depth : Cell → Nat} (h : Layered depth s.calls) {g : Guard}
    (hNext : s.next? = some g) : Below depth s.guards g.1 := by
  obtain ⟨c, hHead, hRest⟩ := Option.bind_eq_some_iff.mp hNext
  obtain ⟨a, hFirst, hAsks⟩ := Option.bind_eq_some_iff.mp hRest
  obtain ⟨calls, hCalls⟩ := List.head?_eq_some_iff.mp hHead
  obtain ⟨rest, hRest⟩ := List.head?_eq_some_iff.mp hFirst
  rw [hCalls] at h
  rw [guards_cons hCalls]
  exact h.below hRest hAsks

/-- A step takes the guard that the code borrows next, or none. -/
theorem step_guards (hStep : step P s u = some t) {g : Guard} (hMem : g ∈ t.guards) :
    g ∈ s.guards ∨ s.next? = some g := by
  cases step_move hStep with
  | returned c calls hCalls hRest =>
    refine .inl ?_
    rw [guards_cons hCalls]
    exact List.mem_append_right _ hMem
  | panicked => cases hMem
  | borrowed c calls b cell rest flag hCalls hRest hFlag =>
    rw [guards_cons hCalls]
    rcases List.mem_cons.mp hMem with rfl | hOld
    · exact .inr (by simp [next?, hCalls, hRest, Access.asks])
    · exact .inl hOld
  | dropped c calls i rest hCalls hRest =>
    refine .inl ?_
    rw [guards_cons hCalls]
    have hSub : (c.kept.eraseIdx i).Sublist c.kept := List.eraseIdx_sublist ..
    exact ((hSub.append_right _).append_right _).subset hMem
  | sent c calls m message rest body flag hCalls hRest hBody hFlag =>
    rw [guards_cons hCalls]
    rcases List.mem_cons.mp hMem with rfl | hOld
    · exact .inr (by simp [next?, hCalls, hRest, Access.asks])
    · exact .inl hOld
  | acted c calls a stmt rest heap hCalls hRest =>
    refine .inl ?_
    rw [guards_cons hCalls]
    exact hMem

/-- Another thread has done something to a signal. -/
def touch (full : List SignalStatus → Bool) (s : Borrowing K V T) (σ : Nat) (a : SignalAtom T) :
    Borrowing K V T :=
  { s with heap := s.heap.touch full σ a }

end Borrowing

/-- The host with the calls it is in, and the other threads' guards and what they wait for, each
with the number of its thread. -/
structure SyncTree (V K T : Type) where
  host : Borrowing K V T
  hostWaits : Bool
  held : List (Nat × Guard)
  asking : List (Nat × Guard)

namespace SyncTree

/-- `touch` is a step of another thread on a signal, under the guard that the step needs. -/
inductive Action (T : Type) where
  | hostAsks
  | host
  | ask (k : Nat) (g : Guard)
  | granted (k : Nat)
  | drop (k : Nat) (g : Guard)
  | touch (k σ : Nat) (a : SignalAtom T)

variable {V K T : Type}

/-- A message that is to be handled, whoever has guards or waits for them by then. -/
def handling (s : TreeHost K T) (interceptors : List (List (Access V K T))) (message : Message V)
    (held asking : List (Nat × Guard)) : SyncTree V K T where
  host := s.handling (fun _ => 0) interceptors message
  hostWaits := false
  held := held
  asking := asking

def hostRequest (g : Guard) : Request Cell := ⟨0, g.1, g.2⟩

def otherRequest (q : Nat × Guard) : Request Cell := ⟨q.1 + 1, q.2.1, q.2.2⟩

def guards (s : SyncTree V K T) : List (Request Cell) :=
  s.host.guards.map hostRequest ++ s.held.map otherRequest

def waiting (s : SyncTree V K T) : List (Request Cell) :=
  (if s.hostWaits then s.host.next? else none).toList.map hostRequest ++ s.asking.map otherRequest

def admits (impl : Impl) (s : SyncTree V K T) (g : Guard) : Bool :=
  (g.1.lock impl).admits (Locks.borrowsOn g.1 s.guards) (Locks.borrowsOn g.1 s.waiting) g.2

def isAsking (s : SyncTree V K T) (k : Nat) : Bool := s.asking.any fun q => q.1 == k

/-- The host goes on with its code where it needs no lock, or has asked for it and is let in. -/
def step (impl : Impl) (P : BorrowingProgram V K T) (s : SyncTree V K T) :
    Action T → Option (SyncTree V K T)
  | .hostAsks =>
    if s.hostWaits then none else s.host.next?.map fun _ => { s with hostWaits := true }
  | .host =>
    if s.host.next?.all fun g => s.hostWaits && s.admits impl g then
      (Borrowing.step P s.host ()).map fun host => { s with host := host, hostWaits := false }
    else none
  | .ask k g => if s.isAsking k then none else some { s with asking := s.asking ++ [(k, g)] }
  | .granted k => (s.asking.find? fun q => q.1 == k).bind fun q =>
    if s.admits impl q.2 then some { s with
      held := s.held ++ [q]
      asking := s.asking.filter fun r => r.1 != k }
    else none
  | .drop k g =>
    if (k, g) ∈ s.held ∧ s.isAsking k = false then
      some { s with held := s.held.erase (k, g) }
    else none
  | .touch k σ a =>
    if s.isAsking k = false ∧ ∀ g ∈ a.under σ, (k, g) ∈ s.held then
      some { s with host := s.host.touch P.full σ a }
    else none

section Move

variable {impl : Impl} {P : BorrowingProgram V K T} {s t : SyncTree V K T} {a : Action T}

/-- What a step can do, with the conditions it passed. -/
inductive Move (impl : Impl) (P : BorrowingProgram V K T) (s : SyncTree V K T) :
    Action T → SyncTree V K T → Prop where
  | hostAsks (g : Guard) : s.hostWaits = false → s.host.next? = some g →
      Move impl P s .hostAsks { s with hostWaits := true }
  | host (host : Borrowing K V T) :
      (∀ g, s.host.next? = some g → s.hostWaits = true ∧ s.admits impl g = true) →
      Borrowing.step P s.host () = some host →
      Move impl P s .host { s with host := host, hostWaits := false }
  | ask (k : Nat) (g : Guard) : (∀ q ∈ s.asking, q.1 ≠ k) →
      Move impl P s (.ask k g) { s with asking := s.asking ++ [(k, g)] }
  | granted (q : Nat × Guard) : q ∈ s.asking → s.admits impl q.2 = true →
      Move impl P s (.granted q.1) { s with
        held := s.held ++ [q]
        asking := s.asking.filter fun r => r.1 != q.1 }
  | drop (k : Nat) (g : Guard) : (k, g) ∈ s.held → (∀ q ∈ s.asking, q.1 ≠ k) →
      Move impl P s (.drop k g) { s with held := s.held.erase (k, g) }
  | touch (k σ : Nat) (a : SignalAtom T) : (∀ q ∈ s.asking, q.1 ≠ k) →
      (∀ g ∈ a.under σ, (k, g) ∈ s.held) →
      Move impl P s (.touch k σ a) { s with host := s.host.touch P.full σ a }

theorem isAsking_eq_false {k : Nat} : s.isAsking k = false ↔ ∀ q ∈ s.asking, q.1 ≠ k := by
  simp [isAsking]

theorem step_move (hStep : step impl P s a = some t) : Move impl P s a t := by
  cases a with
  | hostAsks =>
    simp only [step, Option.ite_none_left_eq_some] at hStep
    obtain ⟨hWaits, hNext⟩ := hStep
    obtain ⟨g, hg, rfl⟩ := Option.map_eq_some_iff.mp hNext
    exact .hostAsks g (Bool.eq_false_iff.mpr hWaits) hg
  | host =>
    simp only [step, Option.ite_none_right_eq_some] at hStep
    obtain ⟨hAdmitted, hHost⟩ := hStep
    obtain ⟨host, hNext, rfl⟩ := Option.map_eq_some_iff.mp hHost
    refine .host host (fun g hg => ?_) hNext
    simpa [hg] using hAdmitted
  | ask k g =>
    simp only [step, Option.ite_none_left_eq_some, Option.some.injEq] at hStep
    obtain ⟨hIdle, rfl⟩ := hStep
    exact .ask k g (isAsking_eq_false.mp (Bool.eq_false_iff.mpr hIdle))
  | granted k =>
    obtain ⟨q, hFind, hEnters⟩ := Option.bind_eq_some_iff.mp hStep
    simp only [Option.ite_none_right_eq_some, Option.some.injEq] at hEnters
    obtain ⟨hAdmits, rfl⟩ := hEnters
    obtain rfl : q.1 = k := by simpa using List.find?_some hFind
    exact .granted q (List.mem_of_find?_eq_some hFind) hAdmits
  | drop k g =>
    simp only [step, Option.ite_none_right_eq_some, Option.some.injEq] at hStep
    obtain ⟨⟨hMem, hIdle⟩, rfl⟩ := hStep
    exact .drop k g hMem (isAsking_eq_false.mp hIdle)
  | touch k σ a =>
    simp only [step, Option.ite_none_right_eq_some, Option.some.injEq] at hStep
    obtain ⟨⟨hIdle, hUnder⟩, rfl⟩ := hStep
    exact .touch k σ a (isAsking_eq_false.mp hIdle) hUnder

end Move

section Kept

variable {impl : Impl} {P : BorrowingProgram V K T} {s t : SyncTree V K T} {a : Action T}

theorem host_borrowed {cell : Cell} {b : Borrow} (hMem : (cell, b) ∈ s.host.guards) :
    b ∈ Locks.borrowsOn cell s.guards :=
  Locks.mem_borrowsOn.mpr
    ⟨hostRequest (cell, b), List.mem_append_left _ (List.mem_map_of_mem hMem), rfl, rfl⟩

theorem other_borrowed {q : Nat × Guard} (hMem : q ∈ s.held) :
    q.2.2 ∈ Locks.borrowsOn q.2.1 s.guards :=
  Locks.mem_borrowsOn.mpr
    ⟨otherRequest q, List.mem_append_right _ (List.mem_map_of_mem hMem), rfl, rfl⟩

/-- What is let in is in nobody's way. -/
theorem admits_excludes (hLawful : impl.Lawful) {g : Guard} (hAdmits : s.admits impl g = true)
    {b : Borrow} (hMem : b ∈ Locks.borrowsOn g.1 s.guards) : b.conflicts g.2 = false :=
  (g.1.lock_lawful hLawful).excludes _ _ _ hAdmits b hMem

/-- The host has not panicked, and nobody has a guard that is in the way of one of its own. -/
structure Kept (s : SyncTree V K T) : Prop where
  panicked : s.host.panicked = false
  counted : s.host.Counted fun _ => []
  apart : ∀ q ∈ s.held, ∀ b, (q.2.1, b) ∈ s.host.guards → b.conflicts q.2.2 = false

theorem Kept.host (hLawful : impl.Lawful) (h : s.Kept) {host : Borrowing K V T}
    (hAdmitted : ∀ g, s.host.next? = some g → s.hostWaits = true ∧ s.admits impl g = true)
    (hStep : Borrowing.step P s.host () = some host) :
    ({ s with host := host, hostWaits := false } : SyncTree V K T).Kept where
  panicked := by
    refine eq_false_of_ne_true fun hPanicked => ?_
    rcases (Borrowing.panicked_iff_clashes h.counted hStep).mp hPanicked with hOld | hClash
    · exact Bool.false_ne_true (h.panicked.symm.trans hOld)
    · obtain ⟨c, calls, a, rest, g, hCalls, hRest, hAsks, b, hb, hConflict⟩ := hClash
      have hNext : s.host.next? = some g := by simp [Borrowing.next?, hCalls, hRest, hAsks]
      rw [List.append_nil] at hb
      have hFree := admits_excludes hLawful (hAdmitted g hNext).2
        (host_borrowed (Borrowing.mem_guardsOn.mp hb))
      rw [hConflict] at hFree
      cases hFree
  counted := h.counted.step hStep
  apart q hq b hMem := by
    rcases Borrowing.step_guards hStep hMem with hOld | hNext
    · exact h.apart q hq b hOld
    · rw [Locks.conflicts_comm]
      exact admits_excludes hLawful (hAdmitted _ hNext).2 (other_borrowed hq)

theorem Kept.move (hLawful : impl.Lawful) (h : s.Kept) (hMove : Move impl P s a t) : t.Kept := by
  cases hMove with
  | hostAsks => exact ⟨h.panicked, h.counted, h.apart⟩
  | host host hAdmitted hStep => exact h.host hLawful hAdmitted hStep
  | ask k g => exact ⟨h.panicked, h.counted, h.apart⟩
  | granted q hMem hAdmits =>
    refine ⟨h.panicked, h.counted, fun r hr b hHost => ?_⟩
    rcases List.mem_append.mp hr with hOld | hNew
    · exact h.apart r hOld b hHost
    · obtain rfl := List.mem_singleton.mp hNew
      exact admits_excludes hLawful hAdmits (host_borrowed (s := s) hHost)
  | drop k g =>
    exact ⟨h.panicked, h.counted, fun q hq => h.apart q (List.mem_of_mem_erase hq)⟩
  | touch k σ a => exact ⟨h.panicked, h.counted, h.apart⟩

end Kept

section Waiting

variable {impl : Impl} {P : BorrowingProgram V K T} {s t : SyncTree V K T} {a : Action T}
  {depth : Cell → Nat} {n : Nat}

/-- Whoever asks for a cell has guards of cells less deep only. -/
def Climbing (depth : Cell → Nat) (s : SyncTree V K T) : Action T → Prop
  | .ask k g => ∀ q ∈ s.held, q.1 = k → depth q.2.1 < depth g.1
  | _ => True

instance (s : SyncTree V K T) : (a : Action T) → Decidable (Climbing depth s a)
  | .ask k g => inferInstanceAs (Decidable (∀ q ∈ s.held, q.1 = k → depth q.2.1 < depth g.1))
  | .hostAsks | .host | .granted _ | .drop _ _ | .touch _ _ _ => isTrue trivial

/-- The actions that only finish what is under way. -/
def Finishing : Action T → Prop
  | .hostAsks | .host | .granted _ | .drop _ _ => True
  | .ask _ _ | .touch _ _ _ => False

theorem Finishing.climbing (h : Finishing a) : Climbing depth s a := by
  cases a with
  | ask k g => cases h
  | _ => trivial

/-- Whatever others do to the signals meanwhile, the tree stays nested and the host's code comes to
its end when it is left alone from there. -/
def Ends (P : BorrowingProgram V K T) (depth : Cell → Nat) (b : Borrowing K V T) : Prop :=
  ∀ c, ReflTransGen (Borrowing.Meddled P) b c → c.heap.Nested depth ∧
    ∃ bs last, run (Borrowing.step P) c bs = some last ∧ last.calls = []

theorem Ends.after {b c : Borrowing K V T} (h : Ends P depth b) (hNext : Borrowing.Meddled P b c) :
    Ends P depth c := fun d hLater => h d (.head hNext hLater)

theorem single_ask (hSingle : s.asking.Pairwise fun r q => r.1 ≠ q.1) {q : Nat × Guard}
    (hIdle : ∀ r ∈ s.asking, r.1 ≠ q.1) :
    (s.asking ++ [q]).Pairwise fun r q => r.1 ≠ q.1 := by
  refine List.pairwise_append.mpr ⟨hSingle, List.pairwise_singleton .., fun r hr q' hq => ?_⟩
  obtain rfl := List.mem_singleton.mp hq
  exact hIdle r hr

/-- Everybody goes down the tree. -/
structure Orderly (P : BorrowingProgram V K T) (depth : Cell → Nat) (s : SyncTree V K T) :
    Prop where
  fine : s.host.Fine depth
  ends : Ends P depth s.host
  single : s.asking.Pairwise fun r q => r.1 ≠ q.1
  up : ∀ r ∈ s.asking, ∀ q ∈ s.held, q.1 = r.1 → depth q.2.1 < depth r.2.1

theorem Orderly.move (hP : P.Descends depth) (h : s.Orderly P depth)
    (hClimbing : s.Climbing depth a) (hMove : Move impl P s a t) : t.Orderly P depth := by
  cases hMove with
  | hostAsks => exact ⟨h.fine, h.ends, h.single, h.up⟩
  | host host _ hStep =>
    exact ⟨h.fine.step hP (h.ends _ .refl).1 hStep, h.ends.after (.step _ hStep), h.single, h.up⟩
  | ask k g hIdle =>
    refine ⟨h.fine, h.ends, single_ask h.single hIdle, fun r hr q hq hSame => ?_⟩
    rcases List.mem_append.mp hr with hr | hr
    · exact h.up r hr q hq hSame
    · obtain rfl := List.mem_singleton.mp hr
      exact hClimbing q hq hSame
  | granted g hMem =>
    refine ⟨h.fine, h.ends, h.single.sublist List.filter_sublist, ?_⟩
    -- the thread of the new guard does not wait any more
    intro r hr q hq hSame
    obtain ⟨hr, hOther⟩ := List.mem_filter.mp hr
    rcases List.mem_append.mp hq with hq | hq
    · exact h.up r hr q hq hSame
    · obtain rfl := List.mem_singleton.mp hq
      simp [hSame] at hOther
  | drop k g =>
    exact ⟨h.fine, h.ends, h.single, fun r hr q hq => h.up r hr q (List.mem_of_mem_erase hq)⟩
  | touch k σ a =>
    exact ⟨⟨h.fine.panicked, h.fine.counted, h.fine.layered⟩, h.ends.after (.touched σ a),
      h.single, h.up⟩

/-- The host has at most `n` steps to the end of its message. -/
def Within (P : BorrowingProgram V K T) (n : Nat) (s : SyncTree V K T) : Prop :=
  ∃ bs last, run (Borrowing.step P) s.host bs = some last ∧ last.calls = [] ∧ bs.length ≤ n

theorem Within.step (h : s.Within P n) {host : Borrowing K V T}
    (hStep : Borrowing.step P s.host () = some host) : ∃ bs last,
    run (Borrowing.step P) host bs = some last ∧ last.calls = [] ∧ bs.length < n := by
  obtain ⟨bs, last, hRun, hDone, hShort⟩ := h
  cases bs with
  | nil =>
    cases hRun
    rw [Borrowing.step_done hDone] at hStep
    cases hStep
  | cons u bs =>
    obtain ⟨host', hStep', hRest⟩ := run_cons_eq_some.mp hRun
    obtain rfl := Option.some.inj (hStep.symm.trans hStep')
    exact ⟨bs, last, hRest, hDone, hShort⟩

/-- As long as the host has calls, its code goes on. -/
theorem Orderly.exists_step (h : s.Orderly P depth) (hCalls : s.host.calls ≠ []) :
    ∃ host, Borrowing.step P s.host () = some host := by
  obtain ⟨-, bs, last, hRun, hDone⟩ := h.ends _ .refl
  cases bs with
  | nil =>
    cases hRun
    exact (hCalls hDone).elim
  | cons u bs =>
    obtain ⟨host, hStep, -⟩ := run_cons_eq_some.mp hRun
    exact ⟨host, hStep⟩

/-- The locks that are still to be asked for, taken or dropped, and the host's steps. -/
def pending (P : BorrowingProgram V K T) (n : Nat) (s : SyncTree V K T) : Nat :=
  2 * stepsLeft (Borrowing.step P) n s.host + (if s.hostWaits then 0 else 1) +
    2 * s.asking.length + s.held.length

theorem Within.stepsLeft_host (h : s.Within P n) {host : Borrowing K V T}
    (hStep : Borrowing.step P s.host () = some host) :
    stepsLeft (Borrowing.step P) n s.host = stepsLeft (Borrowing.step P) n host + 1 := by
  obtain ⟨bs, last, hRun, hDone, hShort⟩ := h.step hStep
  have hEnd : Borrowing.step P last () = none := Borrowing.step_done hDone
  have hBefore : run (Borrowing.step P) s.host (() :: bs) = some last :=
    run_cons_eq_some.mpr ⟨host, hStep, hRun⟩
  rw [stepsLeft_eq hRun hEnd (Nat.le_of_lt hShort), stepsLeft_eq hBefore hEnd hShort]
  rfl

/-- A finishing step leaves less to do. -/
theorem Within.pending_lt (h : s.Within P n) (hFinishing : Finishing a)
    (hMove : Move impl P s a t) : t.Within P n ∧ t.pending P n < s.pending P n := by
  cases hMove with
  | hostAsks g hWaits => exact ⟨h, by simp [pending, hWaits]⟩
  | host host _ hStep =>
    have hLeft := h.stepsLeft_host hStep
    obtain ⟨bs, last, hRun, hDone, hShort⟩ := h.step hStep
    refine ⟨⟨bs, last, hRun, hDone, Nat.le_of_lt hShort⟩, ?_⟩
    simp only [pending, hLeft, Bool.false_eq_true, if_false]
    split <;> omega
  | granted q hMem =>
    have hLess := Locks.length_filter_lt (p := fun r => r.1 != q.1) hMem (by simp)
    refine ⟨h, ?_⟩
    simp only [pending, List.length_append, List.length_singleton]
    omega
  | drop k g hMem =>
    have hLess := List.length_erase_of_mem hMem
    have hPos := List.length_pos_of_mem hMem
    refine ⟨h, ?_⟩
    simp only [pending]
    omega
  | ask | touch => cases hFinishing

theorem mem_guards {r : Request Cell} : r ∈ s.guards ↔
    (∃ g ∈ s.host.guards, hostRequest g = r) ∨ ∃ q ∈ s.held, otherRequest q = r := by
  simp [guards]

theorem mem_waiting {r : Request Cell} : r ∈ s.waiting ↔
    (∃ g, s.hostWaits = true ∧ s.host.next? = some g ∧ hostRequest g = r) ∨
      ∃ q ∈ s.asking, otherRequest q = r := by
  cases hWaits : s.hostWaits <;> simp [waiting, hWaits, Option.mem_toList]

/-- The host waits below its guards, and so do the others. -/
theorem Orderly.waiting_up (h : s.Orderly P depth) : ∀ r ∈ s.waiting, ∀ g ∈ s.guards,
    g.holder = r.holder → depth g.cell < depth r.cell := by
  intro r hr g hg hSame
  rcases mem_waiting.mp hr with ⟨q, -, hNext, rfl⟩ | ⟨q, hAsks, rfl⟩
  · rcases mem_guards.mp hg with ⟨k, hHost, rfl⟩ | ⟨k, hHeld, rfl⟩
    · exact h.fine.layered.next_below hNext k hHost
    · exact (Nat.succ_ne_zero _ hSame).elim
  · rcases mem_guards.mp hg with ⟨k, hHost, rfl⟩ | ⟨k, hHeld, rfl⟩
    · exact (Nat.succ_ne_zero _ hSame.symm).elim
    · exact h.up q hAsks k hHeld (Nat.succ.inj hSame)

/-- A thread waits for one guard at a time. -/
theorem find?_asking (hSingle : s.asking.Pairwise fun r q => r.1 ≠ q.1) {q : Nat × Guard}
    (hMem : q ∈ s.asking) : s.asking.find? (fun r => r.1 == q.1) = some q := by
  cases hFind : s.asking.find? fun r => r.1 == q.1 with
  | none => simpa using List.find?_eq_none.mp hFind q hMem
  | some r =>
    have hSame : r.1 = q.1 := by simpa using List.find?_some hFind
    have : Std.Symm fun r q : Nat × Guard => r.1 ≠ q.1 := ⟨fun _ _ hNe => hNe.symm⟩
    by_contra hOther
    exact hSingle.forall (List.mem_of_find?_eq_some hFind) hMem
      (fun hEq => hOther (congrArg some hEq)) hSame

/-- Nobody has anything left to do. -/
def Idle (s : SyncTree V K T) : Prop := s.host.calls = [] ∧ s.held = [] ∧ s.asking = []

/-- When the host waits, and every other thread with a guard does, somebody is let in. -/
theorem Orderly.exists_admitted (hLawful : impl.Lawful) (h : s.Orderly P depth)
    (hOthers : ∀ q ∈ s.held, s.isAsking q.1 = true)
    (hHost : s.host.calls ≠ [] → s.hostWaits = true ∧ ∃ g, s.host.next? = some g)
    (hBusy : ¬ s.Idle) : ∃ a, Finishing a ∧ step impl P s a ≠ none := by
  have hCalls {g : Guard} (hMem : g ∈ s.host.guards) : s.host.calls ≠ [] := by
    intro hNil
    simp [Borrowing.guards, hNil] at hMem
  have hAllWait : ∀ g ∈ s.guards, ∃ r ∈ s.waiting, r.holder = g.holder := by
    intro g hg
    rcases mem_guards.mp hg with ⟨k, hMem, rfl⟩ | ⟨k, hMem, rfl⟩
    · obtain ⟨hWaits, q, hNext⟩ := hHost (hCalls hMem)
      exact ⟨_, mem_waiting.mpr (.inl ⟨q, hWaits, hNext, rfl⟩), rfl⟩
    · obtain ⟨q, hq, hSame⟩ := List.any_eq_true.mp (hOthers k hMem)
      exact ⟨_, mem_waiting.mpr (.inr ⟨q, hq, rfl⟩), congrArg Nat.succ (beq_iff_eq.mp hSame)⟩
  have hWaiting : s.waiting ≠ [] := by
    intro hNil
    have hNone (r : Request Cell) : r ∉ s.waiting := hNil ▸ List.not_mem_nil
    refine hBusy ⟨?_, ?_, ?_⟩
    · by_contra hCalls
      obtain ⟨hWaits, q, hNext⟩ := hHost hCalls
      exact hNone _ (mem_waiting.mpr (.inl ⟨q, hWaits, hNext, rfl⟩))
    · refine List.eq_nil_iff_forall_not_mem.mpr fun g hg => ?_
      obtain ⟨r, hr, -⟩ := hAllWait _ (mem_guards.mpr (.inr ⟨g, hg, rfl⟩))
      exact hNone r hr
    · exact List.eq_nil_iff_forall_not_mem.mpr fun g hg =>
        hNone _ (mem_waiting.mpr (.inr ⟨g, hg, rfl⟩))
  obtain ⟨r, hr, hAdmits⟩ := Locks.exists_admitted (Cell.lock_lawful hLawful) s.guards s.waiting
    h.waiting_up hAllWait hWaiting
  rcases mem_waiting.mp hr with ⟨g, hWaits, hNext, rfl⟩ | ⟨q, hMem, rfl⟩
  · have hCalls : s.host.calls ≠ [] := by
      intro hNil
      simp [Borrowing.next?, hNil] at hNext
    obtain ⟨host, hStep⟩ := h.exists_step hCalls
    have hEnters : s.admits impl g = true := hAdmits
    exact ⟨.host, trivial, by simp [step, hNext, hWaits, hEnters, hStep]⟩
  · have hEnters : s.admits impl q.2 = true := hAdmits
    exact ⟨.granted q.1, trivial, by simp [step, find?_asking h.single hMem, hEnters]⟩

/-- As long as something is under way, somebody can go on. -/
theorem Orderly.exists_finishing (hLawful : impl.Lawful) (h : s.Orderly P depth)
    (hBusy : ¬ s.Idle) : ∃ a, Finishing a ∧ step impl P s a ≠ none := by
  by_cases hOthers : ∀ q ∈ s.held, s.isAsking q.1 = true
  · by_cases hHost : s.host.calls ≠ [] → s.hostWaits = true ∧ ∃ g, s.host.next? = some g
    · exact h.exists_admitted hLawful hOthers hHost hBusy
    · obtain ⟨hCalls, hRuns⟩ := Classical.not_imp.mp hHost
      cases hNext : s.host.next? with
      | none =>
        obtain ⟨host, hStep⟩ := h.exists_step hCalls
        exact ⟨.host, trivial, by simp [step, hNext, hStep]⟩
      | some g =>
        have hWaits : s.hostWaits = false := by simpa [hNext] using hRuns
        exact ⟨.hostAsks, trivial, by simp [step, hNext, hWaits]⟩
  · obtain ⟨q, hMem, hAsks⟩ : ∃ q ∈ s.held, s.isAsking q.1 = false := by
      simpa using hOthers
    exact ⟨.drop q.1 q.2, trivial, by simp [step, hMem, hAsks]⟩

/-- When everybody goes down the tree, nobody waits for ever: in every state that the host and the
other threads reach, what is under way can be finished in a bounded number of steps and in any
order, and when no such step is left, the message is handled and no lock is taken. -/
theorem all_handled (hLawful : impl.Lawful) (hP : P.Descends depth) {s : TreeHost K T}
    {message : Message V} {interceptors : List (List (Access V K T))}
    {held asking : List (Nat × Guard)} {as : List (Action T)}
    (hInterceptors : ∀ accesses ∈ interceptors, Descending depth none [] accesses)
    (hEnds : Ends P depth (s.handling (fun _ => 0) interceptors message))
    (hSingle : asking.Pairwise fun r q => r.1 ≠ q.1)
    (hUp : ∀ r ∈ asking, ∀ q ∈ held, q.1 = r.1 → depth q.2.1 < depth r.2.1)
    (hClimbing : Every (step impl P) (Climbing depth)
      (handling s interceptors message held asking) as)
    (hRun : run (step impl P) (handling s interceptors message held asking) as = some t) :
    ∃ n, ∀ bs u, (∀ a ∈ bs, Finishing a) → run (step impl P) t bs = some u →
      bs.length ≤ n ∧ ((∀ a, Finishing a → step impl P u a = none) →
        u.Idle ∧ u.host.panicked = false) := by
  have hStart : (handling s interceptors message held asking).Orderly P depth :=
    ⟨⟨rfl, TreeHost.handling_counted fun _ => .nil, TreeHost.handling_layered hInterceptors⟩,
      hEnds, hSingle, hUp⟩
  have hOrderly : t.Orderly P depth :=
    run_invariant_of (fun _ _ _ h hClimbing hStep => h.move hP hClimbing (step_move hStep)) hStart
      hClimbing hRun
  obtain ⟨-, cs, last, hAlone, hDone⟩ := hOrderly.ends _ .refl
  refine ⟨t.pending P cs.length, fun bs u hFinishing hLater => ?_⟩
  have hKeep : ∀ s a t, (Orderly P depth s ∧ Within P cs.length s) → Finishing a →
      step impl P s a = some t → Orderly P depth t ∧ Within P cs.length t :=
    fun _ _ _ h hFirst hStep => ⟨h.1.move hP hFirst.climbing (step_move hStep),
      (h.2.pending_lt hFirst (step_move hStep)).1⟩
  have hLess : ∀ s a t, (Orderly P depth s ∧ Within P cs.length s) → Finishing a →
      step impl P s a = some t → t.pending P cs.length < s.pending P cs.length :=
    fun _ _ _ h hFirst hStep => (h.2.pending_lt hFirst (step_move hStep)).2
  have hNext : ∀ s, (Orderly P depth s ∧ Within P cs.length s) →
      ¬ (s.Idle ∧ s.host.panicked = false) → ∃ a, Finishing a ∧ step impl P s a ≠ none :=
    fun _ h hBusy => h.1.exists_finishing hLawful fun hIdle => hBusy ⟨hIdle, h.1.fine.panicked⟩
  exact run_completes (fun s => Orderly P depth s ∧ Within P cs.length s) (pending P cs.length)
    hKeep hLess hNext ⟨hOrderly, cs, last, hAlone, hDone, Nat.le_refl _⟩ hFinishing hLater

end Waiting

section Stuck

variable {impl : Impl} {P : BorrowingProgram V K T} {s t : SyncTree V K T} {a : Action T} {k : Nat}
  {cell : Cell}

/-- The host waits for a cell that a thread has a read guard of, and the thread asks to read it
again. -/
structure Stuck (k : Nat) (cell : Cell) (s : SyncTree V K T) : Prop where
  waits : s.hostWaits = true
  next : s.host.next? = some (cell, .exclusive)
  reads : (k, cell, .shared) ∈ s.held
  asks : (k, cell, .shared) ∈ s.asking
  only : ∀ q ∈ s.asking, q.1 = k → q.2 = (cell, .shared)

def Action.touches : Action T → Bool
  | .touch _ _ _ => true
  | _ => false

theorem Stuck.move (hLawful : impl.Lawful) (hOut : (cell.lock impl).KeepsReadersOut)
    (h : s.Stuck k cell) (hMove : Move impl P s a t) : t.Stuck k cell ∧
      (a.touches = false → t.host = s.host) ∧
      ∃ signals, t.host = { s.host with heap := { s.host.heap with signals := signals } } := by
  cases hMove with
  | hostAsks g hWaits =>
    rw [h.waits] at hWaits
    cases hWaits
  | host host hAdmitted =>
    obtain ⟨-, hAdmits⟩ := hAdmitted _ h.next
    have hFree := admits_excludes hLawful hAdmits (other_borrowed h.reads)
    cases hFree
  | ask j g hIdle =>
    refine ⟨⟨h.waits, h.next, h.reads, List.mem_append_left _ h.asks, fun q hq hSame => ?_⟩,
      fun _ => rfl, _, rfl⟩
    rcases List.mem_append.mp hq with hq | hq
    · exact h.only q hq hSame
    · obtain rfl := List.mem_singleton.mp hq
      exact (hIdle (k, cell, .shared) h.asks hSame.symm).elim
  | granted g hMem hAdmits =>
    have hOther : g.1 ≠ k := by
      intro hSame
      have hWriter : Borrow.exclusive ∈ Locks.borrowsOn cell s.waiting := by
        refine Locks.mem_borrowsOn.mpr ⟨hostRequest (cell, .exclusive), ?_, rfl, rfl⟩
        exact mem_waiting.mpr (.inl ⟨_, h.waits, h.next, rfl⟩)
      rw [h.only g hMem hSame, admits, hOut _ _ hWriter] at hAdmits
      cases hAdmits
    refine ⟨⟨h.waits, h.next, List.mem_append_left _ h.reads, ?_, fun q hq => ?_⟩, fun _ => rfl,
      _, rfl⟩
    · exact List.mem_filter.mpr ⟨h.asks, by simpa using hOther.symm⟩
    · exact h.only q (List.mem_filter.mp hq).1
  | drop j g hMem hIdle =>
    refine ⟨⟨h.waits, h.next, ?_, h.asks, h.only⟩, fun _ => rfl, _, rfl⟩
    refine (List.mem_erase_of_ne fun hSame => ?_).mpr h.reads
    exact hIdle (k, cell, .shared) h.asks (congrArg Prod.fst hSame)
  | touch j σ a =>
    exact ⟨⟨h.waits, h.next, h.reads, h.asks, h.only⟩, fun hNot => (by cases hNot), _, rfl⟩

/-- Under a lock that keeps readers out while a writer waits, a thread that asks again to read a
model or a signal that it has a read guard of, while the host waits to write there, stops the host
for ever: whatever all others do, nothing but the signals ever changes on the host's side, and these
only where another thread does something to them. -/
theorem stuck_forever (hLawful : impl.Lawful) (hOut : (cell.lock impl).KeepsReadersOut)
    (h : s.Stuck k cell) {as : List (Action T)} (hRun : run (step impl P) s as = some t) :
    t.Stuck k cell ∧ ((∀ a ∈ as, a.touches = false) → t.host = s.host) ∧
      ∃ signals, t.host = { s.host with heap := { s.host.heap with signals := signals } } := by
  induction as generalizing s with
  | nil =>
    cases hRun
    exact ⟨h, fun _ => rfl, _, rfl⟩
  | cons a as ih =>
    obtain ⟨m, hStep, hRest⟩ := run_cons_eq_some.mp hRun
    obtain ⟨hStuck, hSame, signals, hHost⟩ := h.move hLawful hOut (step_move hStep)
    obtain ⟨hStuck', hSame', signals', hHost'⟩ := ih hStuck hRest
    refine ⟨hStuck', fun hNone => ?_, signals', ?_⟩
    · exact (hSame' fun b hb => hNone b (List.mem_cons_of_mem _ hb)).trans
        (hSame (hNone a List.mem_cons_self))
    · rw [hHost', hHost]

end Stuck

end SyncTree

/-- The access makes no model and assigns none. -/
def Access.Steady {V K T : Type} : Access V K T → Prop
  | .act (.newModel _) | .act (.assign _ _) => False
  | _ => True

/-- Blocks that leave the tree as it is. -/
def BorrowingProgram.Steady {V K T : Type} (P : BorrowingProgram V K T) : Prop :=
  ∀ k block env m h, ∀ a ∈ P.block k block env m h, a.Steady

namespace Borrowing

variable {V K T : Type} {P : BorrowingProgram V K T} {s t : Borrowing K V T} {u : Unit}
  {depth : Cell → Nat} {c : Call V K T} {calls : List (Call V K T)} {a : Access V K T}
  {rest : List (Access V K T)}

def Steady (s : Borrowing K V T) : Prop := ∀ c ∈ s.calls, ∀ a ∈ c.rest, a.Steady

theorem body_steady (hP : P.Steady) {h : Heap K T} {m : Nat} {message : Message V}
    {body : List (Access V K T)} (hBody : P.body h m message = some body) :
    ∀ a ∈ body, a.Steady := by
  obtain ⟨model, -, hRan⟩ := Option.bind_eq_some_iff.mp hBody
  obtain ⟨ran, -, hEq⟩ := Option.bind_eq_some_iff.mp hRan
  cases hEq
  exact hP _ _ _ _ _

/-- A call goes on with the rest of its code. -/
theorem Steady.next (h : s.Steady) (hCalls : s.calls = c :: calls) (hRest : c.rest = a :: rest)
    {own : Option Nat} {kept : List Guard} (hSame : t.calls = ⟨own, kept, rest⟩ :: calls) :
    t.Steady := by
  intro d hd b hb
  rw [hSame] at hd
  rcases List.mem_cons.mp hd with rfl | hOld
  · exact h c (hCalls ▸ List.mem_cons_self) b (hRest ▸ List.mem_cons_of_mem _ hb)
  · exact h d (hCalls ▸ List.mem_cons_of_mem _ hOld) b hb

theorem Steady.step (hP : P.Steady) (h : s.Steady) (hStep : step P s u = some t) :
    t.Steady ∧ t.heap.models = s.heap.models := by
  cases step_move hStep with
  | returned c calls hCalls hRest =>
    exact ⟨fun d hd => h d (hCalls ▸ List.mem_cons_of_mem _ hd), rfl⟩
  | panicked => exact ⟨fun d hd => (List.not_mem_nil hd).elim, rfl⟩
  | borrowed c calls b cell rest flag hCalls hRest => exact ⟨h.next hCalls hRest rfl, rfl⟩
  | dropped c calls i rest hCalls hRest => exact ⟨h.next hCalls hRest rfl, rfl⟩
  | sent c calls m message rest body flag hCalls hRest hBody =>
    refine ⟨fun d hd => ?_, rfl⟩
    rcases List.mem_cons.mp hd with rfl | hOld
    · exact body_steady hP hBody
    · exact h.next (t := { s with calls := { c with rest := rest } :: calls }) hCalls hRest rfl d
        hOld
  | acted c calls a stmt rest heap hCalls hRest hStmt _ hHeap =>
    refine ⟨h.next hCalls hRest rfl, ?_⟩
    have hSteady : a.Steady := h c (hCalls ▸ List.mem_cons_self) a (hRest ▸ List.mem_cons_self)
    cases a with
    | act stmt' =>
      cases hStmt
      cases Heap.apply_move hHeap with
      | newSignal => rfl
      | newModel => exact hSteady.elim
      | assign => exact hSteady.elim
      | use => rfl
    | mark σ =>
      cases hStmt
      cases Heap.apply_move hHeap with
      | use => rfl
    | _ => cases hStmt

/-- Code that leaves the tree as it is leaves it nested. -/
theorem Steady.nested (hP : P.Steady) (h : s.Steady) (hNested : s.heap.Nested depth)
    {bs : List Unit} (hRun : run (Borrowing.step P) s bs = some t) : t.heap.Nested depth := by
  have hKeep : ∀ t u t', (t.Steady ∧ t.heap.models = s.heap.models) →
      Borrowing.step P t u = some t' → t'.Steady ∧ t'.heap.models = s.heap.models := by
    rintro t u t' ⟨hSteady, hModels⟩ hStep
    obtain ⟨hSteady', hSame⟩ := hSteady.step hP hStep
    exact ⟨hSteady', hSame.trans hModels⟩
  obtain ⟨-, hModels⟩ := run_invariant hKeep ⟨h, rfl⟩ hRun
  exact hNested.of_models hModels

end Borrowing

section House

theorem houseSignal_steady (h : Heap HouseModels Bool) (m : Nat) (field : Ident) :
    ∀ a ∈ (houseSignal h m field).map Access.act, a.Steady := by
  unfold houseSignal
  cases h.models[m]?.bind fun model => model.signals field <;> simp [Access.Steady]

theorem houseBorrowing_steady : houseBorrowing.Steady := by
  intro k block env m h
  simp only [houseBorrowing]
  split
  next => exact houseSignal_steady h m "light"
  next =>
    cases h.models[m]?.bind fun model => model.children "lamp" <;> simp [Access.Steady]
  next => exact houseSignal_steady h m "locked"

theorem houseSignal_models {h h' : Heap HouseModels Bool} (hModels : h.models = h'.models)
    (m : Nat) (field : Ident) : houseSignal h m field = houseSignal h' m field := by
  unfold houseSignal
  rw [hModels]

theorem houseBorrowing_onlyModels : houseBorrowing.OnlyModels := by
  intro k block env m h h' hModels
  simp only [houseBorrowing]
  split <;> simp_all [houseSignal_models hModels]

/-- Whatever others do to its signals meanwhile, the lamp is toggled and that is that. -/
theorem houseBorrowing_ends : SyncTree.Ends houseBorrowing houseDepth
    (houseHost.handling (fun _ => 0) [] ⟨"Toggle", []⟩) := by
  have hSteady : Borrowing.Steady (houseHost.handling (fun _ => 0) []
      (⟨"Toggle", []⟩ : Message Unit)) := by
    simp [Borrowing.Steady, TreeHost.handling, Access.Steady]
  intro c hMeddled
  refine Borrowing.ends_of_alone houseBorrowing_onlyModels
    (fun as b hRun => hSteady.nested houseBorrowing_steady houseHeap_nested hRun) ?_ hMeddled
  exact ⟨List.replicate 11 (), _, rfl, rfl⟩

/-- Somebody asks to read the house while its lamp is toggled, and is let in after that. -/
def lookAfter : List (SyncTree.Action Bool) :=
  [.hostAsks, .host, .hostAsks, .host, .ask 0 (.model 0, .shared), .host, .hostAsks, .host,
    .hostAsks, .host, .hostAsks, .host, .host, .host, .granted 0]

/-- With the guard of the house the same thread writes to the lamp's light and drops the writer. -/
def writesLight : List (SyncTree.Action Bool) :=
  [.ask 0 (.value 1, .exclusive), .granted 0, .touch 0 1 (.write not),
    .drop 0 (.value 1, .exclusive), .touch 0 1 (.setDirty true),
    .ask 0 (.subscribers 1, .exclusive), .granted 0, .touch 0 1 (.send .destroyed 0),
    .ask 1 (.model 1, .exclusive)]

/-- Another thread asks for the lamp meanwhile. -/
theorem all_handled_toggle : ∃ t,
    run (SyncTree.step (writersFirst true) houseBorrowing)
      (.handling houseHost [] ⟨"Toggle", []⟩ [] []) (lookAfter ++ writesLight) = some t ∧
    ∃ n, ∀ bs u, (∀ a ∈ bs, SyncTree.Finishing a) →
      run (SyncTree.step (writersFirst true) houseBorrowing) t bs = some u → bs.length ≤ n ∧
      ((∀ a, SyncTree.Finishing a →
        SyncTree.step (writersFirst true) houseBorrowing u a = none) →
        u.Idle ∧ u.host.panicked = false) := by
  obtain ⟨t, hRun⟩ : ∃ t, run (SyncTree.step (writersFirst true) houseBorrowing)
      (.handling houseHost [] ⟨"Toggle", []⟩ [] []) (lookAfter ++ writesLight) = some t := ⟨_, rfl⟩
  have hClimbing : Every (SyncTree.step (writersFirst true) houseBorrowing)
      (SyncTree.Climbing houseDepth) (.handling houseHost [] ⟨"Toggle", []⟩ [] [])
      (lookAfter ++ writesLight) := by
    decide
  exact ⟨t, hRun, SyncTree.all_handled (writersFirst_lawful true)
    (houseBorrowing_descends houseDepth) (by simp) houseBorrowing_ends .nil (by simp) hClimbing
    hRun⟩

/-- The host waits for the house that somebody looks at, who asks for it again. -/
theorem stuck_forever_rereading : ∃ s,
    run (SyncTree.step (writersFirst true) houseBorrowing)
      (.handling houseHost [] ⟨"Toggle", []⟩ [] [])
      [.ask 0 (.model 0, .shared), .granted 0, .hostAsks, .ask 0 (.model 0, .shared)] = some s ∧
    ∀ as t, run (SyncTree.step (writersFirst true) houseBorrowing) s as = some t →
      t.Stuck 0 (.model 0) ∧ ((∀ a ∈ as, a.touches = false) → t.host = s.host) ∧
        ∃ signals, t.host = { s.host with heap := { s.host.heap with signals := signals } } := by
  obtain ⟨s, hRun, hStuck⟩ : ∃ s,
      run (SyncTree.step (writersFirst true) houseBorrowing)
        (.handling houseHost [] ⟨"Toggle", []⟩ [] [])
        [.ask 0 (.model 0, .shared), .granted 0, .hostAsks, .ask 0 (.model 0, .shared)] = some s ∧
      s.Stuck 0 (.model 0) :=
    ⟨_, rfl, rfl, rfl, List.mem_singleton.mpr rfl, List.mem_singleton.mpr rfl,
      fun q hq _ => congrArg Prod.snd (List.mem_singleton.mp hq)⟩
  have hOut : ((Cell.model 0).lock (writersFirst true)).KeepsReadersOut :=
    writersFirst_keepsReadersOut true
  exact ⟨s, hRun, fun as t hLater =>
    SyncTree.stuck_forever (writersFirst_lawful true) hOut hStuck hLater⟩

end House

end Emyu.ModelTree
