import Emyu.Lib.RefCell
import Emyu.Lib.Run
import Emyu.Lib.Serial
import Mathlib.Data.List.MinMax
import Mathlib.Data.List.Pairwise

/-! Read-write locks around a family of values, taken by any number of holders that are switched in
any order: that the locks make the accesses serializable, what a panic under a write lock does, and
when nobody can wait for ever. -/

namespace RwLock

open RefCell Runs Serial

/-- What a lock's implementation decides: whether a panic under a write guard poisons it, and
whether a request is let in, given the guards that are out on its cell and the requests that wait
for it. -/
structure Impl where
  poisons : Bool
  admits : List Borrow → List Borrow → Borrow → Bool

/-- Conflicting guards are never out together, and a lock that is free lets somebody in. -/
structure Impl.Lawful (impl : Impl) : Prop where
  excludes : ∀ held queue b, impl.admits held queue b = true → ∀ g ∈ held, g.conflicts b = false
  free : ∀ queue, queue ≠ [] → ∃ b ∈ queue, impl.admits [] queue b = true

/-- Whoever waits alone for a free lock is let in. -/
theorem Impl.Lawful.alone {impl : Impl} (h : impl.Lawful) (b : Borrow) :
    impl.admits [] [b] b = true := by
  obtain ⟨c, hc, hAdmits⟩ := h.free [b] (List.cons_ne_nil _ _)
  rwa [List.mem_singleton.mp hc] at hAdmits

/-- No reader is let in while a writer waits. -/
def Impl.KeepsReadersOut (impl : Impl) : Prop :=
  ∀ held queue, Borrow.exclusive ∈ queue → impl.admits held queue .shared = false

/-- A reader is let in where nobody writes or waits to write. -/
def Impl.SharesReaders (impl : Impl) : Prop :=
  ∀ held queue, Borrow.exclusive ∉ held → Borrow.exclusive ∉ queue →
    impl.admits held queue .shared = true

/-- A lock that lets readers in while others read, whoever waits. -/
def readersFirst (poisons : Bool) : Impl where
  poisons := poisons
  admits held _ b := held.all fun g => !g.conflicts b

/-- A lock that keeps readers out while a writer waits. -/
def writersFirst (poisons : Bool) : Impl where
  poisons := poisons
  admits held queue b :=
    (held.all fun g => !g.conflicts b) && (b == .exclusive || !queue.contains .exclusive)

/-- A mutex, which lets in whoever comes when it is free. -/
def mutex (poisons : Bool) : Impl where
  poisons := poisons
  admits held _ _ := held.isEmpty

theorem mutex_lawful (poisons : Bool) : (mutex poisons).Lawful where
  excludes held _ b hAdmits g hg := by
    rw [List.isEmpty_iff.mp hAdmits] at hg
    cases hg
  free queue hQueue := by
    obtain ⟨b, hb⟩ := List.exists_mem_of_ne_nil _ hQueue
    exact ⟨b, hb, rfl⟩

theorem readersFirst_lawful (poisons : Bool) : (readersFirst poisons).Lawful where
  excludes held _ b hAdmits g hg := by
    simpa using List.all_eq_true.mp hAdmits g hg
  free queue hQueue := by
    obtain ⟨b, hb⟩ := List.exists_mem_of_ne_nil _ hQueue
    exact ⟨b, hb, rfl⟩

theorem writersFirst_lawful (poisons : Bool) : (writersFirst poisons).Lawful where
  excludes held _ b hAdmits g hg := by
    simpa using List.all_eq_true.mp (Bool.and_eq_true_iff.mp hAdmits).1 g hg
  free queue hQueue := by
    by_cases hWriter : Borrow.exclusive ∈ queue
    · exact ⟨.exclusive, hWriter, rfl⟩
    · obtain ⟨b, hb⟩ := List.exists_mem_of_ne_nil _ hQueue
      exact ⟨b, hb, by simp [writersFirst, hWriter]⟩

theorem writersFirst_keepsReadersOut (poisons : Bool) :
    (writersFirst poisons).KeepsReadersOut := fun held queue hWriter => by
  simp [writersFirst, hWriter]

theorem writersFirst_sharesReaders (poisons : Bool) : (writersFirst poisons).SharesReaders := by
  intro held queue hHeld hQueue
  have hShared : ∀ g ∈ held, g.conflicts .shared = false := by
    intro g hg
    cases g with
    | shared => rfl
    | exclusive => exact (hHeld hg).elim
  simpa [writersFirst, hQueue] using hShared

structure Request (S : Type*) where
  holder : Nat
  cell : S
  borrow : Borrow

/-- The guards are numbered in the order in which they were taken. -/
structure Guard (S : Type*) extends Request S where
  number : Nat

/-- `trace` records the accesses that were made, each with the number of its guard. -/
structure Locks (S : Type*) (Val : S → Type*) where
  value : ∀ σ, Val σ
  poisoned : S → Bool
  guards : List (Guard S)
  waiting : List (Request S)
  taken : Nat
  trace : List (Nat × Access S Val)

inductive Action (S : Type*) (Val : S → Type*) where
  | request (r : Request S)
  | grant (h : Nat)
  | read (n : Nat) (σ : S)
  | write (n : Nat) (σ : S) (f : Val σ → Val σ)
  | drop (n : Nat)
  | leave (h : Nat) (panicking : Bool)

namespace Locks

variable {S : Type*} [DecidableEq S] {Val : S → Type*}

def new (value : ∀ σ, Val σ) : Locks S Val where
  value := value
  poisoned := fun _ => false
  guards := []
  waiting := []
  taken := 0
  trace := []

/-- The holder is blocked in a request. -/
def isWaiting (s : Locks S Val) (h : Nat) : Bool := s.waiting.any fun r => r.holder == h

def borrowsOn (σ : S) (rs : List (Request S)) : List Borrow :=
  (rs.filter fun r => r.cell = σ).map Request.borrow

def held (s : Locks S Val) (σ : S) : List Borrow := borrowsOn σ (s.guards.map Guard.toRequest)

def queued (s : Locks S Val) (σ : S) : List Borrow := borrowsOn σ s.waiting

/-- The guard of that number, if its holder runs. -/
def guard? (s : Locks S Val) (n : Nat) : Option (Guard S) :=
  s.guards.find? fun g => g.number == n && !s.isWaiting g.holder

def writes (g : Guard S) (h : Nat) (σ : S) : Bool :=
  g.holder == h && g.cell = σ && g.borrow = .exclusive

/-- The holder drops all its guards; in a panic the exclusive ones poison their cells. -/
def leave (impl : Impl) (s : Locks S Val) (h : Nat) (panicking : Bool) : Locks S Val :=
  { s with
    guards := s.guards.filter fun g => g.holder != h
    poisoned := fun σ =>
      s.poisoned σ || (impl.poisons && panicking && s.guards.any fun g => writes g h σ) }

def unqueue (s : Locks S Val) (h : Nat) : Locks S Val :=
  { s with waiting := s.waiting.filter fun r => r.holder != h }

def push (s : Locks S Val) (r : Request S) : Locks S Val :=
  { s with guards := s.guards ++ [⟨r, s.taken⟩], taken := s.taken + 1 }

/-- The lock is taken. The result is unwrapped, which panics on a poisoned lock. -/
def grant (impl : Impl) (s : Locks S Val) (r : Request S) : Locks S Val :=
  if impl.poisons && s.poisoned r.cell then (s.unqueue r.holder).leave impl r.holder true
  else (s.unqueue r.holder).push r

def record (s : Locks S Val) (n : Nat) (a : Access S Val) : Locks S Val :=
  { s with trace := s.trace ++ [(n, a)] }

def step (impl : Impl) (s : Locks S Val) : Action S Val → Option (Locks S Val)
  | .request r =>
    if s.isWaiting r.holder then none else some { s with waiting := s.waiting ++ [r] }
  | .grant h => (s.waiting.find? fun r => r.holder == h).bind fun r =>
    if impl.admits (s.held r.cell) (s.queued r.cell) r.borrow then some (s.grant impl r) else none
  | .read n σ => (s.guard? n).bind fun g =>
    if g.cell = σ then some (s.record n (.read σ (s.value σ))) else none
  | .write n σ f => (s.guard? n).bind fun g =>
    if g.cell = σ ∧ g.borrow = .exclusive then
      some { s.record n (.write σ f) with value := Function.update s.value σ (f (s.value σ)) }
    else none
  | .drop n => (s.guard? n).map fun g =>
    { s with guards := s.guards.filter fun k => k.number != g.number }
  | .leave h panicking => if s.isWaiting h then none else some (s.leave impl h panicking)

variable {impl : Impl} {s s' : Locks S Val} {a : Action S Val} {as : List (Action S Val)} {σ : S}
  {init : ∀ σ, Val σ}

/-- What a step can do, with the conditions it passed. -/
inductive Move (impl : Impl) (s : Locks S Val) : Action S Val → Locks S Val → Prop where
  | request (r : Request S) : s.isWaiting r.holder = false →
      Move impl s (.request r) { s with waiting := s.waiting ++ [r] }
  | grant (r : Request S) : r ∈ s.waiting →
      impl.admits (s.held r.cell) (s.queued r.cell) r.borrow = true →
      (impl.poisons && s.poisoned r.cell) = false →
      Move impl s (.grant r.holder) ((s.unqueue r.holder).push r)
  | refuse (r : Request S) : r ∈ s.waiting → impl.poisons = true → s.poisoned r.cell = true →
      Move impl s (.grant r.holder) ((s.unqueue r.holder).leave impl r.holder true)
  | read (g : Guard S) : g ∈ s.guards → s.isWaiting g.holder = false →
      Move impl s (.read g.number g.cell) (s.record g.number (.read g.cell (s.value g.cell)))
  | write (g : Guard S) (f : Val g.cell → Val g.cell) : g ∈ s.guards →
      s.isWaiting g.holder = false → g.borrow = .exclusive →
      Move impl s (.write g.number g.cell f) { s.record g.number (.write g.cell f) with
        value := Function.update s.value g.cell (f (s.value g.cell)) }
  | drop (g : Guard S) : g ∈ s.guards → s.isWaiting g.holder = false →
      Move impl s (.drop g.number)
        { s with guards := s.guards.filter fun k => k.number != g.number }
  | leave (h : Nat) (panicking : Bool) : s.isWaiting h = false →
      Move impl s (.leave h panicking) (s.leave impl h panicking)

omit [DecidableEq S] in
theorem guard?_eq_some {n : Nat} {g : Guard S} (h : s.guard? n = some g) :
    g ∈ s.guards ∧ g.number = n ∧ s.isWaiting g.holder = false := by
  refine ⟨List.mem_of_find?_eq_some h, ?_⟩
  simpa using List.find?_some h

theorem step_move (hStep : step impl s a = some s') : Move impl s a s' := by
  cases a with
  | request r =>
    simp only [step, Option.ite_none_left_eq_some, Option.some.injEq] at hStep
    obtain ⟨hWaiting, rfl⟩ := hStep
    exact .request r (Bool.eq_false_iff.mpr hWaiting)
  | grant h =>
    obtain ⟨r, hFind, hAdmit⟩ := Option.bind_eq_some_iff.mp hStep
    have hMem := List.mem_of_find?_eq_some hFind
    obtain rfl : r.holder = h := by simpa using List.find?_some hFind
    simp only [Option.ite_none_right_eq_some, Option.some.injEq] at hAdmit
    obtain ⟨hAdmits, rfl⟩ := hAdmit
    unfold grant
    split
    next hPoisoned =>
      obtain ⟨hPoisons, hCell⟩ := Bool.and_eq_true_iff.mp hPoisoned
      exact .refuse r hMem hPoisons hCell
    next hClean => exact .grant r hMem hAdmits (Bool.eq_false_iff.mpr hClean)
  | read n σ =>
    obtain ⟨g, hGuard, hRead⟩ := Option.bind_eq_some_iff.mp hStep
    obtain ⟨hMem, rfl, hHolder⟩ := guard?_eq_some hGuard
    simp only [Option.ite_none_right_eq_some, Option.some.injEq] at hRead
    obtain ⟨rfl, rfl⟩ := hRead
    exact .read g hMem hHolder
  | write n σ f =>
    obtain ⟨g, hGuard, hWrite⟩ := Option.bind_eq_some_iff.mp hStep
    obtain ⟨hMem, rfl, hHolder⟩ := guard?_eq_some hGuard
    simp only [Option.ite_none_right_eq_some, Option.some.injEq] at hWrite
    obtain ⟨⟨rfl, hExclusive⟩, rfl⟩ := hWrite
    exact .write g f hMem hHolder hExclusive
  | drop n =>
    obtain ⟨g, hGuard, rfl⟩ := Option.map_eq_some_iff.mp hStep
    obtain ⟨hMem, rfl, hHolder⟩ := guard?_eq_some hGuard
    exact .drop g hMem hHolder
  | leave h panicking =>
    simp only [step, Option.ite_none_left_eq_some, Option.some.injEq] at hStep
    obtain ⟨hWaiting, rfl⟩ := hStep
    exact .leave h panicking (Bool.eq_false_iff.mpr hWaiting)

/-! ### The accesses are serializable -/

/-- Two guards that can be out together. -/
def Compatible (g k : Guard S) : Prop := g.cell = k.cell → g.borrow.conflicts k.borrow = false

/-- A guard that keeps an access of somebody else away. -/
def Excludes (g : Guard S) (a : Access S Val) : Prop :=
  a.cell = g.cell ∧ (a.isWrite = true ∨ g.borrow = .exclusive)

/-- The guards that are out are compatible, no access was made since one of them was taken that it
excludes, and the accesses in order lead to the present values. -/
structure Ok (init : ∀ σ, Val σ) (s : Locks S Val) : Prop where
  guards : s.guards.Pairwise fun g k => g.number < k.number ∧ Compatible g k
  numbers : ∀ g ∈ s.guards, g.number < s.taken
  past : ∀ x ∈ s.trace, x.1 < s.taken ∧ ∀ g ∈ s.guards, g.number < x.1 → ¬ Excludes g x.2
  sortable : Sortable s.trace
  exec : Exec init (s.trace.map Prod.snd) s.value

theorem conflicts_comm (b c : Borrow) : b.conflicts c = c.conflicts b := by
  cases b <;> cases c <;> rfl

theorem conflicts_exclusive (b : Borrow) : Borrow.exclusive.conflicts b = true := by
  cases b <;> rfl

theorem Ok.compatible (h : s.Ok init) {g k : Guard S} (hg : g ∈ s.guards) (hk : k ∈ s.guards)
    (hNe : g.number ≠ k.number) : Compatible g k := by
  have hAll := h.guards.imp (S := fun g k => g.number = k.number ∨ Compatible g k)
    fun hPair => .inr hPair.2
  have : Std.Symm fun g k : Guard S => g.number = k.number ∨ Compatible g k := by
    refine ⟨fun g k hEither => hEither.imp Eq.symm fun hPair hCell => ?_⟩
    exact (conflicts_comm _ _).trans (hPair hCell.symm)
  exact (hAll.forall_of_forall (fun _ _ => .inl rfl) hg hk).resolve_left hNe

theorem Ok.eq (h : s.Ok init) {g k : Guard S} (hg : g ∈ s.guards) (hk : k ∈ s.guards)
    (hNumber : g.number = k.number) : g = k := by
  have hAll := h.guards.imp (S := fun g k => g.number = k.number → g = k)
    fun hPair hEq => (Nat.ne_of_lt hPair.1 hEq).elim
  have : Std.Symm fun g k : Guard S => g.number = k.number → g = k :=
    ⟨fun g k hPair hEq => (hPair hEq.symm).symm⟩
  exact hAll.forall_of_forall (fun _ _ _ => rfl) hg hk hNumber

/-- The guards that are left when some are dropped. -/
theorem Ok.of_sublist (h : s.Ok init) {guards : List (Guard S)} (hSub : guards.Sublist s.guards)
    {poisoned : S → Bool} {waiting : List (Request S)} :
    Ok init { s with guards := guards, poisoned := poisoned, waiting := waiting } where
  guards := h.guards.sublist hSub
  numbers g hMem := h.numbers g (hSub.subset hMem)
  past x hMem := ⟨(h.past x hMem).1, fun g hg => (h.past x hMem).2 g (hSub.subset hg)⟩
  sortable := h.sortable
  exec := h.exec

theorem mem_borrowsOn {rs : List (Request S)} {b : Borrow} :
    b ∈ borrowsOn σ rs ↔ ∃ r ∈ rs, r.cell = σ ∧ r.borrow = b := by
  simp [borrowsOn, and_assoc]

theorem mem_held {b : Borrow} : b ∈ s.held σ ↔ ∃ g ∈ s.guards, g.cell = σ ∧ g.borrow = b := by
  simp [held, mem_borrowsOn]

theorem Ok.push (h : s.Ok init) {r : Request S}
    (hFree : ∀ g ∈ s.guards, g.cell = r.cell → g.borrow.conflicts r.borrow = false) :
    (s.push r).Ok init where
  guards := by
    refine List.pairwise_append.mpr ⟨h.guards, List.pairwise_singleton .., fun g hg k hk => ?_⟩
    obtain rfl := List.mem_singleton.mp hk
    exact ⟨h.numbers g hg, hFree g hg⟩
  numbers g hMem := by
    rcases List.mem_append.mp hMem with hMem | hMem
    · exact Nat.lt_succ_of_lt (h.numbers g hMem)
    · obtain rfl := List.mem_singleton.mp hMem
      exact Nat.lt_succ_self _
  past x hMem := by
    have hOld := h.past x hMem
    refine ⟨Nat.lt_succ_of_lt hOld.1, fun g hg hLater => ?_⟩
    rcases List.mem_append.mp hg with hg | hg
    · exact hOld.2 g hg hLater
    · obtain rfl := List.mem_singleton.mp hg
      exact (Nat.lt_asymm hOld.1 hLater).elim
  sortable := h.sortable
  exec := h.exec

/-- An access through a guard that allows it. -/
theorem Ok.access (h : s.Ok init) {g : Guard S} (hMem : g ∈ s.guards) {a : Access S Val}
    (hCell : a.cell = g.cell) (hAllowed : a.isWrite = true → g.borrow = .exclusive)
    {value : ∀ σ, Val σ} (hStep : a.Step s.value value) :
    Ok init { s.record g.number a with value := value } where
  guards := h.guards
  numbers := h.numbers
  past x hx := by
    rcases List.mem_append.mp hx with hx | hx
    · exact h.past x hx
    · obtain rfl := List.mem_singleton.mp hx
      refine ⟨h.numbers g hMem, fun k hk hEarlier hExcludes => ?_⟩
      have hPair := h.compatible hk hMem (Nat.ne_of_lt hEarlier)
        (hExcludes.1.symm.trans hCell)
      rcases hExcludes.2 with hWrite | hExclusive
      · rw [hAllowed hWrite, conflicts_comm, conflicts_exclusive] at hPair
        cases hPair
      · rw [hExclusive, conflicts_exclusive] at hPair
        cases hPair
  sortable := by
    refine List.pairwise_append.mpr ⟨h.sortable, List.pairwise_singleton .., fun x hx y hy => ?_⟩
    obtain rfl := List.mem_singleton.mp hy
    intro hLater hConflict
    refine (h.past x hx).2 g hMem hLater ⟨hConflict.1.trans hCell, ?_⟩
    exact hConflict.2.imp_right hAllowed
  exec := by
    simpa [record] using h.exec.snoc hStep

theorem Ok.move (hLawful : impl.Lawful) (h : s.Ok init) (hMove : Move impl s a s') :
    s'.Ok init := by
  cases hMove with
  | request r => exact h.of_sublist (.refl _)
  | grant r hMem hAdmits =>
    have hUnqueued : (s.unqueue r.holder).Ok init := h.of_sublist (.refl _)
    refine hUnqueued.push fun g hg hCell => ?_
    exact hLawful.excludes _ _ _ hAdmits g.borrow (mem_held.mpr ⟨g, hg, hCell, rfl⟩)
  | refuse r => exact h.of_sublist List.filter_sublist
  | read g hMem => exact h.access hMem rfl (by simp [Access.isWrite]) (.read g.cell)
  | write g f hMem _ hExclusive => exact h.access hMem rfl (fun _ => hExclusive) (.write g.cell f)
  | drop g => exact h.of_sublist List.filter_sublist
  | leave k panicking => exact h.of_sublist List.filter_sublist

theorem Ok.new (init : ∀ σ, Val σ) : (new init).Ok init :=
  ⟨.nil, by simp [Locks.new], by simp [Locks.new], .nil, .nil init⟩

/-- The accesses that were made, put in the order in which their guards were taken, lead from the
first values to the present ones. -/
theorem Ok.exec_serial (h : s.Ok init) :
    Exec init ((serial s.trace).map Prod.snd) s.value :=
  h.sortable.exec_serial h.exec

/-! ### A panic under a write lock -/

/-- The step unwinds a holder: one that panics, or one whose lock turns out to be poisoned. -/
def Unwinds (impl : Impl) (s : Locks S Val) (h : Nat) : Action S Val → Prop
  | .leave k panicking => k = h ∧ panicking = true
  | .grant k => k = h ∧ impl.poisons = true ∧
      ∃ r ∈ s.waiting, r.holder = h ∧ s.poisoned r.cell = true
  | _ => False

/-- The step unwinds a holder with a write lock on the cell. -/
def UnwindsWriter (impl : Impl) (σ : S) (s : Locks S Val) (a : Action S Val) : Prop :=
  ∃ g ∈ s.guards, g.cell = σ ∧ g.borrow = .exclusive ∧ Unwinds impl s g.holder a

/-- Nobody waits twice. -/
def Single (s : Locks S Val) : Prop := s.waiting.Pairwise fun r q => r.holder ≠ q.holder

theorem Single.move (h : s.Single) (hMove : Move impl s a s') : s'.Single := by
  cases hMove with
  | request r hIdle =>
    refine List.pairwise_append.mpr ⟨h, List.pairwise_singleton .., fun q hq k hk => ?_⟩
    obtain rfl := List.mem_singleton.mp hk
    simpa using List.any_eq_false.mp hIdle q hq
  | grant r => exact h.sublist List.filter_sublist
  | refuse r => exact h.sublist List.filter_sublist
  | _ => exact h

omit [DecidableEq S] in
theorem Single.eq (h : s.Single) {r q : Request S} (hr : r ∈ s.waiting) (hq : q ∈ s.waiting)
    (hHolder : r.holder = q.holder) : r = q := by
  have hAll := h.imp (S := fun r q => r.holder = q.holder → r = q) fun hNe hEq => (hNe hEq).elim
  have : Std.Symm fun r q : Request S => r.holder = q.holder → r = q :=
    ⟨fun r q hPair hEq => (hPair hEq.symm).symm⟩
  exact hAll.forall_of_forall (fun _ _ _ => rfl) hr hq hHolder

theorem poisoned_leave {h : Nat} {panicking : Bool} :
    (s.leave impl h panicking).poisoned σ = true ↔ s.poisoned σ = true ∨ impl.poisons = true ∧
      panicking = true ∧ ∃ g ∈ s.guards, g.holder = h ∧ g.cell = σ ∧ g.borrow = .exclusive := by
  simp [leave, writes, and_assoc]

/-- A cell becomes poisoned in the step that unwinds a writer of it, and in no other. -/
theorem Single.poisoned (h : s.Single) (hMove : Move impl s a s') :
    s'.poisoned σ = true ↔
      s.poisoned σ = true ∨ impl.poisons = true ∧ UnwindsWriter impl σ s a := by
  cases hMove with
  | grant r hMem _ hClean =>
    -- the only request of this holder is the one that was granted
    have hNone : ¬ (impl.poisons = true ∧ UnwindsWriter impl σ s (.grant r.holder)) := by
      rintro ⟨hPoisons, g, -, -, -, hHolder, -, q, hq, hSame, hPoisoned⟩
      obtain rfl := h.eq hq hMem (hSame.trans hHolder.symm)
      simp [hPoisons, hPoisoned] at hClean
    exact (or_iff_left hNone).symm
  | refuse r hMem hPoisons hPoisoned =>
    rw [poisoned_leave]
    refine or_congr_right (and_congr_right fun _ => ?_)
    constructor
    · rintro ⟨-, g, hg, hHolder, hCell, hExclusive⟩
      exact ⟨g, hg, hCell, hExclusive, hHolder.symm, hPoisons, r, hMem, hHolder.symm, hPoisoned⟩
    · rintro ⟨g, hg, hCell, hExclusive, hHolder, -⟩
      exact ⟨rfl, g, hg, hHolder.symm, hCell, hExclusive⟩
  | leave k panicking =>
    rw [poisoned_leave]
    refine or_congr_right (and_congr_right fun _ => ?_)
    constructor
    · rintro ⟨hPanicking, g, hg, hHolder, hCell, hExclusive⟩
      exact ⟨g, hg, hCell, hExclusive, hHolder.symm, hPanicking⟩
    · rintro ⟨g, hg, hCell, hExclusive, hHolder, hPanicking⟩
      exact ⟨hPanicking, g, hg, hHolder.symm, hCell, hExclusive⟩
  | _ => simp [UnwindsWriter, Unwinds, record]

omit [DecidableEq S] in
theorem Single.new (init : ∀ σ, Val σ) : (new init).Single := .nil

/-- Nobody has a guard on a poisoned cell. -/
structure Sealed (impl : Impl) (s : Locks S Val) : Prop where
  poisons : ∀ σ, s.poisoned σ = true → impl.poisons = true
  free : ∀ σ, s.poisoned σ = true → ∀ g ∈ s.guards, g.cell ≠ σ

omit [DecidableEq S] in
theorem Sealed.of_subset (h : s.Sealed impl) {guards : List (Guard S)} (hSub : guards ⊆ s.guards)
    {value : ∀ σ, Val σ} {waiting : List (Request S)} {trace : List (Nat × Access S Val)} :
    Sealed impl { s with
      value := value, guards := guards, waiting := waiting, trace := trace } :=
  ⟨h.poisons, fun σ hPoisoned g hg => h.free σ hPoisoned g (hSub hg)⟩

/-- The writer that is unwound was alone on its cell. -/
theorem Sealed.leave (h : s.Sealed impl) (hOk : s.Ok init) (k : Nat) (panicking : Bool) :
    (s.leave impl k panicking).Sealed impl := by
  refine ⟨fun σ hPoisoned => ?_, fun σ hPoisoned g hg => ?_⟩
  · rcases poisoned_leave.mp hPoisoned with hOld | ⟨hPoisons, -⟩
    · exact h.poisons σ hOld
    · exact hPoisons
  · obtain ⟨hg, hOther⟩ := List.mem_filter.mp hg
    rcases poisoned_leave.mp hPoisoned with hOld | ⟨-, -, w, hw, hHolder, hCell, hExclusive⟩
    · exact h.free σ hOld g hg
    · intro hSame
      have hNe : w.number ≠ g.number := by
        intro hNumber
        obtain rfl := hOk.eq hw hg hNumber
        simp [hHolder] at hOther
      have hPair := hOk.compatible hw hg hNe (hCell.trans hSame.symm)
      rw [hExclusive, conflicts_exclusive] at hPair
      cases hPair

theorem Sealed.move (h : s.Sealed impl) (hOk : s.Ok init) (hMove : Move impl s a s') :
    s'.Sealed impl := by
  cases hMove with
  | grant r _ _ hClean =>
    refine ⟨h.poisons, fun σ hPoisoned g hg => ?_⟩
    rcases List.mem_append.mp hg with hg | hg
    · exact h.free σ hPoisoned g hg
    · obtain rfl := List.mem_singleton.mp hg
      rintro rfl
      have hOld : s.poisoned r.cell = true := hPoisoned
      simp [h.poisons _ hOld, hOld] at hClean
  | refuse r =>
    have hUnqueued : (s.unqueue r.holder).Ok init := hOk.of_sublist (.refl _)
    have hSealed : (s.unqueue r.holder).Sealed impl := h.of_subset fun _ hg => hg
    exact hSealed.leave hUnqueued r.holder true
  | leave k panicking => exact h.leave hOk k panicking
  | drop g => exact h.of_subset (List.filter_subset_self _)
  | _ => exact h.of_subset fun _ hg => hg

/-- The accesses that were made to a cell. -/
def accesses (s : Locks S Val) (σ : S) : List (Nat × Access S Val) :=
  s.trace.filter fun x => x.2.cell = σ

/-- Nothing happens to a cell that nobody has a guard on. -/
theorem Move.frame (hMove : Move impl s a s') (hFree : ∀ g ∈ s.guards, g.cell ≠ σ) :
    s'.value σ = s.value σ ∧ s'.accesses σ = s.accesses σ := by
  cases hMove with
  | read g hg => simp [record, accesses, Access.cell, hFree g hg]
  | write g f hg =>
    have hNe := hFree g hg
    simp [record, accesses, Access.cell, hNe, Function.update_of_ne hNe.symm]
  | _ => exact ⟨rfl, rfl⟩

/-- What the locks keep up in every run. -/
structure Sound (impl : Impl) (init : ∀ σ, Val σ) (s : Locks S Val) : Prop where
  ok : s.Ok init
  single : s.Single
  isSealed : s.Sealed impl

theorem Sound.move (hLawful : impl.Lawful) (h : s.Sound impl init) (hMove : Move impl s a s') :
    s'.Sound impl init :=
  ⟨h.ok.move hLawful hMove, h.single.move hMove, h.isSealed.move h.ok hMove⟩

theorem Sound.new (impl : Impl) (init : ∀ σ, Val σ) : (new init).Sound impl init :=
  ⟨.new init, .new init, by simp [Locks.new], by simp [Locks.new]⟩

/-- The cell is poisoned, and has its value and its accesses since then. -/
structure Dead (impl : Impl) (init : ∀ σ, Val σ) (σ : S) (value : Val σ)
    (accesses : List (Nat × Access S Val)) (s : Locks S Val) : Prop where
  sound : s.Sound impl init
  poisoned : s.poisoned σ = true
  value_eq : s.value σ = value
  accesses_eq : s.accesses σ = accesses

/-- A poisoned cell stays poisoned, and keeps its value: no access is ever made to it. -/
theorem Dead.move (hLawful : impl.Lawful) {value : Val σ} {accesses : List (Nat × Access S Val)}
    (h : s.Dead impl init σ value accesses) (hMove : Move impl s a s') :
    s'.Dead impl init σ value accesses := by
  obtain ⟨hSame, hNone⟩ := hMove.frame (h.sound.isSealed.free σ h.poisoned)
  exact ⟨h.sound.move hLawful hMove, (h.sound.single.poisoned hMove).mpr (.inl h.poisoned),
    hSame.trans h.value_eq, hNone.trans h.accesses_eq⟩

/-! ### Waiting -/

variable {rank : S → Nat}

/-- Whoever asks for a lock holds guards of a smaller rank only. -/
def Climbing (rank : S → Nat) (s : Locks S Val) : Action S Val → Prop
  | .request r => ∀ g ∈ s.guards, g.holder = r.holder → rank g.cell < rank r.cell
  | _ => True

/-- Those who wait hold guards of a smaller rank only. -/
structure Climbs (rank : S → Nat) (s : Locks S Val) : Prop where
  single : s.Single
  up : ∀ r ∈ s.waiting, ∀ g ∈ s.guards, g.holder = r.holder → rank g.cell < rank r.cell

omit [DecidableEq S] in
theorem Climbs.of_subset (h : s.Climbs rank) {guards : List (Guard S)} {waiting : List (Request S)}
    (hWaiting : waiting.Sublist s.waiting) (hSub : guards ⊆ s.guards) {value : ∀ σ, Val σ}
    {poisoned : S → Bool} {trace : List (Nat × Access S Val)} :
    Climbs rank { s with
      value := value, guards := guards, waiting := waiting, poisoned := poisoned,
      trace := trace } :=
  ⟨h.single.sublist hWaiting, fun r hr g hg => h.up r (hWaiting.subset hr) g (hSub hg)⟩

theorem Climbs.move (h : s.Climbs rank) (hClimbing : s.Climbing rank a) (hMove : Move impl s a s') :
    s'.Climbs rank := by
  refine ⟨h.single.move hMove, ?_⟩
  cases hMove with
  | request r =>
    intro q hq g hg hHolder
    rcases List.mem_append.mp hq with hq | hq
    · exact h.up q hq g hg hHolder
    · obtain rfl := List.mem_singleton.mp hq
      exact hClimbing g hg hHolder
  | grant r =>
    -- the holder of the new guard does not wait any more
    intro q hq g hg hHolder
    obtain ⟨hq, hOther⟩ := List.mem_filter.mp hq
    rcases List.mem_append.mp hg with hg | hg
    · exact h.up q hq g hg hHolder
    · obtain rfl := List.mem_singleton.mp hg
      have hSame : q.holder = r.holder := hHolder.symm
      simp [hSame] at hOther
  | refuse r => exact (h.of_subset List.filter_sublist (List.filter_subset_self _)).up
  | drop g => exact (h.of_subset (.refl _) (List.filter_subset_self _)).up
  | leave k panicking => exact (h.of_subset (.refl _) (List.filter_subset_self _)).up
  | _ => exact h.up

/-- The actions that only finish what is under way. -/
def Finishing : Action S Val → Prop
  | .grant _ | .drop _ => True
  | _ => False

/-- The locks that are still to be taken or dropped. -/
def pending (s : Locks S Val) : Nat := 2 * s.waiting.length + s.guards.length

theorem length_filter_lt {α : Type*} {p : α → Bool} {l : List α} {x : α} (hMem : x ∈ l)
    (hNot : p x = false) : (l.filter p).length < l.length :=
  List.length_filter_lt_length_iff_exists.mpr ⟨x, hMem, by simp [hNot]⟩

omit [DecidableEq S] in
theorem Single.find? (h : s.Single) {r : Request S} (hMem : r ∈ s.waiting) :
    s.waiting.find? (fun q => q.holder == r.holder) = some r := by
  cases hFind : s.waiting.find? fun q => q.holder == r.holder with
  | none => simpa using List.find?_eq_none.mp hFind r hMem
  | some q =>
    have hHolder : q.holder = r.holder := by simpa using List.find?_some hFind
    rw [h.eq (List.mem_of_find?_eq_some hFind) hMem hHolder]

/-- When all who have guards wait, each for a cell of greater rank than those it has guards of,
nobody has a guard on the cell of greatest rank that is waited for, so its lock lets somebody
in. -/
theorem exists_admitted {impl : S → Impl} (hLawful : ∀ σ, (impl σ).Lawful)
    (guards waiting : List (Request S))
    (hUp : ∀ r ∈ waiting, ∀ g ∈ guards, g.holder = r.holder → rank g.cell < rank r.cell)
    (hAllWait : ∀ g ∈ guards, ∃ r ∈ waiting, r.holder = g.holder) (hWaiting : waiting ≠ []) :
    ∃ r ∈ waiting, (impl r.cell).admits (borrowsOn r.cell guards) (borrowsOn r.cell waiting)
      r.borrow = true := by
  obtain ⟨r, hArgmax⟩ := Option.ne_none_iff_exists'.mp
    (mt List.argmax_eq_none.mp hWaiting : waiting.argmax (fun r => rank r.cell) ≠ none)
  have hr : r ∈ waiting := List.argmax_mem hArgmax
  have hFree : borrowsOn r.cell guards = [] := by
    refine List.eq_nil_iff_forall_not_mem.mpr fun b hb => ?_
    obtain ⟨g, hg, hCell, -⟩ := mem_borrowsOn.mp hb
    obtain ⟨q, hq, hHolder⟩ := hAllWait g hg
    have hLess := hUp q hq g hg hHolder.symm
    have hMost : rank q.cell ≤ rank r.cell :=
      List.le_of_mem_argmax (f := fun q => rank q.cell) hq hArgmax
    rw [hCell] at hLess
    omega
  have hQueued : borrowsOn r.cell waiting ≠ [] :=
    List.ne_nil_of_mem (mem_borrowsOn.mpr ⟨r, hr, rfl, rfl⟩)
  obtain ⟨b, hb, hAdmits⟩ := (hLawful r.cell).free _ hQueued
  obtain ⟨q, hq, hCell, rfl⟩ := mem_borrowsOn.mp hb
  exact ⟨q, hq, by rw [hCell, hFree]; exact hAdmits⟩

/-- As long as somebody waits or has a guard, somebody can go on: a holder that does not wait can
drop its guards, and when all holders wait, somebody is let in. -/
theorem Climbs.exists_finishing (h : s.Climbs rank) (hLawful : impl.Lawful)
    (hUnderWay : s.waiting ≠ [] ∨ s.guards ≠ []) :
    ∃ a, Finishing a ∧ step impl s a ≠ none := by
  by_cases hRuns : ∃ g ∈ s.guards, s.isWaiting g.holder = false
  · obtain ⟨g, hg, hHolder⟩ := hRuns
    refine ⟨.drop g.number, trivial, ?_⟩
    have hSome : (s.guard? g.number).isSome :=
      List.find?_isSome.mpr ⟨g, hg, by simp [hHolder]⟩
    obtain ⟨k, hk⟩ := Option.isSome_iff_exists.mp hSome
    simp [step, hk]
  · have hAllWait : ∀ g ∈ s.guards, ∃ r ∈ s.waiting, r.holder = g.holder := fun g hg => by
      simpa [isWaiting] using Bool.eq_true_of_not_eq_false fun hIdle => hRuns ⟨g, hg, hIdle⟩
    have hWaiting : s.waiting ≠ [] := by
      rcases hUnderWay with hWaiting | hGuards
      · exact hWaiting
      · obtain ⟨g, hg⟩ := List.exists_mem_of_ne_nil _ hGuards
        obtain ⟨r, hr, -⟩ := hAllWait g hg
        exact List.ne_nil_of_mem hr
    obtain ⟨r, hr, hAdmits⟩ := exists_admitted (fun _ => hLawful) (s.guards.map Guard.toRequest)
      s.waiting (by simpa using h.up) (by simpa using hAllWait) hWaiting
    refine ⟨.grant r.holder, trivial, ?_⟩
    have hEnters : impl.admits (s.held r.cell) (s.queued r.cell) r.borrow = true := hAdmits
    simp [step, h.single.find? hr, hEnters]

end Locks

end RwLock
