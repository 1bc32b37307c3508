import Emyu.Signal.Destroyed
import Emyu.Signal.Join

/-! When a joined signal follows its inputs: what the task read of an input is its value unless
something will make it read again, provided that no flush falls between the block's read and its
subscription; the output's subscribers know of it once somebody has flushed it. -/

namespace Emyu

open Runs

namespace Threads

variable {α : Type} {full : List SignalStatus → Bool} {s s' : Threads α} {a : Atomic α} {c : Nat}
  {v : α}

/-- A thread that will make the next flush, or is making one that has not locked the list. -/
def Announcing : Pc → Prop
  | .storing => True
  | .swapped => True
  | _ => False

/-- Where `v` is not the value, a flush is still to come. -/
def Pending (v : α) (s : Threads α) : Prop :=
  s.repr.data = v ∨ s.repr.dirty = true ∨ ∃ t, Announcing (s.pc t)

theorem Pending.keep (h : s.Pending v) (hData : s'.repr.data = s.repr.data)
    (hDirty : s'.repr.dirty = s.repr.dirty)
    (hPc : (∃ t, Announcing (s.pc t)) → ∃ t, Announcing (s'.pc t)) : s'.Pending v := by
  rcases h with h | h | h
  · exact .inl (hData.trans h)
  · exact .inr (.inl (hDirty.trans h))
  · exact .inr (.inr (hPc h))

/-- A flush that locks the list with another value than `v` is the only way to lose it. -/
theorem Pending.move (h : s.Pending v) (hMove : Move full s a s')
    (hLock : ∀ t, a = .lockFlush t → s.repr.data = v) : s'.Pending v := by
  have hStay {t : Nat} {p : Pc} (hPc : ¬Announcing (s.pc t)) (hAt : ∃ u, Announcing (s.pc u)) :
      ∃ u, Announcing ((s.goto t p).pc u) := exists_goto hAt fun h => (hPc h).elim
  cases hMove with
  | write t f => exact .inr (.inr ⟨t, by simp [goto, Announcing]⟩)
  | storeDirty t => exact .inr (.inl rfl)
  | swapDirty t => exact .inr (.inr ⟨t, by simp [goto, Announcing]⟩)
  | swapClean t => exact h
  | lockFlush t => exact .inl (hLock t rfl)
  | sendChanged t j rest hPc => exact h.keep rfl rfl (hStay (by simp [hPc, Announcing]))
  | prune t hPc => exact h.keep rfl rfl (hStay (by simp [hPc, Announcing]))
  | lockDrop t subscriber hPc => exact h.keep rfl rfl (hStay (by simp [hPc, Announcing]))
  | sendDestroyed t j rest subscriber hPc =>
    exact h.keep rfl rfl (hStay (by simp [hPc, Announcing]))
  | unlockDrop t hPc => exact h.keep rfl rfl (hStay (by simp [hPc, Announcing]))
  | unlockSubscriber t j hPc => exact h.keep rfl rfl (hStay (by simp [hPc, Announcing]))
  | closeReceiver t j hPc => exact h.keep rfl rfl (hStay (by simp [hPc, Announcing]))
  | subscribe => exact h.keep rfl rfl id
  | recv => exact h.keep rfl rfl id
  | read => exact h.keep rfl rfl id

/-- The thread is dropping subscriber `j`. -/
def closes (j : Nat) : Pc → Prop
  | .dropping _ (some i) => i = j
  | .closing i => i = j
  | _ => False

/-- Only subscribers that exist are being dropped. -/
def Sane (s : Threads α) : Prop := ∀ t j, closes j (s.pc t) → j < s.repr.channels

/-- A thread moves on to where it closes nothing else. -/
theorem closes_goto {t u j : Nat} {p : Pc} (hKeep : closes j p → closes j (s.pc t))
    (h : closes j ((s.goto t p).pc u)) : ∃ u, closes j (s.pc u) := by
  by_cases hut : u = t
  · subst hut
    exact ⟨u, hKeep (by simpa [goto] using h)⟩
  · exact ⟨u, by simpa [goto, Function.update_of_ne hut] using h⟩

/-- Who closes a subscriber after a step did before, or begins to drop it. -/
theorem Move.closes {t j : Nat} (hMove : Move full s a s') (h : closes j (s'.pc t)) :
    (∃ u, Threads.closes j (s.pc u)) ∨ ∃ u, a = .lockDrop u (some j) := by
  cases hMove with
  | write u f => exact .inl (closes_goto (by simp [Threads.closes]) h)
  | storeDirty u => exact .inl (closes_goto (by simp [Threads.closes]) h)
  | swapDirty u => exact .inl (closes_goto (by simp [Threads.closes]) h)
  | lockFlush u => exact .inl (closes_goto (by simp [Threads.closes]) h)
  | sendChanged u i rest => exact .inl (closes_goto (by simp [Threads.closes]) h)
  | prune u => exact .inl (closes_goto (by simp [Threads.closes]) h)
  | lockDrop u subscriber hPc =>
    by_cases hSub : subscriber = some j
    · exact .inr ⟨u, by rw [hSub]⟩
    · refine .inl (closes_goto (fun hp => ?_) h)
      cases subscriber with
      | none => exact hp.elim
      | some i => exact (hSub (congrArg some hp)).elim
  | sendDestroyed u i rest subscriber hPc =>
    refine .inl (closes_goto (fun hp => ?_) h)
    rw [hPc]
    cases subscriber with
    | none => exact hp.elim
    | some k => exact hp
  | unlockDrop u => exact .inl (closes_goto (by simp [Threads.closes]) h)
  | unlockSubscriber u i hPc =>
    refine .inl (closes_goto (fun hp => ?_) h)
    rw [hPc]
    exact hp
  | closeReceiver u i => exact .inl (closes_goto (by simp [Threads.closes]) h)
  | swapClean | subscribe | recv | read => exact .inl ⟨t, h⟩

theorem Move.channels (hMove : Move full s a s') : s.repr.channels ≤ s'.repr.channels := by
  cases hMove with
  | subscribe => exact Nat.le_succ _
  | _ => exact Nat.le_refl _

theorem Sane.move (h : s.Sane) (hMove : Move full s a s')
    (hDrop : ∀ t j, a = .lockDrop t (some j) → j < s.repr.channels) : s'.Sane := by
  intro t j hAt
  refine Nat.lt_of_lt_of_le ?_ hMove.channels
  rcases hMove.closes hAt with ⟨u, hOld⟩ | ⟨u, hNew⟩
  · exact h u j hOld
  · exact hDrop u j hNew

/-- A live subscriber that nobody is dropping. -/
structure Kept (c : Nat) (s : Threads α) : Prop where
  isOpen : (s.repr.channel c).isOpen = true
  safe : ∀ t, ¬closes c (s.pc t)

theorem send_isOpen {status : SignalStatus} {r : SignalRepr α} {i j : Nat} :
    ((send full status i r).channel j).isOpen = (r.channel j).isOpen := by
  by_cases hji : j = i
  · subst hji; simp [send]
  · simp [send, Function.update_of_ne hji]

theorem Kept.move (h : s.Kept c) (hMove : Move full s a s')
    (hDrop : ∀ t, a ≠ .lockDrop t (some c)) (hFresh : c < s.repr.channels) : s'.Kept c where
  safe t hAt := by
    rcases hMove.closes hAt with ⟨u, hOld⟩ | ⟨u, hNew⟩
    · exact h.safe u hOld
    · exact hDrop u hNew
  isOpen := by
    cases hMove with
    | sendChanged => exact send_isOpen.trans h.isOpen
    | sendDestroyed => exact send_isOpen.trans h.isOpen
    | closeReceiver t j hPc =>
      have hcj : c ≠ j := by
        rintro rfl
        exact h.safe t (by rw [hPc]; rfl)
      simpa [SignalRepr.closeReceiver, Function.update_of_ne hcj] using h.isOpen
    | subscribe =>
      simpa [SignalRepr.subscribe, Function.update_of_ne (Nat.ne_of_lt hFresh)] using h.isOpen
    | recv j =>
      by_cases hcj : c = j
      · subst hcj; simpa using h.isOpen
      · simpa [Function.update_of_ne hcj] using h.isOpen
    | _ => exact h.isOpen

/-- What a subscriber does nobody else does for it. -/
theorem Move.reads (hMove : Move full s a s') (hRecv : a ≠ .recv c) (hRead : a ≠ .read c)
    (hFresh : c < s.repr.channels) :
    s'.toRead c = s.toRead c ∧ s'.lastRead c = s.lastRead c := by
  cases hMove with
  | subscribe => exact ⟨Function.update_of_ne (Nat.ne_of_lt hFresh) _ _, rfl⟩
  | recv j =>
    have hcj : c ≠ j := fun h => hRecv (h ▸ rfl)
    exact ⟨Function.update_of_ne hcj _ _, rfl⟩
  | read j =>
    have hcj : c ≠ j := fun h => hRead (h ▸ rfl)
    exact ⟨Function.update_of_ne hcj _ _, Function.update_of_ne hcj _ _⟩
  | _ => exact ⟨rfl, rfl⟩

theorem Move.data (hMove : Move full s a s') (hWrite : ∀ t f, a ≠ .write t f) :
    s'.repr.data = s.repr.data := by
  cases hMove with
  | write t f => exact (hWrite t f rfl).elim
  | _ => rfl

theorem Told.heard {j : Nat} (h : s.Told j) (hSettled : s.Settled) : s.Heard j := by
  rcases h with h | h | h | h | ⟨t, h⟩
  · exact .inl h
  · exact .inr (.inl h)
  · exact .inr (.inr h)
  · rw [hSettled.1] at h
    cases h
  · exact (hSettled.2 t j h).elim

/-- Between writes a subscriber that has heard stays so. -/
theorem Move.heard (hMove : Move full s a s') (hWrite : ∀ t f, a ≠ .write t f)
    (h : ∀ j, (s.repr.channel j).isOpen = true → s.Heard j) {j : Nat}
    (hOpen : (s'.repr.channel j).isOpen = true) : s'.Heard j := by
  have hQueue {status : SignalStatus} {i : Nat} (hj : s.Heard j) :
      s.toRead j = true ∨ ((send full status i s.repr).channel j).queue ≠ [] ∨
        s.lastRead j = some s.repr.data := by
    rcases hj with hj | hj | hj
    · exact .inl hj
    · exact .inr (.inl (send_queue_ne hj))
    · exact .inr (.inr hj)
  cases hMove with
  | write t f => exact (hWrite t f rfl).elim
  | sendChanged => exact hQueue (h j (send_isOpen ▸ hOpen))
  | sendDestroyed => exact hQueue (h j (send_isOpen ▸ hOpen))
  | closeReceiver t i =>
    have hji : j ≠ i := by
      rintro rfl
      simp [SignalRepr.closeReceiver] at hOpen
    simp only [SignalRepr.closeReceiver, Function.update_of_ne hji] at hOpen
    simpa [Heard, goto, SignalRepr.closeReceiver, Function.update_of_ne hji] using h j hOpen
  | subscribe =>
    by_cases hn : j = s.repr.channels
    · exact .inl (by simp [hn])
    · simp only [SignalRepr.subscribe, Function.update_of_ne hn] at hOpen
      simpa [Heard, SignalRepr.subscribe, Function.update_of_ne hn] using h j hOpen
  | recv i =>
    by_cases hji : j = i
    · exact .inl (by simp [hji])
    · simp only [Function.update_of_ne hji] at hOpen
      simpa [Heard, Function.update_of_ne hji] using h j hOpen
  | read i =>
    by_cases hji : j = i
    · exact .inr (.inr (by simp [hji]))
    · simpa [Heard, Function.update_of_ne hji] using h j hOpen
  | _ => exact h j hOpen

end Threads

namespace Join

open Threads
open SignalHistory (twoFull)

section Input

variable {α : Type} {full : List SignalStatus → Bool} {r r' : Threads α} {a : Atomic α} {c : Nat}
  {v : α} {sub : Option Nat} {missing owed missing' owed' : Prop}

/-- What the join keeps of one input: `v` is what it read there last, in the window of `missing` it
has not subscribed yet, and it reads again while `owed`. -/
structure Tracked (sub : Option Nat) (v : α) (missing owed : Prop) (r : Threads α) : Prop where
  inv : r.Inv
  sane : r.Sane
  pending : missing → r.Pending v
  kept : ∀ c, sub = some c → r.Kept c
  last : ∀ c, sub = some c → r.toRead c = false → r.lastRead c = some v
  unread : ∀ c, sub = some c → r.toRead c = true → owed

theorem Tracked.mono (h : Tracked sub v missing owed r) (hMissing : missing' → missing)
    (hOwed : owed → owed') : Tracked sub v missing' owed' r :=
  ⟨h.inv, h.sane, fun hm => h.pending (hMissing hm), h.kept, h.last,
    fun c hc hRead => hOwed (h.unread c hc hRead)⟩

/-- A subscriber that is there has a channel. -/
theorem Tracked.fresh (h : Tracked sub v missing owed r) (hc : sub = some c) :
    c < r.repr.channels :=
  h.inv.well.bound c (h.inv.well.live c (h.kept c hc).isOpen)

/-- A step of others on the input. -/
theorem Tracked.move (hFull : ∀ q, full q = true → q ≠ []) (h : Tracked sub v missing owed r)
    (hMove : Move full r a r') (hForeign : foreign sub r a = true)
    (hLock : ∀ t, a = .lockFlush t → missing → r.repr.data = v) :
    Tracked sub v missing owed r' := by
  have hReads : ∀ c, sub = some c → r'.toRead c = r.toRead c ∧ r'.lastRead c = r.lastRead c := by
    rintro c rfl
    refine hMove.reads ?_ ?_ (h.fresh rfl)
    · rintro rfl
      simp [foreign] at hForeign
    · rintro rfl
      simp [foreign] at hForeign
  refine ⟨h.inv.move hFull hMove, h.sane.move hMove ?_, fun hm => ?_, ?_, ?_, ?_⟩
  · rintro t j rfl
    simp only [foreign, decide_eq_true_eq] at hForeign
    exact hForeign.2
  · exact (h.pending hm).move hMove fun t ht => hLock t ht hm
  · rintro c rfl
    refine (h.kept c rfl).move hMove ?_ (h.fresh rfl)
    rintro t rfl
    simp [foreign] at hForeign
  · intro c hc
    rw [(hReads c hc).1, (hReads c hc).2]
    exact h.last c hc
  · intro c hc
    rw [(hReads c hc).1]
    exact h.unread c hc

/-- The task is going to read, which it may always be told. -/
theorem Tracked.expect (h : Tracked sub v missing owed r) :
    Tracked sub v missing True (expect r sub) := by
  cases sub with
  | none => exact h.mono id fun _ => trivial
  | some c =>
    refine ⟨⟨h.inv.well, fun j hOpen => ?_⟩, h.sane, h.pending, ?_, ?_, fun _ _ _ => trivial⟩
    · by_cases hjc : j = c
      · exact .inl (by simp [Join.expect, hjc])
      · exact (h.inv.told j hOpen).keep rfl rfl (Function.update_of_ne hjc _ _) rfl id .inr
    · exact fun c' hc' => ⟨(h.kept c' hc').isOpen, (h.kept c' hc').safe⟩
    · rintro _ ⟨⟩ hFalse
      simp [Join.expect] at hFalse

/-- The task takes a status and is going to read. -/
theorem Tracked.recv (hFull : ∀ q, full q = true → q ≠ [])
    (h : Tracked (some c) v missing owed r) (hMove : Move full r (.recv c) r') :
    Tracked (some c) v missing True (Join.expect r' (some c)) := by
  have hKept := (h.kept c rfl).move hMove (by simp) (h.fresh rfl)
  have hInv := h.inv.move hFull hMove
  have hPending (hm : missing) := (h.pending hm).move hMove (by simp)
  have hOwed : Tracked (some c) v missing True r' := by
    refine ⟨hInv, h.sane.move hMove (by simp), hPending, ?_, ?_, fun _ _ _ => trivial⟩
    · rintro _ ⟨⟩
      exact hKept
    · rintro _ ⟨⟩ hFalse
      cases hMove
      simp at hFalse
  exact hOwed.expect

/-- The task reads the input. -/
theorem Tracked.read (hFull : ∀ q, full q = true → q ≠ [])
    (h : Tracked (some c) v missing owed r) (hMove : Move full r (.read c) r') :
    Tracked (some c) r.repr.data missing' False r' := by
  have hData := hMove.data (by simp)
  refine ⟨h.inv.move hFull hMove, h.sane.move hMove (by simp), fun _ => .inl hData, ?_, ?_, ?_⟩
  · rintro _ ⟨⟩
    exact (h.kept c rfl).move hMove (by simp) (h.fresh rfl)
  · rintro _ ⟨⟩ -
    cases hMove
    simp
  · rintro _ ⟨⟩ hTrue
    cases hMove
    simp at hTrue

/-- The block subscribes to an input whose last change was not flushed past it. -/
theorem Tracked.subscribe (hFull : ∀ q, full q = true → q ≠ [])
    (h : Tracked none v missing owed r) (hMissing : missing) (hMove : Move full r .subscribe r') :
    Tracked (some r.repr.channels) v missing' False (settle r' r.repr.channels v) := by
  have hInv := h.inv.move hFull hMove
  have hPending := (h.pending hMissing).move hMove (by simp)
  have hSane := h.sane.move hMove (by simp)
  have hKept : r'.Kept r.repr.channels := by
    cases hMove
    refine ⟨by simp [SignalRepr.subscribe], fun t hAt => ?_⟩
    exact absurd (h.sane t _ hAt) (Nat.lt_irrefl _)
  refine ⟨⟨hInv.well, fun j hOpen => ?_⟩, hSane, fun _ => hPending, ?_, ?_, ?_⟩
  · by_cases hj : j = r.repr.channels
    · rcases hPending with hData | hDirty | ⟨t, hAt⟩
      · exact .inr (.inr (.inl (by simp [settle, hj, hData])))
      · exact .inr (.inr (.inr (.inl hDirty)))
      · refine .of_owes ⟨t, ?_⟩
        have hPc : (settle r' r.repr.channels v).pc t = r'.pc t := rfl
        rw [hPc]
        cases hp : r'.pc t with
        | storing => trivial
        | swapped => trivial
        | _ => rw [hp] at hAt; exact hAt.elim
    · exact (hInv.told j hOpen).keep rfl rfl (Function.update_of_ne hj _ _)
        (Function.update_of_ne hj _ _) id .inr
  · rintro _ ⟨⟩
    exact ⟨hKept.isOpen, hKept.safe⟩
  · rintro _ ⟨⟩ -
    simp [settle]
  · rintro _ ⟨⟩ hTrue
    simp [settle] at hTrue

/-- A read input whose change is on its way nowhere has the value that was read. -/
theorem Tracked.value_eq (h : Tracked (some c) v missing owed r) (hOwed : ¬owed)
    (hSettled : r.Settled) (hEmpty : (r.repr.channel c).queue = []) : r.repr.data = v := by
  have hRead : r.toRead c = false := by
    cases hc : r.toRead c with
    | false => rfl
    | true => exact (hOwed (h.unread c rfl hc)).elim
  have hHeard := (h.inv.told c (h.kept c rfl).isOpen).heard hSettled
  rcases hHeard with hTrue | hQueue | hLast
  · rw [hRead] at hTrue
    cases hTrue
  · exact (hQueue hEmpty).elim
  · rw [h.last c rfl hRead] at hLast
    exact (Option.some.inj hLast).symm

end Input

variable {n : Nat} {T : Fin n → Type} {full : List SignalStatus → Bool} {s t : Join T}

/-- The task is still to read the input before it sets the output. -/
def Owed (s : Join T) (i : Fin n) : Prop := ∃ k, s.task = .reading k ∧ k ≤ i.val

/-- Which inputs the block has subscribed to. -/
def Subscribed (s : Join T) : Prop :=
  match s.block with
  | .reading _ => ∀ i, s.sub i = none
  | .subscribing k => ∀ i, s.sub i = none ↔ k ≤ i.val
  | .returned => ∀ i, s.sub i ≠ none

structure Inv (s : Join T) : Prop where
  inputs : ∀ i, Tracked (s.sub i) (s.values i) (s.Missing i) (s.Owed i) (s.inputs i)
  subscribed : s.Subscribed
  waits : s.block ≠ .returned → s.task = .selecting
  shown : (∀ k, s.block ≠ .reading k) → (∀ k, s.task ≠ .reading k) →
    s.output.repr.data = s.values
  output : s.output.Inv
  heard : s.task = .selecting → ∀ j, (s.output.repr.channel j).isOpen = true → s.output.Heard j

theorem not_owed {i : Fin n} (h : ∀ k, s.task = .reading k → i.val < k) : ¬s.Owed i := by
  rintro ⟨k, hTask, hLe⟩
  exact absurd (h k hTask) (Nat.not_lt_of_le hLe)

theorem Inv.new (values : ∀ i, T i) : (new values).Inv where
  inputs i := by
    refine ⟨.new (values i), ?_, fun h => ?_, ?_, ?_, ?_⟩
    · intro t j h
      exact h.elim
    · exact absurd h.2 (Nat.not_lt_zero _)
    · rintro _ ⟨⟩
    · rintro _ ⟨⟩
    · rintro _ ⟨⟩
  subscribed _ := rfl
  waits _ := rfl
  shown h := (h 0 rfl).elim
  output := .new values
  heard _ j hOpen := by cases hOpen

theorem setInput_self (s : Join T) (i : Fin n) (r : Threads (T i)) :
    (s.setInput i r).inputs i = r := Function.update_self ..

theorem setInput_ne (s : Join T) {i j : Fin n} (h : j ≠ i) (r : Threads (T i)) :
    (s.setInput i r).inputs j = s.inputs j := Function.update_of_ne h ..

theorem Tracked.unsubscribed {α : Type} {r : Threads α} {v v' : α}
    {missing owed missing' owed' : Prop} (h : Tracked none v missing owed r)
    (hPending : missing' → r.Pending v') :
    Tracked none v' missing' owed' r :=
  ⟨h.inv, h.sane, hPending, nofun, nofun, nofun⟩

theorem Inv.blockRead (h : s.Inv) {i : Fin n} (hBlock : s.block = .reading i) :
    Inv { s with
      values := Function.update s.values i (s.inputs i).repr.data
      block := .reading (i + 1) } := by
  have hSub : ∀ j, s.sub j = none := by
    have h := h.subscribed
    rwa [Subscribed, hBlock] at h
  refine ⟨fun j => ?_, hSub, fun _ => h.waits (by simp [hBlock]), fun hNot => (hNot _ rfl).elim,
    h.output, h.heard⟩
  have hOld := h.inputs j
  rw [hSub j] at hOld
  refine (hSub j).symm ▸ hOld.unsubscribed fun hMissing => ?_
  by_cases hj : j = i
  · subst hj
    exact .inl (by simp)
  · have hLt : j.val < i.val := by
      have hLe : j.val < i.val + 1 := hMissing.2
      have hNe : j.val ≠ i.val := fun hEq => hj (Fin.ext hEq)
      omega
    have hPending := hOld.pending ⟨hSub j, by rw [hBlock]; exact hLt⟩
    simpa [Function.update_of_ne hj] using hPending

theorem Inv.create (h : s.Inv) {k : Nat} (hBlock : s.block = .reading k) (hk : n ≤ k) :
    Inv { s with output := .new s.values, block := .subscribing 0 } := by
  have hSub : ∀ j, s.sub j = none := by
    have h := h.subscribed
    rwa [Subscribed, hBlock] at h
  refine ⟨fun j => (h.inputs j).mono (fun _ => ⟨hSub j, ?_⟩) id, fun j => ?_,
    fun _ => h.waits (by simp [hBlock]), fun _ _ => rfl, .new s.values, fun _ j hOpen => ?_⟩
  · rw [hBlock]
    exact Nat.lt_of_lt_of_le j.isLt hk
  · simp [hSub j]
  · cases hOpen

theorem Inv.subscribe (h : s.Inv) (hFull : ∀ q, full q = true → q ≠ []) {i : Fin n}
    (hBlock : s.block = .subscribing i) {r : Threads (T i)}
    (hMove : Move full (s.inputs i) .subscribe r) :
    Inv { s.setInput i (settle r (s.inputs i).repr.channels (s.values i)) with
      sub := Function.update s.sub i (some (s.inputs i).repr.channels)
      block := .subscribing (i + 1) } := by
  have hSub : ∀ j, s.sub j = none ↔ i.val ≤ j.val := by
    have h := h.subscribed
    rwa [Subscribed, hBlock] at h
  have hNone : s.sub i = none := (hSub i).mpr (Nat.le_refl _)
  have hWaits := h.waits (by simp [hBlock])
  refine ⟨fun j => ?_, fun j => ?_, fun _ => hWaits, fun _ hTask => ?_, h.output, h.heard⟩
  · by_cases hj : j = i
    · subst hj
      have hOld := h.inputs j
      rw [hNone] at hOld
      have hNew : Tracked (some (s.inputs j).repr.channels) (s.values j) False False _ :=
        hOld.subscribe hFull ⟨hNone, by rw [hBlock]; trivial⟩ hMove
      simp only [setInput_self, Function.update_self]
      refine hNew.mono (fun hMissing => ?_) False.elim
      simp [Missing] at hMissing
    · simp only [setInput_ne s hj, Function.update_of_ne hj]
      refine (h.inputs j).mono (fun hMissing => ⟨?_, by rw [hBlock]; trivial⟩) id
      simpa [Function.update_of_ne hj] using hMissing.1
  · by_cases hj : j = i
    · subst hj
      simp
    · have hNe : j.val ≠ i.val := fun hEq => hj (Fin.ext hEq)
      simp only [Function.update_of_ne hj, hSub j]
      omega
  · exact h.shown (by simp [hBlock]) hTask

theorem Inv.spawn (h : s.Inv) {k : Nat} (hBlock : s.block = .subscribing k) (hk : n ≤ k) :
    Inv { s with block := .returned } := by
  have hSub : ∀ j, s.sub j = none ↔ k ≤ j.val := by
    have h := h.subscribed
    rwa [Subscribed, hBlock] at h
  refine ⟨fun j => (h.inputs j).mono (fun hMissing => ⟨hMissing.1, by rw [hBlock]; trivial⟩) id,
    fun j hNone => ?_, fun hNot => (hNot rfl).elim, fun _ => h.shown (by simp [hBlock]), h.output,
    h.heard⟩
  have := (hSub j).mp hNone
  omega

theorem Inv.block (h : s.Inv) (hFull : ∀ q, full q = true → q ≠ [])
    (hStep : s.blockStep full = some t) : t.Inv := by
  unfold blockStep at hStep
  split at hStep
  next k hBlock =>
    split at hStep
    next hk =>
      cases hStep
      exact h.blockRead (i := ⟨k, hk⟩) hBlock
    next hk =>
      cases hStep
      exact h.create hBlock (Nat.le_of_not_lt hk)
  next k hBlock =>
    split at hStep
    next hk =>
      obtain ⟨r, hSubscribe, rfl⟩ := Option.map_eq_some_iff.mp hStep
      exact h.subscribe hFull (i := ⟨k, hk⟩) hBlock (step_move hSubscribe)
    next hk =>
      cases hStep
      exact h.spawn hBlock (Nat.le_of_not_lt hk)
  next => cases hStep

theorem Inv.recv (h : s.Inv) (hFull : ∀ q, full q = true → q ≠ []) (hBlock : s.block = .returned)
    {i : Fin n} (hStep : s.recvStep full i = some t) : t.Inv := by
  obtain ⟨c, hc, hRecv⟩ := Option.bind_eq_some_iff.mp hStep
  obtain ⟨r, hStatus, rfl⟩ := Option.map_eq_some_iff.mp hRecv
  let t : Join T := { s with
    inputs := fun j => Join.expect (Function.update s.inputs i r j) (s.sub j)
    task := .reading 0 }
  have hMissing (j : Fin n) : t.Missing j → s.Missing j := id
  have hOwed (j : Fin n) : True → t.Owed j := fun _ => ⟨0, rfl, Nat.zero_le _⟩
  have hInput (j : Fin n) : Tracked (s.sub j) (s.values j) (t.Missing j) (t.Owed j)
      (Join.expect (Function.update s.inputs i r j) (s.sub j)) := by
    by_cases hj : j = i
    · subst hj
      have hOld := h.inputs j
      rw [hc] at hOld
      rw [Function.update_self, hc]
      exact (hOld.recv hFull (step_move hStatus)).mono (hMissing j) (hOwed j)
    · rw [Function.update_of_ne hj]
      exact (h.inputs j).expect.mono (hMissing j) (hOwed j)
  exact ⟨hInput, h.subscribed, fun hNot => (hNot hBlock).elim,
    fun _ hTask => (hTask 0 rfl).elim, h.output, nofun⟩

theorem Inv.taskRead (h : s.Inv) (hFull : ∀ q, full q = true → q ≠ [])
    (hBlock : s.block = .returned) {i : Fin n} {c : Nat} (hTask : s.task = .reading i)
    (hc : s.sub i = some c) {r : Threads (T i)} (hMove : Move full (s.inputs i) (.read c) r) :
    Inv { s.setInput i r with
      values := Function.update s.values i (s.inputs i).repr.data
      task := .reading (i + 1) } := by
  refine ⟨fun j => ?_, h.subscribed, fun hNot => (hNot hBlock).elim,
    fun _ hNot => (hNot _ rfl).elim, h.output, nofun⟩
  by_cases hj : j = i
  · subst hj
    have hOld := h.inputs j
    rw [hc] at hOld
    simp only [setInput_self, Function.update_self]
    exact hc.symm ▸ (hOld.read hFull hMove).mono id False.elim
  · simp only [setInput_ne s hj, Function.update_of_ne hj]
    refine (h.inputs j).mono id ?_
    rintro ⟨k, hReading, hLe⟩
    obtain rfl : i.val = k := Task.reading.inj (hTask.symm.trans hReading)
    have hNe : j.val ≠ i.val := fun hEq => hj (Fin.ext hEq)
    exact ⟨i.val + 1, rfl, by omega⟩

/-- A step of the task that only goes through the output's writer. -/
theorem Inv.taskOutput (h : s.Inv) (hFull : ∀ q, full q = true → q ≠ [])
    (hBlock : s.block = .returned) (hOwed : ∀ i, ¬s.Owed i) {a : Atomic (∀ i, T i)}
    {r : Threads (∀ i, T i)} (hMove : Move full s.output a r) (hData : r.repr.data = s.values)
    {p : Task} (hTask : p ≠ .selecting) : Inv { s with output := r, task := p } := by
  refine ⟨fun j => (h.inputs j).mono id fun hOld => (hOwed j hOld).elim, h.subscribed,
    fun hNot => (hNot hBlock).elim, fun _ _ => hData, h.output.move hFull hMove,
    fun hSelecting => (hTask hSelecting).elim⟩

theorem Inv.task (h : s.Inv) (hFull : ∀ q, full q = true → q ≠ []) (hBlock : s.block = .returned)
    (hMeets : s.task = .looping →
      s.output.Settled ∨ ∀ j, (s.output.repr.channel j).isOpen = false)
    (hStep : s.taskStep full = some t) : t.Inv := by
  have hReturned : ∀ k, s.block ≠ .reading k := by simp [hBlock]
  unfold taskStep at hStep
  split at hStep
  next => cases hStep
  next k hTask =>
    split at hStep
    next hk =>
      obtain ⟨c, hc, hRead⟩ := Option.bind_eq_some_iff.mp hStep
      obtain ⟨r, hValue, rfl⟩ := Option.map_eq_some_iff.mp hRead
      exact h.taskRead hFull hBlock (i := ⟨k, hk⟩) hTask hc (step_move hValue)
    next hk =>
      obtain ⟨r, hWrite, rfl⟩ := Option.map_eq_some_iff.mp hStep
      have hMove := step_move hWrite
      refine h.taskOutput hFull hBlock (fun i => not_owed fun k' hReading => ?_) hMove
        (by cases hMove; rfl) (by simp)
      obtain rfl : k = k' := Task.reading.inj (hTask.symm.trans hReading)
      have := i.isLt
      omega
  next hTask =>
    obtain ⟨r, hStore, rfl⟩ := Option.map_eq_some_iff.mp hStep
    have hMove := step_move hStore
    refine h.taskOutput hFull hBlock (fun i => not_owed (by simp [hTask])) hMove ?_ (by simp)
    rw [hMove.data (by simp)]
    exact h.shown hReturned (by simp [hTask])
  next hTask =>
    cases hStep
    have hOwed (j : Fin n) : ¬s.Owed j := not_owed (by simp [hTask])
    refine ⟨fun j => (h.inputs j).mono id fun hOld => (hOwed j hOld).elim, h.subscribed,
      fun _ => rfl, fun _ _ => h.shown hReturned (by simp [hTask]), h.output, fun _ j hOpen => ?_⟩
    rcases hMeets hTask with hSettled | hNobody
    · exact (h.output.told j hOpen).heard hSettled
    · rw [hNobody j] at hOpen
      cases hOpen

/-- A step of others on an input. -/
theorem Inv.input (h : s.Inv) (hFull : ∀ q, full q = true → q ≠ []) {i : Fin n}
    {a : Atomic (T i)} {r : Threads (T i)} (hForeign : foreign (s.sub i) (s.inputs i) a = true)
    (hMeets : s.Meets (.input i a)) (hMove : Move full (s.inputs i) a r) :
    (s.setInput i r).Inv := by
  refine ⟨fun j => ?_, h.subscribed, h.waits, h.shown, h.output, h.heard⟩
  by_cases hj : j = i
  · subst hj
    rw [setInput_self]
    refine (h.inputs j).move hFull hMove hForeign ?_
    rintro u rfl hMissing
    exact hMeets hMissing
  · rw [setInput_ne s hj]
    exact h.inputs j

/-- A step of others on the output. -/
theorem Inv.listen (h : s.Inv) (hFull : ∀ q, full q = true → q ≠ []) {a : Atomic (∀ i, T i)}
    {r : Threads (∀ i, T i)} (hListens : listens a = true) (hMove : Move full s.output a r) :
    Inv { s with output := r } := by
  have hWrite : ∀ u f, a ≠ .write u f := by
    rintro u f rfl
    cases hListens
  refine ⟨h.inputs, h.subscribed, h.waits, fun hBlock hTask => ?_, h.output.move hFull hMove,
    fun hTask j hOpen => hMove.heard hWrite (h.heard hTask) hOpen⟩
  exact (hMove.data hWrite).trans (h.shown hBlock hTask)

theorem Inv.step (h : s.Inv) (hFull : ∀ q, full q = true → q ≠ []) {a : Action T}
    (hMeets : s.Meets a) (hStep : s.step full a = some t) : t.Inv := by
  cases a with
  | block => exact h.block hFull hStep
  | recv i =>
    simp only [Join.step, Option.ite_none_right_eq_some] at hStep
    exact h.recv hFull hStep.1.1 hStep.2
  | task =>
    simp only [Join.step, Option.ite_none_right_eq_some] at hStep
    exact h.task hFull hStep.1 hMeets hStep.2
  | input i a =>
    simp only [Join.step, Option.ite_none_right_eq_some] at hStep
    obtain ⟨hForeign, hInput⟩ := hStep
    obtain ⟨r, hAtomic, rfl⟩ := Option.map_eq_some_iff.mp hInput
    exact h.input hFull hForeign hMeets (step_move hAtomic)
  | output a =>
    simp only [Join.step, Option.ite_none_right_eq_some] at hStep
    obtain ⟨⟨-, hListens⟩, hOutput⟩ := hStep
    obtain ⟨r, hAtomic, rfl⟩ := Option.map_eq_some_iff.mp hOutput
    exact h.listen hFull hListens (step_move hAtomic)

theorem Inv.follows (h : s.Inv) : s.Follows := by
  intro hSettled hBlock hTask hEmpty
  have hSub : ∀ i, s.sub i ≠ none := by
    have h := h.subscribed
    rwa [Subscribed, hBlock] at h
  have hValue (i : Fin n) : (s.inputs i).repr.data = s.values i := by
    obtain ⟨c, hc⟩ := Option.ne_none_iff_exists'.mp (hSub i)
    have hTracked := h.inputs i
    rw [hc] at hTracked
    exact hTracked.value_eq (not_owed (by simp [hTask])) (hSettled i) (hEmpty i c hc)
  have hOutput : s.output.repr.data = fun i => (s.inputs i).repr.data := by
    rw [h.shown (by simp [hBlock]) (by simp [hTask])]
    exact funext fun i => (hValue i).symm
  refine ⟨hOutput, fun j hOpen hRead => ?_⟩
  rcases h.heard hTask j hOpen with hTrue | hQueue | hLast
  · rw [hRead] at hTrue
    cases hTrue
  · exact .inl hQueue
  · exact .inr (hOutput ▸ hLast)

/-- In every run of the join with any number of inputs, among any writes, flushes and subscriptions
by other threads, that meets the condition at every step, the output follows the inputs in the state
reached. -/
theorem follows_of_meets (hFull : ∀ q, full q = true → q ≠ []) (values : ∀ i, T i)
    {as : List (Action T)} (hRun : run (step full) (new values) as = some s)
    (hMeets : Every (step full) Meets (new values) as) : s.Follows := by
  have hInv : s.Inv := run_invariant_of
    (fun _ _ _ h hMeets hStep => h.step hFull hMeets hStep) (.new values) hMeets hRun
  exact hInv.follows

/-! ### One input -/

/-- A step of no subscriber, which nobody else has a reason to keep from. -/
def unsubscribed {α : Type} : Atomic α → Bool
  | .recv _ => false
  | .read _ => false
  | .lockDrop _ (some _) => false
  | _ => true

theorem foreign_of_unsubscribed {α : Type} {a : Atomic α} (h : unsubscribed a = true)
    (c : Option Nat) (r : Threads α) : foreign c r a = true := by
  cases a with
  | recv => cases h
  | read => cases h
  | lockDrop t subscriber => cases subscriber with
    | none => rfl
    | some => cases h
  | _ => rfl

theorem setInput_setInput (s : Join T) (i : Fin n) (r r' : Threads (T i)) :
    (s.setInput i r).setInput i r' = s.setInput i r' := by
  simp [setInput]

/-- Operations of others on an input, whatever the join has there. -/
theorem input_run {i : Fin n} {as : List (Atomic (T i))} {r : Threads (T i)}
    (hRun : run (Threads.step full) (s.inputs i) as = some r)
    (hTheirs : as.all unsubscribed = true) :
    run (step full) s (as.map (.input i)) = some (s.setInput i r) := by
  induction as generalizing s with
  | nil => cases hRun; simp [setInput]
  | cons a as ih =>
    obtain ⟨m, hStep, hRest⟩ := run_cons_eq_some.mp hRun
    obtain ⟨hFirst, hLater⟩ : unsubscribed a = true ∧ as.all unsubscribed = true := by
      simpa using hTheirs
    rw [← setInput_self s i m] at hRest
    have hTail := ih hRest hLater
    rw [setInput_setInput] at hTail
    rw [List.map_cons]
    refine run_cons_eq_some.mpr ⟨s.setInput i m, ?_, hTail⟩
    simp only [step, foreign_of_unsubscribed hFirst, if_true, hStep, Option.map_some]

/-- Past its `subscribe` the join does not mind what is done to an input. -/
theorem meets_inputs {i : Fin n} {as : List (Atomic (T i))} (hSub : s.sub i ≠ none) :
    Every (step full) Meets s (as.map (.input i)) := by
  induction as generalizing s with
  | nil => trivial
  | cons a as ih =>
    refine ⟨?_, fun t hStep => ih ?_⟩
    · cases a with
      | lockFlush => exact fun hMissing => absurd hMissing.1 hSub
      | _ => trivial
    · simp only [step, Option.mem_def, Option.ite_none_right_eq_some] at hStep
      obtain ⟨r, -, rfl⟩ := Option.map_eq_some_iff.mp hStep.2
      exact hSub

abbrev One : Fin 1 → Type := fun _ => Nat

/-- A change of the input by one thread that another flushes, with this many subscribers. -/
def changed (value subscribers : Nat) : List (Atomic Nat) :=
  [.write 1 fun _ => value, .storeDirty 1] ++ ([.swapDirty 2, .lockFlush 2] ++
    List.replicate subscribers (.sendChanged 2) ++ [.prune 2])

def change (value subscribers : Nat) : List (Action One) :=
  (changed value subscribers).map (.input 0)

theorem change_run {s : Join One} {k : Nat} (hPc : ∀ t, (s.inputs 0).pc t = .idle)
    (hLock : (s.inputs 0).lock = none) (hSub : (s.inputs 0).repr.subscribers.length = k)
    (value : Nat) : run (step full) s (change value k) = some (s.setInput 0
      { s.inputs 0 with
        repr := ((s.inputs 0).repr.update fun _ => value).flush full }) := by
  subst hSub
  refine input_run (run_trans (update_run (hPc 1) fun _ => value) ?_)
    (by simp [changed, unsubscribed])
  exact flush_run (s := { s.inputs 0 with repr := (s.inputs 0).repr.update fun _ => value })
    (hPc 2) hLock rfl

/-- The block ends, which drops the handle that it was given. -/
def dropped (subscribers : Nat) : List (Atomic Nat) :=
  [.lockDrop 1 none] ++ List.replicate subscribers (.sendDestroyed 1) ++ [.unlockDrop 1]

def ending (subscribers : Nat) : List (Action One) :=
  (dropped subscribers).map (.input 0)

theorem ending_run {s : Join One} {k : Nat} (hPc : ∀ t, (s.inputs 0).pc t = .idle)
    (hLock : (s.inputs 0).lock = none) (hSub : (s.inputs 0).repr.subscribers.length = k) :
    run (step full) s (ending k) =
      some (s.setInput 0 { s.inputs 0 with repr := (s.inputs 0).repr.drop full }) := by
  subst hSub
  exact input_run (drop_run (hPc 1) hLock) (by simp [dropped, unsubscribed])

/-- The block up to the spawn. -/
def begun : List (Action One) :=
  [.block, .block, .block, .block]

/-- The task is told, reads and sets the output. -/
def turn : List (Action One) :=
  [.recv 0, .task, .task, .task]

/-- A subscriber of the output, which reads it. -/
def subscribed : List (Action One) :=
  [.output .subscribe, .output (.read 0)]

/-- Somebody flushes the output. -/
def shown : List (Action One) :=
  [.output (.swapDirty 1), .output (.lockFlush 1), .output (.sendChanged 1), .output (.prune 1)]

/-- A flushed change goes through the task to the output, which is flushed before the task waits
again. -/
theorem follows_of_meets_shown : ∃ s, run (step twoFull) (new (T := One) fun _ => 0)
    (begun ++ ending 1 ++ turn ++ [.task] ++ subscribed ++ change 5 1 ++ turn ++ shown ++
      [.task]) = some s ∧ s.Follows := by
  have hBlock : run (step twoFull) (new (T := One) fun _ => 0) begun = some _ := rfl
  have hEnding := run_trans hBlock (ending_run (fun _ => rfl) rfl rfl)
  have hFirst : run (step twoFull) _ (_ ++ turn) = some _ := run_trans hEnding rfl
  have hWaits : run (step twoFull) _ (_ ++ [.task]) = some _ := run_trans hFirst rfl
  have hSubscribed : run (step twoFull) _ (_ ++ subscribed) = some _ := run_trans hWaits rfl
  have hChange := run_trans hSubscribed (change_run (fun _ => rfl) rfl rfl 5)
  have hTurn : run (step twoFull) _ (_ ++ turn) = some _ := run_trans hChange rfl
  have hShown : run (step twoFull) _ (_ ++ shown) = some _ := run_trans hTurn rfl
  have hRun : run (step twoFull) _ (_ ++ [.task]) = some _ := run_trans hShown rfl
  refine ⟨_, hRun, follows_of_meets (fun q hq => ?_) _ hRun ?_⟩
  · rintro rfl
    cases hq
  · refine .append hShown (.append hTurn (.append hChange (.append hSubscribed (.append hWaits
      (.append hFirst (.append hEnding (.append hBlock ?_ ?_) ?_) ?_) ?_) ?_) ?_) ?_) ?_
    · exact .cons trivial rfl (.cons trivial rfl (.cons trivial rfl (.cons trivial rfl trivial)))
    · exact meets_inputs nofun
    · exact .cons trivial rfl (.cons nofun rfl (.cons nofun rfl (.cons nofun rfl trivial)))
    · exact .cons (fun _ => .inr fun _ => rfl) rfl trivial
    · exact .cons trivial rfl (.cons trivial rfl trivial)
    · exact meets_inputs nofun
    · exact .cons trivial rfl (.cons nofun rfl (.cons nofun rfl (.cons nofun rfl trivial)))
    · exact .cons trivial rfl (.cons trivial rfl (.cons trivial rfl (.cons trivial rfl trivial)))
    · refine .cons (fun _ => .inl ⟨rfl, fun t i => ?_⟩) rfl trivial
      match t with
      | 0 => exact id
      | 1 => exact id
      | _ + 2 => exact id

/-- An input that no operation is at has no change on its way. -/
theorem idle_inputs {s : Join One} (hDirty : (s.inputs 0).repr.dirty = false)
    (hPc : ∀ t, (s.inputs 0).pc t = .idle) (i : Fin 1) : (s.inputs i).Settled := by
  obtain rfl : i = 0 := Subsingleton.elim i 0
  exact ⟨hDirty, fun t j h => by rw [hPc t] at h; exact h⟩

theorem empty_inputs {s : Join One} {c : Nat} (hSub : s.sub 0 = some c)
    (hQueue : ((s.inputs 0).repr.channel c).queue = []) (i : Fin 1) (c' : Nat)
    (hc' : s.sub i = some c') : ((s.inputs i).repr.channel c').queue = [] := by
  obtain rfl : i = 0 := Subsingleton.elim i 0
  obtain rfl := Option.some.inj (hSub.symm.trans hc')
  exact hQueue

/-- Nobody flushes what the task sets, so a subscriber of the output is not told; and a change that
is flushed between the block's read and its `subscribe` is not in the output when the task waits. -/
theorem join_falls_behind :
    (∃ s, run (step twoFull) (new (T := One) fun _ => 0)
      (begun ++ ending 1 ++ turn ++ [.task] ++ subscribed ++ change 5 1 ++ turn ++ [.task]) =
        some s ∧
      (s.output.repr.channel 0).queue = [] ∧ (s.output.lastRead 0).map (fun v => v 0) = some 0 ∧
      s.output.repr.data 0 = 5 ∧ ¬s.Follows) ∧
    ∃ s, run (step twoFull) (new (T := One) fun _ => 0)
      ([.block] ++ change 5 0 ++ [.block, .block, .block]) = some s ∧
      s.output.repr.data 0 = 0 ∧ (s.inputs 0).repr.data = 5 ∧ ¬s.Follows := by
  constructor
  · have hBlock : run (step twoFull) (new (T := One) fun _ => 0) begun = some _ := rfl
    have hEnding := run_trans hBlock (ending_run (fun _ => rfl) rfl rfl)
    have hFirst : run (step twoFull) _ (_ ++ turn) = some _ := run_trans hEnding rfl
    have hWaits : run (step twoFull) _ (_ ++ [.task]) = some _ := run_trans hFirst rfl
    have hSubscribed : run (step twoFull) _ (_ ++ subscribed) = some _ := run_trans hWaits rfl
    have hChange := run_trans hSubscribed (change_run (fun _ => rfl) rfl rfl 5)
    have hTurn : run (step twoFull) _ (_ ++ turn) = some _ := run_trans hChange rfl
    have hRun : run (step twoFull) _ (_ ++ [.task]) = some _ := run_trans hTurn rfl
    refine ⟨_, hRun, rfl, rfl, rfl, fun h => ?_⟩
    have hTold := (h (idle_inputs rfl fun _ => rfl) rfl rfl (empty_inputs rfl rfl)).2 0 rfl rfl
    rcases hTold with hQueue | hLast
    · exact hQueue rfl
    · exact absurd (congrFun (Option.some.inj hLast) 0) (by decide)
  · have hRead : run (step twoFull) (new (T := One) fun _ => 0) [.block] = some _ := rfl
    have hChange := run_trans hRead (change_run (fun _ => rfl) rfl rfl 5)
    have hRun : run (step twoFull) _ (_ ++ [.block, .block, .block]) = some _ :=
      run_trans hChange rfl
    refine ⟨_, hRun, rfl, rfl, fun h => ?_⟩
    have hOutput := (h (idle_inputs rfl fun _ => rfl) rfl rfl (empty_inputs rfl rfl)).1
    exact absurd (congrFun hOutput 0) (by decide)

end Join

end Emyu
