import Emyu.ModelTree.Borrows
import Emyu.Signal.Interleaving

/-! What other threads do to the signals of a tree while the code of a message runs, one step of an
operation at a time, and what that code takes no notice of. -/

namespace Emyu.ModelTree

open Macro Relation Runs RefCell

/-- A step of the operations of `Signal`, `SignalWriter` and `SignalSubscriber`, and of `__flush`:
`setDirty` is the store of `update` and the swap of a flush, and `send` is one turn of a loop over
the subscribers. -/
inductive SignalAtom (T : Type) where
  | write (f : T → T)
  | setDirty (dirty : Bool)
  | send (status : SignalStatus) (i : Nat)
  | retain
  | subscribe
  | recv (i : Nat)
  | closeReceiver (i : Nat)

namespace SignalAtom

variable {T : Type}

def apply (full : List SignalStatus → Bool) (r : SignalRepr T) : SignalAtom T → SignalRepr T
  | .write f => r.write f
  | .setDirty dirty => { r with dirty := dirty }
  | .send status i => Threads.send full status i r
  | .retain => r.retainOpen
  | .subscribe => r.subscribe
  | .recv i => (SignalUse.recv i).apply full r
  | .closeReceiver i => r.closeReceiver i

/-- The guard under which the step is taken. -/
def under (σ : Nat) : SignalAtom T → Option Guard
  | .write _ => some (.value σ, .exclusive)
  | .send _ _ | .retain | .subscribe => some (.subscribers σ, .exclusive)
  | .setDirty _ | .recv _ | .closeReceiver _ => none

def isWrite : SignalAtom T → Bool
  | .write _ => true
  | _ => false

def applyAll (full : List SignalStatus → Bool) (r : SignalRepr T) (atoms : List (SignalAtom T)) :
    SignalRepr T := atoms.foldl (apply full) r

variable {full : List SignalStatus → Bool} {r : SignalRepr T}

theorem apply_data {a : SignalAtom T} (h : a.isWrite = false) : (a.apply full r).data = r.data := by
  cases a with
  | write f => cases h
  | recv i =>
    simp only [apply, SignalUse.apply, SignalRepr.recv]
    cases (r.channel i).queue <;> rfl
  | _ => rfl

theorem applyAll_send (status : SignalStatus) (ids : List Nat) :
    applyAll full r (ids.map (.send status)) =
      { r with channel := sendAll full status ids r.channel } := by
  induction ids generalizing r with
  | nil => rfl
  | cons i ids ih =>
    rw [List.map_cons, applyAll, List.foldl_cons, ← applyAll, ih]
    rfl

/-- `Drop for Signal` in its steps. -/
theorem drop_eq_applyAll :
    r.drop full = applyAll full r (r.subscribers.map (.send .destroyed)) :=
  (applyAll_send _ _).symm

/-- `update` in its steps. -/
theorem update_eq_applyAll (f : T → T) :
    r.update f = applyAll full r [.write f, .setDirty true] := rfl

/-- `__flush` of a dirty signal in its steps. -/
theorem flush_eq_applyAll (hDirty : r.dirty = true) : r.flush full =
    applyAll full r (.setDirty false :: (r.subscribers.map (.send .changed) ++ [.retain])) := by
  have hSent : applyAll full { r with dirty := false } (r.subscribers.map (.send .changed)) = _ :=
    applyAll_send _ _
  simp only [applyAll] at hSent
  simp [applyAll, apply, SignalRepr.flush, hDirty, hSent]

end SignalAtom

/-- Somebody does something to a signal. -/
def Heap.touch {K T : Type} (full : List SignalStatus → Bool) (h : Heap K T) (σ : Nat)
    (a : SignalAtom T) : Heap K T :=
  { h with signals := h.signals.modify σ (a.apply full) }

namespace Borrowing

variable {V K T : Type} {P : BorrowingProgram V K T} {s t : Borrowing K V T} {u : Unit}

/-- The code goes on, or another thread does something to a signal. -/
inductive Meddled (P : BorrowingProgram V K T) (s : Borrowing K V T) : Borrowing K V T → Prop where
  | step (t : Borrowing K V T) : Borrowing.step P s () = some t → Meddled P s t
  | touched (σ : Nat) (a : SignalAtom T) :
      Meddled P s { s with heap := s.heap.touch P.full σ a }

end Borrowing

/-! ### Heaps that code cannot tell apart -/

/-- Heaps in the relation are the same to the code of the program. -/
structure BorrowingProgram.Respects {V K T : Type} (P : BorrowingProgram V K T)
    (R : Heap K T → Heap K T → Prop) : Prop where
  models : ∀ h h', R h h' → h.models = h'.models
  block : ∀ h h', R h h' → ∀ k block env m, P.block k block env m h = P.block k block env m h'
  apply : ∀ h h', R h h' → ∀ (stmt : Stmt V K T) k, h.apply P.full stmt = some k →
    ∃ k', h'.apply P.full stmt = some k' ∧ R k k'

namespace BorrowingProgram.Respects

variable {V K T : Type} {P : BorrowingProgram V K T} {R : Heap K T → Heap K T → Prop}
  {s t : Borrowing K V T} {h h' : Heap K T} {u : Unit}

theorem body (hP : P.Respects R) (hR : R h h') (m : Nat) (message : Message V) :
    P.body h m message = P.body h' m message := by
  simp only [BorrowingProgram.body, hP.models h h' hR, hP.block h h' hR]

theorem step (hP : P.Respects R) (hR : R s.heap h') (hStep : Borrowing.step P s u = some t) :
    ∃ k, R t.heap k ∧ Borrowing.step P { s with heap := h' } u = some { t with heap := k } := by
  cases Borrowing.step_move hStep with
  | returned c calls hCalls hRest =>
    exact ⟨h', hR, by simp [Borrowing.step, hCalls, hRest]⟩
  | panicked c calls a rest g hCalls hRest hAsks hNone =>
    exact ⟨h', hR, by
      simp [Borrowing.step, hCalls, hRest, hAsks, Borrowing.refuses, hNone, Borrowing.unwind,
        Borrowing.guards]⟩
  | borrowed c calls b cell rest flag hCalls hRest hFlag =>
    exact ⟨h', hR, by
      simp [Borrowing.step, hCalls, hRest, Access.asks, Borrowing.refuses, hFlag,
        Borrowing.perform, Borrowing.take]⟩
  | dropped c calls i rest hCalls hRest =>
    exact ⟨h', hR, by
      simp [Borrowing.step, hCalls, hRest, Access.asks, Borrowing.refuses, Borrowing.perform]⟩
  | sent c calls m message rest body flag hCalls hRest hBody hFlag =>
    rw [hP.body hR] at hBody
    exact ⟨h', hR, by
      simp [Borrowing.step, hCalls, hRest, Access.asks, Borrowing.refuses, hFlag,
        Borrowing.perform, Borrowing.take, hBody]⟩
  | acted c calls a stmt rest heap hCalls hRest hStmt hFree hHeap =>
    obtain ⟨k, hk, hRk⟩ := hP.apply _ _ hR _ _ hHeap
    refine ⟨k, hRk, ?_⟩
    have hNext := Borrowing.step_of_free (P := P) (s := { s with heap := h' }) (u := u) hCalls hRest
      hFree
    exact hNext.trans (Borrowing.perform_stmt hStmt hk)

theorem run (hP : P.Respects R) {as : List Unit} (hR : R s.heap h')
    (hRun : Runs.run (Borrowing.step P) s as = some t) : ∃ k, R t.heap k ∧
      Runs.run (Borrowing.step P) { s with heap := h' } as = some { t with heap := k } := by
  induction as generalizing s h' with
  | nil =>
    cases hRun
    exact ⟨h', hR, rfl⟩
  | cons a as ih =>
    obtain ⟨m, hStep, hRest⟩ := run_cons_eq_some.mp hRun
    obtain ⟨k, hk, hStep'⟩ := hP.step hR hStep
    obtain ⟨k', hk', hRest'⟩ := ih hk hRest
    exact ⟨k', hk', run_cons_eq_some.mpr ⟨_, hStep', hRest'⟩⟩

/-- The same without the borrows. -/
theorem running (hP : P.Respects R) {rest rest' : List (Stmt V K T)} {k : Heap K T} (hR : R h h')
    (hStep : P.toProgram.step ⟨h, rest⟩ u = some ⟨k, rest'⟩) :
    ∃ k', R k k' ∧ P.toProgram.step ⟨h', rest⟩ u = some ⟨k', rest'⟩ := by
  rcases Program.step_cases hStep with
    ⟨stmt, more, hEq, hHeap, hLeft⟩ | ⟨m, message, body, more, hEq, hBody, hLeft⟩
  · simp only at hEq hHeap hLeft
    obtain ⟨k', hk', hRk⟩ := hP.apply _ _ hR _ _ hHeap
    rw [hEq, hLeft]
    exact ⟨k', hRk, Program.step_act (P := P.toProgram) hk'⟩
  · simp only at hEq hBody hLeft
    cases hLeft
    rw [Borrowing.toProgram_body, hP.body hR, ← Borrowing.toProgram_body] at hBody
    rw [hEq]
    exact ⟨h', hR, Program.step_send hBody⟩

end BorrowingProgram.Respects

/-! ### Code that looks at no signal -/

/-- Blocks that only look at the models, like code whose `update` closures are all that reads a
signal. -/
def BorrowingProgram.OnlyModels {V K T : Type} (P : BorrowingProgram V K T) : Prop :=
  ∀ k block env m h h', h.models = h'.models → P.block k block env m h = P.block k block env m h'

def Heap.SameShape {K T : Type} (h h' : Heap K T) : Prop :=
  h.models = h'.models ∧ h.signals.length = h'.signals.length

theorem Heap.SameShape.apply {V K T : Type} {full : List SignalStatus → Bool} {h h' k : Heap K T}
    (hSame : h.SameShape h') {stmt : Stmt V K T} (hHeap : h.apply full stmt = some k) :
    ∃ k', h'.apply full stmt = some k' ∧ k.SameShape k' := by
  obtain ⟨hModels, hLength⟩ := hSame
  cases Heap.apply_move hHeap with
  | newSignal value => exact ⟨_, rfl, hModels, by simp [hLength]⟩
  | newModel model => exact ⟨_, rfl, by simp [hModels], hLength⟩
  | assign m model hm =>
    rw [hModels] at hm
    exact ⟨_, if_pos hm, by simp [hModels], hLength⟩
  | use σ u r hr =>
    have hσ : σ < h'.signals.length := hLength ▸ (List.getElem?_eq_some_iff.mp hr).1
    have hUsed : h'.apply full (.use σ u : Stmt V K T) =
        some { h' with signals := h'.signals.set σ (u.apply full h'.signals[σ]) } := by
      simp [Heap.apply, hσ]
    exact ⟨_, hUsed, hModels, by simp [hLength]⟩

theorem BorrowingProgram.OnlyModels.respects {V K T : Type} {P : BorrowingProgram V K T}
    (hP : P.OnlyModels) : P.Respects Heap.SameShape where
  models _ _ hSame := hSame.1
  block _ _ hSame k block env m := hP k block env m _ _ hSame.1
  apply _ _ hSame _ _ hHeap := hSame.apply hHeap

theorem Heap.SameShape.touch {K T : Type} {full : List SignalStatus → Bool} {h h' : Heap K T}
    {σ : Nat} {a : SignalAtom T} (hSame : h.SameShape h') : h.SameShape (h'.touch full σ a) :=
  ⟨hSame.1, by simp [Heap.touch, hSame.2]⟩

namespace Borrowing

variable {V K T : Type} {P : BorrowingProgram V K T} {s t : Borrowing K V T} {depth : Cell → Nat}

/-- Other threads do not lead the code elsewhere. -/
theorem Meddled.run (hP : P.OnlyModels) (hMeddled : ReflTransGen (Meddled P) s t) : ∃ as c h,
    Runs.run (Borrowing.step P) s as = some c ∧ c.heap.SameShape h ∧ t = { c with heap := h } := by
  induction hMeddled with
  | refl => exact ⟨[], s, s.heap, rfl, ⟨rfl, rfl⟩, rfl⟩
  | @tail _ d _ hLast ih =>
    obtain ⟨as, c, h, hRun, hSame, rfl⟩ := ih
    cases hLast with
    | touched σ a => exact ⟨as, c, _, hRun, hSame.touch, rfl⟩
    | step _ hStep =>
      have hBack : Heap.SameShape h c.heap := ⟨hSame.1.symm, hSame.2.symm⟩
      obtain ⟨k, hk, hNext⟩ := hP.respects.step (s := { c with heap := h }) hBack hStep
      exact ⟨as ++ [()], { d with heap := k }, d.heap, run_trans hRun (run_singleton.trans hNext),
        ⟨hk.1.symm, hk.2.symm⟩, rfl⟩

/-- Code that looks at no signal, and comes to its end in a nested tree when it is left alone, does
so whatever the others do to the signals meanwhile. -/
theorem ends_of_alone (hP : P.OnlyModels)
    (hNested : ∀ as c, Runs.run (Borrowing.step P) s as = some c → c.heap.Nested depth)
    (hEnds : ∃ as last, Runs.run (Borrowing.step P) s as = some last ∧ last.calls = [])
    (hMeddled : ReflTransGen (Meddled P) s t) : t.heap.Nested depth ∧
      ∃ as last, Runs.run (Borrowing.step P) t as = some last ∧ last.calls = [] := by
  obtain ⟨as, c, h, hRun, hSame, rfl⟩ := Meddled.run hP hMeddled
  refine ⟨(hNested as c hRun).of_models hSame.1.symm, ?_⟩
  obtain ⟨bs, last, hAll, hDone⟩ := hEnds
  obtain ⟨cs, hRest⟩ := exists_rest hRun hAll (step_done hDone)
  obtain ⟨k, -, hRest'⟩ := hP.respects.run hSame hRest
  exact ⟨cs, _, hRest', hDone⟩

end Borrowing

/-! ### Code that does not look at who listens -/

/-- Blocks that look at the models and the values of the signals, and not at their subscribers. -/
def BorrowingProgram.ValuesOnly {V K T : Type} (P : BorrowingProgram V K T) : Prop :=
  ∀ k block env m h h', h.models = h'.models →
    h.signals.map SignalRepr.data = h'.signals.map SignalRepr.data →
    P.block k block env m h = P.block k block env m h'

theorem BorrowingProgram.OnlyModels.valuesOnly {V K T : Type} {P : BorrowingProgram V K T}
    (hP : P.OnlyModels) : P.ValuesOnly :=
  fun k block env m h h' hModels _ => hP k block env m h h' hModels

/-- The same models, and signals of the same values. -/
structure Heap.Alike {K T : Type} (h h' : Heap K T) : Prop where
  models : h.models = h'.models
  values : h.signals.map SignalRepr.data = h'.signals.map SignalRepr.data

theorem SignalUse.apply_data_congr {T : Type} {full : List SignalStatus → Bool}
    {r r' : SignalRepr T} (hData : r.data = r'.data) (u : SignalUse T) :
    (u.apply full r).data = (u.apply full r').data := by
  have hRecv (r : SignalRepr T) (i : Nat) : ((SignalAtom.recv i).apply full r).data = r.data :=
    SignalAtom.apply_data rfl
  cases u with
  | recv i => exact (hRecv r i).trans (hData.trans (hRecv r' i).symm)
  | write f => exact congrArg f hData
  | update f => exact congrArg f hData
  | _ => exact hData

theorem map_modify_of_same {α β : Type} {g : α → β} {f : α → α} (h : ∀ x, g (f x) = g x)
    (l : List α) (i : Nat) : (l.modify i f).map g = l.map g := by
  refine List.ext_getElem? fun j => ?_
  rw [List.getElem?_map, List.getElem?_map, List.getElem?_modify]
  cases l[j]? with
  | none => rfl
  | some x => by_cases hi : i = j <;> simp [hi, h]

namespace Heap.Alike

variable {V K T : Type} {full : List SignalStatus → Bool} {h h' k : Heap K T} {σ : Nat}

theorem refl (h : Heap K T) : h.Alike h := ⟨rfl, rfl⟩

theorem apply (hAlike : h.Alike h') {stmt : Stmt V K T} (hHeap : h.apply full stmt = some k) :
    ∃ k', h'.apply full stmt = some k' ∧ k.Alike k' := by
  obtain ⟨hModels, hValues⟩ := hAlike
  cases Heap.apply_move hHeap with
  | newSignal value => exact ⟨_, rfl, hModels, by simp [hValues]⟩
  | newModel model => exact ⟨_, rfl, by simp [hModels], hValues⟩
  | assign m model hm =>
    rw [hModels] at hm
    exact ⟨_, if_pos hm, by simp [hModels], hValues⟩
  | use σ u r hr =>
    have hData : h'.signals[σ]?.map SignalRepr.data = some r.data := by
      rw [← List.getElem?_map, ← hValues, List.getElem?_map, hr, Option.map_some]
    obtain ⟨r', hr', hSame⟩ := Option.map_eq_some_iff.mp hData
    have hUsed : h'.apply full (.use σ u : Stmt V K T) =
        some { h' with signals := h'.signals.set σ (u.apply full r') } := by
      simp [Heap.apply, hr']
    refine ⟨_, hUsed, hModels, ?_⟩
    simp only [List.map_set, hValues, SignalUse.apply_data_congr hSame.symm u]

/-- Somebody changes something about a signal, but not its value. -/
theorem modify (hAlike : h.Alike h') {f : SignalRepr T → SignalRepr T}
    (hSame : ∀ r, (f r).data = r.data) :
    ({ h with signals := h.signals.modify σ f } : Heap K T).Alike h' :=
  ⟨hAlike.models, (map_modify_of_same hSame _ _).trans hAlike.values⟩

theorem touch (hAlike : h.Alike h') {a : SignalAtom T} (hNot : a.isWrite = false) :
    (h.touch full σ a).Alike h' :=
  hAlike.modify fun _ => SignalAtom.apply_data hNot

theorem flush_right (hAlike : h.Alike h') : h.Alike (h'.flush full σ) :=
  ⟨hAlike.models, hAlike.values.trans (map_modify_of_same (SignalRepr.flush_data _) _ _).symm⟩

end Heap.Alike

theorem BorrowingProgram.ValuesOnly.respects {V K T : Type} {P : BorrowingProgram V K T}
    (hP : P.ValuesOnly) : P.Respects Heap.Alike where
  models _ _ hAlike := hAlike.models
  block _ _ hAlike k block env m := hP k block env m _ _ hAlike.models hAlike.values
  apply _ _ hAlike _ _ hHeap := hAlike.apply hHeap

end Emyu.ModelTree
