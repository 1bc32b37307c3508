import Emyu.ModelTree

/-! Which signals a message leaves dirty. The host flushes what the getters of the root model
return, so a signal of a model below the root stays as it was written. -/

namespace Emyu.ModelTree

open Macro

variable {V K T : Type} {P : Program V K T} {h h' : Heap K T}

theorem apply_dirty {full : List SignalStatus → Bool} {stmt : Stmt V K T}
    (ha : h.apply full stmt = some h') (σ : Nat) :
    h'.dirty σ = (h.dirty σ || decide (σ ∈ stmt.written)) := by
  cases Heap.apply_move ha with
  | newSignal value =>
    simp only [Heap.dirty, Stmt.written]
    by_cases hσ : σ < h.signals.length
    · simp [List.getElem?_append_left hσ]
    · have hNone : h.signals[σ]? = none := List.getElem?_eq_none (by omega)
      rw [List.getElem?_append_right (by omega), hNone]
      cases σ - h.signals.length <;> rfl
  | newModel model => simp [Heap.dirty, Stmt.written]
  | assign m model => simp [Heap.dirty, Stmt.written]
  | use τ u r hr =>
    have hτ := (List.getElem?_eq_some_iff.mp hr).1
    by_cases hσ : τ = σ
    · subst hσ
      have hDirty : h.dirty τ = r.dirty := by simp [Heap.dirty, hr]
      cases hu : u.isUpdate <;>
        simp [Heap.dirty, Stmt.written, hτ, SignalUse.apply_dirty, hu, ← hDirty]
    · have hNe : σ ∉ Stmt.written (V := V) (K := K) (.use τ u) := by
        cases hu : u.isUpdate <;> simp [Stmt.written, hu, Ne.symm hσ]
      simp [Heap.dirty, List.getElem?_set_ne hσ, hNe]

/-- A signal is dirty after some code if it was before or the code wrote it. -/
theorem exec_dirty {stmts : List (Stmt V K T)} {written : List Nat}
    (he : P.Exec h stmts h' written) (σ : Nat) :
    h'.dirty σ = (h.dirty σ || decide (σ ∈ written)) := by
  induction he with
  | done h => simp
  | act ha _ ih => simp [ih, apply_dirty ha, Bool.or_assoc]
  | send _ _ _ ihBody ihRest => simp [ihRest, ihBody, Bool.or_assoc]

theorem foldl_flush_models (full : List SignalStatus → Bool) (queue : List Nat) (h : Heap K T) :
    (queue.foldl (Heap.flush full) h).models = h.models := by
  induction queue generalizing h with
  | nil => rfl
  | cons τ rest ih => rw [List.foldl_cons, ih, Heap.flush]

/-- The loop flushes what is queued, once as good as often, and leaves the rest alone. -/
theorem foldl_flush_signals (full : List SignalStatus → Bool) (queue : List Nat) (h : Heap K T)
    (σ : Nat) : (queue.foldl (Heap.flush full) h).signals[σ]? =
      if σ ∈ queue then h.signals[σ]?.map (SignalRepr.flush full) else h.signals[σ]? := by
  induction queue generalizing h with
  | nil => rfl
  | cons τ rest ih =>
    have hOne : (h.flush full τ).signals[σ]? =
        if τ = σ then h.signals[σ]?.map (SignalRepr.flush full) else h.signals[σ]? := by
      simp only [Heap.flush, List.getElem?_modify]
      split <;> simp
    rw [List.foldl_cons, ih, hOne]
    by_cases hτ : τ = σ
    · subst hτ
      have hTwice : SignalRepr.flush full ∘ SignalRepr.flush (T := T) full =
          SignalRepr.flush full := by
        funext r
        exact SignalRepr.flush_of_clean (SignalRepr.flush_dirty full r)
      simp [hTwice]
    · simp [hτ, Ne.symm hτ]

/-- The generated `__accumulate_signals` pushes the fields that the generated getters clone. -/
theorem build_accumulateSignals {tools : Toolchain} {item : InterfaceImpl} {attrs : RawModelArgs}
    {x : Expansion} (hb : build tools item attrs = .ok x) :
    x.implModel.accumulateSignals.map AccumulateSignal.fieldName =
      x.getterMessages.map GetterMessage.fieldName := by
  obtain ⟨c, _, hx⟩ := bind_ok hb
  cases hx
  simp [ModelContext.generate, ModelContext.generateImplModel, Function.comp_def,
    ParsedGetterFn.generateAccumulateSignals, ParsedGetterFn.generateMessageStructAndTraitImpls]

theorem mem_accumulateSignals {m σ : Nat} :
    σ ∈ P.accumulateSignals h m ↔ ∃ g, P.get h m g = some σ := by
  unfold Program.accumulateSignals Program.get
  cases hm : h.models[m]? with
  | none => simp
  | some model =>
    obtain ⟨tools, item, attrs, hb⟩ := P.generated model.type
    have hFields := build_accumulateSignals hb
    have hMem : ∀ name, name ∈ (P.expansion model.type).implModel.accumulateSignals.map
        AccumulateSignal.fieldName ↔ ∃ g : Nat, ((P.expansion model.type).getterMessages[g]?.map
        GetterMessage.fieldName) = some name := by
      intro name
      rw [hFields, List.mem_iff_getElem?]
      simp
    constructor
    · intro h
      obtain ⟨a, ha, hσ⟩ := List.mem_filterMap.mp h
      obtain ⟨g, hg⟩ := (hMem a.fieldName).mp (List.mem_map_of_mem ha)
      obtain ⟨message, hMessage, hName⟩ := Option.map_eq_some_iff.mp hg
      exact ⟨g, by simp [hMessage, hName, hσ]⟩
    · intro h
      obtain ⟨g, hg⟩ := h
      simp only [Option.bind_eq_bind, Option.bind_some, Option.bind_eq_some_iff] at hg
      obtain ⟨message, hMessage, hσ⟩ := hg
      obtain ⟨a, ha, hName⟩ := List.mem_map.mp
        ((hMem message.fieldName).mpr ⟨g, by simp [hMessage]⟩)
      exact List.mem_filterMap.mpr ⟨a, ha, hName ▸ hσ⟩

theorem observable_congr (hm : h.models = h'.models) {root σ : Nat} :
    P.Observable h root σ ↔ P.Observable h' root σ := by
  have hZoom : ∀ lenses m, h.zoom m lenses = h'.zoom m lenses := by
    intro lenses
    induction lenses with
    | nil => intro m; rfl
    | cons lens rest ih => intro m; simp only [Heap.zoom, hm, ih]
  simp only [Program.Observable, Program.get, hZoom, hm]

namespace TreeHost

variable {s s' : TreeHost K T} {message : Message V} {updated : Heap K T} {written : List Nat}

/-- The host flushed the signal as the message left it. -/
def Flushed (P : Program V K T) (updated : Heap K T) (s' : TreeHost K T) (σ : Nat) : Prop :=
  s'.heap.dirty σ = false ∧
    s'.heap.signals[σ]? = updated.signals[σ]?.map (SignalRepr.flush P.full)

/-- Every observable signal that the message wrote is flushed, and nothing is left to flush. -/
def FlushesWritten (P : Program V K T) (updated : Heap K T) (written : List Nat)
    (s' : TreeHost K T) : Prop :=
  s'.signals = [] ∧ ∀ σ ∈ written, P.Observable s'.heap s'.root σ → Flushed P updated s' σ

theorem Reachable.signals (hr : Reachable P s) : s.signals = [] := by
  induction hr with
  | new root heap => rfl
  | others _ _ ih => exact ih
  | handled _ hh _ =>
    cases hh
    rfl

/-- What the message wrote is dirty when the update returns. -/
theorem Handles.dirty (hh : Handles P s message s' updated written) {σ : Nat}
    (hσ : σ ∈ written) : updated.dirty σ = true := by
  obtain ⟨hi, hu⟩ := hh
  rw [exec_dirty hu, exec_dirty hi]
  obtain hw | hw := List.mem_append.mp hσ <;> simp [hw]

theorem Handles.models (hh : Handles P s message s' updated written) :
    s'.heap.models = updated.models ∧ s'.root = s.root := by
  obtain ⟨hi, hu⟩ := hh
  exact ⟨foldl_flush_models .., rfl⟩

/-- The cells after the message: those that the root model's getters return are flushed. -/
theorem Handles.cells (hr : Reachable P s) (hh : Handles P s message s' updated written)
    (σ : Nat) : s'.heap.signals[σ]? =
      if σ ∈ P.accumulateSignals updated s.root
      then updated.signals[σ]?.map (SignalRepr.flush P.full) else updated.signals[σ]? := by
  obtain ⟨hi, hu⟩ := hh
  simp only [flushAll, hr.signals, List.nil_append]
  exact foldl_flush_signals ..

theorem flushed_of_get (hr : Reachable P s) (hh : Handles P s message s' updated written)
    {σ g : Nat} (hg : P.get updated s.root g = some σ) : Flushed P updated s' σ := by
  have hCell := hh.cells hr σ
  rw [if_pos (mem_accumulateSignals.mpr ⟨g, hg⟩)] at hCell
  refine ⟨?_, hCell⟩
  rw [Heap.dirty, hCell]
  cases updated.signals[σ]? with
  | none => rfl
  | some r => exact SignalRepr.flush_dirty P.full r

/-- A written signal that no getter of the root returns stays dirty. -/
theorem dirty_of_no_get (hr : Reachable P s) (hh : Handles P s message s' updated written)
    {σ : Nat} (hσ : σ ∈ written) (hg : ¬∃ g, P.get updated s.root g = some σ) :
    s'.heap.dirty σ = true := by
  have hCell := hh.cells hr σ
  rw [if_neg fun hMem => hg (mem_accumulateSignals.mp hMem)] at hCell
  rw [Heap.dirty, hCell]
  exact hh.dirty hσ

theorem flushes_written_iff (hr : Reachable P s) (hh : Handles P s message s' updated written) :
    FlushesWritten P updated written s' ↔
      ∀ σ ∈ written, P.Observable updated s.root σ → ∃ g, P.get updated s.root g = some σ := by
  have hObserve : ∀ σ, P.Observable s'.heap s'.root σ ↔ P.Observable updated s.root σ := by
    intro σ
    rw [hh.models.2]
    exact observable_congr hh.models.1
  constructor
  · intro hf σ hσ ho
    by_contra hg
    have hDirty := dirty_of_no_get hr hh hσ hg
    have hClean := (hf.2 σ hσ ((hObserve σ).mpr ho)).1
    exact Bool.false_ne_true (hClean.symm.trans hDirty)
  · intro hg
    refine ⟨(Reachable.handled hr hh).signals, ?_⟩
    intro σ hσ ho
    obtain ⟨g, hGet⟩ := hg σ hσ ((hObserve σ).mp ho)
    exact flushed_of_get hr hh hGet

end TreeHost

section House

inductive HouseModels where
  | house
  | lamp

def houseArgs (message updater getter : Ident) : RawModelArgs where
  forApp := "App"
  message := ⟨some message, []⟩
  dispatcher := some (.config ⟨some ⟨some updater, some getter⟩, none⟩)
  flutterRustBridge := false

def houseGetter (name message : Ident) : MaybeStubFn :=
  ⟨[[message]], ["pub"], ⟨false, false, false, none, name, [], [.receiver true false], false,
    .type (.path [] [⟨"Signal", .angleBracketed [.type (.other ["bool"])]⟩])⟩, none⟩

def lampImpl : InterfaceImpl where
  vis := ["pub"]
  selfTy := .path [] [⟨"LampModel", .none⟩]
  items := [gaugeFn "toggle" "Toggle" [] ["{ self.light.writer().update(|x| *x = !*x); }"],
    houseGetter "light" "Light"]

/-- `toggle` calls the lamp's updater, `lock` writes a signal of the house. -/
def houseImpl : InterfaceImpl where
  vis := ["pub"]
  selfTy := .path [] [⟨"HouseModel", .none⟩]
  items := [gaugeFn "toggle" "Toggle" [] ["{ self.lamp.update(LampMessage::Toggle {}); }"],
    gaugeFn "lock" "Lock" [] ["{ self.locked.writer().update(|x| *x = !*x); }"],
    houseGetter "locked" "Locked"]

def houseItem : HouseModels → InterfaceImpl
  | .house => houseImpl
  | .lamp => lampImpl

def houseRawArgs : HouseModels → RawModelArgs
  | .house => houseArgs "HouseMessage" "HouseUpdater" "HouseGetter"
  | .lamp => houseArgs "LampMessage" "LampUpdater" "LampGetter"

def houseBuild (k : HouseModels) : Except Failure Expansion :=
  build gaugeTools (houseItem k) (houseRawArgs k)

/-- `self.field.writer().update(|x| *x = !*x)`: the temporary writer is dropped after it. -/
def houseSignal (h : Heap HouseModels Bool) (m : Nat) (field : Ident) :
    List (Stmt Unit HouseModels Bool) :=
  (h.models[m]?.bind fun model => model.signals field).toList.flatMap fun σ =>
    [.use σ (.update not), .use σ .drop]

def houseFull (q : List SignalStatus) : Bool := 1 < q.length

def houseProgram : Program Unit HouseModels Bool where
  full := houseFull
  expansion := fun k => (houseBuild k).toOption.get (by cases k <;> rfl)
  generated := by
    intro k
    refine ⟨gaugeTools, houseItem k, houseRawArgs k, ?_⟩
    cases k <;> rfl
  block
    | .lamp, _, _, m, h => houseSignal h m "light"
    | .house, ["{ self.lamp.update(LampMessage::Toggle {}); }"], _, m, h =>
      (h.models[m]?.bind fun model => model.children "lamp").toList.map fun child =>
        .send child ⟨"Toggle", []⟩
    | .house, _, _, m, h => houseSignal h m "locked"

/-- The house in cell 0 and its lamp in cell 1, with a subscriber to each of their signals. -/
def houseHeap : Heap HouseModels Bool where
  models := [⟨.house, fun field => if field = "locked" then some 0 else none,
      fun field => if field = "lamp" then some 1 else none⟩,
    ⟨.lamp, fun field => if field = "light" then some 1 else none, fun _ => none⟩]
  signals := [(SignalRepr.new false).subscribe, (SignalRepr.new false).subscribe]

def houseHost : TreeHost HouseModels Bool := .new 0 houseHeap

def litHeap : Heap HouseModels Bool :=
  { houseHeap with signals :=
      [(SignalRepr.new false).subscribe,
        ((SignalRepr.new false).subscribe.update not).drop houseFull] }

theorem house_toggles : TreeHost.Handles houseProgram houseHost ⟨"Toggle", []⟩
    (.flushAll houseProgram.full ⟨0, [0], litHeap⟩) litHeap [1] := by
  have hLight : houseProgram.Exec houseHeap [.use 1 (.update not), .use 1 .drop] litHeap
      ([1] ++ ([] ++ [])) := .act rfl (.act rfl (.done _))
  have hLamp : houseProgram.Exec houseHeap [.send 1 ⟨"Toggle", []⟩] litHeap
      ([1] ++ ([] ++ []) ++ []) := .send rfl hLight (.done _)
  have hHouse : houseProgram.Exec houseHeap [.send 0 ⟨"Toggle", []⟩] litHeap
      ([1] ++ ([] ++ []) ++ [] ++ []) := .send rfl hLamp (.done _)
  exact .intro (s := houseHost) (.done _) hHouse

/-- A subscriber of the lamp is not told `Changed` by the message that switched it on; all it is
sent is the `Destroyed` of the temporary writer. -/
theorem child_signal_stays_dirty : TreeHost.Reachable houseProgram houseHost ∧
    ∃ s', TreeHost.Handles houseProgram houseHost ⟨"Toggle", []⟩ s' litHeap [1] ∧
      ¬TreeHost.FlushesWritten houseProgram litHeap [1] s' ∧
      (s'.heap.signals[1]?.map fun r => r.channel 0) = some ⟨[.destroyed], true⟩ := by
  refine ⟨.new 0 houseHeap, _, house_toggles, ?_, rfl⟩
  intro hf
  have hObservable : houseProgram.Observable litHeap 0 1 := ⟨["lamp"], 1, 0, rfl, rfl⟩
  have hClean := (hf.2 1 (List.mem_singleton.mpr rfl) hObservable).1
  exact absurd hClean (by decide)

def lockedHeap : Heap HouseModels Bool :=
  { houseHeap with signals :=
      [((SignalRepr.new false).subscribe.update not).drop houseFull,
        (SignalRepr.new false).subscribe] }

theorem house_locks : TreeHost.Handles houseProgram houseHost ⟨"Lock", []⟩
    (.flushAll houseProgram.full ⟨0, [0], lockedHeap⟩) lockedHeap [0] := by
  have hLocked : houseProgram.Exec houseHeap [.use 0 (.update not), .use 0 .drop] lockedHeap
      ([0] ++ ([] ++ [])) := .act rfl (.act rfl (.done _))
  have hHouse : houseProgram.Exec houseHeap [.send 0 ⟨"Lock", []⟩] lockedHeap
      ([0] ++ ([] ++ []) ++ []) := .send rfl hLocked (.done _)
  exact .intro (s := houseHost) (.done _) hHouse

theorem flushes_written_iff_lock : TreeHost.FlushesWritten houseProgram lockedHeap [0]
    (.flushAll houseProgram.full ⟨0, [0], lockedHeap⟩) := by
  apply (TreeHost.flushes_written_iff (.new 0 houseHeap) house_locks).mpr
  intro σ hσ _
  rw [List.mem_singleton.mp hσ]
  exact ⟨0, rfl⟩

end House

end Emyu.ModelTree
