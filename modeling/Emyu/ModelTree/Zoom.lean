import Emyu.ModelTree.Deferred

/-! What a zoomed handle refers to: `zoom` follows its lens once and keeps the model it finds, so it
agrees with a handle zoomed afresh as long as nothing makes a lens of its chain pick another one. -/

namespace Emyu.ModelTree

open Macro Runs

variable {V K T : Type} {P : Program V K T} {h h' : Heap K T}

/-- The `ModelBase` that a function of the parent model picks. It can read what the model leads to,
values of signals as well. -/
abbrev Lens (K T : Type) := Heap K T → Model K → Option Nat

/-- `lens!(Parent => field)`. -/
def lens (field : Ident) : Lens K T := fun _ model => model.children field

/-- A chain of `ModelBase::zoom`s from the model in cell `m`, by any lenses. -/
def Heap.zoomBy (h : Heap K T) : Nat → List (Lens K T) → Option Nat
  | m, [] => some m
  | m, l :: lenses => (h.models[m]?.bind (l h)).bind fun child => h.zoomBy child lenses

/-- By the lenses of `lens!` it is the zoom of the tree's handles. -/
theorem zoomBy_lens (m : Nat) (fields : List Ident) :
    h.zoomBy m (fields.map lens) = h.zoom m fields := by
  induction fields generalizing m with
  | nil => rfl
  | cons field rest ih =>
    simp only [List.map_cons, Heap.zoomBy, Heap.zoom, ih]
    rfl

/-- A zoom of the chain: the model it read, the lens, and the child it found there. -/
structure Hop (K T : Type) where
  parent : Nat
  lens : Lens K T
  child : Nat

/-- The zooms that a chain of lenses made. -/
def Heap.hops (h : Heap K T) : Nat → List (Lens K T) → List (Hop K T)
  | _, [] => []
  | m, l :: lenses =>
    match h.models[m]?.bind (l h) with
    | some child => ⟨m, l, child⟩ :: h.hops child lenses
    | none => []

/-- The lens still finds the same child. -/
def Heap.Holds (h : Heap K T) (hop : Hop K T) : Prop :=
  h.models[hop.parent]?.bind (hop.lens h) = some hop.child

instance (h : Heap K T) (hop : Hop K T) : Decidable (h.Holds hop) :=
  inferInstanceAs (Decidable (h.models[hop.parent]?.bind (hop.lens h) = some hop.child))

/-- No lens of the chain comes to pick another model. -/
def Heap.Keeps (hops : List (Hop K T)) (h h' : Heap K T) : Prop :=
  ∀ hop ∈ hops, h.Holds hop → h'.Holds hop

instance (hops : List (Hop K T)) (h h' : Heap K T) : Decidable (h.Keeps hops h') :=
  inferInstanceAs (Decidable (∀ hop ∈ hops, h.Holds hop → h'.Holds hop))

theorem hops_hold {m child : Nat} {lenses : List (Lens K T)}
    (hZoom : h.zoomBy m lenses = some child) : ∀ hop ∈ h.hops m lenses, h.Holds hop := by
  induction lenses generalizing m with
  | nil => simp [Heap.hops]
  | cons l rest ih =>
    obtain ⟨next, hNext, hRest⟩ := Option.bind_eq_some_iff.mp hZoom
    simp only [Heap.hops, hNext, List.forall_mem_cons]
    exact ⟨hNext, ih hRest⟩

theorem lens_mem_of_hops {m : Nat} {lenses : List (Lens K T)} :
    ∀ hop ∈ h.hops m lenses, hop.lens ∈ lenses := by
  induction lenses generalizing m with
  | nil => simp [Heap.hops]
  | cons l rest ih =>
    unfold Heap.hops
    split
    · exact List.forall_mem_cons.mpr ⟨List.mem_cons_self, fun hop hMem =>
        List.mem_cons_of_mem _ (ih hop hMem)⟩
    · simp

/-- Where the zooms of a chain still find what they found, the chain leads to the same model. -/
theorem zoomBy_of_holds {m child : Nat} {lenses : List (Lens K T)}
    (hZoom : h.zoomBy m lenses = some child) (hHolds : ∀ hop ∈ h.hops m lenses, h'.Holds hop) :
    h'.zoomBy m lenses = some child := by
  induction lenses generalizing m with
  | nil => exact hZoom
  | cons l rest ih =>
    obtain ⟨next, hNext, hRest⟩ := Option.bind_eq_some_iff.mp hZoom
    simp only [Heap.hops, hNext, List.forall_mem_cons] at hHolds
    have hFirst : h'.models[m]?.bind (l h') = some next := hHolds.1
    simp only [Heap.zoomBy, hFirst, Option.bind_some]
    exact ih hRest hHolds.2

/-- The next statement keeps the chain. -/
def Program.Keeps (P : Program V K T) (hops : List (Hop K T)) (c : Running V K T) (u : Unit) :
    Prop :=
  ∀ d ∈ P.step c u, c.heap.Keeps hops d.heap

instance (hops : List (Hop K T)) (c : Running V K T) (u : Unit) : Decidable (P.Keeps hops c u) :=
  inferInstanceAs (Decidable (∀ d ∈ P.step c u, c.heap.Keeps hops d.heap))

/-- The flush of one signal. -/
def Program.flushStep (P : Program V K T) (h : Heap K T) (σ : Nat) : Option (Heap K T) :=
  some (h.flush P.full σ)

/-- The next flush keeps the chain. -/
def Program.FlushKeeps (P : Program V K T) (hops : List (Hop K T)) (h : Heap K T) (σ : Nat) :
    Prop :=
  h.Keeps hops (h.flush P.full σ)

instance (hops : List (Hop K T)) (h : Heap K T) (σ : Nat) : Decidable (P.FlushKeeps hops h σ) :=
  inferInstanceAs (Decidable (h.Keeps hops (h.flush P.full σ)))

/-- Code that keeps the chain in every step keeps what its zooms find. -/
theorem holds_of_run {hops : List (Hop K T)} {c d : Running V K T} {as : List Unit}
    (hRun : run P.step c as = some d) (hKeeps : Every P.step (P.Keeps hops) c as) :
    c.heap.Keeps hops d.heap := by
  induction as generalizing c with
  | nil => cases hRun; exact fun _ _ hHolds => hHolds
  | cons a as ih =>
    obtain ⟨m, hStep, hRest⟩ := run_cons_eq_some.mp hRun
    obtain ⟨hFirst, hLater⟩ := hKeeps
    exact fun hop hMem hHolds => ih hRest (hLater m hStep) hop hMem (hFirst m hStep hop hMem hHolds)

/-- And so do flushes. -/
theorem holds_of_flushes {hops : List (Hop K T)} {queue : List Nat}
    (hKeeps : Every P.flushStep (P.FlushKeeps hops) h queue) :
    h.Keeps hops (queue.foldl (Heap.flush P.full) h) := by
  induction queue generalizing h with
  | nil => exact fun _ _ hHolds => hHolds
  | cons σ queue ih =>
    obtain ⟨hFirst, hLater⟩ := hKeeps
    exact fun hop hMem hHolds => ih (hLater _ rfl) hop hMem (hFirst hop hMem hHolds)

/-! ### Lenses that read nothing but the model -/

/-- The lens looks at the fields of the parent alone, as those of `lens!` do. -/
def Lens.Direct (l : Lens K T) : Prop := ∀ h h' model, l h model = l h' model

theorem lens_direct (field : Ident) : (lens field : Lens K T).Direct := fun _ _ _ => rfl

/-- The statement writes a model that the chain read so that a lens picks something else. -/
def Stmt.rewires (h : Heap K T) (hops : List (Hop K T)) : Stmt V K T → Prop
  | .assign m model => ∃ hop ∈ hops, hop.parent = m ∧ hop.lens h model ≠ some hop.child
  | _ => False

/-- For such lenses nothing matters but writes of the models that the chain read. -/
theorem keeps_of_direct {stmt : Stmt V K T} {hops : List (Hop K T)}
    (hDirect : ∀ hop ∈ hops, hop.lens.Direct) (ha : h.apply P.full stmt = some h')
    (hKeep : ¬stmt.rewires h hops) : h.Keeps hops h' := by
  intro hop hMem hHolds
  have hSame (parent : Model K) : hop.lens h' parent = hop.lens h parent := hDirect hop hMem h' h _
  obtain ⟨parent, hGet, hLens⟩ := Option.bind_eq_some_iff.mp hHolds
  have hStill (hGet' : h'.models[hop.parent]? = some parent) : h'.Holds hop := by
    rw [Heap.Holds, hGet', Option.bind_some, hSame, hLens]
  cases Heap.apply_move ha with
  | newSignal | use => exact hStill hGet
  | newModel model =>
    have hLt := (List.getElem?_eq_some_iff.mp hGet).1
    exact hStill (by rw [List.getElem?_append_left hLt, hGet])
  | assign m model hm =>
    by_cases hParent : m = hop.parent
    · subst hParent
      have hPick : hop.lens h model = some hop.child := by
        by_contra hOther
        exact hKeep ⟨hop, hMem, rfl, hOther⟩
      rw [Heap.Holds, List.getElem?_set_self hm, Option.bind_some, hSame, hPick]
    · exact hStill (by rw [List.getElem?_set_ne hParent, hGet])

theorem flushKeeps_of_direct {hops : List (Hop K T)} (hDirect : ∀ hop ∈ hops, hop.lens.Direct)
    (σ : Nat) : P.FlushKeeps hops h σ := by
  intro hop hMem hHolds
  obtain ⟨parent, hGet, hLens⟩ := Option.bind_eq_some_iff.mp hHolds
  have hGet' : (h.flush P.full σ).models[hop.parent]? = some parent := hGet
  rw [Heap.Holds, hGet', Option.bind_some, hDirect hop hMem _ h, hLens]

namespace TreeHost

variable {s s' : TreeHost K T}

/-- What comes later, with a condition on every statement that runs and one on every flush: the code
of others between the messages, and messages with their interceptors, updates and flushes. -/
inductive Later (P : Program V K T) (Q : Running V K T → Unit → Prop)
    (F : Heap K T → Nat → Prop) (s : TreeHost K T) : TreeHost K T → Prop where
  | now : Later P Q F s s
  | others {s' : TreeHost K T} {stmts : List (Stmt V K T)} {heap : Heap K T} {as : List Unit} :
      Later P Q F s s' → run P.step ⟨s'.heap, stmts⟩ as = some ⟨heap, []⟩ →
      Every P.step Q ⟨s'.heap, stmts⟩ as → Later P Q F s { s' with heap := heap }
  | handled {s' : TreeHost K T} {message : Message V} {interceptors : List (Stmt V K T)}
      {seen updated : Heap K T} {as bs : List Unit} :
      Later P Q F s s' → run P.step ⟨s'.heap, interceptors⟩ as = some ⟨seen, []⟩ →
      Every P.step Q ⟨s'.heap, interceptors⟩ as →
      run P.step ⟨seen, [.send s'.root message]⟩ bs = some ⟨updated, []⟩ →
      Every P.step Q ⟨seen, [.send s'.root message]⟩ bs →
      Every P.flushStep F updated (s'.signals ++ P.accumulateSignals updated s'.root) →
      Later P Q F s (flushAll P.full { s' with
        signals := s'.signals ++ P.accumulateSignals updated s'.root
        heap := updated })

variable {Q Q' : Running V K T → Unit → Prop} {F F' : Heap K T → Nat → Prop}

theorem Later.mono (hQ : ∀ c u, Q c u → Q' c u) (hF : ∀ h σ, F h σ → F' h σ)
    (hl : Later P Q F s s') : Later P Q' F' s s' := by
  induction hl with
  | now => exact .now
  | others _ hRun hAll ih => exact .others ih hRun (hAll.mono hQ)
  | handled _ hSeen hAll hUpdate hAll' hFlushes ih =>
    exact .handled ih hSeen (hAll.mono hQ) hUpdate (hAll'.mono hQ) (hFlushes.mono hF)

theorem Later.reachable (hr : Reachable P s) (hl : Later P Q F s s') : Reachable P s' := by
  induction hl with
  | now => exact hr
  | others _ hRun _ ih =>
    obtain ⟨w, he⟩ := Program.run_exec hRun
    exact .others ih he
  | handled _ hSeen _ hUpdate _ _ ih =>
    obtain ⟨w, hi⟩ := Program.run_exec hSeen
    obtain ⟨w', he⟩ := Program.run_exec hUpdate
    exact .handled ih (.intro hi he)

/-- Every run of the host is such a sequence, without a condition. -/
theorem Reachable.later (hr : Reachable P s) :
    ∃ root heap, Later P (fun _ _ => True) (fun _ _ => True) (.new root heap) s := by
  have hAll {c : Running V K T} {as : List Unit} : Every P.step (fun _ _ => True) c as :=
    .of_forall fun _ _ => trivial
  have hFlushes {h : Heap K T} {queue : List Nat} : Every P.flushStep (fun _ _ => True) h queue :=
    .of_forall fun _ _ => trivial
  induction hr with
  | new root heap => exact ⟨root, heap, .now⟩
  | others _ he ih =>
    obtain ⟨root, heap, hl⟩ := ih
    obtain ⟨as, hRun⟩ := Program.exec_run he []
    rw [List.append_nil] at hRun
    exact ⟨root, heap, .others hl hRun hAll⟩
  | handled _ hh ih =>
    obtain ⟨root, heap, hl⟩ := ih
    obtain ⟨hi, hu⟩ := hh
    obtain ⟨as, hSeen⟩ := Program.exec_run hi []
    obtain ⟨bs, hUpdate⟩ := Program.exec_run hu []
    rw [List.append_nil] at hSeen hUpdate
    exact ⟨root, heap, .handled hl hSeen hAll hUpdate hAll hFlushes⟩

theorem Later.holds {hops : List (Hop K T)} (hl : Later P (P.Keeps hops) (P.FlushKeeps hops) s s') :
    s'.root = s.root ∧ s.heap.Keeps hops s'.heap := by
  induction hl with
  | now => exact ⟨rfl, fun _ _ hHolds => hHolds⟩
  | others _ hRun hKeeps ih =>
    exact ⟨ih.1, fun hop hMem hHolds =>
      holds_of_run hRun hKeeps hop hMem (ih.2 hop hMem hHolds)⟩
  | handled _ hSeen hKeeps hUpdate hKeeps' hFlushes ih =>
    refine ⟨ih.1, fun hop hMem hHolds => ?_⟩
    have hIntercepted := holds_of_run hSeen hKeeps hop hMem (ih.2 hop hMem hHolds)
    have hUpdated := holds_of_run hUpdate hKeeps' hop hMem hIntercepted
    exact holds_of_flushes hFlushes hop hMem hUpdated

/-- A handle zoomed at any point of a run returns, for every getter message and at any later point,
what a handle zoomed afresh from the root returns, as long as no step in between makes a lens of the
chain pick another model: no statement of the code of others, of an interceptor or an update, nested
ones included, and no flush. -/
theorem zoomed_agrees (hr : Reachable P s) {lenses : List (Lens K T)} {child : Nat}
    (hZoom : s.heap.zoomBy s.root lenses = some child)
    (hl : Later P (P.Keeps (s.heap.hops s.root lenses)) (P.FlushKeeps (s.heap.hops s.root lenses))
      s s') :
    Reachable P s' ∧ s'.heap.zoomBy s'.root lenses = some child ∧
    ∀ g, P.get s'.heap child g =
      (s'.heap.zoomBy s'.root lenses).bind fun fresh => P.get s'.heap fresh g := by
  obtain ⟨hRoot, hKeeps⟩ := hl.holds
  have hFresh : s'.heap.zoomBy s'.root lenses = some child := by
    rw [hRoot]
    exact zoomBy_of_holds hZoom fun hop hMem => hKeeps hop hMem (hops_hold hZoom hop hMem)
  exact ⟨hl.reachable hr, hFresh, fun g => by rw [hFresh, Option.bind_some]⟩

/-- With lenses that read nothing but the model it is enough that no statement rewires a field that
they picked. -/
theorem zoomed_agrees_direct (hr : Reachable P s) {lenses : List (Lens K T)} {child : Nat}
    (hZoom : s.heap.zoomBy s.root lenses = some child) (hDirect : ∀ l ∈ lenses, l.Direct)
    (hl : Later P (fun c _ => ∀ stmt ∈ c.rest.head?, ¬stmt.rewires c.heap
      (s.heap.hops s.root lenses)) (fun _ _ => True) s s') :
    s'.heap.zoomBy s'.root lenses = some child := by
  have hHops : ∀ hop ∈ s.heap.hops s.root lenses, hop.lens.Direct :=
    fun hop hMem => hDirect _ (lens_mem_of_hops hop hMem)
  refine (zoomed_agrees hr hZoom (hl.mono (fun c u hKeep d hStep => ?_)
    fun h σ _ => flushKeeps_of_direct hHops σ)).2.1
  rcases Program.step_cases hStep with ⟨stmt, rest, hHead, ha, -⟩ | ⟨_, _, _, _, -, -, rfl⟩
  · exact keeps_of_direct hHops ha (hKeep stmt (by simp [hHead]))
  · exact fun _ _ hHolds => hHolds

end TreeHost

section House

/-- A lens that reads a signal: the lamp, and another field while the house is locked. -/
def lampUnlocked : Lens HouseModels Bool := fun h house =>
  house.children (if h.signals[0]?.any SignalRepr.data then "spare" else "lamp")

/-- The lamp is switched on through the root after handles were zoomed to it. -/
theorem zoomed_agrees_lamp : ∃ s, TreeHost.Reachable houseProgram s ∧
    s.heap.dirty 1 = true ∧ s.heap.zoomBy s.root [lens "lamp"] = some 1 ∧
    s.heap.zoomBy s.root [lampUnlocked] = some 1 ∧ houseProgram.get s.heap 1 0 = some 1 := by
  have hSeen : run houseProgram.step ⟨houseHeap, []⟩ [] = some ⟨houseHeap, []⟩ := rfl
  have hUpdate : run houseProgram.step ⟨houseHeap, [.send 0 ⟨"Toggle", []⟩]⟩ [(), (), (), ()] =
    some ⟨litHeap, []⟩ := rfl
  have hFirst : houseHost.heap.zoomBy houseHost.root [lens "lamp"] = some 1 := rfl
  have hSecond : houseHost.heap.zoomBy houseHost.root [lampUnlocked] = some 1 := rfl
  have hLamp := TreeHost.zoomed_agrees (s := houseHost) (.new 0 houseHeap) hFirst
    (.handled .now hSeen trivial hUpdate (by decide) (by decide))
  have hUnlocked := TreeHost.zoomed_agrees (s := houseHost) (.new 0 houseHeap) hSecond
    (.handled .now hSeen trivial hUpdate (by decide) (by decide))
  exact ⟨_, hLamp.1, rfl, hLamp.2.1, hUnlocked.2.1, rfl⟩

/-- A house whose updater replaces the lamp. -/
def relampImpl : InterfaceImpl where
  vis := ["pub"]
  selfTy := .path [] [⟨"HouseModel", .none⟩]
  items := [gaugeFn "relamp" "Relamp" []
      ["{ self.lamp = ModelBase::new(LampModel::default()); }"],
    houseGetter "locked" "Locked"]

def relampItem : HouseModels → InterfaceImpl
  | .house => relampImpl
  | .lamp => lampImpl

def relampBuild (k : HouseModels) : Except Failure Expansion :=
  build gaugeTools (relampItem k) (houseRawArgs k)

def relampProgram : Program Unit HouseModels Bool where
  full := houseFull
  expansion := fun k => (relampBuild k).toOption.get (by cases k <;> rfl)
  generated := by
    intro k
    refine ⟨gaugeTools, relampItem k, houseRawArgs k, ?_⟩
    cases k <;> rfl
  block
    | .lamp, _, _, m, h => houseSignal h m "light"
    | .house, _, _, m, h => h.models[m]?.toList.flatMap fun house =>
      [.newSignal false,
        .newModel ⟨.lamp, fun field => if field = "light" then some h.signals.length else none,
          fun _ => none⟩,
        .assign m { house with
          children := fun field =>
            if field = "lamp" then some h.models.length else house.children field }]

/-- Once the lamp is replaced the old handle leads to the old lamp's signal, which is not the one of
a handle zoomed afresh, and its subscriber is sent nothing. -/
theorem replaced_child_goes_stale : TreeHost.Reachable relampProgram houseHost ∧
    houseHeap.zoomBy 0 [lens "lamp"] = some 1 ∧ ∃ s' updated w,
      TreeHost.Handles relampProgram houseHost ⟨"Relamp", []⟩ s' updated w ∧
      relampProgram.get s'.heap 1 0 = some 1 ∧
      ((s'.heap.zoomBy s'.root [lens "lamp"]).bind fun fresh =>
        relampProgram.get s'.heap fresh 0) = some 2 ∧
      (s'.heap.signals[1]?.map fun r => r.channel 0) = some ⟨[], true⟩ := by
  have hRun : run relampProgram.step ⟨houseHeap, [.send 0 ⟨"Relamp", []⟩]⟩ [(), (), (), ()] =
    some ⟨_, []⟩ := rfl
  obtain ⟨w, hUpdate⟩ := Program.run_exec hRun
  exact ⟨.new 0 houseHeap, rfl, _, _, _, .intro (s := houseHost) (.done _) hUpdate, rfl, rfl, rfl⟩

end House

end Emyu.ModelTree
