import Emyu.Macro.Frb

/-! Where the entries of `meta(..)` end up: the places that the documentation gives each kind of
entry in each position of an attribute, against what the expansion carries there. -/

namespace Emyu.Macro

/-- The kinds of entries of a `meta(..)`. -/
inductive MetaKind where
  | base
  | own (W : With)
  | message
  | fns
  | inner (W : With)

/-- Where an attribute with a `meta(..)` stands. -/
inductive Position where
  | model
  | fn (shape : FnShape)

/-- What carries attributes: the two structs and the value in each, the two `new`s, the message of a
function (a variant, or the struct of a getter's), and the function. -/
inductive Place where
  | struct (W : With)
  | field (W : With)
  | newFn (W : With)
  | message
  | method (W : With)

/-- The kinds that belong to a place, in the order in which their entries stand there: those that
the documentation of `raw::ModelArgs` names, and `base` and `fns` of an updater or a getter, which
it leaves out. -/
def Position.kinds : Position → Place → List MetaKind
  | .model, .struct W => [.base, .own W]
  | .model, .field W => [.inner W]
  | .fn .new, .newFn W => [.base, .own W]
  | .fn .updater, .message => [.base, .message]
  | .fn .updater, .method .updater => [.base, .fns, .own .updater]
  | .fn .getter, .message => [.base, .message]
  | .fn .getter, .method .getter => [.base, .fns, .own .getter]
  | _, _ => []

def Position.Targets (p : Position) (k : MetaKind) : Prop := ∃ place, k ∈ p.kinds place

/-- The entries of a kind, in source order. -/
def MetaConfig.given (m : MetaConfig) : MetaKind → List Meta
  | .base => m.base
  | .own W => W.metas m
  | .message => m.message
  | .fns => m.fns
  | .inner W => (m.inner.map W.innerMetas).getD []

/-- The entries that belong to a place. -/
def Position.entries (p : Position) (metas : Option MetaConfig) (place : Place) : List Meta :=
  (metas.map fun m => (p.kinds place).flatMap m.given).getD []

/-- Every entry has a target. -/
def Position.AllTargeted (p : Position) (metas : Option MetaConfig) : Prop :=
  ∀ m ∈ metas, ∀ k, ¬ p.Targets k → m.given k = []

/-- Every entry and override of a function's attribute has a target: a message has a name in any
position but `new`, and what is generated for a function has its name. -/
structure FnShape.AllTargeted (s : FnShape) (args : MethodArgs) : Prop where
  metas : (Position.fn s).AllTargeted args.metas
  message : s = .new → args.message = none
  name : ∀ n ∈ args.name, ∀ W : With, W.name n = none

/-- `#[..]` with the tokens of a `meta(..)` entry. -/
def Meta.attribute? : Meta → Option Attribute
  | .list _ tokens => some (bracketed tokens)
  | _ => none

/-- The attributes are those of the entries, one for each and in their order, and then `extra`. -/
def Carries (attrs : List Attribute) (entries : List Meta) (extra : List Attribute) : Prop :=
  attrs.map some = entries.map Meta.attribute? ++ extra.map some

namespace Expansion

def struct (x : Expansion) : With → WrappedStruct
  | .updater => x.updaterStruct
  | .getter => x.getterStruct

def newFn (x : Expansion) : With → NewFn
  | .updater => x.updaterImpls.newFn
  | .getter => x.getterImpls.newFn

end Expansion

/-- `fn get(&self) -> Signal<T>;`, as `analyze` tells it. -/
def MaybeStubFn.isGetter (f : MaybeStubFn) : Bool :=
  (match SelfTy.analyze f.sig.inputs with
    | some .shared => true
    | _ => false) &&
    (extractInnerSignalTy f.sig.output).isSome && f.sig.hasNoFnArgs && f.block.isNone

def InterfaceImpl.news (item : InterfaceImpl) : List MaybeStubFn :=
  item.items.filter MaybeStubFn.isNew

def InterfaceImpl.getters (item : InterfaceImpl) : List MaybeStubFn :=
  item.items.filter MaybeStubFn.isGetter

/-- The `meta(..)` of a function's attribute. -/
def Toolchain.metas (T : Toolchain) (f : MaybeStubFn) : Option MetaConfig :=
  match T.fromAttributes f.attrs with
  | .ok args => args.metas
  | .error _ => none

theorem Toolchain.metas_of_ok {T : Toolchain} {f : MaybeStubFn} {args : MethodArgs}
    (h : T.fromAttributes f.attrs = .ok args) : T.metas f = args.metas := by
  simp [metas, h]

def RawModelArgs.metas (raw : RawModelArgs) : Option MetaConfig :=
  raw.dispatcher.bind fun dispatcher => dispatcher.intoConfig.metas

/-- `n` times the attribute that the flag adds. -/
def RawModelArgs.frbs (raw : RawModelArgs) (n : Nat) (tokens : TokenStream) : List Attribute :=
  if raw.flutterRustBridge then List.replicate n (bracketed tokens) else []

/-- What the expansion carries: the entries that belong to each place, in source order and after the
`base` entries, and nothing but what the flag adds. `news` are the entries of the two `new`s. -/
structure Carried (T : Toolchain) (item : InterfaceImpl) (raw : RawModelArgs)
    (news : Place → List Meta) (x : Expansion) : Prop where
  messageEnum : Carries x.message.outerMeta raw.message.metas
    (raw.frbs 1 (frbOpaque x.implModel.crate_))
  structs : ∀ W, Carries (x.struct W).outerMeta (Position.model.entries raw.metas (.struct W))
    (raw.frbs 1 (frbOpaque x.implModel.crate_))
  fields : ∀ W, Carries (x.struct W).innerMeta (Position.model.entries raw.metas (.field W)) []
  news : ∀ W, Carries (x.newFn W).meta_ (news (.newFn W))
    (raw.frbs (newFrbs item.declaresNew) (frbSync x.implModel.crate_))
  variants : List.Forall₂ (fun f v => Carries v.outerMeta
    ((Position.fn .updater).entries (T.metas f) .message) []) item.updaters x.message.variants
  updaterFns : List.Forall₂ (fun f fn => Carries fn.meta_
    ((Position.fn .updater).entries (T.metas f) (.method .updater)) []) item.updaters
    x.updaterImpls.fns
  getterMessages : List.Forall₂ (fun f m => Carries m.outerMeta
    ((Position.fn .getter).entries (T.metas f) .message) []) item.getters x.getterMessages
  getterFns : List.Forall₂ (fun f fn => Carries fn.meta_
    ((Position.fn .getter).entries (T.metas f) (.method .getter))
    (raw.frbs 1 (frbSyncGetter x.implModel.crate_))) item.getters x.getterImpls.fns

/-- The entries of every `new` that is declared. -/
def allNews (T : Toolchain) (item : InterfaceImpl) (place : Place) : List Meta :=
  item.news.flatMap fun f => (Position.fn .new).entries (T.metas f) place

/-- Every entry appears exactly once on each place it belongs to and nowhere else, and nothing
without a target was accepted. -/
structure Routed (T : Toolchain) (item : InterfaceImpl) (raw : RawModelArgs) (x : Expansion) :
    Prop where
  carried : Carried T item raw (allNews T item) x
  model : Position.model.AllTargeted raw.metas
  fns : ∀ f ∈ item.items, ∀ s, f.Arm s → ∀ args, T.fromAttributes f.attrs = .ok args →
    s.AllTargeted args

/-! ### What is written for an attribute -/

/-- The tokens of the entries, one for each. -/
def Written (tokens : List TokenStream) (entries : List Meta) : Prop :=
  entries.map Meta.attribute? = tokens.map fun t => some (bracketed t)

theorem Written.carries {tokens : List TokenStream} {entries : List Meta}
    (h : Written tokens entries) : Carries (tokens.map bracketed) entries [] := by
  rw [Carries, h]
  simp

theorem Written.append {tokens tokens' : List TokenStream} {entries entries' : List Meta}
    (h : Written tokens entries) (h' : Written tokens' entries') :
    Written (tokens ++ tokens') (entries ++ entries') := by
  unfold Written at h h' ⊢
  rw [List.map_append, List.map_append, h, h']

theorem written_process {metas : List Meta} {tokens : List TokenStream}
    (h : collect process metas = .ok tokens) : Written tokens metas := by
  have hAll := collect_ok h
  clear h
  unfold Written
  induction hAll with
  | nil => rfl
  | @cons m t _ _ hm _ ih =>
    rw [List.map_cons, List.map_cons, ih]
    cases m with
    | list path tokens =>
      cases hm
      rfl
    | path _ | nameValue _ _ => cases hm

section Written

variable {metas : Option MetaConfig} {tokens : List TokenStream}

theorem written_structOuter {W : With} (h : W.outerMetaOwned metas = .ok tokens) :
    Written tokens (Position.model.entries metas (.struct W)) := by
  cases metas with
  | none =>
    cases h
    rfl
  | some m => simpa [Position.entries, Position.kinds, MetaConfig.given] using written_process h

theorem written_newFn {W : With} (h : W.outerMetaOwned metas = .ok tokens) :
    Written tokens ((Position.fn .new).entries metas (.newFn W)) := written_structOuter h

theorem written_field {W : With} (h : W.innerMetaOwned metas = .ok tokens) :
    Written tokens (Position.model.entries metas (.field W)) := by
  cases metas with
  | none =>
    cases h
    rfl
  | some m =>
    obtain ⟨base, updater, getter, message, fns, inner⟩ := m
    cases inner with
    | none =>
      cases h
      rfl
    | some inner => simpa [Position.entries, Position.kinds, MetaConfig.given] using
        written_process h

theorem written_method {W : With} {s : FnShape}
    (hKinds : (Position.fn s).kinds (.method W) = [.base, .fns, .own W])
    (h : W.fnMetaOwned metas = .ok tokens) :
    Written tokens ((Position.fn s).entries metas (.method W)) := by
  cases metas with
  | none =>
    cases h
    rfl
  | some m =>
    obtain ⟨fns, hFns, h⟩ := bind_ok h
    obtain ⟨own, hOwn, h⟩ := bind_ok h
    cases h
    have hEntries : (Position.fn s).entries (some m) (.method W) =
        (m.base ++ m.fns) ++ W.metas m := by
      simp [Position.entries, hKinds, MetaConfig.given]
    rw [hEntries]
    exact (written_process hFns).append (written_process hOwn)

theorem written_message {s : FnShape}
    (hKinds : (Position.fn s).kinds .message = [.base, .message])
    (h : MessageProperties.metas metas = .ok tokens) :
    Written tokens ((Position.fn s).entries metas .message) := by
  cases metas with
  | none =>
    cases h
    rfl
  | some m =>
    simpa [Position.entries, hKinds, MetaConfig.given] using written_process h

end Written

/-! ### What is refused -/

section Refused

variable {metas : Option MetaConfig} {args : MethodArgs}

theorem allTargeted_of_kinds {p : Position} (h : ∀ m ∈ metas, ∀ k, p.Targets k ∨ m.given k = []) :
    p.AllTargeted metas :=
  fun m hm k hNone => (h m hm k).resolve_left hNone

theorem UpdaterGetterMethodArgs.validate_ok (h : validate args = .ok ()) :
    (∀ n ∈ args.name, ∀ W : With, W.name n = none) ∧ ∀ m ∈ args.metas, m.inner = none := by
  obtain ⟨name, message, metas⟩ := args
  have hName : ∀ n ∈ name, ∀ W : With, W.name n = none := by
    rintro ⟨updater, getter⟩ hn W
    obtain rfl : name = some ⟨updater, getter⟩ := hn
    cases updater with
    | some u => cases h
    | none =>
      cases getter with
      | some g => cases h
      | none => cases W <;> rfl
  refine ⟨hName, fun m hm => ?_⟩
  obtain rfl : metas = some m := hm
  cases hInner : m.inner with
  | none => rfl
  | some inner =>
    obtain ⟨base, updater, getter, message, fns, inner⟩ := m
    cases hInner
    cases name with
    | none => cases h
    | some n =>
      obtain ⟨updater, getter⟩ := n
      have hUpdater : updater = none := hName _ rfl .updater
      have hGetter : getter = none := hName _ rfl .getter
      subst hUpdater hGetter
      cases h

/-- The check that updaters and getters share, and the one of the other's entries. -/
theorem fn_allTargeted {s : FnShape} {W : With}
    (hMethod : (Position.fn s).kinds (.method W) = [.base, .fns, .own W])
    (hMessage : (Position.fn s).kinds .message = [.base, .message]) (hNew : s ≠ .new)
    (hValid : UpdaterGetterMethodArgs.validate args = .ok ())
    (hOther : ∀ m ∈ args.metas, ∀ V : With, V = W ∨ V.metas m = []) : s.AllTargeted args := by
  obtain ⟨hName, hInner⟩ := UpdaterGetterMethodArgs.validate_ok hValid
  refine ⟨allTargeted_of_kinds fun m hm k => ?_, fun h => (hNew h).elim, hName⟩
  cases k with
  | base => exact .inl ⟨.message, by simp [hMessage]⟩
  | message => exact .inl ⟨.message, by simp [hMessage]⟩
  | fns => exact .inl ⟨.method W, by simp [hMethod]⟩
  | inner V => exact .inr (by simp [MetaConfig.given, hInner m hm])
  | own V =>
    rcases hOther m hm V with rfl | hNone
    · exact .inl ⟨.method V, by simp [hMethod]⟩
    · exact .inr hNone

theorem updater_allTargeted (h : UpdaterGetterMethodArgs.validateUpdater args = .ok ()) :
    FnShape.updater.AllTargeted args := by
  obtain ⟨_, hValid, h⟩ := bind_ok h
  refine fn_allTargeted (W := .updater) rfl rfl (by simp) hValid fun m hm V => ?_
  have hMetas : args.metas = some m := hm
  rw [hMetas] at h
  cases V with
  | updater => exact .inl rfl
  | getter =>
    refine .inr ?_
    by_contra hNe
    have hNe : m.getter ≠ [] := hNe
    simp [hNe] at h

theorem getter_allTargeted (h : UpdaterGetterMethodArgs.validateGetter args = .ok ()) :
    FnShape.getter.AllTargeted args := by
  obtain ⟨_, hValid, h⟩ := bind_ok h
  refine fn_allTargeted (W := .getter) rfl rfl (by simp) hValid fun m hm V => ?_
  have hMetas : args.metas = some m := hm
  rw [hMetas] at h
  cases V with
  | getter => exact .inl rfl
  | updater =>
    refine .inr ?_
    by_contra hNe
    have hNe : m.updater ≠ [] := hNe
    simp [hNe] at h

theorem model_allTargeted {config : DispatcherConfig} (h : ModelArgs.validate config = .ok ()) :
    Position.model.AllTargeted config.metas := by
  refine allTargeted_of_kinds fun m hm k => ?_
  have hMetas : config.metas = some m := hm
  unfold ModelArgs.validate at h
  rw [hMetas] at h
  have hMessage : m.message = [] := by
    by_contra hNe
    simp [hNe] at h
  have hFns : m.fns = [] := by
    by_contra hNe
    simp [hMessage, hNe] at h
  cases k with
  | base => exact .inl ⟨.struct .updater, by simp [Position.kinds]⟩
  | own W => exact .inl ⟨.struct W, by simp [Position.kinds]⟩
  | message => exact .inr hMessage
  | fns => exact .inr hFns
  | inner W => exact .inl ⟨.field W, by simp [Position.kinds]⟩

theorem new_named (h : NewMethodArgs.validate args = .ok ()) : args.name = none := by
  unfold NewMethodArgs.validate at h
  cases hName : args.name with
  | none => rfl
  | some n => simp [hName] at h

end Refused

/-! ### The functions of a block -/

/-- What is written for a function is what was given for it. -/
def FnKind.Writes (metas : Option MetaConfig) : FnKind → Prop
  | .new a =>
    Written a.updaterMeta ((Position.fn .new).entries metas (.newFn .updater)) ∧
      Written a.getterMeta ((Position.fn .new).entries metas (.newFn .getter))
  | .updater a _ _ =>
    Written a.message.outerMeta ((Position.fn .updater).entries metas .message) ∧
      Written a.fnMeta ((Position.fn .updater).entries metas (.method .updater))
  | .getter a _ =>
    Written a.message.outerMeta ((Position.fn .getter).entries metas .message) ∧
      Written a.fnMeta ((Position.fn .getter).entries metas (.method .getter))

/-- What the first pass knows of a function, without the flag. -/
structure ParsedFnFirstPass.Writes (T : Toolchain) (f : MaybeStubFn) (p : ParsedFnFirstPass) :
    Prop where
  arm : f.Arm p.kind.shape
  metas : p.kind.Writes (T.metas f)
  targeted : ∀ args, T.fromAttributes f.attrs = .ok args →
    p.kind.shape ≠ .new → p.kind.shape.AllTargeted args
  named : ∀ args, T.fromAttributes f.attrs = .ok args → p.kind.shape = .new → args.name = none

section First

variable {T : Toolchain} {crate_ : TokenStream} {args : MethodArgs} {f : MaybeStubFn}

theorem UpdaterGetterMethodArgs.parse_writes {W : With} {s : FnShape} {fnName : Ident}
    {a : UpdaterGetterMethodArgs}
    (hMethod : (Position.fn s).kinds (.method W) = [.base, .fns, .own W])
    (hMessage : (Position.fn s).kinds .message = [.base, .message])
    (h : parse T W args fnName crate_ false = .ok a) :
    Written a.message.outerMeta ((Position.fn s).entries args.metas .message) ∧
      Written a.fnMeta ((Position.fn s).entries args.metas (.method W)) := by
  obtain ⟨message, hm, h⟩ := bind_ok h
  obtain ⟨fnMeta, hFn, h⟩ := bind_ok h
  obtain ⟨name, -, hm⟩ := bind_ok hm
  obtain ⟨outerMeta, hOuter, hm⟩ := bind_ok hm
  cases h
  cases hm
  exact ⟨written_message hMessage hOuter, written_method hMethod hFn⟩

theorem FnKind.analyze_writes {kind : FnKind} (h : analyze T f args crate_ false = .ok kind) :
    kind.Writes args.metas ∧ (kind.shape ≠ .new → kind.shape.AllTargeted args) ∧
      (kind.shape = .new → args.name = none) := by
  obtain ⟨_, _, h⟩ := bind_ok h
  split at h
  · obtain ⟨a, ha, h⟩ := bind_ok h
    cases h
    obtain ⟨_, hValid, ha⟩ := bind_ok ha
    obtain ⟨updaterMeta, hUpdater, ha⟩ := bind_ok ha
    obtain ⟨getterMeta, hGetter, ha⟩ := bind_ok ha
    cases ha
    exact ⟨⟨written_newFn hUpdater, written_newFn hGetter⟩, fun hNe => (hNe rfl).elim,
      fun _ => new_named hValid⟩
  · obtain ⟨a, ha, h⟩ := bind_ok h
    cases h
    obtain ⟨_, hValid, ha⟩ := bind_ok ha
    exact ⟨UpdaterGetterMethodArgs.parse_writes rfl rfl ha,
      fun _ => updater_allTargeted hValid, fun hNew => by cases hNew⟩
  · obtain ⟨a, ha, h⟩ := bind_ok h
    cases h
    obtain ⟨_, hValid, ha⟩ := bind_ok ha
    exact ⟨UpdaterGetterMethodArgs.parse_writes rfl rfl ha,
      fun _ => getter_allTargeted hValid, fun hNew => by cases hNew⟩
  · cases h

theorem ParsedFnFirstPass.parse_writes {p : ParsedFnFirstPass}
    (h : parse T crate_ false f = .ok p) : p.Writes T f := by
  obtain ⟨args, hArgs, h⟩ := bind_ok h
  obtain ⟨kind, hKind, h⟩ := bind_ok h
  obtain ⟨fnArgs, hFnArgs, h⟩ := bind_ok h
  cases h
  have hShape : (FnKind.analyze T f args crate_ false).map FnKind.shape = .ok kind.shape := by
    rw [hKind]
    rfl
  have hMetas : T.metas f = args.metas := Toolchain.metas_of_ok hArgs
  obtain ⟨hWrites, hTargeted, hNamed⟩ := FnKind.analyze_writes hKind
  refine ⟨((FnKind.analyze_shape_iff _).mp hShape).2.1, hMetas ▸ hWrites, ?_, ?_⟩
  · intro args' hArgs'
    obtain rfl := Except.ok.inj (hArgs.symm.trans hArgs')
    exact hTargeted
  · intro args' hArgs'
    obtain rfl := Except.ok.inj (hArgs.symm.trans hArgs')
    exact hNamed

end First

/-- The `self` of an arm. -/
def FnShape.self? : FnShape → Option SelfTy
  | .new => none
  | .updater => some .mutable
  | .getter => some .shared

theorem MaybeStubFn.Arm.self {f : MaybeStubFn} {s : FnShape} (h : f.Arm s) :
    SelfTy.analyze f.sig.inputs = s.self? := by
  cases s with
  | new => exact h.2.1
  | updater | getter => exact h.1

/-- A function takes one arm at most. -/
theorem MaybeStubFn.arm_unique {f : MaybeStubFn} {s s' : FnShape} (h : f.Arm s) (h' : f.Arm s') :
    s = s' := by
  have hSelf : s.self? = s'.self? := h.self.symm.trans h'.self
  cases s <;> cases s' <;> first | rfl | cases hSelf

theorem MaybeStubFn.isUpdater_iff (f : MaybeStubFn) : f.isUpdater = true ↔ f.Arm .updater := by
  unfold isUpdater
  split
  next hSelf hBlock => simp [Arm, hSelf, hBlock]
  next hNot =>
    refine iff_of_false (by simp) ?_
    rintro ⟨hSelf, hBlock⟩
    obtain ⟨block, hBlock⟩ := Option.isSome_iff_exists.mp hBlock
    exact hNot block hSelf hBlock

theorem MaybeStubFn.isGetter_iff (f : MaybeStubFn) : f.isGetter = true ↔ f.Arm .getter := by
  unfold isGetter
  split
  next hSelf => simp [Arm, hSelf, and_assoc]
  next hNot => exact iff_of_false (by simp) fun h => hNot h.1

def ParsedFnFirstPass.new? (p : ParsedFnFirstPass) : Option ParsedNewFn :=
  match p.kind with
  | .new methodArgs => some ⟨p.vis, methodArgs⟩
  | _ => none

def ParsedFnFirstPass.getter? (p : ParsedFnFirstPass) : Option ParsedGetterFn :=
  match p.kind with
  | .getter methodArgs ty => some ⟨⟨p.vis, methodArgs⟩, ty⟩
  | _ => none

theorem ParsedFnsSecondPass.foldl_push_getters (items : List ParsedFnFirstPass)
    (fns : ParsedFnsSecondPass) :
    (items.foldl push fns).getters = fns.getters ++ items.filterMap ParsedFnFirstPass.getter? := by
  induction items generalizing fns with
  | nil => simp
  | cons item rest ih =>
    rw [List.foldl_cons, ih]
    obtain ⟨vis, fnArgs, kind⟩ := item
    cases kind <;> simp [push, ParsedFnFirstPass.getter?, List.filterMap_cons]

/-- The last `new` is the one that counts. -/
theorem ParsedFnsSecondPass.foldl_push_newFn (items : List ParsedFnFirstPass)
    (fns : ParsedFnsSecondPass) : (items.foldl push fns).newFn =
      ((items.filterMap ParsedFnFirstPass.new?).getLast?).getD fns.newFn := by
  induction items generalizing fns with
  | nil => rfl
  | cons item rest ih =>
    rw [List.foldl_cons, ih]
    obtain ⟨vis, fnArgs, kind⟩ := item
    cases kind with
    | new args =>
      have hNew : ParsedFnFirstPass.new? ⟨vis, fnArgs, .new args⟩ = some ⟨vis, args⟩ := rfl
      rw [List.filterMap_cons_some hNew, List.getLast?_cons]
      rfl
    | updater | getter => rw [List.filterMap_cons_none rfl]; rfl

theorem forall₂_getLast? {α β : Type} {R : α → β → Prop} {l : List α} {m : List β}
    (h : List.Forall₂ R l m) : (l = [] ∧ m = []) ∨
      ∃ a b, l.getLast? = some a ∧ m.getLast? = some b ∧ R a b := by
  induction h with
  | nil => exact .inl ⟨rfl, rfl⟩
  | @cons a b _ _ hR _ ih =>
    refine .inr ?_
    rcases ih with ⟨rfl, rfl⟩ | ⟨a', b', hl, hm, hR'⟩
    · exact ⟨a, b, rfl, rfl, hR⟩
    · exact ⟨a', b', by rw [List.getLast?_cons, hl]; rfl, by rw [List.getLast?_cons, hm]; rfl,
        hR'⟩

section Second

variable {T : Toolchain} {fns : List MaybeStubFn} {items : List ParsedFnFirstPass}

/-- The functions of one shape, and what the first pass makes of them. -/
theorem writes_shape {γ : Type} {s : FnShape} {P : MaybeStubFn → Bool}
    {pick : ParsedFnFirstPass → Option γ} {kind : γ → FnKind}
    (hP : ∀ f, P f = true ↔ f.Arm s)
    (hPick : ∀ p, if p.kind.shape = s then ∃ c, pick p = some c ∧ kind c = p.kind
      else pick p = none)
    (h : List.Forall₂ (ParsedFnFirstPass.Writes T) fns items) :
    List.Forall₂ (fun f c => (kind c).Writes (T.metas f)) (fns.filter P)
      (items.filterMap pick) := by
  refine forall₂_filterMap h fun f p hp => ?_
  have hThis := hPick p
  by_cases hShape : p.kind.shape = s
  · rw [if_pos hShape] at hThis
    obtain ⟨c, hc, hKind⟩ := hThis
    rw [if_pos ((hP f).mpr (hShape ▸ hp.arm))]
    exact ⟨c, hc, hKind ▸ hp.metas⟩
  · rw [if_neg hShape] at hThis
    have hNot : ¬ P f = true := fun h => hShape (MaybeStubFn.arm_unique hp.arm ((hP f).mp h))
    rw [if_neg hNot]
    exact hThis

theorem writes_news (h : List.Forall₂ (ParsedFnFirstPass.Writes T) fns items) :
    List.Forall₂ (fun f (n : ParsedNewFn) => (FnKind.new n.methodArgs).Writes (T.metas f))
      (fns.filter MaybeStubFn.isNew) (items.filterMap ParsedFnFirstPass.new?) := by
  refine writes_shape MaybeStubFn.isNew_iff (fun p => ?_) h
  obtain ⟨vis, fnArgs, kind⟩ := p
  cases kind with
  | new args => exact ⟨_, rfl, rfl⟩
  | updater | getter => rfl

theorem writes_updaters (h : List.Forall₂ (ParsedFnFirstPass.Writes T) fns items) :
    List.Forall₂ (fun f (u : ParsedUpdaterFn) =>
      (FnKind.updater u.common.methodArgs u.commandTy u.block).Writes (T.metas f))
      (fns.filter MaybeStubFn.isUpdater) (items.filterMap ParsedFnFirstPass.updater?) := by
  refine writes_shape MaybeStubFn.isUpdater_iff (fun p => ?_) h
  obtain ⟨vis, fnArgs, kind⟩ := p
  cases kind with
  | updater args commandTy block => exact ⟨_, rfl, rfl⟩
  | new | getter => rfl

theorem writes_getters (h : List.Forall₂ (ParsedFnFirstPass.Writes T) fns items) :
    List.Forall₂ (fun f (g : ParsedGetterFn) =>
      (FnKind.getter g.common.methodArgs g.retTy).Writes (T.metas f))
      (fns.filter MaybeStubFn.isGetter) (items.filterMap ParsedFnFirstPass.getter?) := by
  refine writes_shape MaybeStubFn.isGetter_iff (fun p => ?_) h
  obtain ⟨vis, fnArgs, kind⟩ := p
  cases kind with
  | getter args ty => exact ⟨_, rfl, rfl⟩
  | new | updater => rfl

end Second

/-! ### The expansion -/

/-- The entries of the last `new` that is declared. -/
def lastNew (T : Toolchain) (item : InterfaceImpl) (place : Place) : List Meta :=
  (item.news.getLast?.map fun f => (Position.fn .new).entries (T.metas f) place).getD []

section Plain

variable {T : Toolchain} {item : InterfaceImpl} {raw : RawModelArgs} {c : ModelContext}

/-- What the context knows of an accepted block, without the flag. -/
structure ModelContext.Writes (T : Toolchain) (item : InterfaceImpl) (raw : RawModelArgs)
    (c : ModelContext) : Prop where
  messageEnum : Written c.args.message.outerMeta raw.message.metas
  updater : Written c.args.updater.outerMeta (Position.model.entries raw.metas (.struct .updater)) ∧
    Written c.args.updater.innerMeta (Position.model.entries raw.metas (.field .updater))
  getter : Written c.args.getter.outerMeta (Position.model.entries raw.metas (.struct .getter)) ∧
    Written c.args.getter.innerMeta (Position.model.entries raw.metas (.field .getter))
  updaterNew : Written c.newFn.methodArgs.updaterMeta (lastNew T item (.newFn .updater))
  getterNew : Written c.newFn.methodArgs.getterMeta (lastNew T item (.newFn .getter))
  updaters : List.Forall₂ (fun f (u : ParsedUpdaterFn) =>
    (FnKind.updater u.common.methodArgs u.commandTy u.block).Writes (T.metas f)) item.updaters
    c.updaters
  getters : List.Forall₂ (fun f (g : ParsedGetterFn) =>
    (FnKind.getter g.common.methodArgs g.retTy).Writes (T.metas f)) item.getters c.getters

theorem ModelProperties.fromConfig_writes {W : With} {config : DispatcherConfig}
    {modelName : Ident} {crate_ : TokenStream} {props : ModelProperties}
    (h : fromConfig T W config modelName crate_ false = .ok props) :
    Written props.outerMeta (Position.model.entries config.metas (.struct W)) ∧
      Written props.innerMeta (Position.model.entries config.metas (.field W)) := by
  obtain ⟨name, -, h⟩ := bind_ok h
  obtain ⟨outerMeta, hOuter, h⟩ := bind_ok h
  obtain ⟨innerMeta, hInner, h⟩ := bind_ok h
  cases h
  exact ⟨written_structOuter hOuter, written_field hInner⟩

/-- The `new` of the second pass writes what the last declared one was given. -/
theorem newFn_writes {items : List ParsedFnFirstPass}
    (h : List.Forall₂ (ParsedFnFirstPass.Writes T) item.items items) (crate_ : TokenStream) :
    let args := (ParsedFnsSecondPass.parse items crate_ false).newFn.methodArgs
    Written args.updaterMeta (lastNew T item (.newFn .updater)) ∧
      Written args.getterMeta (lastNew T item (.newFn .getter)) := by
  have hNewFn : (ParsedFnsSecondPass.parse items crate_ false).newFn =
      ((items.filterMap ParsedFnFirstPass.new?).getLast?).getD ParsedNewFn.default :=
    ParsedFnsSecondPass.foldl_push_newFn items _
  simp only [hNewFn, lastNew, InterfaceImpl.news]
  rcases forall₂_getLast? (writes_news h) with ⟨hNone, hNone'⟩ | ⟨f, n, hf, hn, hWrites⟩
  · rw [hNone, hNone']
    exact ⟨rfl, rfl⟩
  · rw [hf, hn]
    exact hWrites

theorem ModelContext.parse_writes (hFrb : raw.flutterRustBridge = false)
    (h : parse T item raw = .ok c) : c.Writes T item raw ∧
      Position.model.AllTargeted raw.metas ∧
      ∃ items, List.Forall₂ (ParsedFnFirstPass.Writes T) item.items items := by
  obtain ⟨modelName, _, h⟩ := bind_ok h
  obtain ⟨crate_, _, h⟩ := bind_ok h
  obtain ⟨items, hItems, h⟩ := bind_ok h
  obtain ⟨args, hArgs, h⟩ := bind_ok h
  cases h
  rw [hFrb] at hItems
  have hAll : List.Forall₂ (ParsedFnFirstPass.Writes T) item.items items :=
    (collect_ok hItems).imp fun _ _ hp => ParsedFnFirstPass.parse_writes hp
  obtain ⟨config, hConfig, hArgs⟩ := bind_ok hArgs
  obtain ⟨message, hMessage, hArgs⟩ := bind_ok hArgs
  obtain ⟨_, hValid, hArgs⟩ := bind_ok hArgs
  obtain ⟨updater, hUpdater, hArgs⟩ := bind_ok hArgs
  obtain ⟨getter, hGetter, hArgs⟩ := bind_ok hArgs
  cases hArgs
  have hMetas : raw.metas = config.metas := by
    unfold ModelArgs.config at hConfig
    unfold RawModelArgs.metas
    cases hDispatcher : raw.dispatcher with
    | none => rw [hDispatcher] at hConfig; cases hConfig
    | some dispatcher =>
      rw [hDispatcher] at hConfig
      cases hConfig
      rfl
  obtain ⟨name, -, hMessage⟩ := bind_ok hMessage
  obtain ⟨outerMeta, hOuter, hMessage⟩ := bind_ok hMessage
  cases hMessage
  rw [hFrb] at hUpdater hGetter ⊢
  obtain ⟨hUpdaterNew, hGetterNew⟩ := newFn_writes hAll crate_
  refine ⟨⟨written_process hOuter, hMetas ▸ ModelProperties.fromConfig_writes hUpdater,
    hMetas ▸ ModelProperties.fromConfig_writes hGetter, hUpdaterNew, hGetterNew, ?_, ?_⟩,
    hMetas ▸ model_allTargeted hValid, items, hAll⟩
  · rw [ParsedFnsSecondPass.parse_updaters]
    exact writes_updaters hAll
  · have hGetters : (ParsedFnsSecondPass.parse items crate_ false).getters =
        items.filterMap ParsedFnFirstPass.getter? :=
      ParsedFnsSecondPass.foldl_push_getters items _
    rw [hGetters]
    exact writes_getters hAll

/-- What the context writes, the expansion carries. -/
theorem ModelContext.Writes.carried (hFrb : raw.flutterRustBridge = false)
    (h : c.Writes T item raw) : Carried T item raw (lastNew T item) c.generate := by
  have hNone (n : Nat) (tokens : TokenStream) : raw.frbs n tokens = [] := by
    simp [RawModelArgs.frbs, hFrb]
  refine ⟨?_, fun W => ?_, fun W => ?_, fun W => ?_, ?_, ?_, ?_, ?_⟩
  · rw [hNone]
    exact h.messageEnum.carries
  · rw [hNone]
    cases W with
    | updater => exact h.updater.1.carries
    | getter => exact h.getter.1.carries
  · cases W with
    | updater => exact h.updater.2.carries
    | getter => exact h.getter.2.carries
  · rw [hNone]
    cases W with
    | updater => exact h.updaterNew.carries
    | getter => exact h.getterNew.carries
  · refine List.forall₂_map_right_iff.mpr (h.updaters.imp fun f u hWrites => ?_)
    exact hWrites.1.carries
  · refine List.forall₂_map_right_iff.mpr (h.updaters.imp fun f u hWrites => ?_)
    exact hWrites.2.carries
  · refine List.forall₂_map_right_iff.mpr (h.getters.imp fun f g hWrites => ?_)
    exact hWrites.1.carries
  · simp only [hNone]
    refine List.forall₂_map_right_iff.mpr (h.getters.imp fun f g hWrites => ?_)
    exact hWrites.2.carries

end Plain

section Flag

variable {T : Toolchain} {item : InterfaceImpl} {raw : RawModelArgs} {x : Expansion}
  {news : Place → List Meta} {attrs extra : List Attribute} {entries : List Meta}

theorem carries_append : Carries (attrs ++ extra) entries extra ↔ Carries attrs entries [] := by
  rw [Carries, Carries, List.map_append, List.append_left_inj, List.map_nil, List.append_nil]

/-- The flag adds its attributes and changes nothing of what else is carried. -/
theorem carried_frb : Carried T item { raw with flutterRustBridge := true } news
      (x.withFrb (newFrbs item.declaresNew)) ↔
    Carried T item { raw with flutterRustBridge := false } news x := by
  have hStruct (W : With) (entries : List Meta) :
      Carries ((x.withFrb (newFrbs item.declaresNew)).struct W).outerMeta entries
        (List.replicate 1 (bracketed (frbOpaque x.implModel.crate_))) ↔
      Carries (x.struct W).outerMeta entries [] := by
    cases W <;> exact carries_append
  have hField (W : With) : ((x.withFrb (newFrbs item.declaresNew)).struct W).innerMeta =
      (x.struct W).innerMeta := by
    cases W <;> rfl
  have hNew (W : With) (entries : List Meta) :
      Carries ((x.withFrb (newFrbs item.declaresNew)).newFn W).meta_ entries
        (List.replicate (newFrbs item.declaresNew) (bracketed (frbSync x.implModel.crate_))) ↔
      Carries (x.newFn W).meta_ entries [] := by
    cases W <;> exact carries_append
  have hGetter {R : MaybeStubFn → List Meta} : List.Forall₂ (fun f (fn : GetterFn) =>
      Carries fn.meta_ (R f) (List.replicate 1 (bracketed (frbSyncGetter x.implModel.crate_))))
        item.getters (x.withFrb (newFrbs item.declaresNew)).getterImpls.fns ↔
      List.Forall₂ (fun f (fn : GetterFn) => Carries fn.meta_ (R f) []) item.getters
        x.getterImpls.fns := by
    refine List.forall₂_map_right_iff.trans ⟨fun h => h.imp fun f fn => ?_,
      fun h => h.imp fun f fn => ?_⟩
    · exact carries_append.mp
    · exact carries_append.mpr
  constructor
  · intro h
    exact ⟨carries_append.mp h.messageEnum, fun W => (hStruct W _).mp (h.structs W),
      fun W => hField W ▸ h.fields W, fun W => (hNew W _).mp (h.news W), h.variants, h.updaterFns,
      h.getterMessages, hGetter.mp h.getterFns⟩
  · intro h
    exact ⟨carries_append.mpr h.messageEnum, fun W => (hStruct W _).mpr (h.structs W),
      fun W => (hField W).symm ▸ h.fields W, fun W => (hNew W _).mpr (h.news W), h.variants,
      h.updaterFns, h.getterMessages, hGetter.mpr h.getterFns⟩

theorem build_carried (hBuild : build T item raw = .ok x) :
    Carried T item raw (lastNew T item) x ∧ Position.model.AllTargeted raw.metas ∧
      ∃ items, List.Forall₂ (ParsedFnFirstPass.Writes T) item.items items := by
  have hPlain {raw : RawModelArgs} {x : Expansion} (hFrb : raw.flutterRustBridge = false)
      (hBuild : build T item raw = .ok x) : Carried T item raw (lastNew T item) x ∧
        Position.model.AllTargeted raw.metas ∧
        ∃ items, List.Forall₂ (ParsedFnFirstPass.Writes T) item.items items := by
    obtain ⟨c, hParse, hx⟩ := bind_ok hBuild
    cases hx
    obtain ⟨hWrites, hTargeted⟩ := ModelContext.parse_writes hFrb hParse
    exact ⟨hWrites.carried hFrb, hTargeted⟩
  obtain ⟨forApp, message, dispatcher, frb⟩ := raw
  cases frb with
  | false => exact hPlain rfl hBuild
  | true =>
    have hFrb := @build_frb T item ⟨forApp, message, dispatcher, true⟩
    rw [hBuild] at hFrb
    obtain ⟨y, hy, rfl⟩ := map_ok hFrb.symm
    obtain ⟨hCarried, hTargeted⟩ := hPlain rfl hy
    exact ⟨carried_frb.mpr hCarried, hTargeted⟩

end Flag

/-! ### When everything is routed -/

/-- The `new`s give nothing that has no target there, and only the last one gives entries. -/
structure InterfaceImpl.NewsKept (T : Toolchain) (item : InterfaceImpl) : Prop where
  message : ∀ f ∈ item.news, ∀ args, T.fromAttributes f.attrs = .ok args → args.message = none
  metas : ∀ f ∈ item.news, ∀ m ∈ T.metas f, m.message = [] ∧ m.fns = [] ∧
    ∀ inner ∈ m.inner, inner.updater = [] ∧ inner.getter = []
  earlier : ∀ f ∈ item.news.dropLast, ∀ m ∈ T.metas f, m.base = [] ∧ m.updater = [] ∧ m.getter = []

section Routed

variable {T : Toolchain} {item : InterfaceImpl} {raw : RawModelArgs} {x : Expansion}

theorem MetaConfig.given_inner {m : MetaConfig} {inner : InnerMetaConfig} {W : With}
    (h : m.inner = some inner) : m.given (.inner W) = W.innerMetas inner := by
  simp [given, h]

theorem new_allTargeted_iff {metas : Option MetaConfig} :
    (Position.fn .new).AllTargeted metas ↔ ∀ m ∈ metas, m.message = [] ∧ m.fns = [] ∧
      ∀ inner ∈ m.inner, inner.updater = [] ∧ inner.getter = [] := by
  have hNone {k : MetaKind} (h : ∀ place, k ∉ (Position.fn .new).kinds place) :
      ¬ (Position.fn .new).Targets k := fun ⟨place, hk⟩ => h place hk
  constructor
  · intro h m hm
    have hInner (W : With) : m.given (.inner W) = [] :=
      h m hm (.inner W) (hNone fun place => by cases place <;> simp [Position.kinds])
    refine ⟨h m hm .message (hNone fun place => ?_), h m hm .fns (hNone fun place => ?_),
      fun inner hSome => ⟨?_, ?_⟩⟩
    · cases place <;> simp [Position.kinds]
    · cases place <;> simp [Position.kinds]
    · exact (MetaConfig.given_inner hSome).symm.trans (hInner .updater)
    · exact (MetaConfig.given_inner hSome).symm.trans (hInner .getter)
  · refine fun h => allTargeted_of_kinds fun m hm k => ?_
    obtain ⟨hMessage, hFns, hInner⟩ := h m hm
    cases k with
    | base => exact .inl ⟨.newFn .updater, by simp [Position.kinds]⟩
    | own W => exact .inl ⟨.newFn W, by simp [Position.kinds]⟩
    | message => exact .inr hMessage
    | fns => exact .inr hFns
    | inner W =>
      refine .inr ?_
      cases hSome : m.inner with
      | none => simp [MetaConfig.given, hSome]
      | some inner =>
        obtain ⟨hUpdater, hGetter⟩ := hInner inner hSome
        rw [MetaConfig.given_inner hSome]
        cases W with
        | updater => exact hUpdater
        | getter => exact hGetter

/-- The entries of all `new`s are those of the earlier ones and those of the last. -/
theorem allNews_eq (place : Place) : allNews T item place =
    (item.news.dropLast.flatMap fun f => (Position.fn .new).entries (T.metas f) place) ++
      lastNew T item place := by
  unfold allNews lastNew
  rcases List.eq_nil_or_concat item.news with hNil | ⟨front, f, hLast⟩
  · simp [hNil]
  · simp [hLast]

theorem earlier_iff {f : MaybeStubFn} :
    (∀ W, (Position.fn .new).entries (T.metas f) (.newFn W) = []) ↔
      ∀ m ∈ T.metas f, m.base = [] ∧ m.updater = [] ∧ m.getter = [] := by
  cases T.metas f with
  | none => simp [Position.entries]
  | some m =>
    have hEntries (W : With) :
        (Position.fn .new).entries (some m) (.newFn W) = m.base ++ W.metas m := by
      simp [Position.entries, Position.kinds, MetaConfig.given]
    constructor
    · rintro h _ ⟨⟩
      obtain ⟨hBase, hUpdater⟩ := List.append_eq_nil_iff.mp ((hEntries .updater).symm.trans (h _))
      obtain ⟨-, hGetter⟩ := List.append_eq_nil_iff.mp ((hEntries .getter).symm.trans (h _))
      exact ⟨hBase, hUpdater, hGetter⟩
    · intro h W
      obtain ⟨hBase, hUpdater, hGetter⟩ := h m rfl
      rw [hEntries, hBase, List.nil_append]
      cases W with
      | updater => exact hUpdater
      | getter => exact hGetter

/-- What is carried for `new` is what the last one was given, so it is what all were given exactly
if the earlier ones were given nothing. -/
theorem news_eq_iff : (∀ W, (allNews T item (.newFn W)).map Meta.attribute? =
      (lastNew T item (.newFn W)).map Meta.attribute?) ↔
    ∀ f ∈ item.news.dropLast, ∀ m ∈ T.metas f, m.base = [] ∧ m.updater = [] ∧ m.getter = [] := by
  constructor
  · intro h f hf
    refine earlier_iff.mp fun W => ?_
    have hLength := congrArg List.length (h W)
    rw [allNews_eq, List.map_append, List.length_append, List.length_map] at hLength
    have hNil : (item.news.dropLast.flatMap fun f =>
        (Position.fn .new).entries (T.metas f) (.newFn W)) = [] :=
      List.length_eq_zero_iff.mp (by omega)
    exact List.flatMap_eq_nil_iff.mp hNil f hf
  · intro h W
    have hNil : (item.news.dropLast.flatMap fun f =>
        (Position.fn .new).entries (T.metas f) (.newFn W)) = [] :=
      List.flatMap_eq_nil_iff.mpr fun f hf => earlier_iff.mpr (h f hf) W
    rw [allNews_eq, hNil, List.nil_append]

/-- An accepted block is routed exactly if its `new`s give nothing that has no target there, and
only the last of them gives entries. -/
theorem routed_iff (hBuild : build T item raw = .ok x) :
    Routed T item raw x ↔ item.NewsKept T := by
  obtain ⟨hCarried, hModel, items, hItems⟩ := build_carried hBuild
  have hNews : ∀ f ∈ item.news, f ∈ item.items ∧ f.Arm .new := fun f hf => by
    obtain ⟨hMem, hNew⟩ := List.mem_filter.mp hf
    exact ⟨hMem, f.isNew_iff.mp hNew⟩
  constructor
  · intro h
    refine ⟨fun f hf args hArgs => ?_, fun f hf => ?_, news_eq_iff.mp fun W => ?_⟩
    · obtain ⟨hMem, hArm⟩ := hNews f hf
      exact (h.fns f hMem .new hArm args hArgs).message rfl
    · obtain ⟨hMem, hArm⟩ := hNews f hf
      intro m hm
      cases hArgs : T.fromAttributes f.attrs with
      | error e => simp [Toolchain.metas, hArgs] at hm
      | ok args =>
        rw [Toolchain.metas_of_ok hArgs] at hm
        exact new_allTargeted_iff.mp (h.fns f hMem .new hArm args hArgs).metas m hm
    · have hAll := h.carried.news W
      have hLast := hCarried.news W
      exact List.append_cancel_right (hAll.symm.trans hLast)
  · intro h
    refine ⟨{ hCarried with news := fun W => ?_ }, hModel, fun f hf s hArm args hArgs => ?_⟩
    · have hLast := hCarried.news W
      unfold Carries at hLast ⊢
      rw [news_eq_iff.mpr h.earlier W, hLast]
    · obtain ⟨i, hi⟩ := List.mem_iff_getElem?.mp hf
      obtain ⟨p, -, hp⟩ := Named.getElem?_of_forall₂ hItems hi
      obtain rfl := MaybeStubFn.arm_unique hp.arm hArm
      by_cases hNew : p.kind.shape = .new
      · have hMem : f ∈ item.news :=
          List.mem_filter.mpr ⟨hf, f.isNew_iff.mpr (hNew ▸ hArm)⟩
        have hName : args.name = none := hp.named args hArgs hNew
        rw [hNew]
        refine ⟨?_, fun _ => h.message f hMem args hArgs, fun n hn => ?_⟩
        · rw [← Toolchain.metas_of_ok hArgs]
          exact new_allTargeted_iff.mpr (h.metas f hMem)
        · rw [hName] at hn
          cases hn
      · exact hp.targeted args hArgs hNew

end Routed

/-- `new` is the only function with an attribute. -/
def attributedNew : MaybeStubFn :=
  ⟨[bracketed ["emyu"]], ["pub"], ⟨false, false, false, none, "new", [], [], false, .default⟩, none⟩

/-- What `emyu` says on `new`. -/
def newTools (args : MethodArgs) : Toolchain where
  __ := shapeTools
  fromAttributes attrs := .ok (if attrs.isEmpty then ⟨none, none, none⟩ else args)

/-- A block of `#[emyu(..)] pub fn new();` and `fn reset(&mut self) { .. }`. -/
def attributed : InterfaceImpl where
  vis := ["pub"]
  selfTy := .path [] [⟨"GaugeModel", .none⟩]
  items := [attributedNew, mutatingFn []]

/-- `meta(base(inline), updater(must_use))`. -/
def keptArgs : MethodArgs :=
  ⟨none, none, some ⟨[.list ["base"] ["inline"]], [.list ["updater"] ["must_use"]], [], [], [],
    none⟩⟩

/-- `message = "Open", meta(message(derive(Clone)), fns(inline), inner(updater(serde(skip))))`. -/
def droppedArgs : MethodArgs :=
  ⟨none, some "Open", some ⟨[], [], [], [.list ["message"] ["derive", "(Clone)"]],
    [.list ["fns"] ["inline"]], some ⟨[.list ["updater"] ["serde", "(skip)"]], []⟩⟩⟩

theorem routed_iff_new : ∃ x, build (newTools keptArgs) attributed bridgeArgs = .ok x ∧
    Routed (newTools keptArgs) attributed bridgeArgs x := by
  have hBuild : build (newTools keptArgs) attributed bridgeArgs = .ok _ := rfl
  refine ⟨_, hBuild, (routed_iff hBuild).mpr ?_⟩
  have hNews : attributed.news = [attributedNew] := rfl
  refine ⟨?_, ?_, ?_⟩
  · rw [hNews]
    rintro _ (_ | ⟨_, ⟨⟩⟩) args hArgs
    cases hArgs
    rfl
  · rw [hNews]
    rintro _ (_ | ⟨_, ⟨⟩⟩) m hm
    cases hm
    exact ⟨rfl, rfl, fun inner hInner => by cases hInner⟩
  · rw [hNews]
    rintro _ ⟨⟩

/-- `new` is accepted with a message that nothing is named after and entries that stand nowhere. -/
theorem new_drops_entries : ∃ x, build (newTools droppedArgs) attributed bridgeArgs = .ok x ∧
    ¬ Routed (newTools droppedArgs) attributed bridgeArgs x := by
  refine ⟨_, rfl, fun h => ?_⟩
  have hArm : attributedNew.Arm .new := attributedNew.isNew_iff.mp rfl
  have hTargeted := h.fns attributedNew List.mem_cons_self .new hArm droppedArgs rfl
  cases hTargeted.message rfl

end Emyu.Macro
