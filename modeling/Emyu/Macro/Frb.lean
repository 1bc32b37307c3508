import Emyu.Macro.Generator
import Emyu.Macro.Shape

/-! What the `frb` flag does to an expansion: the two runs of `build`, without the flag and with it,
compared step by step. -/

namespace Emyu.Macro

/-! ### One attribute more -/

def NewMethodArgs.withFrb (n : Nat) (crate_ : TokenStream) (args : NewMethodArgs) :
    NewMethodArgs :=
  ⟨args.updaterMeta ++ List.replicate n (frbSync crate_),
    args.getterMeta ++ List.replicate n (frbSync crate_)⟩

def UpdaterGetterMethodArgs.withFrb (crate_ : TokenStream) (args : UpdaterGetterMethodArgs) :
    UpdaterGetterMethodArgs :=
  { args with fnMeta := args.fnMeta ++ [frbSyncGetter crate_] }

def FnKind.withFrb (crate_ : TokenStream) : FnKind → FnKind
  | .new args => .new (args.withFrb 1 crate_)
  | .updater args commandTy block => .updater args commandTy block
  | .getter args ty => .getter (args.withFrb crate_) ty

def ParsedFnFirstPass.withFrb (crate_ : TokenStream) (p : ParsedFnFirstPass) :
    ParsedFnFirstPass :=
  { p with kind := p.kind.withFrb crate_ }

def ParsedNewFn.withFrb (n : Nat) (crate_ : TokenStream) (f : ParsedNewFn) : ParsedNewFn :=
  { f with methodArgs := f.methodArgs.withFrb n crate_ }

def ParsedGetterFn.withFrb (crate_ : TokenStream) (g : ParsedGetterFn) : ParsedGetterFn :=
  ⟨⟨g.common.vis, g.common.methodArgs.withFrb crate_⟩, g.retTy⟩

def ParsedFnsSecondPass.withFrb (n : Nat) (crate_ : TokenStream) (fns : ParsedFnsSecondPass) :
    ParsedFnsSecondPass :=
  ⟨fns.newFn.withFrb n crate_, fns.updaters, fns.getters.map (ParsedGetterFn.withFrb crate_)⟩

def ModelProperties.withFrb (crate_ : TokenStream) (props : ModelProperties) : ModelProperties :=
  { props with outerMeta := props.outerMeta ++ [frbOpaque crate_] }

def MessageEnumProperties.withFrb (crate_ : TokenStream) (props : MessageEnumProperties) :
    MessageEnumProperties :=
  { props with outerMeta := props.outerMeta ++ [frbOpaque crate_] }

def ModelArgs.withFrb (crate_ : TokenStream) (args : ModelArgs) : ModelArgs :=
  ⟨args.message.withFrb crate_, args.updater.withFrb crate_, args.getter.withFrb crate_,
    args.forApp⟩

def ModelContext.withFrb (n : Nat) (c : ModelContext) : ModelContext :=
  { c with
    args := c.args.withFrb c.crate_
    newFn := c.newFn.withFrb n c.crate_
    getters := c.getters.map (ParsedGetterFn.withFrb c.crate_) }

/-- The expansion with one attribute more on the message enum, the two structs and every getter
function, and `n` more on the two `new`s. -/
def Expansion.withFrb (n : Nat) (x : Expansion) : Expansion :=
  let crate_ := x.implModel.crate_
  let isOpaque := bracketed (frbOpaque crate_)
  let isSync := List.replicate n (bracketed (frbSync crate_))
  let isGetter := bracketed (frbSyncGetter crate_)
  { x with
    message := { x.message with outerMeta := x.message.outerMeta ++ [isOpaque] }
    updaterStruct := { x.updaterStruct with outerMeta := x.updaterStruct.outerMeta ++ [isOpaque] }
    updaterImpls := { x.updaterImpls with
      newFn := { x.updaterImpls.newFn with meta_ := x.updaterImpls.newFn.meta_ ++ isSync } }
    getterStruct := { x.getterStruct with outerMeta := x.getterStruct.outerMeta ++ [isOpaque] }
    getterImpls := { x.getterImpls with
      newFn := { x.getterImpls.newFn with meta_ := x.getterImpls.newFn.meta_ ++ isSync }
      fns := x.getterImpls.fns.map fun g => { g with meta_ := g.meta_ ++ [isGetter] } } }

/-! ### Parsing one function -/

section Parse

variable {T : Toolchain} {crate_ : TokenStream}

theorem bind_then_map {α β γ : Type} (x : Except Failure α) (f : α → Except Failure β) (g : β → γ) :
    (x >>= f).map g = x >>= fun a => (f a).map g := by
  cases x <;> rfl

theorem NewMethodArgs.parse_frb (raw : MethodArgs) :
    parse raw crate_ true = (parse raw crate_ false).map (withFrb 1 crate_) := by
  unfold parse
  simp only [bind_then_map]
  rfl

theorem UpdaterGetterMethodArgs.parseUpdater_frb (raw : MethodArgs) (fnName : Ident) :
    parseUpdater T raw fnName crate_ true = parseUpdater T raw fnName crate_ false := rfl

theorem UpdaterGetterMethodArgs.parseGetter_frb (raw : MethodArgs) (fnName : Ident) :
    parseGetter T raw fnName crate_ true =
      (parseGetter T raw fnName crate_ false).map (withFrb crate_) := by
  unfold parseGetter parse
  simp only [bind_then_map]
  rfl

theorem FnKind.analyze_frb (f : MaybeStubFn) (args : MethodArgs) :
    analyze T f args crate_ true = (analyze T f args crate_ false).map (withFrb crate_) := by
  unfold analyze
  rw [bind_then_map]
  refine bind_congr fun _ => ?_
  split
  · rw [NewMethodArgs.parse_frb, bind_then_map]
    cases NewMethodArgs.parse args crate_ false <;> rfl
  · rw [UpdaterGetterMethodArgs.parseUpdater_frb, bind_then_map]
    rfl
  · rw [UpdaterGetterMethodArgs.parseGetter_frb, bind_then_map]
    cases UpdaterGetterMethodArgs.parseGetter T args f.sig.ident crate_ false <;> rfl
  · rfl

theorem ParsedFnFirstPass.parse_frb (f : MaybeStubFn) :
    parse T crate_ true f = (parse T crate_ false f).map (withFrb crate_) := by
  unfold parse
  rw [bind_then_map]
  refine bind_congr fun args => ?_
  rw [FnKind.analyze_frb, bind_then_map]
  cases FnKind.analyze T f args crate_ false with
  | error e => rfl
  | ok kind =>
    show (collect ParsedFnArg.parse f.sig.inputs >>= _) = Except.map _ (_ >>= _)
    rw [bind_then_map]
    rfl

end Parse

/-! ### Assembling the functions -/

section Assemble

variable {crate_ : TokenStream}

theorem collect_map {α β γ : Type} (f : α → Except Failure β) (g : β → γ) (l : List α) :
    collect (fun a => (f a).map g) l = (collect f l).map (List.map g) := by
  induction l with
  | nil => rfl
  | cons a rest ih =>
    rw [collect, collect, ih]
    cases f a with
    | error e => rfl
    | ok b => cases collect f rest <;> rfl

def ParsedFnFirstPass.isNew (p : ParsedFnFirstPass) : Bool := p.kind.shape == .new

/-- A `new` that is parsed has one attribute more; a missing one has none. -/
theorem ParsedFnsSecondPass.foldl_push_frb (items : List ParsedFnFirstPass)
    (fns : ParsedFnsSecondPass) (n : Nat) :
    (items.map (ParsedFnFirstPass.withFrb crate_)).foldl push (fns.withFrb n crate_) =
      (items.foldl push fns).withFrb (if items.any ParsedFnFirstPass.isNew then 1 else n)
        crate_ := by
  induction items generalizing fns n with
  | nil => rfl
  | cons p rest ih =>
    obtain ⟨vis, fnArgs, kind⟩ := p
    cases kind with
    | new args =>
      have hPush : push (fns.withFrb n crate_)
          (ParsedFnFirstPass.withFrb crate_ ⟨vis, fnArgs, .new args⟩) =
            (push fns ⟨vis, fnArgs, .new args⟩).withFrb 1 crate_ := rfl
      have hNew : ParsedFnFirstPass.isNew ⟨vis, fnArgs, .new args⟩ = true := rfl
      rw [List.map_cons, List.foldl_cons, hPush, ih, List.any_cons, hNew, List.foldl_cons]
      simp
    | updater args commandTy block =>
      have hPush : push (fns.withFrb n crate_)
          (ParsedFnFirstPass.withFrb crate_ ⟨vis, fnArgs, .updater args commandTy block⟩) =
            (push fns ⟨vis, fnArgs, .updater args commandTy block⟩).withFrb n crate_ := rfl
      rw [List.map_cons, List.foldl_cons, hPush, ih, List.any_cons, List.foldl_cons]
      rfl
    | getter args ty =>
      have hPush : push (fns.withFrb n crate_)
          (ParsedFnFirstPass.withFrb crate_ ⟨vis, fnArgs, .getter args ty⟩) =
            (push fns ⟨vis, fnArgs, .getter args ty⟩).withFrb n crate_ := by
        simp [push, withFrb, ParsedFnFirstPass.withFrb, FnKind.withFrb, ParsedGetterFn.withFrb]
      rw [List.map_cons, List.foldl_cons, hPush, ih, List.any_cons, List.foldl_cons]
      rfl

theorem ParsedFnsSecondPass.withFrb_zero (fns : ParsedFnsSecondPass)
    (hNone : fns.getters = []) : fns.withFrb 0 crate_ = fns := by
  obtain ⟨⟨vis, updaterMeta, getterMeta⟩, updaters, getters⟩ := fns
  obtain rfl : getters = [] := hNone
  simp [withFrb, ParsedNewFn.withFrb, NewMethodArgs.withFrb]

/-- The attribute that is added to `new` in any case. -/
theorem ParsedNewFn.injectBaseMeta_frb (f : ParsedNewFn) (n : Nat) :
    (f.withFrb n crate_).injectBaseMeta (frbSync crate_) = f.withFrb (n + 1) crate_ := by
  simp [withFrb, NewMethodArgs.withFrb, injectBaseMeta, List.replicate_succ']

/-- How many `frb` attributes a `new` gets: one when it is parsed, and one in any case. -/
def newFrbs (declared : Bool) : Nat := (if declared then 1 else 0) + 1

theorem ParsedFnsSecondPass.parse_frb (items : List ParsedFnFirstPass) :
    parse (items.map (ParsedFnFirstPass.withFrb crate_)) crate_ true =
      (parse items crate_ false).withFrb (newFrbs (items.any ParsedFnFirstPass.isNew))
        crate_ := by
  have hStart : (⟨ParsedNewFn.default, [], []⟩ : ParsedFnsSecondPass) =
      withFrb 0 crate_ ⟨ParsedNewFn.default, [], []⟩ := (withFrb_zero _ rfl).symm
  unfold parse
  rw [hStart, foldl_push_frb, ← hStart]
  show ParsedFnsSecondPass.mk (ParsedNewFn.injectBaseMeta (ParsedNewFn.withFrb _ _ _) _) _ _ = _
  rw [ParsedNewFn.injectBaseMeta_frb]
  rfl

end Assemble

/-! ### The whole expansion -/

section Model

variable {T : Toolchain} {crate_ : TokenStream}

theorem MessageEnumProperties.fromConfig_frb (config : MessageConfig) (modelName : Ident) :
    fromConfig T config modelName crate_ true =
      (fromConfig T config modelName crate_ false).map (withFrb crate_) := by
  unfold fromConfig
  simp only [bind_then_map]
  rfl

theorem ModelProperties.fromConfig_frb (W : With) (config : DispatcherConfig)
    (modelName : Ident) : fromConfig T W config modelName crate_ true =
      (fromConfig T W config modelName crate_ false).map (withFrb crate_) := by
  unfold fromConfig
  simp only [bind_then_map]
  rfl

theorem ModelArgs.parse_frb (raw : RawModelArgs) (modelName : Ident) :
    parse T { raw with flutterRustBridge := true } modelName crate_ =
      (parse T { raw with flutterRustBridge := false } modelName crate_).map
        (withFrb crate_) := by
  unfold parse
  rw [bind_then_map]
  refine bind_congr fun config => ?_
  rw [MessageEnumProperties.fromConfig_frb, bind_then_map]
  cases MessageEnumProperties.fromConfig T raw.message modelName crate_ false with
  | error e => rfl
  | ok message =>
    show (validate config >>= _) = Except.map _ (_ >>= _)
    rw [bind_then_map]
    refine bind_congr fun _ => ?_
    rw [ModelProperties.fromConfig_frb, ModelProperties.fromConfig_frb]
    cases ModelProperties.fromConfig T .updater config modelName crate_ false with
    | error e => rfl
    | ok updater =>
      cases ModelProperties.fromConfig T .getter config modelName crate_ false <;> rfl

end Model

/-- `fn new();`, as `analyze` tells it. -/
def MaybeStubFn.isNew (f : MaybeStubFn) : Bool :=
  f.sig.ident == "new" && (SelfTy.analyze f.sig.inputs).isNone &&
    (extractInnerSignalTy f.sig.output).isNone && f.sig.hasNoFnArgs && f.block.isNone

theorem MaybeStubFn.isNew_iff (f : MaybeStubFn) : f.isNew = true ↔ f.Arm .new := by
  simp [isNew, Arm, and_assoc]

def InterfaceImpl.declaresNew (item : InterfaceImpl) : Bool := item.items.any MaybeStubFn.isNew

section Build

variable {T : Toolchain} {item : InterfaceImpl} {raw : RawModelArgs}

/-- A function is parsed as a `new` exactly if it looks like one. -/
theorem ParsedFnFirstPass.isNew_of_parse {crate_ : TokenStream} {frb : Bool} {f : MaybeStubFn}
    {p : ParsedFnFirstPass} (h : parse T crate_ frb f = .ok p) : p.isNew = f.isNew := by
  obtain ⟨args, hArgs, h⟩ := bind_ok h
  obtain ⟨kind, hKind, h⟩ := bind_ok h
  obtain ⟨fnArgs, hFnArgs, h⟩ := bind_ok h
  cases h
  have hShape : (FnKind.analyze T f args crate_ frb).map FnKind.shape = .ok kind.shape := by
    rw [hKind]
    rfl
  obtain ⟨hValid, hArm, -⟩ := (FnKind.analyze_shape_iff kind.shape).mp hShape
  by_cases hNew : f.Arm .new
  · rw [FnKind.analyze_of_arm hValid hNew] at hShape
    obtain ⟨u, -, hEq⟩ := map_ok hShape
    rw [f.isNew_iff.mpr hNew]
    exact beq_iff_eq.mpr hEq.symm
  · rw [Bool.eq_false_iff.mpr fun h => hNew (f.isNew_iff.mp h)]
    refine beq_eq_false_iff_ne.mpr fun hEq => hNew ?_
    have hEq : kind.shape = .new := hEq
    exact hEq ▸ hArm

theorem collect_isNew {crate_ : TokenStream} {frb : Bool} {fns : List MaybeStubFn}
    {items : List ParsedFnFirstPass}
    (h : collect (ParsedFnFirstPass.parse T crate_ frb) fns = .ok items) :
    items.any ParsedFnFirstPass.isNew = fns.any MaybeStubFn.isNew := by
  have hAll := collect_ok h
  clear h
  induction hAll with
  | nil => rfl
  | cons hp _ ih => rw [List.any_cons, List.any_cons, ih, ParsedFnFirstPass.isNew_of_parse hp]

theorem ModelContext.parse_frb :
    parse T item { raw with flutterRustBridge := true } =
      (parse T item { raw with flutterRustBridge := false }).map
        (withFrb (newFrbs item.declaresNew)) := by
  unfold parse
  rw [bind_then_map]
  refine bind_congr fun modelName => ?_
  rw [bind_then_map]
  refine bind_congr fun crate_ => ?_
  have hCollect : collect (ParsedFnFirstPass.parse T crate_ true) item.items =
      (collect (ParsedFnFirstPass.parse T crate_ false) item.items).map
        (List.map (ParsedFnFirstPass.withFrb crate_)) := by
    rw [← collect_map]
    exact congrArg (fun f => collect f item.items) (funext ParsedFnFirstPass.parse_frb)
  rw [hCollect]
  cases hItems : collect (ParsedFnFirstPass.parse T crate_ false) item.items with
  | error e => rfl
  | ok items =>
    have hFns : ParsedFnsSecondPass.parse (items.map (ParsedFnFirstPass.withFrb crate_)) crate_
        true = (ParsedFnsSecondPass.parse items crate_ false).withFrb
          (newFrbs item.declaresNew) crate_ := by
      rw [ParsedFnsSecondPass.parse_frb, collect_isNew hItems]
      rfl
    show (ModelArgs.parse T { raw with flutterRustBridge := true } modelName crate_ >>= fun args =>
      pure (ModelContext.mk crate_ args item.vis item.selfTy
        (ParsedFnsSecondPass.parse (items.map (ParsedFnFirstPass.withFrb crate_)) crate_
          true).newFn _ _)) = Except.map _ (_ >>= _)
    rw [ModelArgs.parse_frb, hFns, bind_then_map]
    cases ModelArgs.parse T { raw with flutterRustBridge := false } modelName crate_ <;> rfl

/-! What is generated from the functions and the properties with one attribute more. -/

theorem generateForUpdater_frb (n : Nat) (crate_ : TokenStream) (f : ParsedNewFn) (modelTy : Ty) :
    (f.withFrb n crate_).generateForUpdater crate_ modelTy =
      { f.generateForUpdater crate_ modelTy with
        meta_ := (f.generateForUpdater crate_ modelTy).meta_ ++
          List.replicate n (bracketed (frbSync crate_)) } := by
  simp [ParsedNewFn.generateForUpdater, ParsedNewFn.generate, ParsedNewFn.withFrb,
    NewMethodArgs.withFrb]

theorem generateForGetter_frb (n : Nat) (crate_ : TokenStream) (f : ParsedNewFn) (modelTy : Ty) :
    (f.withFrb n crate_).generateForGetter crate_ modelTy =
      { f.generateForGetter crate_ modelTy with
        meta_ := (f.generateForGetter crate_ modelTy).meta_ ++
          List.replicate n (bracketed (frbSync crate_)) } := by
  simp [ParsedNewFn.generateForGetter, ParsedNewFn.generate, ParsedNewFn.withFrb,
    NewMethodArgs.withFrb]

theorem generateGetterFn_frb (crate_ : TokenStream) (g : ParsedGetterFn) :
    (g.withFrb crate_).generateGetterFn crate_ =
      { g.generateGetterFn crate_ with
        meta_ := (g.generateGetterFn crate_).meta_ ++ [bracketed (frbSyncGetter crate_)] } := by
  simp [ParsedGetterFn.generateGetterFn, ParsedGetterFn.withFrb, UpdaterGetterMethodArgs.withFrb,
    ParsedGetterFn.fnName]

theorem ModelContext.generate_frb (n : Nat) (c : ModelContext) :
    (c.withFrb n).generate = c.generate.withFrb n := by
  have hImpl : (c.withFrb n).generateImplModel = c.generateImplModel := by
    simp only [generateImplModel, withFrb, List.map_map, Function.comp_def]
    rfl
  have hMessage : (c.withFrb n).generateMessage = (c.generate.withFrb n).message := by
    simp [generateMessage, generate, generateImplModel, Expansion.withFrb, withFrb,
      ModelArgs.withFrb, MessageEnumProperties.withFrb]
  have hUpdater : (c.withFrb n).generateUpdaterStruct = (c.generate.withFrb n).updaterStruct := by
    simp [generateUpdaterStruct, generateAnyStruct, generate, generateImplModel,
      Expansion.withFrb, withFrb, ModelArgs.withFrb, ModelProperties.withFrb]
  have hUpdaters : (c.withFrb n).generateUpdaterImpls = (c.generate.withFrb n).updaterImpls := by
    have hNew : (c.withFrb n).newFn.generateForUpdater (c.withFrb n).crate_ (c.withFrb n).modelTy =
        (c.generate.withFrb n).updaterImpls.newFn := generateForUpdater_frb n c.crate_ c.newFn _
    rw [generateUpdaterImpls, hNew]
    rfl
  have hGetter : (c.withFrb n).generateGetterStruct = (c.generate.withFrb n).getterStruct := by
    simp [generateGetterStruct, generateAnyStruct, generate, generateImplModel,
      Expansion.withFrb, withFrb, ModelArgs.withFrb, ModelProperties.withFrb]
  have hGetters : (c.withFrb n).generateGetterImpls = (c.generate.withFrb n).getterImpls := by
    have hNew : (c.withFrb n).newFn.generateForGetter (c.withFrb n).crate_ (c.withFrb n).modelTy =
        (c.generate.withFrb n).getterImpls.newFn := generateForGetter_frb n c.crate_ c.newFn _
    have hFns : (c.withFrb n).getters.map (fun g => g.generateGetterFn (c.withFrb n).crate_) =
        (c.generate.withFrb n).getterImpls.fns := by
      show (c.getters.map _).map _ = (c.getters.map _).map _
      rw [List.map_map, List.map_map]
      exact List.map_congr_left fun g _ => generateGetterFn_frb c.crate_ g
    rw [generateGetterImpls, generateUpdaterGetterImpls, hNew, hFns]
    rfl
  have hMessages : (c.withFrb n).getters.map (fun g =>
      g.generateMessageStructAndTraitImpls (c.withFrb n).crate_ (c.withFrb n).modelTy) =
        c.getters.map fun g => g.generateMessageStructAndTraitImpls c.crate_ c.modelTy := by
    simp only [withFrb, List.map_map, Function.comp_def]
    rfl
  show Expansion.mk _ _ _ _ _ _ _ = _
  rw [hImpl, hMessage, hUpdater, hUpdaters, hGetter, hGetters, hMessages]
  rfl

/-- The flag decides nothing but how many attributes there are. -/
theorem build_frb : build T item { raw with flutterRustBridge := true } =
    (build T item { raw with flutterRustBridge := false }).map
      (Expansion.withFrb (newFrbs item.declaresNew)) := by
  unfold build
  rw [ModelContext.parse_frb, bind_then_map]
  cases ModelContext.parse T item { raw with flutterRustBridge := false } with
  | error e => rfl
  | ok c => exact congrArg Except.ok (c.generate_frb _)

/-- Adding the flag to what is accepted without it keeps it accepted and adds exactly one attribute
to each item exactly if the block declares no `fn new();`. -/
theorem frb_adds_one_iff {x : Expansion}
    (hBuild : build T item { raw with flutterRustBridge := false } = .ok x) :
    build T item { raw with flutterRustBridge := true } = .ok (x.withFrb 1) ↔
      item.declaresNew = false := by
  rw [build_frb, hBuild]
  show Except.ok (x.withFrb (newFrbs item.declaresNew)) = .ok (x.withFrb 1) ↔ _
  cases hNew : item.declaresNew with
  | false => simp [newFrbs]
  | true =>
    refine iff_of_false (fun h => ?_) (by simp)
    have hMeta := congrArg (fun x => x.updaterImpls.newFn.meta_.length) (Except.ok.inj h)
    simp [newFrbs, Expansion.withFrb] at hMeta

end Build

/-- `dispatcher`, and nothing else. -/
def bridgeArgs : RawModelArgs := ⟨"App", ⟨none, []⟩, some .default, false⟩

/-- A block of `fn reset(&mut self) { .. }`, and perhaps `pub fn new();`. -/
def bridged (declared : Bool) : InterfaceImpl where
  vis := ["pub"]
  selfTy := .path [] [⟨"GaugeModel", .none⟩]
  items := (if declared then [⟨[], ["pub"], ⟨false, false, false, none, "new", [], [], false,
    .default⟩, none⟩] else []) ++ [mutatingFn []]

theorem frb_adds_one_iff_reset : ∃ x, build shapeTools (bridged false) bridgeArgs = .ok x ∧
    build shapeTools (bridged false) { bridgeArgs with flutterRustBridge := true } =
      .ok (x.withFrb 1) := by
  have hBuild : build shapeTools (bridged false) { bridgeArgs with flutterRustBridge := false } =
    .ok _ := rfl
  exact ⟨_, hBuild, (frb_adds_one_iff hBuild).mpr rfl⟩

/-- A declared `new` gets `frb(sync)` when it is parsed and again when the functions are put
together. -/
theorem new_bridged_twice : ∃ x, build shapeTools (bridged true) bridgeArgs = .ok x ∧
    build shapeTools (bridged true) { bridgeArgs with flutterRustBridge := true } ≠
      .ok (x.withFrb 1) := by
  refine ⟨_, rfl, fun h => ?_⟩
  have hMeta := congrArg (fun x => x.updaterImpls.newFn.meta_.length) (Except.ok.inj h)
  cases hMeta

end Emyu.Macro
