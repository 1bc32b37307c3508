import Emyu.Macro.Names
import Emyu.Macro.Routing

/-! From a getter of the impl block to the field it reads: the method on the getter struct, the
struct of its message, the handler of that message, and the signal that is flushed for it. -/

namespace Emyu.Macro

open Named

variable {T : Toolchain} {item : InterfaceImpl} {raw : RawModelArgs} {x : Expansion}
  {c : ModelContext} {f : MaybeStubFn}

/-- `self.0.get::<#message_name>()`: the impl of `ModelGetterMessage` and `ModelGetterHandler` that
the name picks, and its place among them. -/
def GetterFn.target (fn : GetterFn) (x : Expansion) : Option (Nat × GetterMessage) :=
  resolve GetterMessage.name x.getterMessages fn.messageName

/-- What a getter of the block is parsed into. -/
structure ParsedGetterFn.From (T : Toolchain) (f : MaybeStubFn) (g : ParsedGetterFn) : Prop where
  vis : g.common.vis = f.vis
  fnName : g.fnName = f.sig.ident
  messageName : ∃ args, T.fromAttributes f.attrs = .ok args ∧
    resolveNameForMessage T args f.sig.ident = .ok g.common.methodArgs.message.name
  retTy : extractInnerSignalTy f.sig.output = some g.retTy

theorem FnKind.analyze_getter {args : MethodArgs} {crate_ : TokenStream} {frb : Bool}
    {a : UpdaterGetterMethodArgs} {ty : Ty}
    (h : analyze T f args crate_ frb = .ok (.getter a ty)) :
    a.fnName = f.sig.ident ∧ resolveNameForMessage T args f.sig.ident = .ok a.message.name ∧
      extractInnerSignalTy f.sig.output = some ty := by
  obtain ⟨_, _, h⟩ := bind_ok h
  split at h
  next =>
    obtain ⟨_, _, h⟩ := bind_ok h
    cases h
  next =>
    obtain ⟨_, _, h⟩ := bind_ok h
    cases h
  next hTy _ _ =>
    obtain ⟨a', ha, h⟩ := bind_ok h
    cases h
    obtain ⟨_, _, ha⟩ := bind_ok ha
    obtain ⟨hName, hMessage⟩ := UpdaterGetterMethodArgs.parse_ok ha
    exact ⟨hName, hMessage, hTy⟩
  · cases h

/-- A function is a getter of the context exactly if it has the shape of one. -/
theorem ParsedFnFirstPass.parse_getterFrom {crate_ : TokenStream} {frb : Bool}
    {p : ParsedFnFirstPass} (h : parse T crate_ frb f = .ok p) :
    if f.isGetter then ∃ g, p.getter? = some g ∧ g.From T f else p.getter? = none := by
  obtain ⟨args, hArgs, h⟩ := bind_ok h
  obtain ⟨kind, hKind, h⟩ := bind_ok h
  obtain ⟨fnArgs, _, h⟩ := bind_ok h
  cases h
  have hShape : f.Arm kind.shape :=
    ((FnKind.analyze_shape_iff kind.shape).mp (by rw [hKind]; rfl)).2.1
  cases kind with
  | getter a ty =>
    obtain ⟨hName, hMessage, hTy⟩ := FnKind.analyze_getter hKind
    rw [if_pos ((MaybeStubFn.isGetter_iff f).mpr hShape)]
    exact ⟨_, rfl, rfl, hName, ⟨args, hArgs, hMessage⟩, hTy⟩
  | new a =>
    have hNot : f.isGetter ≠ true := fun hIs => by
      cases MaybeStubFn.arm_unique hShape ((MaybeStubFn.isGetter_iff f).mp hIs)
    rw [if_neg hNot]
    rfl
  | updater a commandTy block =>
    have hNot : f.isGetter ≠ true := fun hIs => by
      cases MaybeStubFn.arm_unique hShape ((MaybeStubFn.isGetter_iff f).mp hIs)
    rw [if_neg hNot]
    rfl

/-- What the getters of the impl block are parsed into, in its order. -/
theorem ModelContext.getters_from (h : parse T item raw = .ok c) :
    List.Forall₂ (ParsedGetterFn.From T) item.getters c.getters := by
  obtain ⟨_, _, h⟩ := bind_ok h
  obtain ⟨crate_, _, h⟩ := bind_ok h
  obtain ⟨items, hItems, h⟩ := bind_ok h
  obtain ⟨args, _, h⟩ := bind_ok h
  cases h
  have hAll := forall₂_filterMap (collect_ok hItems) fun _ _ => ParsedFnFirstPass.parse_getterFrom
  rw [← ParsedFnsSecondPass.parse_getters items crate_ raw.flutterRustBridge] at hAll
  exact hAll

/-- What the expansion makes of the getter `f` in the place `i`: a method of its name that returns
the signal type it declares, through a message that reads the model's field of its name, and that
field among the signals to flush. -/
structure ReadsField (item : InterfaceImpl) (x : Expansion) (i : Nat) (f : MaybeStubFn)
    (method : GetterFn) (message : GetterMessage) (accumulate : AccumulateSignal) : Prop where
  method_eq : x.getterImpls.fns[i]? = some method
  message_eq : x.getterMessages[i]? = some message
  accumulate_eq : x.implModel.accumulateSignals[i]? = some accumulate
  target : method.target x = some (i, message)
  names : method.name = f.sig.ident ∧ message.fieldName = f.sig.ident ∧
    accumulate.fieldName = f.sig.ident
  types : extractInnerSignalTy f.sig.output = some method.retTy ∧ message.retTy = method.retTy ∧
    message.modelTy = item.selfTy
  vis : method.vis = f.vis ∧ message.vis = f.vis

/-- A block that expands has as many getter methods, messages with handlers and signals to flush as
it has getters, and when the message structs have names of their own, each getter reads and flushes
the field that it names, and that field only. -/
theorem getters_read (hBuild : build T item raw = .ok x)
    (hNames : (x.getterMessages.map GetterMessage.name).Nodup) :
    x.getterImpls.fns.length = item.getters.length ∧
    x.getterMessages.length = item.getters.length ∧
    x.implModel.accumulateSignals.length = item.getters.length ∧
    ∀ i f, item.getters[i]? = some f → ∃ method message accumulate,
      ReadsField item x i f method message accumulate := by
  obtain ⟨c, hParse, hx⟩ := bind_ok hBuild
  cases hx
  have hAll := ModelContext.getters_from hParse
  have hLength := hAll.length_eq.symm
  have hSelf : c.modelTy = item.selfTy := by
    obtain ⟨_, _, h⟩ := bind_ok hParse
    obtain ⟨_, _, h⟩ := bind_ok h
    obtain ⟨_, _, h⟩ := bind_ok h
    obtain ⟨_, _, h⟩ := bind_ok h
    cases h
    rfl
  refine ⟨?_, ?_, ?_, fun i f hf => ?_⟩
  · simpa [ModelContext.generate, ModelContext.generateGetterImpls,
      ModelContext.generateUpdaterGetterImpls] using hLength
  · simpa [ModelContext.generate] using hLength
  · simpa [ModelContext.generate, ModelContext.generateImplModel] using hLength
  · obtain ⟨g, hg, hFrom⟩ := getElem?_of_forall₂ hAll hf
    have hMessage : c.generate.getterMessages[i]? =
        some (g.generateMessageStructAndTraitImpls c.crate_ c.modelTy) := by
      simp [ModelContext.generate, hg]
    refine ⟨g.generateGetterFn c.crate_, _, g.generateAccumulateSignals c.crate_, ?_, hMessage, ?_,
      resolve_of_nodup hNames hMessage, ⟨hFrom.fnName, hFrom.fnName, hFrom.fnName⟩,
      ⟨hFrom.retTy, rfl, hSelf⟩, ⟨hFrom.vis, hFrom.vis⟩⟩
    · simp [ModelContext.generate, ModelContext.generateGetterImpls,
        ModelContext.generateUpdaterGetterImpls, hg]
    · simp [ModelContext.generate, ModelContext.generateImplModel, hg]

/-- `fn #name(&self) -> Signal<#ty>;`. -/
def signalFn (name message : Ident) (ty : TokenStream) : MaybeStubFn :=
  ⟨[[message]], ["pub"], ⟨false, false, false, none, name, [], [.receiver true false], false,
    .type (.path [] [⟨"Signal", .angleBracketed [.type (.other ty)]⟩])⟩, none⟩

def dial : InterfaceImpl where
  vis := ["pub"]
  selfTy := .path [] [⟨"DialModel", .none⟩]
  items := [signalFn "level" "Level" ["u32"], gaugeFn "reset" "Reset" [] ["{ }"],
    signalFn "label" "Label" ["String"]]

theorem getters_read_dial : ∃ x, build gaugeTools dial gaugeArgs = .ok x ∧
    x.getterImpls.fns.length = 2 ∧ x.getterMessages.length = 2 ∧
    x.implModel.accumulateSignals.length = 2 ∧
    ∀ i f, dial.getters[i]? = some f → ∃ method message accumulate,
      ReadsField dial x i f method message accumulate := by
  have hBuild : build gaugeTools dial gaugeArgs = .ok _ := rfl
  exact ⟨_, hBuild, getters_read hBuild (by decide)⟩

end Emyu.Macro
