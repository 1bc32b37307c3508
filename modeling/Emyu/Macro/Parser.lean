import Emyu.Macro.Attr
import Mathlib.Data.List.ReduceOption

/-! From the impl block to the model context: what each function of the block is taken for. -/

namespace Emyu.Macro

inductive FnKind where
  | new (args : NewMethodArgs)
  | updater (args : UpdaterGetterMethodArgs) (commandTy : Option Ty) (block : Block)
  | getter (args : UpdaterGetterMethodArgs) (ty : Ty)

inductive SelfTy where
  | shared
  | mutable

def SelfTy.analyze : List FnArg → Option SelfTy
  | [] => none
  | .receiver true mutability :: _ => some (if mutability then .mutable else .shared)
  | _ :: rest => analyze rest

def extractInnerSignalTy : ReturnType → Option Ty
  | .type (.path _ segments) =>
    match segments.getLast? with
    | some ⟨"Signal", .angleBracketed [.type ty]⟩ => some ty
    | _ => none
  | _ => none

def GenericParam.isLifetime : GenericParam → Bool
  | .lifetime _ => true
  | _ => false

def Signature.hasNoFnArgs (sig : Signature) : Bool :=
  match sig.inputs with
  | [] => true
  | [.receiver _ _] => true
  | _ => false

namespace FnKind

def validate (sig : Signature) : Except Failure Unit :=
  if sig.constness then
    .error (.error "const functions are not supported in `#[emyu::model]`")
  else if sig.asyncness then
    .error (.error "async functions are not supported in `#[emyu::model]`")
  else if sig.unsafety then
    .error (.error "unsafe functions are not supported in `#[emyu::model]`")
  else if sig.abi.isSome then
    .error (.error "extern functions are not supported in `#[emyu::model]`")
  else if sig.generics.any GenericParam.isLifetime then
    .error (.error "lifetime parameters are not supported in `#[emyu::model]`")
  else if sig.variadic then
    .error (.error "variadic functions are not supported in `#[emyu::model]`")
  else .ok ()

def analyze (T : Toolchain) (item : MaybeStubFn) (args : MethodArgs) (crate_ : TokenStream)
    (flutterRustBridge : Bool) : Except Failure FnKind := do
  validate item.sig
  match item.sig.ident, SelfTy.analyze item.sig.inputs, extractInnerSignalTy item.sig.output,
      item.sig.hasNoFnArgs, item.block with
  | "new", none, none, true, none =>
    return .new (← NewMethodArgs.parse args crate_ flutterRustBridge)
  | _, some .mutable, commandTy, _, some block =>
    return .updater (← UpdaterGetterMethodArgs.parseUpdater T args item.sig.ident crate_
      flutterRustBridge) commandTy block
  | _, some .shared, some ty, true, none =>
    return .getter (← UpdaterGetterMethodArgs.parseGetter T args item.sig.ident crate_
      flutterRustBridge) ty
  | _, _, _, _, _ => .error (.error "could not determine function shape")

end FnKind

structure ParsedFnArg where
  attrs : List Attribute
  name : Ident
  ty : Ty

def ParsedFnArg.parse : FnArg → Except Failure (Option ParsedFnArg)
  | .receiver _ _ => .ok none
  | .typed attrs (.ident _ _ name _) ty => .ok (some ⟨attrs, name, ty⟩)
  | .typed _ (.other _) _ =>
    .error (.error "unsupported function argument in `#[emyu::model]`")

structure ParsedFnFirstPass where
  vis : Visibility
  fnArgs : List ParsedFnArg
  kind : FnKind

def ParsedFnFirstPass.parse (T : Toolchain) (crate_ : TokenStream) (flutterRustBridge : Bool)
    (item : MaybeStubFn) : Except Failure ParsedFnFirstPass := do
  let args ← T.fromAttributes item.attrs
  let kind ← FnKind.analyze T item args crate_ flutterRustBridge
  let fnArgs ← collect ParsedFnArg.parse item.sig.inputs
  pure ⟨item.vis, fnArgs.reduceOption, kind⟩

structure ParsedNewFn where
  vis : Visibility
  methodArgs : NewMethodArgs

/-- Inherited visibility and no attributes: what stands for a missing `fn new();`. -/
def ParsedNewFn.default : ParsedNewFn := ⟨[], ⟨[], []⟩⟩

def ParsedNewFn.injectBaseMeta (f : ParsedNewFn) (tokens : TokenStream) : ParsedNewFn :=
  { f with methodArgs := ⟨f.methodArgs.updaterMeta ++ [tokens],
      f.methodArgs.getterMeta ++ [tokens]⟩ }

structure ParsedUpdaterGetterFn where
  vis : Visibility
  methodArgs : UpdaterGetterMethodArgs

structure ParsedUpdaterFn where
  common : ParsedUpdaterGetterFn
  fnArgs : List ParsedFnArg
  commandTy : Option Ty
  block : Block

namespace ParsedUpdaterFn

def fnName (u : ParsedUpdaterFn) : Ident := u.common.methodArgs.fnName

def variantName (u : ParsedUpdaterFn) : Ident := u.common.methodArgs.message.name

def fieldNames (u : ParsedUpdaterFn) : List Ident := u.fnArgs.map ParsedFnArg.name

end ParsedUpdaterFn

structure ParsedGetterFn where
  common : ParsedUpdaterGetterFn
  retTy : Ty

def ParsedGetterFn.fnName (g : ParsedGetterFn) : Ident := g.common.methodArgs.fnName

structure ParsedFnsSecondPass where
  newFn : ParsedNewFn
  updaters : List ParsedUpdaterFn
  getters : List ParsedGetterFn

namespace ParsedFnsSecondPass

/-- One round of the loop of `parse`. -/
def push (fns : ParsedFnsSecondPass) (item : ParsedFnFirstPass) : ParsedFnsSecondPass :=
  match item.kind with
  | .new methodArgs => { fns with newFn := ⟨item.vis, methodArgs⟩ }
  | .updater methodArgs commandTy block =>
    { fns with updaters :=
        fns.updaters ++ [⟨⟨item.vis, methodArgs⟩, item.fnArgs, commandTy, block⟩] }
  | .getter methodArgs ty =>
    { fns with getters := fns.getters ++ [⟨⟨item.vis, methodArgs⟩, ty⟩] }

def parse (items : List ParsedFnFirstPass) (crate_ : TokenStream) (flutterRustBridge : Bool) :
    ParsedFnsSecondPass :=
  let fns := items.foldl push ⟨ParsedNewFn.default, [], []⟩
  if flutterRustBridge then { fns with newFn := fns.newFn.injectBaseMeta (frbSync crate_) }
  else fns

end ParsedFnsSecondPass

structure ModelContext where
  crate_ : TokenStream
  args : ModelArgs
  structVis : Visibility
  modelTy : Ty
  newFn : ParsedNewFn
  updaters : List ParsedUpdaterFn
  getters : List ParsedGetterFn

/-- The last segment of the path that the impl block is for. -/
def Ty.modelName : Ty → Except Failure Ident
  | .path _ segments =>
    match segments.getLast? with
    | some segment => .ok segment.ident
    | none => .error namedTypesOnly
  | .other _ => .error namedTypesOnly
where
  namedTypesOnly : Failure :=
    .error "`#[emyu::model]` can only be applied to impl blocks for named types"

/-- `ThisCrate::default`. -/
def Toolchain.crateTokens (T : Toolchain) : Except Failure TokenStream :=
  match T.thisCrate with
  | some crate_ => .ok crate_
  | none => .error (.panicked "`emyu` crate should be present in `Cargo.toml`")

def ModelContext.parse (T : Toolchain) (item : InterfaceImpl) (attrs : RawModelArgs) :
    Except Failure ModelContext := do
  let modelName ← item.selfTy.modelName
  let crate_ ← T.crateTokens
  let items ← collect (ParsedFnFirstPass.parse T crate_ attrs.flutterRustBridge) item.items
  let fns := ParsedFnsSecondPass.parse items crate_ attrs.flutterRustBridge
  let args ← ModelArgs.parse T attrs modelName crate_
  pure ⟨crate_, args, item.vis, item.selfTy, fns.newFn, fns.updaters, fns.getters⟩

/-- `&mut self` and a body: the functions of the block that are taken for updaters. -/
def MaybeStubFn.isUpdater (f : MaybeStubFn) : Bool :=
  match SelfTy.analyze f.sig.inputs, f.block with
  | some .mutable, some _ => true
  | _, _ => false

def InterfaceImpl.updaters (item : InterfaceImpl) : List MaybeStubFn :=
  item.items.filter MaybeStubFn.isUpdater

/-- The parameter that an argument declares, the receiver declaring none. -/
def FnArg.param : FnArg → Option ParsedFnArg
  | .typed attrs (.ident _ _ name _) ty => some ⟨attrs, name, ty⟩
  | _ => none

def MaybeStubFn.params (f : MaybeStubFn) : List ParsedFnArg := f.sig.inputs.filterMap FnArg.param

theorem ParsedFnArg.parse_ok {arg : FnArg} {param : Option ParsedFnArg}
    (h : ParsedFnArg.parse arg = .ok param) : param = arg.param := by
  unfold ParsedFnArg.parse at h
  split at h
  · cases h
    rfl
  · cases h
    rfl
  · cases h

theorem collect_params {inputs : List FnArg} {params : List (Option ParsedFnArg)}
    (h : collect ParsedFnArg.parse inputs = .ok params) :
    params.reduceOption = inputs.filterMap FnArg.param := by
  have hAll := collect_ok h
  clear h
  induction hAll with
  | nil => rfl
  | cons hArg _ ih =>
    rw [List.filterMap_cons, ParsedFnArg.parse_ok hArg]
    cases FnArg.param _ with
    | none => exact ih
    | some param => rw [List.reduceOption_cons_of_some, ih]

/-- What a function with `&mut self` and a body is parsed into. -/
structure ParsedUpdaterFn.From (T : Toolchain) (f : MaybeStubFn) (u : ParsedUpdaterFn) : Prop where
  vis : u.common.vis = f.vis
  fnName : u.fnName = f.sig.ident
  variantName : ∃ args, T.fromAttributes f.attrs = .ok args ∧
    resolveNameForMessage T args f.sig.ident = .ok u.variantName
  fnArgs : u.fnArgs = f.params
  commandTy : u.commandTy = extractInnerSignalTy f.sig.output
  block : f.block = some u.block

theorem MessageProperties.parse_ok {T : Toolchain} {raw : MethodArgs} {fnName : Ident}
    {message : MessageProperties} (h : MessageProperties.parse T raw fnName = .ok message) :
    resolveNameForMessage T raw fnName = .ok message.name := by
  obtain ⟨name, hName, h⟩ := bind_ok h
  obtain ⟨outerMeta, _, h⟩ := bind_ok h
  cases h
  exact hName

theorem UpdaterGetterMethodArgs.parse_ok {T : Toolchain} {W : With} {raw : MethodArgs}
    {fnName : Ident} {crate_ : TokenStream} {frb : Bool} {args : UpdaterGetterMethodArgs}
    (h : parse T W raw fnName crate_ frb = .ok args) :
    args.fnName = fnName ∧ resolveNameForMessage T raw fnName = .ok args.message.name := by
  obtain ⟨message, hMessage, h⟩ := bind_ok h
  obtain ⟨fnMeta, _, h⟩ := bind_ok h
  cases h
  exact ⟨rfl, MessageProperties.parse_ok hMessage⟩

/-- What `analyze` can make of a function. -/
theorem FnKind.analyze_cases {T : Toolchain} {f : MaybeStubFn} {args : MethodArgs}
    {crate_ : TokenStream} {frb : Bool} {kind : FnKind}
    (h : analyze T f args crate_ frb = .ok kind) :
    (∃ a, kind = .new a ∧ f.isUpdater = false) ∨
    (∃ a block, kind = .updater a (extractInnerSignalTy f.sig.output) block ∧
      f.isUpdater = true ∧ f.block = some block ∧ a.fnName = f.sig.ident ∧
      resolveNameForMessage T args f.sig.ident = .ok a.message.name) ∨
    (∃ a ty, kind = .getter a ty ∧ f.isUpdater = false) := by
  obtain ⟨_, _, h⟩ := bind_ok h
  split at h
  next _ _ _ hSelf _ _ hBlock =>
    obtain ⟨a, _, h⟩ := bind_ok h
    cases h
    exact .inl ⟨a, rfl, by simp [MaybeStubFn.isUpdater, hSelf]⟩
  next _ _ hSelf hBlock =>
    obtain ⟨a, ha, h⟩ := bind_ok h
    cases h
    obtain ⟨_, _, ha⟩ := bind_ok ha
    obtain ⟨hName, hMessage⟩ := UpdaterGetterMethodArgs.parse_ok ha
    exact .inr (.inl ⟨a, _, rfl, by simp [MaybeStubFn.isUpdater, hSelf, hBlock], hBlock, hName,
      hMessage⟩)
  next hSelf _ _ _ =>
    obtain ⟨a, _, h⟩ := bind_ok h
    cases h
    exact .inr (.inr ⟨a, _, rfl, by simp [MaybeStubFn.isUpdater, hSelf]⟩)
  · cases h

def ParsedFnFirstPass.updater? (p : ParsedFnFirstPass) : Option ParsedUpdaterFn :=
  match p.kind with
  | .updater methodArgs commandTy block =>
    some ⟨⟨p.vis, methodArgs⟩, p.fnArgs, commandTy, block⟩
  | _ => none

theorem ParsedFnsSecondPass.foldl_push_updaters (items : List ParsedFnFirstPass)
    (fns : ParsedFnsSecondPass) :
    (items.foldl push fns).updaters =
      fns.updaters ++ items.filterMap ParsedFnFirstPass.updater? := by
  induction items generalizing fns with
  | nil => simp
  | cons item rest ih =>
    rw [List.foldl_cons, ih]
    obtain ⟨vis, fnArgs, kind⟩ := item
    cases kind <;> simp [push, ParsedFnFirstPass.updater?, List.filterMap_cons]

theorem ParsedFnsSecondPass.parse_updaters (items : List ParsedFnFirstPass)
    (crate_ : TokenStream) (frb : Bool) :
    (parse items crate_ frb).updaters = items.filterMap ParsedFnFirstPass.updater? := by
  have h := foldl_push_updaters items ⟨ParsedNewFn.default, [], []⟩
  unfold parse
  cases frb <;> simpa using h

/-- The first pass keeps an updater, and makes an updater of nothing else. -/
theorem ParsedFnFirstPass.parse_ok {T : Toolchain} {crate_ : TokenStream} {frb : Bool}
    {f : MaybeStubFn} {p : ParsedFnFirstPass} (h : parse T crate_ frb f = .ok p) :
    if f.isUpdater then ∃ u, p.updater? = some u ∧ u.From T f else p.updater? = none := by
  obtain ⟨args, hArgs, h⟩ := bind_ok h
  obtain ⟨kind, hKind, h⟩ := bind_ok h
  obtain ⟨fnArgs, hFnArgs, h⟩ := bind_ok h
  cases h
  obtain ⟨a, hk, hu⟩ | ⟨a, block, hk, hu, hBlock, hName, hMessage⟩ | ⟨a, ty, hk, hu⟩ :=
    FnKind.analyze_cases hKind
  · simp [hk, hu, updater?]
  · subst hk
    simp only [hu, if_true]
    exact ⟨_, rfl, rfl, hName, ⟨args, hArgs, hMessage⟩, collect_params hFnArgs, rfl, hBlock⟩
  · simp [hk, hu, updater?]

/-- What is kept of two lists that match, when the same of both is kept. -/
theorem forall₂_filterMap {α β γ : Type} {R : α → β → Prop} {S : α → γ → Prop} {P : α → Bool}
    {g : β → Option γ} {l : List α} {m : List β} (h : List.Forall₂ R l m)
    (hPair : ∀ a b, R a b → if P a then ∃ c, g b = some c ∧ S a c else g b = none) :
    List.Forall₂ S (l.filter P) (m.filterMap g) := by
  induction h with
  | nil => exact .nil
  | @cons a b _ _ hR _ ih =>
    have hThis := hPair a b hR
    by_cases hP : P a
    · simp only [hP, if_true] at hThis
      obtain ⟨c, hg, hS⟩ := hThis
      rw [List.filter_cons_of_pos hP, List.filterMap_cons_some hg]
      exact .cons hS ih
    · simp only [hP, Bool.false_eq_true, if_false] at hThis
      rw [List.filter_cons_of_neg hP, List.filterMap_cons_none hThis]
      exact ih

theorem collect_updaters {T : Toolchain} {crate_ : TokenStream} {frb : Bool}
    {fns : List MaybeStubFn} {items : List ParsedFnFirstPass}
    (h : List.Forall₂ (fun f p => ParsedFnFirstPass.parse T crate_ frb f = .ok p) fns items) :
    List.Forall₂ (ParsedUpdaterFn.From T) (fns.filter MaybeStubFn.isUpdater)
      (items.filterMap ParsedFnFirstPass.updater?) :=
  forall₂_filterMap h fun _ _ hp => ParsedFnFirstPass.parse_ok hp

/-- The updaters of the context are those of the impl block, in its order. -/
theorem ModelContext.parse_updaters {T : Toolchain} {item : InterfaceImpl} {attrs : RawModelArgs}
    {c : ModelContext} (h : parse T item attrs = .ok c) :
    List.Forall₂ (ParsedUpdaterFn.From T) item.updaters c.updaters := by
  obtain ⟨_, _, h⟩ := bind_ok h
  obtain ⟨crate_, _, h⟩ := bind_ok h
  obtain ⟨items, hItems, h⟩ := bind_ok h
  obtain ⟨args, _, h⟩ := bind_ok h
  cases h
  have hAll := collect_updaters (collect_ok hItems)
  rw [← ParsedFnsSecondPass.parse_updaters items crate_ attrs.flutterRustBridge] at hAll
  exact hAll

end Emyu.Macro
