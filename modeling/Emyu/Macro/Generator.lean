import Emyu.Macro.Parser

/-! What the expansion writes. Each record is one `quote!` template, with a field for each hole. -/

namespace Emyu.Macro

/-- `#[#tokens]`. -/
def bracketed (tokens : TokenStream) : Attribute := ["#", "["] ++ tokens ++ ["]"]

/-- `strip_prefix("r#")`, or the name itself. -/
def stripRaw (name : Ident) : String :=
  match name.toList with
  | 'r' :: '#' :: rest => String.ofList rest
  | _ => name

/-- `format_ident!("__{}", name)`. -/
def modelFnName (name : Ident) : Ident := "__" ++ stripRaw name

structure FnParam where
  name : Ident
  ty : Ty

structure Field where
  attrs : List Attribute
  name : Ident
  ty : Ty

/-- `#name { #fields },` in the message enum. -/
structure Variant where
  outerMeta : List Attribute
  name : Ident
  fields : List Field

structure MessageEnum where
  outerMeta : List Attribute
  vis : Visibility
  name : Ident
  variants : List Variant

/-- `self.#name(#args)`. -/
structure FnCall where
  name : Ident
  args : List Ident

inductive Rhs where
  | call (fnCall : FnCall)
  | callThenNone (fnCall : FnCall) (crate_ : TokenStream)

/-- `#message_name::#variant_name { #fields } => #rhs,`. -/
structure MatchCase where
  messageName : Ident
  variantName : Ident
  fieldNames : List Ident
  rhs : Rhs

/-- `fn #name(&mut self, #args) { #block }`. -/
structure ModelFn where
  name : Ident
  args : List FnParam
  block : Block

/-- `signals.push_back(self.#field.__to_dyn_flush_signals(#crate_::__token()));`. -/
structure AccumulateSignal where
  fieldName : Ident
  crate_ : TokenStream

/-- `impl #model_ty` and `impl #crate_::Model for #model_ty`. -/
structure ImplModel where
  crate_ : TokenStream
  modelTy : Ty
  forApp : Ident
  messageName : Ident
  modelFns : List ModelFn
  matchCases : List MatchCase
  accumulateSignals : List AccumulateSignal

/-- `#message_name::#variant_name { #fields }`. -/
structure MessageExpr where
  messageName : Ident
  variantName : Ident
  fieldNames : List Ident

/-- `#vis async fn #name(&mut self, #args) { self.0.send(#message).await }`. -/
structure UpdaterFn where
  meta_ : List Attribute
  vis : Visibility
  name : Ident
  args : List FnParam
  message : MessageExpr

/-- `#vis fn #name(&mut self) -> #crate_::Signal<#ret_ty> { self.0.get::<#message_name>() }`. -/
structure GetterFn where
  meta_ : List Attribute
  vis : Visibility
  name : Ident
  crate_ : TokenStream
  retTy : Ty
  messageName : Ident

/-- `#vis fn new(value: #inner_ty<#model_ty>) -> Self`. -/
structure NewFn where
  meta_ : List Attribute
  vis : Visibility
  crate_ : TokenStream
  wrappedTy : Ident
  innerTy : TokenStream
  modelTy : Ty

/-- `#vis struct #name(#inner_meta #inner_ty<#model_ty>);`. -/
structure WrappedStruct where
  outerMeta : List Attribute
  vis : Visibility
  name : Ident
  innerMeta : List Attribute
  innerTy : TokenStream
  modelTy : Ty

/-- `impl #crate_::#trait_name for #name`, the sealing of `#name`, and `impl #name`. -/
structure WrappedImpls (AnyFn : Type) where
  crate_ : TokenStream
  traitName : Ident
  name : Ident
  innerTy : TokenStream
  modelTy : Ty
  newFn : NewFn
  fns : List AnyFn

/-- The struct of a getter's message, `ModelGetterMessage` for it, and `ModelGetterHandler`, whose
`getter` clones `self.#field`. -/
structure GetterMessage where
  outerMeta : List Attribute
  vis : Visibility
  name : Ident
  crate_ : TokenStream
  modelTy : Ty
  retTy : Ty
  fieldName : Ident

structure Expansion where
  implModel : ImplModel
  message : MessageEnum
  updaterStruct : WrappedStruct
  updaterImpls : WrappedImpls UpdaterFn
  getterStruct : WrappedStruct
  getterImpls : WrappedImpls GetterFn
  getterMessages : List GetterMessage

namespace ParsedFnArg

def generateFnArg (arg : ParsedFnArg) : FnParam := ⟨arg.name, arg.ty⟩

def generateField (arg : ParsedFnArg) : Field := ⟨arg.attrs.map bracketed, arg.name, arg.ty⟩

end ParsedFnArg

namespace ParsedNewFn

def generate (f : ParsedNewFn) (crate_ : TokenStream) (wrappedTy : Ident) (innerTy : TokenStream)
    (modelTy : Ty) (metaFn : NewMethodArgs → List TokenStream) : NewFn :=
  ⟨(metaFn f.methodArgs).map bracketed, f.vis, crate_, wrappedTy, innerTy, modelTy⟩

def generateForUpdater (f : ParsedNewFn) (crate_ : TokenStream) (modelTy : Ty) : NewFn :=
  f.generate crate_ "WrappedUpdater" (crate_ ++ ["::", "Updater"]) modelTy
    NewMethodArgs.updaterMeta

def generateForGetter (f : ParsedNewFn) (crate_ : TokenStream) (modelTy : Ty) : NewFn :=
  f.generate crate_ "WrappedGetter" (crate_ ++ ["::", "Getter"]) modelTy NewMethodArgs.getterMeta

end ParsedNewFn

namespace ParsedUpdaterFn

def generateMessageVariant (u : ParsedUpdaterFn) : Variant :=
  ⟨u.common.methodArgs.message.outerMeta.map bracketed, u.variantName,
    u.fnArgs.map ParsedFnArg.generateField⟩

def generateMatchCase (u : ParsedUpdaterFn) (messageName : Ident) (crate_ : TokenStream) :
    MatchCase :=
  let fnCall : FnCall := ⟨modelFnName u.fnName, u.fieldNames⟩
  let rhs := if u.commandTy.isSome then Rhs.call fnCall else Rhs.callThenNone fnCall crate_
  ⟨messageName, u.variantName, u.fieldNames, rhs⟩

def generateModelFn (u : ParsedUpdaterFn) : ModelFn :=
  ⟨modelFnName u.fnName, u.fnArgs.map ParsedFnArg.generateFnArg, u.block⟩

def generateUpdaterFn (u : ParsedUpdaterFn) (messageName : Ident) : UpdaterFn :=
  ⟨u.common.methodArgs.fnMeta.map bracketed, u.common.vis, u.fnName,
    u.fnArgs.map ParsedFnArg.generateFnArg, ⟨messageName, u.variantName, u.fieldNames⟩⟩

end ParsedUpdaterFn

namespace ParsedGetterFn

def generateAccumulateSignals (g : ParsedGetterFn) (crate_ : TokenStream) : AccumulateSignal :=
  ⟨g.fnName, crate_⟩

def generateMessageStructAndTraitImpls (g : ParsedGetterFn) (crate_ : TokenStream)
    (modelTy : Ty) : GetterMessage :=
  ⟨g.common.methodArgs.message.outerMeta.map bracketed, g.common.vis,
    g.common.methodArgs.message.name, crate_, modelTy, g.retTy, g.fnName⟩

def generateGetterFn (g : ParsedGetterFn) (crate_ : TokenStream) : GetterFn :=
  ⟨g.common.methodArgs.fnMeta.map bracketed, g.common.vis, g.fnName, crate_, g.retTy,
    g.common.methodArgs.message.name⟩

end ParsedGetterFn

namespace ModelContext

def generateImplModel (c : ModelContext) : ImplModel :=
  ⟨c.crate_, c.modelTy, c.args.forApp, c.args.message.name,
    c.updaters.map ParsedUpdaterFn.generateModelFn,
    c.updaters.map fun u => u.generateMatchCase c.args.message.name c.crate_,
    c.getters.map fun g => g.generateAccumulateSignals c.crate_⟩

def generateMessage (c : ModelContext) : MessageEnum :=
  ⟨c.args.message.outerMeta.map bracketed, c.structVis, c.args.message.name,
    c.updaters.map ParsedUpdaterFn.generateMessageVariant⟩

def generateAnyStruct (c : ModelContext) (innerTy : Ident) (props : ModelArgs → ModelProperties) :
    WrappedStruct :=
  ⟨(props c.args).outerMeta.map bracketed, c.structVis, (props c.args).name,
    (props c.args).innerMeta.map bracketed, c.crate_ ++ ["::", innerTy], c.modelTy⟩

def generateUpdaterGetterImpls {ParsedFn AnyFn : Type} (c : ModelContext) (traitName : Ident)
    (innerTy : Ident) (props : ModelArgs → ModelProperties) (newFn : NewFn)
    (fns : List ParsedFn) (generateFn : ParsedFn → AnyFn) : WrappedImpls AnyFn :=
  ⟨c.crate_, traitName, (props c.args).name, c.crate_ ++ ["::", innerTy], c.modelTy, newFn,
    fns.map generateFn⟩

def generateUpdaterStruct (c : ModelContext) : WrappedStruct :=
  c.generateAnyStruct "Updater" ModelArgs.updater

def generateUpdaterImpls (c : ModelContext) : WrappedImpls UpdaterFn :=
  c.generateUpdaterGetterImpls "WrappedUpdater" "Updater" ModelArgs.updater
    (c.newFn.generateForUpdater c.crate_ c.modelTy) c.updaters
    fun u => u.generateUpdaterFn c.args.message.name

def generateGetterStruct (c : ModelContext) : WrappedStruct :=
  c.generateAnyStruct "Getter" ModelArgs.getter

def generateGetterImpls (c : ModelContext) : WrappedImpls GetterFn :=
  c.generateUpdaterGetterImpls "WrappedGetter" "Getter" ModelArgs.getter
    (c.newFn.generateForGetter c.crate_ c.modelTy) c.getters
    fun g => g.generateGetterFn c.crate_

def generate (c : ModelContext) : Expansion :=
  ⟨c.generateImplModel, c.generateMessage, c.generateUpdaterStruct, c.generateUpdaterImpls,
    c.generateGetterStruct, c.generateGetterImpls,
    c.getters.map fun g => g.generateMessageStructAndTraitImpls c.crate_ c.modelTy⟩

end ModelContext

def build (T : Toolchain) (item : InterfaceImpl) (attrs : RawModelArgs) :
    Except Failure Expansion := do
  let context ← ModelContext.parse T item attrs
  pure context.generate

end Emyu.Macro
