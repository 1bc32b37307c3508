import Emyu.Macro.Routing
import Emyu.Macro.Shape

/-! What the expansion keeps of an updater's signature: the context its body was written in, and the
value that the body hands to `Model::update`. -/

namespace Emyu.Macro

open Named

/-- The type `()` is declared by `-> ()` or by nothing. -/
def ReturnType.isUnit : ReturnType → Bool
  | .default => true
  | .type (.other tokens) => tokens == ["()"]
  | .type (.path _ _) => false

/-- The declared type: `-> ()` says what no return type says. -/
def ReturnType.declared (output : ReturnType) : ReturnType :=
  if output.isUnit then .default else output

/-- What a body is typed in, beside `&mut self`: the generics, the parameters as they are bound, and
the type it returns. -/
structure BodyContext where
  generics : List GenericParam
  params : List (Pat × Ty)
  output : ReturnType

def FnArg.binding : FnArg → Option (Pat × Ty)
  | .receiver _ _ => none
  | .typed _ pat ty => some (pat, ty)

def MaybeStubFn.context (f : MaybeStubFn) : BodyContext :=
  ⟨f.sig.generics, f.sig.inputs.filterMap FnArg.binding, f.sig.output.declared⟩

/-- The context of `fn #name(&mut self, #args) { #block }`, whose `#args` are `#name: #ty`. -/
def ModelFn.context (fn : ModelFn) : BodyContext :=
  ⟨[], fn.args.map fun p => (.ident false false p.name none, p.ty), .default⟩

/-- What a body returns. -/
inductive Returned (C : Type) where
  | unit
  | command (c : C)

/-- The value is of the declared type. -/
def ReturnType.admits {C : Type} (output : ReturnType) : Returned C → Bool
  | .unit => output.isUnit
  | .command _ => output.isCommand

/-- The value of an arm, by that of its call. -/
def Rhs.value {C : Type} (none_ : C) : Rhs → Returned C → Option C
  | .call _, .command c => some c
  | .call _, .unit => none
  | .callThenNone _ _, _ => some none_

/-- What the generated `update` returns for a message, where `body` says what a block returns and
`none_` is `Command::none()`. A method whose body is not of the type it declares has no value. -/
def ImplModel.returned {V C : Type} (x : ImplModel) (body : Block → Env Ident V → Returned C)
    (none_ : C) (m : Message V) : Option C := do
  let ran ← x.update m
  let c ← x.matchCases[ran.arm]?
  let fn ← x.modelFns[ran.fn]?
  guard (fn.context.output.admits (body ran.block ran.env))
  c.rhs.value none_ (body ran.block ran.env)

/-- The names that the compiler takes only if they differ do. -/
structure Compiles (item : InterfaceImpl) (x : Expansion) : Prop where
  variants : (x.message.variants.map Variant.name).Nodup
  params : ∀ f ∈ item.updaters, f.paramNames.Nodup
  names : ∀ i f, item.updaters[i]? = some f → item.OnlyName i f

/-- What the body of the `i`th updater was written in is what it is pasted into, and `update` of the
updater's message returns the command that the body returns, or none if it declares none. -/
structure Keeps (item : InterfaceImpl) (x : Expansion) (i : Nat) (f : MaybeStubFn) : Prop where
  context : ∃ fn, x.implModel.modelFns[i]? = some fn ∧ fn.context = f.context ∧
    f.block = some fn.block
  command : Compiles item x → ∀ (V C : Type) (body : Block → Env Ident V → Returned C) (none_ : C)
    (args : List V) (block : Block) (method : UpdaterFn) (m : Message V), f.block = some block →
    args.length = f.paramNames.length → x.updaterImpls.fns[i]? = some method →
    method.call x.message args = some m →
    f.sig.output.admits (body block (f.paramNames.zip args)) = true →
    x.implModel.returned body none_ m = some (match body block (f.paramNames.zip args) with
      | .command c => c
      | .unit => none_)

@[simp] theorem ReturnType.declared_eq_default {output : ReturnType} :
    output.declared = .default ↔ output.isUnit = true := by
  unfold declared
  split
  next hUnit => simp [hUnit]
  next hUnit => cases output <;> simp_all [isUnit]

/-- Neither a command nor a signal is a `()`. -/
theorem ReturnType.of_isUnit {output : ReturnType} (h : output.isUnit = true) :
    output.isCommand = false ∧ extractInnerSignalTy output = none := by
  match output with
  | .default => exact ⟨rfl, rfl⟩
  | .type (.other _) => exact ⟨rfl, rfl⟩
  | .type (.path _ _) => cases h

section Context

variable {inputs : List FnArg}

/-- The parameters of the generated method are bound as they were exactly if they were bound
plainly. -/
theorem bindings_eq_iff
    (hNamed : ∀ arg ∈ inputs, arg.isReceiver = true ∨ arg.isNamed = true) :
    ((inputs.filterMap FnArg.param).map fun p => (Pat.ident false false p.name none, p.ty)) =
        inputs.filterMap FnArg.binding ↔
      ∀ arg ∈ inputs, arg.isReceiver = true ∨ arg.isPlain = true := by
  induction inputs with
  | nil => simp
  | cons arg rest ih =>
    have hRest := ih fun a ha => hNamed a (List.mem_cons_of_mem _ ha)
    rw [List.forall_mem_cons, ← hRest]
    match arg with
    | .receiver _ _ => simp [List.filterMap_cons, FnArg.param, FnArg.binding, FnArg.isReceiver]
    | .typed _ (.ident byRef mutability name subpat) ty =>
      cases byRef <;> cases mutability <;> cases subpat <;>
        simp [FnArg.param, FnArg.binding, FnArg.isReceiver, FnArg.isPlain]
    | .typed _ (.other _) _ =>
      simpa [FnArg.isReceiver, FnArg.isNamed] using hNamed _ List.mem_cons_self

end Context

section Generated

variable {T : Toolchain} {item : InterfaceImpl} {raw : RawModelArgs} {x : Expansion} {i : Nat}
  {f : MaybeStubFn}

/-- Every function of a block that expands has named parameters. -/
theorem named_of_build (hBuild : build T item raw = .ok x) : ∀ f ∈ item.items, f.Named := by
  obtain ⟨c, hParse, -⟩ := bind_ok hBuild
  obtain ⟨_, _, h⟩ := bind_ok hParse
  obtain ⟨crate_, _, h⟩ := bind_ok h
  obtain ⟨items, hItems, -⟩ := bind_ok h
  intro f hf
  obtain ⟨i, hi⟩ := List.mem_iff_getElem?.mp hf
  obtain ⟨p, _, hp⟩ := getElem?_of_forall₂ (collect_ok hItems) hi
  obtain ⟨args, _, hp⟩ := bind_ok hp
  obtain ⟨kind, _, hp⟩ := bind_ok hp
  obtain ⟨fnArgs, hFnArgs, _⟩ := bind_ok hp
  exact (collect_fnArgs_iff _).mp ⟨fnArgs, hFnArgs⟩

theorem context_generateModelFn {u : ParsedUpdaterFn} (hFrom : u.From T f) :
    u.generateModelFn.context = ⟨[], (f.sig.inputs.filterMap FnArg.param).map fun p =>
      (.ident false false p.name none, p.ty), .default⟩ := by
  simp [ModelFn.context, ParsedUpdaterFn.generateModelFn, hFrom.fnArgs, MaybeStubFn.params,
    ParsedFnArg.generateFnArg, Function.comp_def]

/-- An updater that declares no return type has its arm end with `Command::none()`. -/
theorem returned_of_default {c : ModelContext} {u : ParsedUpdaterFn} {V C : Type} {args : List V}
    {body : Block → Env Ident V → Returned C} {none_ : C}
    (hv : (c.updaters.map ParsedUpdaterFn.variantName).Nodup) (hu : c.updaters[i]? = some u)
    (hp : u.fieldNames.Nodup) (ha : u.fieldNames.length = args.length)
    (hOnly : ∀ j w, c.updaters[j]? = some w → stripRaw w.fnName = stripRaw u.fnName → j = i)
    (hTy : u.commandTy = none) (hUnit : body u.block (u.fieldNames.zip args) = .unit) :
    c.generateImplModel.returned body none_ (u.message args) = some none_ := by
  have hRan : c.generateImplModel.update (u.message args) =
      some ⟨i, i, u.block, u.fieldNames.zip args⟩ :=
    (update_eq_some_iff hv hu hp ha).mpr ⟨hOnly, rfl⟩
  simp [ImplModel.returned, hRan, matchCases_of hu, modelFns_of hu, hUnit, ModelFn.context,
    ReturnType.admits, ReturnType.isUnit, ParsedUpdaterFn.generateMatchCase, hTy, Rhs.value]

/-- An updater of a block that expands keeps its signature and its command exactly if it declares
no return type but `()` and no generics, and binds its parameters plainly. -/
theorem keeps_iff (hBuild : build T item raw = .ok x) (hf : item.updaters[i]? = some f) :
    Keeps item x i f ↔ f.sig.output.isUnit = true ∧ f.sig.generics = [] ∧
      ∀ arg ∈ f.sig.inputs, arg.isReceiver = true ∨ arg.isPlain = true := by
  have hNamed := named_of_build hBuild f (List.mem_of_mem_filter (List.mem_of_getElem? hf))
  obtain ⟨c, hParse, hx⟩ := bind_ok hBuild
  cases hx
  obtain ⟨u, hu, hFrom⟩ := getElem?_of_forall₂ (ModelContext.parse_updaters hParse) hf
  have hFn : c.generate.implModel.modelFns[i]? = some u.generateModelFn := modelFns_of hu
  have hContext : u.generateModelFn.context = f.context ↔ f.sig.output.isUnit = true ∧
      f.sig.generics = [] ∧ ∀ arg ∈ f.sig.inputs, arg.isReceiver = true ∨ arg.isPlain = true := by
    rw [context_generateModelFn hFrom, MaybeStubFn.context, BodyContext.mk.injEq,
      bindings_eq_iff hNamed]
    constructor
    · rintro ⟨hGenerics, hParams, hDefault⟩
      exact ⟨ReturnType.declared_eq_default.mp hDefault.symm, hGenerics.symm, hParams⟩
    · rintro ⟨hUnit, hGenerics, hParams⟩
      exact ⟨hGenerics.symm, hParams, (ReturnType.declared_eq_default.mpr hUnit).symm⟩
  rw [← hContext]
  constructor
  · rintro ⟨⟨fn, hfn, hEq, -⟩, -⟩
    obtain rfl := Option.some.inj (hfn.symm.trans hFn)
    exact hEq
  · intro hEq
    refine ⟨⟨_, hFn, hEq, hFrom.block⟩, ?_⟩
    intro hCompiles V C body none_ args block method m hBlock hArgs hMethod hCall hAdmits
    obtain ⟨hNoCommand, hNoSignal⟩ := ReturnType.of_isUnit (hContext.mp hEq).1
    have hv : (c.updaters.map ParsedUpdaterFn.variantName).Nodup := by
      simpa [ModelContext.generate, ModelContext.generateMessage, Function.comp_def,
        ParsedUpdaterFn.generateMessageVariant] using hCompiles.variants
    have hNames : u.fieldNames = f.paramNames := by
      rw [ParsedUpdaterFn.fieldNames, hFrom.fnArgs, MaybeStubFn.paramNames]
    have hp : u.fieldNames.Nodup := hNames ▸ hCompiles.params f (List.mem_of_getElem? hf)
    have ha : u.fieldNames.length = args.length := by rw [hNames, hArgs]
    have hOwn : c.generate.updaterImpls.fns[i]? =
        some (u.generateUpdaterFn c.args.message.name) := by
      simp [ModelContext.generate, ModelContext.generateUpdaterImpls,
        ModelContext.generateUpdaterGetterImpls, hu]
    obtain rfl := Option.some.inj (hMethod.symm.trans hOwn)
    obtain rfl := Option.some.inj (hCall.symm.trans (call_eq hv hu hp ha))
    obtain rfl := Option.some.inj (hBlock.symm.trans hFrom.block)
    have hUnit : body u.block (f.paramNames.zip args) = .unit := by
      cases hBody : body u.block (f.paramNames.zip args) with
      | unit => rfl
      | command c =>
        rw [hBody, ReturnType.admits, hNoCommand] at hAdmits
        cases hAdmits
    have hTy : u.commandTy = none := hFrom.commandTy.trans hNoSignal
    rw [hUnit]
    exact returned_of_default hv hu hp ha
      ((onlyName_iff (ModelContext.parse_updaters hParse) hFrom).mp (hCompiles.names i f hf)) hTy
      (hNames ▸ hUnit)

end Generated

/-- Two parameters and no return type are kept. -/
theorem keeps_iff_gauge : ∃ x, build gaugeTools gauge gaugeArgs = .ok x ∧
    Keeps gauge x 0
      (gaugeFn "clamp" "Clamp" ["low", "high"] ["{ self.clamp_to(low..high); }"]) := by
  have hBuild : build gaugeTools gauge gaugeArgs = .ok _ := rfl
  refine ⟨_, hBuild, (keeps_iff hBuild rfl).mpr ⟨rfl, rfl, ?_⟩⟩
  intro arg hArg
  rcases List.mem_cons.mp hArg with rfl | hArg
  · exact .inl rfl
  · obtain ⟨name, -, rfl⟩ := List.mem_map.mp hArg
    exact .inr rfl

/-- `fn load(&mut self) -> Command<Message, App> { fetch() }`. -/
def loadFn : MaybeStubFn :=
  ⟨[["Load"]], ["pub"], ⟨false, false, false, none, "load", [], [.receiver true true], false,
    .type (.path [] [⟨"Command", .angleBracketed [.type (.other ["Message"]),
      .type (.other ["App"])]⟩])⟩, some ["{ fetch() }"]⟩

/-- `fn scale(&mut self, mut by: u32) { .. }`. -/
def scaleFn : MaybeStubFn :=
  ⟨[["Scale"]], ["pub"], ⟨false, false, false, none, "scale", [],
    [.receiver true true, .typed [] (.ident false true "by" none) (.other ["u32"])], false,
    .default⟩, some ["{ by += 1; self.scale_by(by); }"]⟩

def loader : InterfaceImpl := ⟨["pub"], .path [] [⟨"LoaderModel", .none⟩], [loadFn, scaleFn]⟩

/-- The method generated for `load` declares no return type, and the one for `scale` a `by` that is
not `mut`. -/
theorem command_and_mut_dropped : ∃ x, build gaugeTools loader gaugeArgs = .ok x ∧
    ¬ Keeps loader x 0 loadFn ∧ ¬ Keeps loader x 1 scaleFn := by
  have hBuild : build gaugeTools loader gaugeArgs = .ok _ := rfl
  refine ⟨_, hBuild, ?_, ?_⟩
  · rintro ⟨⟨fn, hfn, hContext, -⟩, -⟩
    cases Option.some.inj hfn
    cases hContext
  · rintro ⟨⟨fn, hfn, hContext, -⟩, -⟩
    cases Option.some.inj hfn
    cases hContext

end Emyu.Macro
