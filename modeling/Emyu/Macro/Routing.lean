import Emyu.Lib.Named
import Emyu.Macro.Generator
import Mathlib.Data.Option.Basic

/-! The expansion as a program: the message that a generated updater method builds, and what the
generated `Model::update` does with it. Names are resolved as the compiler resolves them; types and
binding modes are not looked at. -/

namespace Emyu.Macro

open Named

variable {V : Type}

/-- A value of the message enum. -/
structure Message (V : Type) where
  variantName : Ident
  fields : Env Ident V

def Variant.fieldNames (variant : Variant) : List Ident := variant.fields.map Field.name

def MessageEnum.Inhabited (e : MessageEnum) (m : Message V) : Prop :=
  ∃ variant ∈ e.variants, m.variantName = variant.name ∧
    m.fields.map Prod.fst = variant.fieldNames

/-- A struct expression names every field of its variant, in any order. -/
def MessageExpr.eval (x : MessageExpr) (e : MessageEnum) (env : Env Ident V) :
    Option (Message V) := do
  guard (x.messageName = e.name)
  let (_, variant) ← resolve Variant.name e.variants x.variantName
  guard (x.fieldNames.isPerm variant.fieldNames)
  let values ← env.read variant.fieldNames
  pure ⟨x.variantName, variant.fieldNames.zip values⟩

/-- `f(args)` on the updater struct: the message that goes into `self.0.send`. -/
def UpdaterFn.call (f : UpdaterFn) (e : MessageEnum) (args : List V) : Option (Message V) := do
  let env ← bind (f.args.map FnParam.name) args
  f.message.eval e env

def Rhs.fnCall : Rhs → FnCall
  | .call fnCall => fnCall
  | .callThenNone fnCall _ => fnCall

/-- What the pattern of an arm binds. It has no `..`, so it names every field. -/
def MatchCase.bind (c : MatchCase) (m : Message V) : Option (Env Ident V) :=
  if c.variantName = m.variantName ∧ c.fieldNames.isPerm (m.fields.map Prod.fst) then
    (m.fields.read c.fieldNames).map c.fieldNames.zip
  else none

/-- The first arm whose pattern matches. -/
def selectArm (m : Message V) : List MatchCase → Option (Nat × MatchCase × Env Ident V)
  | [] => none
  | c :: rest =>
    match c.bind m with
    | some env => some (0, c, env)
    | none => (selectArm m rest).map fun (i, found) => (i + 1, found)

/-- A block that ran: the arm and the method it was reached through, and its parameters. -/
structure Ran (V : Type) where
  arm : Nat
  fn : Nat
  block : Block
  env : Env Ident V

/-- The generated `update`, where `self.f(..)` means the one method of that name. -/
def ImplModel.update (x : ImplModel) (m : Message V) : Option (Ran V) := do
  let (arm, c, env) ← selectArm m x.matchCases
  guard (c.messageName = x.messageName)
  let values ← env.read c.rhs.fnCall.args
  let (fn, f) ← resolve ModelFn.name x.modelFns c.rhs.fnCall.name
  let params ← Named.bind (f.args.map FnParam.name) values
  pure ⟨arm, fn, f.block, params⟩

theorem selectArm_eq {m : Message V} {cases : List MatchCase} {i : Nat} {c : MatchCase}
    {env : Env Ident V} (hc : cases[i]? = some c) (hm : c.bind m = some env)
    (hOnly : ∀ j d, cases[j]? = some d → (d.bind m).isSome → j = i) :
    selectArm m cases = some (i, c, env) := by
  induction cases generalizing i with
  | nil => simp at hc
  | cons d rest ih =>
    by_cases hi : i = 0
    · subst hi
      have hd : d = c := by simpa using hc
      simp [selectArm, hd, hm]
    · obtain ⟨k, rfl⟩ := Nat.exists_eq_succ_of_ne_zero hi
      have hd : d.bind m = none := by
        by_contra hSome
        have h0 := hOnly 0 d rfl (Option.isSome_iff_ne_none.mpr hSome)
        omega
      have hRest := ih (i := k) (by simpa using hc) fun j d' hj hd' => by
        have h := hOnly (j + 1) d' (by simpa using hj) hd'
        omega
      simp [selectArm, hd, hRest]

section Generated

variable {c : ModelContext} {i : Nat} {u : ParsedUpdaterFn} {args : List V}

@[simp] theorem fieldNames_generateMessageVariant (u : ParsedUpdaterFn) :
    u.generateMessageVariant.fieldNames = u.fieldNames := by
  simp [ParsedUpdaterFn.generateMessageVariant, Variant.fieldNames, ParsedUpdaterFn.fieldNames,
    ParsedFnArg.generateField, Function.comp_def]

theorem params_generateFnArg (u : ParsedUpdaterFn) :
    (u.fnArgs.map ParsedFnArg.generateFnArg).map FnParam.name = u.fieldNames :=
  List.map_map

/-- The parameters that the generated functions of an updater have in common. -/
theorem bind_generateFnArg (ha : u.fieldNames.length = args.length) :
    Named.bind ((u.fnArgs.map ParsedFnArg.generateFnArg).map FnParam.name) args =
      some (u.fieldNames.zip args) := by
  rw [params_generateFnArg]
  exact bind_eq_some ha

theorem isPerm_self (names : List Ident) : names.isPerm names = true :=
  List.isPerm_iff.mpr (.refl _)

theorem variants_of (hu : c.updaters[i]? = some u) :
    c.generateMessage.variants[i]? = some u.generateMessageVariant := by
  simp [ModelContext.generateMessage, hu]

theorem matchCases_of (hu : c.updaters[i]? = some u) :
    c.generateImplModel.matchCases[i]? =
      some (u.generateMatchCase c.args.message.name c.crate_) := by
  simp [ModelContext.generateImplModel, hu]

theorem modelFns_of (hu : c.updaters[i]? = some u) :
    c.generateImplModel.modelFns[i]? = some u.generateModelFn := by
  simp [ModelContext.generateImplModel, hu]

@[simp] theorem fnCall_generateMatchCase (u : ParsedUpdaterFn) (messageName : Ident)
    (crate_ : TokenStream) :
    (u.generateMatchCase messageName crate_).rhs.fnCall =
      ⟨modelFnName u.fnName, u.fieldNames⟩ := by
  unfold ParsedUpdaterFn.generateMatchCase
  cases u.commandTy <;> rfl

/-- The message of an updater: its variant, each parameter's field holding the argument passed for
the parameter. -/
def ParsedUpdaterFn.message (u : ParsedUpdaterFn) (args : List V) : Message V :=
  ⟨u.variantName, u.fieldNames.zip args⟩

theorem call_eq (hv : (c.updaters.map ParsedUpdaterFn.variantName).Nodup)
    (hu : c.updaters[i]? = some u) (hp : u.fieldNames.Nodup)
    (ha : u.fieldNames.length = args.length) :
    (u.generateUpdaterFn c.args.message.name).call c.generateMessage args =
      some (u.message args) := by
  have hVariants : (c.generateMessage.variants.map Variant.name).Nodup := by
    simpa [ModelContext.generateMessage, Function.comp_def,
      ParsedUpdaterFn.generateMessageVariant] using hv
  have hResolve : resolve Variant.name c.generateMessage.variants u.variantName =
      some (i, u.generateMessageVariant) := resolve_of_nodup hVariants (variants_of hu)
  have hEval : MessageExpr.eval ⟨c.args.message.name, u.variantName, u.fieldNames⟩
      c.generateMessage (u.fieldNames.zip args) = some (u.message args) := by
    have hName : c.args.message.name = c.generateMessage.name := rfl
    have hRead : Env.read (u.fieldNames.zip args) u.fieldNames = some args := Env.read_zip hp ha
    simp [MessageExpr.eval, hName, hResolve, isPerm_self, hRead, ParsedUpdaterFn.message]
  simp only [UpdaterFn.call, ParsedUpdaterFn.generateUpdaterFn, bind_generateFnArg ha,
    Option.bind_eq_bind, Option.bind_some, hEval]

theorem bind_own (hp : u.fieldNames.Nodup) (ha : u.fieldNames.length = args.length)
    (messageName : Ident) (crate_ : TokenStream) :
    (u.generateMatchCase messageName crate_).bind (u.message args) =
      some (u.fieldNames.zip args) := by
  have hFst : (u.fieldNames.zip args).map Prod.fst = u.fieldNames :=
    List.map_fst_zip (by omega)
  simp [MatchCase.bind, ParsedUpdaterFn.generateMatchCase, ParsedUpdaterFn.message, hFst,
    isPerm_self, Env.read_zip hp ha]

theorem bind_variantName {d : MatchCase} {m : Message V} (h : (d.bind m).isSome) :
    d.variantName = m.variantName := by
  unfold MatchCase.bind at h
  split at h
  next hd => exact hd.1
  · cases h

/-- The message of an updater takes the updater's arm and no other. -/
theorem bind_isSome_iff (hv : (c.updaters.map ParsedUpdaterFn.variantName).Nodup)
    (hu : c.updaters[i]? = some u) (hp : u.fieldNames.Nodup)
    (ha : u.fieldNames.length = args.length) {j : Nat} {d : MatchCase}
    (hd : c.generateImplModel.matchCases[j]? = some d) :
    (d.bind (u.message args)).isSome ↔ j = i := by
  have hd' := hd
  simp only [ModelContext.generateImplModel, List.getElem?_map, Option.map_eq_some_iff] at hd'
  obtain ⟨w, hw, rfl⟩ := hd'
  constructor
  · intro h
    exact eq_of_key_eq hv hw hu (bind_variantName h)
  · intro hj
    subst hj
    have hwu : w = u := Option.some.inj (hw.symm.trans hu)
    rw [hwu, bind_own hp ha]
    rfl

/-- Either no method has the name to itself, or the updater's own block runs. -/
theorem update_eq (hv : (c.updaters.map ParsedUpdaterFn.variantName).Nodup)
    (hu : c.updaters[i]? = some u) (hp : u.fieldNames.Nodup)
    (ha : u.fieldNames.length = args.length) :
    c.generateImplModel.update (u.message args) =
      (resolve ModelFn.name c.generateImplModel.modelFns (modelFnName u.fnName)).map fun _ =>
        ⟨i, i, u.block, u.fieldNames.zip args⟩ := by
  have hSelect := selectArm_eq (matchCases_of hu) (bind_own hp ha _ _) fun j d hd h =>
    (bind_isSome_iff hv hu hp ha hd).mp h
  have hRead : Env.read (u.fieldNames.zip args) u.fieldNames = some args := Env.read_zip hp ha
  have hName : (u.generateMatchCase c.args.message.name c.crate_).messageName =
      c.generateImplModel.messageName := rfl
  simp only [ImplModel.update, hSelect, fnCall_generateMatchCase, hRead, hName, guard_true,
    Option.bind_eq_bind, Option.bind_some, Option.pure_def]
  cases hr : resolve ModelFn.name c.generateImplModel.modelFns (modelFnName u.fnName) with
  | none => rfl
  | some found =>
    obtain ⟨k, f⟩ := found
    have hk : i = k := resolve_unique hr (modelFns_of hu) rfl
    subst hk
    have hf : u.generateModelFn = f :=
      Option.some.inj ((modelFns_of hu).symm.trans (resolve_getElem? hr).1)
    subst hf
    simp only [Option.bind_some, ParsedUpdaterFn.generateModelFn, bind_generateFnArg ha,
      Option.map_some]

/-- A method is found exactly when no other updater of the block has its name. -/
theorem resolve_modelFn_isSome (hu : c.updaters[i]? = some u) :
    (resolve ModelFn.name c.generateImplModel.modelFns (modelFnName u.fnName)).isSome ↔
      ∀ j w, c.updaters[j]? = some w → stripRaw w.fnName = stripRaw u.fnName → j = i := by
  constructor
  · intro h j w hw hName
    obtain ⟨found, hFound⟩ := Option.isSome_iff_exists.mp h
    have hSame : w.generateModelFn.name = modelFnName u.fnName :=
      congrArg (fun name => "__" ++ name) hName
    have hj : j = found.1 := resolve_unique hFound (modelFns_of hw) hSame
    have hi : i = found.1 := resolve_unique hFound (modelFns_of hu) rfl
    rw [hj, hi]
  · intro h
    have hUnique : ∀ j f, c.generateImplModel.modelFns[j]? = some f →
        f.name = u.generateModelFn.name → j = i := by
      intro j f hf hName
      simp only [ModelContext.generateImplModel, List.getElem?_map, Option.map_eq_some_iff] at hf
      obtain ⟨w, hw, rfl⟩ := hf
      exact h j w hw ((String.append_right_inj "__").mp hName)
    have hResolve := resolve_of_unique (modelFns_of hu) hUnique
    exact Option.isSome_iff_exists.mpr ⟨_, hResolve⟩

theorem update_eq_some_iff (hv : (c.updaters.map ParsedUpdaterFn.variantName).Nodup)
    (hu : c.updaters[i]? = some u) (hp : u.fieldNames.Nodup)
    (ha : u.fieldNames.length = args.length) {r : Ran V} :
    c.generateImplModel.update (u.message args) = some r ↔
      (∀ j w, c.updaters[j]? = some w → stripRaw w.fnName = stripRaw u.fnName → j = i) ∧
        r = ⟨i, i, u.block, u.fieldNames.zip args⟩ := by
  rw [update_eq hv hu hp ha, Option.map_eq_some_iff, ← resolve_modelFn_isSome hu,
    Option.isSome_iff_exists]
  constructor
  · intro h
    obtain ⟨found, hFound, hr⟩ := h
    exact ⟨⟨found, hFound⟩, hr.symm⟩
  · intro h
    obtain ⟨⟨found, hFound⟩, hr⟩ := h
    exact ⟨found, hFound, hr.symm⟩

/-- Every value of the enum has an arm. -/
theorem exhaustive (c : ModelContext) (m : Message V) (h : c.generateMessage.Inhabited m) :
    ∃ (i : Nat) (d : MatchCase),
      c.generateImplModel.matchCases[i]? = some d ∧ (d.bind m).isSome := by
  obtain ⟨variant, hMem, hName, hFields⟩ := h
  obtain ⟨u, hu, rfl⟩ := List.mem_map.mp hMem
  obtain ⟨i, hi⟩ := List.mem_iff_getElem?.mp hu
  refine ⟨i, u.generateMatchCase c.args.message.name c.crate_, matchCases_of hi, ?_⟩
  rw [fieldNames_generateMessageVariant] at hFields
  have hRead : (m.fields.read u.fieldNames).isSome :=
    Env.read_isSome fun name hn => hFields ▸ hn
  have hVariant : u.variantName = m.variantName := hName.symm
  simp [MatchCase.bind, ParsedUpdaterFn.generateMatchCase, hVariant, hFields, isPerm_self, hRead]

end Generated

def MaybeStubFn.paramNames (f : MaybeStubFn) : List Ident := f.params.map ParsedFnArg.name

/-- The only updater of the block under its name. -/
def InterfaceImpl.OnlyName (item : InterfaceImpl) (i : Nat) (f : MaybeStubFn) : Prop :=
  ∀ j g, item.updaters[j]? = some g → stripRaw g.sig.ident = stripRaw f.sig.ident → j = i

theorem onlyName_iff {T : Toolchain} {item : InterfaceImpl} {c : ModelContext}
    (h : List.Forall₂ (ParsedUpdaterFn.From T) item.updaters c.updaters) {i : Nat}
    {f : MaybeStubFn} {u : ParsedUpdaterFn} (hf : u.From T f) :
    item.OnlyName i f ↔
      ∀ j w, c.updaters[j]? = some w → stripRaw w.fnName = stripRaw u.fnName → j = i := by
  constructor
  · intro hOnly j w hw hName
    obtain ⟨g, hg, hFrom⟩ := getElem?_of_forall₂ h.flip hw
    apply hOnly j g hg
    rw [← hFrom.fnName, hName, hf.fnName]
  · intro hOnly j g hg hName
    obtain ⟨w, hw, hFrom⟩ := getElem?_of_forall₂ h hg
    apply hOnly j w hw
    rw [hFrom.fnName, hName, ← hf.fnName]

theorem expansion_routes {T : Toolchain} {item : InterfaceImpl} {attrs : RawModelArgs}
    {x : Expansion} (V : Type) (hBuild : build T item attrs = .ok x)
    (hVariants : (x.message.variants.map Variant.name).Nodup)
    (hParams : ∀ f ∈ item.updaters, f.paramNames.Nodup) :
    x.message.variants.length = item.updaters.length ∧
    (∀ m : Message V, x.message.Inhabited m →
      ∃ (i : Nat) (d : MatchCase), x.implModel.matchCases[i]? = some d ∧ (d.bind m).isSome) ∧
    ∀ i f, item.updaters[i]? = some f → ∃ block variant method,
      f.block = some block ∧ x.message.variants[i]? = some variant ∧
      x.updaterImpls.fns[i]? = some method ∧ method.name = f.sig.ident ∧
      ∀ args : List V, args.length = f.paramNames.length → ∃ m,
        method.call x.message args = some m ∧ m.variantName = variant.name ∧
        (∀ j d, x.implModel.matchCases[j]? = some d → ((d.bind m).isSome ↔ j = i)) ∧
        ∀ r, x.implModel.update m = some r ↔
          item.OnlyName i f ∧ r = ⟨i, i, block, f.paramNames.zip args⟩ := by
  obtain ⟨c, hParse, hx⟩ := bind_ok hBuild
  cases hx
  have hAll := ModelContext.parse_updaters hParse
  have hv : (c.updaters.map ParsedUpdaterFn.variantName).Nodup := by
    simpa [ModelContext.generate, ModelContext.generateMessage, Function.comp_def,
      ParsedUpdaterFn.generateMessageVariant] using hVariants
  refine ⟨?_, exhaustive c, ?_⟩
  · have hLength := hAll.length_eq
    simp [ModelContext.generate, ModelContext.generateMessage, hLength]
  · intro i f hf
    obtain ⟨u, hu, hFrom⟩ := getElem?_of_forall₂ hAll hf
    have hNames : u.fieldNames = f.paramNames := by
      rw [ParsedUpdaterFn.fieldNames, hFrom.fnArgs, MaybeStubFn.paramNames]
    have hp : u.fieldNames.Nodup := hNames ▸ hParams f (List.mem_of_getElem? hf)
    refine ⟨u.block, u.generateMessageVariant, u.generateUpdaterFn c.args.message.name,
      hFrom.block, ?_, ?_, hFrom.fnName, ?_⟩
    · exact variants_of hu
    · simp [ModelContext.generate, ModelContext.generateUpdaterImpls,
        ModelContext.generateUpdaterGetterImpls, hu]
    · intro args hLength
      have ha : u.fieldNames.length = args.length := by rw [hNames, hLength]
      refine ⟨u.message args, call_eq hv hu hp ha, rfl, ?_, ?_⟩
      · intro j d hd
        exact bind_isSome_iff hv hu hp ha hd
      · intro r
        rw [← hNames, onlyName_iff hAll hFrom]
        exact update_eq_some_iff hv hu hp ha

section Gauge

def gaugeTools : Toolchain where
  thisCrate := some ["emyu"]
  fromAttributes := fun attrs => .ok ⟨none, attrs.head?.bind List.head?, none⟩
  pascal := id
  isIdent := fun _ => true

def gaugeArgs : RawModelArgs where
  forApp := "App"
  message := ⟨some "GaugeMessage", []⟩
  dispatcher := some (.config ⟨some ⟨some "GaugeUpdater", some "GaugeGetter"⟩, none⟩)
  flutterRustBridge := false

def gaugeFn (name message : Ident) (params : List Ident) (block : Block) : MaybeStubFn :=
  ⟨[[message]], ["pub"], ⟨false, false, false, none, name, [],
    .receiver true true :: params.map fun param =>
      .typed [] (.ident false false param none) (.other ["u32"]), false, .default⟩, some block⟩

/-- Two updaters, of which one takes two parameters of one type. -/
def gauge : InterfaceImpl where
  vis := ["pub"]
  selfTy := .path [] [⟨"GaugeModel", .none⟩]
  items := [gaugeFn "clamp" "Clamp" ["low", "high"] ["{ self.clamp_to(low..high); }"],
    gaugeFn "reset" "Reset" [] ["{ self.value.writer().set(0); }"]]

theorem expansion_routes_gauge :
    ∃ x method m, build gaugeTools gauge gaugeArgs = .ok x ∧ x.message.variants.length = 2 ∧
      x.updaterImpls.fns[0]? = some method ∧ method.call x.message [2, 9] = some m ∧
      x.implModel.update m =
        some ⟨0, 0, ["{ self.clamp_to(low..high); }"], [("low", 2), ("high", 9)]⟩ := by
  have hBuild : build gaugeTools gauge gaugeArgs = .ok _ := rfl
  obtain ⟨hLength, _, hRoutes⟩ := expansion_routes Nat hBuild (by decide) (by decide)
  obtain ⟨block, _, method, hBlock, _, hMethod, _, hCall⟩ := hRoutes 0 _ rfl
  obtain ⟨m, hm, _, _, hUpdate⟩ := hCall [2, 9] rfl
  have hOnly : gauge.OnlyName 0 (gaugeFn "clamp" "Clamp" ["low", "high"]
      ["{ self.clamp_to(low..high); }"]) := by
    intro j g hg hName
    match j with
    | 0 => rfl
    | 1 =>
      cases Option.some.inj hg
      exact absurd hName (by decide)
    | j + 2 => cases hg
  cases Option.some.inj hBlock
  exact ⟨_, method, m, hBuild, hLength, hMethod, hm, (hUpdate _).mpr ⟨hOnly, rfl⟩⟩

/-- Two updaters of one name, each with a message of its own. -/
def twins : InterfaceImpl where
  vis := ["pub"]
  selfTy := .path [] [⟨"GaugeModel", .none⟩]
  items := [gaugeFn "clamp" "Clamp" ["low", "high"] ["{ self.clamp_to(low..high); }"],
    gaugeFn "clamp" "Clear" [] ["{ self.value.writer().set(0); }"]]

/-- The arm of the first one is selected, but it calls a method that is there twice. -/
theorem twins_not_routed :
    ∃ x method m, build gaugeTools twins gaugeArgs = .ok x ∧
      (x.message.variants.map Variant.name).Nodup ∧ (∀ f ∈ twins.updaters, f.paramNames.Nodup) ∧
      x.updaterImpls.fns[0]? = some method ∧ method.call x.message [2, 9] = some m ∧
      (selectArm m x.implModel.matchCases).map Prod.fst = some 0 ∧ x.implModel.update m = none := by
  have hBuild : build gaugeTools twins gaugeArgs = .ok _ := rfl
  exact ⟨_, _, _, hBuild, by decide, by decide, rfl, rfl, rfl, rfl⟩

end Gauge

end Emyu.Macro
