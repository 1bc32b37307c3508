import Emyu.Macro.Entries
import Emyu.Macro.Panic

/-! The names that the expansion puts next to each other: the variants of the message enum, the
types of the module and the methods of each impl, when the attributes give none of them. -/

namespace Emyu.Macro

/-- Pairwise distinct as identifiers, where `r#` makes no difference. -/
def Distinct (names : List Ident) : Prop := (names.map stripRaw).Nodup

namespace Expansion

def variantNames (x : Expansion) : List Ident := x.message.variants.map Variant.name

/-- The types that every block has. -/
def typeNames (x : Expansion) : List Ident :=
  [x.message.name, x.updaterStruct.name, x.getterStruct.name]

def getterTypeNames (x : Expansion) : List Ident := x.getterMessages.map GetterMessage.name

/-- The methods of each impl that has any. -/
def methodNames (x : Expansion) : List (List Ident) :=
  [x.implModel.modelFns.map ModelFn.name, ["update", "__accumulate_signals"],
    ["__new"], "new" :: x.updaterImpls.fns.map UpdaterFn.name,
    ["__new"], "new" :: x.getterImpls.fns.map GetterFn.name] ++
      x.getterMessages.map fun _ => ["getter"]

end Expansion

def InterfaceImpl.fnNames (item : InterfaceImpl) : List Ident := item.items.map (·.sig.ident)

/-- The attributes give no name for the message enum, a struct, a variant or a message. -/
structure Unnamed (T : Toolchain) (item : InterfaceImpl) (raw : RawModelArgs) : Prop where
  message : raw.message.name = none
  structs : ∀ dispatcher, raw.dispatcher = some dispatcher → ∀ W : With,
    dispatcher.intoConfig.name.bind W.name = none
  fns : ∀ f ∈ item.items, ∀ args, T.fromAttributes f.attrs = .ok args → args.message = none

def Accepted (T : Toolchain) (item : InterfaceImpl) (raw : RawModelArgs) : Prop :=
  ∃ x, build T item raw = .ok x

/-- Where the names of an expansion clash. -/
structure Clashes (T : Toolchain) (item : InterfaceImpl) (modelName : Ident) (x : Expansion) :
    Prop where
  variants : Distinct x.variantNames ↔ Distinct (item.updaters.map fun f => T.pascal f.sig.ident)
  types : Distinct (modelName :: x.typeNames)
  getterMessages : Distinct x.getterTypeNames ↔
    Distinct (item.getters.map fun f => T.pascal f.sig.ident)
  getterTypes : Distinct (modelName :: x.typeNames ++ x.getterTypeNames) ↔
    Distinct (item.getters.map fun f => T.pascal f.sig.ident) ∧
      ∀ name ∈ modelName :: x.typeNames, ∀ other ∈ x.getterTypeNames, stripRaw name ≠ stripRaw other
  methods : (∀ names ∈ x.methodNames, Distinct names) ↔
    ∀ f ∈ item.updaters ++ item.getters, stripRaw f.sig.ident ≠ "new"

/-! ### Identifiers -/

section Identifiers

/-- What is appended stays behind the `r#`. -/
theorem stripRaw_append (name : Ident) {suffix : String}
    (hLetters : suffix.toList.all Char.isAlpha = true) :
    stripRaw (name ++ suffix) = stripRaw name ++ suffix := by
  refine String.toList_inj.mp ?_
  rw [String.toList_append, toList_stripRaw, toList_stripRaw, String.toList_append,
    rawRest_append _ hLetters]
  cases rawRest name.toList <;> rfl

theorem stripRaw_modelFnName (name : Ident) : stripRaw (modelFnName name) = modelFnName name := by
  refine String.toList_inj.mp ?_
  rw [toList_stripRaw, toList_modelFnName]
  rfl

theorem Distinct.of_sublist {names names' : List Ident} (h : Distinct names')
    (hSub : names.Sublist names') : Distinct names := h.sublist (hSub.map _)

theorem distinct_modelFnName {names : List Ident} (h : Distinct names) :
    Distinct (names.map modelFnName) := by
  have hMap : (names.map modelFnName).map stripRaw = (names.map stripRaw).map ("__" ++ ·) := by
    rw [List.map_map, List.map_map]
    exact List.map_congr_left fun name _ => stripRaw_modelFnName name
  rw [Distinct, hMap]
  exact h.map fun _ _ hEq => String.append_right_inj _ |>.mp hEq

theorem distinct_new_cons {names : List Ident} (h : Distinct names) :
    Distinct ("new" :: names) ↔ ∀ name ∈ names, stripRaw name ≠ "new" := by
  have hNew : stripRaw "new" = "new" := rfl
  have hNames : (names.map stripRaw).Nodup := h
  rw [Distinct, List.map_cons, List.nodup_cons, hNew, and_iff_left hNames]
  simp

/-- One stem with different suffixes, of which one is that of the model. -/
theorem distinct_suffixes (modelName : Ident) : Distinct (modelName ::
    ["Message", "Updater", "Getter"].map (stripModel modelName ++ ·)) := by
  have hAppend (suffixes : List String)
      (hLetters : ∀ suffix ∈ suffixes, suffix.toList.all Char.isAlpha = true)
      (hNodup : suffixes.Nodup) : Distinct (suffixes.map (stripModel modelName ++ ·)) := by
    rw [Distinct, List.map_map]
    refine hNodup.map_on fun a ha b hb hEq => ?_
    simp only [Function.comp_apply, stripRaw_append _ (hLetters a ha),
      stripRaw_append _ (hLetters b hb)] at hEq
    exact (String.append_right_inj _).mp hEq
  rcases stripModel_cases modelName with hName | hName
  · have hAll := hAppend ["", "Message", "Updater", "Getter"] (by decide) (by decide)
    rwa [List.map_cons, ← hName] at hAll
  · have hAll := hAppend ["Model", "Message", "Updater", "Getter"] (by decide) (by decide)
    rwa [List.map_cons, ← hName] at hAll

end Identifiers

/-! ### The names of an accepted block -/

section Parsed

variable {T : Toolchain} {item : InterfaceImpl} {raw : RawModelArgs} {c : ModelContext}

theorem map_eq_of_forall₂ {α β γ : Type} {R : α → β → Prop} {f : α → γ} {g : β → γ} {l : List α}
    {m : List β} (h : List.Forall₂ R l m) (hEq : ∀ a ∈ l, ∀ b, R a b → g b = f a) :
    m.map g = l.map f := by
  induction h with
  | nil => rfl
  | cons hR _ ih =>
    rw [List.map_cons, List.map_cons, hEq _ List.mem_cons_self _ hR,
      ih fun a ha => hEq a (List.mem_cons_of_mem _ ha)]

theorem Toolchain.ident_ok {name name' : Ident} (h : T.ident name = .ok name') : name' = name := by
  unfold ident at h
  split at h
  · exact (Except.ok.inj h).symm
  · cases h

theorem resolveNameForMessage_default {args : MethodArgs} {fnName name : Ident}
    (hNone : args.message = none) (h : resolveNameForMessage T args fnName = .ok name) :
    name = T.pascal fnName := by
  rw [resolveNameForMessage, hNone] at h
  exact Toolchain.ident_ok h

theorem resolveNameForModel_default {W : With} {config : Option NameConfig} {modelName name : Ident}
    (hNone : config.bind W.name = none) (h : resolveNameForModel T W config modelName = .ok name) :
    name = stripModel modelName ++ W.suffix := by
  rw [resolveNameForModel, hNone] at h
  exact Toolchain.ident_ok h

theorem MessageEnumProperties.resolveName_default {config : MessageConfig} {modelName name : Ident}
    (hNone : config.name = none) (h : resolveName T config modelName = .ok name) :
    name = stripModel modelName ++ "Message" := by
  rw [resolveName, hNone] at h
  exact Toolchain.ident_ok h

theorem ModelArgs.parse_names {modelName : Ident} {crate_ : TokenStream} {args : ModelArgs}
    (hUnnamed : Unnamed T item raw) (h : parse T raw modelName crate_ = .ok args) :
    [args.message.name, args.updater.name, args.getter.name] =
      ["Message", "Updater", "Getter"].map (stripModel modelName ++ ·) := by
  obtain ⟨config, hConfig, h⟩ := bind_ok h
  obtain ⟨message, hMessage, h⟩ := bind_ok h
  obtain ⟨_, _, h⟩ := bind_ok h
  obtain ⟨updater, hUpdater, h⟩ := bind_ok h
  obtain ⟨getter, hGetter, h⟩ := bind_ok h
  cases h
  have hNone (W : With) : config.name.bind W.name = none := by
    unfold ModelArgs.config at hConfig
    cases hDispatcher : raw.dispatcher with
    | none => rw [hDispatcher] at hConfig; cases hConfig
    | some dispatcher =>
      rw [hDispatcher] at hConfig
      cases hConfig
      exact hUnnamed.structs dispatcher hDispatcher W
  have hStruct {W : With} {props : ModelProperties} (h : ModelProperties.fromConfig T W config
      modelName crate_ raw.flutterRustBridge = .ok props) :
      props.name = stripModel modelName ++ W.suffix := by
    obtain ⟨name, hName, h⟩ := bind_ok h
    obtain ⟨outerMeta, _, h⟩ := bind_ok h
    obtain ⟨innerMeta, _, h⟩ := bind_ok h
    cases h
    exact resolveNameForModel_default (hNone W) hName
  obtain ⟨name, hName, hMessage⟩ := bind_ok hMessage
  obtain ⟨outerMeta, _, hMessage⟩ := bind_ok hMessage
  cases hMessage
  rw [MessageEnumProperties.resolveName_default hUnnamed.message hName, hStruct hUpdater,
    hStruct hGetter]
  rfl

/-- A getter keeps the name of its function, and its message is named as its attributes say. -/
theorem ParsedFnFirstPass.parse_getter {crate_ : TokenStream} {frb : Bool} {f : MaybeStubFn}
    {p : ParsedFnFirstPass} (h : parse T crate_ frb f = .ok p) :
    if f.isGetter then ∃ g, p.getter? = some g ∧ g.fnName = f.sig.ident ∧
      ∃ args, T.fromAttributes f.attrs = .ok args ∧
        resolveNameForMessage T args f.sig.ident = .ok g.common.methodArgs.message.name
    else p.getter? = none := by
  obtain ⟨args, hArgs, h⟩ := bind_ok h
  obtain ⟨kind, hKind, h⟩ := bind_ok h
  obtain ⟨fnArgs, hFnArgs, h⟩ := bind_ok h
  cases h
  obtain ⟨_, _, hKind⟩ := bind_ok hKind
  split at hKind
  next _ _ _ hSelf _ _ _ =>
    obtain ⟨a, _, hKind⟩ := bind_ok hKind
    cases hKind
    simp [getter?, MaybeStubFn.isGetter, hSelf]
  next _ _ hSelf _ =>
    obtain ⟨a, _, hKind⟩ := bind_ok hKind
    cases hKind
    simp [getter?, MaybeStubFn.isGetter, hSelf]
  next hSelf hTy hNoArgs hBlock =>
    obtain ⟨a, ha, hKind⟩ := bind_ok hKind
    cases hKind
    obtain ⟨_, _, ha⟩ := bind_ok ha
    obtain ⟨hName, hMessage⟩ := UpdaterGetterMethodArgs.parse_ok ha
    have hIs : f.isGetter = true := by simp [MaybeStubFn.isGetter, hSelf, hTy, hNoArgs, hBlock]
    rw [if_pos hIs]
    exact ⟨_, rfl, hName, args, hArgs, hMessage⟩
  · cases hKind

theorem ParsedFnsSecondPass.parse_getters (items : List ParsedFnFirstPass)
    (crate_ : TokenStream) (frb : Bool) :
    (parse items crate_ frb).getters = items.filterMap ParsedFnFirstPass.getter? := by
  have h := foldl_push_getters items ⟨ParsedNewFn.default, [], []⟩
  unfold parse
  cases frb <;> simpa using h

theorem ModelContext.parse_getters (h : parse T item raw = .ok c) :
    List.Forall₂ (fun f g => g.fnName = f.sig.ident ∧
      ∃ args, T.fromAttributes f.attrs = .ok args ∧
        resolveNameForMessage T args f.sig.ident = .ok g.common.methodArgs.message.name)
      item.getters c.getters := by
  obtain ⟨_, _, h⟩ := bind_ok h
  obtain ⟨crate_, _, h⟩ := bind_ok h
  obtain ⟨items, hItems, h⟩ := bind_ok h
  obtain ⟨args, _, h⟩ := bind_ok h
  cases h
  have hAll := forall₂_filterMap (collect_ok hItems) fun _ _ hp =>
    ParsedFnFirstPass.parse_getter hp
  rwa [← ParsedFnsSecondPass.parse_getters items crate_ raw.flutterRustBridge] at hAll

/-- The getters of the context are those of the impl block, in its order. -/
theorem ModelContext.parse_getterFnNames (h : parse T item raw = .ok c) :
    c.getters.map ParsedGetterFn.fnName = item.getters.map (·.sig.ident) :=
  map_eq_of_forall₂ (parse_getters h) fun _ _ _ hFrom => hFrom.1

theorem ModelContext.parse_getterTypeNames (hUnnamed : Unnamed T item raw)
    (h : parse T item raw = .ok c) : c.generate.getterTypeNames =
      item.getters.map fun f => T.pascal f.sig.ident := by
  have hNames : (c.getters.map fun g => g.common.methodArgs.message.name) =
      item.getters.map fun f => T.pascal f.sig.ident := by
    refine map_eq_of_forall₂ (parse_getters h) fun f hf g hFrom => ?_
    obtain ⟨-, args, hArgs, hName⟩ := hFrom
    exact resolveNameForMessage_default (hUnnamed.fns f (List.mem_of_mem_filter hf) args hArgs)
      hName
  exact List.map_map.trans hNames

theorem ModelContext.parse_fnNames (h : parse T item raw = .ok c) :
    c.updaters.map ParsedUpdaterFn.fnName = item.updaters.map (·.sig.ident) :=
  map_eq_of_forall₂ (parse_updaters h) fun _ _ _ hFrom => hFrom.fnName

theorem ModelContext.parse_variantNames (hUnnamed : Unnamed T item raw)
    (h : parse T item raw = .ok c) : c.updaters.map ParsedUpdaterFn.variantName =
      item.updaters.map fun f => T.pascal f.sig.ident := by
  refine map_eq_of_forall₂ (parse_updaters h) fun f hf u hFrom => ?_
  obtain ⟨args, hArgs, hName⟩ := hFrom.variantName
  exact resolveNameForMessage_default (hUnnamed.fns f (List.mem_of_mem_filter hf) args hArgs) hName

theorem ModelContext.parse_typeNames (hUnnamed : Unnamed T item raw)
    (h : parse T item raw = .ok c) : ∃ modelName, item.selfTy.modelName = .ok modelName ∧
      c.generate.typeNames = ["Message", "Updater", "Getter"].map (stripModel modelName ++ ·) := by
  obtain ⟨modelName, hModel, h⟩ := bind_ok h
  obtain ⟨crate_, _, h⟩ := bind_ok h
  obtain ⟨items, _, h⟩ := bind_ok h
  obtain ⟨args, hArgs, h⟩ := bind_ok h
  cases h
  exact ⟨modelName, hModel, ModelArgs.parse_names hUnnamed hArgs⟩

theorem ok_bind {α β : Type} (a : α) (f : α → Except Failure β) : (.ok a >>= f) = f a := rfl

/-- What a block is refused for, part by part. -/
theorem accepted_iff_parts : Accepted T item raw ↔ ∃ modelName crate_,
    item.selfTy.modelName = .ok modelName ∧ T.crateTokens = .ok crate_ ∧
    (∃ args, ModelArgs.parse T raw modelName crate_ = .ok args) ∧
    ∀ f ∈ item.items, ∃ p, ParsedFnFirstPass.parse T crate_ raw.flutterRustBridge f = .ok p := by
  constructor
  · rintro ⟨x, hBuild⟩
    obtain ⟨c, h, -⟩ := bind_ok hBuild
    obtain ⟨modelName, hModel, h⟩ := bind_ok h
    obtain ⟨crate_, hCrate, h⟩ := bind_ok h
    obtain ⟨items, hItems, h⟩ := bind_ok h
    obtain ⟨args, hArgs, -⟩ := bind_ok h
    refine ⟨modelName, crate_, hModel, hCrate, ⟨args, hArgs⟩, fun f hf => ?_⟩
    obtain ⟨i, hi⟩ := List.mem_iff_getElem?.mp hf
    obtain ⟨p, -, hp⟩ := Named.getElem?_of_forall₂ (collect_ok hItems) hi
    exact ⟨p, hp⟩
  · rintro ⟨modelName, crate_, hModel, hCrate, ⟨args, hArgs⟩, hFns⟩
    obtain ⟨items, hItems⟩ := collect_eq_ok hFns
    have hParse : ∃ c, ModelContext.parse T item raw = .ok c := by
      rw [ModelContext.parse, hModel, ok_bind, hCrate, ok_bind, hItems, ok_bind]
      dsimp only
      rw [hArgs, ok_bind]
      exact ⟨_, rfl⟩
    obtain ⟨c, hc⟩ := hParse
    exact ⟨c.generate, by rw [build, hc, ok_bind]; rfl⟩

/-- No two functions are compared: a block is accepted if it is with each of its functions alone. -/
theorem accepted_iff : Accepted T item raw ↔ Accepted T { item with items := [] } raw ∧
    ∀ f ∈ item.items, Accepted T { item with items := [f] } raw := by
  simp only [accepted_iff_parts]
  constructor
  · rintro ⟨modelName, crate_, hModel, hCrate, hArgs, hFns⟩
    refine ⟨⟨modelName, crate_, hModel, hCrate, hArgs, fun f hf => by cases hf⟩, fun f hf =>
      ⟨modelName, crate_, hModel, hCrate, hArgs, fun g hg => ?_⟩⟩
    cases List.mem_singleton.mp hg
    exact hFns f hf
  · rintro ⟨⟨modelName, crate_, hModel, hCrate, hArgs, -⟩, hEach⟩
    refine ⟨modelName, crate_, hModel, hCrate, hArgs, fun f hf => ?_⟩
    obtain ⟨_, crate', _, hCrate', _, hFn⟩ := hEach f hf
    obtain rfl := Except.ok.inj (hCrate.symm.trans hCrate')
    exact hFn f List.mem_cons_self

end Parsed

section Theorem

variable {T : Toolchain} {item : InterfaceImpl} {raw : RawModelArgs}

theorem map_sublist_fnNames (p : MaybeStubFn → Bool) :
    ((item.items.filter p).map (·.sig.ident)).Sublist item.fnNames :=
  List.filter_sublist.map _

theorem getterTypes_iff {types getterTypes : List Ident} (hTypes : Distinct types) :
    Distinct (types ++ getterTypes) ↔ Distinct getterTypes ∧
      ∀ name ∈ types, ∀ other ∈ getterTypes, stripRaw name ≠ stripRaw other := by
  have hNodup : (types.map stripRaw).Nodup := hTypes
  rw [Distinct, List.map_append, List.nodup_append, and_iff_right hNodup, Distinct]
  simp

theorem methods_iff {c : ModelContext} (hParse : ModelContext.parse T item raw = .ok c)
    (hNames : Distinct item.fnNames) : (∀ names ∈ c.generate.methodNames, Distinct names) ↔
      ∀ f ∈ item.updaters ++ item.getters, stripRaw f.sig.ident ≠ "new" := by
  have hUpdaters : Distinct (item.updaters.map (·.sig.ident)) :=
    hNames.of_sublist (map_sublist_fnNames _)
  have hGetters : Distinct (item.getters.map (·.sig.ident)) :=
    hNames.of_sublist (map_sublist_fnNames _)
  have hModelFns : c.generate.implModel.modelFns.map ModelFn.name =
      (item.updaters.map (·.sig.ident)).map modelFnName := by
    rw [← ModelContext.parse_fnNames hParse]
    simp [ModelContext.generate, ModelContext.generateImplModel, ParsedUpdaterFn.generateModelFn]
  have hUpdaterFns : c.generate.updaterImpls.fns.map UpdaterFn.name =
      item.updaters.map (·.sig.ident) := by
    rw [← ModelContext.parse_fnNames hParse]
    simp [ModelContext.generate, ModelContext.generateUpdaterImpls,
      ModelContext.generateUpdaterGetterImpls, ParsedUpdaterFn.generateUpdaterFn]
  have hGetterFns : c.generate.getterImpls.fns.map GetterFn.name =
      item.getters.map (·.sig.ident) := by
    rw [← ModelContext.parse_getterFnNames hParse]
    simp [ModelContext.generate, ModelContext.generateGetterImpls,
      ModelContext.generateUpdaterGetterImpls, ParsedGetterFn.generateGetterFn]
  have hFixed : Distinct ["update", "__accumulate_signals"] ∧ Distinct ["__new"] ∧
      Distinct ["getter"] := ⟨by unfold Distinct; decide, by unfold Distinct; decide,
    by unfold Distinct; decide⟩
  simp only [Expansion.methodNames, hModelFns, hUpdaterFns, hGetterFns, List.forall_mem_append,
    List.forall_mem_cons, List.forall_mem_map, distinct_modelFnName hUpdaters,
    distinct_new_cons hUpdaters, distinct_new_cons hGetters, hFixed]
  simp

/-- Without names in the attributes the parser checks none of those that it makes up. -/
theorem unchecked_names (hUnnamed : Unnamed T item raw) (hNames : Distinct item.fnNames) :
    (Accepted T item raw ↔ Accepted T { item with items := [] } raw ∧
      ∀ f ∈ item.items, Accepted T { item with items := [f] } raw) ∧
    ∀ x, build T item raw = .ok x →
      ∃ modelName, item.selfTy.modelName = .ok modelName ∧ Clashes T item modelName x := by
  refine ⟨accepted_iff, fun x hBuild => ?_⟩
  obtain ⟨c, hParse, hx⟩ := bind_ok hBuild
  cases hx
  obtain ⟨modelName, hModel, hTypeNames⟩ := ModelContext.parse_typeNames hUnnamed hParse
  have hVariants : c.generate.variantNames = item.updaters.map fun f => T.pascal f.sig.ident := by
    rw [← ModelContext.parse_variantNames hUnnamed hParse]
    simp [Expansion.variantNames, ModelContext.generate, ModelContext.generateMessage,
      ParsedUpdaterFn.generateMessageVariant]
  have hTypes : Distinct (modelName :: c.generate.typeNames) :=
    hTypeNames ▸ distinct_suffixes modelName
  have hGetters : Distinct c.generate.getterTypeNames ↔
      Distinct (item.getters.map fun f => T.pascal f.sig.ident) := by
    rw [ModelContext.parse_getterTypeNames hUnnamed hParse]
  exact ⟨modelName, hModel, by rw [hVariants], hTypes, hGetters,
    (getterTypes_iff hTypes).trans (and_congr_left' hGetters), methods_iff hParse hNames⟩

end Theorem

section Gauge

/-- `fn name(&mut self) { self.value = 0; }`. -/
def resetNamed (name : Ident) : MaybeStubFn :=
  { mutatingFn [] with sig := { (mutatingFn []).sig with ident := name } }

/-- `fn name(&self) -> Signal<u32>;`. -/
def readNamed (name : Ident) : MaybeStubFn :=
  ⟨[], [], ⟨false, false, false, none, name, [], [.receiver true false], false,
    .type (.path [] [⟨"Signal", .angleBracketed [.type (.other ["u32"])]⟩])⟩, none⟩

def gaugeNamed (updaters getters : List Ident) : InterfaceImpl where
  vis := ["pub"]
  selfTy := .path [] [⟨"GaugeModel", .none⟩]
  items := updaters.map resetNamed ++ getters.map readNamed

theorem gaugeNamed_unnamed (updaters getters : List Ident) :
    Unnamed shapeTools (gaugeNamed updaters getters) bridgeArgs where
  message := rfl
  structs _ h W := by
    cases h
    rfl
  fns _ _ args h := by
    cases h
    rfl

theorem unchecked_names_gauge : ∃ x,
    build shapeTools (gaugeNamed ["reset", "clear"] ["level"]) bridgeArgs = .ok x ∧
    Clashes shapeTools (gaugeNamed ["reset", "clear"] ["level"]) "GaugeModel" x := by
  have hBuild : build shapeTools (gaugeNamed ["reset", "clear"] ["level"]) bridgeArgs = .ok _ := rfl
  have hNames : Distinct (gaugeNamed ["reset", "clear"] ["level"]).fnNames := by
    unfold Distinct
    decide
  obtain ⟨modelName, hModel, hClashes⟩ :=
    (unchecked_names (gaugeNamed_unnamed _ _) hNames).2 _ hBuild
  cases hModel
  exact ⟨_, hBuild, hClashes⟩

/-- The updaters `reset`, `Reset` and `new` and the getters `level` and `Level` are accepted
together. -/
theorem clashing_names : ∃ x,
    build shapeTools (gaugeNamed ["reset", "Reset", "new"] ["level", "Level"]) bridgeArgs = .ok x ∧
    Distinct (gaugeNamed ["reset", "Reset", "new"] ["level", "Level"]).fnNames ∧
    Unnamed shapeTools (gaugeNamed ["reset", "Reset", "new"] ["level", "Level"]) bridgeArgs ∧
    ¬ Distinct x.variantNames ∧ ¬ Distinct x.getterTypeNames ∧
    ¬ ∀ names ∈ x.methodNames, Distinct names := by
  refine ⟨_, rfl, by unfold Distinct; decide, gaugeNamed_unnamed _ _, by unfold Distinct; decide,
    by unfold Distinct; decide, fun h => ?_⟩
  have hNew : Distinct ["new", "reset", "Reset", "new"] :=
    h _ (.tail _ (.tail _ (.tail _ (.head _))))
  unfold Distinct at hNew
  exact absurd hNew (by decide)

end Gauge

end Emyu.Macro
