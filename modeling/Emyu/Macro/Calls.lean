import Emyu.Macro.Signature

/-! Calls and messages: what the generated updater methods send, and that a value of the message
enum is the call of one method with one list of arguments. -/

namespace Emyu.Macro

open Named

variable {V : Type} {T : Toolchain} {item : InterfaceImpl} {raw : RawModelArgs} {x : Expansion}
  {i j : Nat} {args args' : List V} {m : Message V}

/-- The message that the `i`th updater method sends. -/
def Expansion.call (x : Expansion) (i : Nat) (args : List V) : Option (Message V) :=
  x.updaterImpls.fns[i]?.bind fun method => method.call x.message args

/-- The method and the arguments that a message is the call of. -/
def Expansion.called (x : Expansion) (m : Message V) : Option (Nat × List V) :=
  (resolve Variant.name x.message.variants m.variantName).map fun (i, _) =>
    (i, m.fields.map Prod.snd)

/-- What the generated `update` runs for the call: the method's own block, with its parameters. -/
def InterfaceImpl.ownBlock (item : InterfaceImpl) (i : Nat) (args : List V) :
    Option (Block × Env Ident V) := do
  let f ← item.updaters[i]?
  let block ← f.block
  pure (block, f.paramNames.zip args)

/-- The context of an expansion, with what the compiler checks of its names. -/
structure Generated (item : InterfaceImpl) (c : ModelContext) : Prop where
  updaters : ∃ T, List.Forall₂ (ParsedUpdaterFn.From T) item.updaters c.updaters
  variants : (c.updaters.map ParsedUpdaterFn.variantName).Nodup
  params : ∀ u ∈ c.updaters, u.fieldNames.Nodup
  names : ∀ (i : Nat) (u : ParsedUpdaterFn), c.updaters[i]? = some u → ∀ (j : Nat)
    (w : ParsedUpdaterFn), c.updaters[j]? = some w → stripRaw w.fnName = stripRaw u.fnName → j = i

theorem generated_of_build (hBuild : build T item raw = .ok x) (hCompiles : Compiles item x) :
    ∃ c, Generated item c ∧ x = c.generate := by
  obtain ⟨c, hParse, hx⟩ := bind_ok hBuild
  cases hx
  have hAll := ModelContext.parse_updaters hParse
  have hBack : ∀ {i : Nat} {u : ParsedUpdaterFn}, c.updaters[i]? = some u →
      ∃ f, item.updaters[i]? = some f ∧ u.From T f := fun hu => getElem?_of_forall₂ hAll.flip hu
  refine ⟨c, ⟨⟨T, hAll⟩, ?_, fun u hu => ?_, fun i u hu => ?_⟩, rfl⟩
  · simpa [ModelContext.generate, ModelContext.generateMessage, Function.comp_def,
      ParsedUpdaterFn.generateMessageVariant] using hCompiles.variants
  · obtain ⟨i, hi⟩ := List.mem_iff_getElem?.mp hu
    obtain ⟨f, hf, hFrom⟩ := hBack hi
    have hNodup := hCompiles.params f (List.mem_of_getElem? hf)
    rwa [MaybeStubFn.paramNames, ← hFrom.fnArgs] at hNodup
  · obtain ⟨f, hf, hFrom⟩ := hBack hu
    exact (onlyName_iff hAll hFrom).mp (hCompiles.names i f hf)

variable {c : ModelContext} {u : ParsedUpdaterFn}

theorem fns_of (hu : c.updaters[i]? = some u) :
    c.generate.updaterImpls.fns[i]? = some (u.generateUpdaterFn c.args.message.name) := by
  simp [ModelContext.generate, ModelContext.generateUpdaterImpls,
    ModelContext.generateUpdaterGetterImpls, hu]

theorem bind_isSome {params : List Ident} {env : Env Ident V} (h : bind params args = some env) :
    params.length = args.length := by
  by_contra hNe
  simp [Named.bind, hNe] at h

/-- A method is called with one argument for each parameter, and its message is the variant of the
method with the arguments in its fields. -/
theorem Generated.call_eq_some_iff (h : Generated item c) :
    c.generate.call i args = some m ↔ ∃ u, c.updaters[i]? = some u ∧
      u.fieldNames.length = args.length ∧ u.message args = m := by
  constructor
  · intro hCall
    obtain ⟨method, hMethod, hCall⟩ := Option.bind_eq_some_iff.mp hCall
    cases hu : c.updaters[i]? with
    | none =>
      simp [ModelContext.generate, ModelContext.generateUpdaterImpls,
        ModelContext.generateUpdaterGetterImpls, hu] at hMethod
    | some u =>
      obtain rfl := Option.some.inj (hMethod.symm.trans (fns_of hu))
      obtain ⟨env, hBind, -⟩ := Option.bind_eq_some_iff.mp hCall
      have ha : u.fieldNames.length = args.length := by
        simpa [ParsedUpdaterFn.generateUpdaterFn, ParsedUpdaterFn.fieldNames]
          using bind_isSome hBind
      have hOwn := call_eq h.variants hu (h.params u (List.mem_of_getElem? hu)) ha
      exact ⟨u, rfl, ha, Option.some.inj (hOwn.symm.trans hCall)⟩
  · rintro ⟨u, hu, ha, rfl⟩
    have hOwn := call_eq h.variants hu (h.params u (List.mem_of_getElem? hu)) ha
    exact Option.bind_eq_some_iff.mpr ⟨_, fns_of hu, hOwn⟩

theorem Generated.called_message (h : Generated item c) (hu : c.updaters[i]? = some u)
    (ha : u.fieldNames.length = args.length) :
    c.generate.called (u.message args) = some (i, args) := by
  have hVariants : (c.generateMessage.variants.map Variant.name).Nodup := by
    simpa [ModelContext.generateMessage, Function.comp_def,
      ParsedUpdaterFn.generateMessageVariant] using h.variants
  have hResolve : resolve Variant.name c.generate.message.variants u.variantName =
      some (i, u.generateMessageVariant) := resolve_of_nodup hVariants (variants_of hu)
  have hSnd : (u.fieldNames.zip args).map Prod.snd = args := List.map_snd_zip (by omega)
  simp [Expansion.called, ParsedUpdaterFn.message, hResolve, hSnd]

/-- Every value of the enum is the message of some call. -/
theorem exists_call (hm : c.generate.message.Inhabited m) :
    ∃ (i : Nat) (u : ParsedUpdaterFn) (args : List V), c.updaters[i]? = some u ∧
      u.fieldNames.length = args.length ∧ u.message args = m := by
  obtain ⟨variant, hMem, hName, hFields⟩ := hm
  obtain ⟨u, hu, rfl⟩ := List.mem_map.mp hMem
  obtain ⟨i, hi⟩ := List.mem_iff_getElem?.mp hu
  rw [fieldNames_generateMessageVariant] at hFields
  refine ⟨i, u, m.fields.map Prod.snd, hi, ?_, ?_⟩
  · rw [List.length_map, ← hFields, List.length_map]
  · obtain ⟨name, fields⟩ := m
    simp only [ParsedUpdaterFn.message, Message.mk.injEq]
    refine ⟨hName.symm, ?_⟩
    have hZip : (fields.map Prod.fst).zip (fields.map Prod.snd) = fields := by
      rw [List.zip_map']
      simp
    rw [← hFields]
    exact hZip

theorem inhabited_message (hu : c.updaters[i]? = some u)
    (ha : u.fieldNames.length = args.length) :
    c.generate.message.Inhabited (u.message args) := by
  refine ⟨u.generateMessageVariant, List.mem_of_getElem? (variants_of hu), rfl, ?_⟩
  rw [fieldNames_generateMessageVariant]
  exact List.map_fst_zip (by omega)

/-- The call can be read off its message. -/
theorem Generated.called_of_call (h : Generated item c) (hCall : c.generate.call i args = some m) :
    c.generate.called m = some (i, args) := by
  obtain ⟨u, hu, ha, rfl⟩ := h.call_eq_some_iff.mp hCall
  exact h.called_message hu ha

theorem Generated.inhabited_of_call (h : Generated item c)
    (hCall : c.generate.call i args = some m) : c.generate.message.Inhabited m := by
  obtain ⟨u, hu, ha, rfl⟩ := h.call_eq_some_iff.mp hCall
  exact inhabited_message hu ha

/-- A value of the enum is a call, and its block is that of the method called. -/
theorem Generated.runs_own (h : Generated item c) (hm : c.generate.message.Inhabited m) :
    ∃ i args own, c.generate.call i args = some m ∧ c.generate.called m = some (i, args) ∧
      item.ownBlock i args = some own ∧
      (c.generate.implModel.update m).map (fun ran => (ran.block, ran.env)) = some own := by
  obtain ⟨i, u, args, hu, ha, rfl⟩ := exists_call hm
  obtain ⟨T, hAll⟩ := h.updaters
  obtain ⟨f, hf, hFrom⟩ := getElem?_of_forall₂ hAll.flip hu
  have hRan : c.generate.implModel.update (u.message args) =
      some ⟨i, i, u.block, u.fieldNames.zip args⟩ :=
    (update_eq_some_iff h.variants hu (h.params u (List.mem_of_getElem? hu)) ha).mpr
      ⟨h.names i u hu, rfl⟩
  have hNames : u.fieldNames = f.paramNames := by
    rw [ParsedUpdaterFn.fieldNames, hFrom.fnArgs, MaybeStubFn.paramNames]
  refine ⟨i, args, (u.block, f.paramNames.zip args), ?_, h.called_message hu ha, ?_, ?_⟩
  · exact h.call_eq_some_iff.mpr ⟨u, hu, ha, rfl⟩
  · simp [InterfaceImpl.ownBlock, hf, hFrom.block]
  · simp [hRan, hNames]

/-- The message enum of a block that expands and compiles has one value for each call: every call
of the `i`th method with as many arguments as it has parameters makes a value of the enum, every
value is made by one call alone, so no two calls make the same one, and for the value that a call
makes `update` runs the block of the method called, with the arguments of the call. -/
theorem calls_are_messages (V : Type) (hBuild : build T item raw = .ok x)
    (hCompiles : Compiles item x) :
    (∀ i f (args : List V), item.updaters[i]? = some f → args.length = f.paramNames.length →
      ∃ m, x.call i args = some m) ∧
    (∀ m : Message V, x.message.Inhabited m ↔ ∃ i args, x.call i args = some m) ∧
    (∀ m : Message V, x.message.Inhabited m →
      ∃! p : Nat × List V, x.call p.1 p.2 = some m) ∧
    ∀ i args (m : Message V), x.call i args = some m → x.called m = some (i, args) ∧
      ∃ own, item.ownBlock i args = some own ∧
        (x.implModel.update m).map (fun ran => (ran.block, ran.env)) = some own := by
  obtain ⟨c, h, rfl⟩ := generated_of_build hBuild hCompiles
  refine ⟨fun i f args hf hArgs => ?_, fun m => ⟨fun hm => ?_, fun hm => ?_⟩, fun m hm => ?_,
    fun i args m hCall => ⟨h.called_of_call hCall, ?_⟩⟩
  · obtain ⟨T, hAll⟩ := h.updaters
    obtain ⟨u, hu, hFrom⟩ := getElem?_of_forall₂ hAll hf
    have ha : u.fieldNames.length = args.length := by
      rw [ParsedUpdaterFn.fieldNames, hFrom.fnArgs, hArgs, MaybeStubFn.paramNames]
    exact ⟨_, h.call_eq_some_iff.mpr ⟨u, hu, ha, rfl⟩⟩
  · obtain ⟨i, args, own, hCall, -⟩ := h.runs_own hm
    exact ⟨i, args, hCall⟩
  · obtain ⟨i, args, hCall⟩ := hm
    exact h.inhabited_of_call hCall
  · obtain ⟨i, args, own, hCall, -⟩ := h.runs_own hm
    refine ⟨(i, args), hCall, fun p hp => ?_⟩
    exact Option.some.inj ((h.called_of_call hp).symm.trans (h.called_of_call hCall))
  · obtain ⟨j, args', own, -, hCalled, hOwn, hUpdate⟩ := h.runs_own (h.inhabited_of_call hCall)
    cases (h.called_of_call hCall).symm.trans hCalled
    exact ⟨own, hOwn, hUpdate⟩

theorem gauge_compiles (hVariants : (x.message.variants.map Variant.name).Nodup) :
    Compiles gauge x where
  variants := hVariants
  params := by decide
  names i f hf j g hg hName := by
    match i, j with
    | 0, 0 | 1, 1 => rfl
    | 0, 1 =>
      cases Option.some.inj hf
      cases Option.some.inj hg
      exact absurd hName (by decide)
    | 1, 0 =>
      cases Option.some.inj hf
      cases Option.some.inj hg
      exact absurd hName (by decide)
    | i + 2, _ => cases hf
    | _, j + 2 => cases hg

theorem calls_are_messages_gauge : ∃ x, build gaugeTools gauge gaugeArgs = .ok x ∧
    (∀ i f (args : List Nat), gauge.updaters[i]? = some f → args.length = f.paramNames.length →
      ∃ m, x.call i args = some m) ∧
    (∀ m : Message Nat, x.message.Inhabited m ↔ ∃ i args, x.call i args = some m) ∧
    (∀ m : Message Nat, x.message.Inhabited m →
      ∃! p : Nat × List Nat, x.call p.1 p.2 = some m) ∧
    ∀ i args (m : Message Nat), x.call i args = some m → x.called m = some (i, args) ∧
      ∃ own, gauge.ownBlock i args = some own ∧
        (x.implModel.update m).map (fun ran => (ran.block, ran.env)) = some own := by
  have hBuild : build gaugeTools gauge gaugeArgs = .ok _ := rfl
  exact ⟨_, hBuild, calls_are_messages Nat hBuild (gauge_compiles (by decide))⟩

end Emyu.Macro
