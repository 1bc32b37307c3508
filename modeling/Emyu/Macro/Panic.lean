import Emyu.Macro.Generator
import Emyu.Macro.Shape

/-! When an expansion panics: exactly which impl blocks and attributes make `build` call `expect` on
what is no list, or `Ident::new` on what is no identifier. -/

namespace Emyu.Macro

def Panics {α : Type} (x : Except Failure α) : Prop := ∃ message, x = .error (.panicked message)

section Basic

variable {α β : Type} {x : Except Failure α} {f : α → Except Failure β} {l : List α}

@[simp] theorem not_panics_ok (a : α) : ¬ Panics (.ok a : Except Failure α) := by
  rintro ⟨message, h⟩
  cases h

@[simp] theorem not_panics_pure (a : α) : ¬ Panics (pure a : Except Failure α) := not_panics_ok a

@[simp] theorem not_panics_error (message : String) :
    ¬ Panics (.error (.error message) : Except Failure α) := by
  rintro ⟨message', h⟩
  cases h

theorem not_panics_invalidPosition (expr : String) :
    ¬ Panics (.error (invalidPositionError expr) : Except Failure α) := not_panics_error _

@[simp] theorem panics_panicked (message : String) :
    Panics (.error (.panicked message) : Except Failure α) := ⟨message, rfl⟩

theorem panics_bind_ok {a : α} (h : x = .ok a) : Panics (x >>= f) ↔ Panics (f a) := by
  subst h
  rfl

theorem panics_bind_error {e : Failure} (h : x = .error e) :
    Panics (x >>= f) ↔ Panics x := by
  subst h
  simp [Panics, bind, Except.bind]

theorem map_error {g : α → β} {e : Failure} (h : x.map g = .error e) : x = .error e := by
  cases x with
  | error e' => exact congrArg _ (Except.error.inj h)
  | ok a => cases h

theorem panics_map {g : α → β} : Panics (x.map g) ↔ Panics x := by
  cases x <;> simp [Panics, Except.map]

theorem panics_bind_of_not (h : ∀ a, ¬ Panics (f a)) : Panics (x >>= f) ↔ Panics x := by
  cases x with
  | error e => exact panics_bind_error rfl
  | ok a => exact iff_of_false (h a) (not_panics_ok a)

theorem exists_bind_ok : (∃ b, x >>= f = .ok b) ↔ ∃ a, x = .ok a ∧ ∃ b, f a = .ok b := by
  constructor
  · rintro ⟨b, hb⟩
    obtain ⟨a, ha, hb⟩ := bind_ok hb
    exact ⟨a, ha, b, hb⟩
  · rintro ⟨a, rfl, b, hb⟩
    exact ⟨b, hb⟩

/-- A traversal panics at the first element that it does not get past, if that one panics. -/
theorem panics_collect : Panics (collect f l) ↔
    ∃ (i : Nat) (a : α), l[i]? = some a ∧ Panics (f a) ∧
      ∀ j < i, ∀ b, l[j]? = some b → ∃ c, f b = .ok c := by
  induction l with
  | nil => simp [collect]
  | cons a rest ih =>
    cases ha : f a with
    | error e =>
      rw [collect, panics_bind_error ha, ha]
      constructor
      · intro h
        exact ⟨0, a, rfl, ha ▸ h, fun j hj => absurd hj (Nat.not_lt_zero j)⟩
      · rintro ⟨i, b, hb, hPanics, hBefore⟩
        cases i with
        | zero =>
          obtain rfl : a = b := Option.some.inj hb
          exact ha ▸ hPanics
        | succ i =>
          obtain ⟨c, hc⟩ := hBefore 0 (Nat.succ_pos i) a rfl
          rw [ha] at hc
          cases hc
    | ok b =>
      have hTail : Panics (collect f (a :: rest)) ↔ Panics (collect f rest) := by
        rw [collect, panics_bind_ok ha]
        cases hRest : collect f rest with
        | error e => exact panics_bind_error rfl
        | ok bs => simp [bind, Except.bind]
      rw [hTail, ih]
      constructor
      · rintro ⟨i, c, hc, hPanics, hBefore⟩
        refine ⟨i + 1, c, by simpa using hc, hPanics, fun j hj d hd => ?_⟩
        cases j with
        | zero =>
          obtain rfl : a = d := Option.some.inj hd
          exact ⟨b, ha⟩
        | succ j => exact hBefore j (by omega) d (by simpa using hd)
      · rintro ⟨i, c, hc, hPanics, hBefore⟩
        cases i with
        | zero =>
          obtain rfl : a = c := Option.some.inj hc
          rw [ha] at hPanics
          exact absurd hPanics (not_panics_ok b)
        | succ i =>
          exact ⟨i, c, by simpa using hc, hPanics, fun j hj d hd =>
            hBefore (j + 1) (by omega) d (by simpa using hd)⟩

/-- `x` returns no error: it succeeds if `b`, and panics if not. -/
def Decides (x : Except Failure α) (b : Bool) : Prop :=
  if b then ∃ a, x = .ok a else Panics x

theorem Decides.ok (a : α) : Decides (.ok a : Except Failure α) true := ⟨a, rfl⟩

theorem Decides.bind {b c : Bool} (hx : Decides x b) (hf : ∀ a, x = .ok a → Decides (f a) c) :
    Decides (x >>= f) (b && c) := by
  cases b with
  | false =>
    obtain ⟨message, hMessage⟩ := hx
    exact ⟨message, by rw [hMessage]; rfl⟩
  | true =>
    obtain ⟨a, ha⟩ := hx
    have hNext := hf a ha
    rw [Bool.true_and, ha]
    exact hNext

theorem Decides.then_ok {b : Bool} (hx : Decides x b) {g : α → β} :
    Decides (x >>= fun a => pure (g a)) b := by
  have h := hx.bind (f := fun a => pure (g a)) fun a _ => Decides.ok (g a)
  rwa [Bool.and_true] at h

theorem Decides.map {b : Bool} (hx : Decides x b) {g : α → β} : Decides (x.map g) b := by
  cases b with
  | false => exact panics_map.mpr hx
  | true =>
    obtain ⟨a, rfl⟩ := hx
    exact ⟨g a, rfl⟩

theorem Decides.panics_iff {b : Bool} (hx : Decides x b) : Panics x ↔ b = false := by
  cases b with
  | false => exact iff_of_true hx rfl
  | true =>
    obtain ⟨a, rfl⟩ := hx
    exact iff_of_false (not_panics_ok a) (by simp)

theorem Decides.congr {b c : Bool} (hx : Decides x b) (h : b = c) : Decides x c := h ▸ hx

end Basic

def Meta.isList : Meta → Bool
  | .list _ _ => true
  | _ => false

theorem decides_ident (T : Toolchain) (name : String) :
    Decides (T.ident name) (T.isIdent name) := by
  unfold Toolchain.ident
  cases h : T.isIdent name with
  | false => exact panics_panicked _
  | true => exact .ok name

theorem decides_process (m : Meta) : Decides (process m) m.isList := by
  cases m with
  | list _ tokens => exact .ok tokens
  | path _ => exact panics_panicked _
  | nameValue _ _ => exact panics_panicked _

theorem decides_collect_process (metas : List Meta) :
    Decides (collect process metas) (metas.all Meta.isList) := by
  induction metas with
  | nil => exact .ok []
  | cons m rest ih => exact (decides_process m).bind fun _ _ => ih.then_ok

theorem decides_fieldWith (m : MetaConfig) (f : MetaConfig → List Meta) :
    Decides (m.fieldWith f) ((m.base ++ f m).all Meta.isList) :=
  decides_collect_process _

/-- The metas of the configuration that are pasted somewhere, for a function of the shape. -/
def MetaConfig.reached (m : MetaConfig) : FnShape → List Meta
  | .new => m.base ++ m.updater ++ m.getter
  | .updater => m.base ++ m.message ++ m.fns ++ m.updater
  | .getter => m.base ++ m.message ++ m.fns ++ m.getter

namespace FnShape

/-- The checks of the attribute that come before anything is pasted or named. -/
def check (args : MethodArgs) : FnShape → Except Failure Unit
  | .new => NewMethodArgs.validate args
  | .updater => UpdaterGetterMethodArgs.validateUpdater args
  | .getter => UpdaterGetterMethodArgs.validateGetter args

/-- The metas to paste are lists, and the message has a name or the function's gives one. -/
def sound (T : Toolchain) (args : MethodArgs) (fnName : Ident) (s : FnShape) : Bool :=
  (s == .new || args.message.isSome || T.isIdent (T.pascal fnName)) &&
    args.metas.all fun m => (m.reached s).all Meta.isList

end FnShape

namespace With

variable (W : With) (metas : Option MetaConfig)

theorem decides_outerMetaOwned : Decides (W.outerMetaOwned metas)
    (metas.all fun m => (m.base ++ W.metas m).all Meta.isList) := by
  cases metas with
  | none => exact .ok []
  | some m => exact decides_fieldWith m W.metas

theorem decides_fnMetaOwned : Decides (W.fnMetaOwned metas)
    (metas.all fun m => (m.base ++ m.fns).all Meta.isList && (W.metas m).all Meta.isList) := by
  cases metas with
  | none => exact .ok []
  | some m =>
    exact (decides_fieldWith m MetaConfig.fns).bind fun _ _ =>
      (decides_collect_process (W.metas m)).then_ok

theorem decides_innerMetaOwned : Decides (W.innerMetaOwned metas)
    (metas.all fun m => m.inner.all fun inner => (W.innerMetas inner).all Meta.isList) := by
  match metas with
  | none => exact .ok []
  | some ⟨_, _, _, _, _, none⟩ => exact .ok []
  | some ⟨_, _, _, _, _, some inner⟩ => exact decides_collect_process (W.innerMetas inner)

end With

theorem decides_resolveNameForMessage (T : Toolchain) (args : MethodArgs) (fnName : Ident) :
    Decides (resolveNameForMessage T args fnName)
      (args.message.isSome || T.isIdent (T.pascal fnName)) := by
  unfold resolveNameForMessage
  cases args.message with
  | none => exact decides_ident T _
  | some name => exact .ok name

theorem decides_messageProperties (T : Toolchain) (args : MethodArgs) (fnName : Ident) :
    Decides (MessageProperties.parse T args fnName)
      ((args.message.isSome || T.isIdent (T.pascal fnName)) &&
        args.metas.all fun m => (m.base ++ m.message).all Meta.isList) := by
  refine (decides_resolveNameForMessage T args fnName).bind fun _ _ => Decides.then_ok ?_
  cases args.metas with
  | none => exact .ok []
  | some m => exact decides_fieldWith m MetaConfig.message

theorem decides_updaterGetter (T : Toolchain) (W : With) (args : MethodArgs) (fnName : Ident)
    (crate_ : TokenStream) (frb : Bool) :
    Decides (UpdaterGetterMethodArgs.parse T W args fnName crate_ frb)
      (((args.message.isSome || T.isIdent (T.pascal fnName)) &&
        args.metas.all fun m => (m.base ++ m.message).all Meta.isList) &&
        args.metas.all fun m =>
          (m.base ++ m.fns).all Meta.isList && (W.metas m).all Meta.isList) :=
  (decides_messageProperties T args fnName).bind fun _ _ =>
    (W.decides_fnMetaOwned args.metas).then_ok

/-- Past the checks, the attribute is parsed or the expansion panics. -/
theorem decides_parseArgs {T : Toolchain} {args : MethodArgs} {fnName : Ident}
    {crate_ : TokenStream} {frb : Bool} {s : FnShape} (hCheck : s.check args = .ok ()) :
    Decides (s.parseArgs T args fnName crate_ frb) (s.sound T args fnName) := by
  cases s with
  | new =>
    refine Decides.map ?_
    unfold NewMethodArgs.parse
    rw [show NewMethodArgs.validate args = .ok () from hCheck]
    refine ((With.updater.decides_outerMetaOwned args.metas).bind fun _ _ =>
      (With.getter.decides_outerMetaOwned args.metas).then_ok).congr ?_
    unfold FnShape.sound
    rw [Bool.eq_iff_iff]
    cases args.metas with
    | none => simp
    | some m =>
      simp [MetaConfig.reached, With.metas]
      tauto
  | updater =>
    refine Decides.map ?_
    unfold UpdaterGetterMethodArgs.parseUpdater
    rw [show UpdaterGetterMethodArgs.validateUpdater args = .ok () from hCheck]
    refine (decides_updaterGetter T .updater args fnName crate_ frb).congr ?_
    unfold FnShape.sound
    rw [Bool.eq_iff_iff]
    cases args.metas with
    | none => simp
    | some m =>
      simp [MetaConfig.reached, With.metas]
      tauto
  | getter =>
    refine Decides.map ?_
    unfold UpdaterGetterMethodArgs.parseGetter
    rw [show UpdaterGetterMethodArgs.validateGetter args = .ok () from hCheck]
    refine (decides_updaterGetter T .getter args fnName crate_ frb).congr ?_
    unfold FnShape.sound
    rw [Bool.eq_iff_iff]
    cases args.metas with
    | none => simp
    | some m =>
      simp [MetaConfig.reached, With.metas]
      tauto

/-- An attribute that a check refuses fails with that check's error. -/
theorem FnShape.parseArgs_of_check {T : Toolchain} {args : MethodArgs} {fnName : Ident}
    {crate_ : TokenStream} {frb : Bool} {s : FnShape} {e : Failure}
    (hCheck : s.check args = .error e) : s.parseArgs T args fnName crate_ frb = .error e := by
  cases s with
  | new =>
    unfold parseArgs NewMethodArgs.parse
    rw [show NewMethodArgs.validate args = .error e from hCheck]
    rfl
  | updater =>
    unfold parseArgs UpdaterGetterMethodArgs.parseUpdater
    rw [show UpdaterGetterMethodArgs.validateUpdater args = .error e from hCheck]
    rfl
  | getter =>
    unfold parseArgs UpdaterGetterMethodArgs.parseGetter
    rw [show UpdaterGetterMethodArgs.validateGetter args = .error e from hCheck]
    rfl

theorem UpdaterGetterMethodArgs.validate_not_panics (args : MethodArgs) :
    ¬ Panics (UpdaterGetterMethodArgs.validate args) := by
  unfold UpdaterGetterMethodArgs.validate
  repeat' split
  all_goals first | exact not_panics_invalidPosition _ | exact not_panics_ok _

theorem FnShape.check_not_panics (args : MethodArgs) (s : FnShape) : ¬ Panics (s.check args) := by
  have hValidate := UpdaterGetterMethodArgs.validate_not_panics args
  cases s with
  | new =>
    show ¬ Panics (NewMethodArgs.validate args)
    unfold NewMethodArgs.validate
    split
    · exact not_panics_invalidPosition _
    · exact not_panics_ok _
  | updater =>
    show ¬ Panics (UpdaterGetterMethodArgs.validateUpdater args)
    unfold UpdaterGetterMethodArgs.validateUpdater
    rw [panics_bind_of_not fun _ => ?_]
    · exact hValidate
    · repeat' split
      all_goals first | exact not_panics_invalidPosition _ | exact not_panics_ok _
  | getter =>
    show ¬ Panics (UpdaterGetterMethodArgs.validateGetter args)
    unfold UpdaterGetterMethodArgs.validateGetter
    rw [panics_bind_of_not fun _ => ?_]
    · exact hValidate
    · repeat' split
      all_goals first | exact not_panics_invalidPosition _ | exact not_panics_ok _

theorem FnKind.validate_not_panics (sig : Signature) : ¬ Panics (FnKind.validate sig) := by
  unfold FnKind.validate
  repeat' split
  all_goals first | exact not_panics_error _ | exact not_panics_ok _

theorem ParsedFnArg.parse_not_panics (arg : FnArg) : ¬ Panics (ParsedFnArg.parse arg) := by
  unfold ParsedFnArg.parse
  split <;> simp

namespace MaybeStubFn

variable {T : Toolchain} {f : MaybeStubFn} {crate_ : TokenStream} {frb : Bool}

/-- No check refuses the function before something of its attribute is pasted or named. -/
structure Reaches (T : Toolchain) (f : MaybeStubFn) (s : FnShape) (args : MethodArgs) : Prop where
  attrs : T.fromAttributes f.attrs = .ok args
  valid : FnKind.validate f.sig = .ok ()
  arm : f.Arm s
  check : s.check args = .ok ()

/-- What is pasted or named can be. -/
def Harmless (T : Toolchain) (f : MaybeStubFn) : Prop :=
  ∀ s args, f.Reaches T s args → s.sound T args f.sig.ident = true

/-- The function is parsed, and the one after it is looked at. -/
def Passed (T : Toolchain) (f : MaybeStubFn) : Prop :=
  ∃ s args, f.Reaches T s args ∧ s.sound T args f.sig.ident = true ∧ f.Named

variable (crate_ frb) in
/-- A function that gets past the checks is taken for its shape or makes the expansion panic. -/
theorem decides_analyze {args : MethodArgs} {s : FnShape} (h : f.Reaches T s args) :
    Decides (FnKind.analyze T f args crate_ frb) (s.sound T args f.sig.ident) := by
  have hArgs : Decides (s.parseArgs T args f.sig.ident crate_ frb) (s.sound T args f.sig.ident) :=
    decides_parseArgs h.check
  have hShape := hArgs.map (g := fun _ => s)
  rw [← FnKind.analyze_of_arm h.valid h.arm] at hShape
  cases hSound : s.sound T args f.sig.ident with
  | false =>
    rw [hSound] at hShape
    exact panics_map.mp hShape
  | true =>
    rw [hSound] at hShape
    obtain ⟨s', hs'⟩ := hShape
    obtain ⟨kind, hKind, -⟩ := map_ok hs'
    exact ⟨kind, hKind⟩

variable (crate_ frb) in
/-- Short of that, a check refuses it. -/
theorem analyze_of_not_reaches {args : MethodArgs} (hAttrs : T.fromAttributes f.attrs = .ok args)
    (h : ∀ s, ¬ f.Reaches T s args) : ∃ message,
      FnKind.analyze T f args crate_ frb = .error (.error message) := by
  have hError : ∀ {α : Type} {x : Except Failure α} {e : Failure}, x = .error e → ¬ Panics x →
      ∃ message, e = .error message := by
    intro α x e hx hNot
    cases e with
    | error message => exact ⟨message, rfl⟩
    | panicked message => exact (hNot ⟨message, hx⟩).elim
  cases hValid : FnKind.validate f.sig with
  | error e =>
    obtain ⟨message, rfl⟩ := hError hValid (FnKind.validate_not_panics f.sig)
    refine ⟨message, ?_⟩
    unfold FnKind.analyze
    rw [hValid]
    rfl
  | ok u =>
    by_cases hArm : ∃ s, f.Arm s
    · obtain ⟨s, hArm⟩ := hArm
      cases hCheck : s.check args with
      | ok u => exact (h s ⟨hAttrs, hValid, hArm, hCheck⟩).elim
      | error e =>
        obtain ⟨message, rfl⟩ := hError hCheck (FnShape.check_not_panics args s)
        have hShape : (FnKind.analyze T f args crate_ frb).map FnKind.shape =
            .error (.error message) := by
          rw [FnKind.analyze_of_arm hValid hArm, FnShape.parseArgs_of_check hCheck]
          rfl
        exact ⟨message, map_error hShape⟩
    · exact ⟨_, FnKind.analyze_of_no_arm hValid (not_exists.mp hArm)⟩

/-- What the first pass makes of a function, by what `analyze` makes of it. -/
theorem parse_outcome (hDarling : ¬ Panics (T.fromAttributes f.attrs)) :
    (Panics (ParsedFnFirstPass.parse T crate_ frb f) ↔
      ∃ args, T.fromAttributes f.attrs = .ok args ∧
        Panics (FnKind.analyze T f args crate_ frb)) ∧
    ((∃ p, ParsedFnFirstPass.parse T crate_ frb f = .ok p) ↔
      ∃ args, T.fromAttributes f.attrs = .ok args ∧
        (∃ kind, FnKind.analyze T f args crate_ frb = .ok kind) ∧ f.Named) := by
  have hFnArgs : ¬ Panics (collect ParsedFnArg.parse f.sig.inputs) := fun h => by
    obtain ⟨_, arg, _, hArg, _⟩ := panics_collect.mp h
    exact ParsedFnArg.parse_not_panics arg hArg
  unfold ParsedFnFirstPass.parse
  constructor
  · cases hAttrs : T.fromAttributes f.attrs with
    | error e =>
      rw [hAttrs] at hDarling
      rw [panics_bind_error rfl]
      exact iff_of_false hDarling (by simp)
    | ok args =>
      rw [panics_bind_ok rfl, panics_bind_of_not fun kind => ?_]
      · simp
      · rwa [panics_bind_of_not fun _ => not_panics_pure _]
  · simp only [exists_bind_ok]
    constructor
    · rintro ⟨args, hAttrs, kind, hKind, params, hParams, -⟩
      exact ⟨args, hAttrs, ⟨kind, hKind⟩, (collect_fnArgs_iff _).mp ⟨params, hParams⟩⟩
    · rintro ⟨args, hAttrs, ⟨kind, hKind⟩, hNamed⟩
      obtain ⟨params, hParams⟩ := (collect_fnArgs_iff _).mpr hNamed
      exact ⟨args, hAttrs, kind, hKind, params, hParams, _, rfl⟩

variable (crate_ frb) in
theorem parse_panics_iff (hDarling : ¬ Panics (T.fromAttributes f.attrs)) :
    Panics (ParsedFnFirstPass.parse T crate_ frb f) ↔ ¬ f.Harmless T := by
  rw [(parse_outcome hDarling).1]
  constructor
  · rintro ⟨args, hAttrs, hPanics⟩ hHarmless
    by_cases hReach : ∃ s, f.Reaches T s args
    · obtain ⟨s, hr⟩ := hReach
      have hDecides := decides_analyze crate_ frb hr
      rw [hHarmless s args hr] at hDecides
      obtain ⟨kind, hKind⟩ := hDecides
      exact not_panics_ok kind (hKind ▸ hPanics)
    · obtain ⟨message, hError⟩ := analyze_of_not_reaches crate_ frb hAttrs (not_exists.mp hReach)
      exact not_panics_error message (hError ▸ hPanics)
  · intro hNot
    simp only [Harmless, not_forall, Bool.not_eq_true] at hNot
    obtain ⟨s, args, hr, hSound⟩ := hNot
    have hDecides := decides_analyze crate_ frb hr
    rw [hSound] at hDecides
    exact ⟨args, hr.attrs, hDecides⟩

variable (crate_ frb) in
theorem parse_ok_iff (hDarling : ¬ Panics (T.fromAttributes f.attrs)) :
    (∃ p, ParsedFnFirstPass.parse T crate_ frb f = .ok p) ↔ f.Passed T := by
  rw [(parse_outcome hDarling).2]
  constructor
  · rintro ⟨args, hAttrs, ⟨kind, hKind⟩, hNamed⟩
    by_cases hReach : ∃ s, f.Reaches T s args
    · obtain ⟨s, hr⟩ := hReach
      refine ⟨s, args, hr, ?_, hNamed⟩
      by_contra hSound
      have hDecides := decides_analyze crate_ frb hr
      rw [Bool.not_eq_true] at hSound
      rw [hSound] at hDecides
      exact not_panics_ok kind (hKind ▸ hDecides)
    · obtain ⟨message, hError⟩ := analyze_of_not_reaches crate_ frb hAttrs (not_exists.mp hReach)
      rw [hKind] at hError
      cases hError
  · rintro ⟨s, args, hr, hSound, hNamed⟩
    have hDecides := decides_analyze crate_ frb hr
    rw [hSound] at hDecides
    exact ⟨args, hr.attrs, hDecides, hNamed⟩

end MaybeStubFn

section Identifiers

/-- Unicode's classes for identifiers. -/
structure CharClasses where
  xidStart : Char → Bool
  xidContinue : Char → Bool

/-- What is known of the classes: a start continues, a letter starts, and `_` continues. -/
structure CharClasses.Lawful (C : CharClasses) : Prop where
  start : ∀ c, C.xidStart c = true → C.xidContinue c = true
  letter : ∀ c, c.isAlpha = true → C.xidStart c = true
  underscore : C.xidContinue '_' = true

/-- An identifier without `r#`. A `_` alone is none. -/
def CharClasses.identChars (C : CharClasses) : List Char → Bool
  | [] => false
  | c :: rest => (C.xidStart c || (c == '_' && !rest.isEmpty)) && rest.all C.xidContinue

/-- What follows `r#`. -/
def rawRest : List Char → Option (List Char)
  | 'r' :: '#' :: rest => some rest
  | _ => none

theorem toList_stripRaw (name : Ident) :
    (stripRaw name).toList = (rawRest name.toList).getD name.toList := by
  unfold stripRaw
  split
  next rest hName =>
    rw [hName, String.toList_ofList]
    rfl
  next hNot =>
    have hNone : rawRest name.toList = none := by
      unfold rawRest
      split
      next rest hEq => exact (hNot rest hEq).elim
      · rfl
    rw [hNone]
    rfl

theorem toList_modelFnName (name : Ident) :
    (modelFnName name).toList = '_' :: '_' :: (stripRaw name).toList := by
  simp [modelFnName]

/-- The words that are no raw identifiers. -/
def notRaw : List (List Char) := ["crate".toList, "self".toList, "super".toList, "Self".toList]

/-- What `Ident::new` takes of the names without `r#`, and `format_ident!` of all. -/
def CharClasses.ident (C : CharClasses) (name : String) : Bool :=
  match rawRest name.toList with
  | some rest => C.identChars rest && !notRaw.contains rest
  | none => C.identChars name.toList

theorem rawRest_append (front : List Char) {tail : List Char}
    (hTail : tail.all Char.isAlpha = true) :
    rawRest (front ++ tail) = (rawRest front).map (· ++ tail) := by
  have hHash : '#' ∉ tail := fun h => absurd (List.all_eq_true.mp hTail _ h) (by decide)
  match front with
  | [] =>
    match tail with
    | [] => rfl
    | [_] => simp [rawRest]
    | c :: d :: rest =>
      have hd : d ≠ '#' := fun h => hHash (by simp [h])
      simp [rawRest, hd]
  | [c] =>
    match tail with
    | [] => simp
    | d :: rest =>
      have hd : d ≠ '#' := fun h => hHash (by simp [h])
      simp [rawRest, hd]
  | c :: d :: rest =>
    by_cases hRaw : c = 'r' ∧ d = '#'
    · obtain ⟨rfl, rfl⟩ := hRaw
      rfl
    · have hNone : ∀ l, rawRest (c :: d :: l) = none := by
        intro l
        unfold rawRest
        split
        next hEq => cases hEq; exact absurd ⟨rfl, rfl⟩ hRaw
        · rfl
      rw [List.cons_append, List.cons_append, hNone, hNone]
      rfl

/-- Letters after the front of an identifier make an identifier. -/
theorem CharClasses.Lawful.identChars_append {C : CharClasses} (hC : C.Lawful)
    {front tail letters : List Char} (h : C.identChars (front ++ tail) = true)
    (hLetters : letters.all Char.isAlpha = true) (hSome : letters ≠ []) :
    C.identChars (front ++ letters) = true := by
  have hContinue : ∀ c ∈ letters, C.xidContinue c = true := fun c hc =>
    hC.start c (hC.letter c (List.all_eq_true.mp hLetters c hc))
  cases front with
  | nil =>
    cases letters with
    | nil => exact absurd rfl hSome
    | cons c rest =>
      have hStart := hC.letter c (List.all_eq_true.mp hLetters c List.mem_cons_self)
      have hRest : ∀ x ∈ rest, C.xidContinue x = true := fun x hx =>
        hContinue x (List.mem_cons_of_mem _ hx)
      simpa [identChars, hStart] using hRest
  | cons c rest =>
    simp only [List.cons_append, identChars, Bool.and_eq_true, Bool.or_eq_true, beq_iff_eq,
      Bool.not_eq_true', List.all_append] at h ⊢
    refine ⟨h.1.imp_right fun hUnder => ⟨hUnder.1, ?_⟩, h.2.1, List.all_eq_true.mpr hContinue⟩
    simp [hSome]

theorem stripModel_cases (name : String) :
    name = stripModel name ++ "" ∨ name = stripModel name ++ "Model" := by
  unfold stripModel
  split
  next h =>
    obtain ⟨front, hFront⟩ := List.isSuffixOf_iff_suffix.mp h
    have hLength : name.length - "Model".length = front.length := by
      rw [← String.length_toList, ← hFront, show "Model".length = 5 from rfl]
      simp
    refine .inr (String.toList_inj.mp ?_)
    rw [hLength, ← hFront]
    simp
  · exact .inl (String.append_empty).symm

theorem stripModel_eq (name : String) : ∃ tail, name.toList = (stripModel name).toList ++ tail ∧
    tail.all Char.isAlpha = true := by
  rcases stripModel_cases name with h | h
  · exact ⟨"".toList, by rw [← String.toList_append, ← h], rfl⟩
  · exact ⟨"Model".toList, by rw [← String.toList_append, ← h], rfl⟩

/-- The names that `format_ident!` makes of a model's name are identifiers. -/
theorem CharClasses.Lawful.ident_suffix {C : CharClasses} (hC : C.Lawful) {name suffix : String}
    (h : C.ident name = true) (hLetters : suffix.toList.all Char.isAlpha = true)
    (hLength : 5 < suffix.toList.length) : C.ident (stripModel name ++ suffix) = true := by
  obtain ⟨tail, hName, hTail⟩ := stripModel_eq name
  have hSome : suffix.toList ≠ [] := fun hNil => by simp [hNil] at hLength
  unfold ident at h ⊢
  rw [String.toList_append, rawRest_append _ hLetters]
  rw [hName, rawRest_append _ hTail] at h
  cases hRaw : rawRest (stripModel name).toList with
  | none =>
    rw [hRaw] at h
    exact hC.identChars_append h hLetters hSome
  | some rest =>
    rw [hRaw] at h
    simp only [Option.map_some, Bool.and_eq_true] at h ⊢
    refine ⟨hC.identChars_append h.1 hLetters hSome, ?_⟩
    have hLong : 5 < (rest ++ suffix.toList).length := by simp; omega
    simp only [Bool.not_eq_true', List.contains_eq_mem, decide_eq_false_iff_not]
    intro hMem
    have hShort : (notRaw.all fun l => l.length ≤ 5) = true := rfl
    have hLe := List.all_eq_true.mp hShort _ hMem
    simp only [decide_eq_true_eq] at hLe
    omega

theorem CharClasses.Lawful.xidContinue_of_identChars {C : CharClasses} (hC : C.Lawful)
    {chars : List Char} (h : C.identChars chars = true) : ∀ c ∈ chars, C.xidContinue c = true := by
  cases chars with
  | nil => simp
  | cons c rest =>
    simp only [identChars, Bool.and_eq_true, Bool.or_eq_true, beq_iff_eq, List.all_eq_true] at h
    intro d hd
    rcases List.mem_cons.mp hd with rfl | hd
    · rcases h.1 with hStart | hUnder
      · exact hC.start d hStart
      · rw [hUnder.1]; exact hC.underscore
    · exact h.2 d hd

/-- The name of the private method is an identifier. -/
theorem CharClasses.Lawful.ident_modelFn {C : CharClasses} (hC : C.Lawful) {name : Ident}
    (h : C.ident name = true) : C.ident (modelFnName name) = true := by
  have hChars : ∀ c ∈ (stripRaw name).toList, C.xidContinue c = true := by
    rw [toList_stripRaw]
    unfold ident at h
    cases hRaw : rawRest name.toList with
    | none =>
      rw [hRaw] at h
      exact hC.xidContinue_of_identChars h
    | some rest =>
      rw [hRaw] at h
      simp only [Bool.and_eq_true] at h
      exact hC.xidContinue_of_identChars h.1
  unfold ident
  rw [toList_modelFnName]
  simp only [rawRest, identChars, List.isEmpty_cons, Bool.not_false, Bool.and_true,
    beq_self_eq_true, Bool.or_true, Bool.true_and, List.all_cons, hC.underscore]
  exact List.all_eq_true.mpr hChars

end Identifiers

/-- What the crates around the expansion promise: `emyu` is found, darling returns what it
refuses, and identifiers are what Unicode and Rust say they are. -/
structure Toolchain.Promised (T : Toolchain) : Prop where
  crate_ : ∃ tokens, T.thisCrate = some tokens
  darling : ∀ attrs, ¬ Panics (T.fromAttributes attrs)
  ident : ∃ C : CharClasses, C.Lawful ∧ ∀ name, T.isIdent name = C.ident name

theorem Toolchain.Promised.ident_suffix {T : Toolchain} (hT : T.Promised) {name suffix : String}
    (h : T.isIdent name = true) (hLetters : suffix.toList.all Char.isAlpha = true)
    (hLength : 5 < suffix.toList.length) : T.ident (stripModel name ++ suffix) =
      .ok (stripModel name ++ suffix) := by
  obtain ⟨C, hC, hIdent⟩ := hT.ident
  unfold Toolchain.ident
  rw [hIdent, if_pos (hC.ident_suffix (hIdent name ▸ h) hLetters hLength)]

theorem Toolchain.Promised.ident_modelFn {T : Toolchain} (hT : T.Promised) {name : Ident}
    (h : T.isIdent name = true) : T.isIdent (modelFnName name) = true := by
  obtain ⟨C, hC, hIdent⟩ := hT.ident
  rw [hIdent] at h ⊢
  exact hC.ident_modelFn h

/-- The metas that `#[emyu::model(..)]` gives for the message enum and the two structs. -/
def MetaConfig.structs (m : MetaConfig) : List Meta :=
  m.base ++ m.updater ++ m.getter ++
    match m.inner with
    | none => []
    | some inner => inner.updater ++ inner.getter

/-- The metas of the message enum are lists, and so are those of the structs if no check refuses
the configuration first. -/
def RawModelArgs.Harmless (raw : RawModelArgs) : Prop :=
  ∀ d, raw.dispatcher = some d → raw.message.metas.all Meta.isList = true ∧
    (ModelArgs.validate d.intoConfig = .ok () →
      ∀ m, d.intoConfig.metas = some m → m.structs.all Meta.isList = true)

section Attribute

variable {T : Toolchain} {raw : RawModelArgs} {modelName : Ident} {crate_ : TokenStream}

theorem decides_messageEnum (hT : T.Promised) (hName : T.isIdent modelName = true)
    (config : MessageConfig) (frb : Bool) :
    Decides (MessageEnumProperties.fromConfig T config modelName crate_ frb)
      (config.metas.all Meta.isList) := by
  have hResolve : Decides (MessageEnumProperties.resolveName T config modelName) true := by
    unfold MessageEnumProperties.resolveName
    cases config.name with
    | some name => exact .ok name
    | none => exact ⟨_, hT.ident_suffix hName rfl (by decide)⟩
  exact hResolve.bind fun _ _ => (decides_collect_process config.metas).then_ok

theorem decides_modelProperties (hT : T.Promised) (hName : T.isIdent modelName = true)
    (W : With) (config : DispatcherConfig) (frb : Bool) :
    Decides (ModelProperties.fromConfig T W config modelName crate_ frb)
      ((config.metas.all fun m => (m.base ++ W.metas m).all Meta.isList) &&
        config.metas.all fun m =>
          m.inner.all fun inner => (W.innerMetas inner).all Meta.isList) := by
  have hResolve : Decides (resolveNameForModel T W config.name modelName) true := by
    unfold resolveNameForModel
    cases config.name.bind W.name with
    | some name => exact .ok name
    | none => exact ⟨_, hT.ident_suffix hName (by cases W <;> rfl) (by cases W <;> decide)⟩
  exact hResolve.bind fun _ _ => (W.decides_outerMetaOwned config.metas).bind fun _ _ =>
    (W.decides_innerMetaOwned config.metas).then_ok

theorem ModelArgs.validate_not_panics (config : DispatcherConfig) :
    ¬ Panics (ModelArgs.validate config) := by
  unfold ModelArgs.validate
  repeat' split
  all_goals first | exact not_panics_invalidPosition _ | exact not_panics_ok _

/-- Past its checks, the configuration of the two structs is parsed or the expansion panics. -/
theorem decides_structs {args : ModelProperties → ModelProperties → ModelArgs} (hT : T.Promised)
    (hName : T.isIdent modelName = true) (config : DispatcherConfig) (frb : Bool) :
    Decides (do
        let updater ← ModelProperties.fromConfig T .updater config modelName crate_ frb
        let getter ← ModelProperties.fromConfig T .getter config modelName crate_ frb
        pure (args updater getter))
      (config.metas.all fun m => m.structs.all Meta.isList) := by
  refine ((decides_modelProperties hT hName .updater config frb).bind fun _ _ =>
    (decides_modelProperties hT hName .getter config frb).then_ok).congr ?_
  rw [Bool.eq_iff_iff]
  match config.metas with
  | none => rfl
  | some ⟨_, _, _, _, _, none⟩ => simp [MetaConfig.structs, With.metas]; tauto
  | some ⟨_, _, _, _, _, some inner⟩ =>
    simp [MetaConfig.structs, With.metas, With.innerMetas]
    tauto

/-- The attribute of the impl block makes the expansion panic exactly if it is not harmless. -/
theorem modelArgs_panics_iff (hT : T.Promised) (hName : T.isIdent modelName = true) :
    Panics (ModelArgs.parse T raw modelName crate_) ↔ ¬ raw.Harmless := by
  unfold ModelArgs.parse RawModelArgs.Harmless ModelArgs.config
  cases raw.dispatcher with
  | none => exact iff_of_false (not_panics_error _) (by simp)
  | some d =>
    have hMessage : Decides (MessageEnumProperties.fromConfig T raw.message modelName crate_
        raw.flutterRustBridge) _ := decides_messageEnum hT hName _ _
    rw [panics_bind_ok rfl]
    cases hLists : raw.message.metas.all Meta.isList with
    | false =>
      rw [hLists] at hMessage
      obtain ⟨text, hText⟩ := hMessage
      rw [hText, panics_bind_error rfl]
      exact iff_of_true (panics_panicked text) fun h => by simpa using (h d rfl).1
    | true =>
      rw [hLists] at hMessage
      obtain ⟨message, hMessage⟩ := hMessage
      rw [hMessage, panics_bind_ok rfl]
      cases hValid : ModelArgs.validate d.intoConfig with
      | error e =>
        rw [panics_bind_error rfl]
        refine iff_of_false (hValid ▸ ModelArgs.validate_not_panics d.intoConfig) fun h => h ?_
        intro d' hd
        cases Option.some.inj hd
        exact ⟨rfl, fun hOk => by rw [hValid] at hOk; cases hOk⟩
      | ok u =>
        rw [panics_bind_ok rfl, (decides_structs hT hName d.intoConfig _).panics_iff]
        cases hMetas : d.intoConfig.metas with
        | none => simp [hMetas]
        | some m => simp [hMetas, hValid]

end Attribute

section Build

variable {T : Toolchain} {item : InterfaceImpl} {raw : RawModelArgs}

/-- The names in an impl block that syn has parsed are identifiers. -/
structure InterfaceImpl.Parsed (T : Toolchain) (item : InterfaceImpl) : Prop where
  modelName : ∀ name, item.selfTy.modelName = .ok name → T.isIdent name = true
  fnName : ∀ f ∈ item.items, T.isIdent f.sig.ident = true

/-- A function that is looked at, because those before it are parsed, is harmless, and the
attribute of the block is, if it is looked at. -/
structure InterfaceImpl.Harmless (T : Toolchain) (item : InterfaceImpl) (raw : RawModelArgs) :
    Prop where
  fns : ∀ (i : Nat) (f : MaybeStubFn), item.items[i]? = some f →
    (∀ j < i, ∀ g, item.items[j]? = some g → g.Passed T) → f.Harmless T
  attrs : (∀ g ∈ item.items, g.Passed T) → raw.Harmless

theorem modelName_not_panics (ty : Ty) : ¬ Panics ty.modelName := by
  unfold Ty.modelName Ty.modelName.namedTypesOnly
  repeat' split
  all_goals first | exact not_panics_error _ | exact not_panics_ok _

theorem collect_items_panics_iff (hT : T.Promised) (crate_ : TokenStream) (frb : Bool)
    (fns : List MaybeStubFn) :
    Panics (collect (ParsedFnFirstPass.parse T crate_ frb) fns) ↔
      ¬ ∀ (i : Nat) (f : MaybeStubFn), fns[i]? = some f →
        (∀ j < i, ∀ g, fns[j]? = some g → g.Passed T) → f.Harmless T := by
  rw [panics_collect]
  constructor
  · rintro ⟨i, f, hf, hPanics, hBefore⟩ hAll
    have hHarmless : f.Harmless T := hAll i f hf fun j hj g hg =>
      (MaybeStubFn.parse_ok_iff crate_ frb (hT.darling _)).mp (hBefore j hj g hg)
    exact (MaybeStubFn.parse_panics_iff crate_ frb (hT.darling _)).mp hPanics hHarmless
  · intro hNot
    simp only [not_forall] at hNot
    obtain ⟨i, f, hf, hBefore, hHarm⟩ := hNot
    refine ⟨i, f, hf, (MaybeStubFn.parse_panics_iff crate_ frb (hT.darling _)).mpr hHarm,
      fun j hj g hg => ?_⟩
    exact (MaybeStubFn.parse_ok_iff crate_ frb (hT.darling _)).mpr (hBefore j hj g hg)

theorem parse_context_panics_iff (hT : T.Promised) (hItem : item.Parsed T) :
    Panics (ModelContext.parse T item raw) ↔
      ∃ name, item.selfTy.modelName = .ok name ∧ ¬ item.Harmless T raw := by
  unfold ModelContext.parse
  cases hName : item.selfTy.modelName with
  | error e =>
    rw [panics_bind_error rfl]
    exact iff_of_false (hName ▸ modelName_not_panics item.selfTy) (by simp)
  | ok name =>
    obtain ⟨crate_, hCrate⟩ := hT.crate_
    have hTokens : T.crateTokens = .ok crate_ := by rw [Toolchain.crateTokens, hCrate]
    rw [panics_bind_ok rfl, panics_bind_ok hTokens]
    have hItems := collect_items_panics_iff hT crate_ raw.flutterRustBridge item.items
    cases hCollect : collect (ParsedFnFirstPass.parse T crate_ raw.flutterRustBridge)
        item.items with
    | error e =>
      rw [panics_bind_error rfl]
      rw [hCollect] at hItems
      rw [hItems]
      have hFails : ¬ ∀ g ∈ item.items, g.Passed T := fun hAll => by
        obtain ⟨items, hOk⟩ := collect_eq_ok fun g hg =>
          (MaybeStubFn.parse_ok_iff crate_ raw.flutterRustBridge (hT.darling g.attrs)).mpr
            (hAll g hg)
        rw [hCollect] at hOk
        cases hOk
      constructor
      · exact fun h => ⟨name, rfl, fun hHarmless => h hHarmless.fns⟩
      · rintro ⟨-, -, h⟩ hFns
        exact h ⟨hFns, fun hAll => (hFails hAll).elim⟩
    | ok items =>
      have hPassed : ∀ g ∈ item.items, g.Passed T := fun g hg => by
        obtain ⟨i, hi⟩ := List.mem_iff_getElem?.mp hg
        obtain ⟨p, _, hp⟩ := Named.getElem?_of_forall₂ (collect_ok hCollect) hi
        exact (MaybeStubFn.parse_ok_iff crate_ raw.flutterRustBridge (hT.darling _)).mp ⟨p, hp⟩
      rw [hCollect] at hItems
      have hFns := not_not.mp (hItems.not.mp (not_panics_ok items))
      rw [panics_bind_ok rfl, panics_bind_of_not fun _ => not_panics_pure _,
        modelArgs_panics_iff hT (hItem.modelName name hName)]
      constructor
      · exact fun h => ⟨name, rfl, fun hHarmless => h (hHarmless.attrs hPassed)⟩
      · rintro ⟨-, -, h⟩ hRaw
        exact h ⟨hFns, fun _ => hRaw⟩

/-- The expansion returns tokens or a compile error, and what `format_ident!` makes of function
names on the way are identifiers. -/
structure Returns (T : Toolchain) (item : InterfaceImpl) (raw : RawModelArgs) : Prop where
  outcome : (∃ x, build T item raw = .ok x) ∨
    ∃ message, build T item raw = .error (.error message)
  idents : ∀ x, build T item raw = .ok x → ∀ fn ∈ x.implModel.modelFns, T.isIdent fn.name = true

theorem not_panics_iff {α : Type} {x : Except Failure α} :
    ¬ Panics x ↔ (∃ a, x = .ok a) ∨ ∃ message, x = .error (.error message) := by
  match x with
  | .ok a => simp
  | .error (.error message) => simp
  | .error (.panicked message) => simp

theorem generated_idents (hT : T.Promised) (hItem : item.Parsed T) {x : Expansion}
    (h : build T item raw = .ok x) : ∀ fn ∈ x.implModel.modelFns, T.isIdent fn.name = true := by
  obtain ⟨c, hParse, hx⟩ := bind_ok h
  cases hx
  intro fn hFn
  obtain ⟨u, hu, rfl⟩ := List.mem_map.mp hFn
  obtain ⟨i, hi⟩ := List.mem_iff_getElem?.mp hu
  obtain ⟨f, hf, hFrom⟩ := Named.getElem?_of_forall₂ (ModelContext.parse_updaters hParse).flip hi
  have hMem : f ∈ item.items := List.mem_of_mem_filter (List.mem_of_getElem? hf)
  show T.isIdent (modelFnName u.fnName) = true
  rw [hFrom.fnName]
  exact hT.ident_modelFn (hItem.fnName f hMem)

/-- The expansion of a parsed impl block does not panic exactly if the block is not for a named
type, or every function and attribute that is looked at is harmless. -/
theorem build_returns_iff (hT : T.Promised) (hItem : item.Parsed T) :
    Returns T item raw ↔
      ∀ name, item.selfTy.modelName = .ok name → item.Harmless T raw := by
  have hPanics : Panics (build T item raw) ↔
      ∃ name, item.selfTy.modelName = .ok name ∧ ¬ item.Harmless T raw := by
    unfold build
    rw [panics_bind_of_not fun _ => not_panics_pure _, parse_context_panics_iff hT hItem]
  have hNot : ¬ Panics (build T item raw) ↔
      ∀ name, item.selfTy.modelName = .ok name → item.Harmless T raw := by
    rw [hPanics]
    simp only [not_exists, not_and, not_not]
  rw [← hNot]
  constructor
  · exact fun h => not_panics_iff.mpr h.outcome
  · exact fun h => ⟨not_panics_iff.mp h, fun x hx => generated_idents hT hItem hx⟩

/-- The classes of ASCII. -/
def asciiClasses : CharClasses := ⟨Char.isAlpha, fun c => c.isAlphanum || c == '_'⟩

theorem asciiClasses_lawful : asciiClasses.Lawful where
  start c hc := by
    simp only [asciiClasses] at hc
    simp [asciiClasses, Char.isAlphanum, hc]
  letter _ hc := hc
  underscore := rfl

/-- PascalCase of a name in snake_case. -/
def pascalChars : Bool → List Char → List Char
  | _, [] => []
  | _, '_' :: rest => pascalChars true rest
  | start, c :: rest => (if start then c.toUpper else c) :: pascalChars false rest

/-- Of attributes only `#[emyu(meta(base))]` is read. -/
def snakeTools : Toolchain where
  thisCrate := some ["emyu"]
  fromAttributes := fun attrs =>
    if attrs = [["#", "[", "emyu", "(", "meta", "(", "base", ")", ")", "]"]] then
      .ok ⟨none, none, some ⟨[.path ["base"]], [], [], [], [], none⟩⟩
    else .ok ⟨none, none, none⟩
  pascal := fun name => String.ofList (pascalChars true name.toList)
  isIdent := asciiClasses.ident

theorem snakeTools_promised : snakeTools.Promised where
  crate_ := ⟨["emyu"], rfl⟩
  darling attrs := by
    unfold snakeTools
    simp only
    split
    · exact not_panics_ok _
    · exact not_panics_ok _
  ident := ⟨asciiClasses, asciiClasses_lawful, fun _ => rfl⟩

/-- `#[emyu::model(for_app = "App", dispatcher)]`. -/
def plainAttribute : RawModelArgs := ⟨"App", ⟨none, []⟩, some .default, false⟩

/-- `impl TallyModel { #[attrs] fn name(&mut self) { self.value = 0; } }`. -/
def tally (attrs : List Attribute) (name : Ident) : InterfaceImpl where
  vis := []
  selfTy := .path [] [⟨"TallyModel", .none⟩]
  items := [⟨attrs, [], ⟨false, false, false, none, name, [], [.receiver true true], false,
    .default⟩, some ["{ self.value = 0; }"]⟩]

theorem tally_parsed : (tally [] "reset").Parsed snakeTools := by
  refine ⟨fun name hName => ?_, fun f hf => ?_⟩
  · cases hName
    decide
  · rw [List.mem_singleton.mp hf]
    decide

/-- The block of one `reset` expands. -/
theorem build_returns_iff_tally : Returns snakeTools (tally [] "reset") plainAttribute := by
  have hFns : ∀ (i : Nat) (f : MaybeStubFn), (tally [] "reset").items[i]? = some f →
      f.Harmless snakeTools := by
    intro i f hf s args hReaches
    cases i with
    | succ i => cases hf
    | zero =>
      cases Option.some.inj hf
      cases Except.ok.inj hReaches.attrs
      cases s <;> decide
  refine (build_returns_iff snakeTools_promised tally_parsed).mpr fun name _ => ⟨?_, ?_⟩
  · exact fun i f hf _ => hFns i f hf
  · intro _ d hd
    cases Option.some.inj hd
    exact ⟨rfl, fun _ m hm => by cases hm⟩

/-- `fn _1(&mut self)`, whose message name would be `1`, and `#[emyu(meta(base))]`, whose `base` is
no list, make the expansion panic. -/
theorem expansion_panics :
    ¬ Returns snakeTools (tally [] "_1") plainAttribute ∧
    ¬ Returns snakeTools
      (tally [["#", "[", "emyu", "(", "meta", "(", "base", ")", ")", "]"]] "reset")
      plainAttribute := by
  have hNot : ∀ {item : InterfaceImpl}, Panics (build snakeTools item plainAttribute) →
      ¬ Returns snakeTools item plainAttribute :=
    fun h hReturns => not_panics_iff.mpr hReturns.outcome h
  exact ⟨hNot ⟨_, rfl⟩, hNot ⟨_, rfl⟩⟩

end Build

end Emyu.Macro
