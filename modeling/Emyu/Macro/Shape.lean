import Emyu.Lib.Named
import Emyu.Macro.Parser

/-! Which functions of the impl block the parser takes, and for what, against the shapes that the
attribute's documentation gives. -/

namespace Emyu.Macro

inductive FnShape where
  | new
  | updater
  | getter
  deriving DecidableEq, Repr

def FnKind.shape : FnKind → FnShape
  | .new _ => .new
  | .updater _ _ _ => .updater
  | .getter _ _ => .getter

/-- `x: T`, with no `ref`, no `mut` and no subpattern. -/
def FnArg.isPlain : FnArg → Bool
  | .typed _ (.ident false false _ none) _ => true
  | _ => false

/-- `x: T`, however `x` is bound. -/
def FnArg.isNamed : FnArg → Bool
  | .typed _ (.ident _ _ _ _) _ => true
  | _ => false

def FnArg.isReceiver : FnArg → Bool
  | .receiver _ _ => true
  | .typed _ _ _ => false

/-- syn parses a receiver in the first place only. -/
def Signature.ReceiverFirst (sig : Signature) : Prop :=
  ∀ arg ∈ sig.inputs.tail, arg.isReceiver = false

/-- `-> Command<..>`, by the last segment of the path. -/
def ReturnType.isCommand : ReturnType → Bool
  | .type (.path _ segments) =>
    match segments.getLast? with
    | some ⟨"Command", .angleBracketed _⟩ => true
    | _ => false
  | _ => false

/-- Nothing but a visibility stands before `fn`, and the parameters end with no `...`. -/
structure Signature.Bare (sig : Signature) : Prop where
  constness : sig.constness = false
  asyncness : sig.asyncness = false
  unsafety : sig.unsafety = false
  abi : sig.abi = none
  variadic : sig.variadic = false

namespace MaybeStubFn

/-- The shapes of the documentation. -/
def Documented (f : MaybeStubFn) : FnShape → Prop
  | .new => f.sig.Bare ∧ f.sig.generics = [] ∧ f.sig.ident = "new" ∧ f.sig.inputs = [] ∧
      f.sig.output = .default ∧ f.block = none
  | .updater => f.sig.Bare ∧ f.sig.generics = [] ∧
      (∃ params, f.sig.inputs = .receiver true true :: params ∧ ∀ p ∈ params, p.isPlain = true) ∧
      (f.sig.output = .default ∨ f.sig.output.isCommand = true) ∧ f.block.isSome = true
  | .getter => f.sig.Bare ∧ f.sig.generics = [] ∧ f.sig.inputs = [.receiver true false] ∧
      (extractInnerSignalTy f.sig.output).isSome = true ∧ f.block = none

/-- What the parser takes beyond them: type and const parameters everywhere, a `new` with a `self`
that is not a reference or with a return type, an updater with any return type, and parameters
bound by `mut`, `ref` or a subpattern. -/
def Stray (f : MaybeStubFn) : FnShape → Prop
  | .new => f.sig.Bare ∧ f.sig.generics.any GenericParam.isLifetime = false ∧
      f.sig.ident = "new" ∧ (f.sig.inputs = [] ∨ ∃ m, f.sig.inputs = [.receiver false m]) ∧
      extractInnerSignalTy f.sig.output = none ∧ f.block = none ∧
      (f.sig.generics ≠ [] ∨ f.sig.inputs ≠ [] ∨ f.sig.output ≠ .default)
  | .updater => f.sig.Bare ∧ f.sig.generics.any GenericParam.isLifetime = false ∧
      ∃ params, f.sig.inputs = .receiver true true :: params ∧
        (∀ p ∈ params, p.isNamed = true) ∧ f.block.isSome = true ∧
        (f.sig.generics ≠ [] ∨ (∃ p ∈ params, p.isPlain = false) ∨
          ¬ (f.sig.output = .default ∨ f.sig.output.isCommand = true))
  | .getter => f.sig.Bare ∧ f.sig.generics.any GenericParam.isLifetime = false ∧
      f.sig.inputs = [.receiver true false] ∧
      (extractInnerSignalTy f.sig.output).isSome = true ∧ f.block = none ∧ f.sig.generics ≠ []

end MaybeStubFn

/-- How `analyze` parses the `#[emyu(..)]` of a function of each shape. -/
def FnShape.parseArgs (T : Toolchain) (args : MethodArgs) (fnName : Ident) (crate_ : TokenStream)
    (frb : Bool) : FnShape → Except Failure Unit
  | .new => (NewMethodArgs.parse args crate_ frb).map fun _ => ()
  | .updater => (UpdaterGetterMethodArgs.parseUpdater T args fnName crate_ frb).map fun _ => ()
  | .getter => (UpdaterGetterMethodArgs.parseGetter T args fnName crate_ frb).map fun _ => ()

/-- `#[emyu(..)]` on the function is accepted, for a function of the shape. -/
def MaybeStubFn.AttrsOk (T : Toolchain) (crate_ : TokenStream) (frb : Bool) (f : MaybeStubFn)
    (s : FnShape) : Prop :=
  ∃ args, T.fromAttributes f.attrs = .ok args ∧
    s.parseArgs T args f.sig.ident crate_ frb = .ok ()

theorem FnKind.validate_ok_iff (sig : Signature) :
    validate sig = .ok () ↔ sig.Bare ∧ sig.generics.any GenericParam.isLifetime = false := by
  constructor
  · intro h
    simp only [validate] at h
    repeat' split at h
    all_goals first | (cases h; done) | skip
    rename_i h1 h2 h3 h4 h5 h6
    exact ⟨⟨by simpa using h1, by simpa using h2, by simpa using h3, by simpa using h4,
      by simpa using h6⟩, by simpa using h5⟩
  · rintro ⟨⟨h1, h2, h3, h4, h6⟩, h5⟩
    simp [validate, h1, h2, h3, h4, h5, h6]

/-- The arm of `analyze` that a function takes. -/
def MaybeStubFn.Arm (f : MaybeStubFn) : FnShape → Prop
  | .new => f.sig.ident = "new" ∧ SelfTy.analyze f.sig.inputs = none ∧
      extractInnerSignalTy f.sig.output = none ∧ f.sig.hasNoFnArgs = true ∧ f.block = none
  | .updater => SelfTy.analyze f.sig.inputs = some .mutable ∧ f.block.isSome = true
  | .getter => SelfTy.analyze f.sig.inputs = some .shared ∧
      (extractInnerSignalTy f.sig.output).isSome = true ∧ f.sig.hasNoFnArgs = true ∧
      f.block = none

/-- A function that passes the validator is of the shape whose arm it takes, once its attribute is
parsed for that shape. -/
theorem FnKind.analyze_of_arm {T : Toolchain} {f : MaybeStubFn} {args : MethodArgs}
    {crate_ : TokenStream} {frb : Bool} {s : FnShape} (hValid : validate f.sig = .ok ())
    (hArm : f.Arm s) : (analyze T f args crate_ frb).map FnKind.shape =
      (s.parseArgs T args f.sig.ident crate_ frb).map fun _ => s := by
  have hMap : ∀ {α : Type} (x : Except Failure α) (g : α → FnKind),
      (∀ a, (g a).shape = s) → (x >>= fun a => pure (g a)).map FnKind.shape =
        (x.map fun _ => ()).map fun _ => s := by
    intro α x g hg
    cases x with
    | error e => rfl
    | ok a => exact congrArg Except.ok (hg a)
  unfold analyze
  rw [hValid]
  cases s with
  | new =>
    obtain ⟨hName, hSelf, hTy, hNoArgs, hBlock⟩ := hArm
    rw [hName, hSelf, hTy, hNoArgs, hBlock]
    exact hMap (NewMethodArgs.parse args crate_ frb) _ fun _ => rfl
  | updater =>
    obtain ⟨hSelf, hBlock⟩ := hArm
    obtain ⟨block, hBlock⟩ := Option.isSome_iff_exists.mp hBlock
    split
    next hNone _ _ _ => rw [hSelf] at hNone; cases hNone
    next =>
      exact hMap (UpdaterGetterMethodArgs.parseUpdater T args f.sig.ident crate_ frb) _ fun _ => rfl
    next hShared _ _ _ => rw [hSelf] at hShared; cases hShared
    next hOther _ _ => exact (hOther _ hSelf hBlock).elim
  | getter =>
    obtain ⟨hSelf, hTy, hNoArgs, hBlock⟩ := hArm
    obtain ⟨ty, hTy⟩ := Option.isSome_iff_exists.mp hTy
    split
    next hNone _ _ _ => rw [hSelf] at hNone; cases hNone
    next hMutable _ => rw [hSelf] at hMutable; cases hMutable
    next =>
      exact hMap (UpdaterGetterMethodArgs.parseGetter T args f.sig.ident crate_ frb) _ fun _ => rfl
    next _ hOther _ => exact (hOther _ hSelf hTy hNoArgs hBlock).elim

theorem FnKind.analyze_of_no_arm {T : Toolchain} {f : MaybeStubFn} {args : MethodArgs}
    {crate_ : TokenStream} {frb : Bool} (hValid : validate f.sig = .ok ())
    (hArm : ∀ s, ¬ f.Arm s) :
    analyze T f args crate_ frb = .error (.error "could not determine function shape") := by
  unfold analyze
  rw [hValid]
  split
  next hName hSelf hTy hNoArgs hBlock =>
    exact (hArm .new ⟨hName, hSelf, hTy, hNoArgs, hBlock⟩).elim
  next hSelf hBlock => exact (hArm .updater ⟨hSelf, by simp [hBlock]⟩).elim
  next hSelf hTy hNoArgs hBlock =>
    exact (hArm .getter ⟨hSelf, by simp [hTy], hNoArgs, hBlock⟩).elim
  · rfl

theorem map_ok {α β : Type} {x : Except Failure α} {g : α → β} {b : β} (h : x.map g = .ok b) :
    ∃ a, x = .ok a ∧ g a = b := by
  cases x with
  | error e => cases h
  | ok a => exact ⟨a, rfl, Except.ok.inj h⟩

theorem FnKind.analyze_shape_iff {T : Toolchain} {f : MaybeStubFn} {args : MethodArgs}
    {crate_ : TokenStream} {frb : Bool} (s : FnShape) :
    (analyze T f args crate_ frb).map FnKind.shape = .ok s ↔
      validate f.sig = .ok () ∧ f.Arm s ∧ s.parseArgs T args f.sig.ident crate_ frb = .ok () := by
  constructor
  · intro h
    have hValid : validate f.sig = .ok () := by
      obtain ⟨kind, hKind, -⟩ := map_ok h
      obtain ⟨_, hValid, -⟩ := bind_ok hKind
      exact hValid
    by_cases hArm : ∃ s', f.Arm s'
    · obtain ⟨s', hArm⟩ := hArm
      rw [analyze_of_arm hValid hArm] at h
      obtain ⟨u, hOk, rfl⟩ := map_ok h
      exact ⟨hValid, hArm, hOk⟩
    · rw [analyze_of_no_arm hValid (not_exists.mp hArm)] at h
      cases h
  · rintro ⟨hValid, hArm, hOk⟩
    rw [analyze_of_arm hValid hArm, hOk]
    rfl

theorem collect_eq_ok {α β : Type} {f : α → Except Failure β} {l : List α}
    (h : ∀ a ∈ l, ∃ b, f a = .ok b) : ∃ bs, collect f l = .ok bs := by
  induction l with
  | nil => exact ⟨[], rfl⟩
  | cons a rest ih =>
    obtain ⟨b, hb⟩ := h a (by simp)
    obtain ⟨bs, hbs⟩ := ih fun a ha => h a (by simp [ha])
    exact ⟨b :: bs, by rw [collect, hb, hbs]; rfl⟩

theorem ParsedFnArg.parse_ok_iff (arg : FnArg) :
    (∃ param, ParsedFnArg.parse arg = .ok param) ↔ arg.isReceiver = true ∨ arg.isNamed = true := by
  match arg with
  | .receiver _ _ => simp [ParsedFnArg.parse, FnArg.isReceiver]
  | .typed _ (.ident _ _ _ _) _ => simp [ParsedFnArg.parse, FnArg.isNamed]
  | .typed _ (.other _) _ => simp [ParsedFnArg.parse, FnArg.isReceiver, FnArg.isNamed]

theorem collect_fnArgs_iff (inputs : List FnArg) :
    (∃ params, collect ParsedFnArg.parse inputs = .ok params) ↔
      ∀ arg ∈ inputs, arg.isReceiver = true ∨ arg.isNamed = true := by
  constructor
  · rintro ⟨params, h⟩ arg hArg
    obtain ⟨i, hi⟩ := List.mem_iff_getElem?.mp hArg
    obtain ⟨param, _, hParam⟩ := Named.getElem?_of_forall₂ (collect_ok h) hi
    exact (ParsedFnArg.parse_ok_iff arg).mp ⟨param, hParam⟩
  · intro h
    exact collect_eq_ok fun arg hArg => (ParsedFnArg.parse_ok_iff arg).mpr (h arg hArg)

theorem FnArg.isNamed_of_isPlain {arg : FnArg} (h : arg.isPlain = true) : arg.isNamed = true := by
  unfold isPlain at h
  split at h
  · rfl
  · cases h

theorem SelfTy.analyze_eq_none {inputs : List FnArg}
    (h : ∀ arg ∈ inputs, arg.isReceiver = false) : SelfTy.analyze inputs = none := by
  induction inputs with
  | nil => rfl
  | cons arg rest ih =>
    cases arg with
    | receiver _ _ => exact absurd (h _ List.mem_cons_self) (by simp [FnArg.isReceiver])
    | typed _ _ _ => exact ih fun arg hArg => h arg (List.mem_cons_of_mem _ hArg)

/-- A reference to `self` is the first parameter. -/
theorem SelfTy.analyze_eq_some {sig : Signature} (hFirst : sig.ReceiverFirst) {self : SelfTy}
    (h : SelfTy.analyze sig.inputs = some self) :
    ∃ m params, sig.inputs = .receiver true m :: params ∧
      self = (if m then .mutable else .shared) := by
  unfold Signature.ReceiverFirst at hFirst
  cases hInputs : sig.inputs with
  | nil => rw [hInputs] at h; cases h
  | cons arg params =>
    rw [hInputs] at h hFirst
    have hRest : SelfTy.analyze params = none := analyze_eq_none hFirst
    match arg with
    | .receiver true m => exact ⟨m, params, rfl, (Option.some.inj h).symm⟩
    | .receiver false _ | .typed _ _ _ => simp [analyze, hRest] at h

theorem Signature.hasNoFnArgs_iff (sig : Signature) :
    sig.hasNoFnArgs = true ↔ sig.inputs = [] ∨ ∃ r m, sig.inputs = [.receiver r m] := by
  unfold hasNoFnArgs
  split
  next h => simp [h]
  next r m h => simp [h]
  next h1 h2 =>
    refine iff_of_false (by simp) ?_
    rintro (h | ⟨r, m, h⟩)
    · exact h1 h
    · exact h2 _ _ h

namespace MaybeStubFn

variable {f : MaybeStubFn} {s s' : FnShape}

/-- Every argument is a receiver or named, so that it parses. -/
def Named (f : MaybeStubFn) : Prop :=
  ∀ arg ∈ f.sig.inputs, arg.isReceiver = true ∨ arg.isNamed = true

theorem arm_new_iff : f.Arm .new ↔ f.sig.ident = "new" ∧
    (f.sig.inputs = [] ∨ ∃ m, f.sig.inputs = [.receiver false m]) ∧
    extractInnerSignalTy f.sig.output = none ∧ f.block = none := by
  constructor
  · rintro ⟨hName, hSelf, hTy, hNoArgs, hBlock⟩
    refine ⟨hName, ?_, hTy, hBlock⟩
    rcases f.sig.hasNoFnArgs_iff.mp hNoArgs with h | ⟨r, m, h⟩
    · exact .inl h
    · rw [h] at hSelf
      cases r with
      | true => cases hSelf
      | false => exact .inr ⟨m, h⟩
  · rintro ⟨hName, hInputs, hTy, hBlock⟩
    refine ⟨hName, ?_, hTy, f.sig.hasNoFnArgs_iff.mpr ?_, hBlock⟩
    · rcases hInputs with h | ⟨m, h⟩ <;> rw [h] <;> rfl
    · exact hInputs.imp_right fun ⟨m, h⟩ => ⟨false, m, h⟩

theorem arm_updater_iff (hFirst : f.sig.ReceiverFirst) :
    f.Arm .updater ∧ f.Named ↔ f.block.isSome = true ∧
      ∃ params, f.sig.inputs = .receiver true true :: params ∧ ∀ p ∈ params, p.isNamed = true := by
  constructor
  · rintro ⟨⟨hSelf, hBlock⟩, hNamed⟩
    obtain ⟨m, params, hInputs, hm⟩ := SelfTy.analyze_eq_some hFirst hSelf
    cases m with
    | false => cases hm
    | true =>
      refine ⟨hBlock, params, hInputs, fun p hp => ?_⟩
      have hTyped := hFirst p (by rw [hInputs]; exact hp)
      exact (hNamed p (by rw [hInputs]; exact List.mem_cons_of_mem _ hp)).resolve_left
        (by simp [hTyped])
  · rintro ⟨hBlock, params, hInputs, hNamed⟩
    refine ⟨⟨by rw [hInputs]; rfl, hBlock⟩, fun arg hArg => ?_⟩
    rw [hInputs] at hArg
    rcases List.mem_cons.mp hArg with rfl | hArg
    · exact .inl rfl
    · exact .inr (hNamed arg hArg)

theorem arm_getter_iff (hFirst : f.sig.ReceiverFirst) :
    f.Arm .getter ↔ f.sig.inputs = [.receiver true false] ∧
      (extractInnerSignalTy f.sig.output).isSome = true ∧ f.block = none := by
  constructor
  · rintro ⟨hSelf, hTy, hNoArgs, hBlock⟩
    obtain ⟨m, params, hInputs, hm⟩ := SelfTy.analyze_eq_some hFirst hSelf
    cases m with
    | true => cases hm
    | false =>
      rcases f.sig.hasNoFnArgs_iff.mp hNoArgs with h | ⟨r, m', h⟩
      · rw [h] at hInputs; cases hInputs
      · rw [h] at hInputs
        cases hInputs
        exact ⟨h, hTy, hBlock⟩
  · rintro ⟨hInputs, hTy, hBlock⟩
    exact ⟨by rw [hInputs]; rfl, hTy, f.sig.hasNoFnArgs_iff.mpr (.inr ⟨_, _, hInputs⟩), hBlock⟩

theorem named_of_receiver {r m : Bool} (h : f.sig.inputs = [.receiver r m]) : f.Named := by
  intro arg hArg
  rw [h, List.mem_singleton] at hArg
  subst hArg
  exact .inl rfl

theorem noLifetimes_of_nil (h : f.sig.generics = []) :
    f.sig.generics.any GenericParam.isLifetime = false := by
  rw [h]; rfl

/-- What the parser takes, up to the attributes, is what is documented and what is not. -/
theorem taken_iff (hFirst : f.sig.ReceiverFirst) :
    (FnKind.validate f.sig = .ok () ∧ f.Arm s ∧ f.Named) ↔ f.Documented s ∨ f.Stray s := by
  rw [FnKind.validate_ok_iff]
  cases s with
  | new =>
    rw [arm_new_iff]
    constructor
    · rintro ⟨⟨hBare, hLifetimes⟩, ⟨hName, hInputs, hTy, hBlock⟩, -⟩
      by_cases hStray : f.sig.generics ≠ [] ∨ f.sig.inputs ≠ [] ∨ f.sig.output ≠ .default
      · exact .inr ⟨hBare, hLifetimes, hName, hInputs, hTy, hBlock, hStray⟩
      · simp only [not_or, not_not] at hStray
        exact .inl ⟨hBare, hStray.1, hName, hStray.2.1, hStray.2.2, hBlock⟩
    · rintro (⟨hBare, hGenerics, hName, hInputs, hOutput, hBlock⟩ |
        ⟨hBare, hLifetimes, hName, hInputs, hTy, hBlock, -⟩)
      · exact ⟨⟨hBare, noLifetimes_of_nil hGenerics⟩,
          ⟨hName, .inl hInputs, by rw [hOutput]; rfl, hBlock⟩, by simp [Named, hInputs]⟩
      · refine ⟨⟨hBare, hLifetimes⟩, ⟨hName, hInputs, hTy, hBlock⟩, ?_⟩
        rcases hInputs with h | ⟨m, h⟩
        · simp [Named, h]
        · exact named_of_receiver h
  | updater =>
    rw [arm_updater_iff hFirst]
    constructor
    · rintro ⟨⟨hBare, hLifetimes⟩, hBlock, params, hInputs, hNamed⟩
      by_cases hStray : f.sig.generics ≠ [] ∨ (∃ p ∈ params, p.isPlain = false) ∨
          ¬ (f.sig.output = .default ∨ f.sig.output.isCommand = true)
      · exact .inr ⟨hBare, hLifetimes, params, hInputs, hNamed, hBlock, hStray⟩
      · simp only [not_or, not_not, not_exists, not_and, Bool.not_eq_false] at hStray
        exact .inl ⟨hBare, hStray.1, ⟨params, hInputs, hStray.2.1⟩,
          or_iff_not_imp_left.mpr hStray.2.2, hBlock⟩
    · rintro (⟨hBare, hGenerics, ⟨params, hInputs, hPlain⟩, -, hBlock⟩ |
        ⟨hBare, hLifetimes, params, hInputs, hNamed, hBlock, -⟩)
      · exact ⟨⟨hBare, noLifetimes_of_nil hGenerics⟩, hBlock, params, hInputs,
          fun p hp => FnArg.isNamed_of_isPlain (hPlain p hp)⟩
      · exact ⟨⟨hBare, hLifetimes⟩, hBlock, params, hInputs, hNamed⟩
  | getter =>
    rw [arm_getter_iff hFirst]
    constructor
    · rintro ⟨⟨hBare, hLifetimes⟩, ⟨hInputs, hTy, hBlock⟩, -⟩
      by_cases hGenerics : f.sig.generics = []
      · exact .inl ⟨hBare, hGenerics, hInputs, hTy, hBlock⟩
      · exact .inr ⟨hBare, hLifetimes, hInputs, hTy, hBlock, hGenerics⟩
    · rintro (⟨hBare, hGenerics, hInputs, hTy, hBlock⟩ |
        ⟨hBare, hLifetimes, hInputs, hTy, hBlock, -⟩)
      · exact ⟨⟨hBare, noLifetimes_of_nil hGenerics⟩, ⟨hInputs, hTy, hBlock⟩,
          named_of_receiver hInputs⟩
      · exact ⟨⟨hBare, hLifetimes⟩, ⟨hInputs, hTy, hBlock⟩, named_of_receiver hInputs⟩

theorem not_stray_of_documented (h : f.Documented s) : ¬ f.Stray s := by
  intro hStray
  cases s with
  | new =>
    obtain ⟨-, hGenerics, -, hInputs, hOutput, -⟩ := h
    obtain ⟨-, -, -, -, -, -, hBeyond⟩ := hStray
    simp [hGenerics, hInputs, hOutput] at hBeyond
  | updater =>
    obtain ⟨-, hGenerics, ⟨params, hInputs, hPlain⟩, hOutput, -⟩ := h
    obtain ⟨-, -, params', hInputs', -, -, hBeyond⟩ := hStray
    rw [hInputs] at hInputs'
    cases hInputs'
    rcases hBeyond with hBeyond | ⟨p, hp, hBeyond⟩ | hBeyond
    · exact hBeyond hGenerics
    · simp [hPlain p hp] at hBeyond
    · exact hBeyond hOutput
  | getter =>
    obtain ⟨-, hGenerics, -⟩ := h
    obtain ⟨-, -, -, -, -, hBeyond⟩ := hStray
    exact hBeyond hGenerics

/-- The block and the parameters tell the documented shapes apart. -/
theorem documented_eq (h : f.Documented s) :
    s = if f.block.isSome then .updater else if f.sig.inputs.isEmpty then .new else .getter := by
  cases s with
  | new => simp [h.2.2.2.1, h.2.2.2.2.2]
  | updater => simp [h.2.2.2.2]
  | getter => simp [h.2.2.1, h.2.2.2.2]

theorem documented_unique (h : f.Documented s) (h' : f.Documented s') : s = s' :=
  (documented_eq h).trans (documented_eq h').symm

end MaybeStubFn

section Law

/-- A toolchain for the names below, which are identifiers in any case. -/
def shapeTools : Toolchain where
  thisCrate := some ["emyu"]
  fromAttributes := fun _ => .ok ⟨none, none, none⟩
  pascal := String.capitalize
  isIdent := fun _ => true

/-- `fn reset<generics>(&mut self) { self.value = 0; }`. -/
def mutatingFn (generics : List GenericParam) : MaybeStubFn :=
  ⟨[], [], ⟨false, false, false, none, "reset", generics, [.receiver true true], false, .default⟩,
    some ["{ self.value = 0; }"]⟩

variable {T : Toolchain} {crate_ : TokenStream} {frb : Bool} {f : MaybeStubFn}

/-- What the first pass makes of a function, by the validator, the arm, the attribute and the
parameters. -/
theorem ParsedFnFirstPass.parse_shape_iff (hFirst : f.sig.ReceiverFirst) {s : FnShape} :
    (∃ p, ParsedFnFirstPass.parse T crate_ frb f = .ok p ∧ p.kind.shape = s) ↔
      (f.Documented s ∨ f.Stray s) ∧ f.AttrsOk T crate_ frb s := by
  rw [← MaybeStubFn.taken_iff hFirst]
  constructor
  · rintro ⟨p, h, hShape⟩
    obtain ⟨args, hArgs, h⟩ := bind_ok h
    obtain ⟨kind, hKind, h⟩ := bind_ok h
    obtain ⟨fnArgs, hFnArgs, h⟩ := bind_ok h
    cases h
    have hMap : (FnKind.analyze T f args crate_ frb).map FnKind.shape = .ok s := by
      rw [hKind, ← hShape]
      rfl
    obtain ⟨hValid, hArm, hOk⟩ := (FnKind.analyze_shape_iff s).mp hMap
    exact ⟨⟨hValid, hArm, (collect_fnArgs_iff _).mp ⟨fnArgs, hFnArgs⟩⟩, args, hArgs, hOk⟩
  · rintro ⟨⟨hValid, hArm, hNamed⟩, args, hArgs, hOk⟩
    obtain ⟨kind, hKind, hShape⟩ :=
      map_ok ((FnKind.analyze_shape_iff s).mpr ⟨hValid, hArm, hOk⟩)
    obtain ⟨fnArgs, hFnArgs⟩ := (collect_fnArgs_iff _).mpr hNamed
    refine ⟨⟨f.vis, fnArgs.reduceOption, kind⟩, ?_, hShape⟩
    rw [ParsedFnFirstPass.parse, hArgs]
    simp only [bind, Except.bind, hKind, hFnArgs, pure, Except.pure]

/-- The parser takes the function exactly if it has one of the documented shapes, and for that
shape, of which there is one. -/
structure ShapeLaw (T : Toolchain) (crate_ : TokenStream) (frb : Bool) (f : MaybeStubFn) :
    Prop where
  documented : ∀ p, ParsedFnFirstPass.parse T crate_ frb f = .ok p → f.Documented p.kind.shape
  parsed : ∀ s, f.Documented s →
    ∃ p, ParsedFnFirstPass.parse T crate_ frb f = .ok p ∧ p.kind.shape = s
  exclusive : ∀ s s', f.Documented s → f.Documented s' → s = s'

/-- The law holds of a function exactly if its attribute is accepted whenever its shape is
documented, and refused whenever its shape is taken without being documented. -/
theorem shapeLaw_iff (hFirst : f.sig.ReceiverFirst) :
    ShapeLaw T crate_ frb f ↔ (∀ s, f.Documented s → f.AttrsOk T crate_ frb s) ∧
      ∀ s, f.Stray s → ¬ f.AttrsOk T crate_ frb s := by
  constructor
  · intro hLaw
    refine ⟨fun s hs => ?_, fun s hs hOk => ?_⟩
    · exact ((ParsedFnFirstPass.parse_shape_iff hFirst).mp (hLaw.parsed s hs)).2
    · obtain ⟨p, hp, rfl⟩ := (ParsedFnFirstPass.parse_shape_iff hFirst).mpr ⟨.inr hs, hOk⟩
      exact MaybeStubFn.not_stray_of_documented (hLaw.documented p hp) hs
  · rintro ⟨hDocumented, hStray⟩
    refine ⟨fun p hp => ?_, fun s hs => ?_, fun s s' => MaybeStubFn.documented_unique⟩
    · obtain ⟨hTaken, hOk⟩ := (ParsedFnFirstPass.parse_shape_iff hFirst).mp ⟨p, hp, rfl⟩
      exact hTaken.resolve_right fun hs => hStray _ hs hOk
    · exact (ParsedFnFirstPass.parse_shape_iff hFirst).mpr ⟨.inl hs, hDocumented s hs⟩

/-- `fn reset(&mut self) { .. }` has a documented shape and an acceptable attribute. -/
theorem shapeLaw_iff_reset : ShapeLaw shapeTools ["emyu"] false (mutatingFn []) := by
  have hFirst : (mutatingFn []).sig.ReceiverFirst := by
    intro arg hArg
    cases hArg
  refine (shapeLaw_iff hFirst).mpr ⟨fun s hs => ?_, fun s hs => ?_⟩
  · cases s with
    | new => cases hs.2.2.2.2.2
    | updater => exact ⟨_, rfl, rfl⟩
    | getter => cases hs.2.2.2.2
  · cases s with
    | new => cases hs.2.2.2.2.2.1
    | updater =>
      obtain ⟨-, -, params, hInputs, -, -, hBeyond⟩ := hs
      cases hInputs
      rcases hBeyond with hBeyond | ⟨p, hp, -⟩ | hBeyond
      · exact absurd rfl hBeyond
      · cases hp
      · exact absurd (.inl rfl) hBeyond
    | getter => cases hs.2.2.2.2.1

/-- `fn reset<T>(&mut self) { .. }` is taken for an updater. -/
theorem generic_updater_taken : ¬ ∀ f : MaybeStubFn, f.sig.ReceiverFirst →
    ShapeLaw shapeTools ["emyu"] false f := by
  intro hAll
  have hLaw := hAll (mutatingFn [.type "T"]) fun arg hArg => by cases hArg
  have hParse : ParsedFnFirstPass.parse shapeTools ["emyu"] false (mutatingFn [.type "T"]) =
    .ok _ := rfl
  obtain ⟨-, hGenerics, -⟩ := hLaw.documented _ hParse
  cases hGenerics

end Law

end Emyu.Macro
