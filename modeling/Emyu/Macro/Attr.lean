import Emyu.Macro.Syntax
import Mathlib.Data.List.Forall2

/-! The attributes of `#[emyu::model]`: what darling hands over, what is checked of it, and what the
expansion is told. -/

namespace Emyu.Macro

/-- How an expansion fails: with a compile error, or by a panic of the procedure itself. -/
inductive Failure where
  | error (message : String)
  | panicked (message : String)
  deriving DecidableEq, Repr

/-- `iter.map(f).collect::<Result<Vec<_>, _>>()`. -/
def collect {α β : Type} (f : α → Except Failure β) : List α → Except Failure (List β)
  | [] => .ok []
  | a :: rest => do
    let b ← f a
    let bs ← collect f rest
    pure (b :: bs)

theorem bind_ok {α β : Type} {x : Except Failure α} {f : α → Except Failure β} {b : β}
    (h : x >>= f = .ok b) : ∃ a, x = .ok a ∧ f a = .ok b := by
  cases x with
  | error e => cases h
  | ok a => exact ⟨a, rfl, h⟩

theorem collect_ok {α β : Type} {f : α → Except Failure β} {l : List α} {bs : List β}
    (h : collect f l = .ok bs) : List.Forall₂ (fun a b => f a = .ok b) l bs := by
  induction l generalizing bs with
  | nil =>
    cases h
    exact .nil
  | cons a rest ih =>
    obtain ⟨b, hb, h⟩ := bind_ok h
    obtain ⟨tail, ht, h⟩ := bind_ok h
    cases h
    exact .cons hb (ih ht)

structure NameConfig where
  updater : Option Ident
  getter : Option Ident

structure InnerMetaConfig where
  updater : List Meta
  getter : List Meta

structure MetaConfig where
  base : List Meta
  updater : List Meta
  getter : List Meta
  message : List Meta
  fns : List Meta
  inner : Option InnerMetaConfig

/-- `raw::MethodArgs`. -/
structure MethodArgs where
  name : Option NameConfig
  message : Option Ident
  metas : Option MetaConfig

structure MessageConfig where
  name : Option Ident
  metas : List Meta

structure DispatcherConfig where
  name : Option NameConfig
  metas : Option MetaConfig

inductive DispatcherDef where
  | default
  | config (args : DispatcherConfig)

def DispatcherDef.intoConfig : DispatcherDef → DispatcherConfig
  | .default => ⟨none, none⟩
  | .config args => args

/-- `raw::ModelArgs`. -/
structure RawModelArgs where
  forApp : Ident
  message : MessageConfig
  dispatcher : Option DispatcherDef
  flutterRustBridge : Bool

/-- What the expansion takes from other crates: `proc_macro_crate`, darling's derived parser,
`convert_case`, and the identifiers that `Ident::new` accepts. -/
structure Toolchain where
  thisCrate : Option TokenStream
  fromAttributes : List Attribute → Except Failure MethodArgs
  pascal : String → String
  isIdent : String → Bool

/-- `Ident::new` and `format_ident!`. -/
def Toolchain.ident (T : Toolchain) (name : String) : Except Failure Ident :=
  if T.isIdent name then .ok name else .error (.panicked (name ++ " is not a valid Ident"))

def invalidPositionError (expr : String) : Failure :=
  .error ("`" ++ expr ++ "` is not valid in this position")

/-- `ProcessedMetaRef::process`. -/
def process : Meta → Except Failure TokenStream
  | .list _ tokens => .ok tokens
  | _ => .error (.panicked "should always be a `MetaList`")

namespace MetaConfig

def fieldWith (m : MetaConfig) (f : MetaConfig → List Meta) : Except Failure (List TokenStream) :=
  collect process (m.base ++ f m)

def fnsMetas (m : MetaConfig) : Except Failure (List TokenStream) := m.fieldWith MetaConfig.fns

def messageMetas (m : MetaConfig) : Except Failure (List TokenStream) :=
  m.fieldWith MetaConfig.message

end MetaConfig

/-- The two implementations of `trait With`. -/
inductive With where
  | updater
  | getter

namespace With

def suffix : With → String
  | .updater => "Updater"
  | .getter => "Getter"

def name : With → NameConfig → Option Ident
  | .updater => NameConfig.updater
  | .getter => NameConfig.getter

def metas : With → MetaConfig → List Meta
  | .updater => MetaConfig.updater
  | .getter => MetaConfig.getter

def innerMetas : With → InnerMetaConfig → List Meta
  | .updater => InnerMetaConfig.updater
  | .getter => InnerMetaConfig.getter

def outerMetaOwned (W : With) : Option MetaConfig → Except Failure (List TokenStream)
  | none => .ok []
  | some m => m.fieldWith W.metas

def innerMetaOwned (W : With) : Option MetaConfig → Except Failure (List TokenStream)
  | some { inner := some inner, .. } => collect process (W.innerMetas inner)
  | _ => .ok []

def fnMetaOwned (W : With) : Option MetaConfig → Except Failure (List TokenStream)
  | none => .ok []
  | some m => do pure ((← m.fnsMetas) ++ (← collect process (W.metas m)))

end With

/-- `utils::frb`. -/
def frb (tokens crate_ : TokenStream) : TokenStream :=
  crate_ ++ ["::", "__macros", "::", "flutter_rust_bridge", "::", "frb", "("] ++ tokens ++ [")"]

def frbSync : TokenStream → TokenStream := frb ["sync"]

def frbOpaque : TokenStream → TokenStream := frb ["opaque"]

def frbSyncGetter : TokenStream → TokenStream := frb ["sync", ",", "getter"]

def includeIfFrb (metas : List TokenStream) (extra : TokenStream) (flutterRustBridge : Bool) :
    List TokenStream :=
  if flutterRustBridge then metas ++ [extra] else metas

/-- `strip_suffix("Model")`, or the name itself. -/
def stripModel (modelName : String) : String :=
  if "Model".toList.isSuffixOf modelName.toList then
    String.ofList (modelName.toList.take (modelName.length - "Model".length))
  else modelName

def resolveNameForModel (T : Toolchain) (W : With) (config : Option NameConfig)
    (modelName : Ident) : Except Failure Ident :=
  match config.bind W.name with
  | some name => .ok name
  | none => T.ident (stripModel modelName ++ W.suffix)

def resolveNameForMessage (T : Toolchain) (args : MethodArgs) (fnName : Ident) :
    Except Failure Ident :=
  match args.message with
  | some name => .ok name
  | none => T.ident (T.pascal fnName)

structure ModelProperties where
  name : Ident
  outerMeta : List TokenStream
  innerMeta : List TokenStream

def ModelProperties.fromConfig (T : Toolchain) (W : With) (config : DispatcherConfig)
    (modelName : Ident) (crate_ : TokenStream) (flutterRustBridge : Bool) :
    Except Failure ModelProperties := do
  let name ← resolveNameForModel T W config.name modelName
  let outerMeta ← W.outerMetaOwned config.metas
  let innerMeta ← W.innerMetaOwned config.metas
  pure ⟨name, includeIfFrb outerMeta (frbOpaque crate_) flutterRustBridge, innerMeta⟩

structure MessageEnumProperties where
  name : Ident
  outerMeta : List TokenStream

def MessageEnumProperties.resolveName (T : Toolchain) (config : MessageConfig)
    (modelName : Ident) : Except Failure Ident :=
  match config.name with
  | some name => .ok name
  | none => T.ident (stripModel modelName ++ "Message")

def MessageEnumProperties.fromConfig (T : Toolchain) (config : MessageConfig) (modelName : Ident)
    (crate_ : TokenStream) (flutterRustBridge : Bool) : Except Failure MessageEnumProperties := do
  let name ← resolveName T config modelName
  let outerMeta ← collect process config.metas
  pure ⟨name, includeIfFrb outerMeta (frbOpaque crate_) flutterRustBridge⟩

structure ModelArgs where
  message : MessageEnumProperties
  updater : ModelProperties
  getter : ModelProperties
  forApp : Ident

namespace ModelArgs

def validate (config : DispatcherConfig) : Except Failure Unit :=
  match config.metas with
  | none => .ok ()
  | some m =>
    if !m.message.isEmpty then
      .error (invalidPositionError "#[emyu::dispatcher(meta(message(...)))]")
    else if !m.fns.isEmpty then
      .error (invalidPositionError "#[emyu::dispatcher(meta(fns(...)))]")
    else .ok ()

def config (raw : RawModelArgs) : Except Failure DispatcherConfig :=
  match raw.dispatcher with
  | some dispatcher => .ok dispatcher.intoConfig
  | none => .error (.error "`dispatcher` is required")

def parse (T : Toolchain) (raw : RawModelArgs) (modelName : Ident) (crate_ : TokenStream) :
    Except Failure ModelArgs := do
  let config ← config raw
  let message ← MessageEnumProperties.fromConfig T raw.message modelName crate_
    raw.flutterRustBridge
  validate config
  let updater ← ModelProperties.fromConfig T .updater config modelName crate_ raw.flutterRustBridge
  let getter ← ModelProperties.fromConfig T .getter config modelName crate_ raw.flutterRustBridge
  pure ⟨message, updater, getter, raw.forApp⟩

end ModelArgs

structure NewMethodArgs where
  updaterMeta : List TokenStream
  getterMeta : List TokenStream

namespace NewMethodArgs

def validate (raw : MethodArgs) : Except Failure Unit :=
  if raw.name.isSome then .error (invalidPositionError "#[emyu(name(...))]") else .ok ()

def parse (raw : MethodArgs) (crate_ : TokenStream) (flutterRustBridge : Bool) :
    Except Failure NewMethodArgs := do
  validate raw
  let updaterMeta ← With.outerMetaOwned .updater raw.metas
  let getterMeta ← With.outerMetaOwned .getter raw.metas
  pure ⟨includeIfFrb updaterMeta (frbSync crate_) flutterRustBridge,
    includeIfFrb getterMeta (frbSync crate_) flutterRustBridge⟩

end NewMethodArgs

structure MessageProperties where
  name : Ident
  outerMeta : List TokenStream

def MessageProperties.metas : Option MetaConfig → Except Failure (List TokenStream)
  | some m => m.messageMetas
  | none => .ok []

def MessageProperties.parse (T : Toolchain) (raw : MethodArgs) (fnName : Ident) :
    Except Failure MessageProperties := do
  let name ← resolveNameForMessage T raw fnName
  let outerMeta ← metas raw.metas
  pure ⟨name, outerMeta⟩

structure UpdaterGetterMethodArgs where
  message : MessageProperties
  fnName : Ident
  fnMeta : List TokenStream

namespace UpdaterGetterMethodArgs

/-- `parse`, where only getters get the `frb` attribute. -/
def parse (T : Toolchain) (W : With) (raw : MethodArgs) (fnName : Ident) (crate_ : TokenStream)
    (flutterRustBridge : Bool) : Except Failure UpdaterGetterMethodArgs := do
  let message ← MessageProperties.parse T raw fnName
  let fnMeta ← W.fnMetaOwned raw.metas
  let isGetter := match W with
    | .getter => true
    | .updater => false
  pure ⟨message, fnName, includeIfFrb fnMeta (frbSyncGetter crate_) (flutterRustBridge && isGetter)⟩

def validate (raw : MethodArgs) : Except Failure Unit :=
  match raw.name with
  | some { updater := some _, .. } =>
    .error (invalidPositionError "#[emyu(name(updater = \"...\"))]")
  | some { getter := some _, .. } =>
    .error (invalidPositionError "#[emyu(name(getter = \"...\"))]")
  | _ =>
    match raw.metas with
    | some { inner := some _, .. } => .error (invalidPositionError "#[emyu(meta(inner(...)))]")
    | _ => .ok ()

def validateUpdater (raw : MethodArgs) : Except Failure Unit := do
  validate raw
  match raw.metas with
  | some m =>
    if m.getter.isEmpty then .ok () else .error (invalidPositionError "#[emyu(meta(getter(...)))]")
  | none => .ok ()

def validateGetter (raw : MethodArgs) : Except Failure Unit := do
  validate raw
  match raw.metas with
  | some m =>
    if m.updater.isEmpty then .ok ()
    else .error (invalidPositionError "#[emyu(meta(updater(...)))]")
  | none => .ok ()

def parseUpdater (T : Toolchain) (raw : MethodArgs) (fnName : Ident) (crate_ : TokenStream)
    (flutterRustBridge : Bool) : Except Failure UpdaterGetterMethodArgs := do
  validateUpdater raw
  parse T .updater raw fnName crate_ flutterRustBridge

def parseGetter (T : Toolchain) (raw : MethodArgs) (fnName : Ident) (crate_ : TokenStream)
    (flutterRustBridge : Bool) : Except Failure UpdaterGetterMethodArgs := do
  validateGetter raw
  parse T .getter raw fnName crate_ flutterRustBridge

end UpdaterGetterMethodArgs

end Emyu.Macro
