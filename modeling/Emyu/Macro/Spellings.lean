import Emyu.Lib.Options
import Emyu.Macro.Names

/-! The options of `#[emyu::model(..)]`: how darling reads them into `raw::ModelArgs`, and whether
the spellings that are documented for one option mean the same. -/

namespace Emyu.Macro

open Options

/-- `darling::ast::NestedMeta`. -/
inductive NestedMeta where
  | meta_ (item : Meta)
  | lit (tokens : TokenStream)

/-- `path_to_string` of the path. -/
def Meta.name : Meta → String
  | .path segments => String.join segments
  | .list segments _ => String.join segments
  | .nameValue segments _ => String.join segments

def NestedMeta.name? : NestedMeta → Option String
  | .meta_ item => some item.name
  | .lit _ => none

/-- What `darling::FromMeta` has of methods that are derived or written here. -/
structure FromMeta (α : Type) where
  fromWord : Except Failure α
  fromList : List NestedMeta → Except Failure α
  fromString : String → Except Failure α

abbrev OptionField (α : Type) := Options.Field Failure NestedMeta α

/-- What the options take of darling. `strValue` is the value of a string literal, `isIdent` what
`syn::Ident` parses, and `derive` is `#[derive(FromMeta)]` for a struct with these defaults. -/
structure Darling where
  parseMetaList : TokenStream → Except Failure (List NestedMeta)
  strValue : TokenStream → Option String
  isIdent : String → Bool
  ident : Meta → Except Failure Ident
  bool : Meta → Except Failure Bool
  unsupportedFormat : String → Failure
  fromMeta : {α : Type} → FromMeta α → Meta → Except Failure α
  derive : {α : Type} → α → List (OptionField α) → FromMeta α

/-- A string literal. -/
def quoted (s : String) : String := "\"" ++ s ++ "\""

/-- `from_meta` calls the method of the form it is given, and a derived struct takes lists of
options and no strings. -/
structure Darling.Documented (D : Darling) : Prop where
  empty : D.parseMetaList [] = .ok []
  name : ∀ name, D.isIdent name = true →
    D.parseMetaList ["name", "=", quoted name] = .ok [.meta_ (.nameValue ["name"] [quoted name])]
  str : ∀ name, D.isIdent name = true → D.strValue [quoted name] = some name
  ident : ∀ name path, D.isIdent name = true → D.ident (.nameValue path [quoted name]) = .ok name
  word : ∀ {α : Type} (F : FromMeta α) path a,
    D.fromMeta F (.path path) = .ok a ↔ F.fromWord = .ok a
  list : ∀ {α : Type} (F : FromMeta α) path tokens a, D.fromMeta F (.list path tokens) = .ok a ↔
    ∃ options, D.parseMetaList tokens = .ok options ∧ F.fromList options = .ok a
  string : ∀ {α : Type} (F : FromMeta α) path value s a, D.strValue value = some s →
    (D.fromMeta F (.nameValue path value) = .ok a ↔ F.fromString s = .ok a)
  derivedString : ∀ {α : Type} (init : α) fields s a,
    (D.derive init fields).fromString s ≠ .ok a
  derivedList : ∀ {α : Type} (init : α) fields options a,
    (D.derive init fields).fromList options = .ok a ↔
      Reads NestedMeta.name? fields init options a

/-- The option, parsed as the type of the field. -/
def taking {α β : Type} (parse : Meta → Except Failure β) (set : β → α → α) :
    NestedMeta → α → Except Failure α
  | .meta_ item, a => (parse item).map (set · a)
  | .lit _, _ => .error (.error "Unsupported literal")

section Fields

variable (D : Darling)

def NameConfig.fields : List (OptionField NameConfig) :=
  [⟨"updater", false, false, taking D.ident fun name a => { a with updater := some name }⟩,
    ⟨"getter", false, false, taking D.ident fun name a => { a with getter := some name }⟩]

def NameConfig.fromMeta : FromMeta NameConfig := D.derive ⟨none, none⟩ (NameConfig.fields D)

def InnerMetaConfig.fields : List (OptionField InnerMetaConfig) :=
  [⟨"updater", true, false, taking .ok fun item a => { a with updater := a.updater ++ [item] }⟩,
    ⟨"getter", true, false, taking .ok fun item a => { a with getter := a.getter ++ [item] }⟩]

def InnerMetaConfig.fromMeta : FromMeta InnerMetaConfig := D.derive ⟨[], []⟩ InnerMetaConfig.fields

def MetaConfig.fields : List (OptionField MetaConfig) :=
  [⟨"base", true, false, taking .ok fun item a => { a with base := a.base ++ [item] }⟩,
    ⟨"updater", true, false, taking .ok fun item a => { a with updater := a.updater ++ [item] }⟩,
    ⟨"getter", true, false, taking .ok fun item a => { a with getter := a.getter ++ [item] }⟩,
    ⟨"message", true, false, taking .ok fun item a => { a with message := a.message ++ [item] }⟩,
    ⟨"fns", true, false, taking .ok fun item a => { a with fns := a.fns ++ [item] }⟩,
    ⟨"inner", false, false, taking (D.fromMeta (InnerMetaConfig.fromMeta D)) fun inner a =>
      { a with inner := some inner }⟩]

def MetaConfig.fromMeta : FromMeta MetaConfig :=
  D.derive ⟨[], [], [], [], [], none⟩ (MetaConfig.fields D)

def MessageConfig.fields : List (OptionField MessageConfig) :=
  [⟨"name", false, false, taking D.ident fun name a => { a with name := some name }⟩,
    ⟨"meta", true, false, taking .ok fun item a => { a with metas := a.metas ++ [item] }⟩]

def MessageConfig.fromMeta : FromMeta MessageConfig :=
  D.derive ⟨none, []⟩ (MessageConfig.fields D)

def DispatcherConfig.fields : List (OptionField DispatcherConfig) :=
  [⟨"name", false, false, taking (D.fromMeta (NameConfig.fromMeta D)) fun name a =>
      { a with name := some name }⟩,
    ⟨"meta", false, false, taking (D.fromMeta (MetaConfig.fromMeta D)) fun metas a =>
      { a with metas := some metas }⟩]

def DispatcherConfig.fromMeta : FromMeta DispatcherConfig :=
  D.derive ⟨none, none⟩ (DispatcherConfig.fields D)

/-- `dispatcher` and `dispatcher(..)`. -/
def DispatcherDef.fromMeta : FromMeta DispatcherDef where
  fromWord := .ok .default
  fromList options := ((DispatcherConfig.fromMeta D).fromList options).map .config
  fromString _ := .error (D.unsupportedFormat "string")

namespace RawModelArgs

def forAppField : OptionField RawModelArgs :=
  ⟨"for_app", false, true, taking D.ident fun forApp a => { a with forApp := forApp }⟩

def messageField : OptionField RawModelArgs :=
  ⟨"message", false, false, taking (D.fromMeta (MessageConfig.fromMeta D)) fun message a =>
    { a with message := message }⟩

def dispatcherField : OptionField RawModelArgs :=
  ⟨"dispatcher", false, false, taking (D.fromMeta (DispatcherDef.fromMeta D)) fun dispatcher a =>
    { a with dispatcher := some dispatcher }⟩

def frbField : OptionField RawModelArgs :=
  ⟨"frb", false, false, taking D.bool fun frb a => { a with flutterRustBridge := frb }⟩

/-- The fields, where `frb` is there with the feature `frb-compat`. -/
def fields (frbCompat : Bool) : List (OptionField RawModelArgs) :=
  [forAppField D, messageField D, dispatcherField D] ++ if frbCompat then [frbField D] else []

/-- The name of the application is required, so that the empty one is never left. -/
def initial : RawModelArgs := ⟨"", ⟨none, []⟩, none, false⟩

def fromMeta (frbCompat : Bool) : FromMeta RawModelArgs := D.derive initial (fields D frbCompat)

end RawModelArgs

/-- `#[emyu::model(options)]` on the block. -/
def expand (T : Toolchain) (frbCompat : Bool) (item : InterfaceImpl) (options : List NestedMeta) :
    Except Failure Expansion := do
  let raw ← (RawModelArgs.fromMeta D frbCompat).fromList options
  build T item raw

end Fields

/-- `raw::MessageDef`, which no field has the type of. -/
inductive MessageDef where
  | named (name : Ident)
  | config (args : MessageConfig)

def MessageDef.intoConfig : MessageDef → MessageConfig
  | .named name => ⟨some name, []⟩
  | .config args => args

/-- `message = ".."` and `message(..)`. -/
def MessageDef.fromMeta (T : Toolchain) (D : Darling) : FromMeta MessageDef where
  fromWord := .error (D.unsupportedFormat "word")
  fromList options := ((MessageConfig.fromMeta D).fromList options).map .config
  fromString value := (T.ident value).map .named

/-! ### The spellings -/

/-- `message = "name"`. -/
def messageString (name : Ident) : Meta := .nameValue ["message"] [quoted name]

/-- `message(name = "name")`. -/
def messageList (name : Ident) : Meta := .list ["message"] ["name", "=", quoted name]

/-- `dispatcher`. -/
def dispatcherWord : Meta := .path ["dispatcher"]

/-- `dispatcher()`. -/
def dispatcherList : Meta := .list ["dispatcher"] []

/-- The one is accepted if the other is, with the same expansion. -/
def Agree (x y : Except Failure Expansion) : Prop := ∀ z, x = .ok z ↔ y = .ok z

/-- Between any other options, both spellings of the name of the message enum agree, and so do both
spellings of the default dispatcher. -/
structure SpellingsAgree (D : Darling) (T : Toolchain) (frbCompat : Bool) (item : InterfaceImpl)
    (pre post : List NestedMeta) (name : Ident) : Prop where
  message : Agree (expand D T frbCompat item (pre ++ .meta_ (messageString name) :: post))
    (expand D T frbCompat item (pre ++ .meta_ (messageList name) :: post))
  dispatcher : Agree (expand D T frbCompat item (pre ++ .meta_ dispatcherWord :: post))
    (expand D T frbCompat item (pre ++ .meta_ dispatcherList :: post))

/-! ### Reading the options -/

section Options

variable {D : Darling} {T : Toolchain} {frbCompat : Bool} {item : InterfaceImpl}
  {pre post options : List NestedMeta} {x : Expansion}

theorem taking_keeps {α β : Type} {name : String} {multiple required : Bool}
    {parse : Meta → Except Failure β} {store : β → α → α} {set : α → α}
    (h : ∀ v a, store v (set a) = set (store v a)) :
    (⟨name, multiple, required, taking parse store⟩ : OptionField α).Keeps set := by
  intro option a
  cases option with
  | lit tokens => rfl
  | meta_ option =>
    dsimp only [taking]
    cases parse option with
    | error e => rfl
    | ok v => exact congrArg some (h v a)

theorem RawModelArgs.fields_cases {f : OptionField RawModelArgs} (h : f ∈ fields D frbCompat) :
    f = forAppField D ∨ f = messageField D ∨ f = dispatcherField D ∨ f = frbField D := by
  rcases List.mem_append.mp h with h | h
  · simp only [List.mem_cons, List.not_mem_nil, or_false] at h
    tauto
  · cases frbCompat with
    | false => cases h
    | true => exact .inr (.inr (.inr (List.mem_singleton.mp h)))

theorem message_kept (message : MessageConfig) : ∀ f ∈ RawModelArgs.fields D frbCompat,
    f.name ≠ "message" → f.Keeps fun raw => { raw with message := message } := by
  intro f hf hName
  rcases RawModelArgs.fields_cases hf with rfl | rfl | rfl | rfl
  · exact taking_keeps fun _ _ => rfl
  · exact (hName rfl).elim
  · exact taking_keeps fun _ _ => rfl
  · exact taking_keeps fun _ _ => rfl

theorem dispatcher_kept (dispatcher : DispatcherDef) : ∀ f ∈ RawModelArgs.fields D frbCompat,
    f.name ≠ "dispatcher" → f.Keeps fun raw => { raw with dispatcher := some dispatcher } := by
  intro f hf hName
  rcases RawModelArgs.fields_cases hf with rfl | rfl | rfl | rfl
  · exact taking_keeps fun _ _ => rfl
  · exact taking_keeps fun _ _ => rfl
  · exact (hName rfl).elim
  · exact taking_keeps fun _ _ => rfl

/-- Only the name of the application is required. -/
theorem fields_optional : ∀ f ∈ RawModelArgs.fields D frbCompat, f.name ≠ "for_app" →
    f.required = false := by
  intro f hf hName
  rcases RawModelArgs.fields_cases hf with rfl | rfl | rfl | rfl
  · exact (hName rfl).elim
  · rfl
  · rfl
  · rfl

theorem expand_eq_ok_iff (hD : D.Documented) : expand D T frbCompat item options = .ok x ↔
    ∃ raw, Reads NestedMeta.name? (RawModelArgs.fields D frbCompat) RawModelArgs.initial options
      raw ∧ build T item raw = .ok x := by
  constructor
  · intro h
    obtain ⟨raw, hRaw, hBuild⟩ := bind_ok h
    exact ⟨raw, (hD.derivedList _ _ _ _).mp hRaw, hBuild⟩
  · rintro ⟨raw, hReads, hBuild⟩
    have hRaw : (RawModelArgs.fromMeta D frbCompat).fromList options = .ok raw :=
      (hD.derivedList _ _ _ _).mpr hReads
    rw [expand, hRaw]
    exact hBuild

/-- A message option with the name alone. -/
theorem fromMeta_messageList (hD : D.Documented) {name : Ident} (hName : D.isIdent name = true) :
    D.fromMeta (MessageConfig.fromMeta D) (messageList name) = .ok ⟨some name, []⟩ := by
  refine (hD.list _ _ _ _).mpr ⟨_, hD.name name hName, (hD.derivedList _ _ _ _).mpr ?_⟩
  have hStore (b : MessageConfig) : (taking D.ident (fun name a => { a with name := some name })
      (.meta_ (.nameValue ["name"] [quoted name])) b).toOption =
        some { b with name := some name } := by
    rw [taking, hD.ident name _ hName]
    rfl
  have hKeeps : ∀ g ∈ MessageConfig.fields D, g.name ≠ "name" →
      g.Keeps fun config => { config with name := some name } := by
    intro g hg hOther
    simp only [MessageConfig.fields, List.mem_cons, List.not_mem_nil, or_false] at hg
    rcases hg with rfl | rfl
    · exact (hOther rfl).elim
    · exact taking_keeps fun _ _ => rfl
  have hOptional : ∀ g ∈ MessageConfig.fields D, g.required = false := by
    intro g hg
    simp only [MessageConfig.fields, List.mem_cons, List.not_mem_nil, or_false] at hg
    rcases hg with rfl | rfl <;> rfl
  have hKey : NestedMeta.name? (.meta_ (.nameValue ["name"] [quoted name])) = some "name" := rfl
  have hField : lookup (MessageConfig.fields D) "name" = some _ := rfl
  have hReads : Reads NestedMeta.name? (MessageConfig.fields D) ⟨none, []⟩
      ([] ++ .meta_ (.nameValue ["name"] [quoted name]) :: []) ⟨some name, []⟩ :=
    (reads_insert hField hKey rfl (fun g hg _ => hOptional g hg) hStore hKeeps).mpr
      ⟨rfl, _, reads_nil hOptional, rfl⟩
  exact hReads

theorem fromMeta_messageString (hD : D.Documented) {name : Ident} (hName : D.isIdent name = true)
    (config : MessageConfig) :
    D.fromMeta (MessageConfig.fromMeta D) (messageString name) ≠ .ok config :=
  fun h => hD.derivedString _ _ _ _ ((hD.string _ _ _ _ _ (hD.str name hName)).mp h)

theorem fromMeta_dispatcherWord (hD : D.Documented) :
    D.fromMeta (DispatcherDef.fromMeta D) dispatcherWord = .ok .default :=
  (hD.word _ _ _).mpr rfl

theorem fromMeta_dispatcherList (hD : D.Documented) :
    D.fromMeta (DispatcherDef.fromMeta D) dispatcherList = .ok (.config ⟨none, none⟩) := by
  have hOptional : ∀ g ∈ DispatcherConfig.fields D, g.required = false := by
    intro g hg
    simp only [DispatcherConfig.fields, List.mem_cons, List.not_mem_nil, or_false] at hg
    rcases hg with rfl | rfl <;> rfl
  have hEmpty : (DispatcherConfig.fromMeta D).fromList [] = .ok ⟨none, none⟩ :=
    (hD.derivedList _ _ _ _).mpr (reads_nil hOptional)
  refine (hD.list _ _ _ _).mpr ⟨[], hD.empty, ?_⟩
  exact congrArg (Except.map DispatcherDef.config) hEmpty

/-- The type that the fields leave out would take both spellings for one configuration. -/
theorem MessageDef.fromMeta_spellings (hD : D.Documented) {name : Ident}
    (hName : D.isIdent name = true) (hIdent : T.isIdent name = true) :
    ∃ d d', D.fromMeta (MessageDef.fromMeta T D) (messageString name) = .ok d ∧
      D.fromMeta (MessageDef.fromMeta T D) (messageList name) = .ok d' ∧
      d.intoConfig = d'.intoConfig := by
  obtain ⟨options, hOptions, hConfig⟩ := (hD.list _ _ _ _).mp (fromMeta_messageList hD hName)
  refine ⟨.named name, .config ⟨some name, []⟩, ?_, ?_, rfl⟩
  · refine (hD.string _ _ _ _ _ (hD.str name hName)).mpr ?_
    simp only [MessageDef.fromMeta, Toolchain.ident, hIdent]
    rfl
  · exact (hD.list _ _ _ _).mpr ⟨options, hOptions, congrArg (Except.map MessageDef.config) hConfig⟩

/-- What an option makes of an expansion without it. -/
theorem expand_insert (hD : D.Documented) {name : String} {f : OptionField RawModelArgs}
    {option : Meta} {set : RawModelArgs → RawModelArgs}
    (hField : lookup (RawModelArgs.fields D frbCompat) name = some f) (hKey : option.name = name)
    (hMultiple : f.multiple = false) (hName : name ≠ "for_app")
    (hStore : ∀ raw, (f.store (.meta_ option) raw).toOption = some (set raw))
    (hKeeps : ∀ g ∈ RawModelArgs.fields D frbCompat, g.name ≠ name → g.Keeps set) :
    expand D T frbCompat item (pre ++ .meta_ option :: post) = .ok x ↔
      named NestedMeta.name? name (pre ++ post) = [] ∧ ∃ raw, Reads NestedMeta.name?
        (RawModelArgs.fields D frbCompat) RawModelArgs.initial (pre ++ post) raw ∧
        build T item (set raw) = .ok x := by
  have hKey' : NestedMeta.name? (.meta_ option) = some name := congrArg some hKey
  have hReads (raw : RawModelArgs) : Reads NestedMeta.name? (RawModelArgs.fields D frbCompat)
      RawModelArgs.initial (pre ++ .meta_ option :: post) raw ↔ _ :=
    reads_insert hField hKey' hMultiple (fun g hg hEq => fields_optional g hg (hEq ▸ hName)) hStore
      hKeeps
  simp only [expand_eq_ok_iff hD, hReads]
  constructor
  · rintro ⟨_, ⟨hNone, raw, hRaw, rfl⟩, hBuild⟩
    exact ⟨hNone, raw, hRaw, hBuild⟩
  · rintro ⟨hNone, raw, hRaw, hBuild⟩
    exact ⟨_, ⟨hNone, raw, hRaw, rfl⟩, hBuild⟩

theorem lookup_message : lookup (RawModelArgs.fields D frbCompat) "message" =
    some (RawModelArgs.messageField D) := rfl

theorem lookup_dispatcher : lookup (RawModelArgs.fields D frbCompat) "dispatcher" =
    some (RawModelArgs.dispatcherField D) := rfl

theorem expand_messageString (hD : D.Documented) {name : Ident} (hName : D.isIdent name = true) :
    expand D T frbCompat item (pre ++ .meta_ (messageString name) :: post) ≠ .ok x := by
  intro h
  obtain ⟨raw, hReads, -⟩ := (expand_eq_ok_iff hD).mp h
  refine not_reads (List.mem_append_right _ List.mem_cons_self) (fun b => ?_) hReads
  have hKey : NestedMeta.name? (.meta_ (messageString name)) = some "message" := rfl
  rw [storeIn, hKey, Option.bind_some, lookup_message, Option.bind_some]
  have hNever := fromMeta_messageString hD hName
  simp only [RawModelArgs.messageField, taking]
  cases hMeta : D.fromMeta (MessageConfig.fromMeta D) (messageString name) with
  | error e => rfl
  | ok config => exact (hNever config hMeta).elim

theorem expand_messageList (hD : D.Documented) {name : Ident} (hName : D.isIdent name = true) :
    expand D T frbCompat item (pre ++ .meta_ (messageList name) :: post) = .ok x ↔
      named NestedMeta.name? "message" (pre ++ post) = [] ∧ ∃ raw, Reads NestedMeta.name?
        (RawModelArgs.fields D frbCompat) RawModelArgs.initial (pre ++ post) raw ∧
        build T item { raw with message := ⟨some name, []⟩ } = .ok x := by
  refine expand_insert hD lookup_message rfl rfl (by decide) (fun raw => ?_) (message_kept _)
  simp only [RawModelArgs.messageField, taking, fromMeta_messageList hD hName]
  rfl

/-- Both spellings of the default dispatcher are the same configuration. -/
theorem agree_dispatcher (hD : D.Documented) :
    Agree (expand D T frbCompat item (pre ++ .meta_ dispatcherWord :: post))
      (expand D T frbCompat item (pre ++ .meta_ dispatcherList :: post)) := by
  have hSpelling {option : Meta} {dispatcher : DispatcherDef} (hKey : option.name = "dispatcher")
      (hMeta : D.fromMeta (DispatcherDef.fromMeta D) option = .ok dispatcher) (x : Expansion) :
      expand D T frbCompat item (pre ++ .meta_ option :: post) = .ok x ↔
        named NestedMeta.name? "dispatcher" (pre ++ post) = [] ∧ ∃ raw, Reads NestedMeta.name?
          (RawModelArgs.fields D frbCompat) RawModelArgs.initial (pre ++ post) raw ∧
          build T item { raw with dispatcher := some dispatcher } = .ok x := by
    refine expand_insert hD lookup_dispatcher hKey rfl (by decide) (fun raw => ?_)
      (dispatcher_kept _)
    simp only [RawModelArgs.dispatcherField, taking, hMeta]
    rfl
  intro x
  rw [hSpelling rfl (fromMeta_dispatcherWord hD), hSpelling rfl (fromMeta_dispatcherList hD)]
  rfl

/-- The message option decides nothing about the rest of the attribute. -/
theorem ModelArgs.parse_message {raw : RawModelArgs} {modelName : Ident} {crate_ : TokenStream}
    {message : MessageConfig} {args : ModelArgs}
    (hMessage : ∃ props, MessageEnumProperties.fromConfig T message modelName crate_
      raw.flutterRustBridge = .ok props)
    (h : ModelArgs.parse T raw modelName crate_ = .ok args) :
    ∃ args, ModelArgs.parse T { raw with message := message } modelName crate_ = .ok args := by
  obtain ⟨props, hProps⟩ := hMessage
  obtain ⟨config, hConfig, h⟩ := bind_ok h
  obtain ⟨_, _, h⟩ := bind_ok h
  obtain ⟨_, hValid, h⟩ := bind_ok h
  obtain ⟨updater, hUpdater, h⟩ := bind_ok h
  obtain ⟨getter, hGetter, -⟩ := bind_ok h
  have hConfig' : ModelArgs.config { raw with message := message } = .ok config := hConfig
  rw [parse, hConfig', ok_bind, hProps, ok_bind, hValid, ok_bind, hUpdater, ok_bind, hGetter]
  exact ⟨_, rfl⟩

/-- A block is accepted with any name of the message enum if it is with one. -/
theorem accepted_message (hT : T.Promised) (hItem : item.Parsed T) (raw : RawModelArgs)
    {message : MessageConfig} (hMetas : message.metas = []) (h : Accepted T item raw) :
    Accepted T item { raw with message := message } := by
  obtain ⟨modelName, crate_, hModel, hCrate, ⟨args, hArgs⟩, hFns⟩ := accepted_iff_parts.mp h
  have hDecides : Decides (MessageEnumProperties.fromConfig T message modelName crate_
      raw.flutterRustBridge) (message.metas.all Meta.isList) :=
    decides_messageEnum hT (hItem.modelName _ hModel) message _
  rw [hMetas] at hDecides
  exact accepted_iff_parts.mpr ⟨modelName, crate_, hModel, hCrate,
    ModelArgs.parse_message hDecides hArgs, hFns⟩

/-- `message(name = "name")` is accepted where no other message option is and the others are. -/
theorem accepted_messageList (hD : D.Documented) (hT : T.Promised) (hItem : item.Parsed T)
    {name : Ident} (hName : D.isIdent name = true) :
    (∃ x, expand D T frbCompat item (pre ++ .meta_ (messageList name) :: post) = .ok x) ↔
      named NestedMeta.name? "message" (pre ++ post) = [] ∧
        ∃ x, expand D T frbCompat item (pre ++ post) = .ok x := by
  constructor
  · rintro ⟨x, hx⟩
    obtain ⟨hNone, raw, hReads, hBuild⟩ := (expand_messageList hD hName).mp hx
    have hRaw : { raw with message := ⟨none, []⟩ } = raw :=
      hReads.set_eq (message_kept _) hNone rfl
    have hDefault : Accepted T item { raw with message := ⟨none, []⟩ } :=
      accepted_message hT hItem { raw with message := ⟨some name, []⟩ } rfl ⟨x, hBuild⟩
    obtain ⟨y, hy⟩ := hRaw ▸ hDefault
    exact ⟨hNone, y, (expand_eq_ok_iff hD).mpr ⟨raw, hReads, hy⟩⟩
  · rintro ⟨hNone, x, hx⟩
    obtain ⟨raw, hReads, hBuild⟩ := (expand_eq_ok_iff hD).mp hx
    have hNamed : Accepted T item { raw with message := ⟨some name, []⟩ } :=
      accepted_message hT hItem raw rfl ⟨x, hBuild⟩
    obtain ⟨y, hy⟩ := hNamed
    exact ⟨y, (expand_messageList hD hName).mpr ⟨hNone, raw, hReads, hy⟩⟩

/-- The spellings agree exactly if the other options give a message option, or are refused
themselves. -/
theorem spellingsAgree_iff (hD : D.Documented) (hT : T.Promised) (hItem : item.Parsed T)
    {name : Ident} (hName : D.isIdent name = true) :
    SpellingsAgree D T frbCompat item pre post name ↔
      (∃ option ∈ pre ++ post, option.name? = some "message") ∨
        ¬ ∃ x, expand D T frbCompat item (pre ++ post) = .ok x := by
  have hList : (∃ x, expand D T frbCompat item (pre ++ .meta_ (messageList name) :: post) = .ok x) ↔
      _ := accepted_messageList hD hT hItem hName
  have hNever (x : Expansion) :
      expand D T frbCompat item (pre ++ .meta_ (messageString name) :: post) ≠ .ok x :=
    expand_messageString hD hName
  constructor
  · intro h
    by_contra hNot
    obtain ⟨hOthers, hAccepted⟩ := not_or.mp hNot
    have hNone : named NestedMeta.name? "message" (pre ++ post) = [] :=
      named_eq_nil_iff.mpr fun option ho hEq => hOthers ⟨option, ho, hEq⟩
    obtain ⟨x, hx⟩ := hList.mpr ⟨hNone, not_not.mp hAccepted⟩
    exact hNever x ((h.message x).mpr hx)
  · intro h
    refine ⟨fun x => iff_of_false (hNever x) fun hx => ?_, agree_dispatcher hD⟩
    obtain ⟨hNone, hAccepted⟩ := hList.mp ⟨x, hx⟩
    rcases h with ⟨option, ho, hEq⟩ | hRefused
    · exact named_eq_nil_iff.mp hNone option ho hEq
    · exact hRefused hAccepted

end Options

section Tally

/-- The text of a literal without escapes. -/
def unquoted (token : String) : Option String :=
  match token.toList with
  | '"' :: rest => if rest.getLast? = some '"' then some (String.ofList rest.dropLast) else none
  | _ => none

/-- darling on options of at most one word or `name = value`. -/
def referenceDarling : Darling where
  parseMetaList := parseMetaList
  strValue := strValue
  isIdent := asciiClasses.ident
  ident
    | .nameValue _ value =>
      match (strValue value).filter asciiClasses.ident with
      | some name => .ok name
      | none => .error (.error "Unknown literal value")
    | _ => .error (.error "Unexpected meta-item format")
  bool
    | .path _ => .ok true
    | _ => .error (.error "Unexpected meta-item format")
  unsupportedFormat format := .error ("Unexpected meta-item format " ++ format)
  fromMeta F
    | .path _ => F.fromWord
    | .list _ tokens => do F.fromList (← parseMetaList tokens)
    | .nameValue _ value =>
      match strValue value with
      | some s => F.fromString s
      | none => .error (.error "Unexpected literal type")
  derive init fields :=
    { fromWord := .error (.error "Unexpected meta-item format word")
      fromList := fun options =>
        match parse NestedMeta.name? fields init options with
        | some a => .ok a
        | none => .error (.error "Unknown, missing or duplicate field")
      fromString := fun _ => .error (.error "Unexpected meta-item format string") }
where
  parseMetaList : TokenStream → Except Failure (List NestedMeta)
    | [] => .ok []
    | [word] => .ok [.meta_ (.path [word])]
    | [name, "=", value] => .ok [.meta_ (.nameValue [name] [value])]
    | _ => .error (.error "unexpected token")
  strValue : TokenStream → Option String
    | [token] => unquoted token
    | _ => none

theorem unquoted_quoted (s : String) : unquoted (quoted s) = some s := by
  have hToList : (quoted s).toList = '"' :: (s.toList ++ ['"']) := by simp [quoted]
  rw [unquoted, hToList]
  simp

theorem referenceDarling_documented : referenceDarling.Documented where
  empty := rfl
  name name _ := rfl
  str name _ := unquoted_quoted name
  ident name path h := by
    have hName : asciiClasses.ident name = true := h
    simp [referenceDarling, referenceDarling.strValue, unquoted_quoted, Option.filter, hName]
  word F path a := Iff.rfl
  list F path tokens a := by
    constructor
    · intro h
      exact bind_ok h
    · rintro ⟨options, hOptions, h⟩
      have hParse : referenceDarling.parseMetaList tokens = .ok options := hOptions
      simp only [referenceDarling]
      rw [hParse]
      exact h
  string F path value s a h := by
    have hStr : referenceDarling.strValue value = some s := h
    simp only [referenceDarling]
    rw [hStr]
  derivedString init fields s a := by
    rintro ⟨⟩
  derivedList init fields options a := by
    rw [← parse_eq_some_iff]
    simp only [referenceDarling]
    cases parse NestedMeta.name? fields init options with
    | none => simp
    | some b => simp

/-- `for_app = "App"`. -/
def forApp : NestedMeta := .meta_ (.nameValue ["for_app"] [quoted "App"])

theorem spellingsAgree_iff_tally : SpellingsAgree referenceDarling snakeTools false
    (tally [] "reset") [forApp, .meta_ (messageList "TallyEvent")] [.meta_ dispatcherWord]
    "TallyMessage" :=
  (spellingsAgree_iff referenceDarling_documented snakeTools_promised tally_parsed rfl).mpr
    (.inl ⟨_, .tail _ (.head _), rfl⟩)

/-- With `for_app` and `dispatcher` the one spelling is accepted and the other refused. -/
theorem message_string_refused : ¬ SpellingsAgree referenceDarling snakeTools false
    (tally [] "reset") [forApp] [.meta_ dispatcherWord] "TallyEvent" := by
  intro h
  have hList : expand referenceDarling snakeTools false (tally [] "reset")
      ([forApp] ++ .meta_ (messageList "TallyEvent") :: [.meta_ dispatcherWord]) = .ok _ := rfl
  have hString := (h.message _).mpr hList
  cases hString

end Tally

end Emyu.Macro
