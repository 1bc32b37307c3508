import Emyu.Lib.Named
import Emyu.Lib.Tokens
import Emyu.Macro.Routing

/-! The attributes of parameters: what the template of a field writes for them, and what syn reads
back from the fields of a variant and from the parameters of the generated functions. -/

namespace Emyu.Macro

open Tokens

def isOpening (token : String) : Bool := token == "(" || token == "[" || token == "\x7b"

def isClosing (token : String) : Bool := token == ")" || token == "]" || token == "\x7d"

/-- What reading fields takes of syn: the tokens of a type and the type that tokens begin with, the
contents of brackets that are a `Meta`, what follows a visibility, and identifiers. -/
structure Syn where
  tyTokens : Ty → TokenStream
  parseTy : TokenStream → Option (Ty × TokenStream)
  isMeta : TokenStream → Bool
  afterVis : TokenStream → Option TokenStream
  isIdent : String → Bool

namespace Syn

variable (S : Syn)

/-- A type that syn has parsed. -/
def IsTy (ty : Ty) : Prop := ∃ ts rest, S.parseTy ts = some (ty, rest)

/-- A type is printed as what it was parsed from, a `Meta` begins with a path, and a visibility that
is not inherited with a keyword. -/
structure Documented : Prop where
  ty : ∀ ty rest, S.IsTy ty → Ends "," rest → S.parseTy (S.tyTokens ty ++ rest) = some (ty, rest)
  pound : ∀ ts, S.isMeta ("#" :: ts) = false
  inherited : ∀ name ts, S.isIdent name = true → S.afterVis (name :: ts) = some (name :: ts)
  ident : S.isIdent "#" = false

/-- `Attribute::parse_outer`. -/
def outerAttributes : TokenStream → Option (List Attribute × TokenStream)
  | "#" :: "[" :: ts =>
    match h : untilClosed isOpening isClosing 0 ts with
    | some (content, rest) =>
      have : rest.length < ts.length := untilClosed_length h
      if S.isMeta content then
        (outerAttributes rest).map (Prod.map (bracketed content :: ·) id)
      else none
    | none => none
  | "#" :: _ => none
  | ts => some ([], ts)
termination_by ts => ts.length

/-- `name: ty`. -/
def typed (attrs : List Attribute) : TokenStream → Option (ParsedFnArg × TokenStream)
  | name :: ":" :: ts =>
    if S.isIdent name then (S.parseTy ts).map (Prod.map (fun ty => ⟨attrs, name, ty⟩) id) else none
  | _ => none

/-- `Field::parse_named`. -/
def parseField (ts : TokenStream) : Option (ParsedFnArg × TokenStream) := do
  let (attrs, ts) ← S.outerAttributes ts
  let ts ← S.afterVis ts
  S.typed attrs ts

/-- `FnArg::parse`, for an argument that is not the receiver. -/
def parseFnArg (ts : TokenStream) : Option (ParsedFnArg × TokenStream) := do
  let (attrs, ts) ← S.outerAttributes ts
  S.typed attrs ts

/-- The contents of the braces of a variant, as `Punctuated::parse_terminated` reads them. -/
def parseFields (ts : TokenStream) : Option (List ParsedFnArg) :=
  terminated "," S.parseField ts.length ts

def parseFnArgs (ts : TokenStream) : Option (List ParsedFnArg) :=
  terminated "," S.parseFnArg ts.length ts

/-- A parameter that syn has parsed. -/
structure IsParam (p : ParsedFnArg) : Prop where
  attrs : ∀ attr ∈ p.attrs, ∃ content, attr = bracketed content ∧
    Balanced isOpening isClosing content ∧ S.isMeta content = true
  name : S.isIdent p.name = true
  ty : S.IsTy p.ty

end Syn

/-- `#(#attrs)* #name: #ty`, with the attributes as given. -/
def Field.tokens (S : Syn) (f : Field) : TokenStream :=
  f.attrs.flatten ++ f.name :: ":" :: S.tyTokens f.ty

/-- `#(#fields),*`. -/
def Variant.fieldTokens (S : Syn) (v : Variant) : TokenStream :=
  separated "," (v.fields.map (Field.tokens S))

def FnParam.tokens (S : Syn) (p : FnParam) : TokenStream := p.name :: ":" :: S.tyTokens p.ty

/-- `#(#fn_args),*`. -/
def FnParam.allTokens (S : Syn) (params : List FnParam) : TokenStream :=
  separated "," (params.map (FnParam.tokens S))

def Field.param (f : Field) : ParsedFnArg := ⟨f.attrs, f.name, f.ty⟩

def ParsedFnArg.bare (p : ParsedFnArg) : ParsedFnArg := { p with attrs := [] }

/-- The variant of an updater has the parameters for fields, and syn reads them back from it; from
the two functions generated for it syn reads the parameters without attributes. -/
structure CarriedOver (S : Syn) (f : MaybeStubFn) (variant : Variant) (modelFn : ModelFn)
    (updaterFn : UpdaterFn) : Prop where
  fields : variant.fields.map Field.param = f.params
  parsed : S.parseFields (variant.fieldTokens S) = some f.params
  modelFn : S.parseFnArgs (FnParam.allTokens S modelFn.args) = some (f.params.map ParsedFnArg.bare)
  updaterFn :
    S.parseFnArgs (FnParam.allTokens S updaterFn.args) = some (f.params.map ParsedFnArg.bare)

section Parse

variable {S : Syn}

theorem Syn.outerAttributes_cons {content : TokenStream} (hMeta : S.isMeta content = true)
    (hBalanced : Balanced isOpening isClosing content) (ts : TokenStream) :
    S.outerAttributes (bracketed content ++ ts) =
      (S.outerAttributes ts).map (Prod.map (bracketed content :: ·) id) := by
  have hTokens : bracketed content ++ ts = "#" :: "[" :: (content ++ "]" :: ts) := by
    simp [bracketed]
  have hClosed : untilClosed isOpening isClosing 0 (content ++ "]" :: ts) = some (content, ts) :=
    untilClosed_group hBalanced rfl rfl
  rw [hTokens, outerAttributes]
  split
  next content' rest hGroup =>
    rw [hClosed] at hGroup
    cases hGroup
    rw [if_pos hMeta]
  next hGroup =>
    rw [hClosed] at hGroup
    cases hGroup

theorem Syn.outerAttributes_nil {name : String} (hName : name ≠ "#") (ts : TokenStream) :
    S.outerAttributes (name :: ts) = some ([], name :: ts) := by
  rw [outerAttributes]
  · rintro _ ⟨⟩
    exact hName rfl
  · rintro _ ⟨⟩
    exact hName rfl

theorem Syn.outerAttributes_append (hS : S.Documented) {p : ParsedFnArg} (hp : S.IsParam p)
    (ts : TokenStream) :
    S.outerAttributes (p.attrs.flatten ++ p.name :: ts) = some (p.attrs, p.name :: ts) := by
  have hName : p.name ≠ "#" := fun hEq => by
    have hIdent := hp.name
    rw [hEq, hS.ident] at hIdent
    cases hIdent
  obtain ⟨hAttrs, -, -⟩ := hp
  obtain ⟨attrs, name, ty⟩ := p
  dsimp only at hAttrs hName ⊢
  induction attrs with
  | nil => exact outerAttributes_nil hName ts
  | cons attr rest ih =>
    obtain ⟨content, rfl, hBalanced, hMeta⟩ := hAttrs attr List.mem_cons_self
    have hRest := ih fun attr h => hAttrs attr (List.mem_cons_of_mem _ h)
    rw [List.flatten_cons, List.append_assoc, outerAttributes_cons hMeta hBalanced, hRest]
    rfl

theorem Syn.typed_append (hS : S.Documented) {p : ParsedFnArg} (hp : S.IsParam p)
    {rest : TokenStream} (hRest : Ends "," rest) :
    S.typed p.attrs (p.name :: ":" :: S.tyTokens p.ty ++ rest) = some (p, rest) := by
  rw [List.cons_append, List.cons_append, typed, if_pos hp.name, hS.ty _ _ hp.ty hRest]
  rfl

/-- Attributes that are written as they are given are read back. -/
theorem Syn.reads_parseField (hS : S.Documented) {p : ParsedFnArg} (hp : S.IsParam p) :
    Reads "," S.parseField (Field.tokens S ⟨p.attrs, p.name, p.ty⟩) p where
  nonempty := by simp [Field.tokens]
  reads rest hRest := by
    have hAttrs := outerAttributes_append hS hp (":" :: S.tyTokens p.ty ++ rest)
    rw [parseField, Field.tokens, List.append_assoc, List.cons_append, hAttrs]
    simp only [Option.bind_eq_bind, Option.bind_some, hS.inherited _ _ hp.name]
    exact typed_append hS hp hRest

theorem Syn.IsParam.bare {p : ParsedFnArg} (hp : S.IsParam p) : S.IsParam p.bare where
  attrs attr h := by cases h
  name := hp.name
  ty := hp.ty

theorem Syn.reads_parseFnArg (hS : S.Documented) {p : ParsedFnArg} (hp : S.IsParam p) :
    Reads "," S.parseFnArg (p.generateFnArg.tokens S) p.bare where
  nonempty := by simp [FnParam.tokens]
  reads rest hRest := by
    have hAttrs := outerAttributes_append hS hp.bare (":" :: S.tyTokens p.ty ++ rest)
    have hTokens : p.generateFnArg.tokens S ++ rest =
        p.bare.attrs.flatten ++ p.bare.name :: (":" :: S.tyTokens p.ty ++ rest) := rfl
    rw [parseFnArg, hTokens, hAttrs]
    exact typed_append hS hp.bare hRest

/-- An attribute in the brackets of another one is not read at all. -/
theorem Syn.refuses_parseField (hS : S.Documented) {p : ParsedFnArg} (hp : S.IsParam p)
    (hAttrs : p.attrs ≠ []) : Refuses S.parseField (p.generateField.tokens S) where
  nonempty := by simp [Field.tokens]
  refuses rest := by
    obtain ⟨attr, more, hEq⟩ := List.exists_cons_of_ne_nil hAttrs
    obtain ⟨content, rfl, -⟩ := hp.attrs attr (hEq ▸ List.mem_cons_self)
    obtain ⟨ts, hTokens⟩ : ∃ ts, p.generateField.tokens S ++ rest = "#" :: "[" :: "#" :: ts := by
      simp [Field.tokens, ParsedFnArg.generateField, hEq, bracketed]
    have hNone : S.outerAttributes ("#" :: "[" :: "#" :: ts) = none := by
      rw [outerAttributes]
      split
      next content rest hGroup =>
        have hMeta : S.isMeta content = false := by
          rcases untilClosed_cons hGroup with ⟨_, more, -, rfl⟩ | ⟨hClosing, -⟩
          · exact hS.pound more
          · cases hClosing
        rw [hMeta]
        rfl
      next => rfl
    rw [parseField, hTokens, hNone]
    rfl

end Parse

section Carried

variable {S : Syn} {params : List ParsedFnArg}

/-- Fields with the attributes of the parameters are the parameters again. -/
theorem Syn.parseFields_verbatim (hS : S.Documented) (hParams : ∀ p ∈ params, S.IsParam p) :
    S.parseFields (separated "," (params.map fun p => Field.tokens S ⟨p.attrs, p.name, p.ty⟩)) =
      some params := by
  have hReads : List.Forall₂ (Reads "," S.parseField)
      (params.map fun p => Field.tokens S ⟨p.attrs, p.name, p.ty⟩) params :=
    List.forall₂_map_left_iff.mpr (List.forall₂_same.mpr fun p hp =>
      reads_parseField hS (hParams p hp))
  refine terminated_separated hReads (length_le_separated fun tokens ht => ?_)
  obtain ⟨p, hp, rfl⟩ := List.mem_map.mp ht
  exact (reads_parseField hS (hParams p hp)).nonempty

theorem Syn.parseFnArgs_generated (hS : S.Documented) (hParams : ∀ p ∈ params, S.IsParam p) :
    S.parseFnArgs (FnParam.allTokens S (params.map ParsedFnArg.generateFnArg)) =
      some (params.map ParsedFnArg.bare) := by
  have hReads : List.Forall₂ (Reads "," S.parseFnArg)
      ((params.map ParsedFnArg.generateFnArg).map (FnParam.tokens S))
      (params.map ParsedFnArg.bare) := by
    rw [List.map_map]
    exact List.forall₂_map_left_iff.mpr (List.forall₂_map_right_iff.mpr
      (List.forall₂_same.mpr fun p hp => reads_parseFnArg hS (hParams p hp)))
  refine terminated_separated hReads (length_le_separated fun tokens ht => ?_)
  obtain ⟨q, hq, rfl⟩ := List.mem_map.mp ht
  simp [FnParam.tokens]

/-- With one attribute among its parameters a variant is not Rust. -/
theorem Syn.parseFields_none (hS : S.Documented) (hParams : ∀ p ∈ params, S.IsParam p)
    (hAttrs : ∃ p ∈ params, p.attrs ≠ []) :
    S.parseFields (separated ","
      ((params.map ParsedFnArg.generateField).map (Field.tokens S))) = none := by
  obtain ⟨p, hp, hNe⟩ := hAttrs
  refine terminated_none (fun tokens ht => ?_)
    ⟨_, List.mem_map_of_mem (List.mem_map_of_mem hp), refuses_parseField hS (hParams p hp) hNe⟩ _
  rw [List.map_map] at ht
  obtain ⟨q, hq, rfl⟩ := List.mem_map.mp ht
  by_cases hNil : q.attrs = []
  · refine .inr ⟨q, ?_⟩
    have hReads := reads_parseField hS (hParams q hq)
    rw [hNil] at hReads
    simpa [ParsedFnArg.generateField, hNil] using hReads
  · exact .inl (refuses_parseField hS (hParams q hq) hNil)

theorem map_bracketed_eq_iff {attrs : List Attribute} :
    attrs.map bracketed = attrs ↔ attrs = [] := by
  refine ⟨fun h => ?_, fun h => by rw [h]; rfl⟩
  cases attrs with
  | nil => rfl
  | cons attr rest =>
    have hLength := congrArg List.length (List.cons.inj h).1
    simp only [bracketed, List.length_cons, List.length_append, List.length_nil] at hLength
    omega

theorem generateField_param_iff {p : ParsedFnArg} : p.generateField.param = p ↔ p.attrs = [] := by
  obtain ⟨attrs, name, ty⟩ := p
  simp [ParsedFnArg.generateField, Field.param, map_bracketed_eq_iff]

end Carried

section Theorem

variable {S : Syn} {T : Toolchain} {item : InterfaceImpl} {raw : RawModelArgs} {x : Expansion}

/-- What is generated for an updater carries the attributes of its parameters over exactly if they
have none. -/
theorem carriedOver_iff (hS : S.Documented)
    (hParams : ∀ f ∈ item.updaters, ∀ p ∈ f.params, S.IsParam p)
    (hBuild : build T item raw = .ok x) {i : Nat} {f : MaybeStubFn}
    (hGet : item.updaters[i]? = some f) : ∃ variant modelFn updaterFn,
      x.message.variants[i]? = some variant ∧ x.implModel.modelFns[i]? = some modelFn ∧
      x.updaterImpls.fns[i]? = some updaterFn ∧
      (CarriedOver S f variant modelFn updaterFn ↔ ∀ p ∈ f.params, p.attrs = []) := by
  obtain ⟨c, hParse, hx⟩ := bind_ok hBuild
  cases hx
  obtain ⟨u, hu, hFrom⟩ := Named.getElem?_of_forall₂ (ModelContext.parse_updaters hParse) hGet
  have hIsParam := hParams f (List.mem_of_getElem? hGet)
  refine ⟨u.generateMessageVariant, u.generateModelFn, u.generateUpdaterFn c.args.message.name,
    ?_, ?_, ?_, ?_⟩
  · simp [ModelContext.generate, ModelContext.generateMessage, hu]
  · simp [ModelContext.generate, ModelContext.generateImplModel, hu]
  · simp [ModelContext.generate, ModelContext.generateUpdaterImpls,
      ModelContext.generateUpdaterGetterImpls, hu]
  have hFields : u.generateMessageVariant.fields = f.params.map ParsedFnArg.generateField := by
    rw [← hFrom.fnArgs]
    rfl
  have hArgs : S.parseFnArgs (FnParam.allTokens S (u.fnArgs.map ParsedFnArg.generateFnArg)) =
      some (f.params.map ParsedFnArg.bare) := by
    rw [hFrom.fnArgs]
    exact Syn.parseFnArgs_generated hS hIsParam
  constructor
  · intro h p hp
    have hMap := h.fields
    rw [hFields, List.map_map] at hMap
    exact generateField_param_iff.mp
      (List.map_inj_left.mp (hMap.trans (List.map_id _).symm) p hp)
  · intro hNone
    refine ⟨?_, ?_, hArgs, hArgs⟩
    · rw [hFields, List.map_map]
      exact (List.map_congr_left fun p hp => generateField_param_iff.mpr (hNone p hp)).trans
        (List.map_id _)
    · have hVerbatim := Syn.parseFields_verbatim hS hIsParam
      rw [Variant.fieldTokens, hFields, List.map_map]
      refine (congrArg (fun l => S.parseFields (separated "," l)) ?_).trans hVerbatim
      refine List.map_congr_left fun p hp => ?_
      simp [ParsedFnArg.generateField, hNone p hp]

end Theorem

section Profile

/-- Types that are one name, and metas by their first token. -/
def plainSyn : Syn where
  tyTokens
    | .path [] [⟨name, .none⟩] => [name]
    | _ => []
  parseTy
    | name :: ts => if isWord name then some (.path [] [⟨name, .none⟩], ts) else none
    | [] => none
  isMeta ts := ts.head?.any isWord
  afterVis
    | "pub" :: ts => some ts
    | ts => some ts
  isIdent := isWord
where
  isWord (token : String) : Bool := token.toList.head?.any Char.isAlpha && token != "pub"

theorem plainSyn_documented : plainSyn.Documented where
  ty ty rest h _ := by
    obtain ⟨ts, rest', hParse⟩ := h
    cases ts with
    | nil => cases hParse
    | cons name ts =>
      by_cases hWord : plainSyn.isWord name
      · simp only [plainSyn, hWord, if_true] at hParse
        cases hParse
        simp [plainSyn, hWord]
      · simp [plainSyn, hWord] at hParse
  pound ts := rfl
  inherited name ts h := by
    have hPub : name ≠ "pub" := fun hEq => by
      rw [hEq] at h
      cases h
    simp only [plainSyn]
    split
    next hEq =>
      cases hEq
      exact (hPub rfl).elim
    next => rfl
  ident := rfl

def profileFn (name message : Ident) (attrs : List Attribute) : MaybeStubFn :=
  ⟨[[message]], ["pub"], ⟨false, false, false, none, name, [],
    [.receiver true true, .typed attrs (.ident false false "name" none)
      (.path [] [⟨"String", .none⟩])], false, .default⟩, some ["{ self.name = name; }"]⟩

def pangalan : Attribute := bracketed ["serde", "(", "rename", "=", "\"pangalan\"", ")"]

/-- Two updaters with one parameter, of which that of the first has an attribute. -/
def profile : InterfaceImpl where
  vis := ["pub"]
  selfTy := .path [] [⟨"Profile", .none⟩]
  items := [profileFn "set_name" "SetName" [pangalan], profileFn "set_nickname" "SetNickname" []]

theorem profile_isParam : ∀ f ∈ profile.updaters, ∀ p ∈ f.params, plainSyn.IsParam p := by
  have hRename : Balanced isOpening isClosing ["rename", "=", "\"pangalan\""] :=
    .token rfl rfl (.token rfl rfl (.token rfl rfl .nil))
  have hBalanced : Balanced isOpening isClosing
      ["serde", "(", "rename", "=", "\"pangalan\"", ")"] :=
    .token rfl rfl (.group rfl rfl rfl hRename .nil)
  have hTy : plainSyn.IsTy (.path [] [⟨"String", .none⟩]) := ⟨["String"], [], rfl⟩
  intro f hf p hp
  rcases List.mem_pair.mp hf with rfl | rfl
  · cases List.mem_singleton.mp hp
    refine ⟨fun attr hAttr => ?_, rfl, hTy⟩
    cases List.mem_singleton.mp hAttr
    exact ⟨_, rfl, hBalanced, rfl⟩
  · cases List.mem_singleton.mp hp
    exact ⟨fun attr hAttr => (List.not_mem_nil hAttr).elim, rfl, hTy⟩

theorem carriedOver_iff_profile : ∃ x variant modelFn updaterFn,
    build gaugeTools profile gaugeArgs = .ok x ∧ x.message.variants[1]? = some variant ∧
    CarriedOver plainSyn (profileFn "set_nickname" "SetNickname" []) variant modelFn updaterFn := by
  have hBuild : build gaugeTools profile gaugeArgs = .ok _ := rfl
  have hGet : profile.updaters[1]? = some (profileFn "set_nickname" "SetNickname" []) := rfl
  obtain ⟨variant, modelFn, updaterFn, hVariant, -, -, hCarried⟩ :=
    carriedOver_iff plainSyn_documented profile_isParam hBuild hGet
  refine ⟨_, variant, modelFn, updaterFn, hBuild, hVariant, hCarried.mpr fun p hp => ?_⟩
  cases List.mem_singleton.mp hp
  rfl

/-- The one field of the variant that is generated for `set_name` is
`#[#[serde(rename = "pangalan")]] name: String`. -/
theorem nested_attribute : ∃ x variant modelFn updaterFn,
    build gaugeTools profile gaugeArgs = .ok x ∧ x.message.variants[0]? = some variant ∧
    x.implModel.modelFns[0]? = some modelFn ∧ x.updaterImpls.fns[0]? = some updaterFn ∧
    variant.fields.map Field.attrs = [[bracketed pangalan]] ∧
    ¬ CarriedOver plainSyn (profileFn "set_name" "SetName" [pangalan]) variant modelFn
      updaterFn := by
  refine ⟨_, _, _, _, rfl, rfl, rfl, rfl, rfl, fun h => ?_⟩
  have hAttrs := congrArg (List.map ParsedFnArg.attrs) h.fields
  exact absurd hAttrs (by decide)

end Profile

end Emyu.Macro
