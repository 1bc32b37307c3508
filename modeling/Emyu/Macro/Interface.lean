import Emyu.Lib.Groups
import Emyu.Macro.Fields

/-! How the macro reads the `impl` block it is put on, down to the tokens. -/

namespace Emyu.Macro

open Tokens

def pairs : List (String × String) := [("(", ")"), ("[", "]"), ("\x7b", "\x7d")]

def IsPair (opening closing : String) : Prop := (opening, closing) ∈ pairs

/-- The tokens of a stream as the compiler hands it over. -/
abbrev IsStream : TokenStream → Prop := Matched isOpening isClosing IsPair

def braced (content : TokenStream) : TokenStream := "\x7b" :: (content ++ ["\x7d"])

/-- What reading functions takes of syn besides: the signature that tokens begin with, and the
contents of braces that are the statements of a block. -/
structure ItemSyn extends Syn where
  parseSig : TokenStream → Option (Signature × TokenStream)
  isBlock : TokenStream → Bool

namespace ItemSyn

variable (S : ItemSyn)

/-- `Visibility::parse`: the tokens it goes past. -/
def parseVis (ts : TokenStream) : Option (Visibility × TokenStream) :=
  (S.afterVis ts).map fun rest => (ts.take (ts.length - rest.length), rest)

/-- `Block::parse`. -/
def parseBlock (ts : TokenStream) : Option (Block × TokenStream) := do
  let (content, ts) ← group isOpening isClosing "\x7b" ts
  if S.isBlock content then some (braced content, ts) else none

/-- `MaybeStubFn::parse`. -/
def parseFn (ts : TokenStream) : Option (MaybeStubFn × TokenStream) := do
  let (attrs, ts) ← S.outerAttributes ts
  let (vis, ts) ← S.parseVis ts
  let (sig, ts) ← S.parseSig ts
  if ts.head? = some ";" then
    some (⟨attrs, vis, sig, none⟩, ts.tail)
  else do
    let (block, ts) ← S.parseBlock ts
    some (⟨attrs, vis, sig, some block⟩, ts)

def implToken (ts : TokenStream) : Option TokenStream :=
  if ts.head? = some "impl" then some ts.tail else none

/-- `InterfaceImpl::parse`, and then the end of the stream, as `parse_macro_input!` has it. -/
def parseInterface (ts : TokenStream) : Option InterfaceImpl := do
  let (_, ts) ← S.outerAttributes ts
  let (vis, ts) ← S.parseVis ts
  let ts ← implToken ts
  let (selfTy, ts) ← S.parseTy ts
  let (content, ts) ← group isOpening isClosing "\x7b" ts
  let items ← repeated S.parseFn content.length content
  if ts.isEmpty then some ⟨vis, selfTy, items⟩ else none

/-- The tokens a signature can begin with. -/
def sigTokens : List String := ["const", "async", "unsafe", "extern", "fn"]

def VisText (text : TokenStream) (vis : Visibility) : Prop :=
  Takes isOpening isClosing IsPair S.parseVis text vis

def TyText (text : TokenStream) (ty : Ty) : Prop :=
  Takes isOpening isClosing IsPair S.parseTy text ty

def SigText (text : TokenStream) (sig : Signature) : Prop :=
  Takes isOpening isClosing IsPair S.parseSig text sig

/-- The parsers go past whole groups. None of them looks further than to what can follow it in an
`impl` block. -/
structure Documented : Prop where
  vis : Prefixed isOpening isClosing IsPair ("impl" :: sigTokens) S.parseVis
  pub : ∀ text vis, S.VisText text vis → text = [] ∨ text.head? = some "pub"
  ty : Prefixed isOpening isClosing IsPair ["\x7b"] S.parseTy
  sig : Prefixed isOpening isClosing IsPair [";", "\x7b"] S.parseSig
  begins : ∀ text sig, S.SigText text sig → ∃ t more, t ∈ sigTokens ∧ text = t :: more

/-! ### The texts -/

def IsAttr (attr : Attribute) : Prop :=
  ∃ content, attr = bracketed content ∧ IsStream content ∧ S.isMeta content = true

inductive FnText : TokenStream → MaybeStubFn → Prop where
  | stub {attrs : List Attribute} {vis : Visibility} {sig : Signature} {v s : TokenStream} :
      (∀ attr ∈ attrs, S.IsAttr attr) → S.VisText v vis → S.SigText s sig →
      FnText (attrs.flatten ++ (v ++ (s ++ [";"]))) ⟨attrs, vis, sig, none⟩
  | full {attrs : List Attribute} {vis : Visibility} {sig : Signature}
      {v s content : TokenStream} :
      (∀ attr ∈ attrs, S.IsAttr attr) → S.VisText v vis → S.SigText s sig → IsStream content →
      S.isBlock content = true →
      FnText (attrs.flatten ++ (v ++ (s ++ braced content)))
        ⟨attrs, vis, sig, some (braced content)⟩

/-- Attributes, a visibility, `impl`, a type and functions in braces. What the attributes are is not
kept. -/
inductive InterfaceText : TokenStream → InterfaceImpl → Prop where
  | mk {attrs : List Attribute} {vis : Visibility} {selfTy : Ty} {items : List MaybeStubFn}
      {v ty : TokenStream} {fns : List TokenStream} :
      (∀ attr ∈ attrs, S.IsAttr attr) → S.VisText v vis → S.TyText ty selfTy →
      List.Forall₂ S.FnText fns items →
      InterfaceText (attrs.flatten ++ (v ++ "impl" :: (ty ++ braced fns.flatten)))
        ⟨vis, selfTy, items⟩

end ItemSyn

section Attributes

variable {S : ItemSyn} {ts rest : TokenStream} {attrs : List Attribute}

theorem IsStream.bracket (h : IsStream ("#" :: "[" :: ts)) : ∃ content rest,
    ts = content ++ "]" :: rest ∧ IsStream content ∧ IsStream rest := by
  obtain ⟨content, c, rest, rfl, -, -, hPair, hContent, hRest⟩ := (h.tail rfl).opened rfl
  have hc : c = "]" := by simpa [IsPair, pairs] using hPair
  exact ⟨content, rest, hc ▸ rfl, hContent, hRest⟩

theorem IsStream.bracketed {content : TokenStream} (h : IsStream content) :
    IsStream (bracketed content) :=
  .token rfl rfl (.group rfl rfl rfl (by simp [IsPair, pairs]) h .nil)

theorem IsStream.braced {content : TokenStream} (h : IsStream content) :
    IsStream (braced content) :=
  .group rfl rfl rfl (by simp [IsPair, pairs]) h .nil

theorem ItemSyn.flatten_isStream (h : ∀ attr ∈ attrs, S.IsAttr attr) : IsStream attrs.flatten := by
  induction attrs with
  | nil => exact .nil
  | cons attr attrs ih =>
    obtain ⟨content, rfl, hContent, -⟩ := h attr List.mem_cons_self
    exact hContent.bracketed.append (ih fun attr hAttr => h attr (List.mem_cons_of_mem _ hAttr))

/-- All the attributes are taken, and nothing else. -/
theorem ItemSyn.outerAttributes_iff (hts : IsStream ts) :
    S.outerAttributes ts = some (attrs, rest) ↔
      (∀ attr ∈ attrs, S.IsAttr attr) ∧ ts = attrs.flatten ++ rest ∧ rest.head? ≠ some "#" := by
  constructor
  · intro h
    fun_induction Syn.outerAttributes S.toSyn ts generalizing attrs with
    | case1 ts content rest' hGroup _ hMeta ih =>
      obtain ⟨inside, after, rfl, hContent, hRest⟩ := hts.bracket
      rw [untilClosed_group hContent.balanced rfl rfl] at hGroup
      cases hGroup
      obtain ⟨⟨attrs', rest⟩, hLater, hEq⟩ := Option.map_eq_some_iff.mp h
      cases hEq
      obtain ⟨hAttrs, rfl, hHead⟩ := ih hRest hLater
      refine ⟨fun attr hAttr => ?_, by simp [Macro.bracketed], hHead⟩
      rcases List.mem_cons.mp hAttr with rfl | hAttr
      · exact ⟨content, rfl, hContent, hMeta⟩
      · exact hAttrs attr hAttr
    | case2 => cases h
    | case3 => cases h
    | case4 => cases h
    | case5 ts _ hNotPound =>
      cases h
      refine ⟨fun attr hAttr => (List.not_mem_nil hAttr).elim, rfl, fun hHead => ?_⟩
      obtain ⟨more, rfl⟩ := List.head?_eq_some_iff.mp hHead
      exact hNotPound more rfl
  · rintro ⟨hAttrs, rfl, hHead⟩
    induction attrs with
    | nil =>
      cases rest with
      | nil => simp [Syn.outerAttributes]
      | cons name rest => exact Syn.outerAttributes_nil (fun hEq => hHead (congrArg some hEq)) rest
    | cons attr attrs ih =>
      obtain ⟨content, rfl, hContent, hMeta⟩ := hAttrs attr List.mem_cons_self
      have hLater := ih (fun attr h => hAttrs attr (List.mem_cons_of_mem _ h))
        (hContent.bracketed.of_append (by simpa using hts))
      rw [List.flatten_cons, List.append_assoc,
        Syn.outerAttributes_cons hMeta hContent.balanced, hLater]
      rfl

end Attributes

section Functions

variable {S : ItemSyn} {ts rest text : TokenStream} {f : MaybeStubFn}

theorem group_braces (hts : IsStream ts) {content : TokenStream} :
    group isOpening isClosing "\x7b" ts = some (content, rest) ↔
      ts = braced content ++ rest ∧ IsStream content ∧ IsStream rest := by
  rw [group_iff rfl hts]
  constructor
  · rintro ⟨c, rfl, -, -, hPair, hContent, hRest⟩
    have hc : c = "\x7d" := by simpa [IsPair, pairs] using hPair
    exact ⟨by simp [braced, hc], hContent, hRest⟩
  · rintro ⟨rfl, hContent, hRest⟩
    exact ⟨"\x7d", by simp [braced], rfl, rfl, by simp [IsPair, pairs], hContent, hRest⟩

theorem ItemSyn.parseBlock_iff (hts : IsStream ts) {block : Block} :
    S.parseBlock ts = some (block, rest) ↔ ∃ content, block = braced content ∧
      S.isBlock content = true ∧ ts = braced content ++ rest ∧ IsStream content ∧
      IsStream rest := by
  constructor
  · intro h
    obtain ⟨⟨content, ts'⟩, hGroup, h⟩ := Option.bind_eq_some_iff.mp h
    obtain ⟨hBlock, h⟩ := Option.ite_none_right_eq_some.mp h
    cases h
    exact ⟨content, rfl, hBlock, (group_braces hts).mp hGroup⟩
  · rintro ⟨content, rfl, hBlock, hEq⟩
    rw [parseBlock, (group_braces hts).mpr hEq]
    simp [hBlock]

theorem ItemSyn.VisText.eq {vis : Visibility} (h : S.VisText text vis) : vis = text := by
  obtain ⟨-, rest, -, h⟩ := h
  obtain ⟨rest', hAfter, hEq⟩ := Option.map_eq_some_iff.mp h
  cases hEq
  simp

theorem ItemSyn.Documented.head (hS : S.Documented) {v : TokenStream} {vis : Visibility}
    {t : String} (hVis : S.VisText v vis) (ht : t ≠ "#") : (v ++ t :: rest).head? ≠ some "#" := by
  rcases hS.pub v vis hVis with rfl | hPub
  · rintro ⟨⟩
    exact ht rfl
  · simp [List.head?_append, hPub]

theorem ItemSyn.FnText.isStream (h : S.FnText text f) : IsStream text := by
  cases h with
  | stub hAttrs hVis hSig =>
    exact (flatten_isStream hAttrs).append (hVis.1.append (hSig.1.append (.token rfl rfl .nil)))
  | full hAttrs hVis hSig hContent =>
    exact (flatten_isStream hAttrs).append (hVis.1.append (hSig.1.append hContent.braced))

theorem ItemSyn.flatten_fns_isStream {texts : List TokenStream} {items : List MaybeStubFn}
    (h : List.Forall₂ S.FnText texts items) : IsStream texts.flatten := by
  induction h with
  | nil => exact .nil
  | cons hText _ ih => exact hText.isStream.append ih

theorem ItemSyn.FnText.ne_nil (hS : S.Documented) (h : S.FnText text f) : text ≠ [] := by
  cases h with
  | stub _ _ hSig =>
    obtain ⟨t, more, -, rfl⟩ := hS.begins _ _ hSig
    simp
  | full _ _ hSig =>
    obtain ⟨t, more, -, rfl⟩ := hS.begins _ _ hSig
    simp

/-- What stands before the body of a function is read, whatever its body is. -/
theorem ItemSyn.parseFn_head (hS : S.Documented) {attrs : List Attribute} {v s body : TokenStream}
    {vis : Visibility} {sig : Signature} {t : String}
    (hStream : IsStream (attrs.flatten ++ (v ++ (s ++ t :: body))))
    (hAttrs : ∀ attr ∈ attrs, S.IsAttr attr) (hVis : S.VisText v vis) (hSig : S.SigText s sig)
    (ht : t ∈ [";", "\x7b"]) :
    S.parseFn (attrs.flatten ++ (v ++ (s ++ t :: body))) =
      if t = ";" then some (⟨attrs, vis, sig, none⟩, body)
      else (S.parseBlock (t :: body)).map (Prod.map (fun b => ⟨attrs, vis, sig, some b⟩) id) := by
  have hAfterAttrs := (flatten_isStream hAttrs).of_append hStream
  have hAfterVis := hVis.1.of_append hAfterAttrs
  have hAfterSig := hSig.1.of_append hAfterVis
  obtain ⟨k, more, hk, rfl⟩ := hS.begins s sig hSig
  have hPound : k ≠ "#" := fun hEq => by
    rw [hEq] at hk
    exact absurd hk (by decide)
  rw [parseFn, (outerAttributes_iff hStream).mpr ⟨hAttrs, rfl, hS.head hVis hPound⟩]
  simp only [Option.bind_eq_bind, Option.bind_some, List.cons_append] at hAfterVis ⊢
  rw [hS.vis.again v vis k _ hVis (List.mem_cons_of_mem _ hk) hAfterVis]
  have hAgain := hS.sig.again _ sig t body hSig ht hAfterSig
  rw [List.cons_append] at hAgain
  simp only [Option.bind_some, hAgain, List.head?_cons, Option.some.injEq, List.tail_cons]
  split
  · rfl
  · cases S.parseBlock (t :: body) <;> rfl

theorem ItemSyn.parseFn_iff (hS : S.Documented) (hts : IsStream ts) :
    S.parseFn ts = some (f, rest) ↔ ∃ text, S.FnText text f ∧ ts = text ++ rest := by
  constructor
  · intro h
    obtain ⟨⟨attrs, ts₁⟩, hAttrs, h⟩ := Option.bind_eq_some_iff.mp h
    obtain ⟨⟨vis, ts₂⟩, hVis, h⟩ := Option.bind_eq_some_iff.mp h
    obtain ⟨⟨sig, ts₃⟩, hSig, hBody⟩ := Option.bind_eq_some_iff.mp h
    obtain ⟨hIsAttr, rfl, -⟩ := (outerAttributes_iff hts).mp hAttrs
    have hAfterAttrs := (flatten_isStream hIsAttr).of_append hts
    obtain ⟨v, hv, rfl, hAfterVis⟩ := hS.vis.exists_text hAfterAttrs hVis
    obtain ⟨s, hs, rfl, hAfterSig⟩ := hS.sig.exists_text hAfterVis hSig
    dsimp only at hBody
    split at hBody
    next hSemi =>
      cases hBody
      obtain ⟨more, rfl⟩ := List.head?_eq_some_iff.mp hSemi
      exact ⟨_, .stub hIsAttr hv hs, by simp⟩
    next =>
      obtain ⟨⟨block, ts₄⟩, hBlock, hRest⟩ := Option.bind_eq_some_iff.mp hBody
      cases hRest
      obtain ⟨content, rfl, hIsBlock, rfl, hContent, -⟩ := (parseBlock_iff hAfterSig).mp hBlock
      exact ⟨_, .full hIsAttr hv hs hContent hIsBlock, by simp⟩
  · rintro ⟨text, hText, rfl⟩
    have hRest := hText.isStream.of_append hts
    cases hText with
    | @stub attrs vis sig v s hAttrs hVis hSig =>
      simp only [List.append_assoc, List.cons_append, List.nil_append] at hts ⊢
      rw [parseFn_head hS hts hAttrs hVis hSig (by simp), if_pos rfl]
    | @full attrs vis sig v s content hAttrs hVis hSig hContent hBlock =>
      have hBraces : braced content ++ rest = "\x7b" :: (content ++ "\x7d" :: rest) := by
        simp [braced]
      simp only [List.append_assoc, hBraces] at hts ⊢
      have hBlock := (parseBlock_iff (hContent.braced.append hRest)).mpr
        ⟨content, rfl, hBlock, rfl, hContent, hRest⟩
      rw [parseFn_head hS hts hAttrs hVis hSig (by simp), if_neg (by decide), ← hBraces, hBlock]
      rfl

end Functions

section Interface

variable {S : ItemSyn} {ts : TokenStream} {item : InterfaceImpl}

theorem ItemSyn.InterfaceText.isStream (h : S.InterfaceText ts item) : IsStream ts := by
  obtain ⟨hAttrs, hVis, hTy, hFns⟩ := h
  have hBody := hTy.1.append (flatten_fns_isStream hFns).braced
  exact (flatten_isStream hAttrs).append (hVis.1.append (.token rfl rfl hBody))

/-- The functions in the braces are read one after the other, to the end. -/
theorem ItemSyn.repeated_parseFn_iff (hS : S.Documented) {content : TokenStream}
    (hContent : IsStream content) {items : List MaybeStubFn} :
    repeated S.parseFn content.length content = some items ↔
      ∃ texts, List.Forall₂ S.FnText texts items ∧ content = texts.flatten :=
  repeated_iff (P := IsStream) (fun _ _ _ hts => parseFn_iff hS hts)
    (fun _ _ hText => hText.ne_nil hS) (fun _ _ _ hText h => hText.isStream.of_append h) hContent
    (Nat.le_refl _)

/-- The macro accepts exactly the streams that are a block with functions, bodies or not, and reads
them as what they are the text of. -/
theorem parseInterface_iff (hS : S.Documented) (hts : IsStream ts) :
    S.parseInterface ts = some item ↔ S.InterfaceText ts item := by
  constructor
  · intro h
    obtain ⟨⟨attrs, ts₁⟩, hAttrs, h⟩ := Option.bind_eq_some_iff.mp h
    obtain ⟨⟨vis, ts₂⟩, hVis, h⟩ := Option.bind_eq_some_iff.mp h
    obtain ⟨ts₃, hImpl, h⟩ := Option.bind_eq_some_iff.mp h
    obtain ⟨⟨selfTy, ts₄⟩, hTy, h⟩ := Option.bind_eq_some_iff.mp h
    obtain ⟨⟨content, ts₅⟩, hGroup, h⟩ := Option.bind_eq_some_iff.mp h
    obtain ⟨items, hItems, h⟩ := Option.bind_eq_some_iff.mp h
    obtain ⟨hEnd, h⟩ := Option.ite_none_right_eq_some.mp h
    cases h
    cases List.isEmpty_iff.mp hEnd
    obtain ⟨hIsAttr, rfl, -⟩ := (ItemSyn.outerAttributes_iff hts).mp hAttrs
    obtain ⟨v, hv, rfl, hAfterVis⟩ :=
      hS.vis.exists_text ((ItemSyn.flatten_isStream hIsAttr).of_append hts) hVis
    obtain ⟨hHead, hTail⟩ := Option.ite_none_right_eq_some.mp hImpl
    cases hTail
    obtain ⟨more, rfl⟩ := List.head?_eq_some_iff.mp hHead
    obtain ⟨ty, hty, hEq, hAfterTy⟩ := hS.ty.exists_text (hAfterVis.tail rfl) hTy
    obtain ⟨rfl, hContent, -⟩ := (group_braces hAfterTy).mp hGroup
    obtain ⟨fns, hFns, rfl⟩ := (ItemSyn.repeated_parseFn_iff hS hContent).mp hItems
    rw [List.append_nil] at hEq
    cases hEq
    exact .mk hIsAttr hv hty hFns
  · rintro ⟨hAttrs, hVis, hTy, hFns⟩
    next attrs vis selfTy items v ty fns =>
    have hAfterAttrs := (ItemSyn.flatten_isStream hAttrs).of_append hts
    have hAfterVis := hVis.1.of_append hAfterAttrs
    have hAfterTy := hTy.1.of_append (hAfterVis.tail rfl)
    have hContent := ItemSyn.flatten_fns_isStream hFns
    have hGroup := (group_braces hAfterTy).mpr
      ⟨(List.append_nil _).symm, hContent, (.nil : IsStream [])⟩
    have hItems := (ItemSyn.repeated_parseFn_iff hS hContent).mpr ⟨fns, hFns, rfl⟩
    have hAgain : S.parseTy (ty ++ braced fns.flatten) = some (selfTy, braced fns.flatten) :=
      hS.ty.again ty selfTy "\x7b" _ hTy (by simp) hAfterTy
    rw [ItemSyn.parseInterface, (ItemSyn.outerAttributes_iff hts).mpr
      ⟨hAttrs, rfl, hS.head hVis (by decide)⟩]
    simp only [Option.bind_eq_bind, Option.bind_some]
    rw [hS.vis.again v vis "impl" _ hVis List.mem_cons_self hAfterVis]
    simp only [Option.bind_some, ItemSyn.implToken, List.head?_cons, if_true, List.tail_cons]
    simp only [hAgain, hGroup, hItems, Option.bind_some, List.isEmpty_nil, if_true]

end Interface

section Lamp

def selfSig (name : Ident) : Signature :=
  ⟨false, false, false, none, name, [], [.receiver true false], false, .default⟩

/-- Signatures of functions with no parameter but `&self`. -/
def plainItemSyn : ItemSyn where
  toSyn := plainSyn
  parseSig
    | "fn" :: name :: "(" :: "&" :: "self" :: ")" :: ts =>
      if plainSyn.isIdent name then some (selfSig name, ts) else none
    | _ => none
  isBlock _ := true

theorem not_delimiter {name : String} (h : plainSyn.isIdent name = true) :
    isOpening name = false ∧ isClosing name = false := by
  have hNot (t : String) (ht : plainSyn.isIdent t = false) : (name == t) = false :=
    beq_eq_false_iff_ne.mpr fun hEq => by
      rw [hEq, ht] at h
      cases h
  simp [isOpening, isClosing, hNot "(" rfl, hNot "[" rfl, hNot "\x7b" rfl, hNot ")" rfl,
    hNot "]" rfl, hNot "\x7d" rfl]

theorem plainItemSyn_parseSig {ts rest : TokenStream} {sig : Signature}
    (h : plainItemSyn.parseSig ts = some (sig, rest)) : ∃ name, plainSyn.isIdent name = true ∧
      sig = selfSig name ∧ ts = ["fn", name, "(", "&", "self", ")"] ++ rest := by
  simp only [plainItemSyn] at h
  split at h
  next name ts =>
    obtain ⟨hIdent, h⟩ := Option.ite_none_right_eq_some.mp h
    cases h
    exact ⟨name, hIdent, rfl, rfl⟩
  next => cases h

theorem selfSig_text {name : Ident} (h : plainSyn.isIdent name = true) :
    plainItemSyn.SigText ["fn", name, "(", "&", "self", ")"] (selfSig name) := by
  have hSelf : IsStream ["&", "self"] := .token rfl rfl (.token rfl rfl .nil)
  have hParens : IsStream ["(", "&", "self", ")"] :=
    .group rfl rfl rfl (by simp [IsPair, pairs]) hSelf .nil
  have hName := not_delimiter h
  exact ⟨.token rfl rfl (.token hName.1 hName.2 hParens), [], .nil, if_pos h⟩

theorem plainItemSyn_parseTy {ts rest : TokenStream} {ty : Ty}
    (h : plainItemSyn.parseTy ts = some (ty, rest)) : ∃ name, plainSyn.isIdent name = true ∧
      ty = .path [] [⟨name, .none⟩] ∧ ts = [name] ++ rest := by
  cases ts with
  | nil => cases h
  | cons name ts =>
    obtain ⟨hIdent, h⟩ := Option.ite_none_right_eq_some.mp h
    cases h
    exact ⟨name, hIdent, rfl, rfl⟩

theorem plainItemSyn_parseVis {ts rest : TokenStream} {vis : Visibility}
    (h : plainItemSyn.parseVis ts = some (vis, rest)) :
    (vis = ["pub"] ∨ vis = [] ∧ ts.head? ≠ some "pub") ∧ ts = vis ++ rest := by
  obtain ⟨rest', hAfter, hEq⟩ := Option.map_eq_some_iff.mp h
  simp only [plainItemSyn, plainSyn] at hAfter
  split at hAfter
  next ts =>
    cases hAfter
    cases hEq
    simp
  next hNot =>
    cases hAfter
    cases hEq
    refine ⟨.inr ⟨by simp, fun hHead => ?_⟩, by simp⟩
    obtain ⟨more, rfl⟩ := List.head?_eq_some_iff.mp hHead
    exact hNot more rfl

theorem plainItemSyn_documented : plainItemSyn.Documented where
  vis := by
    refine ⟨fun ts vis rest _ h => ?_, fun text vis t rest hText ht _ => ?_⟩
    · obtain ⟨rfl | ⟨rfl, -⟩, hEq⟩ := plainItemSyn_parseVis h
      · exact ⟨_, .token rfl rfl .nil, hEq⟩
      · exact ⟨_, .nil, hEq⟩
    · have hVis := ItemSyn.VisText.eq hText
      obtain ⟨-, rest', -, h⟩ := hText
      obtain ⟨rfl | ⟨rfl, -⟩, -⟩ := plainItemSyn_parseVis h
      · subst hVis
        simp [ItemSyn.parseVis, plainItemSyn, plainSyn]
      · subst hVis
        have hPub : t ≠ "pub" := fun hEq => absurd (hEq ▸ ht) (by decide)
        simp [ItemSyn.parseVis, plainItemSyn, plainSyn, hPub]
  pub text vis hText := by
    have hVis := ItemSyn.VisText.eq hText
    obtain ⟨-, rest', -, h⟩ := hText
    obtain ⟨rfl | ⟨rfl, -⟩, -⟩ := plainItemSyn_parseVis h
    · exact .inr (hVis ▸ rfl)
    · exact .inl hVis.symm
  ty := by
    refine ⟨fun ts ty rest _ h => ?_, fun text ty t rest hText _ _ => ?_⟩
    · obtain ⟨name, hIdent, rfl, rfl⟩ := plainItemSyn_parseTy h
      exact ⟨_, .token (not_delimiter hIdent).1 (not_delimiter hIdent).2 .nil, rfl⟩
    · obtain ⟨-, rest', -, h⟩ := hText
      obtain ⟨name, hIdent, rfl, hEq⟩ := plainItemSyn_parseTy h
      cases List.append_cancel_right hEq
      exact if_pos hIdent
  sig := by
    refine ⟨fun ts sig rest _ h => ?_, fun text sig t rest hText _ _ => ?_⟩
    · obtain ⟨name, hIdent, rfl, rfl⟩ := plainItemSyn_parseSig h
      exact ⟨_, (selfSig_text hIdent).1, rfl⟩
    · obtain ⟨-, rest', -, h⟩ := hText
      obtain ⟨name, hIdent, rfl, hEq⟩ := plainItemSyn_parseSig h
      cases List.append_cancel_right hEq
      exact if_pos hIdent
  begins text sig hText := by
    obtain ⟨-, rest', -, h⟩ := hText
    obtain ⟨name, -, -, hEq⟩ := plainItemSyn_parseSig h
    exact ⟨"fn", _, by decide, List.append_cancel_right hEq⟩

def lamp : InterfaceImpl where
  vis := ["pub"]
  selfTy := .path [] [⟨"Lamp", .none⟩]
  items := [⟨[], [], selfSig "toggle", none⟩,
    ⟨[], ["pub"], selfSig "is_on", some (braced ["self", ".", "on"])⟩]

def lampFns : List TokenStream :=
  [["fn", "toggle", "(", "&", "self", ")", ";"],
    ["pub", "fn", "is_on", "(", "&", "self", ")", "\x7b", "self", ".", "on", "\x7d"]]

def lampTokens : TokenStream :=
  bracketed ["doc"] ++ "pub" :: "impl" :: "Lamp" :: braced lampFns.flatten

theorem lampTokens_text : plainItemSyn.InterfaceText lampTokens lamp := by
  have hPub : plainItemSyn.VisText ["pub"] ["pub"] := ⟨.token rfl rfl .nil, [], .nil, rfl⟩
  have hInherited : plainItemSyn.VisText [] [] := ⟨.nil, [], .nil, rfl⟩
  have hLamp : plainItemSyn.TyText ["Lamp"] (.path [] [⟨"Lamp", .none⟩]) :=
    ⟨.token rfl rfl .nil, [], .nil, rfl⟩
  have hOn : IsStream ["self", ".", "on"] := .token rfl rfl (.token rfl rfl (.token rfl rfl .nil))
  have hNone : ∀ attr ∈ ([] : List Attribute), plainItemSyn.IsAttr attr :=
    fun attr h => (List.not_mem_nil h).elim
  have hDoc : ∀ attr ∈ [bracketed ["doc"]], plainItemSyn.IsAttr attr := fun attr h =>
    ⟨["doc"], List.mem_singleton.mp h, .token rfl rfl .nil, rfl⟩
  have hFns : List.Forall₂ plainItemSyn.FnText lampFns lamp.items :=
    .cons (.stub hNone hInherited (selfSig_text rfl))
      (.cons (.full hNone hPub (selfSig_text rfl) hOn rfl) .nil)
  exact .mk hDoc hPub hLamp hFns

theorem parseInterface_iff_lamp : plainItemSyn.parseInterface lampTokens = some lamp :=
  (parseInterface_iff plainItemSyn_documented lampTokens_text.isStream).mpr lampTokens_text

end Lamp

end Emyu.Macro
