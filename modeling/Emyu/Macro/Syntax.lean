import Mathlib.Data.List.Basic

/-! The Rust syntax that `#[emyu::model]` is given, as far as the expansion looks into it. What it
only copies stays a token stream. -/

namespace Emyu.Macro

abbrev Ident := String

abbrev TokenStream := List String

/-- An outer attribute, with its `#` and its brackets. -/
abbrev Attribute := TokenStream

abbrev Visibility := TokenStream

abbrev Block := TokenStream

/-- `syn::Meta`. -/
inductive Meta where
  | path (path : TokenStream)
  | list (path tokens : TokenStream)
  | nameValue (path value : TokenStream)

inductive GenericArgument (τ : Type) where
  | type (ty : τ)
  | other (tokens : TokenStream)

inductive PathArguments (τ : Type) where
  | none
  | angleBracketed (args : List (GenericArgument τ))
  | parenthesized (tokens : TokenStream)

structure PathSegment (τ : Type) where
  ident : Ident
  arguments : PathArguments τ

/-- `syn::Type`, where `prelude` is what stands before the segments of a path. -/
inductive Ty where
  | path (prelude : TokenStream) (segments : List (PathSegment Ty))
  | other (tokens : TokenStream)

inductive Pat where
  | ident (byRef mutability : Bool) (name : Ident) (subpat : Option TokenStream)
  | other (tokens : TokenStream)

inductive FnArg where
  | receiver (reference mutability : Bool)
  | typed (attrs : List Attribute) (pat : Pat) (ty : Ty)

inductive ReturnType where
  | default
  | type (ty : Ty)

inductive GenericParam where
  | lifetime (name : Ident)
  | type (name : Ident)
  | const (name : Ident)

structure Signature where
  constness : Bool
  asyncness : Bool
  unsafety : Bool
  abi : Option TokenStream
  ident : Ident
  generics : List GenericParam
  inputs : List FnArg
  variadic : Bool
  output : ReturnType

structure MaybeStubFn where
  attrs : List Attribute
  vis : Visibility
  sig : Signature
  block : Option Block

structure InterfaceImpl where
  vis : Visibility
  selfTy : Ty
  items : List MaybeStubFn

end Emyu.Macro
