/-!
# TypeScript types

The type expressions that resolver signatures are made of, and their text.

- `TypeExpr.union` builds unions without nested unions and without repeated members;
- `TypeExpr.text` prints a type on one line. A function that is a member of a union stands in parentheses, since its
  result would otherwise take in the members after it.
-/

namespace SchemaTypings.TypeScript

/-- Texts with a separator between them. -/
def separated (separator : String) : List String → String
  | [] => ""
  | [s] => s
  | s :: t :: ts => s ++ separator ++ separated separator (t :: ts)

/-- A text between single quotes. -/
def quoted (text : String) : String := "'" ++ text ++ "'"

/-- The head of a named type: an identifier or a string literal. -/
inductive TypeName where
  | ident (name : String)
  | literal (text : String)
  deriving DecidableEq, Repr

/-- The text of a head. -/
def TypeName.text : TypeName → String
  | .ident n => n
  | .literal t => quoted t

/-- A property of an object type or interface, or a parameter of a function. -/
structure Member (α : Type) where
  key : String
  value : α
  optional : Bool
  deriving DecidableEq, Repr

/-- A property that must be present. -/
def Member.required (key : String) (value : α) : Member α := ⟨key, value, false⟩

/-- A type expression. -/
inductive TypeExpr where
  /-- A name applied to type parameters, of which there may be none. -/
  | named (name : TypeName) (params : List TypeExpr)
  | object (members : List (Member TypeExpr))
  | function (params : List (Member TypeExpr)) (result : TypeExpr)
  /-- A union as it stands. `TypeExpr.union` is the way to make one. -/
  | oneOf (members : List TypeExpr)
  deriving Repr

namespace TypeExpr

/-! ## Equality -/

mutual

/-- Decides whether two types are the same. -/
def decEq : (s t : TypeExpr) → Decidable (s = t)
  | .named m ps, .named n qs =>
    if h : m = n then
      match decEqList ps qs with
      | .isTrue hp => .isTrue (by rw [h, hp])
      | .isFalse hp => .isFalse fun e => hp (by injection e)
    else .isFalse fun e => h (by injection e)
  | .object ms, .object ns =>
    match decEqMembers ms ns with
    | .isTrue h => .isTrue (by rw [h])
    | .isFalse h => .isFalse fun e => h (by injection e)
  | .function ps r, .function qs s =>
    match decEqMembers ps qs, decEq r s with
    | .isTrue hp, .isTrue hr => .isTrue (by rw [hp, hr])
    | .isFalse hp, _ => .isFalse fun e => hp (by injection e)
    | _, .isFalse hr => .isFalse fun e => hr (by injection e)
  | .oneOf ms, .oneOf ns =>
    match decEqList ms ns with
    | .isTrue h => .isTrue (by rw [h])
    | .isFalse h => .isFalse fun e => h (by injection e)
  | .named .., .object .. | .named .., .function .. | .named .., .oneOf .. => .isFalse nofun
  | .object .., .named .. | .object .., .function .. | .object .., .oneOf .. => .isFalse nofun
  | .function .., .named .. | .function .., .object .. | .function .., .oneOf .. => .isFalse nofun
  | .oneOf .., .named .. | .oneOf .., .object .. | .oneOf .., .function .. => .isFalse nofun

/-- Decides whether two lists of types are the same. -/
def decEqList : (s t : List TypeExpr) → Decidable (s = t)
  | [], [] => .isTrue rfl
  | [], _ :: _ | _ :: _, [] => .isFalse nofun
  | a :: as, b :: bs =>
    match decEq a b, decEqList as bs with
    | .isTrue h, .isTrue hs => .isTrue (by rw [h, hs])
    | .isFalse h, _ => .isFalse fun e => h (by injection e)
    | _, .isFalse hs => .isFalse fun e => hs (by injection e)

/-- Decides whether two members are the same. -/
def decEqMember : (s t : Member TypeExpr) → Decidable (s = t)
  | ⟨k, a, o⟩, ⟨l, b, p⟩ =>
    if hk : k = l ∧ o = p then
      match decEq a b with
      | .isTrue h => .isTrue (by rw [hk.1, hk.2, h])
      | .isFalse h => .isFalse fun e => h (by injection e)
    else .isFalse fun e => hk (by injection e with h₁ _ h₂; exact ⟨h₁, h₂⟩)

/-- Decides whether two lists of members are the same. -/
def decEqMembers : (s t : List (Member TypeExpr)) → Decidable (s = t)
  | [], [] => .isTrue rfl
  | [], _ :: _ | _ :: _, [] => .isFalse nofun
  | a :: as, b :: bs =>
    match decEqMember a b, decEqMembers as bs with
    | .isTrue h, .isTrue hs => .isTrue (by rw [h, hs])
    | .isFalse h, _ => .isFalse fun e => h (by injection e)
    | _, .isFalse hs => .isFalse fun e => hs (by injection e)

end

instance : DecidableEq TypeExpr := decEq

/-! ## Building types -/

/-- An identifier without parameters. -/
def ident (name : String) : TypeExpr := .named (.ident name) []

/-- A string literal. -/
def literal (text : String) : TypeExpr := .named (.literal text) []

/-- An identifier with one parameter. -/
def generic (name : String) (param : TypeExpr) : TypeExpr := .named (.ident name) [param]

/-- The type `null`. -/
def null : TypeExpr := ident "null"

/-- The type without values. -/
def never : TypeExpr := ident "never"

/-- The members that a type has as a union; any other type is its own only member. -/
def alternatives : TypeExpr → List TypeExpr
  | .oneOf ts => ts
  | t => [t]

/-- The union of types: members of unions among them are taken in, and repeated members dropped. -/
def union (ts : List TypeExpr) : TypeExpr :=
  match (ts.flatMap alternatives).eraseDups with
  | [] => never
  | [t] => t
  | distinct => .oneOf distinct

/-- The union of two types. -/
def or (s t : TypeExpr) : TypeExpr := union [s, t]

/-! ## Text -/

/-- The mark behind the key of an optional member. -/
def optionalMark (optional : Bool) : String := if optional then "?" else ""

/-- The text of type parameters. -/
def angled : List String → String
  | [] => ""
  | ps => "<" ++ separated ", " ps ++ ">"

/-- The text of an object type with the given members. -/
def braced : List String → String
  | [] => "\x7b\x7d"
  | ms => "\x7b " ++ separated ", " ms ++ " \x7d"

/-- Parentheses around the text of a type if it is a function. -/
def enclosedIn : TypeExpr → String → String
  | .function .., s => "(" ++ s ++ ")"
  | _, s => s

mutual

/-- The text of a type. -/
def text : TypeExpr → String
  | .named n ps => n.text ++ angled (texts ps)
  | .object ms => braced (memberTexts ms)
  | .function ps r => "(" ++ separated ", " (memberTexts ps) ++ ") => " ++ text r
  | .oneOf ts => separated " | " (alternativeTexts ts)

/-- The texts of types. -/
def texts : List TypeExpr → List String
  | [] => []
  | t :: ts => text t :: texts ts

/-- The texts of the members of a union. -/
def alternativeTexts : List TypeExpr → List String
  | [] => []
  | t :: ts => enclosedIn t (text t) :: alternativeTexts ts

/-- The text of a member. -/
def memberText : Member TypeExpr → String
  | ⟨key, value, optional⟩ => key ++ optionalMark optional ++ ": " ++ text value

/-- The texts of members. -/
def memberTexts : List (Member TypeExpr) → List String
  | [] => []
  | m :: ms => memberText m :: memberTexts ms

end

end TypeExpr

end SchemaTypings.TypeScript
