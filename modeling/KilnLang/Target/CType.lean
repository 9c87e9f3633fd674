/-!
# C types and declarators

A C declaration writes a type around the name that it declares. `CType.declare` wraps the text of
a declarator, which is empty for a type without a name, from the outermost part of the type to the
specifier at its base. Stars stand right after the specifier, and brackets and parameter lists
bind tighter than stars, so a pointer to an array or to a function takes parentheses.
-/

namespace KilnLang

/-- A C type. The text of a named type is written as it is. -/
inductive CType where
  | named (text : String)
  | pointer (target : CType)
  | array (elem : CType) (length : Option Nat)
  | function (ret : CType) (params : List CType) (variadic : Bool)
  deriving Repr, Inhabited

namespace CType

/-- Whether declarators of the type are written after the name: an array or a function. -/
def isSuffixed : CType → Bool
  | .array _ _ => true
  | .function _ _ _ => true
  | .named _ => false
  | .pointer _ => false

/-- Whether a declarator follows its specifier without a space: one that is empty but for stars, or
that goes on with brackets. -/
def hugs (declarator : List Char) : Bool :=
  match declarator.dropWhile (· == '*') with
  | [] => true
  | c :: _ => c == '['

/-- A specifier with a declarator, whose stars stand right after the specifier. -/
def attach (specifier declarator : String) : String :=
  let chars := declarator.toList
  let stars := String.ofList (chars.takeWhile (· == '*'))
  let rest := String.ofList (chars.dropWhile (· == '*'))
  specifier ++ stars ++ (if hugs chars then "" else " ") ++ rest

/-- The entries of a parameter list, with the marker for further arguments. -/
def paramList (params : List String) (variadic : Bool) : String :=
  match params ++ (if variadic then ["..."] else []) with
  | [] => "void"
  | entries => ", ".intercalate entries

mutual

/-- The text of a declaration of `inner` with the type. -/
def declare : CType → String → String
  | .named text, inner => attach text inner
  | .pointer target, inner =>
    target.declare (if target.isSuffixed then "(*" ++ inner ++ ")" else "*" ++ inner)
  | .array elem length, inner =>
    elem.declare (inner ++ "[" ++ (length.map toString).getD "" ++ "]")
  | .function ret params variadic, inner =>
    ret.declare (inner ++ "(" ++ paramList (renderEach params) variadic ++ ")")

/-- The texts of types without names. -/
def renderEach : List CType → List String
  | [] => []
  | t :: ts => t.declare "" :: renderEach ts

end

/-- The text of a type without a name. -/
def render (t : CType) : String := t.declare ""

end CType

end KilnLang
