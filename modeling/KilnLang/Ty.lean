/-!
# Types

A type is a primitive, a reference, an array or a function type. **Widths stay symbolic**: `int`
is whatever C's `int` is, and only the C back end turns a width into bits through a data model.

**Signatures** are shared by types and by type expressions, so `Signature` takes the kind of type
as a parameter: the return type, the parameters, and what may follow them.

**Comparison** is structural. `Ty.same` compares two types constructor by constructor, and
`Ty.same_iff` says that it decides equality.
-/

namespace KilnLang

/-- The integer types of C whose width depends on the data model. -/
inductive CWidth where
  | char
  | short
  | int
  | long
  | longLong
  deriving DecidableEq, Repr, Inhabited

/-- The tag that stands for the width in the text of a type. -/
def CWidth.tag : CWidth → String
  | .char => "char_sz"
  | .short => "short_sz"
  | .int => "int_sz"
  | .long => "long_sz"
  | .longLong => "longlong_sz"

/-- All widths, from the narrowest. -/
def CWidth.all : List CWidth := [.char, .short, .int, .long, .longLong]

/-- A number of bits, or the width of one of C's integer types. -/
inductive IntWidth where
  | fixed (bits : Nat)
  | platform (width : CWidth)
  deriving DecidableEq, Repr, Inhabited

/-- The types that are not built from others. `decimal` is the widest floating type. -/
inductive Primitive where
  | int (width : IntWidth)
  | uint (width : IntWidth)
  | float
  | double
  | decimal
  | str
  | char
  | bool
  | void
  | size
  | any
  deriving DecidableEq, Repr, Inhabited

/-- The text of an integer width after the name of its type. -/
def IntWidth.render : IntWidth → String
  | .fixed bits => toString bits
  | .platform width => "\x7b" ++ width.tag ++ "\x7d"

/-- The text of a primitive type. -/
def Primitive.render : Primitive → String
  | .int width => "@int" ++ width.render
  | .uint width => "@uint" ++ width.render
  | .float => "@float"
  | .double => "@double"
  | .decimal => "@decimal"
  | .str => "@str"
  | .char => "@char"
  | .bool => "@bool"
  | .void => "@void"
  | .size => "@size"
  | .any => "@any"

/-! ## Signatures and types -/

/-- What a function accepts beyond its parameters: nothing, arguments of any type, or arguments
of one type. -/
inductive Rest (τ : Type) where
  | none
  | untyped
  | typed (elem : τ)
  deriving DecidableEq, Repr, Inhabited

/-- Whether further arguments are accepted. -/
def Rest.isOpen {τ : Type} : Rest τ → Bool
  | .none => false
  | .untyped => true
  | .typed _ => true

/-- The element type of typed further arguments. -/
def Rest.elem? {τ : Type} : Rest τ → Option τ
  | .none => Option.none
  | .untyped => Option.none
  | .typed elem => some elem

/-- A function's return type, its parameters and what may follow them. -/
structure Signature (τ : Type) where
  ret : τ
  params : List τ
  rest : Rest τ
  deriving Repr, Inhabited

/-- A type. An array without a length has an unknown number of elements. -/
inductive Ty where
  | prim (p : Primitive)
  | ref (inner : Ty)
  | array (elem : Ty) (length : Option Nat)
  | func (sig : Signature Ty)
  deriving Repr, Inhabited

namespace Ty

/-- The type of integer literals. -/
def int : Ty := .prim (.int (.platform .int))

/-- The type that accepts and produces anything. -/
def any : Ty := .prim .any

/-! ## Text -/

mutual

/-- The text of a type. -/
def render : Ty → String
  | .prim p => p.render
  | .ref inner => "ref " ++ inner.render
  | .array elem none => elem.render ++ "[]"
  | .array elem (some n) => elem.render ++ "[" ++ toString n ++ "]"
  | .func sig => renderSignature sig

/-- The text of a signature: `func<ret(params, rest)>`. -/
def renderSignature : Signature Ty → String
  | ⟨ret, params, rest⟩ =>
    "func<" ++ ret.render ++ "(" ++ ", ".intercalate (renderEach params ++ renderRest rest) ++ ")>"

/-- The text of each type of a list. -/
def renderEach : List Ty → List String
  | [] => []
  | t :: ts => t.render :: renderEach ts

/-- The marker for further arguments, if there is one. -/
def renderRest : Rest Ty → List String
  | .none => []
  | .untyped => ["..."]
  | .typed elem => [elem.render ++ "..."]

end

/-! ## Structural comparison -/

mutual

/-- Compares two types constructor by constructor. -/
def same : Ty → Ty → Bool
  | .prim p, .prim q => p == q
  | .ref a, .ref b => same a b
  | .array a m, .array b n => m == n && same a b
  | .func f, .func g => sameSignature f g
  | _, _ => false

/-- Compares two signatures part by part. -/
def sameSignature : Signature Ty → Signature Ty → Bool
  | ⟨ret, params, rest⟩, ⟨ret', params', rest'⟩ =>
    sameEach params params' && sameRest rest rest' && same ret ret'

/-- Compares two lists of types place by place. -/
def sameEach : List Ty → List Ty → Bool
  | [], [] => true
  | a :: as, b :: bs => same a b && sameEach as bs
  | _, _ => false

/-- Compares what two signatures accept beyond their parameters. -/
def sameRest : Rest Ty → Rest Ty → Bool
  | .none, .none => true
  | .untyped, .untyped => true
  | .typed a, .typed b => same a b
  | _, _ => false

end

mutual

theorem same_iff (a b : Ty) : same a b = true ↔ a = b := by
  cases a with
  | prim p => cases b <;> simp [same]
  | ref a =>
    cases b with
    | ref b => simp [same, same_iff a b]
    | _ => simp [same]
  | array a m =>
    cases b with
    | array b n => simp [same, same_iff a b, and_comm]
    | _ => simp [same]
  | func f =>
    cases b with
    | func g => simp [same, sameSignature_iff f g]
    | _ => simp [same]

theorem sameSignature_iff (f g : Signature Ty) : sameSignature f g = true ↔ f = g := by
  obtain ⟨ret, params, rest⟩ := f
  obtain ⟨ret', params', rest'⟩ := g
  simp only [sameSignature, Bool.and_eq_true, sameEach_iff params params',
    sameRest_iff rest rest', same_iff ret ret', Signature.mk.injEq]
  exact ⟨fun h => ⟨h.2, h.1.1, h.1.2⟩, fun h => ⟨⟨h.2.1, h.2.2⟩, h.1⟩⟩

theorem sameEach_iff (as bs : List Ty) : sameEach as bs = true ↔ as = bs := by
  cases as with
  | nil => cases bs <;> simp [sameEach]
  | cons a as =>
    cases bs with
    | nil => simp [sameEach]
    | cons b bs => simp [sameEach, same_iff a b, sameEach_iff as bs]

theorem sameRest_iff (r s : Rest Ty) : sameRest r s = true ↔ r = s := by
  cases r with
  | none => cases s <;> simp [sameRest]
  | untyped => cases s <;> simp [sameRest]
  | typed a =>
    cases s with
    | typed b => simp [sameRest, same_iff a b]
    | _ => simp [sameRest]

end

instance : DecidableEq Ty := fun a b =>
  if h : same a b = true then isTrue ((same_iff a b).1 h)
  else isFalse fun e => h ((same_iff a b).2 e)

instance : DecidableEq (Signature Ty) := fun f g =>
  if h : sameSignature f g = true then isTrue ((sameSignature_iff f g).1 h)
  else isFalse fun e => h ((sameSignature_iff f g).2 e)

/-! ## Kinds of types -/

/-- The type behind all references. -/
def stripRefs : Ty → Ty
  | .ref inner => inner.stripRefs
  | t => t

/-- Whether the type is `void`. -/
def isVoid : Ty → Bool
  | .prim .void => true
  | _ => false

/-- Whether the type is `any`. -/
def isAny : Ty → Bool
  | .prim .any => true
  | _ => false

/-- Whether the type is a reference. -/
def isRef : Ty → Bool
  | .ref _ => true
  | _ => false

/-- Whether the type is one of the integer types, a character or a size. -/
def isInteger : Ty → Bool
  | .prim (.int _) | .prim (.uint _) | .prim .char | .prim .size => true
  | _ => false

/-- Whether the type is a floating type. -/
def isFloating : Ty → Bool
  | .prim .float | .prim .double | .prim .decimal => true
  | _ => false

/-- Whether values of the type convert to any other number: integers, floating types and truth
values. -/
def isNumeric : Ty → Bool
  | .prim .bool => true
  | t => t.isInteger || t.isFloating

/-- The signature of a function type, seen through references. -/
def signature? (t : Ty) : Option (Signature Ty) :=
  match t.stripRefs with
  | .func sig => some sig
  | _ => none

end Ty

end KilnLang
