import KilnLang.Ty

/-!
# Compatibility of types

Which values fit into which slots. **Storing** reads through references on both sides and lets
numbers convert into each other, as C does. **Binding** a reference demands that the referenced
types agree, because the receiver writes through it; only array lengths may differ. Function
types match when their signatures do, and the first difference is reported.
-/

namespace KilnLang

/-- The place of the first difference between two signatures; parameters count from zero. -/
inductive SignaturePosition where
  | parameter (index : Nat)
  | rest
  | ret
  | arity (expected found : Nat)
  deriving DecidableEq, Repr, Inhabited

/-- The text of a position, where parameters count from one. -/
def SignaturePosition.render : SignaturePosition → String
  | .parameter index => s!"parameter {index + 1}"
  | .rest => "variadic parameter"
  | .ret => "return type"
  | .arity expected found => s!"parameter count ({expected} expected, {found} found)"

namespace Ty

/-- The first place, counted from `index`, where two lists of types differ. -/
def differsAt? (index : Nat) : List Ty → List Ty → Option Nat
  | a :: as, b :: bs => if same a b then differsAt? (index + 1) as bs else some index
  | _, _ => none

/-- The first difference between two signatures: the number of parameters, then each parameter,
then what may follow them, then the return type. -/
def firstDifference? (expected found : Signature Ty) : Option SignaturePosition :=
  if expected.params.length ≠ found.params.length then
    some (.arity expected.params.length found.params.length)
  else
    match differsAt? 0 expected.params found.params with
    | some index => some (.parameter index)
    | none =>
      if !sameRest expected.rest found.rest then some .rest
      else if !same expected.ret found.ret then some .ret
      else none

/-- Why a value does not fit a slot: another type, or another signature. -/
inductive Incompatibility where
  | type
  | signature (position : SignaturePosition)
  deriving DecidableEq, Repr, Inhabited

/-- Two function types fit when their signatures do not differ. -/
def matchSignatures (found expected : Signature Ty) : Except Incompatibility Unit :=
  match firstDifference? expected found with
  | some position => .error (.signature position)
  | none => .ok ()

/-- Whether two types convert when neither is `any`, a reference or a function: a string and an
array of characters, arrays of one element type, numbers, and equal types. -/
def converts : Ty → Ty → Bool
  | .array a _, .array b _ => same a b
  | .array a _, .prim .str => same a (.prim .char)
  | .prim .str, .array b _ => same b (.prim .char)
  | a, b => (a.isNumeric && b.isNumeric) || same a b

/-- Whether a value of type `found` can be stored into a slot of type `expected`. -/
def checkStore (found expected : Ty) : Except Incompatibility Unit :=
  let found := found.stripRefs
  let expected := expected.stripRefs
  if expected.isAny || found.isAny then .ok ()
  else match found, expected with
    | .func f, .func e => matchSignatures f e
    | _, _ => if converts found expected then .ok () else .error .type

/-- Whether a reference to a value of type `found` can be bound to a slot of type `expected`. -/
def checkBind (found expected : Ty) : Except Incompatibility Unit :=
  let found := found.stripRefs
  let expected := expected.stripRefs
  if expected.isAny || found.isAny then .ok ()
  else match found, expected with
    | .func f, .func e => matchSignatures f e
    | .array f _, .array e _ => if same f e then .ok () else .error .type
    | _, _ => if same found expected then .ok () else .error .type

end Ty

end KilnLang
