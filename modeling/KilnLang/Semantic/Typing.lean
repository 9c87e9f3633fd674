import KilnLang.Syntax

/-!
# Types of operands and expressions

The type of every operand is read off the slots that resolution has filled. An expression with a
comparison or a logical operator is a truth value. Any other expression with operators has the
type of its first floating operand, or else of its first operand, because the output leaves the
arithmetic conversions to C.
-/

namespace KilnLang

/-- The type of an element of an array or of a string. -/
def Ty.element (t : Ty) : Ty :=
  match t.stripRefs with
  | .array elem _ => elem
  | .prim .str => .prim .char
  | _ => .any

/-- The type of the result of a call. -/
def CallTarget.result : CallTarget → Ty
  | .function _ sig => sig.ret
  | .functionValue sig => sig.ret
  | .cFunction sig => sig.ret
  | .macroCall _ _ result => result
  | .cast ty => ty

/-- The type of operands of the given types under arithmetic operators. -/
def Ty.arithmetic (first : Ty) (others : List Ty) : Ty :=
  let operands := (first :: others).map stripRefs
  (operands.find? (·.isFloating)).getD first.stripRefs

mutual

/-- The type of an operand. -/
def Value.ty : Value → Ty
  | .number _ => .int
  | .decimal _ => .prim .double
  | .string _ => .prim .str
  | .char _ => .prim .char
  | .bool _ _ => .prim .bool
  | .null _ => .any
  | .ident name => name.ty
  | .call _ _ _ target _ => (target.map (·.result)).getD .any
  | .index _ base _ => base.ty.element
  | .ref _ inner => .ref inner.ty
  | .prefixed _ .not _ => .prim .bool
  | .prefixed _ _ value => value.ty
  | .suffixed _ _ value => value.ty
  | .paren inner => inner.ty

/-- The type of an expression. -/
def Expr.ty : Expr → Ty
  | .mk _ chain => chain.ty

/-- The type of operands joined by operators. -/
def Chain.ty : Chain → Ty
  | .operand value => value.ty
  | .link value op rest =>
    if (op :: rest.operators).any (·.op.isBoolean) then .prim .bool
    else .arithmetic value.ty rest.operandTys

/-- The types of the operands of a chain. -/
def Chain.operandTys : Chain → List Ty
  | .operand value => [value.ty]
  | .link value _ rest => value.ty :: rest.operandTys

end

/-- What names storage: variables, the array of further arguments and their elements. -/
def Binding.isStorage : Binding → Bool
  | .local _ | .parameter _ | .global _ | .cVariable | .varArgs => true
  | _ => false

/-- Whether an operand names storage, also inside parentheses. -/
def Value.isAddressable : Value → Bool
  | .ident name => name.binding?.any (·.isStorage)
  | .index _ _ _ => true
  | .paren (.mk _ (.operand value)) => value.isAddressable
  | _ => false

/-- Whether an operand is `null`. -/
def Value.isNull : Value → Bool
  | .null _ => true
  | _ => false

/-- Whether an operand is an explicit reference. -/
def Value.isRef : Value → Bool
  | .ref _ _ => true
  | _ => false

namespace Ty

/-- Whether a string literal can initialise a slot of the type: a string or characters. -/
def acceptsString : Ty → Bool
  | .prim .str => true
  | .array (.prim .char) _ => true
  | _ => false

/-- Whether a slot of the type can be empty: a string or a function. -/
def acceptsNull : Ty → Bool
  | .prim .str => true
  | .func _ => true
  | _ => false

/-- Whether a literal fits a slot of the type, which is no reference. -/
def acceptsLiteral (t : Ty) (literal : Value) : Bool :=
  t.isAny || match literal with
    | .number _ | .bool _ _ => t.isNumeric
    | .decimal _ => t.isFloating
    | .string _ => t.acceptsString
    | .char _ => t.isInteger
    | .null _ => t.acceptsNull
    | _ => false

end Ty

/-- The words for the type of a literal. -/
def Value.literalTypeText (literal : Value) : String :=
  if literal.isNull then "null" else literal.ty.render

end KilnLang
