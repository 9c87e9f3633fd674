import KilnLang.Target.CType
import KilnLang.Syntax

/-!
# C expressions

The expressions that are written to C. Operands joined by binary operators stay a flat sequence:
their text has no parentheses that the source does not have, and C's precedence decides. Reading
through a pointer and casting bring parentheses of their own.
-/

namespace KilnLang

/-- A C expression. `deref` reads through a pointer, `array` is an unnamed array of the listed
items. -/
inductive CExpr where
  | name (text : String)
  | literal (text : String)
  | deref (inner : CExpr)
  | address (inner : CExpr)
  | paren (inner : CExpr)
  | index (base position : CExpr)
  | prefixed (op : UnaryOp) (inner : CExpr)
  | suffixed (op : UnaryOp) (inner : CExpr)
  | call (callee : CExpr) (args : List CExpr)
  | cast (type : CType) (inner : CExpr)
  | array (type : CType) (items : List CExpr)
  | binary (left : CExpr) (op : BinaryOp) (right : CExpr)
  deriving Inhabited

namespace CExpr

/-- The pointer to nothing. -/
def null : CExpr := .literal "NULL"

mutual

/-- The text of an expression. -/
def render : CExpr → String
  | .name text => text
  | .literal text => text
  | .deref inner => "(*" ++ inner.render ++ ")"
  | .address inner => "&" ++ inner.render
  | .paren inner => "(" ++ inner.render ++ ")"
  | .index base position => base.render ++ "[" ++ position.render ++ "]"
  | .prefixed op inner => op.symbol ++ inner.render
  | .suffixed op inner => inner.render ++ op.symbol
  | .call callee args => callee.render ++ "(" ++ ", ".intercalate (renderEach args) ++ ")"
  | .cast type inner => "((" ++ type.render ++ ")" ++ inner.render ++ ")"
  | .array type items =>
    "(" ++ type.render ++ ")\x7b" ++ ", ".intercalate (renderEach items) ++ "\x7d"
  | .binary left op right => left.render ++ " " ++ op.symbol ++ " " ++ right.render

/-- The texts of expressions. -/
def renderEach : List CExpr → List String
  | [] => []
  | e :: es => e.render :: renderEach es

end

end CExpr

end KilnLang
