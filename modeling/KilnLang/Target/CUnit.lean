import KilnLang.Target.CExpr

/-!
# C units

A unit written to C has includes, type definitions, variables, prototypes and function definitions,
in this order. Every statement takes lines of its own, and braces stand alone on theirs.
-/

namespace KilnLang

/-- A variable, a parameter or a type definition: a type and the name it is given. -/
structure CDecl where
  type : CType
  name : String

/-- The text of a declaration. -/
def CDecl.render (d : CDecl) : String := d.type.declare d.name

/-- A variable with its initial value. -/
structure CVar where
  decl : CDecl
  init : Option CExpr

/-- The text of a variable without its final semicolon. -/
def CVar.render (v : CVar) : String :=
  match v.init with
  | some init => v.decl.render ++ " = " ++ init.render
  | none => v.decl.render

/-- The head of a function, which its prototype and its definition share. -/
structure CHead where
  ret : CType
  name : String
  params : List CDecl
  variadic : Bool

/-- The text of a function head. -/
def CHead.render (h : CHead) : String :=
  h.ret.declare (h.name ++ "(" ++ CType.paramList (h.params.map (·.render)) h.variadic ++ ")")

/-- What decides whether the statements in braces run. -/
inductive CGuard where
  | ifCond (cond : CExpr)
  | elseIf (cond : CExpr)
  | otherwise
  | while (cond : CExpr)

/-- The text of a guard. -/
def CGuard.render : CGuard → String
  | .ifCond cond => "if (" ++ cond.render ++ ")"
  | .elseIf cond => "else if (" ++ cond.render ++ ")"
  | .otherwise => "else"
  | .while cond => "while (" ++ cond.render ++ ")"

/-- A C statement. -/
inductive CStmt where
  | expr (value : CExpr)
  | decl (var : CVar)
  | assign (target : CExpr) (op : Option AssignOp) (value : CExpr)
  | ret (value : Option CExpr)
  | guarded (guard : CGuard) (body : List CStmt)
  | block (body : List CStmt)

namespace CStmt

/-- A line at a depth of indentation. -/
def indent (depth : Nat) (text : String) : String :=
  String.ofList (List.replicate (4 * depth) ' ') ++ text

/-- The opening brace of a block. -/
def opening : String := "\x7b"

/-- The closing brace of a block. -/
def closing : String := "\x7d"

mutual

/-- The lines of a statement. -/
def lines (depth : Nat) : CStmt → List String
  | .expr value => [indent depth (value.render ++ ";")]
  | .decl var => [indent depth (var.render ++ ";")]
  | .assign target op value =>
    let symbol := (op.map (·.symbol)).getD "="
    [indent depth (target.render ++ " " ++ symbol ++ " " ++ value.render ++ ";")]
  | .ret none => [indent depth "return;"]
  | .ret (some value) => [indent depth ("return (" ++ value.render ++ ");")]
  | .guarded guard body =>
    indent depth guard.render :: indent depth opening ::
      (linesOf (depth + 1) body ++ [indent depth closing])
  | .block body => indent depth opening :: (linesOf (depth + 1) body ++ [indent depth closing])

/-- The lines of statements. -/
def linesOf (depth : Nat) : List CStmt → List String
  | [] => []
  | s :: ss => s.lines depth ++ linesOf depth ss

end

end CStmt

/-- A C unit; a definition is a head with the statements of its body. -/
structure CUnit where
  includes : List String
  typedefs : List CDecl
  globals : List CVar
  prototypes : List CHead
  definitions : List (CHead × List CStmt)

namespace CUnit

/-- Lines after a blank one, unless there are none. -/
def paragraph (lines : List String) : List String :=
  if lines.isEmpty then [] else "" :: lines

/-- The lines of a unit. -/
def lines (u : CUnit) : List String :=
  u.includes.map (fun header => "#include <" ++ header ++ ">") ++
  paragraph (u.typedefs.map fun d => "typedef " ++ d.render ++ ";") ++
  paragraph (u.globals.map fun v => v.render ++ ";") ++
  paragraph (u.prototypes.map fun h => h.render ++ ";") ++
  u.definitions.flatMap fun (head, body) => "" :: head.render :: (CStmt.block body).lines 0

/-- The text of a unit. -/
def render (u : CUnit) : String := String.join (u.lines.map (· ++ "\n"))

end CUnit

end KilnLang
