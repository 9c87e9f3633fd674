import KilnLang.Semantic.Context

/-!
# Names and the declarations around them

Where names are used, and which parameters and variables are declared there. A **site** is an
expression in the body of a function with the frames of declarations around it. The innermost frame
comes first, and in each frame the latest declaration. A branch, a loop and a block open a frame;
the parameters share theirs with the top level of the body. A variable is declared after its
initial value.
-/

namespace KilnLang

/-! ## Names in expressions -/

mutual

/-- The names that an expression uses as values or calls. -/
def Expr.names : Expr → List DottedName
  | .mk _ chain => chain.names

/-- The names that operands use. -/
def Chain.names : Chain → List DottedName
  | .operand value => value.names
  | .link value _ rest => value.names ++ rest.names

/-- The names that an operand uses. -/
def Value.names : Value → List DottedName
  | .ident name => [name]
  | .call _ callee args _ _ => callee :: Value.namesEach args
  | .index _ base position => base.names ++ position.names
  | .ref _ inner => inner.names
  | .prefixed _ _ inner => inner.names
  | .suffixed _ _ inner => inner.names
  | .paren inner => inner.names
  | .number _ | .decimal _ | .string _ | .char _ | .bool _ _ | .null _ => []

/-- The names that arguments use. -/
def Value.namesEach : List Expr → List DottedName
  | [] => []
  | e :: es => e.names ++ Value.namesEach es

end

/-- All names that the expression uses satisfy `P`. -/
def Expr.Every (P : DottedName → Prop) (e : Expr) : Prop := ∀ name ∈ e.names, P name

/-! ## Frames -/

/-- A parameter or a variable of a function where it is declared. -/
structure Declared where
  kind : DeclKind
  ty : TypeExpr
  name : Ident
  decl : Option DeclId

/-- What a scope declares up to some place, latest first. -/
abbrev Frame := List Declared

/-- The variable as it is declared. -/
def VarDecl.declared (var : VarDecl) : Declared := ⟨.local, var.ty, var.name, var.decl⟩

/-- The frames after a declaration in the innermost one. -/
def Frame.declare {α : Type} (d : α) : List (List α) → List (List α)
  | [] => []
  | frame :: outer => (d :: frame) :: outer

/-- The innermost declaration of a name. -/
def Frame.innermost? (frames : List Frame) (name : String) : Option Declared :=
  frames.findSome? (·.find? (·.name.text == name))

theorem Frame.innermost?_eq_none {frames : List Frame} {name : String} :
    Frame.innermost? frames name = none ↔ ∀ frame ∈ frames, ∀ d ∈ frame, d.name.text ≠ name := by
  simp [Frame.innermost?, List.findSome?_eq_none_iff]

theorem Frame.innermost?_mem {frames : List Frame} {name : String} {d : Declared}
    (h : Frame.innermost? frames name = some d) :
    d.name.text = name ∧ ∃ frame ∈ frames, d ∈ frame := by
  obtain ⟨frame, hframe, hfind⟩ := List.exists_of_findSome?_eq_some h
  exact ⟨by simpa using List.find?_some hfind, frame, hframe, List.mem_of_find?_eq_some hfind⟩

/-- The parameters of a function, whose declarations are numbered from `first`. -/
def Frame.ofParams (frame : Frame) (first : DeclId) : List Param → Frame
  | [] => frame
  | p :: ps => Frame.ofParams (⟨.parameter, p.ty, p.name, some first⟩ :: frame) (first + 1) ps

/-! ## Sites -/

/-- An expression where it stands: what is declared there, and whose initial value it is. -/
structure Site where
  scopes : List Frame
  own : Option Declared
  expr : Expr

/-- An operand as an expression. -/
def Value.alone (v : Value) : Expr := .mk v.span (.operand v)

/-- The frames after a statement. -/
def Stmt.declare (scopes : List Frame) : Stmt → List Frame
  | .decl var => Frame.declare var.declared scopes
  | _ => scopes

mutual

/-- The expressions of a statement. -/
def Stmt.sites (scopes : List Frame) : Stmt → List Site
  | .expr e => [⟨scopes, none, e⟩]
  | .decl var => var.init.toList.map (⟨scopes, some var.declared, ·⟩)
  | .assign _ target _ e => [⟨scopes, none, target.alone⟩, ⟨scopes, none, e⟩]
  | .ret _ e => e.toList.map (⟨scopes, none, ·⟩)
  | .cond list => Branch.sitesEach scopes list
  | .loop _ cond body => ⟨scopes, none, cond⟩ :: Stmt.sitesEach ([] :: scopes) body
  | .block _ body => Stmt.sitesEach ([] :: scopes) body

/-- The expressions of statements. -/
def Stmt.sitesEach (scopes : List Frame) : List Stmt → List Site
  | [] => []
  | s :: ss => s.sites scopes ++ Stmt.sitesEach (s.declare scopes) ss

/-- The expressions of a branch. -/
def Branch.sites (scopes : List Frame) : Branch → List Site
  | .mk _ g body => g.cond?.toList.map (⟨scopes, none, ·⟩) ++ Stmt.sitesEach ([] :: scopes) body

/-- The expressions of branches. -/
def Branch.sitesEach (scopes : List Frame) : List Branch → List Site
  | [] => []
  | b :: bs => b.sites scopes ++ Branch.sitesEach scopes bs

end

/-- The expressions in the body of a function whose parameters are numbered from `first`. -/
def Function.sites (f : Function) (first : DeclId) : List Site :=
  Stmt.sitesEach [Frame.ofParams [] first f.params] (f.body.getD [])

end KilnLang
