import KilnLang.Proofs.Semantic.Sites

/-!
# The operands, types and variables of a unit

What the parts of a unit contain, at any depth: the operands of an expression, the expressions and
variables of a statement, and the names in a type.

The last `defaulted` arguments of a call are copies of defaults. An operand comes with the functions
from whose defaults the copies around it were made, the innermost first.
-/

namespace KilnLang

/-! ## Operands -/

/-- An operand where it stands. `inside` are the functions whose defaults it was copied from. -/
structure Operand where
  inside : List DeclId
  value : Value

/-- The function whose defaults complete a call. -/
def CallTarget.owner : Option CallTarget → List DeclId
  | some (.function decl _) => [decl]
  | _ => []

mutual

/-- The operands of an expression. -/
def Expr.operands (inside : List DeclId) : Expr → List Operand
  | .mk _ chain => chain.operands inside

/-- The operands of a chain. -/
def Chain.operands (inside : List DeclId) : Chain → List Operand
  | .operand value => value.operands inside
  | .link value _ rest => value.operands inside ++ rest.operands inside

/-- The operand and those in it. -/
def Value.operands (inside : List DeclId) : Value → List Operand
  | .call span callee args target defaulted =>
    ⟨inside, .call span callee args target defaulted⟩ ::
      Value.operandsEach inside (CallTarget.owner target ++ inside) (args.length - defaulted) args
  | .index span base position =>
    ⟨inside, .index span base position⟩ :: (base.operands inside ++ position.operands inside)
  | .ref span inner => ⟨inside, .ref span inner⟩ :: inner.operands inside
  | .prefixed span op inner => ⟨inside, .prefixed span op inner⟩ :: inner.operands inside
  | .suffixed span op inner => ⟨inside, .suffixed span op inner⟩ :: inner.operands inside
  | .paren inner => ⟨inside, .paren inner⟩ :: inner.operands inside
  | .ident name => [⟨inside, .ident name⟩]
  | .number lit => [⟨inside, .number lit⟩]
  | .decimal lit => [⟨inside, .decimal lit⟩]
  | .string lit => [⟨inside, .string lit⟩]
  | .char lit => [⟨inside, .char lit⟩]
  | .bool span b => [⟨inside, .bool span b⟩]
  | .null span => [⟨inside, .null span⟩]

/-- The operands of arguments, of which the first `written` ones stand `inside` what the call does
and the others are `copied`. -/
def Value.operandsEach (inside copied : List DeclId) (written : Nat) : List Expr → List Operand
  | [] => []
  | e :: es =>
    e.operands (if written = 0 then copied else inside) ++
      Value.operandsEach inside copied (written - 1) es

end

/-- Every operand of the expression has the property. -/
def Expr.Has (P : Value → Prop) (e : Expr) : Prop := ∃ inside, ∀ o ∈ e.operands inside, P o.value

/-- The operand and every operand in it have the property. -/
def Value.Has (P : Value → Prop) (v : Value) : Prop := ∃ inside, ∀ o ∈ v.operands inside, P o.value

section Has

variable {P : Value → Prop}

mutual

/-- What every operand of an expression has, every operand in each of them has. -/
theorem Expr.has_operands : ∀ {e : Expr} {inside : List DeclId},
    (∀ o ∈ e.operands inside, P o.value) → ∀ o ∈ e.operands inside, o.value.Has P
  | .mk _ c, inside, h => by
    simp only [Expr.operands] at h ⊢
    exact Chain.has_operands h

theorem Chain.has_operands : ∀ {c : Chain} {inside : List DeclId},
    (∀ o ∈ c.operands inside, P o.value) → ∀ o ∈ c.operands inside, o.value.Has P
  | .operand v, inside, h => by
    simp only [Chain.operands] at h ⊢
    exact Value.has_operands h
  | .link v _ rest, inside, h => by
    simp only [Chain.operands, List.forall_mem_append] at h ⊢
    exact ⟨Value.has_operands h.1, Chain.has_operands h.2⟩

theorem Value.has_operands : ∀ {v : Value} {inside : List DeclId},
    (∀ o ∈ v.operands inside, P o.value) → ∀ o ∈ v.operands inside, o.value.Has P
  | .call span callee args target defaulted, inside, h => by
    have hself : Value.Has P _ := ⟨inside, h⟩
    simp only [Value.operands, List.forall_mem_cons] at h ⊢
    exact ⟨hself, Value.has_operandsEach h.2⟩
  | .index span base position, inside, h => by
    have hself : Value.Has P _ := ⟨inside, h⟩
    simp only [Value.operands, List.forall_mem_cons, List.forall_mem_append] at h ⊢
    exact ⟨hself, Value.has_operands h.2.1, Expr.has_operands h.2.2⟩
  | .ref _ inner, inside, h | .prefixed _ _ inner, inside, h | .suffixed _ _ inner, inside, h => by
    have hself : Value.Has P _ := ⟨inside, h⟩
    simp only [Value.operands, List.forall_mem_cons] at h ⊢
    exact ⟨hself, Value.has_operands h.2⟩
  | .paren inner, inside, h => by
    have hself : Value.Has P _ := ⟨inside, h⟩
    simp only [Value.operands, List.forall_mem_cons] at h ⊢
    exact ⟨hself, Expr.has_operands h.2⟩
  | .ident _, inside, h | .number _, inside, h | .decimal _, inside, h | .string _, inside, h
  | .char _, inside, h | .bool _ _, inside, h | .null _, inside, h => by
    have hself : Value.Has P _ := ⟨inside, h⟩
    simp only [Value.operands, List.forall_mem_singleton]
    exact hself

theorem Value.has_operandsEach : ∀ {es : List Expr} {inside copied : List DeclId} {written : Nat},
    (∀ o ∈ Value.operandsEach inside copied written es, P o.value) →
      ∀ o ∈ Value.operandsEach inside copied written es, o.value.Has P
  | [], _, _, _, _ => by simp [Value.operandsEach]
  | e :: es, inside, copied, written, h => by
    simp only [Value.operandsEach, List.forall_mem_append] at h ⊢
    exact ⟨Expr.has_operands h.1, Value.has_operandsEach h.2⟩

end

end Has

/-- The name that an operand uses or calls. -/
def Value.name? : Value → Option DottedName
  | .ident name => some name
  | .call _ callee _ _ _ => some callee
  | _ => none

mutual

theorem Expr.name_mem_names : ∀ {e : Expr} {inside : List DeclId}, ∀ o ∈ e.operands inside,
    ∀ n, o.value.name? = some n → n ∈ e.names
  | .mk _ c, inside => by
    simp only [Expr.operands, Expr.names]
    exact Chain.name_mem_names

theorem Chain.name_mem_names : ∀ {c : Chain} {inside : List DeclId}, ∀ o ∈ c.operands inside,
    ∀ n, o.value.name? = some n → n ∈ c.names
  | .operand v, inside => by
    simp only [Chain.operands, Chain.names]
    exact Value.name_mem_names
  | .link v _ rest, inside => by
    simp only [Chain.operands, Chain.names, List.mem_append]
    rintro o (ho | ho) n hn
    · exact .inl (Value.name_mem_names o ho n hn)
    · exact .inr (Chain.name_mem_names o ho n hn)

theorem Value.name_mem_names : ∀ {v : Value} {inside : List DeclId}, ∀ o ∈ v.operands inside,
    ∀ n, o.value.name? = some n → n ∈ v.names
  | .call span callee args target defaulted, inside => by
    simp only [Value.operands, Value.names, List.forall_mem_cons]
    refine ⟨?_, fun o ho n hn => List.mem_cons_of_mem _ (Value.name_mem_namesEach o ho n hn)⟩
    rintro n ⟨⟩
    exact List.mem_cons_self
  | .index span base position, inside => by
    simp only [Value.operands, Value.names, List.forall_mem_cons, List.mem_append]
    refine ⟨by simp [Value.name?], ?_⟩
    rintro o (ho | ho) n hn
    · exact .inl (Value.name_mem_names o ho n hn)
    · exact .inr (Expr.name_mem_names o ho n hn)
  | .ref _ inner, inside | .prefixed _ _ inner, inside | .suffixed _ _ inner, inside => by
    simp only [Value.operands, Value.names, List.forall_mem_cons]
    exact ⟨by simp [Value.name?], Value.name_mem_names⟩
  | .paren inner, inside => by
    simp only [Value.operands, Value.names, List.forall_mem_cons]
    exact ⟨by simp [Value.name?], Expr.name_mem_names⟩
  | .ident name, inside => by
    simp only [Value.operands, Value.names, List.forall_mem_singleton]
    rintro n ⟨⟩
    exact List.mem_cons_self
  | .number _, _ | .decimal _, _ | .string _, _ | .char _, _ | .bool _ _, _ | .null _, _ => by
    simp [Value.operands, Value.name?]

theorem Value.name_mem_namesEach : ∀ {es : List Expr} {inside copied : List DeclId} {written : Nat},
    ∀ o ∈ Value.operandsEach inside copied written es, ∀ n, o.value.name? = some n →
      n ∈ Value.namesEach es
  | [], _, _, _ => by simp [Value.operandsEach]
  | e :: es, inside, copied, written => by
    simp only [Value.operandsEach, Value.namesEach, List.mem_append]
    rintro o (ho | ho) n hn
    · exact .inl (Expr.name_mem_names o ho n hn)
    · exact .inr (Value.name_mem_namesEach o ho n hn)

end

/-! ## Expressions and variables -/

mutual

/-- The expressions of a statement, the target of an assignment included. -/
def Stmt.exprs : Stmt → List Expr
  | .expr e => [e]
  | .decl var => var.init.toList
  | .assign _ target _ e => [target.alone, e]
  | .ret _ e => e.toList
  | .cond list => Branch.exprsEach list
  | .loop _ cond body => cond :: Stmt.exprsEach body
  | .block _ body => Stmt.exprsEach body

/-- The expressions of statements. -/
def Stmt.exprsEach : List Stmt → List Expr
  | [] => []
  | s :: ss => s.exprs ++ Stmt.exprsEach ss

/-- The expressions of a branch. -/
def Branch.exprs : Branch → List Expr
  | .mk _ g body => g.cond?.toList ++ Stmt.exprsEach body

/-- The expressions of branches. -/
def Branch.exprsEach : List Branch → List Expr
  | [] => []
  | b :: bs => b.exprs ++ Branch.exprsEach bs

end

mutual

/-- The variables that a statement declares. -/
def Stmt.vars : Stmt → List VarDecl
  | .decl var => [var]
  | .cond list => Branch.varsEach list
  | .loop _ _ body => Stmt.varsEach body
  | .block _ body => Stmt.varsEach body
  | .expr _ | .assign _ _ _ _ | .ret _ _ => []

/-- The variables that statements declare. -/
def Stmt.varsEach : List Stmt → List VarDecl
  | [] => []
  | s :: ss => s.vars ++ Stmt.varsEach ss

/-- The variables that a branch declares. -/
def Branch.vars : Branch → List VarDecl
  | .mk _ _ body => Stmt.varsEach body

/-- The variables that branches declare. -/
def Branch.varsEach : List Branch → List VarDecl
  | [] => []
  | b :: bs => b.vars ++ Branch.varsEach bs

end

/-- The expressions in the body of a function. -/
def Function.exprs (f : Function) : List Expr := Stmt.exprsEach (f.body.getD [])

/-- The variables in the body of a function. -/
def Function.vars (f : Function) : List VarDecl := Stmt.varsEach (f.body.getD [])

/-- The defaults of the parameters of a function. -/
def Function.defaults (f : Function) : List Expr := f.params.filterMap (·.default)

/-- The expressions of a part. -/
def Node.exprs : Node → List Expr
  | .function f => f.defaults ++ f.exprs
  | .global g => g.init.toList
  | .header _ | .alias _ => []

mutual

/-- The sites of a statement are its expressions, whatever is declared around them. -/
theorem Stmt.expr_sites : ∀ (scopes : List Frame) (s : Stmt),
    (s.sites scopes).map (·.expr) = s.exprs
  | _, .expr _ => rfl
  | _, .decl var => by simp [Stmt.sites, Stmt.exprs, Function.comp_def]
  | _, .assign _ _ _ _ => rfl
  | _, .ret _ e => by simp [Stmt.sites, Stmt.exprs, Function.comp_def]
  | scopes, .cond list => by
    simp only [Stmt.sites, Stmt.exprs]
    exact Branch.expr_sitesEach scopes list
  | scopes, .loop _ _ body => by
    simp only [Stmt.sites, Stmt.exprs, List.map_cons, Stmt.expr_sitesEach]
  | scopes, .block _ body => by
    simp only [Stmt.sites, Stmt.exprs, Stmt.expr_sitesEach]

theorem Stmt.expr_sitesEach : ∀ (scopes : List Frame) (ss : List Stmt),
    (Stmt.sitesEach scopes ss).map (·.expr) = Stmt.exprsEach ss
  | _, [] => rfl
  | scopes, s :: ss => by
    simp only [Stmt.sitesEach, Stmt.exprsEach, List.map_append, Stmt.expr_sites scopes s,
      Stmt.expr_sitesEach]

theorem Branch.expr_sites : ∀ (scopes : List Frame) (b : Branch),
    (b.sites scopes).map (·.expr) = b.exprs
  | scopes, .mk _ g body => by
    simp [Branch.sites, Branch.exprs, Stmt.expr_sitesEach, Function.comp_def]

theorem Branch.expr_sitesEach : ∀ (scopes : List Frame) (bs : List Branch),
    (Branch.sitesEach scopes bs).map (·.expr) = Branch.exprsEach bs
  | _, [] => rfl
  | scopes, b :: bs => by
    simp only [Branch.sitesEach, Branch.exprsEach, List.map_append, Branch.expr_sites scopes b,
      Branch.expr_sitesEach scopes bs]

end

theorem Function.expr_sites (f : Function) (first : DeclId) :
    (f.sites first).map (·.expr) = f.exprs :=
  Stmt.expr_sitesEach _ _

/-! ## Names in types -/

namespace TypeExpr

mutual

/-- The names in a type. -/
def typeNames : TypeExpr → List DottedName
  | .named name => [name]
  | .ref _ inner => inner.typeNames
  | .array _ elem _ => elem.typeNames
  | .func _ sig => typeNamesOf sig

/-- The names in a signature. -/
def typeNamesOf : Signature TypeExpr → List DottedName
  | ⟨ret, params, rest⟩ => ret.typeNames ++ typeNamesEach params ++ typeNamesRest rest

/-- The names in types. -/
def typeNamesEach : List TypeExpr → List DottedName
  | [] => []
  | t :: ts => t.typeNames ++ typeNamesEach ts

/-- The names in the type of further arguments. -/
def typeNamesRest : Rest TypeExpr → List DottedName
  | .none => []
  | .untyped => []
  | .typed elem => elem.typeNames

end

end TypeExpr

end KilnLang
