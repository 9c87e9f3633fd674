import KilnLang.Compiler
import KilnLang.Proofs.Semantic.SpanlessChecking

/-!
# Texts of units without spans

What is written for a unit has no places in it: neither its dump (`SourceUnit.dump_unspanned`) nor its
C (`SourceUnit.toC_unspanned`) depends on the spans of the unit and of its declarations.
-/

namespace KilnLang

/-! ## Dumps -/

namespace Dump

theorem dotted_unspanned (name : DottedName) : dotted name.unspanned = dotted name := by
  simp [dotted, DottedName.unspanned, Function.comp_def]

mutual

theorem ofType_unspanned : ∀ ty : TypeExpr, ofType ty.unspanned = ofType ty
  | .named name => dotted_unspanned name
  | .ref _ inner => by rw [TypeExpr.unspanned, ofType, ofType, ofType_unspanned inner]
  | .array _ elem _ => by rw [TypeExpr.unspanned, ofType, ofType, ofType_unspanned elem]
  | .func _ sig => by rw [TypeExpr.unspanned, ofType, ofType, ofSignature_unspanned sig]

theorem ofSignature_unspanned : ∀ sig : Signature TypeExpr,
    ofSignature (Signature.unspanned sig) = ofSignature sig
  | ⟨ret, params, rest⟩ => by
    rw [Signature.unspanned, ofSignature, ofSignature, ofType_unspanned ret,
      ofTypes_unspanned params, ofRest_unspanned rest]

theorem ofTypes_unspanned : ∀ tys : List TypeExpr,
    ofTypes (TypeExpr.unspannedEach tys) = ofTypes tys
  | [] => rfl
  | ty :: tys => by
    rw [TypeExpr.unspannedEach, ofTypes, ofTypes, ofType_unspanned ty, ofTypes_unspanned tys]

theorem ofRest_unspanned : ∀ rest : Rest TypeExpr, ofRest (Rest.unspanned rest) = ofRest rest
  | .none => rfl
  | .untyped => rfl
  | .typed elem => by rw [Rest.unspanned, ofRest, ofRest, ofType_unspanned elem]

end

theorem ofCall_unspanned (callee : DottedName) (target : Option CallTarget) (defaulted : Nat)
    (args : DumpTree) :
    ofCall callee.unspanned target defaulted args = ofCall callee target defaulted args := by
  unfold ofCall
  rw [dotted_unspanned]

mutual

theorem ofExpr_unspanned : ∀ e : Expr, ofExpr e.unspanned = ofExpr e
  | .mk _ chain => by rw [Expr.unspanned, ofExpr, ofExpr, ofChain_unspanned chain]

theorem ofChain_unspanned : ∀ c : Chain, ofChain c.unspanned = ofChain c
  | .operand v => by rw [Chain.unspanned, ofChain, ofChain, ofValue_unspanned v]
  | .link v op rest => by
    rw [Chain.unspanned, ofChain, ofChain, ofValue_unspanned v, ofChain_unspanned rest]
    rfl

theorem ofValue_unspanned : ∀ v : Value, ofValue v.unspanned = ofValue v
  | .ident name => dotted_unspanned name
  | .call _ callee args target defaulted => by
    rw [Value.unspanned, ofValue, ofValue, ofCall_unspanned, ofExprs_unspanned args]
  | .index _ base position => by
    rw [Value.unspanned, ofValue, ofValue, ofExpr_unspanned position, ofValue_unspanned base]
  | .ref _ inner | .prefixed _ _ inner | .suffixed _ _ inner => by
    rw [Value.unspanned, ofValue, ofValue, ofValue_unspanned inner]
  | .paren inner => ofExpr_unspanned inner
  | .number _ | .decimal _ | .string _ | .char _ | .bool _ _ | .null _ => rfl

theorem ofExprs_unspanned : ∀ es : List Expr, ofExprs (Expr.unspannedEach es) = ofExprs es
  | [] => rfl
  | e :: es => by
    rw [Expr.unspannedEach, ofExprs, ofExprs, ofExpr_unspanned e, ofExprs_unspanned es]

end

theorem map_ofExpr_unspanned (e : Option Expr) :
    (e.map (·.unspanned)).map ofExpr = e.map ofExpr := by
  rw [Option.map_map]
  exact congrArg (Option.map · e) (funext ofExpr_unspanned)

theorem ofVariable_unspanned (ty : TypeExpr) (name : Ident) (init : Option Expr) :
    ofVariable ty.unspanned name.unspanned (init.map (·.unspanned)) = ofVariable ty name init := by
  unfold ofVariable
  rw [ofType_unspanned, Option.map_map]
  simp only [Function.comp_def, ofExpr_unspanned]
  rfl

mutual

theorem ofStmt_unspanned : ∀ s : Stmt, ofStmt s.unspanned = ofStmt s
  | .expr value => by rw [Stmt.unspanned, ofStmt, ofStmt, ofExpr_unspanned]
  | .decl var => ofVariable_unspanned var.ty var.name var.init
  | .assign _ target op value => by
    rw [Stmt.unspanned, ofStmt, ofStmt, ofValue_unspanned, ofExpr_unspanned]
  | .ret _ value => by rw [Stmt.unspanned, ofStmt, ofStmt, map_ofExpr_unspanned]
  | .cond list => by rw [Stmt.unspanned, ofStmt, ofStmt, ofBranches_unspanned list]
  | .loop _ cond body => by
    rw [Stmt.unspanned, ofStmt, ofStmt, ofExpr_unspanned, ofStmts_unspanned body]
  | .block _ body => by rw [Stmt.unspanned, ofStmt, ofStmt, ofStmts_unspanned body]

theorem ofStmts_unspanned : ∀ ss : List Stmt, ofStmts (Stmt.unspannedEach ss) = ofStmts ss
  | [] => rfl
  | s :: ss => by
    rw [Stmt.unspannedEach, ofStmts, ofStmts, ofStmt_unspanned s, ofStmts_unspanned ss]

theorem ofBranch_unspanned : ∀ b : Branch, ofBranch b.unspanned = ofBranch b
  | .mk _ guard body => by
    have hcond : guard.unspanned.cond? = guard.cond?.map (·.unspanned) := by cases guard <;> rfl
    have hkeyword : guard.unspanned.keyword = guard.keyword := by cases guard <;> rfl
    rw [Branch.unspanned, ofBranch, ofBranch, hcond, hkeyword, map_ofExpr_unspanned,
      ofStmts_unspanned body]

theorem ofBranches_unspanned : ∀ bs : List Branch,
    ofBranches (Branch.unspannedEach bs) = ofBranches bs
  | [] => rfl
  | b :: bs => by
    rw [Branch.unspannedEach, ofBranches, ofBranches, ofBranch_unspanned b,
      ofBranches_unspanned bs]

end

theorem ofNode_unspanned : ∀ n : Node, ofNode n.unspanned = ofNode n
  | .header item => by
    simp only [Node.unspanned, ofNode, Include.pathText, List.map_map]
    rfl
  | .alias item => by
    simp only [Node.unspanned, ofNode, ofType_unspanned, Ident.text_unspanned]
  | .function item => by
    have hparams : (item.params.map (·.unspanned)).map (fun p => ofVariable p.ty p.name p.default) =
        item.params.map fun p => ofVariable p.ty p.name p.default := by
      rw [List.map_map]
      exact congrArg (List.map · _) (funext fun p => ofVariable_unspanned p.ty p.name p.default)
    simp only [Node.unspanned, ofNode, hparams, ofType_unspanned, ofRest_unspanned,
      Ident.text_unspanned, Option.isNone_map, Option.map_map, Function.comp_def,
      ofStmts_unspanned]
  | .global item => ofVariable_unspanned item.ty item.name item.init

end Dump

/-- The dump of a unit does not depend on spans. -/
theorem SourceUnit.dump_unspanned (unit : SourceUnit) : unit.unspanned.dump = unit.dump := by
  simp only [SourceUnit.dump, SourceUnit.unspanned, List.map_map, Function.comp_def,
    Dump.ofNode_unspanned]

/-! ## C -/

theorem filterMap_unspanned {β : Type} {f g : Node → Option β} (h : ∀ n, f n.unspanned = g n)
    (nodes : List Node) : (nodes.map (·.unspanned)).filterMap f = nodes.filterMap g := by
  rw [List.filterMap_map]
  exact congrArg (List.filterMap · nodes) (funext h)

namespace Lowering

variable {m : DataModel} {decls : DeclTable}

theorem named_unspanned (name : DottedName) (type : Ty) :
    named m name.unspanned type = named m name type := by
  rw [named, named, name.text_unspanned]

mutual

theorem typeExpr_unspanned : ∀ ty : TypeExpr, typeExpr m ty.unspanned = typeExpr m ty
  | .named name => named_unspanned name name.ty
  | .ref _ inner => by rw [TypeExpr.unspanned, typeExpr, typeExpr, typeExpr_unspanned inner]
  | .array _ elem _ => by rw [TypeExpr.unspanned, typeExpr, typeExpr, typeExpr_unspanned elem]
  | .func _ sig => by rw [TypeExpr.unspanned, typeExpr, typeExpr, signatureExpr_unspanned sig]

theorem signatureExpr_unspanned : ∀ sig : Signature TypeExpr,
    signatureExpr m (Signature.unspanned sig) = signatureExpr m sig
  | ⟨ret, params, rest⟩ => by
    rw [Signature.unspanned, signatureExpr, signatureExpr, typeExpr_unspanned ret,
      typeExprs_unspanned params, restExpr_unspanned rest]

theorem typeExprs_unspanned : ∀ tys : List TypeExpr,
    typeExprs m (TypeExpr.unspannedEach tys) = typeExprs m tys
  | [] => rfl
  | ty :: tys => by
    rw [TypeExpr.unspannedEach, typeExprs, typeExprs, typeExpr_unspanned ty,
      typeExprs_unspanned tys]

theorem restExpr_unspanned : ∀ rest : Rest TypeExpr,
    restExpr m (Rest.unspanned rest) = restExpr m rest
  | .none => rfl
  | .untyped => rfl
  | .typed elem => by rw [Rest.unspanned, restExpr, restExpr, typeExpr_unspanned elem]

end

theorem ident_unspanned (name : DottedName) : ident name.unspanned = ident name := by
  have hbinding : name.unspanned.binding? = name.binding? := rfl
  rw [ident, ident, hbinding, name.text_unspanned]

theorem applied_unspanned (callee : DottedName) (args : List CExpr) (target : Option CallTarget) :
    applied m callee.unspanned args target = applied m callee args target := by
  unfold applied
  rw [ident_unspanned, callee.ty_unspanned]
  simp only [named_unspanned]

mutual

theorem value_unspanned : ∀ v : Value, value m v.unspanned = value m v
  | .ident name => by rw [Value.unspanned, value, value, ident_unspanned, name.ty_unspanned]
  | .call _ callee args target _ => by
    rw [Value.unspanned, value, value, applied_unspanned, storedEach_unspanned _ args]
  | .index _ base position => by
    rw [Value.unspanned, value, value, value_unspanned base, expr_unspanned position]
  | .ref _ inner => by rw [Value.unspanned, value, value, pointer_unspanned inner]
  | .prefixed _ _ inner | .suffixed _ _ inner => by
    rw [Value.unspanned, value, value, value_unspanned inner]
  | .paren inner => by rw [Value.unspanned, value, value, expr_unspanned inner]
  | .number _ | .decimal _ | .string _ | .char _ | .bool _ _ | .null _ => rfl

theorem pointer_unspanned : ∀ v : Value, pointer m v.unspanned = pointer m v
  | .ident name => by rw [Value.unspanned, pointer, pointer, ident_unspanned, name.ty_unspanned]
  | .call _ callee args target _ => by
    rw [Value.unspanned, pointer, pointer, applied_unspanned, storedEach_unspanned _ args]
  | .index _ base position => by
    rw [Value.unspanned, pointer, pointer, value_unspanned base, expr_unspanned position]
  | .ref _ inner => by rw [Value.unspanned, pointer, pointer, pointer_unspanned inner]
  | .prefixed _ _ inner | .suffixed _ _ inner => by
    rw [Value.unspanned, pointer, pointer, value_unspanned inner]
  | .paren (.mk _ (.operand inner)) => by
    rw [Value.unspanned, Expr.unspanned, Chain.unspanned, pointer, pointer,
      pointer_unspanned inner]
  | .paren (.mk _ (.link left _ rest)) => by
    rw [Value.unspanned, Expr.unspanned, Chain.unspanned, pointer, pointer, value_unspanned left,
      chain_unspanned rest]
    rfl
  | .number _ | .decimal _ | .string _ | .char _ | .bool _ _ | .null _ => rfl

theorem expr_unspanned : ∀ e : Expr, expr m e.unspanned = expr m e
  | .mk _ ops => by rw [Expr.unspanned, expr, expr, chain_unspanned ops]

theorem chain_unspanned : ∀ c : Chain, chain m c.unspanned = chain m c
  | .operand v => by rw [Chain.unspanned, chain, chain, value_unspanned v]
  | .link v _ rest => by
    rw [Chain.unspanned, chain, chain, value_unspanned v, chain_unspanned rest]
    rfl

theorem stored_unspanned (expected : Ty) : ∀ e : Expr,
    stored m expected e.unspanned = stored m expected e
  | .mk _ (.operand v) => by
    rw [Expr.unspanned, Chain.unspanned, stored, stored, pointer_unspanned v, value_unspanned v]
  | .mk _ (.link left _ rest) => by
    rw [Expr.unspanned, Chain.unspanned, stored, stored, value_unspanned left,
      chain_unspanned rest]
    rfl

theorem storedEach_unspanned : ∀ (tys : List Ty) (es : List Expr),
    storedEach m tys (Expr.unspannedEach es) = storedEach m tys es
  | _, [] => by rw [Expr.unspannedEach, storedEach]
  | [], e :: es => by
    rw [Expr.unspannedEach, storedEach, storedEach, expr_unspanned e, storedEach_unspanned [] es]
  | expected :: tys, e :: es => by
    rw [Expr.unspannedEach, storedEach, storedEach, stored_unspanned expected e,
      storedEach_unspanned tys es]

end

theorem map_stored_unspanned (expected : Ty) (e : Option Expr) :
    (e.map (·.unspanned)).map (stored m expected) = e.map (stored m expected) := by
  rw [Option.map_map]
  exact congrArg (Option.map · e) (funext (stored_unspanned expected))

theorem varDecl_unspanned (var : VarDecl) :
    varDecl m decls.unspanned var.unspanned = varDecl m decls var := by
  simp only [varDecl, VarDecl.unspanned, typeExpr_unspanned, Ident.text_unspanned,
    decls.typeOf_unspanned, map_stored_unspanned]

theorem discarded_unspanned (e : Expr) : discarded m e.unspanned = discarded m e := by
  unfold discarded
  rw [e.single?_unspanned, expr_unspanned]
  cases e.single? with
  | none => rfl
  | some v =>
    cases v with
    | call span callee args target defaulted =>
      exact pointer_unspanned (.call span callee args target defaulted)
    | _ => rfl

theorem guard_unspanned (g : Guard) : guard m g.unspanned = guard m g := by
  cases g with
  | otherwise => rfl
  | _ => rw [Guard.unspanned, guard, guard, expr_unspanned]

mutual

theorem stmt_unspanned (returned : Ty) : ∀ s : Stmt,
    stmt m decls.unspanned returned s.unspanned = stmt m decls returned s
  | .expr e => by rw [Stmt.unspanned, stmt, stmt, discarded_unspanned]
  | .decl var => by rw [Stmt.unspanned, stmt, stmt, varDecl_unspanned]
  | .assign _ target _ e => by
    rw [Stmt.unspanned, stmt, stmt, value_unspanned, expr_unspanned]
  | .ret _ e => by rw [Stmt.unspanned, stmt, stmt, map_stored_unspanned]
  | .cond list => by rw [Stmt.unspanned, stmt, stmt, branches_unspanned returned list]
  | .loop _ cond body => by
    rw [Stmt.unspanned, stmt, stmt, expr_unspanned, stmts_unspanned returned body]
  | .block _ body => by rw [Stmt.unspanned, stmt, stmt, stmts_unspanned returned body]

theorem stmts_unspanned (returned : Ty) : ∀ ss : List Stmt,
    stmts m decls.unspanned returned (Stmt.unspannedEach ss) = stmts m decls returned ss
  | [] => rfl
  | s :: ss => by
    rw [Stmt.unspannedEach, stmts, stmts, stmt_unspanned returned s, stmts_unspanned returned ss]

theorem branch_unspanned (returned : Ty) : ∀ b : Branch,
    branch m decls.unspanned returned b.unspanned = branch m decls returned b
  | .mk _ g body => by
    rw [Branch.unspanned, branch, branch, guard_unspanned, stmts_unspanned returned body]

theorem branches_unspanned (returned : Ty) : ∀ bs : List Branch,
    branches m decls.unspanned returned (Branch.unspannedEach bs) = branches m decls returned bs
  | [] => rfl
  | b :: bs => by
    rw [Branch.unspannedEach, branches, branches, branch_unspanned returned b,
      branches_unspanned returned bs]

end

theorem head_unspanned (f : Function) : head m f.unspanned = head m f := by
  have hparams : (f.params.map (·.unspanned)).map (fun p => (⟨typeExpr m p.ty, p.name.text⟩ : CDecl)) =
      f.params.map fun p => ⟨typeExpr m p.ty, p.name.text⟩ := by
    simp only [List.map_map, Function.comp_def, Param.unspanned, typeExpr_unspanned,
      Ident.text_unspanned]
  have hrest : restDecls m (Rest.unspanned f.rest) = restDecls m f.rest := by
    cases f.rest with
    | typed elem => rw [Rest.unspanned, restDecls, restDecls, typeExpr_unspanned]
    | _ => rfl
  have hvariadic : isVariadic (Rest.unspanned f.rest) = isVariadic f.rest := by
    cases f.rest <;> rfl
  simp only [head, Function.unspanned, typeExpr_unspanned, Ident.text_unspanned, hparams, hrest,
    hvariadic]

theorem functions_unspanned (nodes : List Node) :
    functions (nodes.map (·.unspanned)) = (functions nodes).map (·.unspanned) := by
  unfold functions
  rw [List.map_filterMap]
  refine filterMap_unspanned (fun n => ?_) nodes
  cases n <;> rfl

theorem firstOfEach_unspanned (seen : List DeclId) (fs : List Function) :
    firstOfEach seen (fs.map (·.unspanned)) = (firstOfEach seen fs).map (·.unspanned) := by
  induction fs generalizing seen with
  | nil => rfl
  | cons f fs ih =>
    have hdecl : f.unspanned.decl = f.decl := rfl
    rw [List.map_cons, firstOfEach, firstOfEach, hdecl]
    cases f.decl with
    | none => exact congrArg (f.unspanned :: ·) (ih seen)
    | some id =>
      dsimp only
      split
      · exact ih seen
      · exact congrArg (f.unspanned :: ·) (ih (id :: seen))

theorem definition?_unspanned (f : Function) :
    definition? m decls.unspanned f.unspanned = definition? m decls f := by
  have hbody : f.unspanned.body = f.body.map Stmt.unspannedEach := rfl
  have hsig : f.unspanned.sig = f.sig := rfl
  simp only [definition?, hbody, hsig, head_unspanned, Option.map_map, Function.comp_def,
    stmts_unspanned]

end Lowering

/-- The C of a unit does not depend on spans. -/
theorem SourceUnit.toC_unspanned (unit : SourceUnit) (m : DataModel) (decls : DeclTable) :
    unit.unspanned.toC m decls.unspanned = unit.toC m decls := by
  unfold SourceUnit.toC SourceUnit.unspanned
  rw [CUnit.mk.injEq]
  refine ⟨?_, ?_, ?_, ?_, ?_⟩
  · refine congrArg _ (filterMap_unspanned (fun n => ?_) _)
    cases n with
    | header item =>
      simp only [Node.unspanned, Include.headerName, Include.pathText, List.map_map]
      rfl
    | _ => rfl
  · refine filterMap_unspanned (fun n => ?_) _
    cases n with
    | «alias» item => simp only [Node.unspanned, Lowering.typeExpr_unspanned, Ident.text_unspanned]
    | _ => rfl
  · refine filterMap_unspanned (fun n => ?_) _
    cases n with
    | global item => simp only [Node.unspanned, Lowering.varDecl_unspanned]
    | _ => rfl
  · simp only [Lowering.functions_unspanned, Lowering.firstOfEach_unspanned, List.map_map,
      Function.comp_def, Lowering.head_unspanned]
  · simp only [Lowering.functions_unspanned, List.filterMap_map, Function.comp_def,
      Lowering.definition?_unspanned]

end KilnLang
