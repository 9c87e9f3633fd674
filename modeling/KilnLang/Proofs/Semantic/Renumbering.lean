import Mathlib.Data.List.Basic
import Mathlib.Data.List.ReduceOption
import Mathlib.Logic.Equiv.Basic
import KilnLang.Proofs.Semantic.Slots
import KilnLang.Semantic.Check

/-!
# Renumbering declarations

Declarations are referred to by numbers. **Renumbering** changes these numbers in all slots of a
tree and nothing else. In particular the types of operands stay as they are, so checking cannot see
the numbers: a renumbered unit with a renumbered declaration table is checked with the same result
(`Check.node_renumber`).
-/

namespace KilnLang

/-! ## Slots -/

/-- The binding with the number of its declaration changed. -/
def Binding.renumber (ρ : DeclId → DeclId) : Binding → Binding
  | .local decl => .local (ρ decl)
  | .parameter decl => .parameter (ρ decl)
  | .global decl => .global (ρ decl)
  | .function decl => .function (ρ decl)
  | other => other

/-- What a name stands for, with the number of its declaration changed. -/
def Resolution.renumber (ρ : DeclId → DeclId) (r : Resolution) : Resolution :=
  { r with binding := r.binding.renumber ρ }

/-- What a call calls, with the number of its declaration changed. -/
def CallTarget.renumber (ρ : DeclId → DeclId) : CallTarget → CallTarget
  | .function decl sig => .function (ρ decl) sig
  | other => other

/-- Changes the numbers of declarations in all slots. -/
def Slots.renumber (ρ : DeclId → DeclId) : Slots where
  type := id
  resolved := Option.map (·.renumber ρ)
  target := Option.map (·.renumber ρ)
  decl := Option.map ρ
  sig := id

/-- The declaration with the slots of its defaults changed. -/
def DeclInfo.refill (f : Slots) (info : DeclInfo) : DeclInfo :=
  { info with defaults := info.defaults.map (Option.map (·.refill f)) }

section Slots

variable {ρ σ : DeclId → DeclId}

theorem Binding.renumber_id (b : Binding) : b.renumber id = b := by
  cases b <;> rfl

theorem Binding.renumber_renumber (b : Binding) :
    (b.renumber σ).renumber ρ = b.renumber (ρ ∘ σ) := by
  cases b <;> rfl

theorem Slots.renumber_id : Slots.renumber id = .unchanged := by
  have hresolved : (fun r : Resolution => r.renumber id) = id :=
    funext fun r => by simp [Resolution.renumber, Binding.renumber_id]
  have htarget : (fun t : CallTarget => t.renumber id) = id :=
    funext fun t => by cases t <;> rfl
  simp only [Slots.renumber, Slots.unchanged, hresolved, htarget, Option.map_id]

theorem Slots.renumber_comp : (Slots.renumber ρ).comp (.renumber σ) = .renumber (ρ ∘ σ) := by
  have hresolved : ∀ r : Resolution, (r.renumber σ).renumber ρ = r.renumber (ρ ∘ σ) :=
    fun r => by simp [Resolution.renumber, Binding.renumber_renumber]
  have htarget : ∀ t : CallTarget, (t.renumber σ).renumber ρ = t.renumber (ρ ∘ σ) :=
    fun t => by cases t <;> rfl
  simp only [Slots.renumber, Slots.comp, Slots.mk.injEq]
  refine ⟨rfl, funext fun r => ?_, funext fun t => ?_, funext fun d => ?_, rfl⟩
  · simp only [Function.comp_apply, Option.map_map, Function.comp_def, hresolved]
  · simp only [Function.comp_apply, Option.map_map, Function.comp_def, htarget]
  · exact Option.map_map ρ σ d

theorem DeclInfo.refill_unchanged (info : DeclInfo) : info.refill .unchanged = info := by
  have hdefaults : Option.map (fun e : Expr => e.refill .unchanged) = id := by
    funext e
    cases e <;> simp [Expr.refill_unchanged]
  unfold DeclInfo.refill
  rw [hdefaults, List.map_id]

theorem DeclInfo.refill_refill {f g : Slots} (info : DeclInfo) :
    (info.refill g).refill f = info.refill (f.comp g) := by
  simp only [DeclInfo.refill, List.map_map, Function.comp_def, Option.map_map,
    Expr.refill_refill]

/-- A binding to a declaration is renumbered with the declaration. -/
theorem DeclInfo.binding_renumber (info : DeclInfo) (id : DeclId) :
    (info.binding id).renumber ρ = info.binding (ρ id) := by
  unfold DeclInfo.binding
  cases info.kind <;> rfl

end Slots

/-! ## Types of operands -/

section Typing

variable {ρ : DeclId → DeclId}

theorem DottedName.ty_renumber (n : DottedName) : (n.refill (.renumber ρ)).ty = n.ty := by
  simp only [DottedName.ty, DottedName.refill, Slots.renumber, Option.map_map]
  rfl

theorem Chain.operators_refill {f : Slots} (c : Chain) : (c.refill f).operators = c.operators := by
  cases c with
  | operand _ => rfl
  | link _ op rest => exact congrArg (op :: ·) (operators_refill rest)

theorem CallTarget.result_renumber (t : CallTarget) : (t.renumber ρ).result = t.result := by
  cases t <;> rfl

mutual

theorem Value.ty_renumber : ∀ v : Value, (v.refill (.renumber ρ)).ty = v.ty
  | .ident name => by rw [Value.refill, Value.ty, Value.ty, name.ty_renumber]
  | .call _ _ _ target _ => by
    cases target with
    | none => rfl
    | some t => exact t.result_renumber
  | .index _ base _ => by rw [Value.refill, Value.ty, Value.ty, base.ty_renumber]
  | .ref _ inner => by rw [Value.refill, Value.ty, Value.ty, inner.ty_renumber]
  | .prefixed _ op inner => by
    cases op <;> simp only [Value.refill, Value.ty, inner.ty_renumber]
  | .suffixed _ _ inner => by rw [Value.refill, Value.ty, Value.ty, inner.ty_renumber]
  | .paren inner => by rw [Value.refill, Value.ty, Value.ty, inner.ty_renumber]
  | .number _ | .decimal _ | .string _ | .char _ | .bool _ _ | .null _ => rfl

theorem Expr.ty_renumber : ∀ e : Expr, (e.refill (.renumber ρ)).ty = e.ty
  | .mk _ chain => by rw [Expr.refill, Expr.ty, Expr.ty, chain.ty_renumber]

theorem Chain.ty_renumber : ∀ c : Chain, (c.refill (.renumber ρ)).ty = c.ty
  | .operand value => by rw [Chain.refill, Chain.ty, Chain.ty, value.ty_renumber]
  | .link value op rest => by
    rw [Chain.refill, Chain.ty, Chain.ty, rest.operators_refill, value.ty_renumber,
      rest.operandTys_renumber]

theorem Chain.operandTys_renumber : ∀ c : Chain,
    (c.refill (.renumber ρ)).operandTys = c.operandTys
  | .operand value => by rw [Chain.refill, Chain.operandTys, Chain.operandTys, value.ty_renumber]
  | .link value _ rest => by
    rw [Chain.refill, Chain.operandTys, Chain.operandTys, value.ty_renumber,
      rest.operandTys_renumber]

end

theorem Binding.isStorage_renumber (b : Binding) : (b.renumber ρ).isStorage = b.isStorage := by
  cases b <;> rfl

theorem Value.isAddressable_renumber : ∀ v : Value,
    (v.refill (.renumber ρ)).isAddressable = v.isAddressable
  | .ident ⟨_, _, none⟩ => rfl
  | .ident ⟨_, _, some r⟩ => r.binding.isStorage_renumber
  | .paren (.mk _ (.operand value)) => value.isAddressable_renumber
  | .paren (.mk _ (.link _ _ _)) => rfl
  | .call _ _ _ _ _ | .index _ _ _ | .ref _ _ | .prefixed _ _ _ | .suffixed _ _ _ => rfl
  | .number _ | .decimal _ | .string _ | .char _ | .bool _ _ | .null _ => rfl

theorem Value.isNull_refill {f : Slots} (v : Value) : (v.refill f).isNull = v.isNull := by
  cases v <;> rfl

theorem Value.isRef_refill {f : Slots} (v : Value) : (v.refill f).isRef = v.isRef := by
  cases v <;> rfl

theorem Value.isLiteral_refill {f : Slots} (v : Value) : (v.refill f).isLiteral = v.isLiteral := by
  cases v <;> rfl

theorem Expr.span_refill {f : Slots} : ∀ e : Expr, (e.refill f).span = e.span
  | .mk _ _ => rfl

theorem Value.span_refill {f : Slots} (v : Value) : (v.refill f).span = v.span := by
  cases v with
  | paren inner => exact inner.span_refill
  | _ => rfl

theorem Value.describe_refill {f : Slots} : ∀ v : Value, (v.refill f).describe = v.describe
  | .ref _ inner => inner.describe_refill
  | .ident _ | .call _ _ _ _ _ | .index _ _ _ | .prefixed _ _ _ | .suffixed _ _ _ | .paren _ => rfl
  | .number _ | .decimal _ | .string _ | .char _ | .bool _ _ | .null _ => rfl

theorem Expr.single?_refill {f : Slots} : ∀ e : Expr,
    (e.refill f).single? = e.single?.map (·.refill f)
  | .mk _ (.operand _) => rfl
  | .mk _ (.link _ _ _) => rfl

end Typing

/-! ## Checking -/

section Storing

variable {ρ : DeclId → DeclId}

theorem Ty.storeLiteral_refill {f : Slots} (expected : Ty) {v : Value} (h : v.isLiteral) :
    expected.storeLiteral (v.refill f) = expected.storeLiteral v := by
  cases v <;> first | rfl | exact nomatch h

theorem Ty.storeValue_renumber (expected : Ty) (v : Value) :
    expected.storeValue (v.refill (.renumber ρ)) = expected.storeValue v := by
  unfold Ty.storeValue Ty.storeRef Value.isReferable
  simp only [Value.isNull_refill, Value.isRef_refill, Value.isAddressable_renumber,
    Value.ty_renumber, Value.describe_refill, Value.span_refill, Value.isLiteral_refill]
  by_cases h : v.isLiteral
  · rw [Ty.storeLiteral_refill expected h]
  · simp only [h]
    rfl

theorem Ty.store_renumber (expected : Ty) (e : Expr) :
    expected.store (e.refill (.renumber ρ)) = expected.store e := by
  unfold Ty.store
  rw [Expr.single?_refill, Expr.ty_renumber, Expr.span_refill]
  cases e.single? with
  | none => rfl
  | some v => exact expected.storeValue_renumber v

theorem Rest.storeArgs_renumber (rest : Rest Ty) : ∀ (params : List Ty) (args : List Expr),
    rest.storeArgs params (Value.refillEach (.renumber ρ) args) = rest.storeArgs params args
  | _, [] => rfl
  | param :: params, arg :: args => by
    rw [Value.refillEach, Rest.storeArgs, Rest.storeArgs, param.store_renumber,
      Rest.storeArgs_renumber rest params args]
  | [], arg :: args => by
    have ih := Rest.storeArgs_renumber rest [] args
    cases rest <;> simp only [Value.refillEach, Rest.storeArgs, Ty.store_renumber, ih]

end Storing

/-- The same declarations under other numbers. -/
structure DeclTable.Renumbered (ρ : Equiv.Perm DeclId) (decls decls' : DeclTable) : Prop where
  entry : ∀ id, decls'[ρ id]? = (decls[id]?).map (·.refill (.renumber ρ))
  length : decls'.length = decls.length

/-- The completions copy the same expressions, up to the numbers of declarations. -/
def Completion.Renumbered (ρ : Equiv.Perm DeclId) (complete complete' : Completion) : Prop :=
  ∀ decl written, (complete' (ρ decl) written).value =
    Value.refillEach (.renumber ρ) (complete decl written).value

theorem Value.refillEach_eq_map {f : Slots} (es : List Expr) :
    Value.refillEach f es = es.map (·.refill f) := by
  induction es with
  | nil => rfl
  | cons e es ih => rw [Value.refillEach, ih, List.map_cons]

theorem Signature.required_refill {f : Slots} (sig : Signature Ty) (defaults : List (Option Expr)) :
    sig.required (defaults.map (Option.map (·.refill f))) = sig.required defaults := by
  unfold Signature.required
  rw [List.findIdx?_map]
  simp only [Function.comp_def, Option.isSome_map]

namespace DeclTable.Renumbered

variable {ρ : Equiv.Perm DeclId} {decls decls' : DeclTable}

theorem defaultsOf (h : Renumbered ρ decls decls') (id : DeclId) :
    decls'.defaultsOf (ρ id) = (decls.defaultsOf id).map (Option.map (·.refill (.renumber ρ))) := by
  unfold DeclTable.defaultsOf
  rw [h.entry]
  cases decls[id]? <;> rfl

theorem typeOf (h : Renumbered ρ decls decls') (id : Option DeclId) :
    decls'.typeOf (id.map ρ) = decls.typeOf id := by
  cases id with
  | none => rfl
  | some id =>
    simp only [DeclTable.typeOf, Option.map_some, Option.bind_some, h.entry, Option.map_map]
    rfl

end DeclTable.Renumbered

namespace Check

variable {ρ : Equiv.Perm DeclId} {decls decls' : DeclTable} {complete complete' : Completion}

theorem defaults_renumber (h : decls.Renumbered ρ decls') (target : CallTarget) :
    defaults decls' (target.renumber ρ) =
      (defaults decls target).map (Option.map (·.refill (.renumber ρ))) := by
  cases target with
  | function decl sig => exact h.defaultsOf decl
  | _ => rfl

theorem omitted_renumber (hc : complete.Renumbered ρ complete') (count : Nat)
    (target : CallTarget) :
    omitted complete' count (target.renumber ρ) =
      Value.refillEach (.renumber ρ) (omitted complete count target) := by
  cases target with
  | function decl sig => exact hc decl count
  | _ => rfl

theorem arguments_renumber (h : decls.Renumbered ρ decls') (hc : complete.Renumbered ρ complete')
    (span : Span) (callee : DottedName) (args : List Expr) (target : CallTarget) :
    arguments decls' complete' span (callee.refill (.renumber ρ))
        (Value.refillEach (.renumber ρ) args) (target.renumber ρ) =
      Value.refillEach (.renumber ρ) <$> arguments decls complete span callee args target := by
  have hsig : (target.renumber ρ).signature? = target.signature? := by cases target <;> rfl
  have hlength : (Value.refillEach (.renumber ρ) args).length = args.length := by
    rw [Value.refillEach_eq_map, List.length_map]
  unfold arguments
  rw [hsig]
  cases target.signature? with
  | none => rfl
  | some sig =>
    simp only [defaults_renumber h, Signature.required_refill, hlength, Rest.storeArgs_renumber,
      omitted_renumber hc]
    split
    · simp only [map_bind, map_pure]
    · simp only [map_bind, map_pure]
      rfl

theorem call_renumber (h : decls.Renumbered ρ decls') (hc : complete.Renumbered ρ complete')
    (span : Span) (callee : DottedName) (args : List Expr) (target : Option CallTarget) :
    call decls' complete' span (callee.refill (.renumber ρ)) (Value.refillEach (.renumber ρ) args)
        (target.map (·.renumber ρ)) =
      (·.refill (.renumber ρ)) <$> call decls complete span callee args target := by
  unfold call
  cases target with
  | none =>
    simp only [Option.map_none, pure_bind, map_pure, Value.refill, List.append_nil]
    rfl
  | some target =>
    simp only [Option.map_some, arguments_renumber h hc, map_bind, map_pure, bind_map_left,
      Value.refill]
    simp only [Value.refillEach_eq_map, List.map_append, List.length_map]
    rfl

mutual

theorem expr_renumber (h : decls.Renumbered ρ decls') (hc : complete.Renumbered ρ complete') :
    ∀ e : Expr, expr decls' complete' (e.refill (.renumber ρ)) =
      (·.refill (.renumber ρ)) <$> expr decls complete e
  | .mk span ops => by
    simp only [Expr.refill, expr, chain_renumber h hc ops, map_bind, map_pure, bind_map_left]

theorem chain_renumber (h : decls.Renumbered ρ decls') (hc : complete.Renumbered ρ complete') :
    ∀ c : Chain, chain decls' complete' (c.refill (.renumber ρ)) =
      (·.refill (.renumber ρ)) <$> chain decls complete c
  | .operand v => by
    simp only [Chain.refill, chain, value_renumber h hc v, map_bind, map_pure, bind_map_left]
  | .link v op rest => by
    simp only [Chain.refill, chain, value_renumber h hc v, chain_renumber h hc rest, map_bind,
      map_pure, bind_map_left]

theorem value_renumber (h : decls.Renumbered ρ decls') (hc : complete.Renumbered ρ complete') :
    ∀ v : Value, value decls' complete' (v.refill (.renumber ρ)) =
      (·.refill (.renumber ρ)) <$> value decls complete v
  | .call span callee args target _ => by
    simp only [Value.refill, value, exprs_renumber h hc args, map_bind, bind_map_left]
    exact bind_congr fun args => call_renumber h hc span callee args target
  | .index span base position => by
    simp only [Value.refill, value, value_renumber h hc base, expr_renumber h hc position, map_bind,
      map_pure, bind_map_left]
  | .ref span inner => by
    simp only [Value.refill, value, value_renumber h hc inner, map_bind, map_pure, bind_map_left,
      Value.isAddressable_renumber, Value.describe_refill]
  | .prefixed span op inner | .suffixed span op inner => by
    simp only [Value.refill, value, value_renumber h hc inner, map_bind, map_pure, bind_map_left]
  | .paren inner => by
    simp only [Value.refill, value, expr_renumber h hc inner, map_bind, map_pure, bind_map_left]
  | .ident _ | .number _ | .decimal _ | .string _ | .char _ | .bool _ _ | .null _ => rfl

theorem exprs_renumber (h : decls.Renumbered ρ decls') (hc : complete.Renumbered ρ complete') :
    ∀ es : List Expr, exprs decls' complete' (Value.refillEach (.renumber ρ) es) =
      Value.refillEach (.renumber ρ) <$> exprs decls complete es
  | [] => rfl
  | e :: es => by
    simp only [Value.refillEach, exprs, expr_renumber h hc e, exprs_renumber h hc es, map_bind,
      map_pure, bind_map_left]

end

/-- A default that is being copied is recognised under its new number. -/
theorem completion_renumber (h : decls.Renumbered ρ decls') (depth : Nat) (active : List DeclId) :
    (completion decls depth active).Renumbered ρ (completion decls' depth (active.map ρ)) := by
  induction depth generalizing active with
  | zero => exact fun _ _ => rfl
  | succ depth ih =>
    intro decl written
    have hmem : ρ decl ∈ active.map ρ ↔ decl ∈ active := List.mem_map_of_injective ρ.injective
    have hdefaults : ((decls'.defaultsOf (ρ decl)).drop written).reduceOption =
        Value.refillEach (.renumber ρ) ((decls.defaultsOf decl).drop written).reduceOption := by
      rw [h.defaultsOf, ← List.map_drop, List.reduceOption_map, Value.refillEach_eq_map]
    simp only [completion, hmem]
    split
    · rfl
    · rw [hdefaults, ← List.map_cons, exprs_renumber h (ih (decl :: active))]
      rfl

theorem complete_renumber (h : decls.Renumbered ρ decls') :
    (Check.complete decls).Renumbered ρ (Check.complete decls') := by
  unfold Check.complete
  rw [h.length]
  exact completion_renumber h _ []

theorem into_renumber (h : decls.Renumbered ρ decls') (expected : Ty) (e : Expr) :
    into decls' expected (e.refill (.renumber ρ)) =
      (·.refill (.renumber ρ)) <$> into decls expected e := by
  simp only [into, expr_renumber h (complete_renumber h), Ty.store_renumber, map_bind, map_pure,
    bind_map_left]

theorem varDecl_renumber (h : decls.Renumbered ρ decls') (var : VarDecl) :
    varDecl decls' (var.refill (.renumber ρ)) =
      (·.refill (.renumber ρ)) <$> varDecl decls var := by
  have hty : decls'.typeOf (var.refill (.renumber ρ)).decl = decls.typeOf var.decl :=
    h.typeOf var.decl
  unfold varDecl
  rw [hty]
  rcases var with ⟨span, ty, name, _ | init, decl⟩
  · rfl
  · simp only [VarDecl.refill, Option.map_some, into_renumber h, map_bind, map_pure, bind_map_left]

theorem ret_renumber (h : decls.Renumbered ρ decls') (returned : Ty) (span : Span)
    (e : Option Expr) : ret decls' returned span (e.map (·.refill (.renumber ρ))) =
      Option.map (·.refill (.renumber ρ)) <$> ret decls returned span e := by
  cases e with
  | none => simp only [Option.map_none, ret, map_bind, map_pure]
  | some e =>
    simp only [Option.map_some, ret]
    split
    · simp only [expr_renumber h (complete_renumber h), map_bind, map_pure, bind_map_left,
        Expr.ty_renumber, Expr.span_refill, Option.map_some]
    · simp only [into_renumber h, map_bind, map_pure, bind_map_left, Option.map_some]

theorem guard_renumber (h : decls.Renumbered ρ decls') (g : Guard) :
    guard decls' (g.refill (.renumber ρ)) = (·.refill (.renumber ρ)) <$> guard decls g := by
  cases g with
  | otherwise => rfl
  | _ =>
    simp only [Guard.refill, guard, expr_renumber h (complete_renumber h), map_bind, map_pure,
      bind_map_left]

mutual

theorem stmt_renumber (h : decls.Renumbered ρ decls') (returned : Ty) : ∀ s : Stmt,
    stmt decls' returned (s.refill (.renumber ρ)) =
      (·.refill (.renumber ρ)) <$> stmt decls returned s
  | .expr e => by
    simp only [Stmt.refill, stmt, expr_renumber h (complete_renumber h), map_bind, map_pure,
      bind_map_left]
  | .decl var => by
    simp only [Stmt.refill, stmt, varDecl_renumber h, map_bind, map_pure, bind_map_left]
  | .assign span target none e => by
    simp only [Stmt.refill, stmt, value_renumber h (complete_renumber h), into_renumber h,
      Value.ty_renumber, map_bind, map_pure, bind_map_left]
  | .assign span target (some op) e => by
    simp only [Stmt.refill, stmt, value_renumber h (complete_renumber h),
      expr_renumber h (complete_renumber h), map_bind, map_pure, bind_map_left]
  | .ret span e => by
    simp only [Stmt.refill, stmt, ret_renumber h, map_bind, map_pure, bind_map_left]
  | .cond list => by
    simp only [Stmt.refill, stmt, branches_renumber h returned list, map_bind, map_pure,
      bind_map_left]
  | .loop span cond body => by
    simp only [Stmt.refill, stmt, expr_renumber h (complete_renumber h),
      stmts_renumber h returned body, map_bind, map_pure, bind_map_left]
  | .block span body => by
    simp only [Stmt.refill, stmt, stmts_renumber h returned body, map_bind, map_pure, bind_map_left]

theorem stmts_renumber (h : decls.Renumbered ρ decls') (returned : Ty) : ∀ ss : List Stmt,
    stmts decls' returned (Stmt.refillEach (.renumber ρ) ss) =
      Stmt.refillEach (.renumber ρ) <$> stmts decls returned ss
  | [] => rfl
  | s :: ss => by
    simp only [Stmt.refillEach, stmts, stmt_renumber h returned s, stmts_renumber h returned ss,
      map_bind, map_pure, bind_map_left]

theorem branch_renumber (h : decls.Renumbered ρ decls') (returned : Ty) : ∀ b : Branch,
    branch decls' returned (b.refill (.renumber ρ)) =
      (·.refill (.renumber ρ)) <$> branch decls returned b
  | .mk span g body => by
    simp only [Branch.refill, branch, guard_renumber h g, stmts_renumber h returned body, map_bind,
      map_pure, bind_map_left]

theorem branches_renumber (h : decls.Renumbered ρ decls') (returned : Ty) : ∀ bs : List Branch,
    branches decls' returned (Branch.refillEach (.renumber ρ) bs) =
      Branch.refillEach (.renumber ρ) <$> branches decls returned bs
  | [] => rfl
  | b :: bs => by
    simp only [Branch.refillEach, branches, branch_renumber h returned b,
      branches_renumber h returned bs, map_bind, map_pure, bind_map_left]

end

theorem params_renumber (h : decls.Renumbered ρ decls') (ps : List Param) (tys : List Ty) :
    params decls' (ps.map (·.refill (.renumber ρ))) tys =
      List.map (·.refill (.renumber ρ)) <$> params decls ps tys := by
  induction ps generalizing tys with
  | nil => cases tys <;> rfl
  | cons p ps ih =>
    cases tys with
    | nil => rfl
    | cons ty tys =>
      rcases p with ⟨pty, name, _ | e⟩
      · show params decls' (⟨pty, name, none⟩ :: ps.map _) (ty :: tys) = _
        simp only [params, pure_bind, ih, map_bind, map_pure, bind_map_left]
        rfl
      · show params decls' (⟨pty, name, some (e.refill _)⟩ :: ps.map _) (ty :: tys) = _
        simp only [params, into_renumber h, ih, pure_bind, map_bind, map_pure,
          bind_map_left]
        rfl

theorem function_renumber (h : decls.Renumbered ρ decls') (item : Function) :
    function decls' (item.refill (.renumber ρ)) =
      (·.refill (.renumber ρ)) <$> function decls item := by
  rcases item with ⟨span, retTy, name, ps, rest, _ | body, decl, _ | sig⟩
  · rfl
  · show function decls' ⟨span, retTy, name, ps.map _, Rest.refill _ rest, none, decl.map ρ,
      some sig⟩ = _
    simp only [function, params_renumber h, map_bind, map_pure, bind_map_left]
    rfl
  · rfl
  · show function decls' ⟨span, retTy, name, ps.map _, Rest.refill _ rest,
      some (Stmt.refillEach _ body), decl.map ρ, some sig⟩ = _
    simp only [function, params_renumber h, stmts_renumber h, map_bind, map_pure, bind_map_left]
    rfl

/-- Checking cannot see the numbers of declarations. -/
theorem node_renumber (h : decls.Renumbered ρ decls') (n : Node) :
    node decls' (n.refill (.renumber ρ)) = (·.refill (.renumber ρ)) <$> node decls n := by
  cases n with
  | function item =>
    simp only [Node.refill, node, function_renumber h, map_bind, map_pure, bind_map_left]
  | global item =>
    simp only [Node.refill, node, varDecl_renumber h, map_bind, map_pure, bind_map_left]
  | _ => rfl

end Check

end KilnLang
