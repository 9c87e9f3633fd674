import KilnLang.Proofs.Semantic.Arguments
import KilnLang.Proofs.Semantic.CompleteCalls

/-!
# What is stored has been checked

A unit stores initial values, assigned and returned values, and arguments. `Node.stores` lists them
with the types that they are checked against, copied defaults included.

**Theorem (`SourceUnit.stores_fit`).** In a checked unit everything that is stored fits where it is
stored (`Store.Fits`), and every explicit reference refers to storage (`Value.Sound`).

Written arguments are checked where they stand. Errors in copies are dropped, so a copy fits for
another reason: it completes the default of the parameter (`SourceUnit.defaultsFit`), which has been
checked against the type of the parameter, and storing does not look at the arguments of calls,
which is all that completion changes (`Expr.CompletesTo.store_eq`).
-/

namespace KilnLang

/-! ## Stores -/

/-- A value and where it is stored: in a slot (a variable, a result or a parameter), in what the
target of an assignment names, or as an element of the array of further arguments. -/
inductive Store where
  | slot (type : Ty) (e : Expr)
  | target (v : Value) (e : Expr)
  | element (type : Ty) (e : Expr)

namespace Store

/-- The type that a store is checked against. -/
def type : Store → Ty
  | .slot type _ => type
  | .target v _ => v.ty
  | .element type _ => type

/-- The value that is stored. -/
def expr : Store → Expr
  | .slot _ e => e
  | .target _ e => e
  | .element _ e => e

/-- The value can be stored there. -/
def Fits (s : Store) : Prop := s.type.store s.expr = pure ()

theorem storeValue_of_fits {s : Store} {v : Value} (h : s.Fits) (hv : s.expr.single? = some v) :
    s.type.storeValue v = pure () := by
  rwa [Fits, Ty.store, hv] at h

/-- What is stored into a reference can stand for one. -/
theorem isReferable_of_fits {s : Store} {v : Value} (h : s.Fits) (href : s.type.isRef)
    (hv : s.expr.single? = some v) : v.isReferable := by
  have hstore := storeValue_of_fits h hv
  rw [Ty.storeValue, if_pos href, Ty.storeRef] at hstore
  by_contra hnot
  rw [if_pos (by simpa using hnot)] at hstore
  cases hstore

end Store

/-- Where the arguments of a call are stored. Those that follow the parameters have a type only if
further arguments are of one type. -/
def Rest.stores (rest : Rest Ty) : List Ty → List Expr → List Store
  | _, [] => []
  | param :: params, arg :: args => .slot param arg :: rest.stores params args
  | [], arg :: args => rest.elem?.toList.map (.element · arg) ++ rest.stores [] args

/-- What an operand stores: the arguments of a call. -/
def Value.stores : Value → List Store
  | .call _ _ args (some t) _ =>
    (t.signature?.map fun sig => sig.rest.stores sig.params args).getD []
  | _ => []

/-- What the operands of an expression store. -/
def Expr.stores (e : Expr) : List Store := (e.operands []).flatMap (·.value.stores)

/-- What a variable stores. -/
def VarDecl.stores (decls : DeclTable) (var : VarDecl) : List Store :=
  var.init.toList.map (.slot (decls.typeOf var.decl))

mutual

/-- What a statement of a function that returns `returned` stores. -/
def Stmt.stores (decls : DeclTable) (returned : Ty) : Stmt → List Store
  | .expr _ => []
  | .decl var => var.stores decls
  | .assign _ target none e => [.target target e]
  | .assign _ _ (some _) _ => []
  | .ret _ e => e.toList.map (.slot returned)
  | .cond list => Branch.storesEach decls returned list
  | .loop _ _ body => Stmt.storesEach decls returned body
  | .block _ body => Stmt.storesEach decls returned body

/-- What statements store. -/
def Stmt.storesEach (decls : DeclTable) (returned : Ty) : List Stmt → List Store
  | [] => []
  | s :: ss => s.stores decls returned ++ Stmt.storesEach decls returned ss

/-- What a branch stores. -/
def Branch.stores (decls : DeclTable) (returned : Ty) : Branch → List Store
  | .mk _ _ body => Stmt.storesEach decls returned body

/-- What branches store. -/
def Branch.storesEach (decls : DeclTable) (returned : Ty) : List Branch → List Store
  | [] => []
  | b :: bs => b.stores decls returned ++ Branch.storesEach decls returned bs

end

/-- What the statements of a function store. -/
def Function.stores (decls : DeclTable) (f : Function) : List Store :=
  Stmt.storesEach decls ((f.sig.map (·.ret)).getD .any) (f.body.getD [])

/-- What the statements and the calls of a part store. -/
def Node.stores (decls : DeclTable) : Node → List Store
  | .function f => f.stores decls ++ f.exprs.flatMap Expr.stores
  | .global g => g.stores decls ++ g.init.toList.flatMap Expr.stores
  | .header _ | .alias _ => []

theorem Rest.expr_mem_of_stores {rest : Rest Ty} {params : List Ty} {args : List Expr} {s : Store}
    (h : s ∈ rest.stores params args) : s.expr ∈ args := by
  fun_induction Rest.stores rest params args with
  | case1 params => cases h
  | case2 param params arg args ih =>
    rcases List.mem_cons.mp h with rfl | h
    · exact List.mem_cons_self
    · exact List.mem_cons_of_mem _ (ih h)
  | case3 arg args ih =>
    rcases List.mem_append.mp h with h | h
    · obtain ⟨elem, -, rfl⟩ := List.mem_map.mp h
      exact List.mem_cons_self
    · exact List.mem_cons_of_mem _ (ih h)

mutual

theorem Stmt.expr_mem_of_stores {decls : DeclTable} {returned : Ty} {store : Store} : ∀ {s : Stmt},
    store ∈ s.stores decls returned → store.expr ∈ s.exprs
  | .expr _, h => nomatch h
  | .decl var, h => by
    obtain ⟨e, he, rfl⟩ := List.mem_map.mp h
    exact he
  | .assign _ target none e, h => by
    rw [List.mem_singleton.mp h]
    exact List.mem_cons_of_mem _ List.mem_cons_self
  | .assign _ _ (some _) _, h => nomatch h
  | .ret _ e, h => by
    obtain ⟨e, he, rfl⟩ := List.mem_map.mp h
    exact he
  | .cond list, h => Branch.expr_mem_of_storesEach h
  | .loop _ _ body, h => List.mem_cons_of_mem _ (Stmt.expr_mem_of_storesEach h)
  | .block _ body, h => Stmt.expr_mem_of_storesEach h

theorem Stmt.expr_mem_of_storesEach {decls : DeclTable} {returned : Ty} {store : Store} :
    ∀ {ss : List Stmt}, store ∈ Stmt.storesEach decls returned ss →
      store.expr ∈ Stmt.exprsEach ss
  | [], h => nomatch h
  | s :: ss, h => by
    rw [Stmt.exprsEach, List.mem_append]
    rcases List.mem_append.mp h with h | h
    · exact .inl (Stmt.expr_mem_of_stores h)
    · exact .inr (Stmt.expr_mem_of_storesEach h)

theorem Branch.expr_mem_of_storesEach {decls : DeclTable} {returned : Ty} {store : Store} :
    ∀ {bs : List Branch}, store ∈ Branch.storesEach decls returned bs →
      store.expr ∈ Branch.exprsEach bs
  | [], h => nomatch h
  | .mk _ g body :: bs, h => by
    rw [Branch.exprsEach, Branch.exprs, List.append_assoc, List.mem_append, List.mem_append]
    rcases List.mem_append.mp h with h | h
    · exact .inr (.inl (Stmt.expr_mem_of_storesEach h))
    · exact .inr (.inr (Branch.expr_mem_of_storesEach h))

end

theorem Rest.storeArgs_eq_pure {rest : Rest Ty} {params : List Ty} {args : List Expr} :
    rest.storeArgs params args = pure () ↔ ∀ s ∈ rest.stores params args, s.Fits := by
  fun_induction Rest.stores rest params args with
  | case1 params => cases params <;> simp [Rest.storeArgs]
  | case2 param params arg args ih =>
    rw [Rest.storeArgs, List.forall_mem_cons, ← ih]
    simp only [Report.bind_eq_pure]
    exact Unique.exists_iff
  | case3 arg args ih =>
    rw [List.forall_mem_append, ← ih]
    cases rest with
    | typed elem =>
      simp only [Rest.storeArgs, Report.bind_eq_pure, Rest.elem?, Option.toList_some, List.map_cons,
        List.map_nil, List.forall_mem_singleton]
      exact Unique.exists_iff
    | _ => simp [Rest.storeArgs, Rest.elem?]

theorem Rest.storeArgs_append {rest : Rest Ty} {params : List Ty} {args more : List Expr}
    (h : args.length ≤ params.length) : rest.storeArgs params (args ++ more) =
      (rest.storeArgs params args >>= fun _ => rest.storeArgs (params.drop args.length) more) := by
  induction args generalizing params with
  | nil => cases params <;> simp [Rest.storeArgs]
  | cons arg args ih =>
    cases params with
    | nil => simp at h
    | cons param params =>
      simp only [List.cons_append, Rest.storeArgs, List.length_cons, List.drop_succ_cons,
        bind_assoc, ih (Nat.le_of_succ_le_succ h)]

/-! ## Completion keeps what storing looks at -/

section Completed

variable {decls : DeclTable} {inside : List DeclId}

mutual

theorem Expr.CompletesTo.withoutArgs_eq : ∀ {inside : List DeclId} {e e' : Expr},
    Expr.CompletesTo decls inside e e' → e'.withoutArgs = e.withoutArgs
  | _, _, _, .mk hchain => by rw [Expr.withoutArgs, Expr.withoutArgs, hchain.withoutArgs_eq]

theorem Chain.CompletesTo.withoutArgs_eq : ∀ {inside : List DeclId} {c c' : Chain},
    Chain.CompletesTo decls inside c c' → c'.withoutArgs = c.withoutArgs
  | _, _, _, .operand hvalue => by
    rw [Chain.withoutArgs, Chain.withoutArgs, hvalue.withoutArgs_eq]
  | _, _, _, .link hvalue hrest => by
    rw [Chain.withoutArgs, Chain.withoutArgs, hvalue.withoutArgs_eq, hrest.withoutArgs_eq]

theorem Value.CompletesTo.withoutArgs_eq : ∀ {inside : List DeclId} {v v' : Value},
    Value.CompletesTo decls inside v v' → v'.withoutArgs = v.withoutArgs
  | _, _, _, .leaf _ => rfl
  | _, _, _, .call _ _ => rfl
  | _, _, _, .index hbase hposition => by
    rw [Value.withoutArgs, Value.withoutArgs, hbase.withoutArgs_eq, hposition.withoutArgs_eq]
  | _, _, _, .ref hinner => by
    rw [Value.withoutArgs, Value.withoutArgs, hinner.withoutArgs_eq]
  | _, _, _, .prefixed hinner => by
    rw [Value.withoutArgs, Value.withoutArgs, hinner.withoutArgs_eq]
  | _, _, _, .suffixed hinner => by
    rw [Value.withoutArgs, Value.withoutArgs, hinner.withoutArgs_eq]
  | _, _, _, .paren hinner => by
    rw [Value.withoutArgs, Value.withoutArgs, hinner.withoutArgs_eq]

end

theorem Value.CompletesTo.isAddressable_eq {v v' : Value}
    (h : Value.CompletesTo decls inside v v') : v'.isAddressable = v.isAddressable := by
  rw [← v'.isAddressable_withoutArgs, h.withoutArgs_eq, v.isAddressable_withoutArgs]

/-- Storing does not look at the arguments of calls. -/
theorem Expr.CompletesTo.store_eq {e e' : Expr} (h : Expr.CompletesTo decls inside e e')
    (expected : Ty) : expected.store e' = expected.store e := by
  rw [← expected.store_withoutArgs e', h.withoutArgs_eq, expected.store_withoutArgs]

theorem Value.EachCompletesTo.withoutArgs_eq {args args' : List Expr}
    (h : Value.EachCompletesTo decls inside args args') :
    args'.map (·.withoutArgs) = args.map (·.withoutArgs) := by
  induction args generalizing args' with
  | nil =>
    cases h
    rfl
  | cons arg args ih =>
    cases h with
    | cons hfirst hmore => rw [List.map_cons, List.map_cons, hfirst.withoutArgs_eq, ih hmore]

theorem Value.EachCompletesTo.storeArgs_eq {rest : Rest Ty} {params : List Ty}
    {args args' : List Expr} (h : Value.EachCompletesTo decls inside args args') :
    rest.storeArgs params args' = rest.storeArgs params args := by
  rw [← rest.storeArgs_withoutArgs params args', h.withoutArgs_eq, rest.storeArgs_withoutArgs]

end Completed

/-! ## Sound operands -/

/-- Every default of a function fits its parameter. -/
def DeclTable.DefaultsFit (decls : DeclTable) (decl : DeclId) (sig : Signature Ty) : Prop :=
  ∀ (i : Nat) (ty : Ty) (e : Expr), sig.params[i]? = some ty →
    decls.slot? decl i = some (some e) → ty.store e = pure ()

/-- If the operand is a call of a function of the unit, the defaults of the function fit. -/
def Value.Stocked (decls : DeclTable) : Value → Prop
  | .call _ _ _ (some (.function decl sig)) _ => decls.DefaultsFit decl sig
  | _ => True

/-- The arguments of a call fit, and an explicit reference refers to storage. -/
def Value.Sound : Value → Prop
  | .call _ _ args (some t) _ => ∀ sig, t.signature? = some sig →
    sig.rest.storeArgs sig.params args = pure ()
  | .ref _ inner => inner.isAddressable
  | _ => True

/-- What is known of an operand that has been checked, before it is completed. -/
structure Value.Checked (decls : DeclTable) (v : Value) : Prop where
  callable : v.Callable decls
  stocked : v.Stocked decls
  sound : v.Sound

theorem Value.has_of_operandsEach {P : Value → Prop} {es : List Expr} {inside copied : List DeclId}
    {written : Nat} (h : ∀ o ∈ Value.operandsEach inside copied written es, P o.value) :
    ∀ e ∈ es, e.Has P := by
  induction es generalizing written with
  | nil => exact List.forall_mem_nil _
  | cons e es ih =>
    simp only [Value.operandsEach, List.forall_mem_append] at h
    exact List.forall_mem_cons.mpr ⟨⟨_, h.1⟩, ih h.2⟩

/-- What every operand of a call has, every operand of what it stores has. -/
theorem Value.Has.stores {P : Value → Prop} {v : Value} (h : v.Has P) :
    ∀ s ∈ v.stores, s.expr.Has P := by
  intro s hs
  cases v with
  | call span callee args target defaulted =>
    cases target with
    | none => cases hs
    | some t =>
      rw [Value.stores] at hs
      cases hsig : t.signature? with
      | none => simp [hsig] at hs
      | some sig =>
        rw [hsig] at hs
        obtain ⟨inside, hoperands⟩ := h
        simp only [Value.operands, List.forall_mem_cons] at hoperands
        exact Value.has_of_operandsEach hoperands.2 _ (Rest.expr_mem_of_stores hs)
  | _ => cases hs

theorem Value.Sound.fits {v : Value} (h : v.Sound) : ∀ s ∈ v.stores, s.Fits := by
  cases v with
  | call span callee args target defaulted =>
    cases target with
    | none => simp [Value.stores]
    | some t =>
      rw [Value.stores]
      cases hsig : t.signature? with
      | none => simp
      | some sig => exact Rest.storeArgs_eq_pure.mp (h sig hsig)
  | _ => simp [Value.stores]

section Sound

variable {decls : DeclTable} {inside : List DeclId}

/-- An operand that has been checked is sound. -/
theorem Check.sound_of_value {complete : Completion} {v v' : Value}
    (h : value decls complete v = pure v') (hcompletes : Value.CompletesTo decls inside v v') :
    v.Sound := by
  cases hcompletes with
  | leaf hleaf => cases v <;> trivial
  | @call _ span callee args args' copies target defaulted hargs hcopies =>
    cases target with
    | none => trivial
    | some t =>
      intro sig hsig
      simp only [value, Report.bind_eq_pure] at h
      obtain ⟨args'', hargs'', hcall⟩ := h
      -- The arguments that were checked are those that the relation is about.
      have hsame : args'' = args' := by
        have hlength := hargs.length_eq.trans (length_of_exprs hargs'').symm
        have hvalue := congrArg Report.value hcall
        simp only [call, Report.value_bind, Report.value_pure, Value.call.injEq] at hvalue
        exact (List.append_inj hvalue.2.2.1 hlength.symm).1
      rw [← hargs.storeArgs_eq, ← hsame]
      exact (call_eq_pure hsig hcall).2
  | ref hinner =>
    simp only [value, Report.bind_eq_pure, Report.pure_inj, Report.errorIf_eq_pure,
      Bool.not_eq_false'] at h
    obtain ⟨inner', -, _, haddressable, heq⟩ := h
    cases heq
    exact hinner.isAddressable_eq.symm.trans haddressable
  | _ => trivial

/-- Copies of defaults fit if the defaults do. -/
theorem Value.SlotsCompleteTo.storeArgs_eq_pure {rest : Rest Ty} {slots : List (Option Expr)}
    {copies : List Expr} (h : Value.SlotsCompleteTo decls inside slots copies) {params : List Ty}
    (hlength : slots.length = params.length)
    (hfit : ∀ (i : Nat) (ty : Ty) (e : Expr), params[i]? = some ty → slots[i]? = some (some e) →
      ty.store e = pure ()) :
    rest.storeArgs params copies = pure () := by
  induction slots generalizing params copies with
  | nil =>
    cases h
    cases params <;> rfl
  | cons slot slots ih =>
    cases h with
    | @cons _ e e' _ copies hfirst hmore =>
      cases params with
      | nil => simp at hlength
      | cons param params =>
        have hparam : param.store e' = pure () := by
          rw [hfirst.store_eq]
          exact hfit 0 param e rfl rfl
        have hparams := ih hmore (Nat.succ.inj hlength) fun i => hfit (i + 1)
        rw [Rest.storeArgs, hparam, pure_bind, hparams]

/-- Completion keeps operands sound. -/
theorem Value.CompletesTo.sound {v v' : Value} (h : Value.CompletesTo decls inside v v')
    (hchecked : v.Checked decls) : v'.Sound := by
  obtain ⟨hcallable, hstocked, hsound⟩ := hchecked
  cases h with
  | leaf _ => exact hsound
  | @call _ span callee args args' copies target defaulted hargs hcopies =>
    cases target with
    | none => trivial
    | some t =>
      intro sig hsig
      have hwritten : sig.rest.storeArgs sig.params args' = pure () := by
        rw [hargs.storeArgs_eq]
        exact hsound sig hsig
      cases hcopies with
      | nothing _ => rwa [List.append_nil]
      | @filled _ decl sig' _ _ _ hslots =>
        obtain rfl : sig' = sig := Option.some.inj hsig
        have hfull := (hcallable sig' rfl).slots decl rfl
        by_cases hle : args.length ≤ sig'.params.length
        · rw [Rest.storeArgs_append (hargs.length_eq ▸ hle), hwritten, pure_bind, hargs.length_eq]
          refine hslots.storeArgs_eq_pure (by rw [List.length_drop, List.length_drop, hfull]) ?_
          intro i ty e hty he
          rw [List.getElem?_drop] at hty he
          exact hstocked _ ty e hty he
        · have hnone : copies = [] := by
            have hlength := hslots.length_eq
            rw [List.length_drop, hfull] at hlength
            exact List.length_eq_zero_iff.mp (by omega)
          rwa [hnone, List.append_nil]
  | ref hinner => exact hinner.isAddressable_eq.trans hsound
  | _ => trivial

end Sound

/-! ## Checked statements -/

namespace Check

variable {decls : DeclTable}

theorem fits_varDecl {var var' : VarDecl} (h : varDecl decls var = pure var') :
    ∀ s ∈ var'.stores decls, s.Fits := by
  unfold varDecl at h
  split at h
  · rename_i hinit
    rw [← Report.pure_inj.mp h, VarDecl.stores, hinit]
    exact List.forall_mem_nil _
  · rename_i init hinit
    simp only [Report.bind_eq_pure, Report.pure_inj] at h
    obtain ⟨init', hinto, rfl⟩ := h
    simp only [VarDecl.stores, Option.toList_some, List.map_cons, List.map_nil,
      List.forall_mem_singleton]
    exact (into_eq_pure.mp hinto).2

theorem fits_ret {returned : Ty} {span : Span} {e e' : Option Expr}
    (h : ret decls returned span e = pure e') :
    ∀ s ∈ e'.toList.map (Store.slot returned), s.Fits := by
  cases e with
  | none =>
    simp only [ret, Report.bind_eq_pure, Report.pure_inj] at h
    obtain ⟨-, -, rfl⟩ := h
    exact List.forall_mem_nil _
  | some e =>
    simp only [ret] at h
    split at h
    · simp only [Report.bind_eq_pure, Report.error_ne_pure, false_and, exists_false,
        and_false] at h
    · simp only [Report.bind_eq_pure, Report.pure_inj] at h
      obtain ⟨e', hinto, rfl⟩ := h
      simp only [Option.toList_some, List.map_cons, List.map_nil, List.forall_mem_singleton]
      exact (into_eq_pure.mp hinto).2

mutual

/-- What a checked statement stores fits. -/
theorem fits_stmt {returned : Ty} : ∀ {s t : Stmt}, stmt decls returned s = pure t →
    ∀ store ∈ t.stores decls returned, store.Fits
  | .expr e, t, h => by
    simp only [stmt, Report.bind_eq_pure, Report.pure_inj] at h
    obtain ⟨e', -, rfl⟩ := h
    exact List.forall_mem_nil _
  | .decl var, t, h => by
    simp only [stmt, Report.bind_eq_pure, Report.pure_inj] at h
    obtain ⟨var', hvar, rfl⟩ := h
    exact fits_varDecl hvar
  | .assign span target none e, t, h => by
    simp only [stmt, Report.bind_eq_pure, Report.pure_inj] at h
    obtain ⟨target', -, e', hinto, rfl⟩ := h
    simp only [Stmt.stores, List.forall_mem_singleton]
    exact (into_eq_pure.mp hinto).2
  | .assign span target (some op) e, t, h => by
    simp only [stmt, Report.bind_eq_pure, Report.pure_inj] at h
    obtain ⟨target', -, e', -, rfl⟩ := h
    exact List.forall_mem_nil _
  | .ret span e, t, h => by
    simp only [stmt, Report.bind_eq_pure, Report.pure_inj] at h
    obtain ⟨e', he, rfl⟩ := h
    exact fits_ret he
  | .cond list, t, h => by
    simp only [stmt, Report.bind_eq_pure, Report.pure_inj] at h
    obtain ⟨list', hlist, rfl⟩ := h
    exact fits_branches hlist
  | .loop span cond body, t, h => by
    simp only [stmt, Report.bind_eq_pure, Report.pure_inj] at h
    obtain ⟨cond', -, body', hbody, rfl⟩ := h
    exact fits_stmts hbody
  | .block span body, t, h => by
    simp only [stmt, Report.bind_eq_pure, Report.pure_inj] at h
    obtain ⟨body', hbody, rfl⟩ := h
    exact fits_stmts hbody
termination_by structural s => s

theorem fits_stmts {returned : Ty} : ∀ {ss ts : List Stmt}, stmts decls returned ss = pure ts →
    ∀ store ∈ Stmt.storesEach decls returned ts, store.Fits
  | [], ts, h => by
    rw [← Report.pure_inj.mp h]
    exact List.forall_mem_nil _
  | s :: ss, ts, h => by
    simp only [stmts, Report.bind_eq_pure, Report.pure_inj] at h
    obtain ⟨t, hs, ts, hss, rfl⟩ := h
    simp only [Stmt.storesEach, List.forall_mem_append]
    exact ⟨fits_stmt hs, fits_stmts hss⟩
termination_by structural ss => ss

theorem fits_branch {returned : Ty} : ∀ {b c : Branch}, branch decls returned b = pure c →
    ∀ store ∈ c.stores decls returned, store.Fits
  | .mk span g body, c, h => by
    simp only [branch, Report.bind_eq_pure, Report.pure_inj] at h
    obtain ⟨g', -, body', hbody, rfl⟩ := h
    exact fits_stmts hbody
termination_by structural b => b

theorem fits_branches {returned : Ty} : ∀ {bs cs : List Branch},
    branches decls returned bs = pure cs →
      ∀ store ∈ Branch.storesEach decls returned cs, store.Fits
  | [], cs, h => by
    rw [← Report.pure_inj.mp h]
    exact List.forall_mem_nil _
  | b :: bs, cs, h => by
    simp only [branches, Report.bind_eq_pure, Report.pure_inj] at h
    obtain ⟨c, hb, cs, hbs, rfl⟩ := h
    simp only [Branch.storesEach, List.forall_mem_append]
    exact ⟨fits_branch hb, fits_branches hbs⟩
termination_by structural bs => bs

end

/-- Each default is checked against the type of its parameter. -/
theorem fits_params {ps ps' : List Param} {tys : List Ty} (h : params decls ps tys = pure ps') :
    ∀ (i : Nat) (p : Param) (ty : Ty) (e : Expr), ps[i]? = some p → tys[i]? = some ty →
      p.default = some e → ∃ e', Gives decls e e' ∧ ty.store e' = pure () := by
  induction ps generalizing ps' tys with
  | nil => simp
  | cons p ps ih =>
    cases tys with
    | nil => simp
    | cons ty tys =>
      have hstep : (∀ e, p.default = some e → ∃ e', into decls ty e = pure e') ∧
          ∃ ps', params decls ps tys = pure ps' := by
        cases hp : p.default with
        | none =>
          simp only [params, hp, pure_bind, Report.bind_eq_pure] at h
          obtain ⟨ps', hps, -⟩ := h
          exact ⟨by simp, ps', hps⟩
        | some e =>
          simp only [params, hp, pure_bind, Report.bind_eq_pure] at h
          obtain ⟨e', hinto, ps', hps, -⟩ := h
          refine ⟨fun e₁ he₁ => ⟨e', ?_⟩, ps', hps⟩
          rwa [← Option.some.inj he₁]
      obtain ⟨hfirst, ps', hps⟩ := hstep
      intro i
      cases i with
      | zero =>
        rintro p ty e ⟨⟩ ⟨⟩ hp
        obtain ⟨e', hinto⟩ := hfirst e hp
        exact ⟨e', into_eq_pure.mp hinto⟩
      | succ i => exact ih hps i

theorem function_eq_pure {f f' : Function} {sig : Signature Ty} (hsig : f.sig = some sig)
    (h : function decls f = pure f') : f'.sig = some sig ∧
      params decls f.params sig.params = pure f'.params ∧
      stmts decls sig.ret (f.body.getD []) = pure (f'.body.getD []) := by
  simp only [function, hsig, Report.bind_eq_pure] at h
  obtain ⟨ps, hps, hbody⟩ := h
  cases hsome : f.body with
  | none =>
    simp only [hsome, Report.pure_inj] at hbody
    subst hbody
    exact ⟨rfl, hps, by simp [stmts]⟩
  | some body =>
    simp only [hsome, Report.bind_eq_pure, Report.pure_inj] at hbody
    obtain ⟨body', hstmts, rfl⟩ := hbody
    exact ⟨rfl, hps, hstmts⟩

end Check

/-! ## Checked units -/

namespace SourceUnit

variable {unit unit' checked : SourceUnit} {context : SemanticContext}

/-- The functions of one declaration have one signature. -/
theorem signature_of_decl (h : unit.resolve = (unit', .ok context)) {f g : Function} {id : DeclId}
    (hf : .function f ∈ unit'.nodes) (hg : .function g ∈ unit'.nodes) (hfid : f.decl = some id)
    (hgid : g.decl = some id) : f.sig = g.sig := by
  have hdescribed : ∀ {k : Function}, .function k ∈ unit'.nodes → k.decl = some id →
      ∃ info, context.decls[id]? = some info ∧ k.sig.map .func = some info.ty := by
    intro k hk hkid
    have hname : (Node.function k).declares k.name.text := by simp [Node.declares, Node.name?]
    obtain ⟨id', info, hid', hinfo, hdescribes⟩ := resolve_described h hk hname
    obtain rfl : id' = id := Option.some.inj (hid'.symm.trans hkid)
    exact ⟨info, hinfo, hdescribes.2.2⟩
  obtain ⟨info, hinfo, hfty⟩ := hdescribed hf hfid
  obtain ⟨info', hinfo', hgty⟩ := hdescribed hg hgid
  obtain rfl := Option.some.inj (hinfo.symm.trans hinfo')
  exact Option.map_injective (fun _ _ => Ty.func.inj) (hfty.trans hgty.symm)

theorem nodes_of_check (h : unit'.check context = pure checked) :
    List.Forall₂ (fun n n' => Check.node context.decls n = pure n') unit'.nodes checked.nodes := by
  simp only [check, Report.bind_eq_pure, Report.pure_inj, Check.nodes_eq_pure] at h
  obtain ⟨ns', hnodes, rfl⟩ := h
  exact hnodes

/-- The defaults of a function fit its parameters, whichever part they come from. -/
theorem defaultsFit (h : unit.resolve = (unit', .ok context))
    (hlast : Node.DefaultsLast unit'.nodes) (hcheck : unit'.check context = pure checked)
    {f : Function} {id : DeclId} {sig : Signature Ty} (hf : .function f ∈ unit'.nodes)
    (hid : f.decl = some id) (hsig : f.sig = some sig) : context.decls.DefaultsFit id sig := by
  intro i ty e hty he
  obtain ⟨g, p, hg, hgid, hp, hpe⟩ := default_of_slot h he
  obtain ⟨n', -, hnode⟩ := forall₂_left (nodes_of_check hcheck) hg
  simp only [Check.node, Report.bind_eq_pure] at hnode
  obtain ⟨g', hfunction, -⟩ := hnode
  have hgsig : g.sig = some sig := (signature_of_decl h hg hf hgid hid).trans hsig
  obtain ⟨-, hps, -⟩ := Check.function_eq_pure hgsig hfunction
  obtain ⟨e', hgives, hstore⟩ := Check.fits_params hps i p ty e hp hty hpe
  have hcallable := callable_of_check h hlast hcheck
  have hmem : e ∈ (Node.function g).exprs :=
    List.mem_append_left _ (List.mem_filterMap.mpr ⟨p, List.mem_of_getElem? hp, hpe⟩)
  have hcompletes := hgives.completesTo (defaults_have h hcallable) (hcallable _ hg e hmem)
  rwa [← hcompletes.store_eq]

/-- What is known of the operands of a resolved unit if checking finds no error. -/
theorem checked_of_check (h : unit.resolve = (unit', .ok context))
    (hlast : Node.DefaultsLast unit'.nodes) (hcheck : unit'.check context = pure checked) :
    ∀ n ∈ unit'.nodes, ∀ e ∈ n.exprs, ∀ o ∈ e.operands [], o.value.Checked context.decls := by
  intro n hn e he o ho
  have hcallable := callable_of_check h hlast hcheck
  refine ⟨hcallable n hn e he o ho, ?_, ?_⟩
  · cases hvalue : o.value with
    | call span callee args target defaulted =>
      cases target with
      | none => trivial
      | some t =>
        cases t with
        | function decl sig =>
          obtain ⟨f, hf, hdecl, hsig⟩ := called_function h hn he ho hvalue
          exact defaultsFit h hlast hcheck hf hdecl hsig
        | _ => trivial
    | _ => trivial
  · obtain ⟨n', -, -, hgives⟩ := forall₂_left (check_gives h hcheck) hn
    obtain ⟨e', -, hgives⟩ := forall₂_left hgives he
    obtain ⟨v', hv'⟩ := Check.checked_expr hgives o ho
    obtain ⟨place, hinner⟩ := Expr.has_operands (hcallable n hn e he) o ho
    have hcomplete := Check.completesCalls_complete (defaults_have h hcallable)
    have hcompletes := Check.completesTo_value hcomplete hinner
    rw [hv'] at hcompletes
    exact Check.sound_of_value hv' hcompletes

/-- **Operands are sound.** In a checked unit the arguments of each call fit, and each explicit
reference refers to storage, in copied defaults too. -/
theorem operands_sound {a : Analyzed} (htext : unit.OfText) (h : unit.analyzeBridged = .ok a) :
    ∀ n ∈ a.unit.nodes, ∀ e ∈ n.exprs, ∀ o ∈ e.operands [], o.value.Sound := by
  obtain ⟨resolved, hresolve, hcheck⟩ := analyzeBridged_eq_ok.mp h
  have hlast := resolve_defaultsLast hresolve htext.defaultsLast
  have hbefore := checked_of_check hresolve hlast hcheck
  have htable := defaults_have hresolve hbefore
  intro n' hn' e' he' o ho
  obtain ⟨n, hn, -, hexprs⟩ := forall₂_right (check_completes hresolve hlast hcheck) hn'
  obtain ⟨e, he, hcompletes⟩ := forall₂_right hexprs he'
  obtain ⟨v, hv, hvalue⟩ := hcompletes.origin htable (hbefore n hn e he) o ho
  exact hvalue.sound hv

/-- The arguments of calls fit, and their operands are sound. -/
theorem arguments_fit {a : Analyzed} (htext : unit.OfText) (h : unit.analyzeBridged = .ok a) :
    ∀ n ∈ a.unit.nodes, ∀ e ∈ n.exprs, ∀ s ∈ e.stores, s.Fits ∧ s.expr.Has Value.Sound := by
  intro n hn e he s hs
  have hsound := operands_sound htext h n hn e he
  obtain ⟨o, ho, hs⟩ := List.mem_flatMap.mp hs
  exact ⟨(hsound o ho).fits s hs, (Expr.has_operands hsound o ho).stores s hs⟩

/-- **Stores fit.** Everything that a checked unit stores fits where it is stored, and its operands
are sound. -/
theorem stores_fit {a : Analyzed} (htext : unit.OfText) (h : unit.analyzeBridged = .ok a) :
    ∀ n ∈ a.unit.nodes, ∀ s ∈ n.stores a.context.decls, s.Fits ∧ s.expr.Has Value.Sound := by
  obtain ⟨resolved, hresolve, hcheck⟩ := analyzeBridged_eq_ok.mp h
  have hsound := operands_sound htext h
  have hcalls := arguments_fit htext h
  intro n' hn' s hs
  obtain ⟨n, hn, hnode⟩ := forall₂_right (nodes_of_check hcheck) hn'
  cases n with
  | function f =>
    simp only [Check.node, Report.bind_eq_pure, Report.pure_inj] at hnode
    obtain ⟨f', hfunction, rfl⟩ := hnode
    rcases List.mem_append.mp hs with hs | hs
    · obtain ⟨sig, hsig, -⟩ := headed hresolve _ hn
      obtain ⟨hsig', -, hbody⟩ := Check.function_eq_pure hsig hfunction
      rw [Function.stores, hsig'] at hs
      have hmem : s.expr ∈ (Node.function f').exprs :=
        List.mem_append_right _ (Stmt.expr_mem_of_storesEach hs)
      exact ⟨Check.fits_stmts hbody s hs, [], hsound _ hn' _ hmem⟩
    · obtain ⟨e, he, hs⟩ := List.mem_flatMap.mp hs
      exact hcalls _ hn' e (List.mem_append_right _ he) s hs
  | global g =>
    simp only [Check.node, Report.bind_eq_pure, Report.pure_inj] at hnode
    obtain ⟨g', hg, rfl⟩ := hnode
    rcases List.mem_append.mp hs with hs | hs
    · obtain ⟨e, he, rfl⟩ := List.mem_map.mp hs
      exact ⟨Check.fits_varDecl hg _ hs, [], hsound _ hn' e he⟩
    · obtain ⟨e, he, hs⟩ := List.mem_flatMap.mp hs
      exact hcalls _ hn' e he s hs
  | _ =>
    rw [← Report.pure_inj.mp hnode] at hs
    cases hs

end SourceUnit

end KilnLang
