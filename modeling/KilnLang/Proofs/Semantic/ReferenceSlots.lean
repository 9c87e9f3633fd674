import KilnLang.Proofs.Semantic.CheckedStores

/-!
# What is stored into references

A slot that is a reference takes a reference: `null`, an explicit reference to storage, storage, or
a value that is a reference itself (`Value.Refers`).

**Theorem (`reference_slots_take_references`).** In a checked unit an expression that is stored into
a slot which is a reference is such an operand if and only if it is a single operand.

A single operand is checked for being a reference (`Ty.storeRef`). Operands joined by operators are
only checked for their type, which is read through references, so that a sum of numbers passes as a
reference to a number (`sum_stored_into_reference`).

`Node.allStores` lists all that a part stores: what its body, its calls and its initial value store
(`Node.stores`), and the defaults of its parameters, those of functions that are never called too.
-/

namespace KilnLang

/-! ## References -/

/-- The operand can stand where a reference is expected. -/
inductive Value.Refers : Value → Prop
  | null {span : Span} : Refers (.null span)
  | explicit {span : Span} {inner : Value} (storage : inner.isAddressable) :
      Refers (.ref span inner)
  | storage {v : Value} (storage : v.isAddressable) : Refers v
  | reference {v : Value} (type : v.ty.isRef) (implicit : v.isRef = false) : Refers v

/-- The expression is a single operand that can stand where a reference is expected. -/
def Expr.Refers (e : Expr) : Prop := ∃ v, e.single? = some v ∧ v.Refers

/-- A sound operand that passes the check for references is one. -/
theorem Value.refers_of_isReferable {v : Value} (h : v.isReferable) (hsound : v.Sound) :
    v.Refers := by
  by_cases href : v.isRef
  · cases v with
    | ref span inner => exact .explicit hsound
    | _ => cases href
  · simp only [isReferable, Bool.or_eq_true] at h
    obtain ((hnull | hexplicit) | hstorage) | htype := h
    · cases v with
      | null span => exact .null
      | _ => cases hnull
    · exact absurd hexplicit href
    · exact .storage hstorage
    · exact .reference htype (Bool.eq_false_iff.mpr href)

/-- What every operand of an expression has, its only operand has. -/
theorem Expr.Has.of_single {P : Value → Prop} {e : Expr} {v : Value} (h : e.Has P)
    (hv : e.single? = some v) : P v := by
  obtain ⟨inside, hoperands⟩ := h
  rcases e with ⟨span, v' | ⟨v', op, rest⟩⟩
  · cases hv
    refine hoperands ⟨inside, v⟩ ?_
    cases v <;> exact List.mem_cons_self
  · cases hv

/-- What fits a slot that is a reference is one, if it is a single operand. -/
theorem Store.refers_iff_of_fits {s : Store} (h : s.Fits) (hsound : s.expr.Has Value.Sound)
    (href : s.type.isRef) : s.expr.Refers ↔ s.expr.single?.isSome := by
  constructor
  · rintro ⟨v, hv, -⟩
    rw [hv]
    rfl
  · intro hsingle
    obtain ⟨v, hv⟩ := Option.isSome_iff_exists.mp hsingle
    exact ⟨v, hv, Value.refers_of_isReferable (isReferable_of_fits h href hv) (hsound.of_single hv)⟩

/-! ## Defaults -/

/-- What the defaults of parameters store. -/
def Param.storesEach : List Param → List Ty → List Store
  | p :: ps, ty :: tys => p.default.toList.map (.slot ty) ++ Param.storesEach ps tys
  | _, _ => []

/-- All that a part stores, the defaults of its parameters included. -/
def Node.allStores (decls : DeclTable) (n : Node) : List Store :=
  (match n with
    | .function f => Param.storesEach f.params ((f.sig.map (·.params)).getD [])
    | _ => []) ++ n.stores decls ++ n.exprs.flatMap Expr.stores

theorem Param.expr_mem_of_storesEach {ps : List Param} {tys : List Ty} {s : Store}
    (h : s ∈ Param.storesEach ps tys) : s.expr ∈ ps.filterMap (·.default) := by
  fun_induction Param.storesEach ps tys with
  | case1 p ps ty tys ih =>
    rcases List.mem_append.mp h with h | h
    · obtain ⟨e, he, rfl⟩ := List.mem_map.mp h
      exact List.mem_filterMap.mpr ⟨p, List.mem_cons_self, Option.mem_toList.mp he⟩
    · obtain ⟨q, hq, hqe⟩ := List.mem_filterMap.mp (ih h)
      exact List.mem_filterMap.mpr ⟨q, List.mem_cons_of_mem p hq, hqe⟩
  | case2 => cases h

namespace Check

variable {decls : DeclTable}

/-- Checked defaults fit their parameters. -/
theorem fits_paramStores {ps ps' : List Param} {tys : List Ty} (h : params decls ps tys = pure ps') :
    ∀ s ∈ Param.storesEach ps' tys, s.Fits := by
  induction ps generalizing ps' tys with
  | nil =>
    rw [← Report.pure_inj.mp h]
    exact List.forall_mem_nil _
  | cons p ps ih =>
    cases tys with
    | nil =>
      rw [← Report.pure_inj.mp h]
      exact List.forall_mem_nil _
    | cons ty tys =>
      cases hp : p.default with
      | none =>
        simp only [params, hp, pure_bind, Report.bind_eq_pure, Report.pure_inj] at h
        obtain ⟨qs, hqs, rfl⟩ := h
        rw [Param.storesEach]
        exact ih hqs
      | some e =>
        simp only [params, hp, Report.bind_eq_pure, Report.pure_inj] at h
        obtain ⟨e', hinto, _, rfl, qs, hqs, rfl⟩ := h
        exact List.forall_mem_cons.mpr ⟨(into_eq_pure.mp hinto).2, ih hqs⟩

end Check

namespace SourceUnit

variable {unit : SourceUnit}

/-- All that a checked unit stores fits where it is stored, and its operands are sound. -/
theorem allStores_fit {a : Analyzed} (htext : unit.OfText) (h : unit.analyzeBridged = .ok a) :
    ∀ n ∈ a.unit.nodes, ∀ s ∈ n.allStores a.context.decls, s.Fits ∧ s.expr.Has Value.Sound := by
  intro n hn s hs
  simp only [Node.allStores, List.mem_append] at hs
  obtain (hs | hs) | hs := hs
  · cases n with
    | function f' =>
      obtain ⟨resolved, hresolve, hcheck⟩ := analyzeBridged_eq_ok.mp h
      obtain ⟨m, hm, hnode⟩ := forall₂_right (nodes_of_check hcheck) hn
      have hexpr : s.expr ∈ (Node.function f').exprs :=
        List.mem_append_left _ (Param.expr_mem_of_storesEach hs)
      refine ⟨?_, [], operands_sound htext h _ hn _ hexpr⟩
      cases m with
      | function f =>
        simp only [Check.node, Report.bind_eq_pure, Report.pure_inj] at hnode
        obtain ⟨_, hfunction, ⟨⟩⟩ := hnode
        obtain ⟨sig, hsig, -⟩ := headed hresolve _ hm
        obtain ⟨hsig', hparams, -⟩ := Check.function_eq_pure hsig hfunction
        simp only [hsig'] at hs
        exact Check.fits_paramStores hparams s hs
      | global g =>
        simp only [Check.node, Report.bind_eq_pure, Report.pure_inj] at hnode
        obtain ⟨_, -, hglobal⟩ := hnode
        cases hglobal
      | _ => cases Report.pure_inj.mp hnode
    | _ => cases hs
  · exact stores_fit htext h n hn s hs
  · obtain ⟨e, he, hs⟩ := List.mem_flatMap.mp hs
    exact arguments_fit htext h n hn e he s hs

end SourceUnit

/-! ## Checked units -/

/-- **References are stored into references.** What a checked unit stores into a slot that is a
reference is `null`, an explicit reference to storage, storage or a reference, exactly when it is a
single operand. -/
theorem reference_slots_take_references {unit : SourceUnit} {a : Analyzed} (htext : unit.OfText)
    (h : unit.analyzeBridged = .ok a) : ∀ n ∈ a.unit.nodes,
      ∀ s ∈ n.allStores a.context.decls, s.type.isRef → (s.expr.Refers ↔ s.expr.single?.isSome) := by
  intro n hn s hs href
  obtain ⟨hfits, hsound⟩ := SourceUnit.allStores_fit htext h n hn s hs
  exact Store.refers_iff_of_fits hfits hsound href

/-- The slot is no reference, or a single operand is stored into it. -/
def Store.isSingleInRef (s : Store) : Bool := !s.type.isRef || s.expr.single?.isSome

/-- Parameters with and without a default, further arguments, variables, results and assignments
take references: storage, `null`, an explicit reference and a call that gives one. -/
theorem stored_references_refer : ∃ unit a,
    SourceUnit.parse 0 "ref int none = null
      ref int pick(ref int p, ref int q = none, ref int...) { return q }
      void main() { int x ref int r = x r = pick(r, (x), ref x) }" = .ok unit ∧
    unit.analyzeBridged = .ok a ∧
    ∀ n ∈ a.unit.nodes, ∀ s ∈ n.allStores a.context.decls, s.type.isRef → s.expr.Refers := by
  have hok : ((SourceUnit.parse 0 "ref int none = null
      ref int pick(ref int p, ref int q = none, ref int...) { return q }
      void main() { int x ref int r = x r = pick(r, (x), ref x) }").toOption.any fun unit =>
      unit.analyzeBridged.toOption.any fun a => a.unit.nodes.all fun n =>
        (n.allStores a.context.decls).all Store.isSingleInRef) = true := by
    rw [SourceUnit.parse_ofList]
    decide +kernel
  obtain ⟨unit, a, hparse, hanalyze, hall⟩ := SourceUnit.exists_analyzed hok
  have htext : unit.OfText := ⟨0, _, unit, hparse, List.forall₂_same.mpr fun n _ => .inl rfl⟩
  refine ⟨unit, a, hparse, hanalyze, ?_⟩
  intro n hn s hs href
  have hsingle := List.all_eq_true.mp (List.all_eq_true.mp hall n hn) s hs
  rw [Store.isSingleInRef, href, Bool.not_true, Bool.false_or] at hsingle
  exact (reference_slots_take_references htext hanalyze n hn s hs href).mpr hsingle

/-- A sum is passed where a reference is expected, and is none. -/
theorem sum_stored_into_reference : ∃ unit a,
    SourceUnit.parse 0 "void inc(ref int x) { x += 1 }\nvoid main() { inc(1 + 2) }\n" = .ok unit ∧
    unit.analyzeBridged = .ok a ∧
    ∃ n ∈ a.unit.nodes, ∃ s ∈ n.allStores a.context.decls, s.type.isRef ∧ ¬ s.expr.Refers := by
  have hok : ((SourceUnit.parse 0
      "void inc(ref int x) { x += 1 }\nvoid main() { inc(1 + 2) }\n").toOption.any fun unit =>
      unit.analyzeBridged.toOption.any fun a => a.unit.nodes.any fun n =>
        (n.allStores a.context.decls).any fun s => !s.isSingleInRef) = true := by
    rw [SourceUnit.parse_ofList]
    decide +kernel
  obtain ⟨unit, a, hparse, hanalyze, hany⟩ := SourceUnit.exists_analyzed hok
  obtain ⟨n, hn, hany⟩ := List.any_eq_true.mp hany
  obtain ⟨s, hs, hjoined⟩ := List.any_eq_true.mp hany
  simp only [Store.isSingleInRef, Bool.not_or, Bool.not_not, Bool.and_eq_true,
    Bool.not_eq_true'] at hjoined
  refine ⟨unit, a, hparse, hanalyze, n, hn, s, hs, hjoined.1, ?_⟩
  rintro ⟨v, hv, -⟩
  rw [hv] at hjoined
  cases hjoined.2

end KilnLang
