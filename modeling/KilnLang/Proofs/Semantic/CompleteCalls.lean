import KilnLang.Proofs.Semantic.Checking
import KilnLang.Proofs.Semantic.FilledSlots

/-!
# Calls are complete

**Theorem (`checked_calls_are_complete`).** In a checked unit every call has its arguments: a call
of a function value or of a function of a header has been written with all of them, and a call of a
function of the unit has, after the arguments that were written, one copy of the default of each
parameter that was left out. Copies are completed in turn; only a call that stands in a copy of a
default of the same function may be short.

**Completion as a relation** (`Expr.CompletesTo`). The relation says what a completed expression is,
without depth and without errors. Its index `inside` are the functions from whose defaults the
expression has been copied, which are not completed again. Checking computes the relation
(`completesTo_expr`): its bound on the depth is never reached, because the functions that are being
completed are distinct declarations of the table (`copies_completion_of_depth`).

**Why no argument shifts.** The slots of a function are as many as its parameters, and those that
are filled come last, also when prototypes and the definition give defaults for different parameters
(`SourceUnit.slots_last`). So a number of arguments that is accepted leaves out filled slots only
(`CallTarget.takes_of_accepts`). Errors in copies are dropped, but each copy is the default of a
parameter, which is checked where it is declared (`SourceUnit.default_of_slot`).
-/

namespace KilnLang

/-! ## Completion as a relation -/

/-- Whether an operand has no part that can be completed. -/
def Value.isLeaf : Value → Bool
  | .number _ | .decimal _ | .string _ | .char _ | .bool _ _ | .null _ | .ident _ => true
  | _ => false

mutual

/-- The second expression is the first one with its calls completed, inside copies of defaults of
the given functions. -/
inductive Expr.CompletesTo (decls : DeclTable) : List DeclId → Expr → Expr → Prop
  | mk {inside : List DeclId} {span : Span} {c c' : Chain}
      (chain : Chain.CompletesTo decls inside c c') :
      Expr.CompletesTo decls inside (.mk span c) (.mk span c')

/-- Operands joined by operators, completed. -/
inductive Chain.CompletesTo (decls : DeclTable) : List DeclId → Chain → Chain → Prop
  | operand {inside : List DeclId} {v v' : Value} (value : Value.CompletesTo decls inside v v') :
      Chain.CompletesTo decls inside (.operand v) (.operand v')
  | link {inside : List DeclId} {v v' : Value} {op : Operator} {c c' : Chain}
      (value : Value.CompletesTo decls inside v v') (rest : Chain.CompletesTo decls inside c c') :
      Chain.CompletesTo decls inside (.link v op c) (.link v' op c')

/-- An operand, completed: a call has copies after the arguments that were written. -/
inductive Value.CompletesTo (decls : DeclTable) : List DeclId → Value → Value → Prop
  | leaf {inside : List DeclId} {v : Value} (leaf : v.isLeaf) : Value.CompletesTo decls inside v v
  | call {inside : List DeclId} {span : Span} {callee : DottedName} {args args' copies : List Expr}
      {target : Option CallTarget} {defaulted : Nat}
      (written : Value.EachCompletesTo decls inside args args')
      (omitted : Value.CopiesFor decls inside target args.length copies) :
      Value.CompletesTo decls inside (.call span callee args target defaulted)
        (.call span callee (args' ++ copies) target copies.length)
  | index {inside : List DeclId} {span : Span} {v v' : Value} {e e' : Expr}
      (base : Value.CompletesTo decls inside v v')
      (position : Expr.CompletesTo decls inside e e') :
      Value.CompletesTo decls inside (.index span v e) (.index span v' e')
  | ref {inside : List DeclId} {span : Span} {v v' : Value}
      (inner : Value.CompletesTo decls inside v v') :
      Value.CompletesTo decls inside (.ref span v) (.ref span v')
  | prefixed {inside : List DeclId} {span : Span} {op : UnaryOp} {v v' : Value}
      (inner : Value.CompletesTo decls inside v v') :
      Value.CompletesTo decls inside (.prefixed span op v) (.prefixed span op v')
  | suffixed {inside : List DeclId} {span : Span} {op : UnaryOp} {v v' : Value}
      (inner : Value.CompletesTo decls inside v v') :
      Value.CompletesTo decls inside (.suffixed span op v) (.suffixed span op v')
  | paren {inside : List DeclId} {e e' : Expr} (inner : Expr.CompletesTo decls inside e e') :
      Value.CompletesTo decls inside (.paren e) (.paren e')

/-- Expressions, completed one by one. -/
inductive Value.EachCompletesTo (decls : DeclTable) : List DeclId → List Expr → List Expr → Prop
  | nil {inside : List DeclId} : Value.EachCompletesTo decls inside [] []
  | cons {inside : List DeclId} {e e' : Expr} {es es' : List Expr}
      (first : Expr.CompletesTo decls inside e e')
      (more : Value.EachCompletesTo decls inside es es') :
      Value.EachCompletesTo decls inside (e :: es) (e' :: es')

/-- The copies for a call with a number of written arguments: one for each further parameter of a
function, unless the call stands in a default of the same function. -/
inductive Value.CopiesFor (decls : DeclTable) :
    List DeclId → Option CallTarget → Nat → List Expr → Prop
  | filled {inside : List DeclId} {decl : DeclId} {sig : Signature Ty} {count : Nat}
      {copies : List Expr} (fresh : decl ∉ inside)
      (slots : Value.SlotsCompleteTo decls (decl :: inside)
        ((decls.defaultsOf decl).drop count) copies) :
      Value.CopiesFor decls inside (some (.function decl sig)) count copies
  | nothing {inside : List DeclId} {target : Option CallTarget} {count : Nat}
      (inner : ∀ decl sig, target = some (.function decl sig) → decl ∈ inside) :
      Value.CopiesFor decls inside target count []

/-- Copies of the defaults in slots, each of them filled, completed one by one. -/
inductive Value.SlotsCompleteTo (decls : DeclTable) :
    List DeclId → List (Option Expr) → List Expr → Prop
  | nil {inside : List DeclId} : Value.SlotsCompleteTo decls inside [] []
  | cons {inside : List DeclId} {e e' : Expr} {slots : List (Option Expr)} {copies : List Expr}
      (first : Expr.CompletesTo decls inside e e')
      (more : Value.SlotsCompleteTo decls inside slots copies) :
      Value.SlotsCompleteTo decls inside (some e :: slots) (e' :: copies)

end

section Lengths

variable {decls : DeclTable} {inside : List DeclId}

theorem Value.EachCompletesTo.length_eq {es es' : List Expr}
    (h : Value.EachCompletesTo decls inside es es') : es'.length = es.length := by
  induction es generalizing es' with
  | nil =>
    cases h
    rfl
  | cons e es ih =>
    cases h with
    | cons _ hmore => rw [List.length_cons, List.length_cons, ih hmore]

theorem Value.SlotsCompleteTo.length_eq {slots : List (Option Expr)} {copies : List Expr}
    (h : Value.SlotsCompleteTo decls inside slots copies) : copies.length = slots.length := by
  induction slots generalizing copies with
  | nil =>
    cases h
    rfl
  | cons slot slots ih =>
    cases h with
    | cons _ hmore => rw [List.length_cons, List.length_cons, ih hmore]

end Lengths

/-! ## Numbers of arguments -/

/-- What is called takes a number of arguments: those that are left out have filled slots. -/
structure CallTarget.Takes (decls : DeclTable) (count : Nat) (t : CallTarget)
    (sig : Signature Ty) : Prop where
  accepted : sig.accepts (sig.required (Check.defaults decls t)) count
  slots : ∀ decl, t = .function decl sig → (decls.defaultsOf decl).length = sig.params.length
  filled : ∀ slot ∈ (Check.defaults decls t).drop count, slot.isSome

/-- The call takes its arguments. -/
def Value.Callable (decls : DeclTable) : Value → Prop
  | .call _ _ args (some t) _ => ∀ sig, t.signature? = some sig → t.Takes decls args.length sig
  | _ => True

/-- Every operand of every default has the property. -/
def DeclTable.DefaultsHave (P : Value → Prop) (decls : DeclTable) : Prop :=
  ∀ id e, some e ∈ decls.defaultsOf id → ∀ o ∈ e.operands [], P o.value

/-- If the filled slots come last, an accepted number of arguments leaves out filled slots only. -/
theorem CallTarget.takes_of_accepts {decls : DeclTable} {count : Nat} {t : CallTarget}
    {sig : Signature Ty} (haccepts : sig.accepts (sig.required (Check.defaults decls t)) count)
    (hslots : ∀ decl, t = .function decl sig →
      (decls.defaultsOf decl).length = sig.params.length ∧
        (decls.defaultsOf decl).Pairwise fun a b => a.isSome → b.isSome)
    (hsig : t.signature? = some sig) : t.Takes decls count sig := by
  refine ⟨haccepts, fun decl hdecl => (hslots decl hdecl).1, fun slot hslot => ?_⟩
  cases t with
  | function decl sig' =>
    obtain rfl : sig' = sig := Option.some.inj hsig
    obtain ⟨hlength, hlast⟩ := hslots decl rfl
    simp only [Check.defaults] at haccepts hslot
    obtain ⟨j, hj, rfl⟩ := List.mem_iff_getElem.mp hslot
    rw [List.getElem_drop]
    rw [List.length_drop] at hj
    have hrequired : sig'.required (decls.defaultsOf decl) ≤ count := by
      simp only [Signature.accepts, Bool.and_eq_true, decide_eq_true_eq] at haccepts
      exact haccepts.1
    rw [Signature.required] at hrequired
    -- The first filled slot is among those before the ones that are left out.
    cases hfirst : (decls.defaultsOf decl).findIdx? (·.isSome) with
    | none =>
      rw [hfirst, Option.getD_none] at hrequired
      omega
    | some k =>
      rw [hfirst, Option.getD_some] at hrequired
      obtain ⟨hk, hsome, -⟩ := List.findIdx?_eq_some_iff_getElem.mp hfirst
      rcases Nat.lt_or_eq_of_le (show k ≤ count + j by omega) with hlt | rfl
      · exact List.pairwise_iff_getElem.mp hlast k (count + j) hk (by omega) hlt hsome
      · exact hsome
  | _ => simp [Check.defaults] at hslot

/-! ## Checking completes -/

namespace Check

variable {decls : DeclTable} {complete : Completion} {inside : List DeclId}

/-- What completes calls gives the copies that the relation asks for. -/
def CompletesCalls (decls : DeclTable) (inside : List DeclId) (complete : Completion) : Prop :=
  ∀ decl sig count, (∀ slot ∈ (decls.defaultsOf decl).drop count, slot.isSome) →
    Value.CopiesFor decls inside (some (.function decl sig)) count (complete decl count).value

theorem completesTo_call (hcomplete : CompletesCalls decls inside complete) {span : Span}
    {callee : DottedName} {args args' : List Expr} {target : Option CallTarget} {defaulted : Nat}
    (hargs : Value.EachCompletesTo decls inside args args')
    (htakes : (Value.call span callee args target defaulted).Callable decls) :
    Value.CompletesTo decls inside (.call span callee args target defaulted)
      (call decls complete span callee args' target).value := by
  have hlength := hargs.length_eq
  cases target with
  | none => exact .call hargs (.nothing (by simp))
  | some t =>
    refine .call hargs ?_
    simp only [arguments]
    cases hsig : t.signature? with
    | none =>
      refine .nothing fun decl sig ht => ?_
      obtain rfl := Option.some.inj ht
      cases hsig
    | some sig =>
      obtain ⟨haccepted, -, hfilled⟩ := htakes sig hsig
      rw [← hlength] at haccepted hfilled
      simp only [haccepted, if_true, Report.value_bind, Report.value_pure]
      cases t with
      | function decl sig' =>
        rw [← hlength]
        exact hcomplete decl sig' _ hfilled
      | _ => exact .nothing (by simp)

mutual

/-- Checking an expression completes it. -/
theorem completesTo_expr (hcomplete : CompletesCalls decls inside complete) :
    ∀ {e : Expr} {place : List DeclId}, (∀ o ∈ e.operands place, o.value.Callable decls) →
      Expr.CompletesTo decls inside e (expr decls complete e).value
  | .mk span c, place, h => by
    simp only [Expr.operands] at h
    exact .mk (completesTo_chain hcomplete h)

theorem completesTo_chain (hcomplete : CompletesCalls decls inside complete) :
    ∀ {c : Chain} {place : List DeclId}, (∀ o ∈ c.operands place, o.value.Callable decls) →
      Chain.CompletesTo decls inside c (chain decls complete c).value
  | .operand v, place, h => by
    simp only [Chain.operands] at h
    exact .operand (completesTo_value hcomplete h)
  | .link v op rest, place, h => by
    simp only [Chain.operands, List.forall_mem_append] at h
    exact .link (completesTo_value hcomplete h.1) (completesTo_chain hcomplete h.2)

theorem completesTo_value (hcomplete : CompletesCalls decls inside complete) :
    ∀ {v : Value} {place : List DeclId}, (∀ o ∈ v.operands place, o.value.Callable decls) →
      Value.CompletesTo decls inside v (value decls complete v).value
  | .call span callee args target defaulted, place, h => by
    simp only [Value.operands, List.forall_mem_cons] at h
    exact completesTo_call hcomplete (completesTo_exprs hcomplete h.2) h.1
  | .index span base position, place, h => by
    simp only [Value.operands, List.forall_mem_cons, List.forall_mem_append] at h
    exact .index (completesTo_value hcomplete h.2.1) (completesTo_expr hcomplete h.2.2)
  | .ref span inner, place, h => by
    simp only [Value.operands, List.forall_mem_cons] at h
    exact .ref (completesTo_value hcomplete h.2)
  | .prefixed span op inner, place, h => by
    simp only [Value.operands, List.forall_mem_cons] at h
    exact .prefixed (completesTo_value hcomplete h.2)
  | .suffixed span op inner, place, h => by
    simp only [Value.operands, List.forall_mem_cons] at h
    exact .suffixed (completesTo_value hcomplete h.2)
  | .paren inner, place, h => by
    simp only [Value.operands, List.forall_mem_cons] at h
    exact .paren (completesTo_expr hcomplete h.2)
  | .ident _, _, _ | .number _, _, _ | .decimal _, _, _ | .string _, _, _ | .char _, _, _
  | .bool _ _, _, _ | .null _, _, _ => .leaf rfl

theorem completesTo_exprs (hcomplete : CompletesCalls decls inside complete) :
    ∀ {es : List Expr} {place copied : List DeclId} {written : Nat},
      (∀ o ∈ Value.operandsEach place copied written es, o.value.Callable decls) →
      Value.EachCompletesTo decls inside es (exprs decls complete es).value
  | [], _, _, _, _ => .nil
  | e :: es, _, _, _, h => by
    simp only [Value.operandsEach, List.forall_mem_append] at h
    exact .cons (completesTo_expr hcomplete h.1) (completesTo_exprs hcomplete h.2)

end

theorem completesTo_slots (hcomplete : CompletesCalls decls inside complete)
    {slots : List (Option Expr)} (hfilled : ∀ slot ∈ slots, slot.isSome)
    (hcallable : ∀ e, some e ∈ slots → ∀ o ∈ e.operands [], o.value.Callable decls) :
    Value.SlotsCompleteTo decls inside slots (exprs decls complete slots.reduceOption).value := by
  induction slots with
  | nil => exact .nil
  | cons slot slots ih =>
    obtain ⟨hsome, hmore⟩ := List.forall_mem_cons.mp hfilled
    obtain ⟨e, rfl⟩ := Option.isSome_iff_exists.mp hsome
    rw [List.reduceOption_cons_of_some]
    exact .cons (completesTo_expr hcomplete (hcallable e List.mem_cons_self))
      (ih hmore fun e he => hcallable e (List.mem_cons_of_mem _ he))

/-- At depth zero all declarations are being completed. -/
theorem length_le_of_not_mem {active : List DeclId} {decl : DeclId}
    (hdepth : decls.length ≤ active.length) (hnodup : active.Nodup)
    (hactive : ∀ id ∈ active, id < decls.length) (hdecl : decl ∉ active) : decls.length ≤ decl := by
  by_contra hlt
  have hsub : decl :: active ⊆ List.range decls.length := by
    intro id hid
    rcases List.mem_cons.mp hid with rfl | hid
    · exact List.mem_range.mpr (Nat.lt_of_not_le hlt)
    · exact List.mem_range.mpr (hactive id hid)
  have hle := ((List.nodup_cons.mpr ⟨hdecl, hnodup⟩).subperm hsub).length_le
  rw [List.length_cons, List.length_range] at hle
  omega

/-- Completion with enough depth gives the copies that the relation asks for. -/
theorem copies_completion_of_depth (htable : decls.DefaultsHave (Value.Callable decls)) :
    ∀ (depth : Nat) (active : List DeclId), decls.length ≤ depth + active.length →
      active.Nodup → (∀ id ∈ active, id < decls.length) →
      CompletesCalls decls active (completion decls depth active) := by
  intro depth
  induction depth with
  | zero =>
    intro active hdepth hnodup hactive decl sig count hfilled
    by_cases hdecl : decl ∈ active
    · refine .nothing fun decl' sig' h => ?_
      cases h
      exact hdecl
    -- All declarations are active, so another number has no entry and no slots.
    · have hge := length_le_of_not_mem (by omega) hnodup hactive hdecl
      refine .filled hdecl ?_
      simp only [DeclTable.defaultsOf, List.getElem?_eq_none hge, Option.map_none, Option.getD_none,
        List.drop_nil]
      exact .nil
  | succ depth ih =>
    intro active hdepth hnodup hactive decl sig count hfilled
    rw [completion]
    by_cases hdecl : decl ∈ active
    · rw [if_pos hdecl]
      refine .nothing fun decl' sig' h => ?_
      cases h
      exact hdecl
    · rw [if_neg hdecl]
      refine .filled hdecl ?_
      by_cases hlt : decl < decls.length
      · have hcomplete := ih (decl :: active) (by rw [List.length_cons]; omega)
          (List.nodup_cons.mpr ⟨hdecl, hnodup⟩) (List.forall_mem_cons.mpr ⟨hlt, hactive⟩)
        exact completesTo_slots hcomplete hfilled fun e he =>
          htable decl e (List.mem_of_mem_drop he)
      · simp only [DeclTable.defaultsOf, List.getElem?_eq_none (Nat.le_of_not_lt hlt),
          Option.map_none, Option.getD_none, List.drop_nil]
        exact .nil

theorem completesCalls_complete (htable : decls.DefaultsHave (Value.Callable decls)) :
    CompletesCalls decls [] (Check.complete decls) :=
  copies_completion_of_depth htable decls.length [] (by simp) .nil (by simp)

theorem Gives.completesTo (htable : decls.DefaultsHave (Value.Callable decls)) {e e' : Expr}
    (h : Gives decls e e') (he : ∀ o ∈ e.operands [], o.value.Callable decls) :
    Expr.CompletesTo decls [] e e' := by
  rw [h.eq_completed]
  exact completesTo_expr (completesCalls_complete htable) he

end Check

/-! ## What completed calls have for arguments -/

/-- The arguments of a call of a function of the unit: the written ones and a copy for each of the
others, unless the call stands in a copy of a default of the same function. -/
structure CompleteArgs (decls : DeclTable) (inside : List DeclId) (decl : DeclId)
    (sig : Signature Ty) (args : List Expr) (defaulted : Nat) : Prop where
  slots : (decls.defaultsOf decl).length = sig.params.length
  short : args.length < sig.params.length → decl ∈ inside
  full : sig.params.length ≤ args.length → ∃ written copies, args = written ++ copies ∧
    defaulted = copies.length ∧
    Value.SlotsCompleteTo decls (decl :: inside) ((decls.defaultsOf decl).drop written.length)
      copies

/-- The operand has its arguments if it is a call. Only functions of the unit have defaults. -/
def Operand.Complete (decls : DeclTable) (o : Operand) : Prop :=
  match o.value with
  | .call _ _ args (some (.function decl sig)) defaulted =>
    CompleteArgs decls o.inside decl sig args defaulted
  | .call _ _ args (some (.functionValue sig)) _ | .call _ _ args (some (.cFunction sig)) _ =>
    sig.params.length ≤ args.length ∧ (sig.rest.isOpen = false → args.length = sig.params.length)
  | _ => True

section Relation

variable {decls : DeclTable} {P : Value → Prop}

theorem Value.operandsEach_append (inside copied : List DeclId) (written : Nat)
    (es fs : List Expr) : Value.operandsEach inside copied written (es ++ fs) =
      Value.operandsEach inside copied written es ++
        Value.operandsEach inside copied (written - es.length) fs := by
  induction es generalizing written with
  | nil => simp [Value.operandsEach]
  | cons e es ih =>
    simp only [List.cons_append, Value.operandsEach, ih, List.append_assoc, List.length_cons,
      Nat.sub_sub, Nat.add_comm 1]

/-- Without defaults, all arguments are required. -/
theorem Signature.length_of_accepts {sig : Signature Ty} {count : Nat}
    (h : sig.accepts (sig.required []) count) :
    sig.params.length ≤ count ∧ (sig.rest.isOpen = false → count = sig.params.length) := by
  simp only [accepts, required, List.findIdx?_nil, Option.getD_none, Nat.min_self,
    Bool.and_eq_true, Bool.or_eq_true, decide_eq_true_eq] at h
  refine ⟨h.1, fun hclosed => ?_⟩
  rcases h.2 with hle | hopen
  · exact Nat.le_antisymm hle h.1
  · simp [hclosed] at hopen

theorem Value.CopiesFor.complete {inside : List DeclId} {span : Span} {callee : DottedName}
    {args args' copies : List Expr} {target : Option CallTarget} {defaulted : Nat}
    (h : Value.CopiesFor decls inside target args.length copies)
    (hlength : args'.length = args.length)
    (hcallable : (Value.call span callee args target defaulted).Callable decls) :
    Operand.Complete decls
      ⟨inside, .call span callee (args' ++ copies) target copies.length⟩ := by
  cases h with
  | @filled _ decl sig _ _ fresh slots =>
    obtain ⟨-, hslots, -⟩ := hcallable sig rfl
    have hcopies := slots.length_eq
    rw [List.length_drop, hslots decl rfl] at hcopies
    refine ⟨hslots decl rfl, fun hshort => ?_, fun _ => ⟨args', copies, rfl, rfl, hlength ▸ slots⟩⟩
    rw [List.length_append] at hshort
    omega
  | nothing hinner =>
    rw [List.append_nil]
    cases target with
    | none => trivial
    | some t =>
      cases t with
      | function decl sig =>
        obtain ⟨-, hslots, -⟩ := hcallable sig rfl
        refine ⟨hslots decl rfl, fun _ => hinner decl sig rfl, fun hfull =>
          ⟨args', [], (List.append_nil _).symm, rfl, ?_⟩⟩
        -- All parameters have arguments, so no slot is left to be copied.
        rw [List.drop_eq_nil_of_le (by rw [hslots decl rfl]; exact hfull)]
        exact .nil
      | functionValue sig | cFunction sig =>
        obtain ⟨haccepted, -, -⟩ := hcallable sig rfl
        simpa [Operand.Complete, hlength] using Signature.length_of_accepts haccepted
      | _ => trivial

mutual

/-- Each operand of a completed expression is the completion of an operand of the expression or of a
default. -/
theorem Expr.CompletesTo.origin (htable : decls.DefaultsHave P) :
    ∀ {inside : List DeclId} {e e' : Expr},
    Expr.CompletesTo decls inside e e' → ∀ {place : List DeclId},
      (∀ o ∈ e.operands place, P o.value) →
      ∀ o ∈ e'.operands inside, ∃ v, P v ∧ Value.CompletesTo decls o.inside v o.value
  | _, _, _, .mk hchain, place, h => by
    simp only [Expr.operands] at h ⊢
    exact hchain.origin htable h

theorem Chain.CompletesTo.origin (htable : decls.DefaultsHave P) :
    ∀ {inside : List DeclId} {c c' : Chain},
    Chain.CompletesTo decls inside c c' → ∀ {place : List DeclId},
      (∀ o ∈ c.operands place, P o.value) →
      ∀ o ∈ c'.operands inside, ∃ v, P v ∧ Value.CompletesTo decls o.inside v o.value
  | _, _, _, .operand hvalue, place, h => by
    simp only [Chain.operands] at h ⊢
    exact hvalue.origin htable h
  | _, _, _, .link hvalue hrest, place, h => by
    simp only [Chain.operands, List.forall_mem_append] at h ⊢
    exact ⟨hvalue.origin htable h.1, hrest.origin htable h.2⟩

theorem Value.CompletesTo.origin (htable : decls.DefaultsHave P) :
    ∀ {inside : List DeclId} {v v' : Value},
    Value.CompletesTo decls inside v v' → ∀ {place : List DeclId},
      (∀ o ∈ v.operands place, P o.value) →
      ∀ o ∈ v'.operands inside, ∃ v, P v ∧ Value.CompletesTo decls o.inside v o.value
  | inside, v, _, .leaf hleaf, place, h => by
    have hsingle : ∀ place, v.operands place = [⟨place, v⟩] := by
      intro place
      cases v <;> first | rfl | cases hleaf
    rw [hsingle, List.forall_mem_singleton] at h ⊢
    exact ⟨v, h, .leaf hleaf⟩
  | _, _, _, .call hargs hcopies, place, h => by
    simp only [Value.operands, List.forall_mem_cons] at h
    -- Written arguments come from written ones, and copies from defaults of the table.
    simp only [Value.operands, List.forall_mem_cons, Value.operandsEach_append, List.length_append,
      Nat.add_sub_cancel, Nat.sub_self, List.forall_mem_append]
    exact ⟨⟨_, h.1, .call hargs hcopies⟩, hargs.origin htable h.2 (Nat.le_refl _),
      hcopies.origin htable⟩
  | _, _, _, .index hbase hposition, place, h => by
    simp only [Value.operands, List.forall_mem_cons, List.forall_mem_append] at h ⊢
    exact ⟨⟨_, h.1, .index hbase hposition⟩, hbase.origin htable h.2.1,
      hposition.origin htable h.2.2⟩
  | _, _, _, .ref hinner, place, h => by
    simp only [Value.operands, List.forall_mem_cons] at h ⊢
    exact ⟨⟨_, h.1, .ref hinner⟩, hinner.origin htable h.2⟩
  | _, _, _, .prefixed hinner, place, h => by
    simp only [Value.operands, List.forall_mem_cons] at h ⊢
    exact ⟨⟨_, h.1, .prefixed hinner⟩, hinner.origin htable h.2⟩
  | _, _, _, .suffixed hinner, place, h => by
    simp only [Value.operands, List.forall_mem_cons] at h ⊢
    exact ⟨⟨_, h.1, .suffixed hinner⟩, hinner.origin htable h.2⟩
  | _, _, _, .paren hinner, place, h => by
    simp only [Value.operands, List.forall_mem_cons] at h ⊢
    exact ⟨⟨_, h.1, .paren hinner⟩, hinner.origin htable h.2⟩

theorem Value.EachCompletesTo.origin (htable : decls.DefaultsHave P) :
    ∀ {inside : List DeclId} {es es' : List Expr},
    Value.EachCompletesTo decls inside es es' →
    ∀ {place copied copied' : List DeclId} {written written' : Nat},
      (∀ o ∈ Value.operandsEach place copied written es, P o.value) → es'.length ≤ written' →
      ∀ o ∈ Value.operandsEach inside copied' written' es',
        ∃ v, P v ∧ Value.CompletesTo decls o.inside v o.value
  | _, _, _, .nil, _, _, _, _, _, _, _ => by simp [Value.operandsEach]
  | _, _, _, .cons hfirst hmore, _, _, _, _, written', h, hwritten => by
    rw [List.length_cons] at hwritten
    have hpos : written' ≠ 0 := by omega
    simp only [Value.operandsEach, List.forall_mem_append, if_neg hpos] at h ⊢
    exact ⟨hfirst.origin htable h.1, hmore.origin htable h.2 (by omega)⟩

theorem Value.CopiesFor.origin (htable : decls.DefaultsHave P) :
    ∀ {inside : List DeclId} {target : Option CallTarget} {count : Nat} {copies : List Expr},
      Value.CopiesFor decls inside target count copies →
      ∀ o ∈ Value.operandsEach inside (CallTarget.owner target ++ inside) 0 copies,
        ∃ v, P v ∧ Value.CompletesTo decls o.inside v o.value
  | _, _, _, _, .filled _ hslots =>
    hslots.origin htable fun e he => htable _ e (List.mem_of_mem_drop he)
  | _, _, _, _, .nothing _ => by simp [Value.operandsEach]

theorem Value.SlotsCompleteTo.origin (htable : decls.DefaultsHave P) :
    ∀ {inside : List DeclId} {slots : List (Option Expr)} {copies : List Expr},
      Value.SlotsCompleteTo decls inside slots copies →
      (∀ e, some e ∈ slots → ∀ o ∈ e.operands [], P o.value) →
      ∀ {place : List DeclId}, ∀ o ∈ Value.operandsEach place inside 0 copies,
        ∃ v, P v ∧ Value.CompletesTo decls o.inside v o.value
  | _, _, _, .nil, _, _ => by simp [Value.operandsEach]
  | _, _, _, .cons hfirst hmore, h, _ => by
    simp only [Value.operandsEach, if_true, List.forall_mem_append]
    exact ⟨hfirst.origin htable (h _ List.mem_cons_self),
      hmore.origin htable fun e he => h e (List.mem_cons_of_mem _ he)⟩

end

/-- The operands of a completed expression have their arguments. -/
theorem Expr.CompletesTo.complete {inside : List DeclId} {e e' : Expr}
    (h : Expr.CompletesTo decls inside e e')
    (htable : decls.DefaultsHave (Value.Callable decls))
    (hcallable : ∀ o ∈ e.operands [], o.value.Callable decls) :
    ∀ o ∈ e'.operands inside, o.Complete decls := by
  intro o ho
  obtain ⟨v, hv, hcompletes⟩ := h.origin htable hcallable o ho
  obtain ⟨place, v'⟩ := o
  cases hcompletes with
  | leaf hleaf => cases v' <;> trivial
  | call hargs hcopies => exact hcopies.complete hargs.length_eq hv
  | _ => trivial

end Relation

/-! ## Called functions -/

theorem DeclInfo.binding_eq_function {info : DeclInfo} {id id' : DeclId} :
    info.binding id = .function id' ↔ info.kind = .function ∧ id = id' := by
  unfold DeclInfo.binding
  cases info.kind <;> simp

/-- A name that is bound to a function of the unit is bound to a visible part. -/
theorem Bound.function {context : SemanticContext} {visible : List Node} {scopes : List Frame}
    {vargs : Option Ty} {name : String} {span : Span} {r : Resolution} {id : DeclId}
    (h : Bound context visible scopes vargs name span r) (hr : r.binding = .function id) :
    ∃ f, .function f ∈ visible ∧ f.decl = some id ∧ f.sig.map .func = some r.ty := by
  cases h with
  | inner _ _ _ hmatch =>
    have hkind := (DeclInfo.binding_eq_function.mp hr).1
    rcases hmatch.inner with hinner | hinner <;>
      cases hkind.symm.trans (hmatch.kind.trans hinner)
  | unit _ hsome hdecl _ =>
    obtain ⟨hkind, rfl⟩ := DeclInfo.binding_eq_function.mp hr
    obtain ⟨n, hn, hname⟩ := hsome
    obtain ⟨hid, hdescribes⟩ := hdecl n hn hname
    cases n with
    | function f => exact ⟨f, hn, hid, hdescribes.2.2⟩
    | global g => cases hkind.symm.trans hdescribes.2.1
    | _ => exact hdescribes.elim
  | outside _ _ hout =>
    cases hout with
    | @symbol s => cases s <;> cases hr
    | _ => cases hr

namespace SourceUnit

variable {unit unit' : SourceUnit} {context : SemanticContext}

/-- The expressions of a resolved unit are decided, and their names are bound among its parts. -/
theorem resolve_exprs (h : unit.resolve = (unit', .ok context)) {n : Node} (hn : n ∈ unit'.nodes)
    {e : Expr} (he : e ∈ n.exprs) : e.Decided ∧ ∃ visible scopes vargs,
      (∀ m ∈ visible, m ∈ unit'.nodes) ∧ e.Every (·.Bound context visible scopes vargs) := by
  obtain ⟨-, -, hfunctions, hglobals⟩ := resolve_bound h
  have hbody := (resolve_filled h n hn).2
  cases n with
  | function f =>
    obtain ⟨hdefaults, hexprs, -⟩ := hbody
    obtain ⟨⟨first, hsites⟩, hbound⟩ := hfunctions f hn
    rcases List.mem_append.mp he with he | he
    · obtain ⟨p, hp, hpe⟩ := List.mem_filterMap.mp he
      have hmem : e ∈ p.default.toList := by simp [hpe]
      exact ⟨hdefaults p hp e hmem, _, _, _, fun m hm => hm, hbound p hp e hmem⟩
    · obtain ⟨s, hs, rfl⟩ := List.mem_map.mp (f.expr_sites first ▸ he)
      exact ⟨hexprs s.expr he, _, _, _, fun m hm => hm, (hsites s hs).names⟩
  | global g =>
    obtain ⟨before, after, hsplit⟩ := List.append_of_mem hn
    refine ⟨hbody e he, _, _, _, fun m hm => ?_, hglobals before g after hsplit e he⟩
    rw [hsplit]
    rcases List.mem_append.mp hm with hm | hm
    · exact List.mem_append_left _ hm
    · exact List.mem_append_right _ (List.mem_cons_of_mem _ (List.mem_filter.mp hm).1)
  | _ => cases he

/-- A call of a function of the unit calls one of its parts. -/
theorem called_function (h : unit.resolve = (unit', .ok context)) {n : Node}
    (hn : n ∈ unit'.nodes) {e : Expr} (he : e ∈ n.exprs) {o : Operand} (ho : o ∈ e.operands [])
    {span : Span} {callee : DottedName} {args : List Expr} {decl : DeclId} {sig : Signature Ty}
    {defaulted : Nat}
    (hcall : o.value = .call span callee args (some (.function decl sig)) defaulted) :
    ∃ f, .function f ∈ unit'.nodes ∧ f.decl = some decl ∧ f.sig = some sig := by
  obtain ⟨hdecided, visible, scopes, vargs, hvisible, hbound⟩ := resolve_exprs h hn he
  have htarget := hdecided o ho
  rw [hcall] at htarget
  obtain ⟨r, t, hr, ht, hfits, -⟩ := htarget
  obtain rfl := Option.some.inj ht
  cases hfits
  have hmem := Expr.name_mem_names o ho callee (by rw [hcall]; rfl)
  obtain ⟨r', hr', ⟨part, -, hpart⟩ | ⟨-, -, rfl⟩⟩ := hbound callee hmem
  · obtain rfl := Option.some.inj (hr.symm.trans hr')
    obtain ⟨f, hf, hdecl, hsig⟩ := hpart.function rfl
    refine ⟨f, hvisible _ hf, hdecl, ?_⟩
    obtain ⟨sig', hsig', heq⟩ := Option.map_eq_some_iff.mp hsig
    rw [hsig', Ty.func.inj heq]
  · cases hr.symm.trans hr'

theorem headed (h : unit.resolve = (unit', .ok context)) : ∀ n ∈ unit'.nodes, Check.Headed n := by
  intro n hn
  cases n with
  | function f =>
    obtain ⟨_, sig, -, hsig, hlength, -⟩ := resolve_slots h hn
    exact ⟨sig, hsig, hlength⟩
  | _ => trivial

/-- Checking a resolved unit checks each expression of each part. -/
theorem check_gives {checked : SourceUnit} (h : unit.resolve = (unit', .ok context))
    (hcheck : unit'.check context = pure checked) :
    List.Forall₂ (fun n n' => n'.outline = n.outline ∧
      List.Forall₂ (Check.Gives context.decls) n.exprs n'.exprs) unit'.nodes checked.nodes := by
  simp only [check, Report.bind_eq_pure, Report.pure_inj, Check.nodes_eq_pure] at hcheck
  obtain ⟨ns', hnodes, rfl⟩ := hcheck
  refine ((List.forall₂_and_left _ _).mpr ⟨headed h, hnodes⟩).imp ?_
  rintro n n' ⟨hn, hnode⟩
  refine ⟨?_, Check.gives_node hn hnode⟩
  have houtline := @Check.outline_node context.decls n
  rwa [hnode] at houtline

/-- The calls of a checked unit take their arguments. -/
theorem callable (h : unit.resolve = (unit', .ok context)) (hlast : Node.DefaultsLast unit'.nodes)
    {n : Node} (hn : n ∈ unit'.nodes) {e e' : Expr} (he : e ∈ n.exprs)
    (hgives : Check.Gives context.decls e e') :
    ∀ o ∈ e.operands [], o.value.Callable context.decls := by
  intro o ho
  obtain ⟨v', hchecked⟩ := Check.checked_expr hgives o ho
  have haccepted := Check.accepted_of_value hchecked
  cases hvalue : o.value with
  | call span callee args target defaulted =>
    rw [hvalue] at haccepted
    cases target with
    | none => trivial
    | some t =>
      intro sig hsig
      refine CallTarget.takes_of_accepts (haccepted sig hsig) (fun decl ht => ?_) hsig
      subst ht
      obtain ⟨f, hf, hdecl, hfsig⟩ := called_function h hn he ho hvalue
      obtain ⟨id, sig', hid, hsig', -, hlength, -⟩ := resolve_slots h hf
      obtain rfl : id = decl := Option.some.inj (hid.symm.trans hdecl)
      obtain rfl : sig' = sig := Option.some.inj (hsig'.symm.trans hfsig)
      exact ⟨hlength, slots_last h hlast hf hdecl⟩
  | _ => trivial

theorem callable_of_check {checked : SourceUnit} (h : unit.resolve = (unit', .ok context))
    (hlast : Node.DefaultsLast unit'.nodes) (hcheck : unit'.check context = pure checked) :
    ∀ n ∈ unit'.nodes, ∀ e ∈ n.exprs, ∀ o ∈ e.operands [], o.value.Callable context.decls := by
  intro n hn e he
  obtain ⟨n', -, -, hgives⟩ := forall₂_left (check_gives h hcheck) hn
  obtain ⟨e', -, hgives⟩ := forall₂_left hgives he
  exact callable h hlast hn he hgives

/-- Defaults are among the expressions of the parts. -/
theorem defaults_have {P : Value → Prop} (h : unit.resolve = (unit', .ok context))
    (hP : ∀ n ∈ unit'.nodes, ∀ e ∈ n.exprs, ∀ o ∈ e.operands [], P o.value) :
    context.decls.DefaultsHave P := by
  intro id e he
  obtain ⟨i, hi⟩ := List.mem_iff_getElem?.mp he
  obtain ⟨f, p, hf, -, hp, hpe⟩ := default_of_slot h hi
  refine hP _ hf e (List.mem_append_left _ ?_)
  exact List.mem_filterMap.mpr ⟨p, List.mem_of_getElem? hp, hpe⟩

/-- Checking a resolved unit completes each expression of each part. -/
theorem check_completes {checked : SourceUnit} (h : unit.resolve = (unit', .ok context))
    (hlast : Node.DefaultsLast unit'.nodes) (hcheck : unit'.check context = pure checked) :
    List.Forall₂ (fun n n' => n'.outline = n.outline ∧
      List.Forall₂ (Expr.CompletesTo context.decls []) n.exprs n'.exprs)
      unit'.nodes checked.nodes := by
  have hcallable := callable_of_check h hlast hcheck
  have htable := defaults_have h hcallable
  refine ((List.forall₂_and_left _ _).mpr ⟨fun n hn => hn, check_gives h hcheck⟩).imp ?_
  rintro n n' ⟨hn, houtline, hgives⟩
  refine ⟨houtline, ((List.forall₂_and_left _ _).mpr ⟨fun e he => he, hgives⟩).imp ?_⟩
  rintro e e' ⟨he, hgives⟩
  exact hgives.completesTo htable (hcallable n hn e he)

/-- The unit was read from a text; tables of headers may have been attached to its includes. -/
def OfText (unit : SourceUnit) : Prop :=
  ∃ file text parsed, SourceUnit.parse file text = .ok parsed ∧
    List.Forall₂ (fun n n' => n' = n ∨
      ∃ item symbols, n = .header item ∧ n' = .header { item with symbols }) parsed.nodes unit.nodes

theorem OfText.defaultsLast (h : unit.OfText) : Node.DefaultsLast unit.nodes := by
  obtain ⟨file, text, parsed, hparse, hnodes⟩ := h
  intro f hf
  obtain ⟨n, hn, rfl | ⟨item, symbols, rfl, hitem⟩⟩ := forall₂_right hnodes hf
  · exact parse_defaultsLast hparse f hn
  · cases hitem

/-- Each operand of a checked unit completes an operand of the resolved unit, with what all of these
have. -/
theorem operand_origin {a : Analyzed} {P : Value → Prop} (htext : unit.OfText)
    (h : unit.analyzeBridged = .ok a)
    (hP : ∀ resolved, unit.resolve = (resolved, .ok a.context) →
      Node.DefaultsLast resolved.nodes → resolved.check a.context = pure a.unit →
      ∀ n ∈ resolved.nodes, ∀ e ∈ n.exprs, ∀ o ∈ e.operands [], P o.value) :
    ∀ n ∈ a.unit.nodes, ∀ e ∈ n.exprs, ∀ o ∈ e.operands [],
      ∃ v, P v ∧ Value.CompletesTo a.context.decls o.inside v o.value := by
  obtain ⟨resolved, hresolve, hcheck⟩ := analyzeBridged_eq_ok.mp h
  have hlast := resolve_defaultsLast hresolve htext.defaultsLast
  have hbefore := hP resolved hresolve hlast hcheck
  have htable := defaults_have hresolve hbefore
  intro n' hn' e' he' o ho
  obtain ⟨n, hn, -, hexprs⟩ := forall₂_right (check_completes hresolve hlast hcheck) hn'
  obtain ⟨e, he, hcompletes⟩ := forall₂_right hexprs he'
  exact hcompletes.origin htable (hbefore n hn e he) o ho

end SourceUnit

/-- **Calls are complete.** Checking turns each expression of the resolved unit into its completion
(`Expr.CompletesTo`), and every call in the result has its arguments (`Operand.Complete`). -/
theorem checked_calls_are_complete {unit : SourceUnit} {a : Analyzed} (htext : unit.OfText)
    (h : unit.analyzeBridged = .ok a) : ∃ resolved, unit.resolve = (resolved, .ok a.context) ∧
      List.Forall₂ (fun n n' => n'.outline = n.outline ∧
        List.Forall₂ (Expr.CompletesTo a.context.decls []) n.exprs n'.exprs)
        resolved.nodes a.unit.nodes ∧
      ∀ n ∈ a.unit.nodes, ∀ e ∈ n.exprs, ∀ o ∈ e.operands [], o.Complete a.context.decls := by
  obtain ⟨resolved, hresolve, hcheck⟩ := SourceUnit.analyzeBridged_eq_ok.mp h
  have hlast := SourceUnit.resolve_defaultsLast hresolve htext.defaultsLast
  have hcallable := SourceUnit.callable_of_check hresolve hlast hcheck
  -- A copy is the default of a parameter, so it has been checked there.
  have htable := SourceUnit.defaults_have hresolve hcallable
  have hcompletes := SourceUnit.check_completes hresolve hlast hcheck
  refine ⟨resolved, hresolve, hcompletes, fun n' hn' e' he' => ?_⟩
  obtain ⟨n, hn, -, hexprs⟩ := forall₂_right hcompletes hn'
  obtain ⟨e, he, hcompletes⟩ := forall₂_right hexprs he'
  exact hcompletes.complete htable (hcallable n hn e he)

/-- A default that calls a function with a default of its own. -/
theorem nested_default_is_complete : ∃ unit a,
    SourceUnit.parse 0 "int x = 1 int g(int a, int b = x) { return a }
      int f(int a = g(2)) { return a } int h() { return f() }" = .ok unit ∧
    unit.analyzeBridged = .ok a ∧
    ∀ n ∈ a.unit.nodes, ∀ e ∈ n.exprs, ∀ o ∈ e.operands [], o.Complete a.context.decls := by
  have hok : ((SourceUnit.parse 0 "int x = 1 int g(int a, int b = x) { return a }
      int f(int a = g(2)) { return a } int h() { return f() }").toOption.any fun unit =>
      unit.analyzeBridged.toOption.any fun _ => true) = true := by
    rw [SourceUnit.parse_ofList]
    decide +kernel
  obtain ⟨unit, a, hparse, hanalyze, -⟩ := SourceUnit.exists_analyzed hok
  have htext : unit.OfText := by
    refine ⟨0, _, unit, hparse, ?_⟩
    exact List.forall₂_same.mpr fun n _ => .inl rfl
  obtain ⟨resolved, -, -, hcomplete⟩ := checked_calls_are_complete htext hanalyze
  exact ⟨unit, a, hparse, hanalyze, hcomplete⟩

end KilnLang
