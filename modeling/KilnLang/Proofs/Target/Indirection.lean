import KilnLang.Proofs.Semantic.CheckedStores
import KilnLang.Proofs.Target.Emission
import KilnLang.Proofs.Target.Levels

/-!
# References in the output

References become pointers, and every operand has two forms in C, its value and its pointer. A slot
that is a reference takes the pointer of an operand, any other slot its value. The target of an
assignment is a value, and so are what is assigned to it and the elements of further arguments.

**Theorem (`stored_levels_agree`).** What a checked unit stores has in C as many levels as where it
is stored, if and only if the levels counted in the source agree (`Store.agrees`). They agree with
two kinds of exceptions. By design `null` can be stored into a string, a function or `any`, and
`any` takes an explicit reference (`Store.isExempt`). And the two forms do not suffice for some
stores (`Store.Missed`): more than one level cannot be read at once, the value of a reference is
assigned where its pointer is meant, elements are passed as values, and operators, parentheses and
elements of arrays hide what is a pointer.

Where one level is read or stored as a whole, the value of an operand has no level
(`Value.isPlain_valueLevels`), and its pointer has one if checking lets it stand where a reference
is expected (`Value.pointerLevels_has_one`). Everything that is stored has been checked, copied
defaults included (`SourceUnit.stores_fit`). Calls pass in C what they store (`Value.passesStores`).
-/

namespace KilnLang

/-! ## Operands that decide levels -/

/-- Whether reading the operand takes more than one level, or takes one that is not read: a name or
a result of two levels, a cast to a reference, an element of an array of references. -/
def Value.isDeep : Value → Bool
  | .ident name => 2 ≤ name.ty.levels
  | .call _ _ _ target _ =>
    (if CallTarget.isCast target then 1 else 2) ≤ (CallTarget.given target).levels
  | .index _ base _ => 1 ≤ base.ty.element.levels
  | _ => false

/-- Whether the operand is `null` or an explicit reference, which are pointers as values too. -/
def Value.isPointer (v : Value) : Bool := v.isNull || v.isRef

mutual

/-- The operands that decide the levels of an operand, from the outside in. -/
def Value.deciding : Value → List Value
  | .index span base position => .index span base position :: base.deciding
  | .ref span inner => .ref span inner :: inner.deciding
  | .prefixed _ op inner => if op == .not then [] else inner.deciding
  | .suffixed _ _ inner => inner.deciding
  | .paren inner => inner.deciding
  | v => [v]

/-- The operands that decide the levels of an expression. -/
def Expr.deciding : Expr → List Value
  | .mk _ ops => ops.deciding

/-- The operands that decide the levels of operands joined by operators. A truth value has none. -/
def Chain.deciding : Chain → List Value
  | .operand v => v.deciding
  | .link v op rest => if Chain.isTruth op rest then [] else v.deciding ++ rest.deciding

end

/-- The deciding operands inside an operand: without itself, if it is a pointer. -/
def Value.parts (v : Value) : List Value := if v.isPointer then v.deciding.tail else v.deciding

/-- Whether the operand is an operator with its operands, also inside parentheses. -/
def Value.isOperation : Value → Bool
  | .prefixed _ _ _ | .suffixed _ _ _ => true
  | .paren (.mk _ (.operand v)) => v.isOperation
  | .paren (.mk _ (.link _ _ _)) => true
  | _ => false

/-- Whether the expression is an operator with its operands, also inside parentheses. -/
def Expr.isOperation : Expr → Bool
  | .mk _ (.operand v) => v.isOperation
  | .mk _ (.link _ _ _) => true

/-- Whether the expression is an operand that is `null` or an explicit reference. -/
def Expr.isPointer (e : Expr) : Bool := e.single?.any (·.isPointer)

/-- The deciding operands inside an expression. -/
def Expr.parts : Expr → List Value
  | .mk _ (.operand v) => v.parts
  | .mk _ (.link v op rest) => (Chain.link v op rest).deciding

namespace Value

theorem levels_of_not_isDeep_ident {name : DottedName} (h : ¬(ident name).isDeep) :
    name.ty.levels ≤ 1 := by
  simpa [isDeep, Nat.lt_succ_iff] using h

theorem levels_of_not_isDeep_call {span : Span} {callee : DottedName} {args : List Expr}
    {target : Option CallTarget} {defaulted : Nat}
    (h : ¬(call span callee args target defaulted).isDeep) :
    (CallTarget.given target).levels ≤ if CallTarget.isCast target then 0 else 1 := by
  rw [isDeep, decide_eq_true_eq, not_le] at h
  split_ifs at h ⊢ <;> omega

theorem levels_of_not_isDeep_index {span : Span} {base : Value} {position : Expr}
    (h : ¬(index span base position).isDeep) : base.ty.element.levels = 0 := by
  simpa [isDeep] using h

end Value

mutual

/-- An operand has no level as a value if no deciding one is deep or a pointer. -/
theorem Value.isPlain_valueLevels : ∀ {v : Value}, (∀ o ∈ v.deciding, ¬o.isDeep) →
    (∀ o ∈ v.deciding, ¬o.isPointer) → v.valueLevels.isPlain
  | .ident name, hdeep, _ => by
    have hlevels := Value.levels_of_not_isDeep_ident (hdeep _ List.mem_cons_self)
    rw [Value.valueLevels, Levels.isPlain_iff, Levels.has_exactly]
    exact (Nat.sub_eq_zero_of_le hlevels).symm
  | .call _ _ _ target _, hdeep, _ => by
    have hlevels := Value.levels_of_not_isDeep_call (hdeep _ List.mem_cons_self)
    rw [Value.valueLevels, Levels.isPlain_iff, Levels.has_exactly]
    exact (Nat.sub_eq_zero_of_le hlevels).symm
  | .index _ base _, hdeep, hpointer => by
    rw [Value.deciding, List.forall_mem_cons] at hdeep hpointer
    have helement := Value.levels_of_not_isDeep_index hdeep.1
    rw [Value.valueLevels, Levels.isPlain_iff, Levels.has_when]
    exact ⟨Value.isPlain_valueLevels hdeep.2 hpointer.2, helement.symm⟩
  | .prefixed _ op inner, hdeep, hpointer => by
    rw [Value.valueLevels, Levels.isPlain_iff, Levels.has_when, Bool.or_eq_true]
    rw [Value.deciding] at hdeep hpointer
    by_cases hnot : op == .not
    · exact ⟨.inl hnot, rfl⟩
    · rw [if_neg hnot] at hdeep hpointer
      exact ⟨.inr (Value.isPlain_valueLevels hdeep hpointer), rfl⟩
  | .suffixed _ _ inner, hdeep, hpointer => by
    rw [Value.valueLevels, Levels.isPlain_iff, Levels.has_when]
    exact ⟨Value.isPlain_valueLevels hdeep hpointer, rfl⟩
  | .paren (.mk _ ops), hdeep, hpointer => Chain.isPlain_valueLevels hdeep hpointer
  | .null _, _, hpointer | .ref _ _, _, hpointer => absurd rfl (hpointer _ List.mem_cons_self)
  | .number _, _, _ | .decimal _, _, _ | .string _, _, _ | .char _, _, _ | .bool _ _, _, _ => rfl

/-- Operands joined by operators have no level if no deciding one is deep or a pointer. -/
theorem Chain.isPlain_valueLevels : ∀ {ops : Chain}, (∀ o ∈ ops.deciding, ¬o.isDeep) →
    (∀ o ∈ ops.deciding, ¬o.isPointer) → ops.valueLevels.isPlain
  | .operand v, hdeep, hpointer => Value.isPlain_valueLevels hdeep hpointer
  | .link v op rest, hdeep, hpointer => by
    rw [Chain.valueLevels, Levels.isPlain_iff, Levels.has_when, Bool.or_eq_true, Bool.and_eq_true]
    rw [Chain.deciding] at hdeep hpointer
    by_cases htruth : Chain.isTruth op rest
    · exact ⟨.inl htruth, rfl⟩
    · rw [if_neg htruth, List.forall_mem_append] at hdeep hpointer
      exact ⟨.inr ⟨Value.isPlain_valueLevels hdeep.1 hpointer.1,
        Chain.isPlain_valueLevels hdeep.2 hpointer.2⟩, rfl⟩

end

namespace Value

theorem parts_of_not_isPointer {v : Value} (h : ¬v.isPointer) : v.parts = v.deciding := if_neg h

theorem not_isPointer_of_mem_parts {v : Value} (h : ∀ o ∈ v.deciding, ¬o.isPointer) :
    ∀ o ∈ v.parts, ¬o.isPointer := by
  intro o ho
  rw [parts] at ho
  split at ho
  · exact h o (List.mem_of_mem_tail ho)
  · exact h o ho

/-- What names storage is no operation. -/
theorem isOperation_of_isAddressable : ∀ {v : Value}, v.isAddressable → v.isOperation = false
  | .ident _, _ | .index _ _ _, _ => rfl
  | .paren (.mk _ (.operand v)), h => isOperation_of_isAddressable (v := v) h

/-- The pointer of what can stand for a reference has one level if no deciding operand is deep and
none inside is a pointer. -/
theorem pointerLevels_has_one : ∀ {v : Value}, v.isReferable → v.Has Value.Sound →
    v.isOperation = false → (∀ o ∈ v.deciding, ¬o.isDeep) → (∀ o ∈ v.parts, ¬o.isPointer) →
    v.pointerLevels.Has 1
  | .null _, _, _, _, _, _ => Nat.one_pos
  | .ident name, _, _, _, hdeep, _ => by
    have hlevels := levels_of_not_isDeep_ident (hdeep _ List.mem_cons_self)
    rw [pointerLevels, Levels.has_exactly]
    exact (Nat.max_eq_right hlevels).symm
  | .call _ _ _ target _, href, _, _, hdeep, _ => by
    have hlevels := levels_of_not_isDeep_call (hdeep _ List.mem_cons_self)
    -- A call names no storage, so it stands for a reference only if it gives one.
    have href : (CallTarget.given target).isRef := by
      simpa [CallTarget.given, isReferable, isNull, isRef, isAddressable, ty] using href
    have hpos := Ty.levels_pos_of_isRef href
    rw [pointerLevels, Levels.has_exactly]
    split_ifs at hlevels <;> omega
  | .index _ base _, _, _, _, hdeep, hparts => by
    rw [deciding, List.forall_mem_cons] at hdeep
    have helement := levels_of_not_isDeep_index hdeep.1
    have hbase : ∀ o ∈ base.deciding, ¬o.isPointer := fun o ho =>
      hparts o (List.mem_cons_of_mem _ ho)
    rw [pointerLevels, Levels.has_when, helement]
    exact ⟨isPlain_valueLevels hdeep.2 hbase, rfl⟩
  | .ref span inner, _, ⟨place, hsound⟩, _, hdeep, hparts => by
    simp only [operands, List.forall_mem_cons] at hsound
    have haddressable : inner.isAddressable := hsound.1
    rw [deciding, List.forall_mem_cons] at hdeep
    rw [pointerLevels]
    -- The operand of an explicit reference names storage, so it can be referred to itself.
    apply pointerLevels_has_one
    · simp [isReferable, haddressable]
    · exact ⟨place, hsound.2⟩
    · exact isOperation_of_isAddressable haddressable
    · exact hdeep.2
    · exact not_isPointer_of_mem_parts hparts
  | .paren (.mk span (.operand v)), href, ⟨place, hsound⟩, hop, hdeep, hparts => by
    simp only [operands, Expr.operands, Chain.operands, List.forall_mem_cons] at hsound
    have href : v.isReferable := by
      simp only [isReferable, isNull, isRef, isAddressable, ty, Expr.ty, Chain.ty,
        Bool.or_eq_true] at href ⊢
      tauto
    rw [pointerLevels, Expr.pointerLevels, Chain.pointerLevels]
    exact pointerLevels_has_one href ⟨place, hsound.2⟩ hop hdeep (not_isPointer_of_mem_parts hparts)
  | .paren (.mk _ (.link _ _ _)), _, _, hop, _, _ => nomatch hop
  | .prefixed _ _ _, _, _, hop, _, _ | .suffixed _ _ _, _, _, hop, _, _ => nomatch hop
  | .number _, href, _, _, _, _ | .decimal _, href, _, _, _, _ | .string _, href, _, _, _, _
  | .char _, href, _, _, _, _ | .bool _ _, href, _, _, _, _ => nomatch href

end Value

/-- An expression has no level as a value if it is no pointer, no deciding operand is deep and none
inside is a pointer. -/
theorem Expr.isPlain_valueLevels {e : Expr} (hpointer : ¬e.isPointer)
    (hdeep : ∀ o ∈ e.deciding, ¬o.isDeep) (hparts : ∀ o ∈ e.parts, ¬o.isPointer) :
    e.valueLevels.isPlain := by
  rcases e with ⟨span, v | ⟨v, op, rest⟩⟩
  · rw [parts, Value.parts_of_not_isPointer hpointer] at hparts
    exact Value.isPlain_valueLevels hdeep hparts
  · exact Chain.isPlain_valueLevels hdeep hparts

/-- `null` and an explicit reference are the same as values and as pointers. -/
theorem Expr.valueLevels_of_isPointer {e : Expr} (h : e.isPointer) :
    e.valueLevels = e.pointerLevels := by
  rcases e with ⟨span, v | ⟨v, op, rest⟩⟩
  · cases v with
    | null _ => rfl
    | ref _ inner =>
      simp only [valueLevels, pointerLevels, Chain.valueLevels, Chain.pointerLevels,
        Value.valueLevels, Value.pointerLevels]
    | _ => cases h
  · cases h

theorem Expr.isOperation_of_isPointer {e : Expr} (h : e.isPointer) : e.isOperation = false := by
  rcases e with ⟨span, v | ⟨v, op, rest⟩⟩
  · cases v with
    | null _ => rfl
    | ref _ _ => rfl
    | _ => cases h
  · cases h

/-! ## Stores in C -/

namespace Store

/-- What is written to C for the value that is stored. -/
def written (m : DataModel) : Store → CExpr
  | .slot type e => Lowering.stored m type e
  | .target _ e => Lowering.expr m e
  | .element _ e => Lowering.expr m e

/-- Where the value is stored has a number of levels in C. -/
def SlotHasLevels (m : DataModel) : Store → Nat → Prop
  | .slot type _, n => n = type.levels
  | .target v _, n => (Lowering.value m v).HasLevels v n
  | .element type _, n => n = type.levels

/-- The value has in C as many levels as where it is stored. -/
def Consistent (m : DataModel) (s : Store) : Prop :=
  ∃ n, s.SlotHasLevels m n ∧ s.expr.HasLevels (s.written m) n

/-- The levels of where the value is stored, counted in the source. -/
def slotLevels : Store → Levels
  | .slot type _ => .exactly type.levels
  | .target v _ => v.valueLevels
  | .element type _ => .exactly type.levels

/-- The levels of the value, counted in the source. -/
def exprLevels : Store → Levels
  | .slot type e => if type.isRef then e.pointerLevels else e.valueLevels
  | .target _ e => e.valueLevels
  | .element _ e => e.valueLevels

/-- Whether the levels counted in the source agree. -/
def agrees (s : Store) : Bool := s.slotLevels.meets s.exprLevels

/-- Whether the store puts a pointer into a slot without levels that takes one: `null` into a
string, a function or `any`, and an explicit reference into `any`. -/
def isExempt (s : Store) : Bool :=
  s.expr.single?.any fun v =>
    v.isNull && (s.type.isAny || s.type.acceptsNull) || v.isRef && s.type.isAny

/-- The operands that decide the levels of a target. -/
def targetDeciding : Store → List Value
  | .target v _ => v.deciding
  | .slot _ _ | .element _ _ => []

/-- The store is of a kind for which value and pointer of an operand do not suffice. -/
inductive Missed : Store → Prop
  /-- Where the value is stored has two levels. -/
  | levels {s : Store} (two : 2 ≤ s.type.levels) : Missed s
  /-- Two levels, or one that is not read, on one of the two sides. -/
  | deep {s : Store} {o : Value} (decides : o ∈ s.targetDeciding ++ s.expr.deciding)
      (deep : o.isDeep) : Missed s
  /-- `null` or an explicit reference inside a target, in parentheses or under an operator. -/
  | buried {s : Store} {o : Value} (inside : o ∈ s.targetDeciding ++ s.expr.parts)
      (pointer : o.isPointer) : Missed s
  /-- An operator gives a value, where a reference is expected. -/
  | operation {type : Ty} {e : Expr} (ref : type.isRef) (operation : e.isOperation) :
      Missed (.slot type e)
  /-- The value of the reference is the target, where its pointer is meant. -/
  | assigned {v : Value} {e : Expr} (ref : v.ty.isRef) (pointer : e.isPointer) :
      Missed (.target v e)
  /-- The element is passed as a value, where its pointer is meant. -/
  | element {type : Ty} {e : Expr} (ref : type.isRef) (value : ¬e.isPointer) :
      Missed (.element type e)

variable {m : DataModel}

/-- A store is consistent if and only if the levels counted in the source agree. -/
theorem consistent_iff_agrees {s : Store} : s.Consistent m ↔ s.agrees := by
  rw [agrees, Levels.meets_iff]
  refine exists_congr fun n => and_congr ?_ ?_
  · cases s with
    | target v e => exact Lowering.hasLevels_value v n
    | _ => exact Iff.rfl
  · cases s with
    | slot type e => exact Lowering.hasLevels_stored type e n
    | target v e => exact Lowering.hasLevels_expr e n
    | element type e => exact Lowering.hasLevels_expr e n

/-- A slot without levels takes a pointer only if the store is exempt. -/
theorem isExempt_of_fits {s : Store} (h : s.Fits) (href : ¬s.type.isRef)
    (hpointer : s.expr.isPointer) : s.isExempt := by
  obtain ⟨v, hv, hpointer⟩ := (Option.any_eq_true _ _).mp hpointer
  have hstore := storeValue_of_fits h hv
  rw [Ty.storeValue, if_neg href] at hstore
  rw [isExempt, hv, Option.any_some]
  cases v with
  | null span =>
    have hstrip : s.type.stripRefs = s.type := by
      cases htype : s.type with
      | ref inner => exact absurd (htype ▸ rfl) href
      | _ => rfl
    simp only [Value.isRef, Bool.false_and, Bool.false_eq_true, if_false, Value.isLiteral, if_true,
      Ty.storeLiteral, Report.errorIf_eq_pure, hstrip, Bool.not_eq_false', Ty.acceptsLiteral]
      at hstore
    simp [Value.isNull, hstore]
  | ref span inner =>
    by_contra hany
    simp only [Value.isNull, Value.isRef, Bool.false_and, Bool.true_and, Bool.false_or,
      Bool.not_eq_true] at hany
    simp [Value.isRef, hany, Report.error_ne_pure] at hstore
  | _ => cases hpointer

/-- The pointer of what fits a reference has one level, if no operand is in its way. -/
theorem pointerLevels_has_one {s : Store} (h : s.Fits) (hsound : s.expr.Has Value.Sound)
    (href : s.type.isRef) (hop : s.expr.isOperation = false)
    (hdeep : ∀ o ∈ s.expr.deciding, ¬o.isDeep) (hparts : ∀ o ∈ s.expr.parts, ¬o.isPointer) :
    s.expr.pointerLevels.Has 1 := by
  have hreferable := fun v => isReferable_of_fits (v := v) h href
  generalize s.expr = e at *
  rcases e with ⟨span, v | ⟨v, op, rest⟩⟩
  · obtain ⟨place, hsound⟩ := hsound
    exact Value.pointerLevels_has_one (hreferable v rfl) ⟨place, hsound⟩ hop hdeep hparts
  · cases hop

/-- What fits agrees in its levels, or is exempt, if the two forms of operands suffice for it. -/
theorem agrees_of_not_missed {s : Store} (h : s.Fits) (hsound : s.expr.Has Value.Sound)
    (hmissed : ¬s.Missed) : s.agrees ∨ s.isExempt := by
  have hdeep : ∀ o ∈ s.targetDeciding ++ s.expr.deciding, ¬o.isDeep := fun o ho hd =>
    hmissed (.deep ho hd)
  have hparts : ∀ o ∈ s.targetDeciding ++ s.expr.parts, ¬o.isPointer := fun o ho hp =>
    hmissed (.buried ho hp)
  have hlevels : s.type.levels ≤ 1 := by
    by_contra hle
    exact hmissed (.levels (Nat.lt_of_not_le hle))
  rw [List.forall_mem_append] at hdeep hparts
  rw [agrees, Levels.meets_iff]
  -- Into a slot without levels goes a value without levels, or a pointer that it admits.
  have hplain : s.exprLevels = s.expr.valueLevels → s.slotLevels.Has 0 →
      (s.expr.isPointer → ¬s.type.isRef) →
      (∃ n, s.slotLevels.Has n ∧ s.exprLevels.Has n) ∨ s.isExempt := by
    intro hvalue hslot href
    by_cases hpointer : s.expr.isPointer
    · exact .inr (isExempt_of_fits h (href hpointer) hpointer)
    · have hexpr := Expr.isPlain_valueLevels hpointer hdeep.2 hparts.2
      exact .inl ⟨0, hslot, hvalue ▸ Levels.isPlain_iff.mp hexpr⟩
  cases s with
  | slot type e =>
    by_cases href : type.isRef
    · have hone : type.levels = 1 := Nat.le_antisymm hlevels (Ty.levels_pos_of_isRef href)
      have hop : e.isOperation = false := by
        by_contra hop
        exact hmissed (.operation href (by simpa using hop))
      refine .inl ⟨1, hone.symm, ?_⟩
      rw [exprLevels, if_pos href]
      exact pointerLevels_has_one h hsound href hop hdeep.2 hparts.2
    · exact hplain (if_neg href) (Ty.levels_of_not_isRef href).symm fun _ => href
  | target v e =>
    have hslot := Levels.isPlain_iff.mp (Value.isPlain_valueLevels hdeep.1 hparts.1)
    exact hplain rfl hslot fun hpointer href => hmissed (.assigned href hpointer)
  | element type e =>
    by_cases href : type.isRef
    · have hone : type.levels = 1 := Nat.le_antisymm hlevels (Ty.levels_pos_of_isRef href)
      by_cases hpointer : e.isPointer
      · refine .inl ⟨1, hone.symm, ?_⟩
        rw [exprLevels, Expr.valueLevels_of_isPointer hpointer]
        exact pointerLevels_has_one h hsound href (Expr.isOperation_of_isPointer hpointer) hdeep.2
          hparts.2
      · exact absurd (.element href hpointer) hmissed
    · exact hplain rfl (Ty.levels_of_not_isRef href).symm fun _ => href

end Store

/-! ## What is stored in C -/

namespace CStmt

mutual

/-- The expressions that a statement stores: initial, assigned and returned values. -/
def stored : CStmt → List CExpr
  | .expr _ => []
  | .decl var => var.init.toList
  | .assign _ none e => [e]
  | .assign _ (some _) _ => []
  | .ret e => e.toList
  | .guarded _ body => storedEach body
  | .block body => storedEach body

/-- The expressions that statements store. -/
def storedEach : List CStmt → List CExpr
  | [] => []
  | s :: ss => s.stored ++ storedEach ss

end

theorem storedEach_append (ss ts : List CStmt) :
    storedEach (ss ++ ts) = storedEach ss ++ storedEach ts := by
  induction ss with
  | nil => rfl
  | cons s ss ih => rw [List.cons_append, storedEach, storedEach, ih, List.append_assoc]

end CStmt

/-- The expressions that the variables and the bodies of a unit store. -/
def CUnit.stored (u : CUnit) : List CExpr :=
  u.globals.flatMap (·.init.toList) ++ u.definitions.flatMap fun d => CStmt.storedEach d.2

/-- The globals of a unit. -/
def Lowering.globals (ns : List Node) : List VarDecl :=
  ns.filterMap fun
    | .global g => some g
    | _ => none

/-- What the globals and the statements of a unit store. -/
def SourceUnit.stores (unit : SourceUnit) (decls : DeclTable) : List Store :=
  (Lowering.globals unit.nodes).flatMap (·.stores decls) ++
    (Lowering.functions unit.nodes).flatMap (·.stores decls)

namespace Lowering

variable {m : DataModel} {decls : DeclTable} {returned : Ty}

theorem stored_varDecl (var : VarDecl) :
    (varDecl m decls var).init.toList = (var.stores decls).map (Store.written m) := by
  cases hinit : var.init <;> simp [varDecl, VarDecl.stores, hinit, Store.written]

mutual

theorem stored_stmt : ∀ s : Stmt, CStmt.storedEach (stmt m decls returned s) =
    (s.stores decls returned).map (Store.written m)
  | .expr e => rfl
  | .decl var => by
    simp only [stmt, CStmt.storedEach, CStmt.stored, List.append_nil, Stmt.stores]
    exact stored_varDecl var
  | .assign _ _ none _ => rfl
  | .assign _ _ (some _) _ => rfl
  | .ret _ none => rfl
  | .ret _ (some _) => rfl
  | .cond list => by
    rw [stmt, Stmt.stores]
    exact stored_branches list
  | .loop _ _ body | .block _ body => by
    simp only [stmt, CStmt.storedEach, CStmt.stored, List.append_nil, Stmt.stores]
    exact stored_stmts body

theorem stored_stmts : ∀ ss : List Stmt, CStmt.storedEach (stmts m decls returned ss) =
    (Stmt.storesEach decls returned ss).map (Store.written m)
  | [] => rfl
  | s :: ss => by
    rw [stmts, CStmt.storedEach_append, Stmt.storesEach, List.map_append, stored_stmt s,
      stored_stmts ss]

theorem stored_branches : ∀ bs : List Branch, CStmt.storedEach (branches m decls returned bs) =
    (Branch.storesEach decls returned bs).map (Store.written m)
  | [] => rfl
  | .mk _ _ body :: bs => by
    rw [branches, branch, CStmt.storedEach, CStmt.stored, Branch.storesEach, Branch.stores,
      List.map_append, stored_stmts body, stored_branches bs]

end

/-- The output stores what the unit stores, in the same order. -/
theorem stored_toC (unit : SourceUnit) :
    (unit.toC m decls).stored = (unit.stores decls).map (Store.written m) := by
  have hglobals : (unit.toC m decls).globals = (globals unit.nodes).map (varDecl m decls) := by
    rw [globals, List.map_filterMap]
    refine congrArg (List.filterMap · unit.nodes) (funext fun n => ?_)
    cases n <;> rfl
  have hdefinitions : ∀ fs : List Function,
      ((fs.filterMap (definition? m decls)).flatMap fun d => CStmt.storedEach d.2) =
        fs.flatMap fun f => (f.stores decls).map (Store.written m) := by
    intro fs
    induction fs with
    | nil => rfl
    | cons f fs ih =>
      rw [List.flatMap_cons, ← ih, Function.stores, ← stored_stmts]
      cases hbody : f.body <;> simp [definition?, hbody, stmts, CStmt.storedEach]
  rw [CUnit.stored, hglobals, SourceUnit.stores, List.map_append, List.map_flatMap,
    List.map_flatMap, ← hdefinitions, List.flatMap_map]
  simp only [stored_varDecl]
  rfl

theorem take_storedEach (rest : Rest Ty) (params : List Ty) (args : List Expr) :
    (storedEach m params args).take params.length =
      ((rest.stores params args).take params.length).map (Store.written m) := by
  induction params generalizing args with
  | nil => simp
  | cons param params ih =>
    cases args with
    | nil => simp [storedEach, Rest.stores]
    | cons arg args => simp [storedEach, Rest.stores, Store.written, ih]

theorem storedEach_typed (elem : Ty) (params : List Ty) (args : List Expr) :
    storedEach m params args = ((Rest.typed elem).stores params args).map (Store.written m) := by
  fun_induction Rest.stores (.typed elem) params args with
  | case1 params => simp [storedEach]
  | case2 param params arg args ih => simp [storedEach, Store.written, ih]
  | case3 arg args ih => simp [storedEach, Rest.elem?, Store.written, ih]

end Lowering

/-- The C call of an operand passes what the operand stores: the arguments of parameters, and
further ones as elements if they are of one type. -/
def Value.PassesStores (m : DataModel) : Value → Prop
  | .call span callee args (some t) defaulted => ∀ sig, t.signature? = some sig →
    ∃ c fixed further, Lowering.pointer m (.call span callee args (some t) defaulted) =
        .call c (fixed ++ Lowering.restArgs m sig.rest further) ∧
      fixed = ((sig.rest.stores sig.params args).take sig.params.length).map (Store.written m) ∧
      ∀ elem, sig.rest = .typed elem →
        fixed ++ further = (sig.rest.stores sig.params args).map (Store.written m)
  | _ => True

theorem Value.passesStores (m : DataModel) (v : Value) : v.PassesStores m := by
  unfold Value.PassesStores
  split
  · rename_i span callee args t defaulted
    intro sig hsig
    have hparams : Lowering.paramTypes (some t) = sig.params := by
      simp [Lowering.paramTypes, hsig]
    refine ⟨Lowering.readAs callee.ty (Lowering.ident callee),
      (Lowering.storedEach m sig.params args).take sig.params.length,
      (Lowering.storedEach m sig.params args).drop sig.params.length, ?_,
      Lowering.take_storedEach sig.rest sig.params args, fun elem helem => ?_⟩
    · rw [Lowering.pointer, hparams]
      cases t with
      | macroCall _ _ _ => cases hsig
      | cast _ => cases hsig
      | _ =>
        cases hsig
        rfl
    · rw [List.take_append_drop, helem, Lowering.storedEach_typed elem]
  · trivial

/-- **Levels agree.** The output stores what the unit stores, and its calls pass what they store.
A store is consistent if and only if the levels counted in the source agree, and they agree unless
the store is exempt or missed. -/
theorem stored_levels_agree {unit : SourceUnit} {a : Analyzed} (htext : unit.OfText)
    (h : unit.analyzeBridged = .ok a) (m : DataModel) :
    (a.unit.toC m a.context.decls).stored =
      (a.unit.stores a.context.decls).map (Store.written m) ∧
    (∀ n ∈ a.unit.nodes, ∀ e ∈ n.exprs, ∀ o ∈ e.operands [], o.value.PassesStores m) ∧
    ∀ n ∈ a.unit.nodes, ∀ s ∈ n.stores a.context.decls,
      (s.Consistent m ↔ s.agrees) ∧ (s.Consistent m ∨ s.isExempt ∨ s.Missed) := by
  refine ⟨Lowering.stored_toC a.unit, fun _ _ _ _ o _ => o.value.passesStores m,
    fun n hn s hs => ⟨Store.consistent_iff_agrees, ?_⟩⟩
  obtain ⟨hfits, hsound⟩ := SourceUnit.stores_fit htext h n hn s hs
  by_cases hmissed : s.Missed
  · exact .inr (.inr hmissed)
  · have hagree := Store.agrees_of_not_missed hfits hsound hmissed
    rw [Store.consistent_iff_agrees]
    exact hagree.imp_right .inl

/-- References that are read, written through, passed on and left out, and references to references
that are passed on. -/
theorem passed_references_agree : ∃ unit a,
    SourceUnit.parse 0 "void set(ref int p, int v = 1) { p = v }
      ref int pick(ref int p, int...) { set(p) return p }
      int main() { int x = 2 ref int r = x set(r, r) set(pick(x, r, 3)) ref int q = null
        ref ref int s = null ref ref int t = s s = t return pick(r) }" = .ok unit ∧
    unit.analyzeBridged = .ok a ∧
    ∀ n ∈ a.unit.nodes, ∀ s ∈ n.stores a.context.decls, s.Consistent .lp64 := by
  have hok : ((SourceUnit.parse 0 "void set(ref int p, int v = 1) { p = v }
      ref int pick(ref int p, int...) { set(p) return p }
      int main() { int x = 2 ref int r = x set(r, r) set(pick(x, r, 3)) ref int q = null
        ref ref int s = null ref ref int t = s s = t return pick(r) }").toOption.any fun unit =>
      unit.analyzeBridged.toOption.any fun a => a.unit.nodes.all fun n =>
        (n.stores a.context.decls).all Store.agrees) = true := by
    rw [SourceUnit.parse_ofList]
    decide +kernel
  obtain ⟨unit, a, hparse, hanalyze, hall⟩ := SourceUnit.exists_analyzed hok
  have htext : unit.OfText := ⟨0, _, unit, hparse, List.forall₂_same.mpr fun n _ => .inl rfl⟩
  refine ⟨unit, a, hparse, hanalyze, fun n hn s hs => ?_⟩
  have hagree := List.all_eq_true.mp (List.all_eq_true.mp hall n hn) s hs
  exact ((stored_levels_agree htext hanalyze .lp64).2.2 n hn s hs).1.mpr hagree

/-- `any` takes an explicit reference: the value has a level that the slot has not. -/
theorem reference_in_any_disagrees : ∃ unit a,
    SourceUnit.parse 0 "void main() { int x = 1 any a = ref x }" = .ok unit ∧
    unit.analyzeBridged = .ok a ∧
    ∃ n ∈ a.unit.nodes, ∃ s ∈ n.stores a.context.decls, ¬ s.Consistent .lp64 := by
  have hok : ((SourceUnit.parse 0 "void main() { int x = 1 any a = ref x }").toOption.any fun unit =>
      unit.analyzeBridged.toOption.any fun a => a.unit.nodes.any fun n =>
        (n.stores a.context.decls).any fun s => !s.agrees) = true := by
    rw [SourceUnit.parse_ofList]
    decide +kernel
  obtain ⟨unit, a, hparse, hanalyze, hany⟩ := SourceUnit.exists_analyzed hok
  obtain ⟨n, hn, hany⟩ := List.any_eq_true.mp hany
  obtain ⟨s, hs, hdisagree⟩ := List.any_eq_true.mp hany
  refine ⟨unit, a, hparse, hanalyze, n, hn, s, hs, ?_⟩
  rw [Store.consistent_iff_agrees]
  simpa using hdisagree

end KilnLang
