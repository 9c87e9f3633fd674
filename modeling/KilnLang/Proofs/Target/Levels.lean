import KilnLang.Proofs.Semantic.Completion
import KilnLang.Target.Lowering

/-!
# Levels of indirection

A type has one level for each reference at its front (`Ty.levels`). An expression in C has a number
of levels as well, as one counts them by hand (`CExpr.HasLevels`): a name has the levels of its type,
a call those of its result, a cast those of its type and an element those of the elements; `*` takes
one level, `&` adds one, and `NULL` has any number but none. Operators give values without levels.
Arithmetic ones take such values only, so an expression that adds to a pointer has no number.

What the levels of names and results are is not written in C. So they are counted for an expression
together with the operand of the source that it was written for.

**Theorems (`Lowering.hasLevels_value`, `Lowering.hasLevels_pointer`).** The levels of the value and
of the pointer of an operand follow from the types in the source (`Value.valueLevels`,
`Value.pointerLevels`): a value is read through one level, if there is one, and a pointer has at
least one.
-/

namespace KilnLang

/-- The number of references at the front of a type. -/
def Ty.levels : Ty → Nat
  | .ref inner => inner.levels + 1
  | _ => 0

theorem Ty.levels_of_not_isRef {t : Ty} (h : ¬t.isRef) : t.levels = 0 := by
  cases t with
  | ref inner => exact absurd rfl h
  | _ => rfl

theorem Ty.levels_pos_of_isRef {t : Ty} (h : t.isRef) : 0 < t.levels := by
  cases t with
  | ref inner => exact Nat.succ_pos _
  | _ => cases h

/-- The type of what a call gives. -/
def CallTarget.given (target : Option CallTarget) : Ty :=
  (target.map CallTarget.result).getD Ty.any

/-- Whether an operator of the chain gives a truth value. -/
def Chain.isTruth (op : Operator) (rest : Chain) : Bool :=
  (op :: rest.operators).any (·.op.isBoolean)

/-! ## Levels in C -/

/-- The operand without the references and parentheses around it, which count no levels: those of
`&` and `*` are counted where they are written. -/
def Value.core : Value → Value
  | .ref _ inner => inner.core
  | .paren (.mk _ (.operand inner)) => inner.core
  | v => v

/-- The C expression, which was written for the operand, has a number of levels. -/
def CExpr.HasLevels : CExpr → Value → Nat → Prop
  | .literal _, v, n => if v.core.isNull then 0 < n else v.core.isLiteral ∧ n = 0
  | .name _, v, n => ∃ name, v.core = .ident name ∧ n = name.ty.levels
  | .call _ _, v, n => ∃ span callee args target defaulted,
    v.core = .call span callee args target defaulted ∧ n = (CallTarget.given target).levels
  | .cast _ _, v, n => ∃ span callee args type defaulted,
    v.core = .call span callee args (some (.cast type)) defaulted ∧ n = type.levels
  | .index c _, v, n => ∃ span base position,
    v.core = .index span base position ∧ c.HasLevels base 0 ∧ n = base.ty.element.levels
  | .deref c, v, n => c.HasLevels v (n + 1)
  | .address c, v, n => ∃ k, n = k + 1 ∧ c.HasLevels v k
  | .paren c, v, n => c.HasLevels v n
  | .prefixed _ c, v, n => ∃ span op inner,
    v.core = .prefixed span op inner ∧ (op = .not ∨ c.HasLevels inner 0) ∧ n = 0
  | .suffixed _ c, v, n => ∃ span op inner,
    v.core = .suffixed span op inner ∧ c.HasLevels inner 0 ∧ n = 0
  | .binary left _ right, v, n => ∃ span first op rest,
    v.core = .paren (.mk span (.link first op rest)) ∧
      (Chain.isTruth op rest ∨ left.HasLevels first 0 ∧ right.HasLevels (.paren (.mk span rest)) 0) ∧
      n = 0
  | .array _ _, _, _ => False

/-- The C expression, which was written for the expression, has a number of levels. -/
def Expr.HasLevels (e : Expr) (c : CExpr) (n : Nat) : Prop := c.HasLevels (.paren e) n

/-- What an expression is written for matters only up to references and parentheses. -/
theorem CExpr.hasLevels_of_core_eq {v w : Value} (h : v.core = w.core) : ∀ (c : CExpr) (n : Nat),
    c.HasLevels v n ↔ c.HasLevels w n
  | .deref c, n => hasLevels_of_core_eq h c (n + 1)
  | .address c, n => exists_congr fun k => and_congr_right fun _ => hasLevels_of_core_eq h c k
  | .paren c, n => hasLevels_of_core_eq h c n
  | .literal _, _ | .name _, _ | .call _ _, _ | .cast _ _, _ | .index _ _, _ | .prefixed _ _, _
  | .suffixed _ _, _ | .binary _ _ _, _ | .array _ _, _ => by simp only [HasLevels, h]

theorem CExpr.hasLevels_ref {c : CExpr} {span : Span} {inner : Value} {n : Nat} :
    c.HasLevels (.ref span inner) n ↔ c.HasLevels inner n :=
  hasLevels_of_core_eq (by rw [Value.core]) c n

theorem CExpr.hasLevels_paren {c : CExpr} {span : Span} {inner : Value} {n : Nat} :
    c.HasLevels (.paren (.mk span (.operand inner))) n ↔ c.HasLevels inner n :=
  hasLevels_of_core_eq (by rw [Value.core]) c n

/-! ## Levels in the source -/

/-- How many levels an expression has. -/
inductive Levels where
  /-- A number of levels. -/
  | exactly (n : Nat)
  /-- Any number but none, like `NULL`. -/
  | positive
  /-- No number: a pointer is an operand of an operator, or is taken for an array. -/
  | mixed
  deriving DecidableEq, Repr

namespace Levels

/-- The number is one of the levels. -/
def Has : Levels → Nat → Prop
  | exactly k, n => n = k
  | positive, n => 0 < n
  | mixed, _ => False

/-- The levels of what has a number of them under a condition. -/
def when (condition : Bool) (n : Nat) : Levels := if condition then exactly n else mixed

/-- Whether there are no levels. -/
def isPlain (l : Levels) : Bool := l == exactly 0

/-- Whether two have a number of levels in common. -/
def meets : Levels → Levels → Bool
  | exactly k, exactly n => k == n
  | exactly k, positive | positive, exactly k => 0 < k
  | positive, positive => true
  | mixed, _ | _, mixed => false

@[simp]
theorem has_exactly {k n : Nat} : (exactly k).Has n ↔ n = k := Iff.rfl

@[simp]
theorem has_positive {n : Nat} : positive.Has n ↔ 0 < n := Iff.rfl

@[simp]
theorem has_when {condition : Bool} {k n : Nat} :
    (when condition k).Has n ↔ condition ∧ n = k := by
  cases condition <;> simp [when, Has]

theorem isPlain_iff {l : Levels} : l.isPlain ↔ l.Has 0 := by
  cases l with
  | exactly k => simpa [isPlain] using eq_comm
  | _ => simp [isPlain, Has]

theorem meets_iff {l l' : Levels} : l.meets l' ↔ ∃ n, l.Has n ∧ l'.Has n := by
  cases l with
  | exactly k => cases l' <;> simp [meets, Has]
  | positive =>
    cases l' with
    | exactly k => simp only [meets, decide_eq_true_eq, has_positive, has_exactly, exists_eq_right]
    | positive => exact ⟨fun _ => ⟨1, Nat.one_pos, Nat.one_pos⟩, fun _ => rfl⟩
    | mixed => simp [meets, Has]
  | mixed => cases l' <;> simp [meets, Has]

end Levels

mutual

/-- The levels of the value of an operand. A name and the result of a call are read through one
level, if there is one, and a cast is not. -/
def Value.valueLevels : Value → Levels
  | .number _ | .decimal _ | .string _ | .char _ | .bool _ _ => .exactly 0
  | .null _ => .positive
  | .ident name => .exactly (name.ty.levels - 1)
  | .call _ _ _ target _ =>
    .exactly ((CallTarget.given target).levels - if CallTarget.isCast target then 0 else 1)
  | .index _ base _ => .when base.valueLevels.isPlain base.ty.element.levels
  | .ref _ inner => inner.pointerLevels
  | .prefixed _ op inner => .when (op == .not || inner.valueLevels.isPlain) 0
  | .suffixed _ _ inner => .when inner.valueLevels.isPlain 0
  | .paren inner => inner.valueLevels

/-- The levels of the pointer of an operand. What is no reference has its address taken. -/
def Value.pointerLevels : Value → Levels
  | .number _ | .decimal _ | .string _ | .char _ | .bool _ _ => .exactly 0
  | .null _ => .positive
  | .ident name => .exactly (max name.ty.levels 1)
  | .call _ _ _ target _ => .exactly (CallTarget.given target).levels
  | .index _ base _ => .when base.valueLevels.isPlain (base.ty.element.levels + 1)
  | .ref _ inner => inner.pointerLevels
  | .prefixed _ op inner => .when (op == .not || inner.valueLevels.isPlain) 0
  | .suffixed _ _ inner => .when inner.valueLevels.isPlain 0
  | .paren inner => inner.pointerLevels

/-- The levels of the value of an expression. -/
def Expr.valueLevels : Expr → Levels
  | .mk _ ops => ops.valueLevels

/-- The levels of the pointer of an expression. -/
def Expr.pointerLevels : Expr → Levels
  | .mk _ ops => ops.pointerLevels

/-- The levels of the value of operands joined by operators. -/
def Chain.valueLevels : Chain → Levels
  | .operand v => v.valueLevels
  | .link v op rest =>
    .when (Chain.isTruth op rest || v.valueLevels.isPlain && rest.valueLevels.isPlain) 0

/-- The levels of the pointer of operands joined by operators, which is their value. -/
def Chain.pointerLevels : Chain → Levels
  | .operand v => v.pointerLevels
  | .link v op rest =>
    .when (Chain.isTruth op rest || v.valueLevels.isPlain && rest.valueLevels.isPlain) 0

end

/-! ## Values and pointers -/

namespace Lowering

variable {m : DataModel}

theorem hasLevels_ident {name : DottedName} {n : Nat} :
    (ident name).HasLevels (.ident name) n ↔ n = name.ty.levels := by
  unfold ident
  split <;> simp [CExpr.HasLevels, Value.core]

/-- Reading takes one level, if there is one. -/
theorem hasLevels_readAs {v : Value} {c : CExpr} {t : Ty}
    (h : ∀ n, c.HasLevels v n ↔ n = t.levels) (n : Nat) :
    (readAs t c).HasLevels v n ↔ n = t.levels - 1 := by
  unfold readAs
  split
  · rename_i href
    have hpos := Ty.levels_pos_of_isRef href
    rw [CExpr.HasLevels, h]
    omega
  · rename_i href
    rw [h, Ty.levels_of_not_isRef href]

/-- A call has the levels of its result, and a cast those of its type. -/
theorem hasLevels_applied {span : Span} {callee : DottedName} {args : List Expr}
    {target : Option CallTarget} {defaulted : Nat} {cs : List CExpr} (n : Nat) :
    (applied m callee cs target).HasLevels (.call span callee args target defaulted) n ↔
      n = (CallTarget.given target).levels := by
  cases target with
  | none => simp [applied, CExpr.HasLevels, Value.core]
  | some t =>
    cases t with
    | cast type =>
      simp [applied, CExpr.HasLevels, Value.core, CallTarget.given, CallTarget.result]
    | _ => simp [applied, CExpr.HasLevels, Value.core]

theorem hasLevels_readCall {v : Value} {c : CExpr} {target : Option CallTarget}
    (h : ∀ n, c.HasLevels v n ↔ n = (CallTarget.given target).levels) (n : Nat) :
    (readCall target c).HasLevels v n ↔
      n = (CallTarget.given target).levels - if CallTarget.isCast target then 0 else 1 := by
  cases target with
  | none => exact h n
  | some t =>
    cases t with
    | cast type => exact h n
    | _ => exact hasLevels_readAs h n

/-- An element has the levels of the elements, if the array has none. -/
theorem hasLevels_index {span : Span} {base : Value} {position : Expr} {c c' : CExpr}
    (h : c.HasLevels base 0 ↔ base.valueLevels.Has 0) (n : Nat) :
    (CExpr.index c c').HasLevels (.index span base position) n ↔
      base.valueLevels.isPlain ∧ n = base.ty.element.levels := by
  simp [CExpr.HasLevels, Value.core, h, Levels.isPlain_iff]

theorem hasLevels_prefixed {span : Span} {op : UnaryOp} {inner : Value} {c : CExpr}
    (h : c.HasLevels inner 0 ↔ inner.valueLevels.Has 0) (n : Nat) :
    (CExpr.prefixed op c).HasLevels (.prefixed span op inner) n ↔
      (Levels.when (op == .not || inner.valueLevels.isPlain) 0).Has n := by
  simp [CExpr.HasLevels, Value.core, h, Levels.isPlain_iff]

theorem hasLevels_suffixed {span : Span} {op : UnaryOp} {inner : Value} {c : CExpr}
    (h : c.HasLevels inner 0 ↔ inner.valueLevels.Has 0) (n : Nat) :
    (CExpr.suffixed op c).HasLevels (.suffixed span op inner) n ↔
      (Levels.when inner.valueLevels.isPlain 0).Has n := by
  simp [CExpr.HasLevels, Value.core, h, Levels.isPlain_iff]

/-- Operators give no levels if they give a truth value or take operands without levels. -/
theorem hasLevels_binary {span : Span} {v : Value} {op : Operator} {rest : Chain} {c c' : CExpr}
    (hv : c.HasLevels v 0 ↔ v.valueLevels.Has 0)
    (hrest : c'.HasLevels (.paren (.mk span rest)) 0 ↔ rest.valueLevels.Has 0) (n : Nat) :
    (CExpr.binary c op.op c').HasLevels (.paren (.mk span (.link v op rest))) n ↔
      (Chain.valueLevels (.link v op rest)).Has n := by
  simp [CExpr.HasLevels, Value.core, Chain.valueLevels, hv, hrest, Levels.isPlain_iff]

mutual

/-- The levels of the value of an operand. -/
theorem hasLevels_value : ∀ (v : Value) (n : Nat),
    (value m v).HasLevels v n ↔ v.valueLevels.Has n
  | .ident name, n => by
    rw [value, Value.valueLevels]
    exact hasLevels_readAs (fun _ => hasLevels_ident) n
  | .call span callee args target defaulted, n => by
    rw [value, Value.valueLevels]
    exact hasLevels_readCall hasLevels_applied n
  | .index span base position, n => by
    rw [value, Value.valueLevels, Levels.has_when]
    exact hasLevels_index (hasLevels_value base 0) n
  | .ref span inner, n => by
    rw [value, Value.valueLevels, CExpr.hasLevels_ref]
    exact hasLevels_pointer inner n
  | .prefixed span op inner, n => by
    rw [value, Value.valueLevels]
    exact hasLevels_prefixed (hasLevels_value inner 0) n
  | .suffixed span op inner, n => by
    rw [value, Value.valueLevels]
    exact hasLevels_suffixed (hasLevels_value inner 0) n
  | .paren (.mk span ops), n => by
    rw [value, Value.valueLevels, expr, Expr.valueLevels, CExpr.HasLevels]
    exact hasLevels_chain span ops n
  | .null _, n => by simp [value, CExpr.null, CExpr.HasLevels, Value.core, Value.isNull,
      Value.valueLevels]
  | .number _, n | .decimal _, n | .string _, n | .char _, n | .bool _ _, n => by
    simp [value, CLiteral.string, CLiteral.char, CLiteral.quoted, CLiteral.bool, CExpr.HasLevels,
      Value.core, Value.isNull, Value.isLiteral, Value.valueLevels]

/-- The levels of the pointer of an operand. -/
theorem hasLevels_pointer : ∀ (v : Value) (n : Nat),
    (pointer m v).HasLevels v n ↔ v.pointerLevels.Has n
  | .ident name, n => by
    rw [pointer, Value.pointerLevels, Levels.has_exactly]
    split
    · rename_i href
      have hpos := Ty.levels_pos_of_isRef href
      -- A name that is a reference is its own pointer.
      rw [hasLevels_ident]
      omega
    · rename_i href
      simp [CExpr.HasLevels, hasLevels_ident, Ty.levels_of_not_isRef href]
  | .call span callee args target defaulted, n => by
    rw [pointer, Value.pointerLevels]
    exact hasLevels_applied n
  | .index span base position, n => by
    rw [pointer, Value.pointerLevels, Levels.has_when, CExpr.HasLevels]
    simp only [hasLevels_index (hasLevels_value base 0)]
    exact ⟨fun ⟨k, hn, hplain, hk⟩ => ⟨hplain, hk ▸ hn⟩, fun ⟨hplain, hn⟩ => ⟨_, hn, hplain, rfl⟩⟩
  | .ref span inner, n => by
    rw [pointer, Value.pointerLevels, CExpr.hasLevels_ref]
    exact hasLevels_pointer inner n
  | .prefixed span op inner, n => by
    rw [pointer, Value.pointerLevels]
    exact hasLevels_prefixed (hasLevels_value inner 0) n
  | .suffixed span op inner, n => by
    rw [pointer, Value.pointerLevels]
    exact hasLevels_suffixed (hasLevels_value inner 0) n
  | .paren (.mk span (.operand inner)), n => by
    rw [pointer, Value.pointerLevels, Expr.pointerLevels, Chain.pointerLevels,
      CExpr.hasLevels_paren]
    exact hasLevels_pointer inner n
  | .paren (.mk span (.link left op rest)), n => by
    rw [pointer, Value.pointerLevels, Expr.pointerLevels, Chain.pointerLevels, CExpr.HasLevels]
    exact hasLevels_binary (hasLevels_value left 0) (hasLevels_chain span rest 0) n
  | .null _, n => by simp [pointer, CExpr.null, CExpr.HasLevels, Value.core, Value.isNull,
      Value.pointerLevels]
  | .number _, n | .decimal _, n | .string _, n | .char _, n | .bool _ _, n => by
    simp [pointer, CLiteral.string, CLiteral.char, CLiteral.quoted, CLiteral.bool, CExpr.HasLevels,
      Value.core, Value.isNull, Value.isLiteral, Value.pointerLevels]

/-- The levels of the value of operands joined by operators. -/
theorem hasLevels_chain (span : Span) : ∀ (ops : Chain) (n : Nat),
    (chain m ops).HasLevels (.paren (.mk span ops)) n ↔ ops.valueLevels.Has n
  | .operand v, n => by
    rw [chain, Chain.valueLevels, CExpr.hasLevels_paren]
    exact hasLevels_value v n
  | .link v op rest, n => by
    rw [chain]
    exact hasLevels_binary (hasLevels_value v 0) (hasLevels_chain span rest 0) n

end

/-- The levels of the value of an expression. -/
theorem hasLevels_expr : ∀ (e : Expr) (n : Nat), e.HasLevels (expr m e) n ↔ e.valueLevels.Has n
  | .mk span ops, n => hasLevels_chain span ops n

/-- The levels of what is stored: a slot that is a reference takes a pointer. -/
theorem hasLevels_stored (type : Ty) : ∀ (e : Expr) (n : Nat),
    e.HasLevels (stored m type e) n ↔
      (if type.isRef then e.pointerLevels else e.valueLevels).Has n
  | .mk span (.operand v), n => by
    rw [stored]
    split
    · rw [Expr.pointerLevels, Chain.pointerLevels, Expr.HasLevels, CExpr.hasLevels_paren]
      exact hasLevels_pointer v n
    · exact hasLevels_expr (.mk span (.operand v)) n
  | .mk span (.link left op rest), n => by
    rw [stored]
    have hvalue := hasLevels_expr (m := m) (.mk span (.link left op rest)) n
    split <;> exact hvalue

end Lowering

end KilnLang
