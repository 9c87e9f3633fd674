import KilnLang.Proofs.Semantic.Spanless
import KilnLang.Semantic.Check

/-!
# Operands in parentheses

What is stored is checked by its shape: there are rules of their own for literals, for `null` and for
explicit references. In parentheses an operand has none of these shapes, so it is checked by its type,
as a variable is. Parentheses are looked through where the type is found and where storage is asked
for, but not where the shape is.

**Theorem (`Ty.codes_storeValue_paren`).** Parentheses around a stored operand change what is reported
exactly if the slot minds them (`Ty.mindsParens`), which it does only if the operand is one of these:

- `null`, where it is not only accepted because anything is. A reference takes `null` but not
  `(null)`, and a number takes `(null)` but not `null`;
- an explicit reference, where no reference is expected but the type behind it fits;
- a floating literal or a character, where any other number fits.

What is reported is compared by the codes of the errors (`Report.codes`). Messages name the operand
or its type, so they may change.
-/

namespace KilnLang

/-! ## Codes -/

namespace Report

variable {α β : Type}

/-- The codes of the errors, which tell the rules that are broken. -/
def codes (r : Report α) : List String := r.errors.map (·.code)

@[simp] theorem codes_pure (a : α) : (pure a : Report α).codes = [] := rfl

@[simp] theorem codes_error (e : SemanticError) : (error e).codes = [e.code] := rfl

@[simp] theorem codes_errorIf (wrong : Bool) (e : SemanticError) :
    (errorIf wrong e).codes = if wrong then [e.code] else [] := by
  cases wrong <;> rfl

@[simp] theorem codes_bind (r : Report α) (f : α → Report β) :
    (r >>= f).codes = r.codes ++ (f r.value).codes := List.map_append

theorem codes_eq_nil {r : Report α} : r.codes = [] ↔ r.errors = [] := List.map_eq_nil_iff

theorem codes_unspanned (r : Report α) : r.unspanned.codes = r.codes := by
  simp only [codes, unspanned, List.map_map, Function.comp_def, SemanticError.code_unspanned]

end Report

/-! ## Where parentheses matter -/

namespace Ty

/-- Whether checking an operand for a slot of the type depends on parentheses around it. In
parentheses `null` is `any`, a reference is what it refers to, and each literal is a number or a
string like any other. -/
def mindsParens (t : Ty) : Value → Bool
  | .null _ => !t.isAny && !t.acceptsNull
  | .ref _ inner => !t.isRef && !t.isAny && !(checkStore inner.ty t matches .error .type)
  | .decimal _ => t.isNumeric && !t.isFloating
  | .char _ => t.isNumeric && !t.isInteger
  | _ => false

variable {t : Ty}

theorem stripRefs_of_not_isRef (h : t.isRef = false) : t.stripRefs = t := by
  cases t with
  | ref inner => cases h
  | _ => rfl

/-- The code of what is reported of a value that does not fit. -/
def misfitCodes : Except Incompatibility Unit → List String
  | .ok () => []
  | .error (.signature _) => ["E0303"]
  | .error .type => ["E0305"]

@[simp] theorem codes_reportMisfit (expected found : Ty) (span : Span)
    (r : Except Incompatibility Unit) :
    (expected.reportMisfit found span r).codes = misfitCodes r := by
  rcases r with (position | _) | _ <;> rfl

@[simp] theorem codes_storeType (expected found : Ty) (span : Span) :
    (expected.storeType found span).codes = misfitCodes (checkStore found expected) :=
  codes_reportMisfit expected found span _

theorem checkStore_any (t : Ty) : checkStore any t = .ok () := by
  rw [checkStore, if_pos (by simp [any, stripRefs, isAny])]

theorem checkStore_prim {p : Primitive} (hp : (prim p).isAny = false) (ht : t.isRef = false) :
    checkStore (.prim p) t =
      if t.isAny || converts (.prim p) t then .ok () else .error .type := by
  simp only [checkStore, stripRefs_of_not_isRef ht, stripRefs, hp, Bool.or_false]
  cases t.isAny <;> rfl

/-- A number converts into any number, and into nothing else. -/
theorem converts_number {p : Primitive} (hp : (prim p).isNumeric) :
    converts (.prim p) t = t.isNumeric := by
  have hstr : p ≠ .str := fun h => by
    subst h
    cases hp
  cases t with
  | prim q =>
    cases hq : (prim q).isNumeric with
    | true => simp [converts, hp, hq]
    | false =>
      have hne : p ≠ q := fun h => by simp [h, hq] at hp
      simp [converts, hq, same, hne]
  | _ => simp [converts, same, isNumeric, isInteger, isFloating, hstr]

/-- A string converts into what a string literal can initialise. -/
theorem converts_string : converts (.prim .str) t = t.acceptsString := by
  cases t with
  | prim q => cases q <;> simp [converts, same, isNumeric, isInteger, isFloating, acceptsString]
  | array elem n =>
    cases elem with
    | prim q => cases q <;> simp [converts, same, acceptsString]
    | _ => simp [converts, same, acceptsString]
  | _ => simp [converts, same, isNumeric, isInteger, isFloating, acceptsString]

/-- An operand in parentheses is checked by its type, as if it was no literal and no reference. -/
theorem storeValue_paren (ht : t.isRef = false) (span : Span) (v : Value) :
    t.storeValue (.paren (.mk span (.operand v))) = t.storeType v.ty span := by
  rw [storeValue, if_neg (by simp [ht])]
  show t.storeType (Value.paren (.mk span (.operand v))).ty span = _
  rw [Value.ty, Expr.ty, Chain.ty]

theorem codes_storeLiteral (ht : t.isRef = false) (literal : Value) :
    (t.storeLiteral literal).codes = if t.acceptsLiteral literal then [] else ["E0305"] := by
  rw [storeLiteral, stripRefs_of_not_isRef ht, Report.codes_errorIf]
  cases t.acceptsLiteral literal <;> rfl

theorem codes_storeType_prim {p : Primitive} (hp : (prim p).isAny = false) (ht : t.isRef = false)
    (span : Span) : (t.storeType (.prim p) span).codes =
      if t.isAny || converts (.prim p) t then [] else ["E0305"] := by
  rw [codes_storeType, checkStore_prim hp ht]
  cases t.isAny || converts (.prim p) t <;> rfl

/-- A literal that is no `null` is checked in parentheses as the number or the string that it is. -/
theorem codes_storeLiteral_iff {p : Primitive} (hp : (prim p).isAny = false)
    (ht : t.isRef = false) {v : Value} (hty : v.ty = .prim p) (span : Span) :
    (t.storeLiteral v).codes = (t.storeType v.ty span).codes ↔
      t.acceptsLiteral v = (t.isAny || converts (.prim p) t) := by
  rw [codes_storeLiteral ht, hty, codes_storeType_prim hp ht]
  cases t.acceptsLiteral v <;> cases t.isAny || converts (.prim p) t <;> decide

theorem isReferable_paren {span : Span} {v : Value} (hnull : v.isNull = false) :
    (Value.paren (.mk span (.operand v))).isReferable = v.isReferable := by
  show (v.isAddressable || (Value.paren (.mk span (.operand v))).ty.isRef) =
    (v.isNull || v.isRef || v.isAddressable || v.ty.isRef)
  rw [Value.ty, Expr.ty, Chain.ty, hnull]
  cases v with
  | ref place inner => simp [Value.isRef, Value.ty, Ty.isRef]
  | _ => rfl

/-- A slot that is a reference minds parentheses around `null` only. -/
theorem codes_storeRef_paren {span : Span} {v : Value} (hnull : v.isNull = false) :
    (t.storeRef (.paren (.mk span (.operand v)))).codes = (t.storeRef v).codes := by
  rw [storeRef, storeRef, isReferable_paren hnull, hnull]
  cases v.isReferable with
  | false => rfl
  | true =>
    show (t.reportMisfit _ span _).codes = (t.reportMisfit v.ty v.span _).codes
    rw [codes_reportMisfit, codes_reportMisfit, Value.ty, Expr.ty, Chain.ty]

theorem mindsParens_of_isRef (ht : t.isRef) {v : Value} (hnull : v.isNull = false) :
    t.mindsParens v = false := by
  cases t with
  | ref inner =>
    cases v with
    | null span => cases hnull
    | _ => rfl
  | _ => cases ht

theorem isNumeric_of_isFloating (h : t.isFloating) : t.isNumeric := by
  cases t with
  | prim q => cases q <;> first | rfl | cases h
  | _ => cases h

theorem isNumeric_of_isInteger (h : t.isInteger) : t.isNumeric := by
  cases t with
  | prim q => cases q <;> first | rfl | cases h
  | _ => cases h

/-- Of the numbers that any number converts into, `p` picks those that a literal initialises. -/
theorem isAny_or_eq_iff {p : Ty → Bool} (hp : p t → t.isNumeric) :
    (t.isAny || p t) = (t.isAny || t.isNumeric) ↔ (t.isNumeric && !p t) = false := by
  have hany : t.isAny → t.isNumeric = false := by
    cases t with
    | prim q => cases q <;> simp [isAny, isNumeric, isInteger, isFloating]
    | _ => nofun
  revert hp hany
  cases t.isAny <;> cases p t <;> cases t.isNumeric <;> decide

/-- Literals in parentheses, in slots that are no references. -/
theorem codes_storeLiteral_paren (ht : t.isRef = false) {v : Value} (hv : v.isLiteral)
    (span : Span) : (t.storeLiteral v).codes = (t.storeType v.ty span).codes ↔
      t.mindsParens v = false := by
  cases v with
  | number lit =>
    refine (codes_storeLiteral_iff rfl ht rfl span).trans (iff_of_true ?_ rfl)
    rw [converts_number rfl]
    rfl
  | bool place b =>
    refine (codes_storeLiteral_iff rfl ht rfl span).trans (iff_of_true ?_ rfl)
    rw [converts_number rfl]
    rfl
  | string lit =>
    refine (codes_storeLiteral_iff rfl ht rfl span).trans (iff_of_true ?_ rfl)
    rw [converts_string]
    rfl
  | decimal lit =>
    refine (codes_storeLiteral_iff rfl ht rfl span).trans ?_
    rw [converts_number rfl]
    show (t.isAny || t.isFloating) = _ ↔ (t.isNumeric && !t.isFloating) = false
    exact isAny_or_eq_iff isNumeric_of_isFloating
  | char lit =>
    refine (codes_storeLiteral_iff rfl ht rfl span).trans ?_
    rw [converts_number rfl]
    show (t.isAny || t.isInteger) = _ ↔ (t.isNumeric && !t.isInteger) = false
    exact isAny_or_eq_iff isNumeric_of_isInteger
  | null place =>
    rw [codes_storeLiteral ht, Value.ty, codes_storeType, checkStore_any]
    show (if t.isAny || t.acceptsNull then [] else ["E0305"]) = [] ↔
      (!t.isAny && !t.acceptsNull) = false
    cases t.isAny <;> cases t.acceptsNull <;> decide
  | _ => cases hv

/-- Explicit references in parentheses, in slots that are no references. -/
theorem codes_storeValue_ref_paren (ht : t.isRef = false) (place span : Span) (inner : Value) :
    (t.storeValue (.ref place inner)).codes = (t.storeType (.ref inner.ty) span).codes ↔
      t.mindsParens (.ref place inner) = false := by
  rw [storeValue, if_neg (by simp [ht]), codes_storeType]
  show (if !t.isAny then Report.error _ else t.storeType _ _).codes =
    misfitCodes (checkStore inner.ty t) ↔
      (!t.isRef && !t.isAny && !(checkStore inner.ty t matches .error .type)) = false
  rw [Value.ty, ht]
  cases t.isAny with
  | true => exact iff_of_true (codes_storeType t (.ref inner.ty) place) rfl
  | false =>
    rcases checkStore inner.ty t with (_ | position) | _ <;>
      simp [SemanticError.code, misfitCodes]

/-- **Operands in parentheses.** Parentheses around an operand change what is reported exactly if the
slot minds them. -/
theorem codes_storeValue_paren {v : Value} (span : Span) :
    (t.storeValue v).codes = (t.storeValue (.paren (.mk span (.operand v)))).codes ↔
      t.mindsParens v = false := by
  cases ht : t.isRef with
  | true =>
    rw [storeValue, storeValue, if_pos ht, if_pos ht]
    cases hnull : v.isNull with
    | true =>
      cases v with
      | null place =>
        cases t with
        | ref inner => exact iff_of_false nofun nofun
        | _ => cases ht
      | _ => cases hnull
    | false => exact iff_of_true (codes_storeRef_paren hnull).symm (mindsParens_of_isRef ht hnull)
  | false =>
    rw [storeValue_paren ht]
    by_cases hliteral : v.isLiteral
    · have hstore : t.storeValue v = t.storeLiteral v := by
        cases v <;> simp_all [storeValue, Value.isRef, Value.isLiteral]
      rw [hstore]
      exact codes_storeLiteral_paren ht hliteral span
    · cases v with
      | ref place inner => exact codes_storeValue_ref_paren ht place span inner
      | ident | call | index | prefixed | suffixed | paren =>
        rw [storeValue, if_neg (by simp [ht])]
        show (t.storeType _ _).codes = _ ↔ _
        rw [codes_storeType, codes_storeType]
        exact iff_of_true rfl rfl
      | _ => exact absurd rfl hliteral

end Ty

end KilnLang
