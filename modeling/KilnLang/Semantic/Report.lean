import KilnLang.Semantic.Error

/-!
# Reports

A **report** is a value together with the errors found while computing it. A pass over a tree
always gives a tree, however many errors it finds, and the errors come in the order in which the
parts are visited.
-/

namespace KilnLang

/-- A value and the errors found on the way to it. -/
structure Report (α : Type) where
  value : α
  errors : List SemanticError

namespace Report

variable {α β : Type}

/-- The value of a report after further errors. -/
def bind (r : Report α) (f : α → Report β) : Report β :=
  let next := f r.value
  ⟨next.value, r.errors ++ next.errors⟩

instance : Monad Report where
  pure a := ⟨a, []⟩
  bind := bind

/-- Reports one error. -/
def error (e : SemanticError) : Report Unit := ⟨(), [e]⟩

/-- Reports an error if there is one. -/
def errorIf (wrong : Bool) (e : SemanticError) : Report Unit := ⟨(), if wrong then [e] else []⟩

@[simp] theorem value_pure (a : α) : (pure a : Report α).value = a := rfl

@[simp] theorem errors_pure (a : α) : (pure a : Report α).errors = [] := rfl

@[simp] theorem value_bind (r : Report α) (f : α → Report β) :
    (r >>= f).value = (f r.value).value := rfl

@[simp] theorem errors_bind (r : Report α) (f : α → Report β) :
    (r >>= f).errors = r.errors ++ (f r.value).errors := rfl

theorem ext {r s : Report α} (value : r.value = s.value) (errors : r.errors = s.errors) :
    r = s := by
  cases r
  cases s
  simp_all

instance : LawfulMonad Report := LawfulMonad.mk' Report
  (fun r => ext rfl (List.append_nil r.errors))
  (fun _ _ => ext rfl rfl)
  (fun _ _ _ => ext rfl (List.append_assoc _ _ _))

end Report

end KilnLang
