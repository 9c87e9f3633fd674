import KilnLang.Proofs.Semantic.Success

/-!
# The aliases of a unit

What defining the aliases of a unit adds to the table.
-/

namespace KilnLang

namespace AliasTable

variable {t t' : AliasTable} {name : String} {target : AliasTarget} {kind : AliasKind} {span : Span}

/-- An alias can be defined under a new name that does not lead back to itself. -/
theorem define_eq_ok : t.define name target kind span = .ok t' ↔ t.contains name = false ∧
    (t.extend name target kind span).wayBack? name (t.size + 1) [name] name = none ∧
    t.extend name target kind span = t' := by
  unfold define update
  cases t.contains name with
  | true => simp
  | false =>
    have hsize : t.size + 1 = (t.extend name target kind span).size := rfl
    rw [hsize]
    cases hway : (t.extend name target kind span).wayBack? name _ [name] name <;> simp [hway]

theorem contains_extend (other : String) :
    (t.extend name target kind span).contains other = (other == name || t.contains other) := by
  simp only [contains, kind?, lookup?, extend, List.lookup_cons]
  by_cases hbuiltin : Builtin.isBuiltin other
  · simp [hbuiltin]
  · cases hname : other == name <;> simp [hbuiltin]

end AliasTable

namespace Resolver

theorem contains_of_defineEach {t t' : AliasTable} {ns : List Node} {name : String}
    (h : defineEach t ns = .ok t')
    (hname : t.contains name ∨ ∃ item, .alias item ∈ ns ∧ item.name.text = name) :
    t'.contains name := by
  induction ns generalizing t with
  | nil =>
    obtain rfl : t = t' := Except.ok.inj h
    simpa using hname
  | cons n ns ih =>
    obtain ⟨item, rfl⟩ | hn := isAlias_cases n
    · rw [defineEach] at h
      split at h
      · rename_i t₁ hdefine
        obtain ⟨-, -, rfl⟩ := AliasTable.define_eq_ok.mp hdefine
        refine ih h ?_
        rw [AliasTable.contains_extend]
        rcases hname with hname | ⟨other, hother, rfl⟩
        · exact .inl (by simp [hname])
        · rcases List.mem_cons.mp hother with hother | hother
          · cases hother
            exact .inl (by simp)
          · exact .inr ⟨other, hother, rfl⟩
      · cases h
    · rw [defineEach_other hn] at h
      refine ih h (hname.imp_right ?_)
      rintro ⟨other, hother, rfl⟩
      rcases List.mem_cons.mp hother with rfl | hother
      · cases hn
      · exact ⟨other, hother, rfl⟩

end Resolver

end KilnLang
