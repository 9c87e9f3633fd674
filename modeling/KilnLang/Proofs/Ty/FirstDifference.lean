import KilnLang.Ty.Compatibility

/-!
# The first difference between signatures

**Theorem (`signatures_match_exactly`).** Two function types fit, for storing and for binding and
through any references, if and only if their signatures are equal. Otherwise the reported place is
the first one at which the signatures differ (`SignaturePosition.IsFirst`).

Places come in this order: the number of parameters, the parameters from the left, what may follow
them, the return type. The comparison of the parameters counts from a start, so its lemmas
(`Ty.differsAt?_eq_none`, `Ty.differsAt?_eq_some`) hold from any start. Nested signatures are
compared by `Ty.same`, which decides equality.
-/

namespace KilnLang

/-- The signatures differ at the place and agree at every place before it. -/
def SignaturePosition.IsFirst (expected found : Signature Ty) : SignaturePosition → Prop
  | .arity m n => expected.params.length ≠ found.params.length ∧
      m = expected.params.length ∧ n = found.params.length
  | .parameter index =>
    expected.params.length = found.params.length ∧
      (∀ i < index, expected.params[i]? = found.params[i]?) ∧
        expected.params[index]? ≠ found.params[index]?
  | .rest => expected.params = found.params ∧ expected.rest ≠ found.rest
  | .ret => expected.params = found.params ∧ expected.rest = found.rest ∧ expected.ret ≠ found.ret

namespace Ty

/-! ## Parameters -/

section Params

variable {as bs : List Ty}

theorem differsAt?_eq_none (hlength : as.length = bs.length) (start : Nat) :
    differsAt? start as bs = none ↔ as = bs := by
  induction as generalizing bs start with
  | nil =>
    obtain rfl := List.length_eq_zero_iff.mp hlength.symm
    exact iff_of_true rfl rfl
  | cons a as ih =>
    cases bs with
    | nil => cases hlength
    | cons b bs =>
      rw [differsAt?, List.cons.injEq]
      by_cases hsame : same a b
      · rw [if_pos hsame, ih (Nat.succ.inj hlength), (same_iff a b).mp hsame]
        exact (and_iff_right rfl).symm
      · rw [if_neg hsame]
        apply iff_of_false nofun
        intro heq
        exact hsame ((same_iff a b).mpr heq.1)

theorem differsAt?_eq_some (hlength : as.length = bs.length) (start : Nat) {place : Nat} :
    differsAt? start as bs = some place ↔
      ∃ index, place = start + index ∧ (∀ i < index, as[i]? = bs[i]?) ∧
        as[index]? ≠ bs[index]? := by
  induction as generalizing bs start with
  | nil =>
    obtain rfl := List.length_eq_zero_iff.mp hlength.symm
    apply iff_of_false nofun
    rintro ⟨index, -, -, hne⟩
    exact hne rfl
  | cons a as ih =>
    cases bs with
    | nil => cases hlength
    | cons b bs =>
      rw [differsAt?]
      by_cases hsame : same a b
      · obtain rfl := (same_iff a b).mp hsame
        rw [if_pos hsame, ih (Nat.succ.inj hlength)]
        constructor
        · rintro ⟨index, rfl, hbefore, hne⟩
          refine ⟨index + 1, by omega, fun i hi => ?_, hne⟩
          cases i with
          | zero => rfl
          | succ i => exact hbefore i (Nat.lt_of_succ_lt_succ hi)
        · rintro ⟨index, rfl, hbefore, hne⟩
          cases index with
          | zero => exact absurd rfl hne
          | succ index =>
            exact ⟨index, by omega, fun i hi => hbefore (i + 1) (Nat.succ_lt_succ hi), hne⟩
      · have hne : a ≠ b := fun heq => hsame ((same_iff a b).mpr heq)
        rw [if_neg hsame, Option.some.injEq]
        constructor
        · rintro rfl
          exact ⟨0, rfl, nofun, fun heq => hne (Option.some.inj heq)⟩
        · rintro ⟨index, rfl, hbefore, -⟩
          cases index with
          | zero => rfl
          | succ index => exact absurd (Option.some.inj (hbefore 0 (Nat.succ_pos index))) hne

theorem exists_differsAt? (hlength : as.length = bs.length) (hne : as ≠ bs) (start : Nat) :
    ∃ place, differsAt? start as bs = some place :=
  Option.ne_none_iff_exists'.mp fun hnone => hne ((differsAt?_eq_none hlength start).mp hnone)

end Params

/-! ## Signatures -/

variable {expected found : Signature Ty}

/-- What is reported depends on the parts in the order in which they are compared. -/
theorem firstDifference?_of_params (h : expected.params = found.params) :
    firstDifference? expected found = if expected.rest ≠ found.rest then some .rest
      else if expected.ret ≠ found.ret then some .ret else none := by
  have hparams : differsAt? 0 expected.params found.params = none :=
    (differsAt?_eq_none (congrArg List.length h) 0).mpr h
  rw [firstDifference?, if_neg (not_not_intro (congrArg List.length h)), hparams]
  simp only [Bool.not_eq_true', ne_eq, ← sameRest_iff, ← same_iff, Bool.not_eq_true]

theorem firstDifference?_eq_none : firstDifference? expected found = none ↔ expected = found := by
  obtain ⟨ret, params, rest⟩ := expected
  obtain ⟨ret', params', rest'⟩ := found
  by_cases hparams : params = params'
  · rw [firstDifference?_of_params hparams]
    by_cases hrest : rest = rest' <;> by_cases hret : ret = ret' <;> simp [hparams, hrest, hret]
  · have hne : Signature.mk ret params rest ≠ ⟨ret', params', rest'⟩ := fun heq =>
      hparams (Signature.mk.inj heq).2.1
    apply iff_of_false _ hne
    rw [firstDifference?]
    by_cases hlength : params.length = params'.length
    · obtain ⟨index, hindex⟩ := exists_differsAt? hlength hparams 0
      rw [if_neg (not_not_intro hlength), hindex]
      exact nofun
    · rw [if_pos hlength]
      exact nofun

theorem firstDifference?_eq_some {place : SignaturePosition} :
    firstDifference? expected found = some place ↔ place.IsFirst expected found := by
  by_cases hparams : expected.params = found.params
  · -- Only what may follow the parameters and the return type are left to differ.
    rw [firstDifference?_of_params hparams]
    by_cases hrest : expected.rest = found.rest <;> by_cases hret : expected.ret = found.ret <;>
      cases place <;> simp [SignaturePosition.IsFirst, hparams, hrest, hret]
  · rw [firstDifference?]
    by_cases hlength : expected.params.length = found.params.length
    · obtain ⟨index, hindex⟩ := exists_differsAt? hlength hparams 0
      have hplace : ∀ other : Nat, (∀ i < other, expected.params[i]? = found.params[i]?) ∧
          expected.params[other]? ≠ found.params[other]? ↔ index = other := fun other => by
        rw [← Option.some.injEq, ← hindex, differsAt?_eq_some hlength]
        simp only [Nat.zero_add, exists_eq_left']
      rw [if_neg (not_not_intro hlength), hindex]
      cases place <;> simp [SignaturePosition.IsFirst, hparams, hlength, hplace]
    · rw [if_pos hlength]
      cases place <;> simp [SignaturePosition.IsFirst, hparams, hlength, eq_comm]

/-! ## Function types -/

theorem matchSignatures_eq_ok : matchSignatures found expected = .ok () ↔ expected = found := by
  rw [← firstDifference?_eq_none, matchSignatures]
  cases firstDifference? expected found <;> simp

theorem matchSignatures_eq_error {why : Incompatibility} :
    matchSignatures found expected = .error why ↔
      ∃ place : SignaturePosition, why = .signature place ∧ place.IsFirst expected found := by
  simp only [← firstDifference?_eq_some, matchSignatures]
  cases firstDifference? expected found <;> simp [eq_comm]

section Slots

variable {a b : Ty} {f e : Signature Ty}

theorem stripRefs_of_signature? (h : a.signature? = some f) : a.stripRefs = .func f := by
  rw [signature?] at h
  cases hstrip : a.stripRefs with
  | func sig =>
    rw [hstrip] at h
    exact congrArg func (Option.some.inj h)
  | _ =>
    rw [hstrip] at h
    cases h

theorem checkStore_of_signature? (ha : a.signature? = some f) (hb : b.signature? = some e) :
    checkStore a b = matchSignatures f e := by
  rw [checkStore, stripRefs_of_signature? ha, stripRefs_of_signature? hb]
  rfl

theorem checkBind_of_signature? (ha : a.signature? = some f) (hb : b.signature? = some e) :
    checkBind a b = matchSignatures f e := by
  rw [checkBind, stripRefs_of_signature? ha, stripRefs_of_signature? hb]
  rfl

end Slots

end Ty

/-- **Matching is exact.** Signatures match if and only if they are equal, and otherwise the first
place where they differ is reported. Function types fit if and only if their signatures match. -/
theorem signatures_match_exactly (expected found : Signature Ty) :
    (Ty.matchSignatures found expected = .ok () ↔ expected = found) ∧
      (expected ≠ found → ∃ place : SignaturePosition, place.IsFirst expected found ∧
        Ty.matchSignatures found expected = .error (.signature place)) ∧
      (∀ a b : Ty, Ty.same a b = true ↔ a = b) ∧
      ∀ a b : Ty, a.signature? = some found → b.signature? = some expected →
        (Ty.checkStore a b = .ok () ↔ expected = found) ∧
          (Ty.checkBind a b = .ok () ↔ expected = found) := by
  refine ⟨Ty.matchSignatures_eq_ok, fun hne => ?_, Ty.same_iff, fun a b ha hb => ?_⟩
  · obtain ⟨why, hwhy⟩ : ∃ why, Ty.matchSignatures found expected = .error why := by
      cases hmatch : Ty.matchSignatures found expected with
      | ok => exact absurd (Ty.matchSignatures_eq_ok.mp hmatch) hne
      | error why => exact ⟨why, rfl⟩
    obtain ⟨place, rfl, hfirst⟩ := Ty.matchSignatures_eq_error.mp hwhy
    exact ⟨place, hfirst, hwhy⟩
  · rw [Ty.checkStore_of_signature? ha hb, Ty.checkBind_of_signature? ha hb]
    exact ⟨Ty.matchSignatures_eq_ok, Ty.matchSignatures_eq_ok⟩

/-- The signatures differ in a parameter of their second parameter, and in what they return. -/
theorem nested_parameter_is_first :
    let callback (ty : Ty) : Ty := .func ⟨.prim .void, [.ref ty, .array ty (some 2)], .untyped⟩
    let expected : Signature Ty := ⟨.int, [.any, .ref (callback .int)], .none⟩
    let found : Signature Ty := ⟨.any, [.any, .ref (callback .any)], .none⟩
    (expected ≠ found ∧ (Ty.ref (.func found)).signature? = some found ∧
      (Ty.ref (.ref (.func expected))).signature? = some expected) ∧
      Ty.matchSignatures found expected = .error (.signature (.parameter 1)) ∧
      SignaturePosition.IsFirst expected found (.parameter 1) ∧
      Ty.checkStore (.ref (.func found)) (.ref (.ref (.func expected))) ≠ .ok () ∧
      Ty.checkBind (.ref (.func found)) (.ref (.ref (.func expected))) ≠ .ok () := by
  intro callback expected found
  have hne : expected ≠ found := by decide +kernel
  have hdiffers : Ty.firstDifference? expected found = some (.parameter 1) := by decide +kernel
  have hmatch : Ty.matchSignatures found expected = .error (.signature (.parameter 1)) := by
    rw [Ty.matchSignatures, hdiffers]
  obtain ⟨-, hfirst, -, hslots⟩ := signatures_match_exactly expected found
  obtain ⟨place, hplace, hplaceEq⟩ := hfirst hne
  obtain rfl : .parameter 1 = place := by simpa [hmatch] using hplaceEq
  have hfit := hslots (.ref (.func found)) (.ref (.ref (.func expected))) rfl rfl
  exact ⟨⟨hne, rfl, rfl⟩, hmatch, hplace, mt hfit.1.mp hne, mt hfit.2.mp hne⟩

end KilnLang
