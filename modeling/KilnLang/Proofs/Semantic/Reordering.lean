import Mathlib.Logic.Equiv.Basic
import KilnLang.Syntax

/-!
# Reordering the parts of a unit

A **reordering** moves the parts of a unit to other places and keeps the order of those whose order
matters: headers among themselves, globals among themselves, and functions of one name.

**Theorem (`Reordering.by_exchanges`).** A reordering is a sequence of exchanges of neighbours whose
order does not matter. So what exchanges keep, and what is kept along a sequence, every reordering
keeps.

The first part that is not at its place yet stands behind parts that come later in the original
order, so its order with its left neighbour cannot matter, and an exchange brings it one place
closer.
-/

namespace KilnLang

/-- The order of two parts of a unit matters. -/
def Node.Ordered : Node → Node → Prop
  | .header _, .header _ => True
  | .global _, .global _ => True
  | .function f, .function g => f.name.text = g.name.text
  | _, _ => False

theorem Node.Ordered.symm {n m : Node} (h : n.Ordered m) : m.Ordered n := by
  cases n <;> cases m <;> first | exact Eq.symm h | exact h

/-- The parts of a unit in another order: where each part goes, so that the order is kept where it
matters. -/
structure Reordering (ns ns' : List Node) where
  place : Equiv.Perm Nat
  same : ∀ i, ns'[place i]? = ns[i]?
  keeps : ∀ i j n m, i < j → ns[i]? = some n → ns[j]? = some m → n.Ordered m → place i < place j

namespace Reordering

variable {ns ns' : List Node}

/-- The way back. -/
def symm (r : Reordering ns ns') : Reordering ns' ns where
  place := r.place.symm
  same i := by rw [← r.same, Equiv.apply_symm_apply]
  keeps i j n m hij hn hm hordered := by
    by_contra hle
    have hne : r.place.symm j ≠ r.place.symm i := fun h => by
      have := r.place.symm.injective h
      omega
    have hlt : r.place.symm j < r.place.symm i := by omega
    have hi : ns[r.place.symm i]? = some n := by rw [← r.same, Equiv.apply_symm_apply, hn]
    have hj : ns[r.place.symm j]? = some m := by rw [← r.same, Equiv.apply_symm_apply, hm]
    have hback := r.keeps _ _ m n hlt hj hi hordered.symm
    simp only [Equiv.apply_symm_apply] at hback
    omega

/-! ## Exchanges -/

theorem getElem?_exchange {α : Type} (front : List α) (a b : α) (rest : List α) (i : Nat) :
    (front ++ b :: a :: rest)[Equiv.swap front.length (front.length + 1) i]? =
      (front ++ a :: b :: rest)[i]? := by
  rcases Nat.lt_trichotomy i front.length with hi | rfl | hi
  · rw [Equiv.swap_apply_of_ne_of_ne (by omega) (by omega), List.getElem?_append_left hi,
      List.getElem?_append_left hi]
  · rw [Equiv.swap_apply_left, List.getElem?_append_right (by omega),
      List.getElem?_append_right (by omega)]
    simp
  · obtain ⟨k, rfl⟩ : ∃ k, i = front.length + 1 + k := ⟨i - front.length - 1, by omega⟩
    cases k with
    | zero =>
      rw [Nat.add_zero, Equiv.swap_apply_right, List.getElem?_append_right (by omega),
        List.getElem?_append_right (by omega)]
      simp
    | succ k =>
      rw [Equiv.swap_apply_of_ne_of_ne (by omega) (by omega),
        List.getElem?_append_right (by omega), List.getElem?_append_right (by omega),
        show front.length + 1 + (k + 1) - front.length = k + 2 by omega]
      rfl

/-- A part and its right neighbour, where both are in the list. -/
theorem exists_neighbours {p : Nat} {m n : Node} (hm : ns[p]? = some m) (hn : ns[p + 1]? = some n) :
    ∃ front rest, ns = front ++ m :: n :: rest ∧ front.length = p := by
  obtain ⟨hp, rfl⟩ := List.getElem?_eq_some_iff.mp hm
  obtain ⟨hp', rfl⟩ := List.getElem?_eq_some_iff.mp hn
  refine ⟨ns.take p, ns.drop (p + 2), ?_, by rw [List.length_take]; omega⟩
  rw [← List.drop_eq_getElem_cons hp', ← List.drop_eq_getElem_cons hp, List.take_append_drop]

/-- The part at place `p + 1` moves one place to the left, past a part that comes later. -/
def moveLeft (r : Reordering ns ns') {front rest : List Node} {m n : Node}
    (hns : ns' = front ++ m :: n :: rest)
    (hlater : r.place.symm (front.length + 1) < r.place.symm front.length) :
    Reordering ns (front ++ n :: m :: rest) where
  place := r.place.trans (Equiv.swap front.length (front.length + 1))
  same i := by
    rw [Equiv.trans_apply, getElem?_exchange, ← hns, r.same]
  keeps i j a b hij ha hb hordered := by
    have hlt := r.keeps i j a b hij ha hb hordered
    rw [Equiv.trans_apply, Equiv.trans_apply, Equiv.swap_apply_def, Equiv.swap_apply_def]
    -- Only the exchanged pair changes its order, and its order did not matter.
    have hnot : ¬ (r.place i = front.length ∧ r.place j = front.length + 1) := by
      rintro ⟨hi, hj⟩
      rw [← hj, ← hi, Equiv.symm_apply_apply, Equiv.symm_apply_apply] at hlater
      omega
    split_ifs <;> omega

/-- What holds of exchanges, and along sequences, holds of every reordering. -/
theorem by_exchanges {P : List Node → List Node → Equiv.Perm Nat → Prop}
    (refl : ∀ ns place, (∀ i < ns.length, place i = i) → P ns ns place)
    (trans : ∀ {ns ns' ns'' place place'}, P ns ns' place → P ns' ns'' place' →
      P ns ns'' (place.trans place'))
    (exchange : ∀ front n m rest, ¬ n.Ordered m →
      P (front ++ n :: m :: rest) (front ++ m :: n :: rest)
        (Equiv.swap front.length (front.length + 1)))
    (r : Reordering ns ns') : P ns ns' r.place := by
  -- The first `k` parts are at their places, and `left` parts remain.
  suffices h : ∀ left k, k + left = ns.length → ∀ ns' (r : Reordering ns ns'),
      (∀ i < k, r.place i = i) → P ns ns' r.place from
    h ns.length 0 (Nat.zero_add _) ns' r (fun i hi => absurd hi (Nat.not_lt_zero i))
  intro left
  induction left with
  | zero =>
    intro k hk ns' r hfix
    have hns : ns' = ns := by
      refine List.ext_getElem? fun i => ?_
      rcases Nat.lt_or_ge i ns.length with hi | hi
      · rw [← r.same, hfix i (by omega)]
      · have hi' : ns.length ≤ r.place.symm i := by
          by_contra hlt
          have := hfix (r.place.symm i) (by omega)
          rw [Equiv.apply_symm_apply] at this
          omega
        rw [List.getElem?_eq_none hi, ← r.place.apply_symm_apply i, r.same,
          List.getElem?_eq_none hi']
    subst hns
    exact refl _ _ fun i hi => hfix i (by omega)
  | succ left ih =>
    intro k hk
    -- The part `k` of the original order is `e` places too far to the right.
    suffices h : ∀ e ns' (r : Reordering ns ns'), (∀ i < k, r.place i = i) → r.place k = k + e →
        P ns ns' r.place by
      intro ns' r hfix
      have hle : k ≤ r.place k := by
        by_contra hlt
        have := r.place.injective (hfix (r.place k) (by omega))
        omega
      exact h (r.place k - k) ns' r hfix (by omega)
    intro e
    induction e with
    | zero =>
      intro ns' r hfix hplace
      refine ih (k + 1) (by omega) ns' r fun i hi => ?_
      rcases Nat.lt_succ_iff_lt_or_eq.mp hi with hi | rfl
      · exact hfix i hi
      · exact hplace
    | succ e ih =>
      intro ns' r hfix hplace
      obtain ⟨n, hn⟩ : ∃ n, ns[k]? = some n := ⟨_, List.getElem?_eq_getElem (by omega)⟩
      have hn' : ns'[k + e + 1]? = some n := by rw [← hn, ← r.same, hplace, Nat.add_assoc]
      obtain ⟨m, hm'⟩ : ∃ m, ns'[k + e]? = some m :=
        ⟨_, List.getElem?_eq_getElem (by
          have := (List.getElem?_eq_some_iff.mp hn').1
          omega)⟩
      obtain ⟨front, rest, rfl, hfront⟩ := exists_neighbours hm' hn'
      have hback : r.place.symm (front.length + 1) = k := by
        rw [Equiv.symm_apply_eq, hplace, hfront, Nat.add_assoc]
      have hlater : k < r.place.symm front.length := by
        by_contra hle
        have hself : r.place (r.place.symm front.length) = k + e := by
          rw [Equiv.apply_symm_apply, hfront]
        rcases Nat.lt_or_eq_of_le (Nat.le_of_not_lt hle) with hlt | heq
        · rw [hfix _ hlt] at hself
          omega
        · rw [heq] at hself
          omega
      have hm : ns[r.place.symm front.length]? = some m := by
        rw [← r.same, Equiv.apply_symm_apply, hfront, hm']
      have hfree : ¬ n.Ordered m := fun hordered => by
        have := r.keeps _ _ n m hlater hn hm hordered
        rw [Equiv.apply_symm_apply] at this
        omega
      let r' := r.moveLeft rfl (hback.symm ▸ hlater)
      have hP : P ns (front ++ n :: m :: rest) r'.place := by
        refine ih _ r' (fun i hi => ?_) ?_
        · show Equiv.swap _ _ (r.place i) = i
          rw [hfix i hi, Equiv.swap_apply_of_ne_of_ne (by omega) (by omega)]
        · show Equiv.swap _ _ (r.place k) = k + e
          rw [hplace, show k + (e + 1) = front.length + 1 by omega, Equiv.swap_apply_right, hfront]
      have hplaces : r'.place.trans (Equiv.swap front.length (front.length + 1)) = r.place := by
        ext i
        exact Equiv.swap_apply_self _ _ _
      exact hplaces ▸ trans hP (exchange front n m rest hfree)

end Reordering

end KilnLang
