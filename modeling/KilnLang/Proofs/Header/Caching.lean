import KilnLang.Header.Table
import Mathlib.Tactic.SplitIfs

/-!
# Computations that keep a promise about the cache

A promise says what holds of each table that the cache has for a path. A cache is *sound* if it keeps
the promise. A computation is *safe* if, as long as it is shown tables of sound caches, it keeps only
tables that the promise allows, and ends with a result as required. Safe computations compose, and
each of their steps leaves the cache sound, whatever other safe computations do in between.
-/

namespace KilnLang.Caching

variable {I : Path.Key → HeaderTable → Prop} {α β : Type}

/-- Every table of the cache keeps the promise. -/
def Sound (I : Path.Key → HeaderTable → Prop) (c : HeaderCache) : Prop :=
  ∀ key table, c.get? key = some table → I key table

/-- If it is shown only tables that keep the promise, the computation keeps only such tables and
gives a result that satisfies `Q`. -/
def Safe (I : Path.Key → HeaderTable → Prop) (Q : α → Prop) : Caching α → Prop
  | .done a => Q a
  | .find key next => ∀ found, (∀ table ∈ found, I key table) → (next found).Safe I Q
  | .keep key table next => I key table ∧ ∀ kept, I key kept → (next kept).Safe I Q

/-- One computation after the other, each without interruption. -/
theorem run_bind (p : Caching α) (f : α → Caching β) (c : HeaderCache) :
    (p >>= f).run c = (f (p.run c).1).run (p.run c).2 := by
  induction p generalizing c with
  | done a => rfl
  | find key next ih => exact ih _ c
  | keep key table next ih => exact ih _ _

theorem sound_empty : Sound I .empty := fun _ _ h => by simp at h

theorem Sound.insert {c : HeaderCache} (h : Sound I c) {key : Path.Key} {table : HeaderTable}
    (ht : I key table) : Sound I (c.insert key table) := by
  intro k t hk
  rw [HeaderCache.get?_insert] at hk
  split_ifs at hk with heq
  · subst heq
    cases hc : c.get? k with
    | none => simp [hc] at hk; exact hk ▸ ht
    | some t' => simp [hc] at hk; exact hk ▸ h k t' hc
  · exact h k t hk

theorem Sound.getD {c : HeaderCache} (h : Sound I c) {key : Path.Key} {table : HeaderTable}
    (ht : I key table) : I key ((c.get? key).getD table) := by
  cases hc : c.get? key with
  | none => exact ht
  | some t => exact h key t hc

/-- Without a promise, every computation is safe. -/
theorem safe_any (p : Caching α) : p.Safe (fun _ _ => True) (fun _ => True) := by
  induction p with
  | done a => trivial
  | find key next ih => exact fun found _ => ih found
  | keep key table next ih => exact ⟨trivial, fun kept _ => ih kept⟩

namespace Safe

theorem mono {Q R : α → Prop} {p : Caching α} (h : p.Safe I Q) (hQR : ∀ a, Q a → R a) :
    p.Safe I R := by
  induction p with
  | done a => exact hQR a h
  | find key next ih => exact fun found hfound => ih found (h found hfound)
  | keep key table next ih => exact ⟨h.1, fun kept hkept => ih kept (h.2 kept hkept)⟩

theorem bind {Q : α → Prop} {R : β → Prop} {p : Caching α} {f : α → Caching β}
    (h : p.Safe I Q) (hf : ∀ a, Q a → (f a).Safe I R) : (p >>= f).Safe I R := by
  induction p with
  | done a => exact hf a h
  | find key next ih => exact fun found hfound => ih found (h found hfound)
  | keep key table next ih => exact ⟨h.1, fun kept hkept => ih kept (h.2 kept hkept)⟩

/-- One step of a safe computation leaves it safe and the cache sound. -/
theorem step {Q : α → Prop} {p : Caching α} (h : p.Safe I Q) {c : HeaderCache} (hc : Sound I c) :
    (p.step c).1.Safe I Q ∧ Sound I (p.step c).2 := by
  cases p with
  | done a => exact ⟨h, hc⟩
  | find key next => exact ⟨h _ fun table ht => hc key table ht, hc⟩
  | keep key table next => exact ⟨h.2 _ (hc.getD h.1), hc.insert h.1⟩

/-- All steps of a safe computation in a row. -/
theorem run {Q : α → Prop} {p : Caching α} (h : p.Safe I Q) {c : HeaderCache} (hc : Sound I c) :
    Q (p.run c).1 ∧ Sound I (p.run c).2 := by
  induction p generalizing c with
  | done a => exact ⟨h, hc⟩
  | find key next ih => exact ih _ (h _ fun table ht => hc key table ht) hc
  | keep key table next ih => exact ih _ (h.2 _ (hc.getD h.1)) (hc.insert h.1)

/-- A relation between the state of a fold and what is left of the list, kept by each step. -/
theorem foldlM {P : List α → β → Prop} {f : β → α → Caching β}
    (hstep : ∀ x rest b, P (x :: rest) b → (f b x).Safe I (P rest)) {xs : List α} {b : β}
    (hb : P xs b) : (xs.foldlM f b).Safe I (P []) := by
  induction xs generalizing b with
  | nil => exact hb
  | cons x xs ih =>
    rw [List.foldlM_cons]
    exact (hstep x xs b hb).bind fun _ h => ih h

end Safe

/-- Loads that are safe, one after the other, leave the cache sound. -/
theorem Sound.foldl_load {l : Locator} {Q : String → Option HeaderTable → Prop}
    (hload : ∀ name, (Header.load l name).Safe I (Q name)) (history : List String)
    {c : HeaderCache} (hc : Sound I c) :
    Sound I (history.foldl (fun c name => (c.load l name).2) c) := by
  induction history generalizing c with
  | nil => exact hc
  | cons name history ih => exact ih ((hload name).run hc).2

/-- Whatever such tables it is shown, the computation gives the same result. -/
def Determined (I : Path.Key → HeaderTable → Prop) (p : Caching α) : Prop := ∃ r, p.Safe I (· = r)

theorem Determined.bind {p : Caching α} {f : α → Caching β} (h : p.Determined I)
    (hf : ∀ a, (f a).Determined I) : (p >>= f).Determined I := by
  obtain ⟨a, ha⟩ := h
  obtain ⟨b, hb⟩ := hf a
  exact ⟨b, ha.bind fun _ h => h ▸ hb⟩

theorem determined_done (a : α) : (Caching.done a).Determined I := ⟨a, rfl⟩

end KilnLang.Caching
