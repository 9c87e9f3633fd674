import Mathlib.Data.List.Forall2
import KilnLang.Proofs.Semantic.Slots
import KilnLang.Proofs.Semantic.Success

/-!
# Annotated types

Annotating a type only fills its slots, and what the names stand for does not depend on the slots.
So a type that is annotated once more stays as it is.
-/

namespace KilnLang

namespace TypeExpr

variable {look : DottedName → Except AliasError Ty}

mutual

theorem bare_annotateWith : ∀ t : TypeExpr, (t.annotateWith look).1.bare = t.bare
  | .named name => by
    rw [annotateWith]
    cases look name <;> rfl
  | .ref _ inner => congrArg (TypeExpr.ref _) (bare_annotateWith inner)
  | .array _ elem _ => by
    show TypeExpr.array _ (elem.annotateWith look).1.bare _ = .array _ elem.bare _
    rw [bare_annotateWith elem]
  | .func _ sig => congrArg (TypeExpr.func _) (bare_annotateSignature sig)

theorem bare_annotateSignature : ∀ sig : Signature TypeExpr,
    bareSignature (annotateSignature look sig).1 = bareSignature sig
  | ⟨ret, params, rest⟩ => by
    have hret := bare_annotateWith ret
    have hparams := bare_annotateEach params
    have hrest := bare_annotateRest rest
    rw [annotateSignature]
    rcases hr : annotateWith look ret with ⟨ret', _ | retTy⟩
    · simp_all [bareSignature]
    rcases hp : annotateEach look params with ⟨params', _ | paramTys⟩
    · simp_all [bareSignature]
    rcases hv : annotateRest look rest with ⟨rest', _ | restTy⟩ <;> simp_all [bareSignature]

theorem bare_annotateEach : ∀ ts : List TypeExpr, bareEach (annotateEach look ts).1 = bareEach ts
  | [] => rfl
  | t :: ts => by
    have ht := bare_annotateWith t
    have hts := bare_annotateEach ts
    rw [annotateEach]
    rcases hr : annotateWith look t with ⟨t', _ | ty⟩ <;> simp_all [bareEach]

theorem bare_annotateRest : ∀ rest : Rest TypeExpr,
    bareRest (annotateRest look rest).1 = bareRest rest
  | .none => rfl
  | .untyped => rfl
  | .typed elem => congrArg Rest.typed (bare_annotateWith elem)

end

/-- What a name stands for does not depend on its slot. -/
def IgnoresSlots (look : DottedName → Except AliasError Ty) : Prop :=
  ∀ n r, look { n with resolved := r } = look n

mutual

theorem annotateWith_annotated (hlook : IgnoresSlots look) :
    ∀ {t t' : TypeExpr} {ty : Ty},
      t.annotateWith look = (t', .ok ty) → t'.annotateWith look = (t', .ok ty)
  | .named name, t', ty, h => by
    rw [annotateWith] at h
    cases hn : look name with
    | error e => simp [hn] at h
    | ok found =>
      rw [hn] at h
      cases h
      simp [annotateWith, hlook name, hn]
  | .ref span inner, t', ty, h => by
    rw [annotateWith] at h
    rcases hinner : inner.annotateWith look with ⟨inner', _ | innerTy⟩
    · simp [hinner, Except.map] at h
    · simp only [hinner, Except.map] at h
      cases h
      simp [annotateWith, annotateWith_annotated hlook hinner, Except.map]
  | .array span elem length, t', ty, h => by
    rw [annotateWith] at h
    rcases helem : elem.annotateWith look with ⟨elem', _ | elemTy⟩
    · simp [helem, Except.map] at h
    · simp only [helem, Except.map] at h
      cases h
      simp [annotateWith, annotateWith_annotated hlook helem, Except.map]
  | .func span sig, t', ty, h => by
    rw [annotateWith] at h
    rcases hsig : annotateSignature look sig with ⟨sig', _ | sigTy⟩
    · simp [hsig, Except.map] at h
    · simp only [hsig, Except.map] at h
      cases h
      simp [annotateWith, annotateSignature_annotated hlook hsig, Except.map]
termination_by structural t => t

theorem annotateSignature_annotated (hlook : IgnoresSlots look) :
    ∀ {sig sig' : Signature TypeExpr} {ty : Signature Ty},
      annotateSignature look sig = (sig', .ok ty) → annotateSignature look sig' = (sig', .ok ty)
  | ⟨ret, params, rest⟩, sig', ty, h => by
    rw [annotateSignature] at h
    rcases hret : annotateWith look ret with ⟨ret', _ | retTy⟩
    · simp [hret] at h
    rcases hparams : annotateEach look params with ⟨params', _ | paramTys⟩
    · simp [hret, hparams] at h
    rcases hrest : annotateRest look rest with ⟨rest', _ | restTy⟩
    · simp [hret, hparams, hrest] at h
    simp only [hret, hparams, hrest] at h
    cases h
    simp [annotateSignature, annotateWith_annotated hlook hret, annotateEach_annotated hlook hparams,
      annotateRest_annotated hlook hrest]
termination_by structural sig => sig

theorem annotateEach_annotated (hlook : IgnoresSlots look) :
    ∀ {ts ts' : List TypeExpr} {tys : List Ty},
      annotateEach look ts = (ts', .ok tys) → annotateEach look ts' = (ts', .ok tys)
  | [], ts', tys, h => by
    cases h
    rfl
  | t :: ts, ts', tys, h => by
    rw [annotateEach] at h
    rcases ht : annotateWith look t with ⟨t', _ | ty⟩
    · simp [ht] at h
    rcases hts : annotateEach look ts with ⟨ts₁, _ | tys₁⟩
    · simp [ht, hts, Except.map] at h
    simp only [ht, hts, Except.map] at h
    cases h
    simp [annotateEach, annotateWith_annotated hlook ht, annotateEach_annotated hlook hts, Except.map]
termination_by structural ts => ts

theorem annotateRest_annotated (hlook : IgnoresSlots look) :
    ∀ {rest rest' : Rest TypeExpr} {ty : Rest Ty},
      annotateRest look rest = (rest', .ok ty) → annotateRest look rest' = (rest', .ok ty)
  | .none, rest', ty, h => by
    cases h
    rfl
  | .untyped, rest', ty, h => by
    cases h
    rfl
  | .typed elem, rest', ty, h => by
    rw [annotateRest] at h
    rcases helem : elem.annotateWith look with ⟨elem', _ | elemTy⟩
    · simp [helem, Except.map] at h
    · simp only [helem, Except.map] at h
      cases h
      simp [annotateRest, annotateWith_annotated hlook helem, Except.map]
termination_by structural rest => rest

end

end TypeExpr

namespace AliasTable

theorem bare_of_annotate {t : AliasTable} {expr expr' : TypeExpr} {ty : Except AliasError Ty}
    (h : t.annotate expr = (expr', ty)) : expr'.bare = expr.bare := by
  have hbare : (t.annotate expr).1.bare = expr.bare := TypeExpr.bare_annotateWith expr
  rwa [h] at hbare

theorem annotate_annotated {t : AliasTable} {expr expr' : TypeExpr} {ty : Ty}
    (h : t.annotate expr = (expr', .ok ty)) : t.annotate expr' = (expr', .ok ty) :=
  TypeExpr.annotateWith_annotated (fun _ _ => rfl) h

end AliasTable

namespace Env

variable {env : Env}

theorem bare_of_annotate {t t' : TypeExpr} {ty : Ty} (h : env.annotate t = pure (t', ty)) :
    t'.bare = t.bare :=
  AliasTable.bare_of_annotate (annotate_eq_pure.mp h)

theorem annotateEach_eq_pure {ts : List TypeExpr} {rs : List (TypeExpr × Ty)} :
    env.annotateEach ts = pure rs ↔
      List.Forall₂ (fun t r => env.context.aliases.annotate t = (r.1, .ok r.2)) ts rs := by
  induction ts generalizing rs with
  | nil => simp [annotateEach, Report.pure_inj, eq_comm]
  | cons t ts ih =>
    simp only [annotateEach, Report.bind_eq_pure, Report.pure_inj, Prod.exists, annotate_eq_pure,
      ih, List.forall₂_cons_left_iff]
    constructor
    · rintro ⟨t', ty, ht, rs', hts, rfl⟩
      exact ⟨t', ty, rs', ht, hts, rfl⟩
    · rintro ⟨t', ty, rs', ht, hts, rfl⟩
      exact ⟨t', ty, ht, rs', hts, rfl⟩

theorem head_eq_pure {item item' : Function} {sig : Signature Ty} :
    env.head item = pure (item', sig) ↔ ∃ ret retTy params rest restTy,
      env.annotate item.ret = pure (ret, retTy) ∧
        env.annotateEach (item.params.map (·.ty)) = pure params ∧
        env.annotateRest item.rest = pure (rest, restTy) ∧
        sig = ⟨retTy, params.map (·.2), restTy⟩ ∧
        item' = { item with
          ret, rest
          params := item.params.zipWith (fun p r => { p with ty := r.1 }) params
          sig := some ⟨retTy, params.map (·.2), restTy⟩ } := by
  simp only [head, Report.bind_eq_pure, Report.pure_inj, Prod.exists, Prod.mk.injEq]
  constructor
  · rintro ⟨ret, retTy, hret, params, hparams, rest, restTy, hrest, rfl, rfl⟩
    exact ⟨ret, retTy, params, rest, restTy, hret, hparams, hrest, rfl, rfl⟩
  · rintro ⟨ret, retTy, params, rest, restTy, hret, hparams, hrest, rfl, rfl⟩
    exact ⟨ret, retTy, hret, params, hparams, rest, restTy, hrest, rfl, rfl⟩

theorem head_sig {item item' : Function} {sig : Signature Ty}
    (h : env.head item = pure (item', sig)) : item'.sig = some sig := by
  obtain ⟨_, _, _, _, _, -, -, -, rfl, rfl⟩ := head_eq_pure.mp h
  rfl

/-- An annotated function takes further arguments of one type if its signature does. -/
theorem head_rest {item item' : Function} {sig : Signature Ty}
    (h : env.head item = pure (item', sig)) :
    sig.rest.elem?.isSome = item'.rest.elem?.isSome := by
  obtain ⟨_, _, _, rest, restTy, -, -, hrest, rfl, rfl⟩ := head_eq_pure.mp h
  cases hr : item.rest with
  | typed elem =>
    simp only [hr, annotateRest, Report.bind_eq_pure, Report.pure_inj, Prod.exists,
      Prod.mk.injEq] at hrest
    obtain ⟨elem', ty, -, rfl, rfl⟩ := hrest
    rfl
  | _ =>
    simp only [hr, annotateRest, Report.pure_inj, Prod.mk.injEq] at hrest
    obtain ⟨rfl, rfl⟩ := hrest
    rfl

/-- The parameters of an annotated function have the types of its signature. -/
theorem head_params {item item' : Function} {sig : Signature Ty}
    (h : env.head item = pure (item', sig)) :
    List.Forall₂ (fun p ty => (env.context.aliases.annotate p.ty).2 = .ok ty)
      item'.params sig.params := by
  obtain ⟨ret, retTy, params, rest, restTy, -, hparams, -, rfl, rfl⟩ := head_eq_pure.mp h
  rw [annotateEach_eq_pure, List.forall₂_map_left_iff] at hparams
  show List.Forall₂ _ (item.params.zipWith _ params) (params.map (·.2))
  clear h
  generalize item.params = ps at hparams
  induction hparams with
  | nil => exact .nil
  | cons hp _ ih =>
    exact .cons (by rw [AliasTable.annotate_annotated hp]) ih

/-- Annotating a function only fills slots. -/
theorem bare_head {item item' : Function} {sig : Signature Ty}
    (h : env.head item = pure (item', sig)) : item'.refill .emptied = item.refill .emptied := by
  obtain ⟨ret, retTy, params, rest, restTy, hret, hparams, hrest, rfl, rfl⟩ := head_eq_pure.mp h
  have hbareRest : Rest.refill .emptied rest = Rest.refill .emptied item.rest := by
    cases hr : item.rest with
    | typed elem =>
      simp only [hr, annotateRest, Report.bind_eq_pure, Report.pure_inj, Prod.exists,
        Prod.mk.injEq] at hrest
      obtain ⟨elem', ty, helem, rfl, rfl⟩ := hrest
      exact congrArg Rest.typed (bare_of_annotate helem)
    | _ =>
      simp only [hr, annotateRest, Report.pure_inj, Prod.mk.injEq] at hrest
      rw [← hrest.1]
  have hbareParams : (item.params.zipWith (fun p r => { p with ty := r.1 }) params).map
      (·.refill .emptied) = item.params.map (·.refill .emptied) := by
    rw [annotateEach_eq_pure, List.forall₂_map_left_iff] at hparams
    clear h
    generalize item.params = ps at hparams
    induction hparams with
    | nil => rfl
    | @cons p r ps rs hp _ ih =>
      have hty : r.1.bare = p.ty.bare := bare_of_annotate (annotate_eq_pure.mpr hp)
      refine congrArg₂ List.cons ?_ ih
      simp only [Param.refill, Slots.emptied, hty]
  simp only [Function.refill, hbareRest, hbareParams]
  simp only [Slots.emptied, bare_of_annotate hret]

end Env

end KilnLang
