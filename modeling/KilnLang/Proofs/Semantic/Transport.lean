import KilnLang.Proofs.Semantic.Agreement
import KilnLang.Proofs.Semantic.AliasOrder
import KilnLang.Proofs.Semantic.Renumbering

/-!
# Resolution under other numbers

Resolution only uses what a scope finds under a name, and what the declaration found there says. So
it gives the same tree, up to the numbers of declarations, in every environment in which the same
names lead to the same declarations under other numbers (`Env.Twins`).

**Numbers.** New declarations are numbered in order. A renumbering can follow a run as long as it
moves the numbers that the run uses by the same distance: `start` and `start'` are the numbers of the
first declarations of the two runs, and what lies below need not be numbered in order.

**Parts of a table.** Two runs may be compared although their tables agree only in some
declarations, `P`, and their unit's scopes only in some names, `Q`. What a run adds is added to both.
-/

namespace KilnLang

/-- The scopes find the same declarations under the names of `Q`, up to their numbers. -/
def Scope.Twins (ρ : Equiv.Perm DeclId) (Q : String → Prop) (scope scope' : Scope) : Prop :=
  ∀ name, Q name → scope'.lookup name = (scope.lookup name).map ρ

/-- The environments know the same up to the numbers of declarations: the names of `Q` are bound to
declarations that say the same, the declarations of `P` have the same defaults too, and both
environments have the same number of declarations since `start` and `start'`. -/
structure Env.Twins (ρ : Equiv.Perm DeclId) (start start' : Nat) (P : DeclId → Prop)
    (Q : String → Prop) (env env' : Env) : Prop where
  aliases : env.context.aliases.Same env'.context.aliases
  bridge : env'.context.bridge = env.context.bridge
  vargs : env'.vargs = env.vargs
  limit : env'.limit = env.limit
  scopes : List.Forall₂ (Scope.Twins ρ Q) env.scopes env'.scopes
  heads : ∀ scope ∈ env.scopes, ∀ name id, Q name → scope.lookup name = some id →
    ∃ info info', env.context.decls[id]? = some info ∧ env'.context.decls[ρ id]? = some info' ∧
      info'.head = info.head
  entries : ∀ id < env.context.decls.length, P id →
    env'.context.decls[ρ id]? = (env.context.decls[id]?).map (·.refill (.renumber ρ))
  first : start ≤ env.context.decls.length
  aligned : env'.context.decls.length + start = env.context.decls.length + start'

namespace Env.Twins

variable {ρ : Equiv.Perm DeclId} {start start' : Nat} {P : DeclId → Prop} {Q : String → Prop}
  {env env' : Env}

/-! ## Names -/

theorem isHidden (h : Twins ρ start start' P Q env env') {info info' : DeclInfo}
    (hhead : info'.head = info.head) : env'.isHidden info' = env.isHidden info := by
  obtain ⟨-, -, hkind, -, horder⟩ := DeclInfo.eq_of_head hhead
  unfold Env.isHidden
  rw [hkind, horder, h.limit]

theorem inScopes? (h : Twins ρ start start' P Q env env') {name : String} (hname : Q name)
    {scopes scopes' : List Scope} (hscopes : List.Forall₂ (Scope.Twins ρ Q) scopes scopes')
    (hsub : ∀ scope ∈ scopes, scope ∈ env.scopes) :
    env'.inScopes? name scopes' = (env.inScopes? name scopes).map (·.renumber ρ) := by
  induction hscopes with
  | nil => rfl
  | @cons scope scope' outer outer' hscope houter ih =>
    obtain ⟨hmem, hsub⟩ := List.forall_mem_cons.mp hsub
    rw [Env.inScopes?, Env.inScopes?, hscope name hname]
    cases hid : scope.lookup name with
    | none => exact ih hsub
    | some id =>
      obtain ⟨info, info', hinfo, hinfo', hhead⟩ := h.heads scope hmem name id hname hid
      have hempty : outer'.isEmpty = outer.isEmpty := by cases houter <;> rfl
      obtain ⟨-, -, hkind, hty, -⟩ := DeclInfo.eq_of_head hhead
      simp only [Option.map_some, hinfo, hinfo', hempty, h.isHidden hhead]
      split
      · exact ih hsub
      · simp only [Option.map_some, Resolution.renumber, DeclInfo.binding_renumber, hty,
          DeclInfo.binding_congr hkind]

theorem lookupName (h : Twins ρ start start' P Q env env') {name : String} (hname : Q name)
    (span : Span) : env'.lookupName name span =
      ((env.lookupName name span).1.map (·.renumber ρ), (env.lookupName name span).2) := by
  have hvargs : env'.asVarArgs? name = (env.asVarArgs? name).map (·.renumber ρ) := by
    unfold Env.asVarArgs?
    rw [h.vargs]
    split
    · cases env.vargs <;> rfl
    · rfl
  have halias : env'.asAlias? name span = env.asAlias? name span := by
    unfold Env.asAlias?
    rw [h.aliases.kind?, h.aliases.resolve]
  -- What an alias gives holds no number of a declaration.
  have hfixed : ∀ found errors, env.asAlias? name span = some (found, errors) →
      found.renumber ρ = found := by
    intro found errors hfound
    obtain ⟨kind, -, hkind⟩ := Option.map_eq_some_iff.mp hfound
    cases kind <;> cases hres : env.context.aliases.resolve name span <;> rw [hres] at hkind <;>
      cases hkind <;> rfl
  have hbridge : env'.asBridge? name = (env.asBridge? name).map (·.renumber ρ) := by
    unfold Env.asBridge?
    rw [h.bridge]
    cases env.context.bridge.lookup name with
    | none => rfl
    | some symbol => cases symbol <;> rfl
  unfold Env.lookupName
  rw [h.inScopes? hname h.scopes fun _ => id, hvargs, halias, hbridge, ← Option.map_or]
  cases (env.inScopes? name env.scopes).or (env.asVarArgs? name) with
  | some found => rfl
  | none =>
    cases hfound : env.asAlias? name span with
    | none => rfl
    | some found =>
      obtain ⟨found, errors⟩ := found
      simp only [Option.map_none, Option.map_some, hfixed found errors hfound]

theorem lookup (h : Twins ρ start start' P Q env env') (hQ : ∀ name, Q name) (name : DottedName) :
    env'.lookup name = ((env.lookup name).1.map (·.renumber ρ), (env.lookup name).2) := by
  unfold Env.lookup
  split
  · exact h.lookupName (hQ _) _
  · rw [h.vargs]
    cases env.vargs <;> rfl
  · rfl

end Env.Twins

/-! ## Expressions -/

/-- Every name stands for the same in both environments, up to the numbers of declarations. -/
structure Env.Concurs (ρ : Equiv.Perm DeclId) (env env' : Env) : Prop where
  aliases : env.context.aliases.Same env'.context.aliases
  lookup : ∀ name, env'.lookup name = ((env.lookup name).1.map (·.renumber ρ), (env.lookup name).2)

theorem Env.Twins.concurs {ρ : Equiv.Perm DeclId} {start start' : Nat} {P : DeclId → Prop}
    {Q : String → Prop} {env env' : Env} (h : Twins ρ start start' P Q env env')
    (hQ : ∀ name, Q name) : env.Concurs ρ env' :=
  ⟨h.aliases, h.lookup hQ⟩

namespace Env.Concurs

open Report

variable {ρ : Equiv.Perm DeclId} {env env' : Env}

theorem find (h : env.Concurs ρ env') {name : DottedName} {found : Option Resolution}
    (hfind : env.find name = pure found) :
    env'.find name = pure (found.map (·.renumber ρ)) := by
  obtain ⟨r, rfl, hlook⟩ := find_eq_pure hfind
  unfold Env.find
  rw [h.lookup, hlook]
  rfl

theorem ident (h : env.Concurs ρ env') {name name' : DottedName}
    (hident : env.ident name = pure name') :
    env'.ident name = pure (name'.refill (.renumber ρ)) := by
  simp only [Env.ident, bind_eq_pure] at hident ⊢
  obtain ⟨found, hfound, hident⟩ := hident
  obtain ⟨⟨binding, ty⟩, rfl, -⟩ := find_eq_pure hfound
  refine ⟨_, h.find hfound, ?_⟩
  cases binding with
  | type | macroFunction =>
    simp only [bind_eq_pure, error_ne_pure, false_and, exists_false] at hident
  | _ =>
    rw [← pure_inj.mp hident]
    rfl

theorem target {name : String} {count : Nat} {span : Span} {found : Resolution}
    {t : Option CallTarget} (h : Env.target name count span found = pure t) :
    Env.target name count span (found.renumber ρ) = pure (t.map (·.renumber ρ)) := by
  obtain ⟨binding, ty⟩ := found
  cases binding with
  | function decl =>
    cases ty with
    | func sig =>
      rw [← pure_inj.mp h]
      rfl
    | _ =>
      rw [← pure_inj.mp h]
      rfl
  | macroFunction arity variadic =>
    simp only [Env.target, bind_eq_pure, pure_inj] at h
    obtain ⟨_, hfits, rfl⟩ := h
    simp only [Env.target, Resolution.renumber, Binding.renumber, bind_eq_pure]
    exact ⟨_, hfits, rfl⟩
  | type =>
    simp only [Env.target, bind_eq_pure, pure_inj] at h
    obtain ⟨_, hfits, rfl⟩ := h
    simp only [Env.target, Resolution.renumber, Binding.renumber, bind_eq_pure]
    exact ⟨_, hfits, rfl⟩
  | _ =>
    rw [← pure_inj.mp h]
    simp only [Env.target, Resolution.renumber, Binding.renumber]
    cases ty.signature? <;> rfl

theorem callee (h : env.Concurs ρ env') {name name' : DottedName} {count : Nat} {span : Span}
    {t : Option CallTarget} (hcallee : env.callee name count span = pure (name', t)) :
    env'.callee name count span =
      pure (name'.refill (.renumber ρ), t.map (·.renumber ρ)) := by
  simp only [Env.callee, bind_eq_pure] at hcallee ⊢
  obtain ⟨found, hfound, hcallee⟩ := hcallee
  obtain ⟨r, rfl, -⟩ := find_eq_pure hfound
  simp only [bind_eq_pure, pure_inj, Prod.mk.injEq] at hcallee
  obtain ⟨t, htarget, _, hcallable, rfl, rfl⟩ := hcallee
  refine ⟨_, h.find hfound, ?_⟩
  simp only [Option.map_some, bind_eq_pure]
  refine ⟨_, target htarget, (), ?_, rfl⟩
  rw [Option.isNone_map]
  exact hcallable

mutual

theorem expr (h : env.Concurs ρ env') : ∀ {e e' : Expr}, env.expr e = pure e' →
    env'.expr e = pure (e'.refill (.renumber ρ))
  | .mk span ops, e', he => by
    simp only [Env.expr, bind_eq_pure, pure_inj] at he ⊢
    obtain ⟨ops', hops, rfl⟩ := he
    exact ⟨_, h.chain hops, rfl⟩
termination_by structural e => e

theorem chain (h : env.Concurs ρ env') : ∀ {c c' : Chain}, env.chain c = pure c' →
    env'.chain c = pure (c'.refill (.renumber ρ))
  | .operand v, c', hc => by
    simp only [Env.chain, bind_eq_pure, pure_inj] at hc ⊢
    obtain ⟨v', hv, rfl⟩ := hc
    exact ⟨_, h.value hv, rfl⟩
  | .link v op rest, c', hc => by
    simp only [Env.chain, bind_eq_pure, pure_inj] at hc ⊢
    obtain ⟨v', hv, rest', hrest, rfl⟩ := hc
    exact ⟨_, h.value hv, _, h.chain hrest, rfl⟩
termination_by structural c => c

theorem value (h : env.Concurs ρ env') : ∀ {v v' : Value}, env.value v = pure v' →
    env'.value v = pure (v'.refill (.renumber ρ))
  | .ident name, v', hv => by
    simp only [Env.value, bind_eq_pure, pure_inj] at hv ⊢
    obtain ⟨name', hname, rfl⟩ := hv
    exact ⟨_, h.ident hname, rfl⟩
  | .call span name args target defaulted, v', hv => by
    simp only [Env.value, bind_eq_pure, pure_inj, Prod.exists] at hv ⊢
    obtain ⟨args', hargs, name', target', hcallee, rfl⟩ := hv
    refine ⟨_, h.exprs hargs, _, _, ?_, rfl⟩
    rw [Value.refillEach_eq_map, List.length_map]
    exact h.callee hcallee
  | .index span base position, v', hv => by
    simp only [Env.value, bind_eq_pure, pure_inj] at hv ⊢
    obtain ⟨base', hbase, position', hposition, rfl⟩ := hv
    exact ⟨_, h.value hbase, _, h.expr hposition, rfl⟩
  | .ref span inner, v', hv | .prefixed span op inner, v', hv
  | .suffixed span op inner, v', hv => by
    simp only [Env.value, bind_eq_pure, pure_inj] at hv ⊢
    obtain ⟨inner', hinner, rfl⟩ := hv
    exact ⟨_, h.value hinner, rfl⟩
  | .paren inner, v', hv => by
    simp only [Env.value, bind_eq_pure, pure_inj] at hv ⊢
    obtain ⟨inner', hinner, rfl⟩ := hv
    exact ⟨_, h.expr hinner, rfl⟩
  | .number _, v', hv | .decimal _, v', hv | .string _, v', hv | .char _, v', hv
  | .bool _ _, v', hv | .null _, v', hv => by
    rw [← pure_inj.mp hv]
    rfl
termination_by structural v => v

theorem exprs (h : env.Concurs ρ env') : ∀ {es es' : List Expr}, env.exprs es = pure es' →
    env'.exprs es = pure (Value.refillEach (.renumber ρ) es')
  | [], es', hes => by
    rw [← pure_inj.mp hes]
    rfl
  | e :: es, es', hes => by
    simp only [Env.exprs, bind_eq_pure, pure_inj] at hes ⊢
    obtain ⟨e', he, es', hes, rfl⟩ := hes
    exact ⟨_, h.expr he, _, h.exprs hes, rfl⟩
termination_by structural es => es

end

theorem expr? (h : env.Concurs ρ env') {e e' : Option Expr} (he : env.expr? e = pure e') :
    env'.expr? e = pure (e'.map (·.refill (.renumber ρ))) := by
  cases e with
  | none =>
    rw [← pure_inj.mp he]
    rfl
  | some e =>
    simp only [Env.expr?, bind_eq_pure, pure_inj] at he ⊢
    obtain ⟨e', he, rfl⟩ := he
    exact ⟨_, h.expr he, rfl⟩

theorem guard (h : env.Concurs ρ env') {g g' : Guard} (hg : env.guard g = pure g') :
    env'.guard g = pure (g'.refill (.renumber ρ)) := by
  cases g with
  | otherwise =>
    rw [← pure_inj.mp hg]
    rfl
  | _ =>
    simp only [Env.guard, bind_eq_pure, pure_inj] at hg ⊢
    obtain ⟨e', he, rfl⟩ := hg
    exact ⟨_, h.expr he, rfl⟩

end Env.Concurs

namespace AliasTable.Same

variable {env env' : Env}

theorem annotateReport (h : env.context.aliases.Same env'.context.aliases) (ty : TypeExpr) :
    env'.annotate ty = env.annotate ty := by
  unfold Env.annotate
  rw [h.annotate]

theorem head (h : env.context.aliases.Same env'.context.aliases) (item : Function) :
    env'.head item = env.head item := by
  have heach : ∀ ts, env'.annotateEach ts = env.annotateEach ts := by
    intro ts
    induction ts with
    | nil => rfl
    | cons t ts ih => rw [Env.annotateEach, Env.annotateEach, h.annotateReport, ih]
  have hrest : ∀ rest, env'.annotateRest rest = env.annotateRest rest := by
    intro rest
    cases rest with
    | typed elem => rw [Env.annotateRest, Env.annotateRest, h.annotateReport]
    | _ => rfl
  simp only [Env.head, h.annotateReport, heach, hrest]

end AliasTable.Same

/-! ## Declarations -/

namespace Env.Twins

variable {ρ : Equiv.Perm DeclId} {start start' : Nat} {P : DeclId → Prop} {Q : String → Prop}
  {env env' : Env}

theorem isTaken (h : Twins ρ start start' P Q env env') {name : String} (hname : Q name) :
    env'.isTaken name = env.isTaken name := by
  have hhead : (env'.scopes.head?).map (fun scope => (scope.lookup name).isSome) =
      (env.scopes.head?).map fun scope => (scope.lookup name).isSome := by
    have hall := h.scopes
    generalize env.scopes = scopes at hall
    generalize env'.scopes = scopes' at hall
    cases hall with
    | nil => rfl
    | cons hscope _ => simp [hscope name hname]
  unfold Env.isTaken
  rw [hhead, h.scopes.length_eq, h.aliases.contains]

/-- A new declaration gets the number that the renumbering gives it. -/
theorem push (h : Twins ρ start start' P Q env env') {info : DeclInfo}
    (hinfo : info.refill (.renumber ρ) = info)
    (hρ : ρ env.context.decls.length + start = env.context.decls.length + start') :
    Twins ρ start start' P Q (env.push info) (env'.push info) := by
  have hnew : ρ env.context.decls.length = env'.context.decls.length :=
    Nat.add_right_cancel (hρ.trans h.aligned.symm)
  have hold : ∀ {id : DeclId} {info' : DeclInfo}, env'.context.decls[id]? = some info' →
      (env'.context.decls ++ [info])[id]? = some info' := fun hid => by
    rw [List.getElem?_append_left (List.getElem?_eq_some_iff.mp hid).1, hid]
  refine ⟨h.aliases, h.bridge, h.vargs, h.limit, ?_, ?_, ?_, ?_, ?_⟩
  · unfold Env.push
    rcases hscopes : env.scopes with _ | ⟨scope, outer⟩ <;>
      rcases hscopes' : env'.scopes with _ | ⟨scope', outer'⟩ <;>
      have hall := h.scopes <;> rw [hscopes, hscopes'] at hall <;> cases hall
    · exact .nil
    · rename_i hscope houter
      refine .cons (fun name hname => ?_) houter
      rw [Scope.lookup_cons, Scope.lookup_cons, hscope name hname]
      split
      · rw [Option.map_some, hnew]
      · rfl
  · intro scope hscope name id hname hid
    -- A name of the new scope has the new number, or one that it had before.
    have hcases : (id = env.context.decls.length) ∨
        ∃ scope ∈ env.scopes, scope.lookup name = some id := by
      unfold Env.push at hscope
      rcases hscopes : env.scopes with _ | ⟨inner, outer⟩ <;> rw [hscopes] at hscope
      · exact nomatch hscope
      · rcases List.mem_cons.mp hscope with rfl | hscope
        · rw [Scope.lookup_cons] at hid
          split at hid
          · exact .inl (Option.some.inj hid).symm
          · exact .inr ⟨inner, List.mem_cons_self, hid⟩
        · exact .inr ⟨scope, List.mem_cons_of_mem _ hscope, hid⟩
    rcases hcases with rfl | ⟨scope, hscope, hid⟩
    · exact ⟨info, info, by simp [Env.push], by simp [Env.push, hnew], rfl⟩
    · obtain ⟨old, old', hget, hget', hhead⟩ := h.heads scope hscope name id hname hid
      refine ⟨old, old', ?_, hold hget', hhead⟩
      exact (List.getElem?_append_left (List.getElem?_eq_some_iff.mp hget).1).trans hget
  · intro id hid hP
    simp only [Env.push, List.length_append, List.length_singleton] at hid ⊢
    rcases Nat.lt_succ_iff_lt_or_eq.mp hid with hid | rfl
    · have hget := h.entries id hid hP
      rw [List.getElem?_eq_getElem hid, Option.map_some] at hget
      rw [List.getElem?_append_left hid, hold hget, List.getElem?_eq_getElem hid, Option.map_some]
    · simp [hnew, hinfo]
  · simp only [Env.push, List.length_append, List.length_singleton]
    exact Nat.le_succ_of_le h.first
  · have := h.aligned
    simp only [Env.push, List.length_append, List.length_singleton]
    omega

/-- A change of a declaration that keeps its head. -/
theorem update (h : Twins ρ start start' P Q env env') (id : DeclId)
    {f f' : DeclInfo → DeclInfo} (hf : ∀ info, (f info).head = info.head)
    (hf' : ∀ info, (f' info).head = info.head)
    (hboth : ∀ info, f' (info.refill (.renumber ρ)) = (f info).refill (.renumber ρ)) :
    Twins ρ start start' P Q (env.update id f) (env'.update (ρ id) f') := by
  have hheads := DeclTable.Extends.modify env.context.decls id hf
  have hheads' := DeclTable.Extends.modify env'.context.decls (ρ id) hf'
  refine ⟨h.aliases, h.bridge, h.vargs, h.limit, h.scopes, ?_, ?_, ?_, ?_⟩
  · intro scope hscope name other hname hother
    obtain ⟨info, info', hinfo, hinfo', hhead⟩ := h.heads scope hscope name other hname hother
    obtain ⟨new, hnew, hnewHead⟩ := hheads.getElem? hinfo
    obtain ⟨new', hnew', hnewHead'⟩ := hheads'.getElem? hinfo'
    exact ⟨new, new', hnew, hnew', by rw [hnewHead', hhead, hnewHead]⟩
  · intro other hlt hP
    simp only [Env.update, List.length_modify] at hlt
    have hget := h.entries other hlt hP
    simp only [Env.update, List.getElem?_modify, hget, ρ.injective.eq_iff]
    cases env.context.decls[other]? with
    | none => rfl
    | some info =>
      by_cases heq : id = other
      · simp [heq, hboth]
      · simp [heq]
  · simpa only [Env.update, List.length_modify] using h.first
  · simpa only [Env.update, List.length_modify] using h.aligned

theorem enter (h : Twins ρ start start' P Q env env') :
    Twins ρ start start' P Q env.enter env'.enter where
  aliases := h.aliases
  bridge := h.bridge
  vargs := h.vargs
  limit := h.limit
  scopes := .cons (fun _ _ => rfl) h.scopes
  heads := by
    intro scope hscope name id hname hid
    rcases List.mem_cons.mp hscope with rfl | hscope
    · exact nomatch hid
    · exact h.heads scope hscope name id hname hid
  entries := h.entries
  first := h.first
  aligned := h.aligned

theorem leave (h : Twins ρ start start' P Q env env') :
    Twins ρ start start' P Q env.leave env'.leave where
  aliases := h.aliases
  bridge := h.bridge
  vargs := h.vargs
  limit := h.limit
  scopes := by
    show List.Forall₂ _ env.scopes.tail env'.scopes.tail
    have hall := h.scopes
    generalize env.scopes = scopes at hall
    generalize env'.scopes = scopes' at hall
    cases hall with
    | nil => exact .nil
    | cons _ houter => exact houter
  heads := fun scope hscope => h.heads scope (List.mem_of_mem_tail hscope)
  entries := h.entries
  first := h.first
  aligned := h.aligned

theorem withVargs (h : Twins ρ start start' P Q env env') (vargs : Option Ty) :
    Twins ρ start start' P Q { env with vargs } { env' with vargs } :=
  ⟨h.aliases, h.bridge, rfl, h.limit, h.scopes, h.heads, h.entries, h.first, h.aligned⟩

theorem withLimit (h : Twins ρ start start' P Q env env') (limit : Option Nat) :
    Twins ρ start start' P Q { env with limit } { env' with limit } :=
  ⟨h.aliases, h.bridge, h.vargs, rfl, h.scopes, h.heads, h.entries, h.first, h.aligned⟩

end Env.Twins

/-! ## What statements leave alone -/

namespace Resolver

mutual

/-- Statements only add declarations, and all scopes but the innermost stay as they are. -/
theorem stmt_pushes : ∀ {s t : Stmt} {env env' : Env}, Succeeds (stmt s) env t env' →
    env.Pushes env' ∧ env'.scopes.tail = env.scopes.tail
  | .expr e, t, env, env', h => by
    obtain ⟨_, -, -, rfl⟩ := succeeds_expr.mp h
    exact ⟨.refl _, rfl⟩
  | .decl var, t, env, env', h => by
    obtain ⟨_, hvar, -⟩ := succeeds_decl.mp h
    obtain ⟨_, _, _, -, -, -, -, rfl⟩ := succeeds_localVar.mp hvar
    refine ⟨.push env rfl, ?_⟩
    unfold Env.push
    cases env.scopes <;> rfl
  | .assign span target op value, t, env, env', h => by
    obtain ⟨_, _, -, -, -, rfl⟩ := succeeds_assign.mp h
    exact ⟨.refl _, rfl⟩
  | .ret span value, t, env, env', h => by
    obtain ⟨_, -, -, rfl⟩ := succeeds_ret.mp h
    exact ⟨.refl _, rfl⟩
  | .cond list, t, env, env', h => by
    obtain ⟨_, hlist, -⟩ := succeeds_cond.mp h
    exact branches_pushes hlist
  | .loop span cond body, t, env, env', h => by
    obtain ⟨_, _, env₁, -, hbody, -, rfl⟩ := succeeds_loop.mp h
    obtain ⟨hpushes, hscopes⟩ := stmts_pushes hbody
    exact ⟨hpushes.inside, congrArg List.tail hscopes⟩
  | .block span body, t, env, env', h => by
    obtain ⟨_, env₁, hbody, -, rfl⟩ := succeeds_block.mp h
    obtain ⟨hpushes, hscopes⟩ := stmts_pushes hbody
    exact ⟨hpushes.inside, congrArg List.tail hscopes⟩
termination_by structural s => s

theorem stmts_pushes : ∀ {ss ts : List Stmt} {env env' : Env}, Succeeds (stmts ss) env ts env' →
    env.Pushes env' ∧ env'.scopes.tail = env.scopes.tail
  | [], ts, env, env', h => by
    obtain ⟨-, rfl⟩ := succeeds_stmts_nil.mp h
    exact ⟨.refl _, rfl⟩
  | s :: ss, ts, env, env', h => by
    obtain ⟨_, env₁, _, hs, hss, -⟩ := succeeds_stmts_cons.mp h
    obtain ⟨hpushes, hscopes⟩ := stmt_pushes hs
    obtain ⟨hpushes', hscopes'⟩ := stmts_pushes hss
    exact ⟨hpushes.trans hpushes', hscopes'.trans hscopes⟩
termination_by structural ss => ss

theorem branch_pushes : ∀ {b c : Branch} {env env' : Env}, Succeeds (branch b) env c env' →
    env.Pushes env' ∧ env'.scopes.tail = env.scopes.tail
  | .mk span g body, c, env, env', h => by
    obtain ⟨_, _, env₁, -, hbody, -, rfl⟩ := succeeds_branch.mp h
    obtain ⟨hpushes, hscopes⟩ := stmts_pushes hbody
    exact ⟨hpushes.inside, congrArg List.tail hscopes⟩
termination_by structural b => b

theorem branches_pushes : ∀ {bs cs : List Branch} {env env' : Env},
    Succeeds (branches bs) env cs env' → env.Pushes env' ∧ env'.scopes.tail = env.scopes.tail
  | [], cs, env, env', h => by
    obtain ⟨-, rfl⟩ := succeeds_branches_nil.mp h
    exact ⟨.refl _, rfl⟩
  | b :: bs, cs, env, env', h => by
    obtain ⟨_, env₁, _, hb, hbs, -⟩ := succeeds_branches_cons.mp h
    obtain ⟨hpushes, hscopes⟩ := branch_pushes hb
    obtain ⟨hpushes', hscopes'⟩ := branches_pushes hbs
    exact ⟨hpushes.trans hpushes', hscopes'.trans hscopes⟩
termination_by structural bs => bs

end

theorem declareParams_pushes {ps : List Param} {tys : List Ty} {env env' : Env}
    (h : Succeeds (declareParams ps tys) env () env') :
    env.Pushes env' ∧ env'.scopes.tail = env.scopes.tail := by
  induction ps generalizing tys env with
  | nil =>
    obtain ⟨-, rfl⟩ := succeeds_pure.mp h
    exact ⟨.refl _, rfl⟩
  | cons p ps ih =>
    cases tys with
    | nil =>
      obtain ⟨-, rfl⟩ := succeeds_pure.mp h
      exact ⟨.refl _, rfl⟩
    | cons ty tys =>
      obtain ⟨-, h⟩ := succeeds_declareParams_cons.mp h
      obtain ⟨hpushes, hscopes⟩ := ih h
      refine ⟨(Env.Pushes.push env rfl).trans hpushes, hscopes.trans ?_⟩
      unfold Env.push
      cases env.scopes <;> rfl

end Resolver

theorem Env.Pushes.length_le {env env' : Env} (h : env.Pushes env') :
    env.context.decls.length ≤ env'.context.decls.length := by
  obtain ⟨added, hadded, -⟩ := h.decls
  rw [hadded, List.length_append]
  omega

/-- The renumbering moves the numbers from `start` to `stop` so that `start` becomes `start'`. -/
def Moves (ρ : Equiv.Perm Nat) (start start' stop : Nat) : Prop :=
  ∀ x, start ≤ x → x < stop → ρ x + start = x + start'

/-! ## Statements -/

namespace Resolver

variable {ρ : Equiv.Perm DeclId} {start start' stop : Nat} {P : DeclId → Prop} {Q : String → Prop}

theorem localVar_twins (hmoves : Moves ρ start start' stop) (hQ : ∀ name, Q name)
    {var var₁ : VarDecl} {env env₁ env' : Env} (h : Succeeds (localVar var) env var₁ env₁)
    (hstop : env₁.context.decls.length ≤ stop) (ht : Env.Twins ρ start start' P Q env env') :
    ∃ env₁', Succeeds (localVar var) env' (var₁.refill (.renumber ρ)) env₁' ∧
      Env.Twins ρ start start' P Q env₁ env₁' := by
  obtain ⟨ty, varTy, init, hty, hinit, htaken, rfl, rfl⟩ := succeeds_localVar.mp h
  have hconcurs := ht.concurs hQ
  have hnew : ρ env.context.decls.length + start = env.context.decls.length + start' := by
    refine hmoves _ ht.first (Nat.lt_of_lt_of_le ?_ hstop)
    simp [Env.push]
  have hnumber : env'.context.decls.length = ρ env.context.decls.length :=
    Nat.add_right_cancel (ht.aligned.trans hnew.symm)
  refine ⟨_, succeeds_localVar.mpr ⟨ty, varTy, _, ?_, hconcurs.expr? hinit, ?_, ?_, rfl⟩,
    ht.push rfl hnew⟩
  · rw [ht.aliases.annotateReport, hty]
  · rw [ht.isTaken (hQ _), htaken]
  · rw [hnumber]
    rfl

mutual

/-- A statement is resolved to the same statement under other numbers. -/
theorem stmt_twins (hmoves : Moves ρ start start' stop) (hQ : ∀ name, Q name) :
    ∀ {s t : Stmt} {env env₁ env' : Env}, Succeeds (stmt s) env t env₁ →
      env₁.context.decls.length ≤ stop → Env.Twins ρ start start' P Q env env' →
      ∃ env₁', Succeeds (stmt s) env' (t.refill (.renumber ρ)) env₁' ∧
        Env.Twins ρ start start' P Q env₁ env₁'
  | .expr e, t, env, env₁, env', h, hstop, ht => by
    obtain ⟨e', he, rfl, rfl⟩ := succeeds_expr.mp h
    exact ⟨env', succeeds_expr.mpr ⟨_, (ht.concurs hQ).expr he, rfl, rfl⟩, ht⟩
  | .decl var, t, env, env₁, env', h, hstop, ht => by
    obtain ⟨var₁, hvar, rfl⟩ := succeeds_decl.mp h
    obtain ⟨env₁', hvar', ht'⟩ := localVar_twins hmoves hQ hvar hstop ht
    exact ⟨env₁', succeeds_decl.mpr ⟨_, hvar', rfl⟩, ht'⟩
  | .assign span target op value, t, env, env₁, env', h, hstop, ht => by
    obtain ⟨target', value', htarget, hvalue, rfl, rfl⟩ := succeeds_assign.mp h
    have hconcurs := ht.concurs hQ
    exact ⟨env', succeeds_assign.mpr
      ⟨_, _, hconcurs.value htarget, hconcurs.expr hvalue, rfl, rfl⟩, ht⟩
  | .ret span value, t, env, env₁, env', h, hstop, ht => by
    obtain ⟨value', hvalue, rfl, rfl⟩ := succeeds_ret.mp h
    exact ⟨env', succeeds_ret.mpr ⟨_, (ht.concurs hQ).expr? hvalue, rfl, rfl⟩, ht⟩
  | .cond list, t, env, env₁, env', h, hstop, ht => by
    obtain ⟨list', hlist, rfl⟩ := succeeds_cond.mp h
    obtain ⟨env₁', hlist', ht'⟩ := branches_twins hmoves hQ hlist hstop ht
    exact ⟨env₁', succeeds_cond.mpr ⟨_, hlist', rfl⟩, ht'⟩
  | .loop span cond body, t, env, env₁, env', h, hstop, ht => by
    obtain ⟨cond', body', env₂, hcond, hbody, rfl, rfl⟩ := succeeds_loop.mp h
    obtain ⟨env₂', hbody', ht'⟩ := stmts_twins hmoves hQ hbody hstop ht.enter
    exact ⟨_, succeeds_loop.mpr
      ⟨_, _, env₂', (ht.concurs hQ).expr hcond, hbody', rfl, rfl⟩, ht'.leave⟩
  | .block span body, t, env, env₁, env', h, hstop, ht => by
    obtain ⟨body', env₂, hbody, rfl, rfl⟩ := succeeds_block.mp h
    obtain ⟨env₂', hbody', ht'⟩ := stmts_twins hmoves hQ hbody hstop ht.enter
    exact ⟨_, succeeds_block.mpr ⟨_, env₂', hbody', rfl, rfl⟩, ht'.leave⟩
termination_by structural s => s

theorem stmts_twins (hmoves : Moves ρ start start' stop) (hQ : ∀ name, Q name) :
    ∀ {ss ts : List Stmt} {env env₁ env' : Env}, Succeeds (stmts ss) env ts env₁ →
      env₁.context.decls.length ≤ stop → Env.Twins ρ start start' P Q env env' →
      ∃ env₁', Succeeds (stmts ss) env' (Stmt.refillEach (.renumber ρ) ts) env₁' ∧
        Env.Twins ρ start start' P Q env₁ env₁'
  | [], ts, env, env₁, env', h, hstop, ht => by
    obtain ⟨rfl, rfl⟩ := succeeds_stmts_nil.mp h
    exact ⟨env', succeeds_stmts_nil.mpr ⟨rfl, rfl⟩, ht⟩
  | s :: ss, ts, env, env₁, env', h, hstop, ht => by
    obtain ⟨t, env₂, ts, hs, hss, rfl⟩ := succeeds_stmts_cons.mp h
    have hle := (stmts_pushes hss).1.length_le
    obtain ⟨env₂', hs', ht₂⟩ := stmt_twins hmoves hQ hs (Nat.le_trans hle hstop) ht
    obtain ⟨env₁', hss', ht₁⟩ := stmts_twins hmoves hQ hss hstop ht₂
    exact ⟨env₁', succeeds_stmts_cons.mpr ⟨_, env₂', _, hs', hss', rfl⟩, ht₁⟩
termination_by structural ss => ss

theorem branch_twins (hmoves : Moves ρ start start' stop) (hQ : ∀ name, Q name) :
    ∀ {b c : Branch} {env env₁ env' : Env}, Succeeds (branch b) env c env₁ →
      env₁.context.decls.length ≤ stop → Env.Twins ρ start start' P Q env env' →
      ∃ env₁', Succeeds (branch b) env' (c.refill (.renumber ρ)) env₁' ∧
        Env.Twins ρ start start' P Q env₁ env₁'
  | .mk span g body, c, env, env₁, env', h, hstop, ht => by
    obtain ⟨g', body', env₂, hg, hbody, rfl, rfl⟩ := succeeds_branch.mp h
    obtain ⟨env₂', hbody', ht'⟩ := stmts_twins hmoves hQ hbody hstop ht.enter
    exact ⟨_, succeeds_branch.mpr
      ⟨_, _, env₂', (ht.concurs hQ).guard hg, hbody', rfl, rfl⟩, ht'.leave⟩
termination_by structural b => b

theorem branches_twins (hmoves : Moves ρ start start' stop) (hQ : ∀ name, Q name) :
    ∀ {bs cs : List Branch} {env env₁ env' : Env}, Succeeds (branches bs) env cs env₁ →
      env₁.context.decls.length ≤ stop → Env.Twins ρ start start' P Q env env' →
      ∃ env₁', Succeeds (branches bs) env' (Branch.refillEach (.renumber ρ) cs) env₁' ∧
        Env.Twins ρ start start' P Q env₁ env₁'
  | [], cs, env, env₁, env', h, hstop, ht => by
    obtain ⟨rfl, rfl⟩ := succeeds_branches_nil.mp h
    exact ⟨env', succeeds_branches_nil.mpr ⟨rfl, rfl⟩, ht⟩
  | b :: bs, cs, env, env₁, env', h, hstop, ht => by
    obtain ⟨c, env₂, cs, hb, hbs, rfl⟩ := succeeds_branches_cons.mp h
    have hle := (branches_pushes hbs).1.length_le
    obtain ⟨env₂', hb', ht₂⟩ := branch_twins hmoves hQ hb (Nat.le_trans hle hstop) ht
    obtain ⟨env₁', hbs', ht₁⟩ := branches_twins hmoves hQ hbs hstop ht₂
    exact ⟨env₁', succeeds_branches_cons.mpr ⟨_, env₂', _, hb', hbs', rfl⟩, ht₁⟩
termination_by structural bs => bs

end

end Resolver

end KilnLang
