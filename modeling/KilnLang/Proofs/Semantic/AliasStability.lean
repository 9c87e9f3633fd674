import KilnLang.Proofs.Semantic.AliasCycles
import KilnLang.Proofs.Semantic.AliasSources

/-!
# Names keep their types

**Theorem (`naming_keeps_type`).** A name for a type expression stands for the type that the
expression had before it was named, and fails as the expression did.

**Theorem (`results_survive_definitions`).** What names and type expressions stand for does not
change when more is defined, be it with success or without. Only a result that failed at an unknown
name can change, once that name is defined.

Both follow from one comparison (`follow_persists`). Where a table grows to one without cycles, a
name is followed along the same path in both, up to the first name that is an alias in the second
table only. Comparing a table with itself shows that the depth and the names on the way do not
matter (`Acyclic.follow_eq_resolve`), so a name is resolved one alias at a time
(`Acyclic.resolve_eq`).
-/

namespace KilnLang

/-! ## Annotating with two look-ups -/

/-- The second result is the first one, unless the first is an error in `P`. -/
def Persists (P : AliasError → Prop) (before after : Except AliasError Ty) : Prop :=
  after = before ∨ ∃ e, before = .error e ∧ P e

namespace TypeExpr

variable {look look' : DottedName → Except AliasError Ty} {P : AliasError → Prop}

mutual

/-- If every name gives the same result in both look-ups or fails in the first, then so does the
type expression. -/
theorem annotateWith_persists : ∀ {t : TypeExpr},
    (∀ n : DottedName, n.text ∈ t.names → Persists P (look n) (look' n)) →
    t.annotateWith look' = t.annotateWith look ∨ ∃ e, (t.annotateWith look).2 = .error e ∧ P e
  | .named name, hlook => by
    rcases hlook name (List.mem_singleton_self _) with heq | ⟨e, he, hP⟩
    · exact .inl (by rw [annotateWith, annotateWith, heq])
    · exact .inr ⟨e, by rw [annotateWith, he], hP⟩
  | .ref span inner, hlook => by
    rcases annotateWith_persists (t := inner) hlook with heq | ⟨e, he, hP⟩
    · exact .inl (by rw [annotateWith, annotateWith, heq])
    · exact .inr ⟨e, congrArg (Except.map Ty.ref) he, hP⟩
  | .array span elem length, hlook => by
    rcases annotateWith_persists (t := elem) hlook with heq | ⟨e, he, hP⟩
    · exact .inl (by rw [annotateWith, annotateWith, heq])
    · exact .inr ⟨e, congrArg (Except.map (Ty.array · length)) he, hP⟩
  | .func span sig, hlook => by
    rcases annotateSignature_persists (s := sig) hlook with heq | ⟨e, he, hP⟩
    · exact .inl (by rw [annotateWith, annotateWith, heq])
    · exact .inr ⟨e, congrArg (Except.map Ty.func) he, hP⟩

theorem annotateSignature_persists : ∀ {s : Signature TypeExpr},
    (∀ n : DottedName, n.text ∈ namesSignature s → Persists P (look n) (look' n)) →
    annotateSignature look' s = annotateSignature look s ∨
      ∃ e, (annotateSignature look s).2 = .error e ∧ P e
  | ⟨ret, params, rest⟩, hlook => by
    simp only [namesSignature, List.mem_append] at hlook
    have hret := annotateWith_persists (t := ret) fun n hn => hlook n (.inl (.inl hn))
    have hparams := annotateEach_persists fun n (hn : n.text ∈ namesEach params) =>
      hlook n (.inl (.inr hn))
    have hrest := annotateRest_persists fun n (hn : n.text ∈ namesRest rest) => hlook n (.inr hn)
    -- The first part that fails decides, and the parts after it are not looked at.
    rw [annotateSignature, annotateSignature]
    rcases hr : annotateWith look ret with ⟨ret', e₁ | retTy⟩
    · rcases hret with heq | ⟨e, he, hP⟩
      · exact .inl (by rw [heq, hr])
      · rw [hr] at he
        cases he
        exact .inr ⟨_, rfl, hP⟩
    obtain heq | ⟨e, he, -⟩ := hret
    swap
    · exact nomatch (congrArg Prod.snd hr).symm.trans he
    rw [heq, hr]
    rcases hp : annotateEach look params with ⟨params', e₁ | paramTys⟩
    · rcases hparams with heq | ⟨e, he, hP⟩
      · exact .inl (by rw [heq, hp])
      · rw [hp] at he
        cases he
        exact .inr ⟨_, rfl, hP⟩
    obtain heq | ⟨e, he, -⟩ := hparams
    swap
    · exact nomatch (congrArg Prod.snd hp).symm.trans he
    rw [heq, hp]
    rcases hrest with heq | ⟨e, he, hP⟩
    · exact .inl (by rw [heq])
    · rcases hv : annotateRest look rest with ⟨rest', e₁ | restTy⟩
      · rw [hv] at he
        cases he
        exact .inr ⟨_, rfl, hP⟩
      · exact nomatch (congrArg Prod.snd hv).symm.trans he

theorem annotateEach_persists : ∀ {ts : List TypeExpr},
    (∀ n : DottedName, n.text ∈ namesEach ts → Persists P (look n) (look' n)) →
    annotateEach look' ts = annotateEach look ts ∨ ∃ e, (annotateEach look ts).2 = .error e ∧ P e
  | [], _ => .inl rfl
  | t :: ts, hlook => by
    simp only [namesEach, List.mem_append] at hlook
    have hhead := annotateWith_persists (t := t) fun n hn => hlook n (.inl hn)
    have htail := annotateEach_persists fun n (hn : n.text ∈ namesEach ts) => hlook n (.inr hn)
    rw [annotateEach, annotateEach]
    rcases ht : annotateWith look t with ⟨t', e₁ | ty⟩
    · rcases hhead with heq | ⟨e, he, hP⟩
      · exact .inl (by rw [heq, ht])
      · rw [ht] at he
        cases he
        exact .inr ⟨_, rfl, hP⟩
    obtain heq | ⟨e, he, -⟩ := hhead
    swap
    · exact nomatch (congrArg Prod.snd ht).symm.trans he
    rw [heq, ht]
    rcases htail with heq | ⟨e, he, hP⟩
    · exact .inl (by rw [heq])
    · exact .inr ⟨e, congrArg (Except.map (ty :: ·)) he, hP⟩

theorem annotateRest_persists : ∀ {rest : Rest TypeExpr},
    (∀ n : DottedName, n.text ∈ namesRest rest → Persists P (look n) (look' n)) →
    annotateRest look' rest = annotateRest look rest ∨
      ∃ e, (annotateRest look rest).2 = .error e ∧ P e
  | .none, _ => .inl rfl
  | .untyped, _ => .inl rfl
  | .typed elem, hlook => by
    rcases annotateWith_persists (t := elem) hlook with heq | ⟨e, he, hP⟩
    · exact .inl (by rw [annotateRest, annotateRest, heq])
    · exact .inr ⟨e, congrArg (Except.map Rest.typed) he, hP⟩

end

end TypeExpr

namespace AliasTable

variable {t t' : AliasTable} {name : String} {span : Span}

/-! ## Growing tables -/

/-- The second table has all aliases of the first. -/
def Grows (t t' : AliasTable) : Prop :=
  ∀ name entry, t.lookup? name = some entry → t'.lookup? name = some entry

namespace Grows

theorem refl (t : AliasTable) : t.Grows t := fun _ _ h => h

theorem trans {t'' : AliasTable} (h : t.Grows t') (h' : t'.Grows t'') : t.Grows t'' :=
  fun name entry hentry => h' name entry (h name entry hentry)

theorem kind? (h : t.Grows t') {kind : AliasKind} (hkind : t.kind? name = some kind) :
    t'.kind? name = some kind := by
  unfold AliasTable.kind? at hkind ⊢
  split
  · rwa [if_pos ‹_›] at hkind
  · rw [if_neg ‹_›, Option.map_eq_some_iff] at hkind
    obtain ⟨entry, hentry, rfl⟩ := hkind
    rw [h name entry hentry, Option.map_some]

theorem leads (h : t.Grows t') {a b : String} (hab : t.Leads a b) : t'.Leads a b := by
  unfold Leads mentions at hab ⊢
  cases hentry : t.lookup? a with
  | none => simp [hentry] at hab
  | some entry =>
    rw [hentry] at hab
    rwa [h a entry hentry]

theorem acyclic (h : t.Grows t') (h' : t'.Acyclic) : t.Acyclic :=
  fun name hcycle => h' name (Relation.TransGen.mono (fun _ _ hab => h.leads hab) _ _ hcycle)

end Grows

theorem lookup?_eq_none_of_contains (h : t.contains name = false) : t.lookup? name = none := by
  unfold contains kind? at h
  split at h
  · simp at h
  · simpa using h

theorem grows_extend {target : AliasTarget} {kind : AliasKind} (hfree : t.contains name = false) :
    t.Grows (t.extend name target kind span) := by
  intro other entry hentry
  rw [lookup?_extend, if_neg, hentry]
  rintro rfl
  exact nomatch (lookup?_eq_none_of_contains hfree).symm.trans hentry

/-- A definition loses no alias, even if it is refused. -/
theorem grows_perform (t : AliasTable) (d : Definition) : t.Grows (t.perform d).2 := by
  obtain ⟨-, heq⟩ | ⟨-, _, -, heq⟩ | ⟨hfree, -, heq⟩ := t.perform_cases d
  · rw [heq]
    exact .refl t
  · rw [heq]
    exact .refl t
  · rw [heq]
    exact grows_extend hfree

theorem grows_afterEach (t : AliasTable) (ds : List Definition) : t.Grows (t.afterEach ds) := by
  induction ds generalizing t with
  | nil => exact .refl t
  | cons d ds ih => exact (t.grows_perform d).trans (ih (t.perform d).2)

/-! ## Following names in both tables -/

/-- The error is an unknown name that the start leads to, and that is an alias in the second table
only. -/
def BecomesKnown (t t' : AliasTable) (start : String) (e : AliasError) : Prop :=
  ∃ name span, e = .unknown name span ∧ Relation.ReflTransGen t.Leads start name ∧
    t.contains name = false ∧ t'.contains name = true

theorem BecomesKnown.head {start next : String} {e : AliasError} (hstep : t.Leads start next)
    (h : t.BecomesKnown t' next e) : t.BecomesKnown t' start e := by
  obtain ⟨name, span, rfl, hway, hbefore, hafter⟩ := h
  exact ⟨name, span, rfl, hway.head hstep, hbefore, hafter⟩

theorem not_becomesKnown_self {start : String} {e : AliasError} : ¬ t.BecomesKnown t start e := by
  rintro ⟨name, span, -, -, hbefore, hafter⟩
  exact Bool.false_ne_true (hbefore.symm.trans hafter)

/-- A name that is nothing is unknown at any depth. -/
theorem follow_of_not_contains {depth : Nat} {visiting : List String}
    (h : t.contains name = false) :
    t.follow (depth + 1) visiting name span = .error (.unknown name span) := by
  have hentry := lookup?_eq_none_of_contains h
  have hbuiltin : Builtin.find? name = none := by
    cases hfind : Builtin.find? name with
    | none => rfl
    | some p => simp [contains, kind?, Builtin.isBuiltin, hfind] at h
  rw [follow, hbuiltin]
  simp only [hentry]

/-- Where a type is due, constants are refused; the kind of a name can only change if the name was
nothing. -/
theorem persists_unless_value (hgrows : t.Grows t') {before after : Except AliasError Ty}
    {P : AliasError → Prop} (hknown : ∀ e, t.BecomesKnown t' name e → P e)
    (hunknown : t.contains name = false → before = .error (.unknown name span))
    (hpersists : Persists P before after) :
    Persists P (if t.kind? name = some .value then .error (.notAType name span) else before)
      (if t'.kind? name = some .value then .error (.notAType name span) else after) := by
  cases hkind : t.kind? name with
  | some kind =>
    rw [hgrows.kind? hkind]
    split
    · exact .inl rfl
    · exact hpersists
  | none =>
    have hbefore : t.contains name = false := by simp [contains, hkind]
    rw [if_neg (by simp)]
    cases hafter : t'.contains name with
    | true =>
      exact .inr ⟨_, hunknown hbefore, hknown _ ⟨name, span, rfl, .refl, hbefore, hafter⟩⟩
    | false =>
      have hnone : t'.kind? name = none := by simpa [contains] using hafter
      rw [if_neg (by simp [hnone])]
      exact hpersists

/-- In a table that grows, a name leads to the same type or fails in the same way, unless the path
ends at a name that becomes known. Neither the depth nor the names on the way here matter. -/
theorem follow_persists (hgrows : t.Grows t') (hacyclic : t'.Acyclic) {depth depth' : Nat}
    {visiting visiting' : List String} (hroomy : t.Roomy depth visiting name)
    (hroomy' : t'.Roomy depth' visiting' name) :
    Persists (t.BecomesKnown t' name) (t.follow depth visiting name span)
      (t'.follow depth' visiting' name span) := by
  have hacyclic₀ := hgrows.acyclic hacyclic
  induction depth generalizing depth' visiting visiting' name span with
  | zero => exact absurd rfl hroomy.depth_ne_zero
  | succ depth ih =>
    obtain ⟨depth', rfl⟩ := Nat.exists_eq_succ_of_ne_zero hroomy'.depth_ne_zero
    have hnext : ∀ {next : String} {place : Span}, t.Leads name next →
        Persists (t.BecomesKnown t' name) (t.follow depth (visiting ++ [name]) next place)
          (t'.follow depth' (visiting' ++ [name]) next place) := by
      intro next place hstep
      rcases ih (hroomy.step hacyclic₀ hstep) (hroomy'.step hacyclic (hgrows.leads hstep)) with
        heq | ⟨e, he, hknown⟩
      · exact .inl heq
      · exact .inr ⟨e, he, hknown.head hstep⟩
    -- A name that is unknown in the first table is all that can make a difference.
    cases hcontains : t.contains name with
    | false =>
      cases hcontains' : t'.contains name with
      | false =>
        rw [follow_of_not_contains hcontains, follow_of_not_contains hcontains']
        exact .inl rfl
      | true =>
        exact .inr ⟨_, follow_of_not_contains hcontains,
          name, span, rfl, .refl, hcontains, hcontains'⟩
    | true =>
      rw [follow, follow]
      cases hbuiltin : Builtin.find? name with
      | some p => exact .inl rfl
      | none =>
        obtain ⟨entry, hentry⟩ : ∃ entry, t.lookup? name = some entry := by
          simpa [contains, kind?, Builtin.isBuiltin, hbuiltin, Option.isSome_iff_exists] using
            hcontains
        have hfresh : visiting.contains name = false := by simpa using hroomy.fresh hacyclic₀
        have hfresh' : visiting'.contains name = false := by simpa using hroomy'.fresh hacyclic
        simp only [hentry, hgrows name entry hentry, hfresh, hfresh', Bool.false_eq_true, if_false]
        cases htarget : entry.target with
        | terminal ty => exact .inl rfl
        | name next place =>
          exact hnext (leads_of_lookup? hentry (by rw [htarget]; exact List.mem_singleton_self _))
        | composite expr =>
          have hlook : ∀ n : DottedName, n.text ∈ expr.names →
              Persists (t.BecomesKnown t' name) (t.followType depth (visiting ++ [name]) n)
                (t'.followType depth' (visiting' ++ [name]) n) := by
            intro n hn
            have hstep : t.Leads name n.text :=
              leads_of_lookup? hentry (by rw [htarget]; exact hn)
            -- Following an unknown name fails at once, however much depth is left.
            have hunknown : t.contains n.text = false →
                t.follow depth (visiting ++ [name]) n.text n.span =
                  .error (.unknown n.text n.span) := by
              obtain ⟨d, rfl⟩ := Nat.exists_eq_succ_of_ne_zero
                (hroomy.step hacyclic₀ hstep).depth_ne_zero
              exact follow_of_not_contains
            exact persists_unless_value hgrows (fun e he => he.head hstep) hunknown (hnext hstep)
          exact (TypeExpr.annotateWith_persists hlook).imp_left (congrArg Prod.snd)

/-! ## Resolving one alias at a time -/

theorem Acyclic.follow_eq_resolve (h : t.Acyclic) {depth : Nat} {visiting : List String}
    (hroomy : t.Roomy depth visiting name) :
    t.follow depth visiting name span = t.resolve name span := by
  rcases follow_persists (.refl t) h (.start t name) hroomy with heq | ⟨e, -, hknown⟩
  · exact heq
  · exact absurd hknown not_becomesKnown_self

theorem resolve_of_not_contains (h : t.contains name = false) :
    t.resolve name span = .error (.unknown name span) :=
  follow_of_not_contains h

theorem resolve_builtin {p : Primitive} (h : Builtin.find? name = some p) :
    t.resolve name span = .ok (.prim p) := by
  rw [resolve, follow, h]

/-- An alias stands for what its target stands for. -/
theorem Acyclic.resolve_eq (h : t.Acyclic) {entry : AliasEntry}
    (hbuiltin : Builtin.find? name = none) (hentry : t.lookup? name = some entry) :
    t.resolve name span = match entry.target with
      | .terminal ty => .ok ty
      | .name next place => t.resolve next place
      | .composite expr => (t.annotate expr).2 := by
  have hroomy := Roomy.start t name
  have hnext : ∀ {next : String} {place : Span}, next ∈ entry.target.names →
      t.follow t.size ([] ++ [name]) next place = t.resolve next place := fun hmem =>
    h.follow_eq_resolve (hroomy.step h (leads_of_lookup? hentry hmem))
  rw [resolve, follow, hbuiltin]
  simp only [hentry, List.contains_nil, Bool.false_eq_true, if_false]
  cases htarget : entry.target with
  | terminal ty => rfl
  | name next place =>
    exact hnext (by rw [htarget]; exact List.mem_singleton_self _)
  | composite expr =>
    have hlook : ∀ n : DottedName, n.text ∈ expr.names → Persists (fun _ => False)
        (t.resolveType n.text n.span) (t.followType t.size ([] ++ [name]) n) := by
      intro n hn
      refine .inl ?_
      unfold followType resolveType
      rw [hnext (by rw [htarget]; exact hn)]
    rcases TypeExpr.annotateWith_persists hlook with heq | ⟨e, -, hfalse⟩
    · exact congrArg Prod.snd heq
    · exact hfalse.elim

/-! ## Results after more definitions -/

theorem resolve_persists (hgrows : t.Grows t') (hacyclic : t'.Acyclic) (name : String)
    (span : Span) :
    Persists (t.BecomesKnown t' name) (t.resolve name span) (t'.resolve name span) :=
  follow_persists hgrows hacyclic (.start t name) (.start t' name)

theorem resolveType_persists (hgrows : t.Grows t') (hacyclic : t'.Acyclic) (name : String)
    (span : Span) :
    Persists (t.BecomesKnown t' name) (t.resolveType name span) (t'.resolveType name span) :=
  persists_unless_value hgrows (fun _ h => h) resolve_of_not_contains
    (resolve_persists hgrows hacyclic name span)

theorem annotate_persists (hgrows : t.Grows t') (hacyclic : t'.Acyclic) (expr : TypeExpr) :
    t'.annotate expr = t.annotate expr ∨
      ∃ e, (t.annotate expr).2 = .error e ∧ ∃ start ∈ expr.names, t.BecomesKnown t' start e :=
  TypeExpr.annotateWith_persists fun n hn =>
    (resolveType_persists hgrows hacyclic n.text n.span).imp_right fun ⟨e, he, hknown⟩ =>
      ⟨e, he, n.text, hn, hknown⟩

end AliasTable

/-! ## Naming a type -/

open AliasTable in
/-- **Naming a type does not change it.** After any definitions, a name that is defined for a type
expression stands for what the expression stood for before: the same type, or the same error with
the same name and place. -/
theorem naming_keeps_type (ds : List Definition) {expr : TypeExpr} {name : String} {span : Span}
    {t : AliasTable}
    (h : (empty.afterEach ds).define name (.composite expr) .type span = .ok t) (place : Span) :
    t.resolveType name place = ((empty.afterEach ds).annotate expr).2 := by
  obtain ⟨hfree, hcycle, rfl⟩ := define_eq_ok_iff.mp h
  generalize hold : empty.afterEach ds = old at hfree hcycle ⊢
  have hacyclic : (old.extend name (.composite expr) .type span).Acyclic :=
    Acyclic.extendedBy (hold ▸ acyclic_afterEach ds acyclic_empty)
      (d := ⟨name, .composite expr, .type, span⟩) hcycle
  have hgrows : old.Grows (old.extend name (.composite expr) .type span) := grows_extend hfree
  -- A name that can be defined is no builtin, so the table gives the new entry for it.
  have hbuiltin : Builtin.find? name = none := by
    simpa [contains_iff, Builtin.isBuiltin] using fun hsome =>
      Bool.false_ne_true (hfree.symm.trans (contains_iff.mpr (.inl hsome)))
  have hentry : (old.extend name (.composite expr) .type span).lookup? name =
      some ⟨.composite expr, .type, span⟩ := by rw [lookup?_extend, if_pos rfl]
  have hkind : (old.extend name (.composite expr) .type span).kind? name = some .type := by
    unfold kind? Builtin.isBuiltin
    simp [hbuiltin, hentry]
  rw [resolveType, if_neg (by simp [hkind]), hacyclic.resolve_eq hbuiltin hentry]
  rcases annotate_persists hgrows hacyclic expr with heq | ⟨e, -, start, hstart, hknown⟩
  · exact congrArg Prod.snd heq
  · -- The name that becomes known is the new one, but the expression does not lead to it.
    obtain ⟨other, _, -, hway, hbefore, hafter⟩ := hknown
    rw [contains_extend, hbefore, Bool.or_false, beq_iff_eq] at hafter
    subst hafter
    exact absurd ((transGen_extendedBy_iff (d := ⟨_, .composite expr, .type, span⟩) hfree).mpr
      ⟨start, hstart, hway⟩) hcycle

/-- A plain name in a type expression. -/
def TypeExpr.plain (name : String) (span : Span) : TypeExpr := .named ⟨span, [⟨name, span⟩], none⟩

/-- `num` is defined before the `word` that it names, and nothing is called `missing`. -/
def numDefinitions : List Definition := [
  ⟨"num", .name "word" ⟨0, 6, 10⟩, .type, ⟨0, 11, 14⟩⟩,
  ⟨"word", .composite (.ref ⟨0, 21, 28⟩ (.plain "int" ⟨0, 25, 28⟩)), .type, ⟨0, 29, 33⟩⟩]

/-- `func<num(str, word...)>` -/
def numFunction : TypeExpr :=
  .func ⟨0, 40, 60⟩
    ⟨.plain "num" ⟨0, 45, 48⟩, [.plain "str" ⟨0, 49, 52⟩], .typed (.plain "word" ⟨0, 53, 57⟩)⟩

/-- `missing[]` -/
def missingList : TypeExpr := .array ⟨0, 40, 49⟩ (.plain "missing" ⟨0, 40, 47⟩) none

/-- A function type is named, and an array of something unknown. -/
theorem named_function_keeps_type :
    (∃ t, (AliasTable.empty.afterEach numDefinitions).define "fn" (.composite numFunction) .type
        ⟨0, 61, 63⟩ = .ok t ∧
      t.resolveType "fn" ⟨0, 70, 72⟩ =
        .ok (.func ⟨.ref .int, [.prim .str], .typed (.ref .int)⟩)) ∧
    ∃ t, (AliasTable.empty.afterEach numDefinitions).define "list" (.composite missingList) .type
        ⟨0, 50, 54⟩ = .ok t ∧
      t.resolveType "list" ⟨0, 70, 74⟩ = .error (.unknown "missing" ⟨0, 40, 47⟩) :=
  ⟨⟨_, rfl, (@naming_keeps_type numDefinitions numFunction "fn" ⟨0, 61, 63⟩ _ rfl _).trans rfl⟩,
    _, rfl, (@naming_keeps_type numDefinitions missingList "list" ⟨0, 50, 54⟩ _ rfl _).trans rfl⟩

/-! ## Defining more -/

namespace AliasTable

/-- The result of the first table is also that of the second, unless it failed at an unknown name
that the second table knows. -/
def Survives (t t' : AliasTable) (before after : Except AliasError Ty) : Prop :=
  (∀ ty, before = .ok ty → after = .ok ty) ∧
    (after ≠ before → ∃ name span, before = .error (.unknown name span) ∧
      t.contains name = false ∧ t'.contains name = true)

variable {t t' : AliasTable} {before after : Except AliasError Ty}

theorem survives_of_persists
    (h : after = before ∨ ∃ e, before = .error e ∧ ∃ start, t.BecomesKnown t' start e) :
    t.Survives t' before after := by
  rcases h with rfl | ⟨e, rfl, _, name, span, rfl, -, hbefore, hafter⟩
  · exact ⟨fun _ h => h, fun h => absurd rfl h⟩
  · exact ⟨nofun, fun _ => ⟨name, span, rfl, hbefore, hafter⟩⟩

end AliasTable

open AliasTable in
/-- **Results survive later definitions.** Whatever is defined after the definitions `ds`, with
success or without: a name or a type expression that stands for a type stands for it afterwards,
with the same annotations, and a failure can only change if it was an unknown name that has been
defined since. -/
theorem results_survive_definitions (ds more : List Definition) :
    let t := empty.afterEach ds
    let t' := t.afterEach more
    (∀ name span, t.Survives t' (t.resolve name span) (t'.resolve name span)) ∧
    (∀ name span, t.Survives t' (t.resolveType name span) (t'.resolveType name span)) ∧
    ∀ expr, t.Survives t' (t.annotate expr).2 (t'.annotate expr).2 ∧
      ∀ expr' ty, t.annotate expr = (expr', .ok ty) → t'.annotate expr = (expr', .ok ty) := by
  intro t t'
  have hgrows : t.Grows t' := t.grows_afterEach more
  have hacyclic : t'.Acyclic := acyclic_afterEach more (acyclic_afterEach ds acyclic_empty)
  refine ⟨fun name span => survives_of_persists ?_, fun name span => survives_of_persists ?_,
    fun expr => ⟨survives_of_persists ?_, fun expr' ty hty => ?_⟩⟩
  · exact (resolve_persists hgrows hacyclic name span).imp_right fun ⟨e, he, hknown⟩ =>
      ⟨e, he, name, hknown⟩
  · exact (resolveType_persists hgrows hacyclic name span).imp_right fun ⟨e, he, hknown⟩ =>
      ⟨e, he, name, hknown⟩
  · exact (annotate_persists hgrows hacyclic expr).imp (congrArg Prod.snd)
      fun ⟨e, he, start, _, hknown⟩ => ⟨e, he, start, hknown⟩
  · rcases annotate_persists hgrows hacyclic expr with heq | ⟨e, he, -⟩
    · rw [heq, hty]
    · exact nomatch (congrArg Prod.snd hty).symm.trans he

/-- After `num` failed at `word`, a definition that leads back to itself is refused and `word` is
defined: `num` is known then, and `word` stays what it is when more is defined. -/
theorem num_survives_definitions :
    let before := AliasTable.empty.afterEach (numDefinitions.take 1)
    let after := AliasTable.empty.afterEach numDefinitions
    let later := after.afterEach [⟨"word", .name "num" ⟨0, 0, 0⟩, .type, ⟨0, 0, 0⟩⟩,
      ⟨"self", .name "self" ⟨0, 0, 0⟩, .type, ⟨0, 0, 0⟩⟩, ⟨"more", .terminal .int, .value, ⟨0, 0, 0⟩⟩]
    before.resolve "num" ⟨0, 0, 0⟩ = .error (.unknown "word" ⟨0, 6, 10⟩) ∧
      after.resolve "num" ⟨0, 0, 0⟩ = .ok (.ref .int) ∧ later.size = 3 ∧
      later.resolve "num" ⟨0, 0, 0⟩ = .ok (.ref .int) :=
  ⟨rfl, rfl, rfl, ((results_survive_definitions numDefinitions _).1 "num" ⟨0, 0, 0⟩).1 _ rfl⟩

end KilnLang
