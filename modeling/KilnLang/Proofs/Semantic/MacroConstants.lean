import KilnLang.Proofs.Semantic.AliasStability
import KilnLang.Proofs.Semantic.ResolvedExpressions

/-!
# The types of macro constants

**Theorem (`constants_typed_by_literals_iff`).** A name that is bound to a constant of a header has
the type of the literal that the constant leads to, and `any` if it leads to none, exactly if it
leads to no type name.

The constants that a unit knows are aliases for values (`SourceUnit.constantsFrom_known`), one for
each name, and a macro whose body would lead back to it is not among them. So from each name the
bodies form one chain, and the chain ends (`AliasTable.Acyclic.exists_end`). The type is the same
all along it (`SourceUnit.typeOf_of_reaches`), and the last name decides: it is a constant whose
body is a literal or nothing that has a type, or it is no constant. Resolving does not stop there: a
built-in type, a type name of a header or an alias of the unit gives the constant its type.
-/

namespace KilnLang

/-! ## Chains of aliases -/

namespace AliasTable

variable {t : AliasTable} {name : String} {span : Span} {ty : Ty}

/-- The type that a name leads to, `any` if there is none. -/
def typeOf (t : AliasTable) (name : String) : Ty := ((t.resolve name default).toOption).getD .any

/-- The type does not depend on the place that asks. -/
theorem Acyclic.getD_resolve (h : t.Acyclic) (name : String) (span : Span) :
    ((t.resolve name span).toOption).getD .any = t.typeOf name := by
  unfold typeOf
  cases hcontains : t.contains name with
  | false => rw [resolve_of_not_contains hcontains, resolve_of_not_contains hcontains]; rfl
  | true =>
    cases hbuiltin : Builtin.find? name with
    | some p => rw [resolve_builtin hbuiltin, resolve_builtin hbuiltin]
    | none =>
      obtain ⟨entry, hentry⟩ : ∃ entry, t.lookup? name = some entry := by
        simpa [contains, kind?, Builtin.isBuiltin, hbuiltin, Option.isSome_iff_exists] using hcontains
      rw [h.resolve_eq hbuiltin hentry, h.resolve_eq hbuiltin hentry]

/-- A name that is a type leads to it. -/
theorem Acyclic.typeOf_resolveType (h : t.Acyclic) (hty : t.resolveType name span = .ok ty) :
    t.typeOf name = ty := by
  unfold resolveType at hty
  split at hty
  · exact nomatch hty
  · rw [← h.getD_resolve name span, hty]
    rfl

theorem resolveType_builtin {p : Primitive} (h : Builtin.find? name = some p) :
    t.resolveType name span = .ok (.prim p) := by
  have hkind : t.kind? name = some .type := by
    rw [kind?, Builtin.isBuiltin, h]
    rfl
  rw [resolveType, if_neg (by simp [hkind]), resolve_builtin h]

/-- Any chain of aliases ends. -/
theorem Acyclic.exists_end (h : t.Acyclic) {R : String → String → Prop}
    (hR : ∀ a b, R a b → t.Leads a b) (name : String) :
    ∃ last, Relation.ReflTransGen R name last ∧ ∀ next, ¬ R last next := by
  have hend : ∀ depth visiting name, t.Roomy depth visiting name →
      ∃ last, Relation.ReflTransGen R name last ∧ ∀ next, ¬ R last next := by
    intro depth
    induction depth with
    | zero => exact fun visiting name hroomy => absurd rfl hroomy.depth_ne_zero
    | succ depth ih =>
      intro visiting name hroomy
      by_cases hstep : ∃ next, R name next
      · obtain ⟨next, hnext⟩ := hstep
        obtain ⟨last, hway, hlast⟩ := ih _ next (hroomy.step h (hR _ _ hnext))
        exact ⟨last, hway.head hnext, hlast⟩
      · exact ⟨name, .refl, not_exists.mp hstep⟩
  exact hend _ _ name (.start t name)

end AliasTable

/-! ## Constants of headers -/

/-- The type of the literal that a macro stands for. -/
def MacroValue.ofLiteral? : MacroValue → Option Ty
  | .str => some (.prim .str)
  | .int => some .int
  | .float => some (.prim .double)
  | .char => some (.prim .char)
  | .name _ | .other => none

/-- What a constant with this body is an alias of. -/
def MacroValue.target (span : Span) : MacroValue → AliasTarget
  | .name next => .name next span
  | body => .terminal (body.literalType?.getD .any)

/-- A header that the parts include has an object-like macro with this body. -/
def HasConstant (nodes : List Node) (name : String) (body : MacroValue) : Prop :=
  ∃ span path table, .header ⟨span, path, some table⟩ ∈ nodes ∧ .constant name body ∈ table.symbols

/-- The type of a literal, or the type that a name leads to. -/
def MacroValue.typeIn (aliases : AliasTable) : MacroValue → Ty
  | .name next => aliases.typeOf next
  | body => body.ofLiteral?.getD .any

theorem MacroValue.target_inj {span : Span} {body body' : MacroValue}
    (h : body.target span = body'.target span) : body = body' := by
  cases body <;> cases body' <;> simp_all [target, literalType?, Ty.int, Ty.any]

theorem Resolver.aliasOf?_constant (span : Span) (name : String) (body : MacroValue) :
    aliasOf? span (.constant name body) = some (body.target span, .value) := by
  cases body <;> rfl

/-- An acyclic table whose constants are macros of the headers, and which renames nothing built in.
-/
structure ConstantsFrom (nodes : List Node) (aliases : AliasTable) : Prop where
  acyclic : aliases.Acyclic
  builtin : ∀ name entry, aliases.lookup? name = some entry → Builtin.find? name = none
  constant : ∀ name entry, aliases.lookup? name = some entry → entry.kind = .value →
    ∃ body, HasConstant nodes name body ∧ entry.target = body.target entry.span

namespace ConstantsFrom

variable {nodes : List Node} {t : AliasTable}

theorem perform (h : ConstantsFrom nodes t) {d : Definition}
    (hd : d.kind = .value → ∃ body, HasConstant nodes d.name body ∧ d.target = body.target d.span) :
    ConstantsFrom nodes (t.perform d).2 := by
  obtain ⟨-, heq⟩ | ⟨-, _, -, heq⟩ | ⟨hfree, hcycle, heq⟩ := t.perform_cases d
  · rwa [heq]
  · rwa [heq]
  · rw [heq]
    have hlookup : ∀ name entry, (t.extendedBy d).lookup? name = some entry →
        (name = d.name ∧ entry = ⟨d.target, d.kind, d.span⟩) ∨ t.lookup? name = some entry := by
      intro name entry hentry
      rw [AliasTable.extendedBy, AliasTable.lookup?_extend] at hentry
      split at hentry
      · exact .inl ⟨‹_›, (Option.some.inj hentry).symm⟩
      · exact .inr hentry
    refine ⟨h.acyclic.extendedBy hcycle, fun name entry hentry => ?_, fun name entry hentry => ?_⟩
    · rcases hlookup name entry hentry with ⟨rfl, -⟩ | hold
      · simpa [AliasTable.contains_iff, Builtin.isBuiltin] using fun hsome =>
          Bool.false_ne_true (hfree.symm.trans (AliasTable.contains_iff.mpr (.inl hsome)))
      · exact h.builtin name entry hold
    · rcases hlookup name entry hentry with ⟨rfl, rfl⟩ | hold
      · exact hd
      · exact h.constant name entry hold

theorem afterEach (h : ConstantsFrom nodes t) {ds : List Definition}
    (hds : ∀ d ∈ ds, d.kind = .type) : ConstantsFrom nodes (t.afterEach ds) := by
  induction ds generalizing t with
  | nil => exact h
  | cons d ds ih =>
    obtain ⟨hd, hds⟩ := List.forall_mem_cons.mp hds
    exact ih (h.perform fun hvalue => nomatch hvalue.symm.trans hd) hds

end ConstantsFrom

namespace Resolver

/-- Adding a symbol of a header makes one definition or none. -/
theorem aliases_add_perform (span : Span) (b : Bridging) (symbol : HeaderSymbol) :
    (b.add span symbol).aliases = b.aliases ∨ ∃ target kind,
      aliasOf? span symbol = some (target, kind) ∧
        (b.add span symbol).aliases = (b.aliases.perform ⟨symbol.name, target, kind, span⟩).2 := by
  unfold Bridging.add
  dsimp only
  split
  · exact .inl rfl
  · split
    · rename_i target kind halias
      refine .inr ⟨target, kind, halias, ?_⟩
      rw [AliasTable.snd_perform]
      split <;> simp only [*]
    · exact .inl rfl
    · exact .inl rfl

theorem constantsFrom_bridgeContext (nodes : List Node) :
    ConstantsFrom nodes (bridgeContext nodes).aliases := by
  refine Bridging.addNodes_induction (P := fun b => ConstantsFrom nodes b.aliases) ?_ ?_
  · intro span path table hnode symbol hsymbol b h
    rcases aliases_add_perform span b symbol with heq | ⟨target, kind, halias, heq⟩
    · rwa [heq]
    · rw [heq]
      refine h.perform fun hvalue => ?_
      cases symbol with
      | constant name body =>
        rw [aliasOf?_constant] at halias
        cases halias
        exact ⟨body, ⟨span, path, table, hnode, hsymbol⟩, rfl⟩
      | typedef name target =>
        cases halias
        exact nomatch hvalue
      | _ => cases halias
  · exact ⟨AliasTable.acyclic_empty, nofun, nofun⟩

theorem kind_aliasDefinitions (ns : List Node) : ∀ d ∈ aliasDefinitions ns, d.kind = .type := by
  induction ns with
  | nil => exact List.forall_mem_nil _
  | cons n ns ih =>
    obtain ⟨item, rfl⟩ | hother := isAlias_cases n
    · exact List.forall_mem_cons.mpr ⟨rfl, ih⟩
    · rwa [aliasDefinitions_other hother]

end Resolver

namespace SourceUnit

variable {unit : SourceUnit} {name next : String} {body : MacroValue} {ty : Ty}

/-- The aliases of a unit never lead back to themselves, and its constants are macros of its
headers. -/
theorem constantsFrom_known (unit : SourceUnit) : ConstantsFrom unit.nodes unit.known.aliases :=
  (Resolver.constantsFrom_bridgeContext unit.nodes).afterEach
    (Resolver.kind_aliasDefinitions unit.nodes)

/-- The unit knows the object-like macro of a header with this body under its name. A macro is not
known if its name is taken before, or if its body leads back to it. -/
structure Constant (unit : SourceUnit) (name : String) (body : MacroValue) : Prop where
  offered : HasConstant unit.nodes name body
  known : ∃ span, unit.known.aliases.lookup? name = some ⟨body.target span, .value, span⟩

/-- The body of the macro is a single name. -/
def Names (unit : SourceUnit) (name next : String) : Prop := unit.Constant name (.name next)

/-- The type is that of a literal which single names lead to from a macro, and `any` if they lead to
none. -/
def TypedByLiteral (unit : SourceUnit) (name : String) (ty : Ty) : Prop :=
  (∃ last body, Relation.ReflTransGen unit.Names name last ∧ unit.Constant last body ∧
    body.ofLiteral? = some ty) ∨
  ty = .any ∧ ∀ last body, Relation.ReflTransGen unit.Names name last → unit.Constant last body →
    body.ofLiteral? = none

theorem exists_constant (h : unit.known.aliases.kind? name = some .value) :
    ∃ body, unit.Constant name body := by
  unfold AliasTable.kind? at h
  split at h
  · exact nomatch h
  · obtain ⟨⟨target, kind, span⟩, hentry, rfl⟩ := Option.map_eq_some_iff.mp h
    obtain ⟨body, hoffered, htarget⟩ := unit.constantsFrom_known.constant name _ hentry rfl
    exact ⟨body, hoffered, span, by rw [hentry, ← htarget]⟩

namespace Constant

theorem unique {body' : MacroValue} (h : unit.Constant name body) (h' : unit.Constant name body') :
    body = body' := by
  obtain ⟨span, hentry⟩ := h.known
  obtain ⟨span', hentry'⟩ := h'.known
  rw [hentry, Option.some.injEq, AliasEntry.mk.injEq] at hentry'
  obtain ⟨htarget, -, rfl⟩ := hentry'
  exact MacroValue.target_inj htarget

theorem kind? (h : unit.Constant name body) :
    unit.known.aliases.kind? name = some .value := by
  obtain ⟨span, hentry⟩ := h.known
  rw [AliasTable.kind?, Builtin.isBuiltin, unit.constantsFrom_known.builtin name _ hentry, hentry]
  rfl

/-- A constant is no type name. -/
theorem resolveType_ne_ok (h : unit.Constant name body) (place : Span) (ty : Ty) :
    unit.known.aliases.resolveType name place ≠ .ok ty := by
  rw [AliasTable.resolveType, if_pos h.kind?]
  intro heq
  cases heq

theorem typeOf_eq (h : unit.Constant name body) :
    unit.known.aliases.typeOf name = body.typeIn unit.known.aliases := by
  obtain ⟨span, hentry⟩ := h.known
  have hacyclic := unit.constantsFrom_known.acyclic
  rw [AliasTable.typeOf,
    hacyclic.resolve_eq (unit.constantsFrom_known.builtin name _ hentry) hentry]
  cases body with
  | name next => exact hacyclic.getD_resolve next span
  | _ => rfl

end Constant

/-- The constants that name something are the aliases for values that mention it. -/
theorem names_iff : unit.Names name next ↔ unit.known.aliases.kind? name = some .value ∧
    next ∈ unit.known.aliases.mentions name := by
  constructor
  · intro h
    obtain ⟨span, hentry⟩ := h.known
    refine ⟨h.kind?, ?_⟩
    rw [AliasTable.mentions, hentry]
    exact List.mem_singleton_self next
  · rintro ⟨hkind, hmem⟩
    obtain ⟨body, h⟩ := exists_constant hkind
    obtain ⟨span, hentry⟩ := h.known
    rw [AliasTable.mentions, hentry] at hmem
    cases body with
    | name other =>
      cases List.mem_singleton.mp hmem
      exact h
    | _ => exact absurd hmem List.not_mem_nil

theorem rightUnique_names (unit : SourceUnit) : Relator.RightUnique unit.Names :=
  fun _ _ _ h h' => MacroValue.name.inj (h.unique h')

/-- The type is the same all along a chain of macros. -/
theorem typeOf_of_reaches {last : String} (h : Relation.ReflTransGen unit.Names name last) :
    unit.known.aliases.typeOf name = unit.known.aliases.typeOf last := by
  induction h with
  | refl => rfl
  | tail _ hstep ih => exact ih.trans (Constant.typeOf_eq hstep)

/-- A chain of macros has one end. -/
theorem end_unique {last last' : String} (h : Relation.ReflTransGen unit.Names name last)
    (hlast : ∀ next, ¬ unit.Names last next) (h' : Relation.ReflTransGen unit.Names name last')
    (hlast' : ∀ next, ¬ unit.Names last' next) : last = last' := by
  rcases Relation.ReflTransGen.total_of_right_unique unit.rightUnique_names h h' with hway | hway
  · rcases hway.cases_head with rfl | ⟨next, hnext, -⟩
    · rfl
    · exact absurd hnext (hlast next)
  · rcases hway.cases_head with rfl | ⟨next, hnext, -⟩
    · rfl
    · exact absurd hnext (hlast' next)

theorem not_names_of_literal (h : unit.Constant name body) (hliteral : body.ofLiteral? = some ty)
    (next : String) : ¬ unit.Names name next := by
  intro hnext
  rw [h.unique hnext] at hliteral
  exact nomatch hliteral

theorem not_names_of_resolveType {place : Span}
    (h : unit.known.aliases.resolveType name place = .ok ty) (next : String) :
    ¬ unit.Names name next :=
  fun hnext => hnext.resolveType_ne_ok place ty h

/-- A constant has the type of a literal exactly if it does not lead to a type name other than
`any`. -/
theorem typedByLiteral_iff : unit.TypedByLiteral name (unit.known.aliases.typeOf name) ↔
    ∀ last, Relation.ReflTransGen unit.Names name last → ∀ place ty,
      unit.known.aliases.resolveType last place = .ok ty → ty = .any := by
  have hacyclic := unit.constantsFrom_known.acyclic
  constructor
  · rintro (⟨last', body, hway', hconstant, hliteral⟩ | ⟨hany, -⟩) last hway place ty hty
    -- The chain of names has one end: it cannot be both a type name and a literal.
    · have hsame := end_unique hway (not_names_of_resolveType hty) hway'
        (not_names_of_literal hconstant hliteral)
      subst hsame
      exact absurd hty (hconstant.resolveType_ne_ok place ty)
    · rw [← hany, typeOf_of_reaches hway, hacyclic.typeOf_resolveType hty]
  · intro h
    obtain ⟨last, hway, hlast⟩ :=
      hacyclic.exists_end (R := unit.Names) (fun _ _ h => (names_iff.mp h).2) name
    by_cases hliteral : ∃ body ty, unit.Constant last body ∧ body.ofLiteral? = some ty
    · obtain ⟨body, ty, hconstant, hty⟩ := hliteral
      refine .inl ⟨last, body, hway, hconstant, ?_⟩
      rw [typeOf_of_reaches hway, hconstant.typeOf_eq]
      cases body <;> first | rfl | exact nomatch hty
    · refine .inr ⟨?_, fun last' body hway' hconstant => ?_⟩
      · rw [typeOf_of_reaches hway]
        -- The end is a constant with another body, or a name that is no constant.
        by_cases hkind : unit.known.aliases.kind? last = some .value
        · obtain ⟨body, hconstant⟩ := exists_constant hkind
          rw [hconstant.typeOf_eq]
          cases body with
          | name next => exact absurd hconstant (hlast next)
          | other => rfl
          | _ => exact absurd ⟨_, _, hconstant, rfl⟩ hliteral
        · cases hty : unit.known.aliases.resolveType last default with
          | ok ty => rw [hacyclic.typeOf_resolveType hty, h last hway _ ty hty]
          | error e =>
            rw [AliasTable.resolveType, if_neg hkind] at hty
            rw [AliasTable.typeOf, hty]
            rfl
      · rw [Option.eq_none_iff_forall_ne_some]
        intro ty hty
        rw [← end_unique hway hlast hway' (not_names_of_literal hconstant hty)] at hconstant
        exact hliteral ⟨body, ty, hconstant, hty⟩

end SourceUnit

/-! ## Names that are bound to constants -/

/-- **Constants of headers are typed through constants, unless they lead to a type name.** Take any
unit in which no name is bound yet, whatever headers are attached to it, and resolve it, with or
without errors. A name that is bound to a constant is the name of an object-like macro of a header.
Its type is that of the literal which single-name bodies lead to from the macro, and `any` if they
lead to none, exactly if they lead to no type name other than `any`; if they lead to a type name, it
is that type. -/
theorem constants_typed_by_literals_iff {unit : SourceUnit} (h : unit.Unresolved) {n : Node}
    (hn : n ∈ unit.resolve.1.nodes) {e : Expr} (he : e ∈ n.exprs) {name : DottedName}
    (hname : name ∈ e.names) {ty : Ty} (hbound : name.resolved = some ⟨.macroConstant, ty⟩) :
    ∃ text, name.parts.map (·.text) = [text] ∧ (∃ body, unit.Constant text body) ∧
      (unit.TypedByLiteral text ty ↔ ∀ last, Relation.ReflTransGen unit.Names text last →
        ∀ place found, unit.known.aliases.resolveType last place = .ok found → found = .any) ∧
      ∀ last, Relation.ReflTransGen unit.Names text last → ∀ place found,
        unit.known.aliases.resolveType last place = .ok found → ty = found := by
  have hacyclic := unit.constantsFrom_known.acyclic
  obtain ⟨env, henv, hfound⟩ := h.exists_env hn he
  obtain ⟨text, htext, hkind, hty⟩ := henv.lookup_macroConstant (hfound name hname _ hbound)
  rw [hacyclic.getD_resolve] at hty
  subst hty
  refine ⟨text, htext, SourceUnit.exists_constant hkind, SourceUnit.typedByLiteral_iff, ?_⟩
  intro last hway place found hresolve
  rw [SourceUnit.typeOf_of_reaches hway, hacyclic.typeOf_resolveType hresolve]

/-- The name is bound to a constant of a header. -/
def DottedName.isConstant (text : String) (ty : Ty) (name : DottedName) : Bool :=
  name.parts.map (·.text) == [text] && name.resolved == some ⟨.macroConstant, ty⟩

/-- A name in an expression of the unit passes a test. -/
def SourceUnit.anyName (p : DottedName → Bool) (unit : SourceUnit) : Bool :=
  unit.nodes.any fun n => n.exprs.any fun e => e.names.any p

theorem SourceUnit.exists_of_anyName {unit : SourceUnit} {p : DottedName → Bool}
    (h : unit.anyName p = true) :
    ∃ n ∈ unit.nodes, ∃ e ∈ n.exprs, ∃ name ∈ e.names, p name = true := by
  simpa [anyName] using h

/-- A constant whose body is the name of a constant of another header. -/
theorem chained_constant_typed_by_literal : ∃ unit bridged,
    SourceUnit.parse 0 "include a\ninclude b\nint x = LIMIT" = .ok unit ∧
    ((unit.bridge (.memory [("a.h", "#define LIMIT MAX\n"), ("b.h", "#define MAX 42\n")])).run
      .empty).1 = .ok bridged ∧
    bridged.resolve.1.anyName (·.isConstant "LIMIT" .int) = true ∧
    bridged.TypedByLiteral "LIMIT" .int := by
  have hok : ((SourceUnit.parse 0 "include a\ninclude b\nint x = LIMIT").toOption.any fun unit =>
      ((unit.bridge (.memory [("a.h", "#define LIMIT MAX\n"), ("b.h", "#define MAX 42\n")])).run
        .empty).1.toOption.any fun bridged =>
        bridged.resolve.1.anyName (·.isConstant "LIMIT" .int) &&
          (bridged.known.aliases.kind? "LIMIT" == some .value) &&
          (bridged.known.aliases.mentions "LIMIT" == ["MAX"]) &&
          (bridged.known.aliases.kind? "MAX" == some .value) &&
          bridged.known.aliases.mentions "MAX" == []) = true := by
    rw [SourceUnit.parse_ofList]
    decide +kernel
  obtain ⟨unit, bridged, hparse, hbridge, hunresolved, hp⟩ := SourceUnit.exists_bridged hok
  simp only [Bool.and_eq_true, beq_iff_eq] at hp
  obtain ⟨⟨⟨⟨hany, hlimit⟩, hlimitBody⟩, hmax⟩, hmaxBody⟩ := hp
  refine ⟨unit, bridged, hparse, hbridge, hany, ?_⟩
  obtain ⟨n, hn, e, he, name, hname, hconstant⟩ := SourceUnit.exists_of_anyName hany
  simp only [DottedName.isConstant, Bool.and_eq_true, beq_iff_eq] at hconstant
  obtain ⟨text, htext, -, htyped, -⟩ :=
    constants_typed_by_literals_iff hunresolved hn he hname hconstant.2
  obtain rfl : "LIMIT" = text := by simpa [hconstant.1] using htext
  refine htyped.mpr fun last hway place found hresolve => ?_
  -- The macros lead to themselves only, and neither is a type name.
  have hlast : bridged.known.aliases.kind? last = some .value := by
    rcases hway.cases_head with rfl | ⟨next, hnext, hway⟩
    · exact hlimit
    obtain rfl : next = "MAX" := by simpa [hlimitBody] using (SourceUnit.names_iff.mp hnext).2
    rcases hway.cases_head with rfl | ⟨next, hnext, -⟩
    · exact hmax
    · simpa [hmaxBody] using (SourceUnit.names_iff.mp hnext).2
  rw [AliasTable.resolveType, if_pos hlast] at hresolve
  cases hresolve

/-- A constant whose body is the name of a built-in type has that type, though it leads to no
literal. -/
theorem type_name_types_constant : ∃ unit bridged,
    SourceUnit.parse 0 "include m\nstr s = T\n" = .ok unit ∧
    ((unit.bridge (.memory [("m.h", "#define T int\n")])).run .empty).1 = .ok bridged ∧
    bridged.resolve.1.anyName (·.isConstant "T" .int) = true ∧
    ¬ bridged.TypedByLiteral "T" .int := by
  have hok : ((SourceUnit.parse 0 "include m\nstr s = T\n").toOption.any fun unit =>
      ((unit.bridge (.memory [("m.h", "#define T int\n")])).run .empty).1.toOption.any fun bridged =>
        bridged.resolve.1.anyName (·.isConstant "T" .int) &&
          (bridged.known.aliases.kind? "T" == some .value) &&
          (bridged.known.aliases.mentions "T" == ["int"]) &&
          bridged.known.aliases.typeOf "T" == .int) = true := by
    rw [SourceUnit.parse_ofList]
    decide +kernel
  obtain ⟨unit, bridged, hparse, hbridge, -, hp⟩ := SourceUnit.exists_bridged hok
  simp only [Bool.and_eq_true, beq_iff_eq] at hp
  obtain ⟨⟨⟨hany, hkind⟩, hbody⟩, hty⟩ := hp
  refine ⟨unit, bridged, hparse, hbridge, hany, fun htyped => ?_⟩
  rw [← hty, SourceUnit.typedByLiteral_iff] at htyped
  have hnames : bridged.Names "T" "int" :=
    SourceUnit.names_iff.mpr ⟨hkind, hbody ▸ List.mem_singleton_self _⟩
  exact nomatch htyped "int" (.single hnames) default .int (AliasTable.resolveType_builtin rfl)

end KilnLang
