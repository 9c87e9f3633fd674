import KilnLang.Proofs.Semantic.AliasOrder
import KilnLang.Proofs.Semantic.FilledSlots

/-!
# Where aliases come from

What is in the alias table of a resolved unit, and what its names stand for.

* `follow_unique`: what a name leads to does not depend on how deep the search may go, on the names
  before it or on the place that asks.
* `SourceUnit.resolve_records`: the entries of the table are the aliases that the unit defines, with
  their targets annotated, and the type names and constants of the headers that it includes.
-/

namespace KilnLang

/-! ## Following names -/

namespace TypeExpr

variable {look look' : DottedName → Except AliasError Ty}

theorem annotateWith_named_eq_ok {name : DottedName} {t : TypeExpr} {ty : Ty} :
    (TypeExpr.named name).annotateWith look = (t, .ok ty) ↔
      look name = .ok ty ∧ .named { name with resolved := some ⟨.type, ty⟩ } = t := by
  rw [annotateWith]
  cases look name with
  | error e => simp
  | ok found =>
    simp only [Prod.mk.injEq, Except.ok.injEq]
    constructor
    · rintro ⟨rfl, rfl⟩
      exact ⟨rfl, rfl⟩
    · rintro ⟨rfl, rfl⟩
      exact ⟨rfl, rfl⟩

theorem annotateWith_ref_eq_ok {span : Span} {inner t : TypeExpr} {ty : Ty} :
    (TypeExpr.ref span inner).annotateWith look = (t, .ok ty) ↔ ∃ inner' innerTy,
      inner.annotateWith look = (inner', .ok innerTy) ∧ .ref span inner' = t ∧
        .ref innerTy = ty := by
  rw [annotateWith]
  rcases inner.annotateWith look with ⟨inner', _ | innerTy⟩ <;> simp [Except.map]

theorem annotateWith_array_eq_ok {span : Span} {elem t : TypeExpr} {length : Option Nat} {ty : Ty} :
    (TypeExpr.array span elem length).annotateWith look = (t, .ok ty) ↔ ∃ elem' elemTy,
      elem.annotateWith look = (elem', .ok elemTy) ∧ .array span elem' length = t ∧
        .array elemTy length = ty := by
  rw [annotateWith]
  rcases elem.annotateWith look with ⟨elem', _ | elemTy⟩ <;> simp [Except.map]

theorem annotateWith_func_eq_ok {span : Span} {sig : Signature TypeExpr} {t : TypeExpr} {ty : Ty} :
    (TypeExpr.func span sig).annotateWith look = (t, .ok ty) ↔ ∃ sig' sigTy,
      annotateSignature look sig = (sig', .ok sigTy) ∧ .func span sig' = t ∧ .func sigTy = ty := by
  rw [annotateWith]
  rcases annotateSignature look sig with ⟨sig', _ | sigTy⟩ <;> simp [Except.map]

theorem annotateSignature_eq_ok {ret : TypeExpr} {params : List TypeExpr} {rest : Rest TypeExpr}
    {sig : Signature TypeExpr} {ty : Signature Ty} :
    annotateSignature look ⟨ret, params, rest⟩ = (sig, .ok ty) ↔
      ∃ ret' retTy params' paramTys rest' restTy, ret.annotateWith look = (ret', .ok retTy) ∧
        annotateEach look params = (params', .ok paramTys) ∧
        annotateRest look rest = (rest', .ok restTy) ∧ ⟨ret', params', rest'⟩ = sig ∧
        ⟨retTy, paramTys, restTy⟩ = ty := by
  rw [annotateSignature]
  rcases ret.annotateWith look with ⟨ret', _ | retTy⟩
  · simp
  rcases annotateEach look params with ⟨params', _ | paramTys⟩
  · simp
  rcases annotateRest look rest with ⟨rest', _ | restTy⟩ <;> simp

theorem annotateEach_cons_eq_ok {t : TypeExpr} {ts ts' : List TypeExpr} {tys : List Ty} :
    annotateEach look (t :: ts) = (ts', .ok tys) ↔ ∃ t' ty ts₁ tys₁,
      t.annotateWith look = (t', .ok ty) ∧ annotateEach look ts = (ts₁, .ok tys₁) ∧
        t' :: ts₁ = ts' ∧ ty :: tys₁ = tys := by
  rw [annotateEach]
  rcases t.annotateWith look with ⟨t', _ | ty⟩
  · simp
  rcases annotateEach look ts with ⟨ts₁, _ | tys₁⟩ <;> simp [Except.map]

theorem annotateRest_typed_eq_ok {elem : TypeExpr} {rest : Rest TypeExpr} {ty : Rest Ty} :
    annotateRest look (.typed elem) = (rest, .ok ty) ↔ ∃ elem' elemTy,
      elem.annotateWith look = (elem', .ok elemTy) ∧ .typed elem' = rest ∧ .typed elemTy = ty := by
  rw [annotateRest]
  rcases elem.annotateWith look with ⟨elem', _ | elemTy⟩ <;> simp [Except.map]

/-- A name for which both look-ups find a type has the same type in both. -/
def Agree (look look' : DottedName → Except AliasError Ty) : Prop :=
  ∀ n a b, look n = .ok a → look' n = .ok b → a = b

mutual

theorem annotateWith_agree (hagree : Agree look look') : ∀ {t t₁ t₂ : TypeExpr} {a b : Ty},
    t.annotateWith look = (t₁, .ok a) → t.annotateWith look' = (t₂, .ok b) → t₁ = t₂ ∧ a = b
  | .named name, t₁, t₂, a, b, h, h' => by
    obtain ⟨ha, rfl⟩ := annotateWith_named_eq_ok.mp h
    obtain ⟨hb, rfl⟩ := annotateWith_named_eq_ok.mp h'
    rw [hagree name _ _ ha hb]
    exact ⟨rfl, rfl⟩
  | .ref span inner, t₁, t₂, a, b, h, h' => by
    obtain ⟨_, _, hi, rfl, rfl⟩ := annotateWith_ref_eq_ok.mp h
    obtain ⟨_, _, hi', rfl, rfl⟩ := annotateWith_ref_eq_ok.mp h'
    obtain ⟨rfl, rfl⟩ := annotateWith_agree hagree hi hi'
    exact ⟨rfl, rfl⟩
  | .array span elem length, t₁, t₂, a, b, h, h' => by
    obtain ⟨_, _, hi, rfl, rfl⟩ := annotateWith_array_eq_ok.mp h
    obtain ⟨_, _, hi', rfl, rfl⟩ := annotateWith_array_eq_ok.mp h'
    obtain ⟨rfl, rfl⟩ := annotateWith_agree hagree hi hi'
    exact ⟨rfl, rfl⟩
  | .func span sig, t₁, t₂, a, b, h, h' => by
    obtain ⟨_, _, hi, rfl, rfl⟩ := annotateWith_func_eq_ok.mp h
    obtain ⟨_, _, hi', rfl, rfl⟩ := annotateWith_func_eq_ok.mp h'
    obtain ⟨rfl, rfl⟩ := annotateSignature_agree hagree hi hi'
    exact ⟨rfl, rfl⟩
termination_by structural t => t

theorem annotateSignature_agree (hagree : Agree look look') :
    ∀ {s s₁ s₂ : Signature TypeExpr} {a b : Signature Ty}, annotateSignature look s = (s₁, .ok a) →
      annotateSignature look' s = (s₂, .ok b) → s₁ = s₂ ∧ a = b
  | ⟨ret, params, rest⟩, s₁, s₂, a, b, h, h' => by
    obtain ⟨_, _, _, _, _, _, hret, hparams, hrest, rfl, rfl⟩ := annotateSignature_eq_ok.mp h
    obtain ⟨_, _, _, _, _, _, hret', hparams', hrest', rfl, rfl⟩ := annotateSignature_eq_ok.mp h'
    obtain ⟨rfl, rfl⟩ := annotateWith_agree hagree hret hret'
    obtain ⟨rfl, rfl⟩ := annotateEach_agree hagree hparams hparams'
    obtain ⟨rfl, rfl⟩ := annotateRest_agree hagree hrest hrest'
    exact ⟨rfl, rfl⟩
termination_by structural s => s

theorem annotateEach_agree (hagree : Agree look look') :
    ∀ {ts ts₁ ts₂ : List TypeExpr} {a b : List Ty}, annotateEach look ts = (ts₁, .ok a) →
      annotateEach look' ts = (ts₂, .ok b) → ts₁ = ts₂ ∧ a = b
  | [], ts₁, ts₂, a, b, h, h' => by
    cases h
    cases h'
    exact ⟨rfl, rfl⟩
  | t :: ts, ts₁, ts₂, a, b, h, h' => by
    obtain ⟨_, _, _, _, ht, hts, rfl, rfl⟩ := annotateEach_cons_eq_ok.mp h
    obtain ⟨_, _, _, _, ht', hts', rfl, rfl⟩ := annotateEach_cons_eq_ok.mp h'
    obtain ⟨rfl, rfl⟩ := annotateWith_agree hagree ht ht'
    obtain ⟨rfl, rfl⟩ := annotateEach_agree hagree hts hts'
    exact ⟨rfl, rfl⟩
termination_by structural ts => ts

theorem annotateRest_agree (hagree : Agree look look') :
    ∀ {rest rest₁ rest₂ : Rest TypeExpr} {a b : Rest Ty}, annotateRest look rest = (rest₁, .ok a) →
      annotateRest look' rest = (rest₂, .ok b) → rest₁ = rest₂ ∧ a = b
  | .none, rest₁, rest₂, a, b, h, h' | .untyped, rest₁, rest₂, a, b, h, h' => by
    cases h
    cases h'
    exact ⟨rfl, rfl⟩
  | .typed elem, rest₁, rest₂, a, b, h, h' => by
    obtain ⟨_, _, hi, rfl, rfl⟩ := annotateRest_typed_eq_ok.mp h
    obtain ⟨_, _, hi', rfl, rfl⟩ := annotateRest_typed_eq_ok.mp h'
    obtain ⟨rfl, rfl⟩ := annotateWith_agree hagree hi hi'
    exact ⟨rfl, rfl⟩
termination_by structural rest => rest

end

end TypeExpr

namespace AliasTable

variable {t : AliasTable}

/-- How a name inside the target of an alias is looked up: it may not be a constant. -/
def followType (t : AliasTable) (depth : Nat) (visiting : List String) (n : DottedName) :
    Except AliasError Ty :=
  if t.kind? n.text = some .value then .error (.notAType n.text n.span)
  else t.follow depth visiting n.text n.span

/-- The target of an alias leads to a type in at most `depth` steps. -/
inductive Reaches (t : AliasTable) (depth : Nat) (visiting : List String) :
    AliasTarget → Ty → Prop
  | terminal {ty : Ty} : Reaches t depth visiting (.terminal ty) ty
  | name {next : String} {span : Span} {ty : Ty} (h : t.follow depth visiting next span = .ok ty) :
      Reaches t depth visiting (.name next span) ty
  | composite {expr expr' : TypeExpr} {ty : Ty}
      (h : expr.annotateWith (t.followType depth visiting) = (expr', .ok ty)) :
      Reaches t depth visiting (.composite expr) ty

/-- A name that leads to a type is built in, or an alias whose target does. -/
theorem reaches_of_follow {depth : Nat} {visiting : List String} {name : String} {span : Span}
    {ty : Ty} (h : t.follow (depth + 1) visiting name span = .ok ty) :
    (∃ p, Builtin.find? name = some p ∧ ty = .prim p) ∨
      Builtin.find? name = none ∧ ∃ entry, t.lookup? name = some entry ∧
        t.Reaches depth (visiting ++ [name]) entry.target ty := by
  rw [follow] at h
  cases hbuiltin : Builtin.find? name with
  | some p =>
    rw [hbuiltin] at h
    exact .inl ⟨p, rfl, (Except.ok.inj h).symm⟩
  | none =>
    refine .inr ⟨rfl, ?_⟩
    rw [hbuiltin] at h
    cases hentry : t.lookup? name with
    | none => simp [hentry] at h
    | some entry =>
      refine ⟨entry, rfl, ?_⟩
      simp only [hentry] at h
      split at h
      · cases h
      · split at h
        · rename_i found htarget
          cases h
          exact htarget ▸ .terminal
        · rename_i next place htarget
          exact htarget ▸ .name h
        · rename_i expr htarget
          exact htarget ▸ .composite (Prod.ext rfl h)

theorem followType_eq_ok {depth : Nat} {visiting : List String} {n : DottedName} {ty : Ty} :
    t.followType depth visiting n = .ok ty ↔
      t.kind? n.text ≠ some .value ∧ t.follow depth visiting n.text n.span = .ok ty := by
  unfold followType
  split
  · simp_all
  · simp_all

theorem resolveType_eq_followType (n : DottedName) :
    t.resolveType n.text n.span = t.followType (t.size + 1) [] n := rfl

/-- A name leads to one type at most. -/
theorem follow_unique {depth depth' : Nat} {visiting visiting' : List String} {name : String}
    {span span' : Span} {a b : Ty} (h : t.follow depth visiting name span = .ok a)
    (h' : t.follow depth' visiting' name span' = .ok b) : a = b := by
  induction depth generalizing depth' visiting visiting' name span span' a b with
  | zero => cases h
  | succ depth ih =>
    cases depth' with
    | zero => cases h'
    | succ depth' =>
      rcases reaches_of_follow h with ⟨p, hp, rfl⟩ | ⟨hp, entry, hentry, hreaches⟩ <;>
        rcases reaches_of_follow h' with ⟨p', hp', rfl⟩ | ⟨hp', entry', hentry', hreaches'⟩
      · rw [Option.some.inj (hp.symm.trans hp')]
      · cases hp.symm.trans hp'
      · cases hp.symm.trans hp'
      · obtain rfl : entry = entry' := Option.some.inj (hentry.symm.trans hentry')
        generalize entry.target = target at hreaches hreaches'
        cases hreaches with
        | terminal =>
          cases hreaches'
          rfl
        | name hnext =>
          cases hreaches' with
          | name hnext' => exact ih hnext hnext'
        | composite hexpr =>
          cases hreaches' with
          | composite hexpr' =>
            refine (TypeExpr.annotateWith_agree (fun n a b ha hb => ?_) hexpr hexpr').2
            exact ih (followType_eq_ok.mp ha).2 (followType_eq_ok.mp hb).2

end AliasTable

/-! ## Headers -/

/-- A header that the parts include has a type of this name. -/
def HasTypedef (nodes : List Node) (name : String) (target : Ty) : Prop :=
  ∃ span path table, .header ⟨span, path, some table⟩ ∈ nodes ∧
    .typedef name target ∈ table.symbols

namespace Resolver

variable {span : Span} {b : Bridging} {symbol : HeaderSymbol}

/-- A symbol of a header adds its alias under a new name, or no alias. -/
theorem aliases_add (span : Span) (b : Bridging) (symbol : HeaderSymbol) :
    (b.add span symbol).aliases = b.aliases ∨ ∃ target kind,
      aliasOf? span symbol = some (target, kind) ∧
        (b.add span symbol).aliases = b.aliases.extend symbol.name target kind span := by
  unfold Bridging.add
  dsimp only
  split
  · exact .inl rfl
  · split
    · rename_i target kind halias
      split
      · rename_i aliases hdefine
        obtain ⟨-, -, rfl⟩ := AliasTable.define_eq_ok.mp hdefine
        exact .inr ⟨target, kind, halias, rfl⟩
      · exact .inl rfl
    · exact .inl rfl
    · exact .inl rfl

/-- The types among the aliases are type names of headers. -/
def TypesFrom (nodes : List Node) (aliases : AliasTable) : Prop :=
  ∀ name entry, aliases.lookup? name = some entry → entry.kind = .type →
    ∃ target, entry.target = .terminal target ∧ HasTypedef nodes name target

theorem TypesFrom.add {nodes : List Node} {path : List Ident} {table : HeaderTable}
    (h : TypesFrom nodes b.aliases) (hnode : .header ⟨span, path, some table⟩ ∈ nodes)
    (hsymbol : symbol ∈ table.symbols) : TypesFrom nodes (b.add span symbol).aliases := by
  intro name entry hentry hkind
  rcases aliases_add span b symbol with hsame | ⟨target, kind, halias, hextend⟩
  · exact h name entry (hsame ▸ hentry) hkind
  · rw [hextend, AliasTable.lookup?_extend] at hentry
    split at hentry
    · rename_i hname
      cases hentry
      cases symbol with
      | constant _ value => cases value <;> cases halias <;> cases hkind
      | typedef other found =>
        cases halias
        exact ⟨found, rfl, span, path, table, hnode, hname ▸ hsymbol⟩
      | _ => cases halias
    · exact h name entry hentry hkind

/-- What adding a symbol of an included header keeps, adding the headers of a unit keeps. -/
theorem Bridging.addNodes_induction {P : Bridging → Prop} {nodes : List Node}
    (hadd : ∀ span path table, .header ⟨span, path, some table⟩ ∈ nodes →
      ∀ symbol ∈ table.symbols, ∀ b, P b → P (b.add span symbol)) {b : Bridging} (h : P b) :
    P (nodes.foldl Bridging.addNode b) := by
  refine List.foldlRecOn nodes Bridging.addNode h fun b hb n hn => ?_
  unfold Bridging.addNode
  split
  · exact List.foldlRecOn _ _ hb fun b hb symbol hsymbol => hadd _ _ _ hn symbol hsymbol b hb
  · exact hb

theorem typesFrom_bridgeContext (nodes : List Node) :
    TypesFrom nodes (bridgeContext nodes).aliases := by
  refine Bridging.addNodes_induction (P := fun b => TypesFrom nodes b.aliases) ?_ ?_
  · exact fun span path table hnode symbol hsymbol b h => h.add hnode hsymbol
  · exact fun name entry hentry => nomatch hentry

/-! ## Aliases of the unit -/

/-- The entry of an alias that the unit defines. -/
def entryOf (item : Alias) : AliasEntry := ⟨targetOf item.target, .type, item.name.span⟩

/-- What the definitions of a unit add to a table, and what they leave. -/
theorem lookup?_of_defineEach {t t' : AliasTable} {ns : List Node} (h : defineEach t ns = .ok t') :
    (∀ name entry, t.lookup? name = some entry → t'.lookup? name = some entry) ∧
    (∀ item, .alias item ∈ ns → t'.lookup? item.name.text = some (entryOf item)) ∧
    ∀ name entry, t'.lookup? name = some entry → t.lookup? name = some entry ∨
      ∃ item, .alias item ∈ ns ∧ item.name.text = name ∧ entryOf item = entry := by
  induction ns generalizing t with
  | nil =>
    obtain rfl : t = t' := Except.ok.inj h
    exact ⟨fun _ _ h => h, by simp, fun _ _ h => .inl h⟩
  | cons n ns ih =>
    obtain ⟨item, rfl⟩ | hn := isAlias_cases n
    · obtain ⟨t₁, hdefine, hrest⟩ := defineEach_cons.mp h
      obtain ⟨hfree, -, rfl⟩ := AliasTable.define_eq_ok.mp (defineEach_alias.mp hdefine)
      obtain ⟨hkeeps, hdefines, horigin⟩ := ih hrest
      refine ⟨fun name entry hentry => hkeeps name entry ?_, fun item' hitem' => ?_,
        fun name entry hentry => ?_⟩
      · rw [AliasTable.lookup?_extend, if_neg, hentry]
        rintro rfl
        -- An alias is defined for a free name only, so no entry is replaced.
        rw [AliasTable.contains, AliasTable.kind?, hentry] at hfree
        split at hfree <;> cases hfree
      · rcases List.mem_cons.mp hitem' with hitem' | hitem'
        · cases hitem'
          refine hkeeps _ _ ?_
          rw [AliasTable.lookup?_extend, if_pos rfl]
          rfl
        · exact hdefines item' hitem'
      · rcases horigin name entry hentry with hentry | ⟨item', hitem', hname⟩
        · rw [AliasTable.lookup?_extend] at hentry
          split at hentry
          · rename_i hname
            exact .inr ⟨item, List.mem_cons_self, hname.symm, Option.some.inj hentry⟩
          · exact .inl hentry
        · exact .inr ⟨item', List.mem_cons_of_mem _ hitem', hname⟩
    · rw [defineEach_other hn] at h
      obtain ⟨hkeeps, hdefines, horigin⟩ := ih h
      refine ⟨hkeeps, fun item hitem => ?_, fun name entry hentry => ?_⟩
      · rcases List.mem_cons.mp hitem with rfl | hitem
        · cases hn
        · exact hdefines item hitem
      · refine (horigin name entry hentry).imp_right ?_
        rintro ⟨item, hitem, hname⟩
        exact ⟨item, List.mem_cons_of_mem _ hitem, hname⟩

end Resolver

/-! ## The table of a unit -/

/-- The part is an include or an alias, which only declare what the alias table records. -/
def Node.isRecorded : Node → Bool
  | .header _ | .alias _ => true
  | .function _ | .global _ => false

/-- The table records what the parts say: the aliases that they define, with the targets annotated,
and the type names of the headers that they include. -/
structure AliasTable.Records (aliases : AliasTable) (nodes : List Node) : Prop where
  defined : ∀ item, .alias item ∈ nodes → ∃ item' ty, item'.name = item.name ∧
    aliases.lookup? item.name.text = some (Resolver.entryOf item') ∧
    aliases.annotate item'.target = (item.target, .ok ty)
  origin : ∀ name entry, aliases.lookup? name = some entry → entry.kind = .type →
    (∃ item, .alias item ∈ nodes ∧ item.name.text = name) ∨
      ∃ target, entry.target = .terminal target ∧ HasTypedef nodes name target

/-- The table depends on includes and aliases only. -/
theorem AliasTable.Records.of_recorded {aliases : AliasTable} {nodes nodes' : List Node}
    (h : aliases.Records nodes) (heq : ∀ n : Node, n.isRecorded → (n ∈ nodes' ↔ n ∈ nodes)) :
    aliases.Records nodes' where
  defined item hitem := h.defined item ((heq _ rfl).mp hitem)
  origin name entry hentry hkind := by
    rcases h.origin name entry hentry hkind with ⟨item, hitem, hname⟩ |
      ⟨target, htarget, span, path, table, hnode, hsymbol⟩
    · exact .inl ⟨item, (heq _ rfl).mpr hitem, hname⟩
    · exact .inr ⟨target, htarget, span, path, table, (heq _ rfl).mpr hnode, hsymbol⟩

theorem Node.mem_of_outline {ns ns' : List Node} (h : ns'.map Node.outline = ns.map Node.outline)
    {m : Node} (hm : m.isRecorded) : m ∈ ns' ↔ m ∈ ns := by
  have hmem : ∀ l : List Node, m ∈ l.map Node.outline ↔ m ∈ l := by
    intro l
    rw [List.mem_map]
    constructor
    · rintro ⟨n, hn, rfl⟩
      cases n with
      | header item => exact hn
      | «alias» item => exact hn
      | _ => cases hm
    · intro hml
      refine ⟨m, hml, ?_⟩
      cases m with
      | header item => rfl
      | «alias» item => rfl
      | _ => cases hm
  rw [← hmem ns', h, hmem ns]

namespace Resolver

theorem recorded_declareNodes {order : Nat} {ns ns' : List Node} {env env' : Env}
    (h : Succeeds (declareNodes order ns) env ns' env') {m : Node} (hm : m.isRecorded) :
    m ∈ ns' ↔ m ∈ ns := by
  induction ns generalizing order env ns' with
  | nil =>
    obtain ⟨rfl, -⟩ := succeeds_declareNodes_nil.mp h
    exact .rfl
  | cons n ns ih =>
    obtain ⟨n', env₁, ns', hn, hns, rfl⟩ := succeeds_declareNodes_cons.mp h
    have hhead : m = n' ↔ m = n := by
      cases n with
      | function f =>
        obtain ⟨f', sig, decl, -, -, rfl⟩ := succeeds_declareNode_function.mp hn
        constructor <;> (rintro rfl; cases hm)
      | global g =>
        obtain ⟨ty, varTy, -, -, rfl, -⟩ := succeeds_declareNode_global.mp hn
        constructor <;> (rintro rfl; cases hm)
      | _ => rw [(succeeds_pure.mp hn).1]
    rw [List.mem_cons, List.mem_cons, hhead, ih hns]

end Resolver

/-- The alias table of a resolved unit records its aliases and the type names of its headers. -/
theorem SourceUnit.resolve_records {unit unit' : SourceUnit} {context : SemanticContext}
    (h : unit.resolve = (unit', .ok context)) : context.aliases.Records unit'.nodes := by
  obtain ⟨nodes, env', hs, rfl, rfl⟩ := resolve_eq_ok.mp h
  obtain ⟨aliases, annotated, declared, env, hdefine, hann, hdecl, hnodes⟩ :=
    Resolver.succeeds_unit.mp hs
  have hempty : DeclaredIn (Resolver.withAliases unit.start aliases).context.aliases [] [] [] :=
    .empty
  obtain ⟨⟨top, decls, rfl, -⟩, -, -⟩ := Resolver.declareNodes_declared hempty hdecl
  have hgrows := Resolver.nodes_grows hnodes rfl rfl
  obtain ⟨-, hdefines, horigin⟩ := Resolver.lookup?_of_defineEach hdefine
  rw [show env'.context.aliases = aliases from hgrows.aliases]
  have hrecords : aliases.Records annotated := by
    constructor
    · intro item hitem
      obtain ⟨n, hn, hannotated⟩ := forall₂_right hann hitem
      rcases hannotated with ⟨htype⟩ | hother
      · rename_i item' _ ty
        exact ⟨item', ty, rfl, hdefines item' hn, htype⟩
      · cases hother
    · intro name entry hentry hkind
      rcases horigin name entry hentry with hentry | ⟨item, hitem, hname, -⟩
      · obtain ⟨target, htarget, span, path, table, hnode, hsymbol⟩ :=
          Resolver.typesFrom_bridgeContext unit.nodes name entry hentry hkind
        obtain ⟨n, hn, hannotated⟩ := forall₂_left hann hnode
        rcases hannotated with _ | _
        exact .inr ⟨target, htarget, span, path, table, hn, hsymbol⟩
      · obtain ⟨n, hn, hannotated⟩ := forall₂_left hann hitem
        rcases hannotated with ⟨htype⟩ | hother
        · exact .inl ⟨_, hn, hname⟩
        · cases hother
  refine hrecords.of_recorded fun n hn => ?_
  rw [Node.mem_of_outline (Resolver.outline_nodes hnodes) hn,
    Resolver.recorded_declareNodes hdecl hn]

end KilnLang
