import Mathlib.Data.Finset.Card
import Mathlib.Data.Finset.Range
import KilnLang.Proofs.Semantic.Completion
import KilnLang.Proofs.Semantic.Exchange
import KilnLang.Proofs.Syntax.Reading

/-!
# The order of the parts of a unit

**Theorem (`analysis_independent_of_order`).** The parts of a unit may come in any order that keeps
headers, globals, and functions of one name in order. Whether the unit can be analyzed does not
depend on the order, and neither does what is found: every part is resolved and completed in the same
way, up to the numbers of declarations, and these lead to the same declarations.

A reordering is a sequence of exchanges of neighbours (`Reordering.by_exchanges`). Each pass allows
such an exchange: headers are read in order, aliases may be defined in any order
(`Resolver.defineEach_exchange`), declaring and resolving exchange the numbers of what the two parts
declare (`Resolver.declareNodes_exchange`, `Resolver.nodes_exchange`), and checking does not see the
numbers (`Check.node_renumber`).
-/

namespace KilnLang

/-! ## Lists with two neighbours -/

section Neighbours

variable {α β : Type} {R : α → β → Prop}

theorem exists_of_forall₂_append {xs ys : List α} {zs : List β}
    (h : List.Forall₂ R (xs ++ ys) zs) :
    ∃ xs' ys', zs = xs' ++ ys' ∧ List.Forall₂ R xs xs' ∧ List.Forall₂ R ys ys' := by
  induction xs generalizing zs with
  | nil => exact ⟨[], zs, rfl, .nil, h⟩
  | cons x xs ih =>
    obtain ⟨x', zs', hx, hrest, rfl⟩ := List.forall₂_cons_left_iff.mp h
    obtain ⟨xs', ys', rfl, hxs, hys⟩ := ih hrest
    exact ⟨x' :: xs', ys', rfl, .cons hx hxs, hys⟩

theorem exists_of_forall₂_neighbours {front rest : List α} {n m : α} {zs : List β}
    (h : List.Forall₂ R (front ++ n :: m :: rest) zs) :
    ∃ front' n' m' rest', zs = front' ++ n' :: m' :: rest' ∧ List.Forall₂ R front front' ∧
      R n n' ∧ R m m' ∧ List.Forall₂ R rest rest' := by
  obtain ⟨front', ys', rfl, hfront, hpair⟩ := exists_of_forall₂_append h
  obtain ⟨n', ys', hn, hsecond, rfl⟩ := List.forall₂_cons_left_iff.mp hpair
  obtain ⟨m', rest', hm, hrest, rfl⟩ := List.forall₂_cons_left_iff.mp hsecond
  exact ⟨front', n', m', rest', rfl, hfront, hn, hm, hrest⟩

end Neighbours

/-! ## Parts whose order does not matter -/

theorem Node.ordered_refill {f : Slots} {n m : Node} :
    (n.refill f).Ordered (m.refill f) ↔ n.Ordered m := by
  cases n <;> cases m <;> exact Iff.rfl

theorem Node.ordered_of_bare {n n' m m' : Node} (hn : n'.refill .emptied = n.refill .emptied)
    (hm : m'.refill .emptied = m.refill .emptied) : n'.Ordered m' ↔ n.Ordered m := by
  rw [← Node.ordered_refill, hn, hm, Node.ordered_refill]

namespace DeclaredIn

variable {aliases : AliasTable} {top : Scope} {decls : DeclTable} {ns front rest : List Node}
  {n m : Node}

theorem decl_lt (h : DeclaredIn aliases top decls ns) (hn : n ∈ ns) {id : DeclId}
    (hid : n.decl? = some id) : id < decls.length := by
  obtain ⟨name, hname⟩ := Node.name?_of_decl? hid
  obtain ⟨id', hlook, hid'⟩ := h.found n hn name hname
  obtain rfl : id = id' := Option.some.inj (hid.symm.trans hid')
  obtain ⟨info, hinfo, -⟩ := h.info name id hlook
  exact (List.getElem?_eq_some_iff.mp hinfo).1

/-- Neighbours whose order does not matter declare different names. -/
theorem names_ne (h : DeclaredIn aliases top decls (front ++ n :: m :: rest))
    (hfree : ¬ n.Ordered m) (name : String) (hn : n.declares name) : ¬ m.declares name := by
  intro hm
  have hcompatible := (List.pairwise_append.mp h.compatible).2.1
  obtain ⟨f, g, rfl, rfl, -⟩ := (List.pairwise_cons.mp hcompatible).1 m List.mem_cons_self name hn hm
  simp only [Node.declares, Node.name?, Option.any_some, beq_iff_eq] at hn hm
  exact hfree (hn.trans hm.symm)

/-- Neighbours whose order does not matter have different declarations. -/
theorem decls_ne (h : DeclaredIn aliases top decls (front ++ n :: m :: rest))
    (hfree : ¬ n.Ordered m) (id : DeclId) (hn : n.decl? = some id) : m.decl? ≠ some id := by
  intro hm
  obtain ⟨name, hname⟩ := Node.name?_of_decl? hn
  obtain ⟨other, hother⟩ := Node.name?_of_decl? hm
  obtain ⟨_, hlook, hid⟩ := h.found n (by simp) name hname
  obtain ⟨_, hlook', hid'⟩ := h.found m (by simp) other hother
  obtain rfl := Option.some.inj (hn.symm.trans hid)
  obtain rfl := Option.some.inj (hm.symm.trans hid')
  exact h.names_ne hfree name hname (h.lookup_inj hlook hlook' ▸ hother)

end DeclaredIn

/-- Where resolution starts. -/
def Env.initial (aliases : AliasTable) (bridge : List (String × BridgeSymbol)) : Env :=
  ⟨⟨[], aliases, bridge⟩, [[]], none, none⟩

theorem Env.Twins.initial {ρ : Equiv.Perm DeclId} {t t' : AliasTable} (h : t.Same t')
    (bridge : List (String × BridgeSymbol)) :
    Env.Twins ρ (Env.initial t bridge).context.decls.length
      (Env.initial t' bridge).context.decls.length (fun _ => True) (fun _ => True)
      (Env.initial t bridge) (Env.initial t' bridge) where
  aliases := h
  bridge := rfl
  vargs := rfl
  limit := rfl
  scopes := .cons (fun _ _ => rfl) .nil
  heads scope hscope name id _ hid := by
    rw [List.mem_singleton.mp hscope] at hid
    exact nomatch hid
  entries _ hlt _ := absurd hlt (Nat.not_lt_zero _)
  first := Nat.le_refl _
  aligned := rfl

namespace Resolver

/-- At most one of the two parts includes a header. -/
theorem addNode_exchange {n m : Node} (hfree : ¬ n.Ordered m) (b : Bridging) :
    (b.addNode n).addNode m = (b.addNode m).addNode n := by
  cases n with
  | header item =>
    cases m with
    | header item' => exact absurd trivial hfree
    | _ => rfl
  | _ => rfl

theorem bridgeContext_exchange {n m : Node} (hfree : ¬ n.Ordered m) (front rest : List Node) :
    bridgeContext (front ++ m :: n :: rest) = bridgeContext (front ++ n :: m :: rest) := by
  simp only [bridgeContext, List.foldl_append, List.foldl_cons, addNode_exchange hfree]

/-! ## Resolution -/

/-- What resolution finds if two neighbours are exchanged. -/
theorem unit_exchange {front rest ns : List Node} {n m : Node} {t : AliasTable}
    {bridge : List (String × BridgeSymbol)} {env : Env}
    (h : Succeeds (unit (front ++ n :: m :: rest)) (Env.initial t bridge) ns env)
    (hfree : ¬ n.Ordered m) :
    ∃ (ρ : Equiv.Perm DeclId) (front₁ : List Node) (n₁ m₁ : Node) (rest₁ : List Node) (env' : Env),
      ns = front₁ ++ n₁ :: m₁ :: rest₁ ∧ front₁.length = front.length ∧
      Succeeds (unit (front ++ m :: n :: rest)) (Env.initial t bridge)
        ((front₁ ++ m₁ :: n₁ :: rest₁).map (·.refill (.renumber ρ))) env' ∧
      Env.Twins ρ env.context.decls.length env'.context.decls.length (fun _ => True)
        (fun _ => True) env env' ∧
      env'.context.decls.length = env.context.decls.length := by
  obtain ⟨aliases, _, declared, e, hdefine, hann, hdecl, hnodes⟩ := succeeds_unit.mp h
  -- The aliases
  obtain ⟨aliases', hdefine', hsame⟩ := defineEach_exchange hdefine
  obtain ⟨frontA, nA, mA, restA, rfl, hfrontA, hnA, hmA, hrestA⟩ :=
    exists_of_forall₂_neighbours hann
  have hann' : List.Forall₂ (AnnotatedAlias aliases') (front ++ m :: n :: rest)
      (frontA ++ mA :: nA :: restA) :=
    List.rel_append (hfrontA.imp fun _ _ h => h.same hsame)
      (.cons (hmA.same hsame) (.cons (hnA.same hsame) (hrestA.imp fun _ _ h => h.same hsame)))
  have hfreeA : ¬ nA.Ordered mA := fun hbad =>
    hfree ((Node.ordered_of_bare hnA.bare hmA.bare).mp hbad)
  -- The declarations of the parts
  rw [show withAliases (Env.initial t bridge) aliases = Env.initial aliases bridge from rfl] at hdecl
  have hempty : DeclaredIn (Env.initial aliases bridge).context.aliases [] [] [] := .empty
  obtain ⟨⟨top, decls, rfl, hdeclared⟩, -, -⟩ := declareNodes_declared hempty hdecl
  obtain ⟨frontD, d₀, _, hfrontD, hrun₀, rfl⟩ := succeeds_declareNodes_append.mp hdecl
  obtain ⟨nD, d₁, _, hnD, hrun₁, rfl⟩ := succeeds_declareNodes_cons.mp hrun₀
  obtain ⟨mD, d₂, restD, hmD, hrestD, rfl⟩ := succeeds_declareNodes_cons.mp hrun₁
  have hfreeD : ¬ nD.Ordered mD := fun hbad =>
    hfreeA ((Node.ordered_of_bare (bare_declareNode hnD) (bare_declareNode hmD)).mp hbad)
  have hnames := hdeclared.names_ne hfreeD
  have hdecls := hdeclared.decls_ne hfreeD
  -- The parts themselves
  obtain ⟨frontR, l₀, _, hfrontR, hrun₂, rfl⟩ := succeeds_nodes_append.mp hnodes
  obtain ⟨nR, l₁, _, hnR, hrun₃, rfl⟩ := succeeds_nodes_cons.mp hrun₂
  obtain ⟨mR, l₂, restR, hmR, hrestR, rfl⟩ := succeeds_nodes_cons.mp hrun₃
  -- Both passes only add declarations.
  obtain ⟨-, top₀, hscopes₀⟩ := declareNodes_length_le hfrontD rfl
  have htouches₁ := declareNode_touches hnD hscopes₀
  obtain ⟨_, top₁, -, hscopes₁, -⟩ := htouches₁.scopes
  have htouches₂ := declareNode_touches hmD hscopes₁
  obtain ⟨_, top₂, -, hscopes₂, -⟩ := htouches₂.scopes
  obtain ⟨hleD, -⟩ := declareNodes_length_le hrestD hscopes₂
  obtain ⟨hscopesR, hvargsR, hleR⟩ := nodes_frame hfrontR rfl rfl
  obtain ⟨htouches₃, hscopes₃⟩ := node_touches hnR hscopesR hvargsR
  obtain ⟨htouches₄, -⟩ := node_touches hmR hscopes₃ (htouches₃.grows.vargs.trans hvargsR)
  obtain ⟨ρ, hρ, hρ'⟩ := exists_exchanges
    ⟨htouches₁.grows.context.decls.length_le, htouches₂.grows.context.decls.length_le, hleD⟩
    ⟨hleR, htouches₃.grows.context.decls.length_le, htouches₄.grows.context.decls.length_le⟩
    env.context.decls.length
  obtain ⟨e', hdecl', ht, hlength⟩ := declareNodes_exchange hfrontD hnD hmD hrestD hfreeA rfl hdecls
    hnames (.initial hsame bridge) rfl hρ
  obtain ⟨env', hnodes', ht', hlength'⟩ := nodes_exchange hfrontR hnR hmR hrestR rfl rfl
    (fun _ hpart _ => hdeclared.decl_lt hpart) hdecls hnames ht hlength hρ'
  refine ⟨ρ, frontR, nR, mR, restR, env', rfl, ?_,
    succeeds_unit.mpr ⟨aliases', _, _, e', hdefine', hann', hdecl', hnodes'⟩, ht', hlength'⟩
  have hlengthD : frontD.length = frontA.length := by
    simpa using congrArg List.length (declareNodes_declared hempty hfrontD).2.1
  have hlengthR : frontR.length = frontD.length := by
    simpa using congrArg List.length (bare_nodes hfrontR)
  rw [hlengthR, hlengthD, hfrontA.length_eq]

end Resolver

/-! ## Checking -/

theorem Env.Twins.renumbered {ρ : Equiv.Perm DeclId} {start start' : Nat} {env env' : Env}
    (h : Env.Twins ρ start start' (fun _ => True) (fun _ => True) env env')
    (hlength : env'.context.decls.length = env.context.decls.length) :
    env.context.decls.Renumbered ρ env'.context.decls := by
  have hinside : ∀ id < env.context.decls.length, ρ id < env.context.decls.length := by
    intro id hlt
    have hget := h.entries id hlt trivial
    rw [List.getElem?_eq_getElem hlt, Option.map_some] at hget
    exact hlength ▸ (List.getElem?_eq_some_iff.mp hget).1
  -- A permutation that keeps the numbers of the table inside keeps the others outside.
  have himage : (Finset.range env.context.decls.length).image ρ =
      Finset.range env.context.decls.length := by
    refine Finset.eq_of_subset_of_card_le (fun x hx => ?_) ?_
    · obtain ⟨id, hid, rfl⟩ := Finset.mem_image.mp hx
      exact Finset.mem_range.mpr (hinside id (Finset.mem_range.mp hid))
    · rw [Finset.card_image_of_injective _ ρ.injective]
  refine ⟨fun id => ?_, hlength⟩
  rcases Nat.lt_or_ge id env.context.decls.length with hlt | hge
  · exact h.entries id hlt trivial
  · have houtside : env'.context.decls.length ≤ ρ id := by
      rw [hlength]
      by_contra hlt
      have hmem : ρ id ∈ (Finset.range env.context.decls.length).image ρ := by
        rw [himage]
        exact Finset.mem_range.mpr (Nat.lt_of_not_le hlt)
      obtain ⟨other, hother, heq⟩ := Finset.mem_image.mp hmem
      rw [ρ.injective heq] at hother
      exact absurd (Finset.mem_range.mp hother) (Nat.not_lt.mpr hge)
    rw [List.getElem?_eq_none houtside, List.getElem?_eq_none hge, Option.map_none]

/-! ## Units -/

/-- The analysis of a unit succeeds exactly if it can be resolved and each of its parts checked. -/
theorem SourceUnit.analyzeBridged_iff {unit : SourceUnit} {a : Analyzed} :
    unit.analyzeBridged = .ok a ↔ ∃ ns env,
      Resolver.Succeeds (Resolver.unit unit.nodes) unit.start ns env ∧ env.context = a.context ∧
        List.Forall₂ (fun n n' => Check.node a.context.decls n = pure n') ns a.unit.nodes ∧
        a.unit.file = unit.file := by
  simp only [SourceUnit.analyzeBridged_eq_ok, SourceUnit.resolve_eq_ok, SourceUnit.check,
    Report.bind_eq_pure, Report.pure_inj, Check.nodes_eq_pure]
  constructor
  · rintro ⟨_, ⟨ns, env, hrun, rfl, hcontext⟩, ns', hcheck, hunit⟩
    rw [← hunit]
    exact ⟨ns, env, hrun, hcontext, hcheck, rfl⟩
  · rintro ⟨ns, env, hrun, hcontext, hcheck, hfile⟩
    refine ⟨_, ⟨ns, env, hrun, rfl, hcontext⟩, _, hcheck, ?_⟩
    rw [← hfile]

theorem SourceUnit.length_of_analyzeBridged {unit : SourceUnit} {a : Analyzed}
    (h : unit.analyzeBridged = .ok a) : a.unit.nodes.length = unit.nodes.length := by
  obtain ⟨ns, env, hrun, -, hcheck, -⟩ := SourceUnit.analyzeBridged_iff.mp h
  have hbare := SourceUnit.bare_resolve (SourceUnit.resolve_eq_ok.mpr ⟨ns, env, hrun, rfl, rfl⟩)
  calc a.unit.nodes.length = ns.length := hcheck.length_eq.symm
    _ = unit.nodes.length := by simpa using congrArg List.length hbare

/-- The analysis `a'` says the same as `a` of the parts at their new places, with declarations that
have new numbers. -/
structure Analyzed.Moved (place : Equiv.Perm Nat) (ρ : Equiv.Perm DeclId) (a a' : Analyzed) :
    Prop where
  nodes : ∀ i, a'.unit.nodes[place i]? = (a.unit.nodes[i]?).map (·.refill (.renumber ρ))
  decls : a.context.decls.Renumbered ρ a'.context.decls
  aliases : a.context.aliases.Same a'.context.aliases
  bridge : a'.context.bridge = a.context.bridge

theorem DeclTable.Renumbered.refl (decls : DeclTable) :
    decls.Renumbered (Equiv.refl DeclId) decls := by
  refine ⟨fun _ => ?_, rfl⟩
  rw [Equiv.refl_apply, Equiv.coe_refl, Slots.renumber_id]
  simp only [DeclInfo.refill_unchanged, Option.map_id']

theorem DeclTable.Renumbered.trans {ρ ρ' : Equiv.Perm DeclId} {decls decls' decls'' : DeclTable}
    (h : decls.Renumbered ρ decls') (h' : decls'.Renumbered ρ' decls'') :
    decls.Renumbered (ρ.trans ρ') decls'' := by
  refine ⟨fun id => ?_, h'.length.trans h.length⟩
  rw [Equiv.trans_apply, h'.entry, h.entry, Option.map_map, Equiv.coe_trans, ← Slots.renumber_comp]
  simp only [Function.comp_def, DeclInfo.refill_refill]

namespace Analyzed.Moved

variable {place place' : Equiv.Perm Nat} {ρ ρ' : Equiv.Perm DeclId} {a a' a'' : Analyzed}

theorem refl (a : Analyzed) (hplace : ∀ i < a.unit.nodes.length, place i = i) :
    a.Moved place (Equiv.refl DeclId) a := by
  refine ⟨fun i => ?_, .refl _, .refl _, rfl⟩
  rw [Equiv.coe_refl, Slots.renumber_id]
  simp only [Node.refill_unchanged, Option.map_id']
  rcases Nat.lt_or_ge i a.unit.nodes.length with hlt | hge
  · rw [hplace i hlt]
  · have houtside : a.unit.nodes.length ≤ place i := by
      by_contra hlt
      have hfixed := place.injective (hplace (place i) (Nat.lt_of_not_le hlt))
      omega
    rw [List.getElem?_eq_none houtside, List.getElem?_eq_none hge]

theorem trans (h : a.Moved place ρ a') (h' : a'.Moved place' ρ' a'') :
    a.Moved (place.trans place') (ρ.trans ρ') a'' := by
  refine ⟨fun i => ?_, h.decls.trans h'.decls, h.aliases.trans h'.aliases,
    h'.bridge.trans h.bridge⟩
  rw [Equiv.trans_apply, h'.nodes, h.nodes, Option.map_map, Equiv.coe_trans, ← Slots.renumber_comp]
  simp only [Function.comp_def, Node.refill_refill]

end Analyzed.Moved

/-- What the analysis finds if two neighbours are exchanged. -/
theorem SourceUnit.analyze_exchange {file : Nat} {front rest : List Node} {n m : Node} {a : Analyzed}
    (h : (SourceUnit.mk file (front ++ n :: m :: rest)).analyzeBridged = .ok a)
    (hfree : ¬ n.Ordered m) :
    ∃ a' ρ, (SourceUnit.mk file (front ++ m :: n :: rest)).analyzeBridged = .ok a' ∧
      a.Moved (Equiv.swap front.length (front.length + 1)) ρ a' := by
  obtain ⟨ns, env, hrun, hcontext, hcheck, hfile⟩ := SourceUnit.analyzeBridged_iff.mp h
  obtain ⟨ρ, front₁, n₁, m₁, rest₁, env', rfl, hlength, hrun', ht, hdecls⟩ :=
    Resolver.unit_exchange hrun hfree
  obtain ⟨front₂, n₂, m₂, rest₂, hnodes, hfront, hn, hm, hrest⟩ :=
    exists_of_forall₂_neighbours hcheck
  have hrenumbered := ht.renumbered hdecls
  have hcheck' : List.Forall₂ (fun n n' => Check.node env'.context.decls n = pure n')
      ((front₁ ++ m₁ :: n₁ :: rest₁).map (·.refill (.renumber ρ)))
      ((front₂ ++ m₂ :: n₂ :: rest₂).map (·.refill (.renumber ρ))) := by
    rw [List.forall₂_map_left_iff, List.forall₂_map_right_iff]
    refine (List.rel_append hfront (.cons hm (.cons hn hrest))).imp fun n n' hn => ?_
    rw [← hcontext] at hn
    rw [Check.node_renumber hrenumbered, hn, map_pure]
  refine ⟨⟨⟨file, (front₂ ++ m₂ :: n₂ :: rest₂).map (·.refill (.renumber ρ))⟩, env'.context⟩, ρ,
    SourceUnit.analyzeBridged_iff.mpr ⟨_, env', ?_, rfl, hcheck', rfl⟩, ⟨fun i => ?_, ?_, ?_, ?_⟩⟩
  · rw [SourceUnit.start, Resolver.bridgeContext_exchange hfree]
    exact hrun'
  · have hlength₂ : front.length = front₂.length := hlength.symm.trans hfront.length_eq
    rw [hnodes, List.getElem?_map, hlength₂, Reordering.getElem?_exchange]
  · exact hcontext ▸ hrenumbered
  · exact hcontext ▸ ht.aliases
  · exact hcontext ▸ ht.bridge

/-- The analysis of a unit is that of the unit with its parts in another order, wherever the order
does not matter. -/
theorem SourceUnit.analyze_reordered {u : SourceUnit} {nodes : List Node} {a : Analyzed}
    (r : Reordering u.nodes nodes) (h : u.analyzeBridged = .ok a) :
    ∃ a' ρ, { u with nodes }.analyzeBridged = .ok a' ∧ a.Moved r.place ρ a' := by
  obtain ⟨file, ns⟩ := u
  let Keeps (ns ns' : List Node) (place : Equiv.Perm Nat) : Prop :=
    ∀ a, (SourceUnit.mk file ns).analyzeBridged = .ok a →
      ∃ a' ρ, (SourceUnit.mk file ns').analyzeBridged = .ok a' ∧ a.Moved place ρ a'
  suffices hkeeps : Keeps ns nodes r.place from hkeeps a h
  refine Reordering.by_exchanges (P := Keeps) (fun ns place hplace a h => ?_) ?_ ?_ r
  · refine ⟨a, _, h, .refl a fun i hi => hplace i ?_⟩
    exact Nat.lt_of_lt_of_eq hi (SourceUnit.length_of_analyzeBridged h)
  · intro ns ns' ns'' place place' hfirst hsecond a h
    obtain ⟨a', ρ, h', hmoved⟩ := hfirst a h
    obtain ⟨a'', ρ', h'', hmoved'⟩ := hsecond a' h'
    exact ⟨a'', _, h'', hmoved.trans hmoved'⟩
  · intro front n m rest hfree a h
    exact SourceUnit.analyze_exchange h hfree

/-- The order of the parts does not matter: neither for whether a unit can be analyzed, nor for what
is found. -/
theorem analysis_independent_of_order (u : SourceUnit) (nodes : List Node)
    (r : Reordering u.nodes nodes) :
    ((∃ a, u.analyzeBridged = .ok a) ↔ ∃ a', { u with nodes }.analyzeBridged = .ok a') ∧
      ∀ a a', u.analyzeBridged = .ok a → { u with nodes }.analyzeBridged = .ok a' →
        ∃ ρ, a.Moved r.place ρ a' := by
  refine ⟨⟨?_, ?_⟩, fun a a' h h' => ?_⟩
  · rintro ⟨a, h⟩
    obtain ⟨a', _, h', -⟩ := SourceUnit.analyze_reordered r h
    exact ⟨a', h'⟩
  · rintro ⟨a', h'⟩
    obtain ⟨a, _, h, -⟩ := SourceUnit.analyze_reordered (u := { u with nodes }) r.symm h'
    exact ⟨a, h⟩
  · obtain ⟨other, ρ, hother, hmoved⟩ := SourceUnit.analyze_reordered r h
    obtain rfl : other = a' := Except.ok.inj (hother.symm.trans h')
    exact ⟨ρ, hmoved⟩

/-- An alias that moves in front of the function whose result it names. -/
theorem alias_moves_first : ∃ unit n m a a' ρ,
    SourceUnit.parse 0 "T f() { return 1 } alias int T" = .ok unit ∧ unit.nodes = [n, m] ∧
    unit.analyzeBridged = .ok a ∧ { unit with nodes := [m, n] }.analyzeBridged = .ok a' ∧
    a.Moved (Equiv.swap 0 1) ρ a' := by
  have hok : ((SourceUnit.parse 0 "T f() { return 1 } alias int T").toOption.any fun unit =>
      unit.nodes.map Resolver.isAlias == [false, true] &&
        unit.analyzeBridged.toOption.isSome) = true := by
    rw [SourceUnit.parse_ofList]
    decide +kernel
  obtain ⟨unit, hparse, hok⟩ := SourceUnit.exists_parsed hok
  simp only [Bool.and_eq_true, beq_iff_eq] at hok
  obtain ⟨hkinds, hsome⟩ := hok
  obtain ⟨n, rest, hnodes, -, hrest⟩ := List.map_eq_cons_iff.mp hkinds
  obtain ⟨m, rest, rfl, hm, hrest⟩ := List.map_eq_cons_iff.mp hrest
  obtain rfl := List.map_eq_nil_iff.mp hrest
  -- The order of an alias and another part does not matter.
  have hfree : ¬ n.Ordered m := by
    obtain ⟨item, rfl⟩ | hother := Resolver.isAlias_cases m
    · cases n <;> exact id
    · rw [hm] at hother
      cases hother
  cases ha : unit.analyzeBridged with
  | error e => simp [ha, Except.toOption] at hsome
  | ok a =>
    let r : Reordering unit.nodes [m, n] :=
      { place := Equiv.swap 0 1
        same := fun i => by rw [hnodes]; exact Reordering.getElem?_exchange [] _ _ [] i
        keeps := fun i j n' m' hij hn hm hordered => by
          rw [hnodes] at hn hm
          obtain ⟨rfl, rfl⟩ : i = 0 ∧ j = 1 := by
            have := (List.getElem?_eq_some_iff.mp hm).1
            simp at this
            omega
          obtain rfl := Option.some.inj hn
          obtain rfl := Option.some.inj hm
          exact absurd hordered hfree }
    obtain ⟨hsuccess, hmoved⟩ := analysis_independent_of_order unit _ r
    obtain ⟨a', ha'⟩ := hsuccess.mp ⟨a, ha⟩
    obtain ⟨ρ, hρ⟩ := hmoved a a' ha ha'
    exact ⟨unit, _, _, a, a', ρ, hparse, hnodes, ha, ha', hρ⟩

end KilnLang
