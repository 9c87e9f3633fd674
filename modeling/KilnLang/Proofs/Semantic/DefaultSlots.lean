import KilnLang.Proofs.Semantic.PartTransport
import KilnLang.Proofs.Semantic.Scoping
import KilnLang.Proofs.Syntax.Reading

/-!
# The default slots of functions

**Theorem (`SourceUnit.resolve_slots`).** In the table of a resolved unit, a function has one slot
for each parameter, and the slot holds the last default that the parts which declare the function
give for the parameter (`Node.latest?`).

Parameters with a default come last (`SourceUnit.parse_defaultsLast`), so the filled slots are the
last ones, whichever of the parts they come from (`SourceUnit.slots_last`).

A part changes the slots of its own function only. There it replaces the slots of the parameters
for which it has a default and keeps the others (`slot_node`), so slots that were filled once stay
filled, and a run over all parts leaves the last default in each slot (`slot_nodes`).
-/

namespace KilnLang

/-! ## Defaults come last -/

/-- After a parameter with a default, every parameter has one. -/
def Function.DefaultsLast (f : Function) : Prop :=
  f.params.Pairwise fun p q => p.default.isSome → q.default.isSome

/-- In all functions of the unit, parameters with a default come last. -/
def Node.DefaultsLast (ns : List Node) : Prop := ∀ f, .function f ∈ ns → f.DefaultsLast

namespace Parser

open TokenStream

theorem paramList_defaultsLast (needsDefault : Bool) (s : TokenStream) :
    Ensures (paramList needsDefault s) fun r =>
      (r.value.1.Pairwise fun p q => p.default.isSome → q.default.isSome) ∧
        (needsDefault → ∀ p ∈ r.value.1, p.default.isSome) := by
  rw [paramList]
  split
  · exact .ok ⟨.nil, by simp [Step.map]⟩
  · split
    · refine (closeRest_reads _).bind ?_
      rintro ⟨_, s₂, h₂⟩ -
      exact .pure ⟨.nil, by simp⟩
    · refine (typeExpr_reads _).bind ?_
      rintro ⟨ty, s₁, h₁⟩ -
      dsimp only
      split
      · refine (closeRest_reads _).bind ?_
        rintro ⟨_, s₃, h₃⟩ -
        exact .pure ⟨.nil, by simp⟩
      · refine (ident_reads _).bind ?_
        rintro ⟨name, s₂, h₂⟩ -
        refine (defaultValue_reads s₂).bind ?_
        rintro ⟨default, s₃, h₃⟩ -
        dsimp only
        split
        · exact .error
        · rename_i hdefault
          have hneeds : needsDefault → default.isSome := by
            simpa [Option.isNone_iff_eq_none, Option.isSome_iff_ne_none] using hdefault
          split
          · -- The parameters that follow need a default if this one has one.
            refine (paramList_defaultsLast default.isSome _).bind ?_
            rintro ⟨⟨params, rest⟩, s₅, h₅⟩ ⟨hlast, hall⟩
            exact .pure ⟨.cons (fun q hq hp => hall hp q hq) hlast, fun hn =>
              List.forall_mem_cons.mpr ⟨hneeds hn, hall (hneeds hn)⟩⟩
          · refine (closeList_reads _).bind ?_
            rintro ⟨_, s₄, h₄⟩ -
            exact .pure ⟨List.pairwise_singleton .., by simpa using hneeds⟩
termination_by s.size
decreasing_by all_goals omega

theorem node_defaultsLast (s : TokenStream) :
    Ensures (node s) fun r => Node.DefaultsLast [r.value] := by
  unfold node
  split
  · refine (ident_reads _).bind ?_
    rintro ⟨first, s₂, h₂⟩ -
    refine (includeTail_reads _).bind ?_
    rintro ⟨more, s₃, h₃⟩ -
    exact .pure (by simp [Node.DefaultsLast])
  · split
    · refine (typeExpr_reads _).bind ?_
      rintro ⟨target, s₂, h₂⟩ -
      refine (ident_reads _).bind ?_
      rintro ⟨name, s₃, h₃⟩ -
      exact .pure (by simp [Node.DefaultsLast])
    · refine (typeExpr_reads _).bind ?_
      rintro ⟨ty, s₁, h₁⟩ -
      refine (ident_reads _).bind ?_
      rintro ⟨name, s₂, h₂⟩ -
      dsimp only
      split
      · refine (paramList_defaultsLast false _).bind ?_
        rintro ⟨⟨params, rest⟩, s₄, h₄⟩ ⟨hlast, -⟩
        refine (functionBody_reads _).bind ?_
        rintro ⟨body, s₅, h₅⟩ -
        refine .pure fun f hf => ?_
        obtain rfl := Node.function.inj (List.mem_singleton.mp hf)
        exact hlast
      · refine (varDecl_reads _ _ _).bind ?_
        rintro ⟨var, s₃, h₃⟩ -
        exact .pure (by simp [Node.DefaultsLast])

theorem nodes_defaultsLast (s : TokenStream) : Ensures (nodes s) Node.DefaultsLast := by
  rw [nodes]
  split
  · exact .ok (by simp [Node.DefaultsLast])
  · refine (node_defaultsLast s).bind ?_
    rintro ⟨first, s₁, h₁⟩ hfirst
    have hle := (s₁.skip .semi).notLonger
    refine (nodes_defaultsLast (s₁.skip .semi).rest).bind ?_
    intro more hmore
    refine .pure fun f hf => ?_
    rcases List.mem_cons.mp hf with hf | hf
    · exact hfirst f (List.mem_singleton.mpr hf)
    · exact hmore f hf
termination_by s.size
decreasing_by all_goals omega

end Parser

/-- The parser accepts a default only if all parameters after it have one. -/
theorem SourceUnit.parse_defaultsLast {file : Nat} {text : String} {unit : SourceUnit}
    (h : SourceUnit.parse file text = .ok unit) : Node.DefaultsLast unit.nodes := by
  obtain ⟨tokens, nodes, -, hnodes, rfl⟩ := SourceUnit.parse_eq_ok.mp h
  exact Parser.nodes_defaultsLast _ nodes hnodes

/-- Resolution keeps which parameters have a default. -/
theorem SourceUnit.resolve_defaultsLast {unit unit' : SourceUnit} {context : SemanticContext}
    (h : unit.resolve = (unit', .ok context)) (hlast : Node.DefaultsLast unit.nodes) :
    Node.DefaultsLast unit'.nodes := by
  intro f' hf'
  have hmem : (Node.function f').refill .emptied ∈ unit.nodes.map (·.refill .emptied) :=
    SourceUnit.bare_resolve h ▸ List.mem_map_of_mem hf'
  obtain ⟨n, hn, hsame⟩ := List.mem_map.mp hmem
  cases n with
  | function f =>
    have hparams : f.params.map (·.refill .emptied) = f'.params.map (·.refill .emptied) :=
      (Function.mk.inj (Node.function.inj hsame)).2.2.2.1
    have hpairs : (f.params.map (·.refill .emptied)).Pairwise
        fun p q => p.default.isSome → q.default.isSome := by
      refine List.pairwise_map.mpr ((hlast f hn).imp ?_)
      simp [Param.refill]
    rw [hparams, List.pairwise_map] at hpairs
    exact hpairs.imp fun hpq => by simpa [Param.refill] using hpq
  | _ => cases hsame

/-! ## Defaults of parts -/

namespace Node

variable {id : DeclId} {i : Nat} {e : Expr} {n : Node} {ns : List Node}

/-- The default that a part gives for a parameter of the function. -/
def default? (id : DeclId) (i : Nat) : Node → Option Expr
  | .function f => if f.decl = some id then f.params[i]?.bind (·.default) else none
  | _ => none

/-- The last default that parts give for a parameter of the function. -/
def latest? (id : DeclId) (i : Nat) : List Node → Option Expr
  | [] => none
  | n :: ns => (latest? id i ns).or (n.default? id i)

theorem mem_of_latest? (h : latest? id i ns = some e) : ∃ n ∈ ns, n.default? id i = some e := by
  induction ns with
  | nil => cases h
  | cons n ns ih =>
    rcases Option.or_eq_some_iff.mp h with h | ⟨-, h⟩
    · obtain ⟨m, hm, hdefault⟩ := ih h
      exact ⟨m, List.mem_cons_of_mem _ hm, hdefault⟩
    · exact ⟨n, List.mem_cons_self, h⟩

theorem isSome_latest? (hn : n ∈ ns) (h : (n.default? id i).isSome) :
    (latest? id i ns).isSome := by
  induction ns with
  | nil => cases hn
  | cons m ms ih =>
    rw [latest?, Option.isSome_or]
    rcases List.mem_cons.mp hn with rfl | hn
    · simp [h]
    · simp [ih hn]

theorem default?_eq_some (h : n.default? id i = some e) : ∃ f p, n = .function f ∧
    f.decl = some id ∧ f.params[i]? = some p ∧ p.default = some e := by
  cases n with
  | function f =>
    rw [default?] at h
    split at h
    · obtain ⟨p, hp, hdefault⟩ := Option.bind_eq_some_iff.mp h
      exact ⟨f, p, rfl, ‹_›, hp, hdefault⟩
    · cases h
  | _ => cases h

end Node

/-! ## What a part does to the slots -/

/-- The slot of a parameter of the function. -/
def DeclTable.slot? (t : DeclTable) (id : DeclId) (i : Nat) : Option (Option Expr) :=
  (t.defaultsOf id)[i]?

theorem DeclTable.defaultsOf_congr {t t' : DeclTable} {id : DeclId} (h : t'[id]? = t[id]?) :
    t'.defaultsOf id = t.defaultsOf id := by
  rw [defaultsOf, defaultsOf, h]

theorem Env.Pushes.defaultsOf {env env' : Env} (h : env.Pushes env') (id : DeclId) :
    env'.context.decls.defaultsOf id = env.context.decls.defaultsOf id := by
  obtain ⟨added, hadded, hnone⟩ := h.decls
  rw [hadded]
  by_cases hid : id < env.context.decls.length
  · exact DeclTable.defaultsOf_congr (List.getElem?_append_left hid)
  · have hold : env.context.decls[id]? = none := List.getElem?_eq_none (Nat.le_of_not_lt hid)
    rw [DeclTable.defaultsOf, DeclTable.defaultsOf, hold,
      List.getElem?_append_right (Nat.le_of_not_lt hid)]
    cases hinfo : added[id - env.context.decls.length]? with
    | none => rfl
    | some info => exact hnone info (List.mem_of_getElem? hinfo)

theorem Env.slot?_setDefault (env : Env) (id : DeclId) (index : Nat) (default : Option Expr)
    (i : Nat) : (env.setDefault (some id) index default).context.decls.slot? id i =
      (env.context.decls.slot? id i).map fun old => if i = index then default.or old else old := by
  cases default with
  | none =>
    show env.context.decls.slot? id i = _
    cases env.context.decls.slot? id i <;> simp
  | some e =>
    simp only [Env.setDefault, Env.update, DeclTable.slot?, DeclTable.defaultsOf,
      List.getElem?_modify_eq]
    cases env.context.decls[id]? with
    | none => rfl
    | some info =>
      by_cases hi : i = index
      · subst hi
        by_cases hlt : i < info.defaults.length <;> simp [hlt]
      · simp [hi, Ne.symm hi]

namespace Resolver

variable {id : DeclId} {i : Nat} {env env' : Env}

/-- Each default is recorded in the slot of its parameter, and the other slots stay. -/
theorem slot_defaults {index : Nat} {ps ps' : List Param}
    (h : Succeeds (defaults (some id) index ps) env ps' env') :
    env'.context.decls.slot? id i = (env.context.decls.slot? id i).map fun old =>
      if index ≤ i then (ps'[i - index]?.bind (·.default)).or old else old := by
  induction ps generalizing index env ps' with
  | nil =>
    obtain ⟨rfl, rfl⟩ := succeeds_defaults_nil.mp h
    cases env.context.decls.slot? id i <;> simp
  | cons p ps ih =>
    obtain ⟨default, ps', -, hps, rfl⟩ := succeeds_defaults_cons.mp h
    rw [ih hps, Env.slot?_setDefault, Option.map_map]
    congr 1
    funext old
    rcases Nat.lt_trichotomy i index with hi | rfl | hi
    · simp [Nat.not_le.mpr hi, Nat.not_le.mpr (Nat.lt_succ_of_lt hi), Nat.ne_of_lt hi]
    · simp
    · have hplace : i - index = (i - (index + 1)) + 1 := by omega
      simp [Nat.le_of_lt hi, Nat.succ_le_of_lt hi, Nat.ne_of_gt hi, hplace]

theorem params_defaults {decl : Option DeclId} {index : Nat} {ps ps' : List Param}
    (h : Succeeds (defaults decl index ps) env ps' env') : ps'.map (·.ty) = ps.map (·.ty) := by
  induction ps generalizing index env ps' with
  | nil => rw [← (succeeds_defaults_nil.mp h).1]
  | cons p ps ih =>
    obtain ⟨default, ps', -, hps, rfl⟩ := succeeds_defaults_cons.mp h
    exact congrArg (p.ty :: ·) (ih hps)

/-- A part replaces the slots for which it has a default, and keeps the others. -/
theorem slot_node {n n' : Node} (h : Succeeds (node n) env n' env') (hvargs : env.vargs = none) :
    env'.context.decls.slot? id i =
      (env.context.decls.slot? id i).map fun old => (n'.default? id i).or old := by
  have hkeep : ∀ slot : Option (Option Expr), slot = slot.map fun old => none.or old := by
    intro slot
    cases slot <;> rfl
  cases n with
  | function f =>
    obtain ⟨f', hf, rfl⟩ := succeeds_node_function.mp h
    obtain ⟨ps, env₁, hps, hbody⟩ := succeeds_function.mp hf
    have hbefore : env'.context.decls.slot? id i = env₁.context.decls.slot? id i ∧
        f'.decl = f.decl ∧ f'.params = ps := by
      rcases hbody with ⟨-, rfl, rfl⟩ | ⟨body, body', -, hbody, rfl⟩
      · exact ⟨rfl, rfl, rfl⟩
      · have hvargs₁ : env₁.vargs = none := (defaults_touches hps).1.vargs.trans hvargs
        have hpushes := (functionBody_pushes hbody hvargs₁).1
        exact ⟨by rw [DeclTable.slot?, DeclTable.slot?, hpushes.defaultsOf], rfl, rfl⟩
    obtain ⟨hslot, hdecl, rfl⟩ := hbefore
    rw [hslot, Node.default?, hdecl]
    by_cases hid : f.decl = some id
    · rw [hid] at hps
      simpa [hid] using slot_defaults (i := i) hps
    · rw [if_neg hid, ← hkeep, DeclTable.slot?, DeclTable.slot?,
        DeclTable.defaultsOf_congr ((defaults_touches hps).2.2 id hid)]
  | global g =>
    obtain ⟨g', hg, rfl⟩ := succeeds_node_global.mp h
    obtain ⟨_, -, -, rfl⟩ := succeeds_global.mp hg
    exact hkeep _
  | _ =>
    obtain ⟨rfl, rfl⟩ := succeeds_pure.mp h
    exact hkeep _

/-- After all parts, each slot has the last default for it. -/
theorem slot_nodes {ns ns' : List Node} {top : Scope} (h : Succeeds (nodes ns) env ns' env')
    (hscopes : env.scopes = [top]) (hvargs : env.vargs = none) :
    env'.context.decls.slot? id i =
      (env.context.decls.slot? id i).map fun old => (Node.latest? id i ns').or old := by
  induction ns generalizing env ns' with
  | nil =>
    obtain ⟨rfl, rfl⟩ := succeeds_nodes_nil.mp h
    cases env.context.decls.slot? id i <;> rfl
  | cons n ns ih =>
    obtain ⟨n', env₁, ns', hn, hns, rfl⟩ := succeeds_nodes_cons.mp h
    obtain ⟨htouches, hscopes₁⟩ := node_touches hn hscopes hvargs
    rw [ih hns hscopes₁ (htouches.grows.vargs.trans hvargs), slot_node hn hvargs, Option.map_map]
    congr 1
    funext old
    exact (Option.or_assoc ..).symm

/-- Every resolved part comes from resolving a declared one. -/
theorem nodes_each {ns ns' : List Node} (h : Succeeds (nodes ns) env ns' env') :
    List.Forall₂ (fun n n' => ∃ env₁ env₂, Succeeds (node n) env₁ n' env₂) ns ns' := by
  induction ns generalizing env ns' with
  | nil =>
    obtain ⟨rfl, -⟩ := succeeds_nodes_nil.mp h
    exact .nil
  | cons n ns ih =>
    obtain ⟨n', env₁, ns', hn, hns, rfl⟩ := succeeds_nodes_cons.mp h
    exact .cons ⟨env, env₁, hn⟩ (ih hns)

end Resolver

/-! ## The slots of a unit -/

/-- Before the parts are resolved, a function has one empty slot for each parameter. -/
theorem declInfo?_slots {aliases : AliasTable} {name : String} {order : Nat} {ns : List Node}
    {info : DeclInfo} {sig : Signature Ty} (hann : ∀ n ∈ ns, n.Annotated aliases)
    (h : declInfo? aliases name order ns = some info) (hkind : info.kind = .function)
    (hty : info.ty = .func sig) : info.defaults = List.replicate sig.params.length none := by
  induction ns generalizing order with
  | nil => cases h
  | cons n ns ih =>
    obtain ⟨hn, hns⟩ := List.forall_mem_cons.mp hann
    rw [declInfo?] at h
    split at h
    · obtain ⟨first, hfirst, rfl⟩ := Option.map_eq_some_iff.mp h
      cases n with
      | function f =>
        obtain ⟨sig', hsig', rfl⟩ := Option.map_eq_some_iff.mp hfirst
        obtain ⟨sig₁, hsig₁, -, hparams⟩ := hn
        obtain rfl : sig' = sig := Ty.func.inj hty
        obtain rfl : sig' = sig₁ := Option.some.inj (hsig'.symm.trans hsig₁)
        show List.replicate f.params.length none = _
        rw [hparams.length_eq]
      | global g =>
        obtain ⟨ty, -, rfl⟩ := Option.map_eq_some_iff.mp hfirst
        cases hkind
      | _ => cases hfirst
    · exact ih hns h

/-- A function of a resolved unit has one parameter for each of its signature and one slot for each
parameter, which holds the last default for it. -/
theorem SourceUnit.resolve_slots {unit unit' : SourceUnit} {context : SemanticContext}
    (h : unit.resolve = (unit', .ok context)) {f : Function} (hf : .function f ∈ unit'.nodes) :
    ∃ id sig, f.decl = some id ∧ f.sig = some sig ∧ f.params.length = sig.params.length ∧
      (context.decls.defaultsOf id).length = sig.params.length ∧
      ∀ i < sig.params.length, context.decls.slot? id i = some (Node.latest? id i unit'.nodes) := by
  obtain ⟨declared, env, env', top, -, hdeclared, hann, -, hscopes, hvargs, -, hnodes, rfl⟩ :=
    SourceUnit.resolve_passes h
  obtain ⟨n, hn, env₁, env₂, hnode⟩ := forall₂_right (Resolver.nodes_each hnodes) hf
  cases n with
  | function f₀ =>
    obtain ⟨f', hf', heq⟩ := Resolver.succeeds_node_function.mp hnode
    obtain rfl := Node.function.inj heq
    obtain ⟨sig, hsig, -, hparams⟩ := hann _ hn
    have hname : (Node.function f₀).declares f₀.name.text := by simp [Node.declares, Node.name?]
    obtain ⟨id, hid, hdecl⟩ := hdeclared.found _ hn f₀.name.text hname
    obtain ⟨info, hinfo, hdeclInfo⟩ := hdeclared.info _ _ hid
    obtain ⟨-, hkind, hty⟩ := declInfo?_describes hdeclared.compatible hdeclInfo hn
      (by simp [Node.declares, Node.name?])
    rw [hsig, Option.map_some, Option.some.injEq] at hty
    have hslots := declInfo?_slots hann hdeclInfo hkind hty.symm
    have hsame : f'.decl = f₀.decl ∧ f'.sig = f₀.sig ∧ f'.params.length = f₀.params.length := by
      obtain ⟨ps, _, hps, ⟨-, rfl, -⟩ | ⟨_, _, -, -, rfl⟩⟩ := Resolver.succeeds_function.mp hf'
      all_goals exact ⟨rfl, rfl, by simpa using congrArg List.length (Resolver.params_defaults hps)⟩
    -- Declaring leaves all slots empty; resolving the parts fills them.
    have hbefore : env.context.decls.defaultsOf id = List.replicate sig.params.length none := by
      rw [DeclTable.defaultsOf, hinfo]
      exact hslots
    have hslot : ∀ i, env'.context.decls.slot? id i =
        (env.context.decls.slot? id i).map fun old => (Node.latest? id i unit'.nodes).or old :=
      fun i => Resolver.slot_nodes hnodes hscopes hvargs
    refine ⟨id, sig, hsame.1.trans hdecl, hsame.2.1.trans hsig, hsame.2.2.trans hparams.length_eq,
      ?_, fun i hi => ?_⟩
    · -- The slots that are there before the parts are resolved are those that are there after it.
      have hplaces : ∀ i,
          (env'.context.decls.defaultsOf id).length ≤ i ↔ sig.params.length ≤ i := by
        intro i
        have hnone :
            env'.context.decls.slot? id i = none ↔ env.context.decls.slot? id i = none := by
          rw [hslot i, Option.map_eq_none_iff]
        rwa [DeclTable.slot?, DeclTable.slot?, hbefore, List.getElem?_eq_none_iff,
          List.getElem?_eq_none_iff, List.length_replicate] at hnone
      exact Nat.le_antisymm ((hplaces _).mpr (Nat.le_refl _)) ((hplaces _).mp (Nat.le_refl _))
    · rw [hslot, DeclTable.slot?, hbefore]
      simp [hi]
  | global g =>
    obtain ⟨g', -, heq⟩ := Resolver.succeeds_node_global.mp hnode
    cases heq
  | _ => cases (Resolver.succeeds_pure.mp hnode).1

/-- Whatever a slot holds is the default of its parameter in a part. -/
theorem SourceUnit.default_of_slot {unit unit' : SourceUnit} {context : SemanticContext}
    (h : unit.resolve = (unit', .ok context)) {id : DeclId} {i : Nat} {e : Expr}
    (he : context.decls.slot? id i = some (some e)) :
    ∃ (f : Function) (p : Param), .function f ∈ unit'.nodes ∧ f.decl = some id ∧
      f.params[i]? = some p ∧ p.default = some e := by
  obtain ⟨declared, env, env', top, -, hdeclared, -, -, hscopes, hvargs, -, hnodes, rfl⟩ :=
    SourceUnit.resolve_passes h
  rw [Resolver.slot_nodes hnodes hscopes hvargs, Option.map_eq_some_iff] at he
  obtain ⟨old, hold, hlatest⟩ := he
  have hempty : old = none := by
    rw [DeclTable.slot?, DeclTable.defaultsOf] at hold
    cases hinfo : env.context.decls[id]? with
    | none => simp [hinfo] at hold
    | some info =>
      rw [hinfo] at hold
      cases old with
      | none => rfl
      | some e =>
        exact absurd (List.mem_of_getElem? hold)
          (hdeclared.no_default info (List.mem_of_getElem? hinfo) e)
  rw [hempty, Option.or_none] at hlatest
  obtain ⟨n, hn, hdefault⟩ := Node.mem_of_latest? hlatest
  obtain ⟨f, p, rfl, hdecl, hp, hpe⟩ := Node.default?_eq_some hdefault
  exact ⟨f, p, hn, hdecl, hp, hpe⟩

/-- If in each part the parameters with a default come last, the filled slots come last. -/
theorem SourceUnit.slots_last {unit unit' : SourceUnit} {context : SemanticContext}
    (h : unit.resolve = (unit', .ok context)) (hlast : Node.DefaultsLast unit'.nodes)
    {f : Function} {id : DeclId} (hf : .function f ∈ unit'.nodes) (hid : f.decl = some id) :
    (context.decls.defaultsOf id).Pairwise fun a b => a.isSome → b.isSome := by
  obtain ⟨id', sig, hid', -, -, hlength, hslots⟩ := SourceUnit.resolve_slots h hf
  obtain rfl : id' = id := Option.some.inj (hid'.symm.trans hid)
  refine List.pairwise_iff_getElem.mpr fun i j hi hj hij hsome => ?_
  have hslot : ∀ k (hk : k < (context.decls.defaultsOf id').length),
      (context.decls.defaultsOf id')[k] = Node.latest? id' k unit'.nodes := by
    intro k hk
    exact Option.some.inj ((List.getElem?_eq_getElem hk).symm.trans (hslots k (hlength ▸ hk)))
  rw [hslot i hi] at hsome
  rw [hslot j hj]
  -- The part that gives the default of one parameter gives those of all later ones.
  obtain ⟨e, he⟩ := Option.isSome_iff_exists.mp hsome
  obtain ⟨n, hn, hdefault⟩ := Node.mem_of_latest? he
  obtain ⟨g, p, rfl, hg, hp, hpe⟩ := Node.default?_eq_some hdefault
  obtain ⟨id, sig', hid, -, hparams, hlength', -⟩ := SourceUnit.resolve_slots h hn
  obtain rfl : id' = id := Option.some.inj (hg.symm.trans hid)
  have hjg : j < g.params.length := by omega
  obtain ⟨hig, rfl⟩ := List.getElem?_eq_some_iff.mp hp
  have hlater := List.pairwise_iff_getElem.mp (hlast g hn) i j hig hjg hij (by simp [hpe])
  refine Node.isSome_latest? hn ?_
  simpa [Node.default?, hg, hjg] using hlater

end KilnLang
