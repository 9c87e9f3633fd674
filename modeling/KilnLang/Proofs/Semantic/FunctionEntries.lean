import KilnLang.Proofs.Semantic.Completion
import KilnLang.Proofs.Semantic.DefaultSlots

/-!
# The functions of the declaration table

**Theorem (`SourceUnit.functionEntries`).** In the table of a resolved unit, the functions are those
of the parts: every function of the unit has an entry with its name and its signature, every entry
of a function belongs to one of them, an entry counts as defined exactly if one of its parts has a
body, and no entry has two parts with bodies (`FunctionEntries`).

The entries are those of the declared parts (`DeclaredIn`). Resolving the parts afterwards adds
parameters and variables and changes defaults, but no other entry of a function
(`DeclTable.KeepsFunctions`), and neither resolving nor checking changes what a part declares
(`Node.Alike`).
-/

namespace KilnLang

/-! ## Tables with the same functions -/

/-- After the same declarations, up to their defaults, the other table has further ones, none of
which is a function. -/
structure DeclTable.KeepsFunctions (t t' : DeclTable) : Prop where
  kept : ∀ (id : DeclId) (info : DeclInfo), t[id]? = some info →
    ∃ defaults, t'[id]? = some { info with defaults }
  added : ∀ (id : DeclId) (info : DeclInfo), t'[id]? = some info → t.length ≤ id →
    info.kind ≠ .function

namespace DeclTable.KeepsFunctions

variable {t t' t'' : DeclTable} {id : DeclId} {info : DeclInfo}

theorem refl (t : DeclTable) : t.KeepsFunctions t :=
  ⟨fun _ info h => ⟨info.defaults, h⟩,
    fun _ _ h hle => absurd (List.getElem?_eq_some_iff.mp h).1 (Nat.not_lt.mpr hle)⟩

/-- An entry that the tables share is the same up to its defaults. -/
theorem entry (h : t.KeepsFunctions t') (hinfo : t'[id]? = some info) (hid : id < t.length) :
    ∃ old defaults, t[id]? = some old ∧ info = { old with defaults } := by
  obtain ⟨defaults, hkept⟩ := h.kept id t[id] (List.getElem?_eq_getElem hid)
  exact ⟨t[id], defaults, List.getElem?_eq_getElem hid, Option.some.inj (hinfo.symm.trans hkept)⟩

/-- Every function is among the entries that the tables share. -/
theorem lt_length (h : t.KeepsFunctions t') (hinfo : t'[id]? = some info)
    (hkind : info.kind = .function) : id < t.length := by
  by_contra hid
  exact h.added id info hinfo (Nat.le_of_not_lt hid) hkind

theorem trans (h : t.KeepsFunctions t') (h' : t'.KeepsFunctions t'') : t.KeepsFunctions t'' := by
  refine ⟨fun id info hinfo => ?_, fun id info hinfo hle => ?_⟩
  · obtain ⟨defaults, hmiddle⟩ := h.kept id info hinfo
    exact h'.kept id { info with defaults } hmiddle
  · by_cases hid : id < t'.length
    · obtain ⟨old, defaults, hold, rfl⟩ := h'.entry hinfo hid
      exact h.added id old hold hle
    · exact h'.added id info hinfo (Nat.le_of_not_lt hid)

/-- Another entry at the end, which is no function. -/
theorem append (t : DeclTable) (hkind : info.kind ≠ .function) :
    t.KeepsFunctions (t ++ [info]) := by
  refine ⟨fun id old hold => ⟨old.defaults, ?_⟩, fun id new hnew hle => ?_⟩
  · rw [List.getElem?_append_left (List.getElem?_eq_some_iff.mp hold).1, hold]
  · rw [List.getElem?_append_right hle, List.getElem?_singleton] at hnew
    split at hnew
    · obtain rfl := Option.some.inj hnew
      exact hkind
    · cases hnew

/-- Other defaults. -/
theorem modify (t : DeclTable) (id : DeclId) (f : DeclInfo → List (Option Expr)) :
    t.KeepsFunctions (t.modify id fun info => { info with defaults := f info }) := by
  refine ⟨fun other old hold => ?_, fun other new hnew hle => ?_⟩
  · rw [List.getElem?_modify, hold]
    by_cases hsame : id = other
    · exact ⟨f old, by simp [hsame]⟩
    · exact ⟨old.defaults, by simp [hsame]⟩
  · have hlt := (List.getElem?_eq_some_iff.mp hnew).1
    rw [List.length_modify] at hlt
    exact absurd hlt (Nat.not_lt.mpr hle)

end DeclTable.KeepsFunctions

/-! ## Parts that declare the same -/

/-- The parts differ in parameters, bodies and initial values only, and both have a body or none. -/
def Node.Alike (n n' : Node) : Prop := n'.outline = n.outline ∧ n'.hasBody = n.hasBody

/-- A part that is like a function is one, with the same name, number and signature. -/
theorem Node.Alike.function {n : Node} {f' : Function} (h : n.Alike (.function f')) :
    ∃ f, n = .function f ∧ f'.name = f.name ∧ f'.decl = f.decl ∧ f'.sig = f.sig ∧
      f'.body.isSome = f.body.isSome := by
  obtain ⟨houtline, hbody⟩ := h
  cases n with
  | function f =>
    obtain ⟨-, -, hname, -, -, -, hdecl, hsig⟩ := Function.mk.inj (Node.function.inj houtline)
    exact ⟨f, rfl, hname, hdecl, hsig, hbody⟩
  | _ => cases houtline

/-- What is like a function is one, with the same name, number and signature. -/
theorem Node.Alike.of_function {n' : Node} {f : Function} (h : (Node.function f).Alike n') :
    ∃ f', n' = .function f' ∧ f'.name = f.name ∧ f'.decl = f.decl ∧ f'.sig = f.sig ∧
      f'.body.isSome = f.body.isSome := by
  obtain ⟨houtline, hbody⟩ := h
  cases n' with
  | function f' =>
    obtain ⟨-, -, hname, -, -, -, hdecl, hsig⟩ := Function.mk.inj (Node.function.inj houtline)
    exact ⟨f', rfl, hname, hdecl, hsig, hbody⟩
  | _ => cases houtline

/-- Parts that are alike have the same functions, by name, number and whether there is a body. -/
theorem Node.exists_function_alike {ns ns' : List Node} (h : List.Forall₂ Node.Alike ns ns')
    (P : Ident → Option DeclId → Bool → Prop) :
    (∃ f, .function f ∈ ns ∧ P f.name f.decl f.body.isSome) ↔
      ∃ f, .function f ∈ ns' ∧ P f.name f.decl f.body.isSome := by
  constructor
  · rintro ⟨f, hf, hP⟩
    obtain ⟨n', hn', hlike⟩ := forall₂_left h hf
    obtain ⟨f', rfl, hname, hdecl, -, hbody⟩ := hlike.of_function
    rw [← hname, ← hdecl, ← hbody] at hP
    exact ⟨f', hn', hP⟩
  · rintro ⟨f', hf', hP⟩
    obtain ⟨n, hn, hlike⟩ := forall₂_right h hf'
    obtain ⟨f, rfl, hname, hdecl, -, hbody⟩ := hlike.function
    rw [hname, hdecl, hbody] at hP
    exact ⟨f, hn, hP⟩

namespace Resolver

mutual

theorem stmt_keepsFunctions : ∀ {s s' : Stmt} {env env' : Env}, Succeeds (stmt s) env s' env' →
    env.context.decls.KeepsFunctions env'.context.decls
  | .expr e, s', env, env', h => by
    obtain ⟨_, -, -, rfl⟩ := succeeds_expr.mp h
    exact .refl _
  | .decl var, s', env, env', h => by
    obtain ⟨_, hvar, -⟩ := succeeds_decl.mp h
    obtain ⟨_, _, _, -, -, -, -, rfl⟩ := succeeds_localVar.mp hvar
    exact .append _ (by simp)
  | .assign span target op value, s', env, env', h => by
    obtain ⟨_, _, -, -, -, rfl⟩ := succeeds_assign.mp h
    exact .refl _
  | .ret span value, s', env, env', h => by
    obtain ⟨_, -, -, rfl⟩ := succeeds_ret.mp h
    exact .refl _
  | .cond list, s', env, env', h => by
    obtain ⟨_, hlist, -⟩ := succeeds_cond.mp h
    exact branches_keepsFunctions hlist
  | .loop span cond body, s', env, env', h => by
    obtain ⟨_, _, env₁, -, hbody, -, rfl⟩ := succeeds_loop.mp h
    have hinside := stmts_keepsFunctions hbody
    exact hinside
  | .block span body, s', env, env', h => by
    obtain ⟨_, env₁, hbody, -, rfl⟩ := succeeds_block.mp h
    have hinside := stmts_keepsFunctions hbody
    exact hinside
termination_by structural s => s

theorem stmts_keepsFunctions : ∀ {ss ss' : List Stmt} {env env' : Env},
    Succeeds (stmts ss) env ss' env' → env.context.decls.KeepsFunctions env'.context.decls
  | [], ss', env, env', h => by
    obtain ⟨-, rfl⟩ := succeeds_stmts_nil.mp h
    exact .refl _
  | s :: ss, ss', env, env', h => by
    obtain ⟨_, env₁, _, hs, hss, -⟩ := succeeds_stmts_cons.mp h
    exact (stmt_keepsFunctions hs).trans (stmts_keepsFunctions hss)
termination_by structural ss => ss

theorem branch_keepsFunctions : ∀ {b b' : Branch} {env env' : Env},
    Succeeds (branch b) env b' env' → env.context.decls.KeepsFunctions env'.context.decls
  | .mk span g body, b', env, env', h => by
    obtain ⟨_, _, env₁, -, hbody, -, rfl⟩ := succeeds_branch.mp h
    have hinside := stmts_keepsFunctions hbody
    exact hinside
termination_by structural b => b

theorem branches_keepsFunctions : ∀ {bs bs' : List Branch} {env env' : Env},
    Succeeds (branches bs) env bs' env' → env.context.decls.KeepsFunctions env'.context.decls
  | [], bs', env, env', h => by
    obtain ⟨-, rfl⟩ := succeeds_branches_nil.mp h
    exact .refl _
  | b :: bs, bs', env, env', h => by
    obtain ⟨_, env₁, _, hb, hbs, -⟩ := succeeds_branches_cons.mp h
    exact (branch_keepsFunctions hb).trans (branches_keepsFunctions hbs)
termination_by structural bs => bs

end

theorem declareParams_keepsFunctions {ps : List Param} {tys : List Ty} {env env' : Env}
    (h : Succeeds (declareParams ps tys) env () env') :
    env.context.decls.KeepsFunctions env'.context.decls := by
  induction ps generalizing tys env with
  | nil =>
    obtain ⟨-, rfl⟩ := succeeds_pure.mp h
    exact .refl _
  | cons p ps ih =>
    cases tys with
    | nil =>
      obtain ⟨-, rfl⟩ := succeeds_pure.mp h
      exact .refl _
    | cons ty tys =>
      obtain ⟨-, h⟩ := succeeds_declareParams_cons.mp h
      have hparam : env.context.decls.KeepsFunctions (env.context.decls ++
          [⟨p.name.text, p.name.span, .parameter, ty, [], 0, false⟩]) := .append _ (by simp)
      exact hparam.trans (ih h)

theorem setDefault_keepsFunctions (env : Env) (decl : Option DeclId) (index : Nat)
    (default : Option Expr) : env.context.decls.KeepsFunctions
      (env.setDefault decl index default).context.decls := by
  unfold Env.setDefault
  split
  · exact .modify _ _ fun info => info.defaults.set index (some _)
  · exact .refl _

theorem defaults_keepsFunctions {decl : Option DeclId} {index : Nat} {ps ps' : List Param}
    {env env' : Env} (h : Succeeds (defaults decl index ps) env ps' env') :
    env.context.decls.KeepsFunctions env'.context.decls := by
  induction ps generalizing index env ps' with
  | nil =>
    obtain ⟨-, rfl⟩ := succeeds_defaults_nil.mp h
    exact .refl _
  | cons p ps ih =>
    obtain ⟨default, ps', -, hps, -⟩ := succeeds_defaults_cons.mp h
    exact (setDefault_keepsFunctions env decl index default).trans (ih hps)

/-- Resolving a part adds parameters and variables only. -/
theorem node_keepsFunctions {n n' : Node} {env env' : Env} (h : Succeeds (node n) env n' env') :
    env.context.decls.KeepsFunctions env'.context.decls := by
  cases n with
  | function f =>
    obtain ⟨f', hf, -⟩ := succeeds_node_function.mp h
    obtain ⟨ps, env₁, hps, ⟨-, -, rfl⟩ | ⟨body, body', -, hbody, -⟩⟩ := succeeds_function.mp hf
    · exact defaults_keepsFunctions hps
    · obtain ⟨env₂, env₃, hparams, hstmts, rfl⟩ := succeeds_functionBody.mp hbody
      have hinside := (declareParams_keepsFunctions hparams).trans (stmts_keepsFunctions hstmts)
      exact (defaults_keepsFunctions hps).trans hinside
  | global g =>
    obtain ⟨g', hg, -⟩ := succeeds_node_global.mp h
    obtain ⟨_, -, -, rfl⟩ := succeeds_global.mp hg
    exact .refl _
  | _ =>
    obtain ⟨-, rfl⟩ := succeeds_pure.mp h
    exact .refl _

theorem nodes_keepsFunctions {ns ns' : List Node} {env env' : Env}
    (h : Succeeds (nodes ns) env ns' env') :
    env.context.decls.KeepsFunctions env'.context.decls := by
  induction ns generalizing env ns' with
  | nil =>
    obtain ⟨-, rfl⟩ := succeeds_nodes_nil.mp h
    exact .refl _
  | cons n ns ih =>
    obtain ⟨_, env₁, _, hn, hns, -⟩ := succeeds_nodes_cons.mp h
    exact (node_keepsFunctions hn).trans (ih hns)

/-- Resolving a part does not change what it declares. -/
theorem node_alike {n n' : Node} {env env' : Env} (h : Succeeds (node n) env n' env') :
    n.Alike n' := by
  refine ⟨outline_node h, ?_⟩
  cases n with
  | function f =>
    obtain ⟨f', hf, rfl⟩ := succeeds_node_function.mp h
    obtain ⟨ps, env₁, -, ⟨-, rfl, -⟩ | ⟨body, body', hbody, -, rfl⟩⟩ := succeeds_function.mp hf
    · rfl
    · show true = f.body.isSome
      rw [hbody]
      rfl
  | global g =>
    obtain ⟨g', -, rfl⟩ := succeeds_node_global.mp h
    rfl
  | _ =>
    obtain ⟨rfl, -⟩ := succeeds_pure.mp h
    rfl

end Resolver

/-! ## Checking parts -/

namespace Check

variable {decls : DeclTable}

/-- Checking a part does not change what it declares. -/
theorem node_alike (n : Node) : n.Alike (node decls n).value := by
  refine ⟨outline_node n, ?_⟩
  cases n with
  | function f =>
    obtain ⟨span, ret, name, ps, rest, body, decl, sig⟩ := f
    cases sig with
    | none => rfl
    | some sig => cases body <;> rfl
  | _ => rfl

end Check

/-! ## The functions of a unit -/

/-- The functions of a table are those of the parts, and a function is defined if one of the parts
that share it has a body. -/
structure FunctionEntries (decls : DeclTable) (ns : List Node) : Prop where
  declared : ∀ f, .function f ∈ ns → ∃ id info sig, f.decl = some id ∧ decls[id]? = some info ∧
    info.name = f.name.text ∧ info.kind = .function ∧ f.sig = some sig ∧ info.ty = .func sig
  given : ∀ id info, decls[id]? = some info → info.kind = .function →
    ∃ f, .function f ∈ ns ∧ f.decl = some id
  defined : ∀ id info, decls[id]? = some info → info.kind = .function →
    (info.defined = true ↔ ∃ f, .function f ∈ ns ∧ f.decl = some id ∧ f.body.isSome)
  bodies : ns.Pairwise fun n m => ∀ f g, n = .function f → m = .function g → f.decl = g.decl →
    ¬ (f.body.isSome ∧ g.body.isSome)

/-- The declaration of a name is defined exactly if a part with the name has a body. -/
theorem declInfo?_defined_eq {aliases : AliasTable} {name : String} {order : Nat}
    {ns : List Node} {info : DeclInfo} (h : declInfo? aliases name order ns = some info) :
    info.defined = ns.any fun n => n.declares name && n.hasBody := by
  induction ns generalizing order with
  | nil => cases h
  | cons n ns ih =>
    rw [declInfo?] at h
    rw [List.any_cons]
    split at h
    · rename_i hname
      obtain ⟨first, hfirst, rfl⟩ := Option.map_eq_some_iff.mp h
      have hbody : first.defined = n.hasBody := by
        cases n with
        | function f =>
          obtain ⟨sig, -, rfl⟩ := Option.map_eq_some_iff.mp hfirst
          rfl
        | global g =>
          obtain ⟨ty, -, rfl⟩ := Option.map_eq_some_iff.mp hfirst
          rfl
        | _ => cases hfirst
      show (first.defined || _) = _
      rw [hname, Bool.true_and, hbody]
    · rename_i hname
      rw [ih h, Bool.eq_false_iff.mpr hname, Bool.false_and, Bool.false_or]

theorem Node.declares_function {f : Function} {name : String} :
    (Node.function f).declares name ↔ f.name.text = name := by
  simp [declares, name?]

namespace DeclaredIn

variable {aliases : AliasTable} {top : Scope} {decls : DeclTable} {ns : List Node}

/-- Declared functions with one number have one name. -/
theorem name_of_decl (h : DeclaredIn aliases top decls ns) {f g : Function}
    (hf : .function f ∈ ns) (hg : .function g ∈ ns) (hdecl : f.decl = g.decl) :
    f.name.text = g.name.text := by
  obtain ⟨id, hid, hfid⟩ := h.found _ hf f.name.text (Node.declares_function.mpr rfl)
  obtain ⟨id', hid', hgid⟩ := h.found _ hg g.name.text (Node.declares_function.mpr rfl)
  have hfid : f.decl = some id := hfid
  have hgid : g.decl = some id' := hgid
  obtain rfl : id = id' := Option.some.inj (hfid.symm.trans (hdecl.trans hgid))
  exact h.lookup_inj hid hid'

/-- Declaring the parts gives the table the functions of the parts. -/
theorem functionEntries (h : DeclaredIn aliases top decls ns)
    (hann : ∀ n ∈ ns, n.Annotated aliases) : FunctionEntries decls ns where
  declared f hf := by
    have hname : (Node.function f).declares f.name.text := Node.declares_function.mpr rfl
    obtain ⟨id, hid, hdecl⟩ := h.found _ hf _ hname
    obtain ⟨info, hinfo, -⟩ := h.info _ id hid
    obtain ⟨-, hinfoName, hkind, hty⟩ := h.describes hid hinfo _ hf hname
    obtain ⟨sig, hsig, -, -⟩ := hann _ hf
    rw [hsig, Option.map_some, Option.some.injEq] at hty
    exact ⟨id, info, sig, hdecl, hinfo, hinfoName, hkind, hsig, hty.symm⟩
  given id info hinfo hkind := by
    obtain ⟨name, hid⟩ := h.numbered id (List.getElem?_eq_some_iff.mp hinfo).1
    obtain ⟨info', hinfo', hdecl⟩ := h.info name id hid
    obtain rfl : info = info' := Option.some.inj (hinfo.symm.trans hinfo')
    obtain ⟨n, hn, hname⟩ := declInfo?_exists hdecl
    obtain ⟨hnid, hdescribes⟩ := h.describes hid hinfo n hn hname
    cases n with
    | function f => exact ⟨f, hn, hnid⟩
    | global g => cases hkind.symm.trans hdescribes.2.1
    | _ => exact hdescribes.elim
  defined id info hinfo _ := by
    obtain ⟨name, hid⟩ := h.numbered id (List.getElem?_eq_some_iff.mp hinfo).1
    obtain ⟨info', hinfo', hdecl⟩ := h.info name id hid
    obtain rfl : info = info' := Option.some.inj (hinfo.symm.trans hinfo')
    rw [declInfo?_defined_eq hdecl, List.any_eq_true]
    constructor
    · rintro ⟨n, hn, hbody⟩
      obtain ⟨hname, hbody⟩ := Bool.and_eq_true_iff.mp hbody
      cases n with
      | function f => exact ⟨f, hn, (h.describes hid hinfo _ hn hname).1, hbody⟩
      | _ => cases hbody
    · rintro ⟨f, hf, hfid, hbody⟩
      obtain ⟨id', hid', hfid'⟩ := h.found _ hf f.name.text (Node.declares_function.mpr rfl)
      obtain rfl : id = id' := Option.some.inj (hfid.symm.trans hfid')
      have hname : (Node.function f).declares name :=
        Node.declares_function.mpr (h.lookup_inj hid' hid)
      exact ⟨_, hf, Bool.and_eq_true_iff.mpr ⟨hname, hbody⟩⟩
  bodies := by
    refine (List.pairwise_iff_forall_sublist.mpr fun {n m} hsub => ?_)
    rintro f g rfl rfl hdecl hbodies
    have hf := hsub.subset List.mem_cons_self
    have hg := hsub.subset (List.mem_cons_of_mem _ List.mem_cons_self)
    -- Functions with one number have one name, and two parts with one name are compatible.
    have hnames := h.name_of_decl hf hg hdecl
    obtain ⟨f', g', hf', hg', -, hno⟩ := List.pairwise_iff_forall_sublist.mp h.compatible hsub
      g.name.text (Node.declares_function.mpr hnames) (Node.declares_function.mpr rfl)
    obtain rfl := Node.function.inj hf'
    obtain rfl := Node.function.inj hg'
    exact hno hbodies

end DeclaredIn

namespace FunctionEntries

variable {decls decls' : DeclTable} {ns ns' : List Node}

/-- What is known of the functions does not depend on further variables and on defaults. -/
theorem keeps (h : FunctionEntries decls ns) (hkeeps : decls.KeepsFunctions decls') :
    FunctionEntries decls' ns where
  declared f hf := by
    obtain ⟨id, info, sig, hdecl, hinfo, hrest⟩ := h.declared f hf
    obtain ⟨defaults, hinfo'⟩ := hkeeps.kept id info hinfo
    exact ⟨id, _, sig, hdecl, hinfo', hrest⟩
  given id info hinfo hkind := by
    obtain ⟨old, defaults, hold, rfl⟩ := hkeeps.entry hinfo (hkeeps.lt_length hinfo hkind)
    exact h.given id old hold hkind
  defined id info hinfo hkind := by
    obtain ⟨old, defaults, hold, rfl⟩ := hkeeps.entry hinfo (hkeeps.lt_length hinfo hkind)
    exact h.defined id old hold hkind
  bodies := h.bodies

/-- What is known of the functions depends on what the parts declare only. -/
theorem alike (h : FunctionEntries decls ns) (halike : List.Forall₂ Node.Alike ns ns') :
    FunctionEntries decls ns' where
  declared f' hf' := by
    obtain ⟨n, hn, hlike⟩ := forall₂_right halike hf'
    obtain ⟨f, rfl, hname, hdecl, hsig, -⟩ := hlike.function
    rw [hname, hdecl, hsig]
    exact h.declared f hn
  given id info hinfo hkind :=
    (Node.exists_function_alike halike fun _ decl _ => decl = some id).mp
      (h.given id info hinfo hkind)
  defined id info hinfo hkind := by
    rw [h.defined id info hinfo hkind]
    exact Node.exists_function_alike halike fun _ decl body => decl = some id ∧ body
  bodies := by
    obtain ⟨hlength, hlike⟩ := List.forall₂_iff_get.mp halike
    refine List.pairwise_iff_getElem.mpr fun i j hi hj hij f' g' hf' hg' hdecl hbodies => ?_
    have hi' : i < ns.length := hlength ▸ hi
    have hj' : j < ns.length := hlength ▸ hj
    have hlikeF : ns[i].Alike (.function f') := hf' ▸ hlike i hi' hi
    have hlikeG : ns[j].Alike (.function g') := hg' ▸ hlike j hj' hj
    obtain ⟨f, hf, -, hfdecl, -, hfbody⟩ := hlikeF.function
    obtain ⟨g, hg, -, hgdecl, -, hgbody⟩ := hlikeG.function
    refine List.pairwise_iff_getElem.mp h.bodies i j hi' hj' hij f g hf hg ?_ ?_
    · rw [← hfdecl, ← hgdecl, hdecl]
    · rwa [← hfbody, ← hgbody]

end FunctionEntries

/-- **The functions of a unit.** The functions of the table of a resolved unit are those of its
parts. -/
theorem SourceUnit.functionEntries {unit unit' : SourceUnit} {context : SemanticContext}
    (h : unit.resolve = (unit', .ok context)) : FunctionEntries context.decls unit'.nodes := by
  obtain ⟨declared, env, env', top, -, hdeclared, hann, -, -, -, -, hnodes, rfl⟩ :=
    SourceUnit.resolve_passes h
  have halike : List.Forall₂ Node.Alike declared unit'.nodes :=
    (Resolver.nodes_each hnodes).imp fun _ _ ⟨_, _, hnode⟩ => Resolver.node_alike hnode
  exact ((hdeclared.functionEntries hann).keeps (Resolver.nodes_keepsFunctions hnodes)).alike halike

end KilnLang
