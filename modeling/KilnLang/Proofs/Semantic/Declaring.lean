import KilnLang.Proofs.Semantic.Annotation

/-!
# The scope of a unit

After the parts of a unit have been declared, the unit's scope and the declaration table say
exactly what the parts declare (`DeclaredIn`): a name is in the scope if a part declares it, its
declaration is that of the first part with that name (`declInfo?`), and parts that share a name are
functions with one signature, at most one of which has a body (`Node.Compatible`).

The invariant is indexed by the parts that have been declared so far; a part adds a declaration,
shares one, or declares nothing.
-/

namespace KilnLang

theorem Scope.lookup_cons (name other : String) (id : DeclId) (scope : Scope) :
    List.lookup name ((other, id) :: scope) =
      if name = other then some id else scope.lookup name := by
  rw [List.lookup_cons]
  split
  · rw [if_pos (eq_of_beq ‹_›)]
  · rw [if_neg (ne_of_beq_false ‹_›)]

/-! ## What a part declares -/

namespace Node

/-- The name that a part declares. -/
def name? : Node → Option Ident
  | .function f => some f.name
  | .global g => some g.name
  | _ => none

/-- The declaration of a part. -/
def decl? : Node → Option DeclId
  | .function f => f.decl
  | .global g => g.decl
  | _ => none

/-- Whether a part is a function with a body. -/
def hasBody : Node → Bool
  | .function f => f.body.isSome
  | _ => false

/-- Whether a part declares a name. -/
def declares (name : String) (n : Node) : Bool := n.name?.any (·.text == name)

/-- Parts that share a name are functions with one signature, and not both have a body. -/
def Compatible (n m : Node) : Prop :=
  ∀ name, n.declares name → m.declares name → ∃ f g, n = .function f ∧ m = .function g ∧
    f.sig = g.sig ∧ ¬ (f.body.isSome ∧ g.body.isSome)

/-- The declaration of a part that is the first with its name, after `order` globals. -/
def newInfo? (aliases : AliasTable) (order : Nat) : Node → Option DeclInfo
  | .function f => f.sig.map fun sig =>
    ⟨f.name.text, f.name.span, .function, .func sig, List.replicate f.params.length none, 0,
      f.body.isSome⟩
  | .global g => (aliases.annotate g.ty).2.toOption.map fun ty =>
    ⟨g.name.text, g.name.span, .global, ty, [], order, false⟩
  | _ => none

/-- The number of globals among parts. -/
def globals : List Node → Nat
  | [] => 0
  | n :: ns => Resolver.globalCount n + globals ns

@[simp] theorem globals_nil : globals [] = 0 := rfl

@[simp] theorem globals_cons (n : Node) (ns : List Node) :
    globals (n :: ns) = Resolver.globalCount n + globals ns := rfl

theorem globals_append (ns ms : List Node) : globals (ns ++ ms) = globals ns + globals ms := by
  induction ns with
  | nil => simp
  | cons n ns ih => rw [List.cons_append, globals_cons, globals_cons, ih, Nat.add_assoc]

end Node

/-- The declaration of a name in a unit: that of the first part with the name, which has a body if
any of them has one. -/
def declInfo? (aliases : AliasTable) (name : String) : (order : Nat) → List Node → Option DeclInfo
  | _, [] => none
  | order, n :: ns =>
    if n.declares name then
      (n.newInfo? aliases order).map fun info =>
        { info with defined := info.defined || ns.any fun m => m.declares name && m.hasBody }
    else declInfo? aliases name (order + Resolver.globalCount n) ns

/-- The declaration is that of the part, but for the place if the part is a function. -/
def DeclInfo.Describes (aliases : AliasTable) (info : DeclInfo) : Node → Prop
  | .function f => info.name = f.name.text ∧ info.kind = .function ∧ f.sig.map .func = some info.ty
  | .global g => info.name = g.name.text ∧ info.kind = .global ∧ info.span = g.name.span ∧
    (aliases.annotate g.ty).2 = .ok info.ty
  | _ => False

section DeclInfo

variable {aliases : AliasTable} {name : String} {order : Nat} {n m : Node} {ns ms : List Node}
  {info : DeclInfo}

theorem Node.newInfo?_describes (h : n.newInfo? aliases order = some info) :
    info.Describes aliases n := by
  cases n with
  | function f =>
    obtain ⟨sig, hsig, rfl⟩ := Option.map_eq_some_iff.mp h
    exact ⟨rfl, rfl, by rw [hsig]; rfl⟩
  | global g =>
    obtain ⟨ty, hty, rfl⟩ := Option.map_eq_some_iff.mp h
    refine ⟨rfl, rfl, rfl, ?_⟩
    cases hann : (aliases.annotate g.ty).2 with
    | error e => simp [hann, Except.toOption] at hty
    | ok t => simpa [hann, Except.toOption] using hty
  | _ => exact nomatch h

theorem declInfo?_append_of_not (h : ∀ m ∈ ns, m.declares name = false) :
    declInfo? aliases name order (ns ++ ms) =
      declInfo? aliases name (order + Node.globals ns) ms := by
  induction ns generalizing order with
  | nil => rfl
  | cons n ns ih =>
    rw [List.cons_append, declInfo?, h n List.mem_cons_self,
      ih fun m hm => h m (List.mem_cons_of_mem _ hm)]
    simp [Nat.add_assoc]

theorem declInfo?_append_of_mem (h : ∃ m ∈ ns, m.declares name) :
    declInfo? aliases name order (ns ++ ms) = (declInfo? aliases name order ns).map fun info =>
      { info with defined := info.defined || ms.any fun m => m.declares name && m.hasBody } := by
  induction ns generalizing order with
  | nil => simp at h
  | cons n ns ih =>
    rw [List.cons_append, declInfo?, declInfo?]
    split
    · cases n.newInfo? aliases order <;> simp [List.any_append, Bool.or_assoc]
    · refine ih ?_
      simpa [*] using h

/-- Globals are numbered in order. -/
theorem declInfo?_order (h : declInfo? aliases name order ns = some info)
    (hkind : info.kind = .global) :
    order ≤ info.order ∧ info.order < order + Node.globals ns := by
  induction ns generalizing order with
  | nil => exact nomatch h
  | cons n ns ih =>
    rw [declInfo?] at h
    rw [Node.globals_cons]
    split at h
    · obtain ⟨first, hfirst, rfl⟩ := Option.map_eq_some_iff.mp h
      cases n with
      | global g =>
        obtain ⟨ty, -, rfl⟩ := Option.map_eq_some_iff.mp hfirst
        refine ⟨Nat.le_refl _, ?_⟩
        show order < order + (1 + Node.globals ns)
        omega
      | function f =>
        obtain ⟨sig, -, rfl⟩ := Option.map_eq_some_iff.mp hfirst
        exact nomatch hkind
      | _ => exact nomatch hfirst
    · have := ih h
      omega

theorem declInfo?_exists (h : declInfo? aliases name order ns = some info) :
    ∃ n ∈ ns, n.declares name := by
  induction ns generalizing order with
  | nil => exact nomatch h
  | cons n ns ih =>
    rw [declInfo?] at h
    split at h
    · exact ⟨n, List.mem_cons_self, ‹_›⟩
    · obtain ⟨m, hm, hname⟩ := ih h
      exact ⟨m, List.mem_cons_of_mem _ hm, hname⟩

theorem declInfo?_append_of_some (h : declInfo? aliases name order ns = some info) :
    declInfo? aliases name order (ns ++ ms) =
      some { info with
        defined := info.defined || ms.any fun m => m.declares name && m.hasBody } := by
  rw [declInfo?_append_of_mem (declInfo?_exists h), h]
  rfl

theorem DeclInfo.Describes.declares (h : info.Describes aliases n) : n.declares info.name := by
  cases n with
  | function f => simp [Node.declares, Node.name?, h.1]
  | global g => simp [Node.declares, Node.name?, h.1]
  | _ => exact h.elim

theorem Node.declares_inj {other : String} (h : n.declares name) (h' : n.declares other) :
    name = other := by
  cases hident : n.name? with
  | none => simp [Node.declares, hident] at h
  | some ident =>
    simp only [Node.declares, hident, Option.any_some, beq_iff_eq] at h h'
    rw [← h, ← h']

theorem declInfo?_name (h : declInfo? aliases name order ns = some info) : info.name = name := by
  induction ns generalizing order with
  | nil => exact nomatch h
  | cons n ns ih =>
    rw [declInfo?] at h
    split at h
    · obtain ⟨first, hfirst, rfl⟩ := Option.map_eq_some_iff.mp h
      exact Node.declares_inj (Node.newInfo?_describes hfirst).declares ‹_›
    · exact ih h

/-- No default is known before the parts are resolved. -/
theorem declInfo?_defaults (h : declInfo? aliases name order ns = some info) :
    ∀ e, some e ∉ info.defaults := by
  induction ns generalizing order with
  | nil => exact nomatch h
  | cons n ns ih =>
    rw [declInfo?] at h
    split at h
    · obtain ⟨first, hfirst, rfl⟩ := Option.map_eq_some_iff.mp h
      cases n with
      | function f =>
        obtain ⟨sig, -, rfl⟩ := Option.map_eq_some_iff.mp hfirst
        simp
      | global g =>
        obtain ⟨ty, -, rfl⟩ := Option.map_eq_some_iff.mp hfirst
        simp
      | _ => exact nomatch hfirst
    · exact ih h

/-- A body of any part with the name is recorded. -/
theorem declInfo?_defined (h : declInfo? aliases name order ns = some info) (hn : n ∈ ns)
    (hname : n.declares name) (hbody : n.hasBody) : info.defined = true := by
  induction ns generalizing order with
  | nil => exact nomatch hn
  | cons m ms ih =>
    rw [declInfo?] at h
    split at h
    · obtain ⟨first, hfirst, rfl⟩ := Option.map_eq_some_iff.mp h
      rcases List.mem_cons.mp hn with rfl | hn
      · cases n with
        | function f =>
          obtain ⟨sig, -, rfl⟩ := Option.map_eq_some_iff.mp hfirst
          exact Bool.or_eq_true_iff.mpr (.inl hbody)
        | _ => exact nomatch hbody
      · exact Bool.or_eq_true_iff.mpr
          (.inr (List.any_eq_true.mpr ⟨n, hn, by simp [hname, hbody]⟩))
    · rcases List.mem_cons.mp hn with rfl | hn
      · contradiction
      · exact ih h hn

theorem DeclInfo.Describes.withDefined {defined : Bool} (h : info.Describes aliases n) :
    DeclInfo.Describes aliases { info with defined } n := by
  cases n <;> exact h

/-- The declaration of a name is that of every part with the name. -/
theorem declInfo?_describes (hcompat : ns.Pairwise Node.Compatible)
    (h : declInfo? aliases name order ns = some info) (hn : n ∈ ns) (hname : n.declares name) :
    info.Describes aliases n := by
  induction ns generalizing order with
  | nil => exact nomatch hn
  | cons m ms ih =>
    obtain ⟨hm, hms⟩ := List.pairwise_cons.mp hcompat
    rw [declInfo?] at h
    split at h
    · rename_i hmname
      obtain ⟨first, hfirst, rfl⟩ := Option.map_eq_some_iff.mp h
      have hdesc := Node.newInfo?_describes hfirst
      refine DeclInfo.Describes.withDefined ?_
      rcases List.mem_cons.mp hn with rfl | hn
      · exact hdesc
      · obtain ⟨f, g, rfl, rfl, hsig, -⟩ := hm n hn name hmname hname
        have hnames : f.name.text = g.name.text := by
          simp only [Node.declares, Node.name?, Option.any_some, beq_iff_eq] at hmname hname
          rw [hmname, hname]
        exact ⟨hdesc.1.trans hnames, hdesc.2.1, hsig ▸ hdesc.2.2⟩
    · rcases List.mem_cons.mp hn with rfl | hn
      · contradiction
      · exact ih hms h hn

end DeclInfo

/-! ## The invariant -/

/-- The scope and the declarations of a unit after the parts of `done`. -/
structure DeclaredIn (aliases : AliasTable) (scope : Scope) (decls : DeclTable)
    (done : List Node) : Prop where
  found : ∀ n ∈ done, ∀ name, n.declares name → ∃ id, scope.lookup name = some id ∧
    n.decl? = some id
  info : ∀ name id, scope.lookup name = some id → ∃ info, decls[id]? = some info ∧
    declInfo? aliases name 0 done = some info
  numbered : ∀ id < decls.length, ∃ name, scope.lookup name = some id
  fresh : ∀ name id, scope.lookup name = some id → aliases.contains name = false
  compatible : done.Pairwise Node.Compatible

namespace DeclaredIn

variable {aliases : AliasTable} {scope : Scope} {decls : DeclTable} {done : List Node} {n : Node}
  {name : String} {id : DeclId}

theorem empty : DeclaredIn aliases [] [] [] where
  found := by simp
  info := by simp
  numbered := by simp
  fresh := by simp
  compatible := .nil

theorem not_declares (h : DeclaredIn aliases scope decls done) (hname : scope.lookup name = none) :
    ∀ n ∈ done, n.declares name = false := by
  intro n hn
  by_contra hdecl
  obtain ⟨id, hid, -⟩ := h.found n hn name (by simpa using hdecl)
  simp [hname] at hid

theorem describes (h : DeclaredIn aliases scope decls done) {info : DeclInfo}
    (hid : scope.lookup name = some id) (hinfo : decls[id]? = some info) :
    ∀ n ∈ done, n.declares name → n.decl? = some id ∧ info.Describes aliases n := by
  intro n hn hname
  obtain ⟨id', hid', hdecl⟩ := h.found n hn name hname
  obtain rfl : id = id' := Option.some.inj (hid.symm.trans hid')
  obtain ⟨info', hinfo', hdecl'⟩ := h.info name id hid
  obtain rfl : info = info' := Option.some.inj (hinfo.symm.trans hinfo')
  exact ⟨hdecl, declInfo?_describes h.compatible hdecl' hn hname⟩

theorem lookup_inj (h : DeclaredIn aliases scope decls done) {other : String}
    (hid : scope.lookup name = some id) (hother : scope.lookup other = some id) :
    name = other := by
  obtain ⟨info, hinfo, hdecl⟩ := h.info name id hid
  obtain ⟨info', hinfo', hdecl'⟩ := h.info other id hother
  obtain rfl : info = info' := Option.some.inj (hinfo.symm.trans hinfo')
  rw [← declInfo?_name hdecl, ← declInfo?_name hdecl']

/-- No default is recorded while parts are declared. -/
theorem no_default (h : DeclaredIn aliases scope decls done) :
    ∀ info ∈ decls, ∀ e, some e ∉ info.defaults := by
  intro info hinfo
  obtain ⟨id, hid, rfl⟩ := List.mem_iff_getElem.mp hinfo
  obtain ⟨name, hname⟩ := h.numbered id hid
  obtain ⟨info', hinfo', hdecl⟩ := h.info name id hname
  obtain rfl := Option.some.inj ((List.getElem?_eq_getElem hid).symm.trans hinfo')
  exact declInfo?_defaults hdecl

/-- A part that declares nothing. -/
theorem other (h : DeclaredIn aliases scope decls done) (hn : n.name? = none) :
    DeclaredIn aliases scope decls (done ++ [n]) := by
  have hno : ∀ name, n.declares name = false := fun name => by simp [Node.declares, hn]
  refine ⟨fun m hm name hname => ?_, fun name id hid => ?_, h.numbered, h.fresh, ?_⟩
  · rcases List.mem_append.mp hm with hm | hm
    · exact h.found m hm name hname
    · simp [List.mem_singleton.mp hm, hno] at hname
  · obtain ⟨info, hinfo, hdecl⟩ := h.info name id hid
    refine ⟨info, hinfo, ?_⟩
    rw [declInfo?_append_of_some hdecl]
    simp [hno]
  · refine List.pairwise_append.mpr ⟨h.compatible, List.pairwise_singleton .., ?_⟩
    intro m _ k hk name _ hname
    simp [List.mem_singleton.mp hk, hno] at hname

/-- A part with a new name. -/
theorem new (h : DeclaredIn aliases scope decls done) {info : DeclInfo}
    (hinfo : n.newInfo? aliases (Node.globals done) = some info)
    (hdecl : n.decl? = some decls.length) (hfree : scope.lookup info.name = none)
    (hfresh : aliases.contains info.name = false) :
    DeclaredIn aliases ((info.name, decls.length) :: scope) (decls ++ [info]) (done ++ [n]) := by
  have hname : n.declares info.name := (Node.newInfo?_describes hinfo).declares
  have honly : ∀ name, n.declares name → name = info.name := fun _ h => Node.declares_inj h hname
  -- The name was free, so all others keep their entries and numbers.
  have hother : ∀ name id, scope.lookup name = some id → name ≠ info.name := by
    rintro name id hid rfl
    simp [hfree] at hid
  refine ⟨fun m hm name hm' => ?_, fun name id hid => ?_, fun id hid => ?_, fun name id hid => ?_, ?_⟩
  · rcases List.mem_append.mp hm with hm | hm
    · obtain ⟨id, hid, hdecl⟩ := h.found m hm name hm'
      exact ⟨id, by rw [Scope.lookup_cons, if_neg (hother name id hid), hid], hdecl⟩
    · obtain rfl := List.mem_singleton.mp hm
      exact ⟨_, by rw [Scope.lookup_cons, if_pos (honly name hm')], hdecl⟩
  · rw [Scope.lookup_cons] at hid
    split at hid
    · rename_i heq
      cases hid
      refine ⟨info, by simp, ?_⟩
      rw [heq, declInfo?_append_of_not (h.not_declares hfree), declInfo?, if_pos hname]
      simp [hinfo]
    · rename_i hne
      obtain ⟨old, hold, hdecl⟩ := h.info name id hid
      refine ⟨old, ?_, ?_⟩
      · rw [List.getElem?_append_left (List.getElem?_eq_some_iff.mp hold).1, hold]
      · have hn : n.declares name = false := by
          by_contra hn
          exact hne (honly name (by simpa using hn))
        rw [declInfo?_append_of_some hdecl]
        simp [hn]
  · rw [List.length_append, List.length_singleton] at hid
    rcases Nat.lt_succ_iff_lt_or_eq.mp hid with hid | rfl
    · obtain ⟨name, hname⟩ := h.numbered id hid
      exact ⟨name, by rw [Scope.lookup_cons, if_neg (hother name id hname), hname]⟩
    · exact ⟨info.name, by rw [Scope.lookup_cons, if_pos rfl]⟩
  · rw [Scope.lookup_cons] at hid
    split at hid
    · rename_i heq
      exact heq ▸ hfresh
    · exact h.fresh name id hid
  · refine List.pairwise_append.mpr ⟨h.compatible, List.pairwise_singleton .., ?_⟩
    intro m hm k hk name hm' hk'
    obtain rfl := List.mem_singleton.mp hk
    obtain rfl := honly name hk'
    simp [h.not_declares hfree m hm] at hm'

/-- A function that shares the declaration of those of its name. -/
theorem shared (h : DeclaredIn aliases scope decls done) {f : Function} {info : DeclInfo}
    {sig : Signature Ty} (hid : scope.lookup f.name.text = some id) (hdecl : f.decl = some id)
    (hinfo : decls[id]? = some info) (hkind : info.kind = .function) (hty : info.ty = .func sig)
    (hsig : f.sig = some sig) (hbody : !(info.defined && f.body.isSome)) :
    DeclaredIn aliases scope
      (decls.modify id fun info => { info with defined := info.defined || f.body.isSome })
      (done ++ [.function f]) := by
  have honly : ∀ name, (Node.function f).declares name ↔ f.name.text = name := fun name => by
    simp [Node.declares, Node.name?]
  refine ⟨fun m hm name hm' => ?_, fun name i hi => ?_, fun i hi => ?_, h.fresh, ?_⟩
  · rcases List.mem_append.mp hm with hm | hm
    · exact h.found m hm name hm'
    · obtain rfl := List.mem_singleton.mp hm
      obtain rfl := (honly name).mp hm'
      exact ⟨id, hid, hdecl⟩
  · obtain ⟨old, hold, holdDecl⟩ := h.info name i hi
    rw [declInfo?_append_of_some holdDecl, List.getElem?_modify, hold]
    by_cases hname : f.name.text = name
    · obtain rfl : id = i := Option.some.inj (hid.symm.trans (hname ▸ hi))
      simp [(honly name).mpr hname, Node.hasBody]
    -- Two names do not share a number, so the entry of another name stays as it is.
    · have hne : id ≠ i := by
        rintro rfl
        exact hname (h.lookup_inj hid hi)
      have : (Node.function f).declares name = false := by
        by_contra hf
        exact hname ((honly name).mp (by simpa using hf))
      simp [hne, this]
  · exact h.numbered i (by simpa using hi)
  · refine List.pairwise_append.mpr ⟨h.compatible, List.pairwise_singleton .., ?_⟩
    intro m hm k hk name hm' hk'
    obtain rfl := List.mem_singleton.mp hk
    obtain rfl := (honly name).mp hk'
    obtain ⟨old, hold, holdDecl⟩ := h.info _ id hid
    obtain rfl : info = old := Option.some.inj (hinfo.symm.trans hold)
    have hdesc := declInfo?_describes h.compatible holdDecl hm hm'
    cases m with
    | function g =>
      refine ⟨g, f, rfl, rfl, ?_, fun ⟨hg, hf⟩ => ?_⟩
      · rw [hsig]
        have := hdesc.2.2
        rw [hty] at this
        obtain ⟨sig', hsig', heq⟩ := Option.map_eq_some_iff.mp this
        rw [hsig', Ty.func.inj heq]
      · have := declInfo?_defined holdDecl hm hm' hg
        simp [this, hf] at hbody
    | global g =>
      have := hdesc.2.1
      rw [hkind] at this
      exact nomatch this
    | _ => exact hdesc.elim

end DeclaredIn

/-! ## Declaring the parts of a unit -/

/-- The types in the head of a part are annotated. -/
def Node.Annotated (aliases : AliasTable) : Node → Prop
  | .function f => ∃ sig, f.sig = some sig ∧ sig.rest.elem?.isSome = f.rest.elem?.isSome ∧
    List.Forall₂ (fun p ty => (aliases.annotate p.ty).2 = .ok ty) f.params sig.params
  | _ => True

/-- The environment with another scope and other declarations of the unit. -/
def Env.withUnit (env : Env) (scope : Scope) (decls : DeclTable) : Env :=
  { env with context := { env.context with decls }, scopes := [scope] }

namespace Resolver

variable {env env' : Env} {scope : Scope} {decls : DeclTable} {done : List Node} {n n' : Node}

/-- Declaring a part only fills its slots. -/
theorem bare_declareNode {order : Nat} (h : Succeeds (declareNode order n) env n' env') :
    n'.refill .emptied = n.refill .emptied := by
  cases n with
  | function f =>
    obtain ⟨f', sig, decl, hhead, -, rfl⟩ := succeeds_declareNode_function.mp h
    have hbare := Env.bare_head hhead
    exact congrArg Node.function hbare
  | global g =>
    obtain ⟨ty, varTy, hty, -, rfl, -⟩ := succeeds_declareNode_global.mp h
    simp [Node.refill, VarDecl.refill, Slots.emptied, Env.bare_of_annotate hty]
  | _ =>
    obtain ⟨rfl, -⟩ := succeeds_pure.mp h
    rfl

/-- One part: what it adds is described, and only its slots change. -/
theorem declareNode_declared (h : DeclaredIn env.context.aliases scope decls done)
    (hs : Succeeds (declareNode (Node.globals done) n) (env.withUnit scope decls) n' env') :
    (∃ scope' decls', env' = env.withUnit scope' decls' ∧
      DeclaredIn env.context.aliases scope' decls' (done ++ [n'])) ∧
    n'.refill .emptied = n.refill .emptied ∧ n'.Annotated env.context.aliases := by
  have hbare := bare_declareNode hs
  cases n with
  | function f =>
    obtain ⟨f', sig, decl, hhead, hdecl, rfl⟩ := succeeds_declareNode_function.mp hs
    have hsig : f'.sig = some sig := Env.head_sig hhead
    have hrest := Env.head_rest hhead
    have hparams := Env.head_params hhead
    refine ⟨?_, hbare, sig, hsig, hrest, hparams⟩
    rcases succeeds_functionDecl.mp hdecl with
      ⟨id, info, hid, hinfo, ⟨hkind, hty, hbody⟩, rfl, rfl⟩ | ⟨hfree, hfresh, rfl, rfl⟩
    · exact ⟨scope, _, rfl, h.shared (f := { f' with decl := some id }) hid rfl hinfo hkind hty hsig
        hbody⟩
    · refine ⟨_, _, rfl, h.new (n := .function { f' with decl := some decls.length }) ?_ rfl hfree
        hfresh⟩
      simp [Node.newInfo?, hsig]
  | global g =>
    obtain ⟨ty, varTy, hty, htaken, rfl, rfl⟩ := succeeds_declareNode_global.mp hs
    refine ⟨?_, hbare, trivial⟩
    obtain ⟨hfree, hfresh⟩ : (scope.lookup g.name.text).isSome = false ∧
        env.context.aliases.contains g.name.text = false := by
      simpa [Env.isTaken, Env.withUnit] using htaken
    refine ⟨_, _, rfl, h.new (n := .global { g with ty, decl := some decls.length }) ?_ rfl ?_
      hfresh⟩
    -- A type that has been annotated stays as it is when it is annotated again.
    · have hann : env.context.aliases.annotate ty = (ty, .ok varTy) :=
        AliasTable.annotate_annotated (Env.annotate_eq_pure.mp hty)
      simp [Node.newInfo?, hann, Except.toOption]
    · simpa using hfree
  | _ =>
    obtain ⟨rfl, rfl⟩ := succeeds_pure.mp hs
    exact ⟨⟨scope, decls, rfl, h.other rfl⟩, rfl, trivial⟩

/-- All parts of a unit. -/
theorem declareNodes_declared {ns ns' : List Node}
    (h : DeclaredIn env.context.aliases scope decls done)
    (hs : Succeeds (declareNodes (Node.globals done) ns) (env.withUnit scope decls) ns' env') :
    (∃ scope' decls', env' = env.withUnit scope' decls' ∧
      DeclaredIn env.context.aliases scope' decls' (done ++ ns')) ∧
    ns'.map (·.refill .emptied) = ns.map (·.refill .emptied) ∧
    ∀ n ∈ ns', n.Annotated env.context.aliases := by
  induction ns generalizing scope decls done ns' with
  | nil =>
    obtain ⟨rfl, rfl⟩ := succeeds_declareNodes_nil.mp hs
    exact ⟨⟨scope, decls, rfl, by simpa using h⟩, rfl, by simp⟩
  | cons n ns ih =>
    obtain ⟨n', env₁, ns', hn, hns, rfl⟩ := succeeds_declareNodes_cons.mp hs
    obtain ⟨⟨scope₁, decls₁, rfl, h₁⟩, hbare, hann⟩ := declareNode_declared h hn
    have hcount : Node.globals (done ++ [n']) = Node.globals done + globalCount n := by
      rw [Node.globals_append, Node.globals_cons, Node.globals_nil]
      cases n <;> cases n' <;> first | rfl | exact nomatch hbare
    obtain ⟨⟨scope₂, decls₂, rfl, h₂⟩, hbare', hann'⟩ := ih h₁ (hcount ▸ hns)
    refine ⟨⟨scope₂, decls₂, rfl, by simpa using h₂⟩, congrArg₂ List.cons hbare hbare', ?_⟩
    exact List.forall_mem_cons.mpr ⟨hann, hann'⟩

end Resolver

end KilnLang
