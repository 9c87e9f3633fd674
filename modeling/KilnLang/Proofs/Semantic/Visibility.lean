import KilnLang.Proofs.Semantic.Agreement

/-!
# What the parts of a unit see

The body of a function and the defaults of its parameters see all parts of the unit, and the initial
value of a global sees all functions and the globals before it (`visibleTo`). Hiding is decided by
the order of globals, which is the number of globals before them.

Parts are visible through what they declare, so what they contain does not matter (`outline`).
-/

namespace KilnLang

/-! ## Hidden globals -/

/-- The parts that the initial value of a global sees: all functions, and the globals before it. -/
def visibleTo (before after : List Node) : List Node :=
  before ++ after.filter fun n => match n with
    | .function _ => true
    | _ => false

/-- The globals with a smaller order are those that come before. -/
theorem declInfo?_order_lt {aliases : AliasTable} {name : String} {info : DeclInfo}
    {before after : List Node} (h : declInfo? aliases name 0 (before ++ after) = some info)
    (hkind : info.kind = .global) :
    info.order < Node.globals before ↔ ∃ n ∈ before, n.declares name := by
  by_cases hbefore : ∃ n ∈ before, n.declares name
  · rw [declInfo?_append_of_mem hbefore] at h
    obtain ⟨old, hold, rfl⟩ := Option.map_eq_some_iff.mp h
    have hlt := (declInfo?_order hold hkind).2
    exact iff_of_true (by simpa using hlt) hbefore
  · have hnone : ∀ m ∈ before, m.declares name = false := by simpa using hbefore
    rw [declInfo?_append_of_not hnone] at h
    have hle := (declInfo?_order h hkind).1
    exact iff_of_false (by omega) hbefore

/-- The order of a global is the number of globals before it. -/
theorem DeclaredIn.orderOf {aliases : AliasTable} {top : Scope} {decls : DeclTable}
    {before after : List Node} {g : VarDecl}
    (h : DeclaredIn aliases top decls (before ++ .global g :: after)) :
    Resolver.orderOf decls g = some (Node.globals before) := by
  have hgname : (Node.global g).declares g.name.text := by simp [Node.declares, Node.name?]
  have hfirst : ∀ m ∈ before, m.declares g.name.text = false := by
    intro m hm
    by_contra hname
    obtain ⟨_, _, -, hg, -⟩ := (List.pairwise_append.mp h.compatible).2.2 m hm _
      List.mem_cons_self g.name.text (by simpa using hname) hgname
    cases hg
  obtain ⟨id, hid, hg⟩ := h.found (.global g)
    (List.mem_append_right _ List.mem_cons_self) g.name.text hgname
  obtain ⟨info, hinfo, hdecl⟩ := h.info g.name.text id hid
  rw [declInfo?_append_of_not hfirst, declInfo?, if_pos hgname] at hdecl
  obtain ⟨new, hnew, rfl⟩ := Option.map_eq_some_iff.mp hdecl
  obtain ⟨ty, -, rfl⟩ := Option.map_eq_some_iff.mp hnew
  have hgdecl : g.decl = some id := hg
  rw [Resolver.orderOf, hgdecl, Option.bind_some, hinfo]
  simp

theorem DeclaredIn.orderOf_grows {c c' : SemanticContext} {top : Scope} {before after : List Node}
    {g : VarDecl} (h : DeclaredIn c.aliases top c.decls (before ++ .global g :: after))
    (hgrows : c.Grows c') : Resolver.orderOf c'.decls g = Resolver.orderOf c.decls g := by
  obtain ⟨id, hid, hg⟩ := h.found (.global g) (List.mem_append_right _ List.mem_cons_self)
    g.name.text (by simp [Node.declares, Node.name?])
  obtain ⟨info, hinfo, -⟩ := h.info g.name.text id hid
  obtain ⟨info', hinfo', -, -, -, -, horder⟩ := hgrows.entry hinfo
  have hgdecl : g.decl = some id := hg
  simp [Resolver.orderOf, hgdecl, hinfo, hinfo', horder]

/-! ## The unit's scope -/

section UnitScope

variable {env : Env} {top : Scope}

/-- Without a limit all parts are visible. -/
theorem unitScope_of_declared {ns : List Node} (hlimit : env.limit = none)
    (h : DeclaredIn env.context.aliases top env.context.decls ns) : UnitScope env top ns := by
  refine ⟨fun name id hid => ?_, fun name hname => h.not_declares hname⟩
  obtain ⟨info, hinfo, hdecl⟩ := h.info name id hid
  refine ⟨info, hinfo, ?_⟩
  have hhidden : env.isHidden info = false := by simp [Env.isHidden, hlimit]
  rw [hhidden]
  exact ⟨declInfo?_exists hdecl, h.describes hid hinfo⟩

/-- The order of a global as the limit hides the globals from there on. -/
theorem unitScope_of_declared_before {before after : List Node} {g : VarDecl}
    (h : DeclaredIn env.context.aliases top env.context.decls (before ++ .global g :: after))
    (hlimit : env.limit = some (Node.globals before)) :
    UnitScope env top (visibleTo before after) := by
  have hmem : ∀ n ∈ visibleTo before after, n ∈ before ++ .global g :: after := by
    intro n hn
    rcases List.mem_append.mp hn with hn | hn
    · exact List.mem_append_left _ hn
    · exact List.mem_append_right _ (List.mem_cons_of_mem _ (List.mem_filter.mp hn).1)
  refine ⟨fun name id hid => ?_, fun name hname n hn => h.not_declares hname n (hmem n hn)⟩
  obtain ⟨info, hinfo, hdecl⟩ := h.info name id hid
  have hdesc := h.describes hid hinfo
  refine ⟨info, hinfo, ?_⟩
  cases hhidden : env.isHidden info with
  | true =>
    obtain ⟨hkind, horder⟩ : info.kind = .global ∧ Node.globals before ≤ info.order := by
      simpa [Env.isHidden, hlimit] using hhidden
    have hnone : ¬ ∃ n ∈ before, n.declares name := fun hsome =>
      absurd ((declInfo?_order_lt hdecl hkind).mpr hsome) (Nat.not_lt.mpr horder)
    rw [if_pos rfl]
    intro n hn
    by_contra hname
    rcases List.mem_append.mp hn with hn' | hn'
    · exact hnone ⟨n, hn', by simpa using hname⟩
    -- What follows and is visible is a function, but the declaration is that of a global.
    · have hn'' := (hdesc n (hmem n hn) (by simpa using hname)).2
      cases n with
      | function f => exact nomatch hkind.symm.trans hn''.2.1
      | _ => exact nomatch (List.mem_filter.mp hn').2
  | false =>
    rw [if_neg Bool.false_ne_true]
    refine ⟨?_, fun n hn => hdesc n (hmem n hn)⟩
    by_cases hkind : info.kind = .global
    · have horder : info.order < Node.globals before := by
        simpa [Env.isHidden, hlimit, hkind] using hhidden
      obtain ⟨n, hn, hname⟩ := (declInfo?_order_lt hdecl hkind).mp horder
      exact ⟨n, List.mem_append_left _ hn, hname⟩
    · obtain ⟨n, hn, hname⟩ := declInfo?_exists hdecl
      have hn' := (hdesc n hn hname).2
      cases n with
      | function f =>
        refine ⟨_, ?_, hname⟩
        rcases List.mem_append.mp hn with hn | hn
        · exact List.mem_append_left _ hn
        · exact List.mem_append_right _ (List.mem_filter.mpr ⟨by simpa using hn, rfl⟩)
      | global g' => exact absurd hn'.2.1 hkind
      | _ => exact hn'.elim

end UnitScope

/-! ## Outlines -/

/-- A part of a unit without what it contains. -/
def Node.outline : Node → Node
  | .function f => .function { f with params := [], body := none }
  | .global g => .global { g with init := none }
  | n => n

section Outline

variable {c : SemanticContext} {visible visible' : List Node} {scopes : List Frame}
  {vargs : Option Ty}

theorem Node.declares_outline (name : String) (n : Node) :
    n.outline.declares name = n.declares name := by
  cases n <;> rfl

theorem Node.decl?_outline (n : Node) : n.outline.decl? = n.decl? := by
  cases n <;> rfl

theorem DeclInfo.describes_outline {aliases : AliasTable} {info : DeclInfo} (n : Node) :
    info.Describes aliases n.outline ↔ info.Describes aliases n := by
  cases n <;> exact .rfl

/-- What names stand for depends on what the visible parts declare only. -/
theorem Bound.outline {name : String} {span : Span} {r : Resolution}
    (h : Bound c visible scopes vargs name span r)
    (heq : visible.map Node.outline = visible'.map Node.outline) :
    Bound c visible' scopes vargs name span r := by
  have hback : ∀ n' ∈ visible', ∃ n ∈ visible, n.outline = n'.outline := fun n' hn' =>
    List.mem_map.mp (heq ▸ List.mem_map_of_mem hn')
  cases h with
  | inner hinner hdecl hentry hmatch => exact .inner hinner hdecl hentry hmatch
  | unit hfree hsome hdecl hentry =>
    refine .unit hfree ?_ (fun n' hn' hname => ?_) hentry
    · obtain ⟨n, hn, hname⟩ := hsome
      obtain ⟨n', hn', hout⟩ := List.mem_map.mp (heq ▸ List.mem_map_of_mem (f := Node.outline) hn)
      exact ⟨n', hn', by rwa [← Node.declares_outline, hout, Node.declares_outline]⟩
    · obtain ⟨n, hn, hout⟩ := hback n' hn'
      rw [← Node.declares_outline, ← hout, Node.declares_outline] at hname
      rw [← Node.decl?_outline, ← DeclInfo.describes_outline, ← hout, Node.decl?_outline,
        DeclInfo.describes_outline]
      exact hdecl n hn hname
  | outside hfree hno hout' =>
    refine .outside hfree (fun n' hn' => ?_) hout'
    obtain ⟨n, hn, hout⟩ := hback n' hn'
    rw [← Node.declares_outline, ← hout, Node.declares_outline]
    exact hno n hn

theorem DottedName.Bound.outline {name : DottedName} (h : name.Bound c visible scopes vargs)
    (heq : visible.map Node.outline = visible'.map Node.outline) :
    name.Bound c visible' scopes vargs := by
  obtain ⟨r, hr, ⟨part, hpart, hbound⟩ | hlength⟩ := h
  · exact ⟨r, hr, .inl ⟨part, hpart, hbound.outline heq⟩⟩
  · exact ⟨r, hr, .inr hlength⟩

theorem Expr.Every.outline {e : Expr} (h : e.Every (·.Bound c visible scopes vargs))
    (heq : visible.map Node.outline = visible'.map Node.outline) :
    e.Every (·.Bound c visible' scopes vargs) :=
  fun name hname => (h name hname).outline heq

theorem visibleTo_outline (before after : List Node) :
    (visibleTo before after).map Node.outline =
      visibleTo (before.map Node.outline) (after.map Node.outline) := by
  rw [visibleTo, visibleTo, List.map_append, List.filter_map]
  congr 2
  refine List.filter_congr fun n _ => ?_
  cases n <;> rfl

end Outline

/-! ## The declarations of a unit -/

/-- Parts that share a name are functions. -/
def Node.Share (n m : Node) : Prop :=
  ∀ name, n.declares name → m.declares name → (∃ f, n = .function f) ∧ ∃ g, m = .function g

/-- What the parts of a resolved unit declare: no name is also an alias, only functions share a
name, and parts have the same number exactly if they have the same name. -/
structure WellDeclared (aliases : AliasTable) (ns : List Node) : Prop where
  fresh : ∀ n ∈ ns, ∀ name, n.declares name → aliases.contains name = false
  aliased : ∀ item, .alias item ∈ ns → aliases.contains item.name.text
  shared : ns.Pairwise Node.Share
  numbered : ∀ n ∈ ns, ∀ name, n.declares name → ∃ id, n.decl? = some id ∧
    ∀ m ∈ ns, m.declares name ↔ m.decl? = some id
  typed : ∀ f, .function f ∈ ns →
    ∃ sig, f.sig = some sig ∧ sig.rest.elem?.isSome = f.rest.elem?.isSome

theorem Node.name?_of_decl? {n : Node} {id : DeclId} (h : n.decl? = some id) :
    ∃ name, n.declares name := by
  cases n with
  | function f => exact ⟨f.name.text, by simp [Node.declares, Node.name?]⟩
  | global g => exact ⟨g.name.text, by simp [Node.declares, Node.name?]⟩
  | _ => cases h

theorem DeclaredIn.wellDeclared {aliases : AliasTable} {top : Scope} {decls : DeclTable}
    {ns : List Node} (h : DeclaredIn aliases top decls ns) (hann : ∀ n ∈ ns, n.Annotated aliases)
    (haliased : ∀ item, .alias item ∈ ns → aliases.contains item.name.text) :
    WellDeclared aliases ns where
  fresh n hn name hname := by
    obtain ⟨id, hid, -⟩ := h.found n hn name hname
    exact h.fresh name id hid
  aliased := haliased
  shared := h.compatible.imp fun {n m} hcompat name hn hm => by
    obtain ⟨f, g, rfl, rfl, -⟩ := hcompat name hn hm
    exact ⟨⟨f, rfl⟩, g, rfl⟩
  numbered n hn name hname := by
    obtain ⟨id, hid, hdecl⟩ := h.found n hn name hname
    refine ⟨id, hdecl, fun m hm => ⟨fun hm' => ?_, fun hm' => ?_⟩⟩
    · obtain ⟨id', hid', hdecl'⟩ := h.found m hm name hm'
      rw [hdecl', ← hid', hid]
    · obtain ⟨other, hother⟩ := Node.name?_of_decl? hm'
      obtain ⟨id', hid', hdecl'⟩ := h.found m hm other hother
      obtain rfl : id = id' := Option.some.inj (hm'.symm.trans hdecl')
      exact h.lookup_inj hid' hid ▸ hother
  typed f hf := by
    obtain ⟨sig, hsig, hrest, -⟩ := hann _ hf
    exact ⟨sig, hsig, hrest⟩

theorem Node.share_outline {n m : Node} : Node.Share n.outline m.outline ↔ Node.Share n m := by
  have hfunction : ∀ n : Node, (∃ f, n.outline = .function f) ↔ ∃ f, n = .function f := by
    intro n
    cases n <;> simp [Node.outline]
  simp only [Node.Share, Node.declares_outline, hfunction]

/-- What is declared can be read off the outlines. -/
theorem WellDeclared.outline {aliases : AliasTable} {ns ns' : List Node}
    (h : WellDeclared aliases ns) (heq : ns.map Node.outline = ns'.map Node.outline) :
    WellDeclared aliases ns' := by
  -- Every part of the second list has the outline of one of the first.
  have hback : ∀ n' ∈ ns', ∃ n ∈ ns, n.outline = n'.outline := fun n' hn' =>
    List.mem_map.mp (heq ▸ List.mem_map_of_mem hn')
  refine ⟨fun n' hn' name hname => ?_, fun item hitem => ?_, ?_, fun n' hn' name hname => ?_,
    fun f hf => ?_⟩
  · obtain ⟨n, hn, hout⟩ := hback n' hn'
    rw [← Node.declares_outline, ← hout, Node.declares_outline] at hname
    exact h.fresh n hn name hname
  · obtain ⟨n, hn, hout⟩ := hback _ hitem
    cases n with
    | function f => exact nomatch hout
    | global g => exact nomatch hout
    | header i => exact nomatch hout
    | _ item' =>
      obtain rfl : item' = item := Node.alias.inj hout
      exact h.aliased item' hn
  · have hshared : (ns.map Node.outline).Pairwise Node.Share :=
      List.pairwise_map.mpr (h.shared.imp Node.share_outline.mpr)
    rw [heq, List.pairwise_map] at hshared
    exact hshared.imp Node.share_outline.mp
  · obtain ⟨n, hn, hout⟩ := hback n' hn'
    rw [← Node.declares_outline, ← hout, Node.declares_outline] at hname
    obtain ⟨id, hid, hall⟩ := h.numbered n hn name hname
    refine ⟨id, by rw [← Node.decl?_outline, ← hout, Node.decl?_outline, hid], fun m' hm' => ?_⟩
    obtain ⟨m, hm, hout'⟩ := hback m' hm'
    rw [← Node.declares_outline, ← Node.decl?_outline, ← hout', Node.declares_outline,
      Node.decl?_outline]
    exact hall m hm
  · obtain ⟨n, hn, hout⟩ := hback _ hf
    cases n with
    | function f' =>
      obtain ⟨sig, hsig, hrest⟩ := h.typed f' hn
      obtain ⟨-, -, -, -, hrests, -, -, hsigs⟩ := Function.mk.inj (Node.function.inj hout)
      exact ⟨sig, hsigs ▸ hsig, hrests ▸ hrest⟩
    | _ => exact nomatch hout

end KilnLang
