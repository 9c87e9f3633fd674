import KilnLang.Proofs.Target.Hygiene

/-!
# Order of declarations in the output

The top level of a unit has no order, while a name of C is in scope only after its declaration. The
output has fixed sections: type definitions, variables, prototypes and definitions. Each keeps the
order of the source.

**Theorem (`declared_before_use_iff`).** In the C text of a checked unit every use of the name of a
type, a variable or a function of the unit comes after its declaration, if and only if the target of
each alias names aliases only that come before it, and the initial value of each global, with the
defaults that are copied into it, mentions no function of the unit and no later global.

The order of the sections settles all other uses: every type definition comes before all variables,
and every function has a prototype before the first body (`mem_prototypes`). So the theorem goes
through the items of the output section by section (`Throughout.append_iff`), and the sections of
types and variables are read off the nodes (`Throughout.filterMap_iff`).
-/

namespace KilnLang

/-! ## Positions in a list -/

section Throughout

variable {α β : Type} {P : List α → α → Prop}

/-- Every element has the property together with what comes before it: `before` and the elements of
the list up to it. -/
def Throughout (P : List α → α → Prop) : List α → List α → Prop
  | _, [] => True
  | before, x :: xs => P before x ∧ Throughout P (before ++ [x]) xs

instance Throughout.decidable (P : List α → α → Prop) [∀ before x, Decidable (P before x)] :
    ∀ before xs, Decidable (Throughout P before xs)
  | _, [] => inferInstanceAs (Decidable True)
  | before, x :: xs =>
    have := Throughout.decidable P (before ++ [x]) xs
    inferInstanceAs (Decidable (P before x ∧ Throughout P (before ++ [x]) xs))

theorem splits_cons_iff {x : α} {xs : List α} :
    (∀ earlier y later, x :: xs = earlier ++ y :: later → P earlier y) ↔
      P [] x ∧ ∀ earlier y later, xs = earlier ++ y :: later → P (x :: earlier) y := by
  constructor
  · intro h
    refine ⟨h [] x xs rfl, fun earlier y later heq => ?_⟩
    exact h (x :: earlier) y later (by rw [heq, List.cons_append])
  · rintro ⟨hx, hxs⟩ earlier y later heq
    cases earlier with
    | nil =>
      obtain ⟨rfl, -⟩ := List.cons.inj heq
      exact hx
    | cons z earlier =>
      obtain ⟨rfl, htail⟩ := List.cons.inj heq
      exact hxs earlier y later htail

namespace Throughout

theorem iff_splits {xs before : List α} : Throughout P before xs ↔
    ∀ earlier x later, xs = earlier ++ x :: later → P (before ++ earlier) x := by
  induction xs generalizing before with
  | nil => simp [Throughout]
  | cons x xs ih =>
    rw [Throughout, ih, @splits_cons_iff _ fun earlier => P (before ++ earlier)]
    simp

theorem append_iff {xs ys before : List α} : Throughout P before (xs ++ ys) ↔
    Throughout P before xs ∧ Throughout P (before ++ xs) ys := by
  induction xs generalizing before with
  | nil => simp [Throughout]
  | cons x xs ih => simp [Throughout, ih, and_assoc]

/-- The elements that are selected from a list, read at their places in the list. -/
theorem filterMap_iff {f : β → Option α} {xs : List β} {before : List α} :
    Throughout P before (xs.filterMap f) ↔ ∀ earlier x later, xs = earlier ++ x :: later →
      ∀ y, f x = some y → P (before ++ earlier.filterMap f) y := by
  induction xs generalizing before with
  | nil => simp [Throughout]
  | cons x xs ih =>
    rw [@splits_cons_iff _ fun earlier x => ∀ y, f x = some y → P (before ++ earlier.filterMap f) y]
    cases hx : f x with
    | none => simp [hx, ih]
    | some y => simp [Throughout, hx, ih]

end Throughout

end Throughout

/-! ## Names of types -/

namespace CExpr

mutual

/-- The names of types in an expression: those of casts and arrays. -/
def typeNames : CExpr → List String
  | .name _ => []
  | .literal _ => []
  | .deref inner => inner.typeNames
  | .address inner => inner.typeNames
  | .paren inner => inner.typeNames
  | .index base position => base.typeNames ++ position.typeNames
  | .prefixed _ inner => inner.typeNames
  | .suffixed _ inner => inner.typeNames
  | .call callee args => callee.typeNames ++ typeNamesEach args
  | .cast type inner => type.names ++ inner.typeNames
  | .array type items => type.names ++ typeNamesEach items
  | .binary left _ right => left.typeNames ++ right.typeNames

/-- The names of types in expressions. -/
def typeNamesEach : List CExpr → List String
  | [] => []
  | e :: es => e.typeNames ++ typeNamesEach es

end

end CExpr

/-- The names of types in a variable. -/
def CVar.typeNames (v : CVar) : List String :=
  v.decl.type.names ++ v.init.toList.flatMap CExpr.typeNames

/-- The names of types in the head of a function. -/
def CHead.typeNames (h : CHead) : List String :=
  h.ret.names ++ h.params.flatMap (·.type.names)

namespace CStmt

mutual

/-- The names of types in a statement. -/
def typeNames : CStmt → List String
  | .expr e => e.typeNames
  | .decl var => var.typeNames
  | .assign target _ e => target.typeNames ++ e.typeNames
  | .ret e => e.toList.flatMap CExpr.typeNames
  | .guarded g body => g.cond?.toList.flatMap CExpr.typeNames ++ typeNamesEach body
  | .block body => typeNamesEach body

/-- The names of types in statements. -/
def typeNamesEach : List CStmt → List String
  | [] => []
  | s :: ss => s.typeNames ++ typeNamesEach ss

end

end CStmt

/-! ## Items of a C unit -/

/-- A declaration or a definition outside of functions. -/
inductive CItem where
  | typedef (decl : CDecl)
  | global (var : CVar)
  | prototype (head : CHead)
  | definition (head : CHead) (body : List CStmt)

namespace CItem

/-- The lines of an item. -/
def lines : CItem → List String
  | .typedef d => ["typedef " ++ d.render ++ ";"]
  | .global v => [v.render ++ ";"]
  | .prototype h => [h.render ++ ";"]
  | .definition h body => h.render :: (CStmt.block body).lines 0

/-- The name of the type that an item declares. -/
def type? : CItem → Option String
  | .typedef d => some d.name
  | _ => none

/-- The name of the variable or the function that an item declares. -/
def value? : CItem → Option String
  | .typedef _ => none
  | .global v => some v.decl.name
  | .prototype h => some h.name
  | .definition h _ => some h.name

/-- The names of types that an item uses. -/
def types : CItem → List String
  | .typedef d => d.type.names
  | .global v => v.typeNames
  | .prototype h => h.typeNames
  | .definition h body => h.typeNames ++ CStmt.typeNamesEach body

/-- The other names that an item uses. -/
def values : CItem → List String
  | .typedef _ => []
  | .global v => v.init.toList.flatMap CExpr.names
  | .prototype _ => []
  | .definition _ body => (CUse.ofStmts [] body).map (·.name)

/-- Among the names that the items `all` declare, the item uses those only that were declared
`before` it. A variable or a function may use its own name, which its declarator declares. -/
def UsesDeclared (all before : List CItem) (item : CItem) : Prop :=
  (∀ name ∈ item.types ++ item.values,
    name ∈ all.filterMap type? → name ∈ before.filterMap type?) ∧
  ∀ name ∈ item.values, name ∈ all.filterMap value? → name ∈ (before ++ [item]).filterMap value?

instance (all before : List CItem) (item : CItem) : Decidable (item.UsesDeclared all before) :=
  inferInstanceAs (Decidable (_ ∧ _))

end CItem

namespace CUnit

/-- The items of a unit, in the order of its text. -/
def items (u : CUnit) : List CItem :=
  u.typedefs.map .typedef ++ (u.globals.map .global ++ (u.prototypes.map .prototype ++
    u.definitions.map fun (head, body) => .definition head body))

theorem sublist_paragraph (lines : List String) : lines.Sublist (paragraph lines) := by
  unfold paragraph
  split
  · rename_i hempty
    rw [List.isEmpty_iff.mp hempty]
  · exact List.sublist_cons_self _ _

/-- The lines of the items are lines of the text, in its order. -/
theorem lines_items (u : CUnit) : (u.items.flatMap CItem.lines).Sublist u.lines := by
  have hdefinitions : ∀ ds : List (CHead × List CStmt),
      (ds.flatMap fun d => (CItem.definition d.1 d.2).lines).Sublist
        (ds.flatMap fun d => "" :: d.1.render :: (CStmt.block d.2).lines 0) := by
    intro ds
    induction ds with
    | nil => exact .slnil
    | cons d ds ih => exact (List.sublist_cons_self _ _).append ih
  simp only [items, lines, List.flatMap_append, List.flatMap_map, CItem.lines,
    ← List.map_eq_flatMap, List.append_assoc]
  refine List.sublist_append_of_sublist_right ?_
  refine (sublist_paragraph _).append ((sublist_paragraph _).append ?_)
  exact (sublist_paragraph _).append (hdefinitions u.definitions)

/-- Every use of a name that the unit declares comes after its declaration. -/
def DeclaresBeforeUse (u : CUnit) : Prop := Throughout (CItem.UsesDeclared u.items) [] u.items

instance (u : CUnit) : Decidable u.DeclaresBeforeUse :=
  inferInstanceAs (Decidable (Throughout _ _ _))

end CUnit

/-! ## Items of a unit -/

namespace Node

/-- The name of an alias. -/
def aliasName? : Node → Option String
  | .alias item => some item.name.text
  | _ => none

/-- The name of a global. -/
def globalName? : Node → Option String
  | .global g => some g.name.text
  | _ => none

/-- The name of a function. -/
def functionName? : Node → Option String
  | .function f => some f.name.text
  | _ => none

/-- The type definition of an alias. -/
def typedef? (m : DataModel) : Node → Option CItem
  | .alias item => some (.typedef ⟨Lowering.typeExpr m item.target, item.name.text⟩)
  | _ => none

/-- The variable of a global. -/
def cVar? (m : DataModel) (decls : DeclTable) : Node → Option CItem
  | .global g => some (.global (Lowering.varDecl m decls g))
  | _ => none

/-- Among the nodes `ns`, an alias and a global name those only that come `before` them: aliases in
the target of an alias, and globals in an initial value, which mentions no function. -/
def RefersBack (m : DataModel) (ns before : List Node) : Node → Prop
  | .alias item => ∀ name ∈ (Lowering.typeExpr m item.target).names,
    name ∈ ns.filterMap aliasName? → name ∈ before.filterMap aliasName?
  | .global g => ∀ e ∈ g.init, ∀ mention ∈ e.mentions false,
    mention.name.written ∉ ns.filterMap functionName? ∧
    (mention.name.written ∈ ns.filterMap globalName? →
      mention.name.written ∈ (before ++ [Node.global g]).filterMap globalName?)
  | .function _ => True
  | .header _ => True

instance (m : DataModel) (ns before : List Node) : ∀ n : Node, Decidable (n.RefersBack m ns before)
  | .alias _ => inferInstanceAs (Decidable (∀ name ∈ _, _ → _))
  | .global _ => inferInstanceAs (Decidable (∀ e ∈ _, ∀ mention ∈ _, _ ∧ (_ → _)))
  | .function _ => inferInstanceAs (Decidable True)
  | .header _ => inferInstanceAs (Decidable True)

end Node

section Items

variable {m : DataModel} {decls : DeclTable} {ns : List Node} {name : String}

/-- The prototypes of functions. -/
def Lowering.prototypes (m : DataModel) (ns : List Node) : List CItem :=
  (Lowering.firstOfEach [] (Lowering.functions ns)).map fun f => .prototype (Lowering.head m f)

/-- The definitions of functions. -/
def Lowering.definitions (m : DataModel) (decls : DeclTable) (ns : List Node) : List CItem :=
  (Lowering.functions ns).filterMap fun f =>
    (Lowering.definition? m decls f).map fun (head, body) => .definition head body

theorem items_toC (unit : SourceUnit) : (unit.toC m decls).items =
    unit.nodes.filterMap (Node.typedef? m) ++ (unit.nodes.filterMap (Node.cVar? m decls) ++
      (Lowering.prototypes m unit.nodes ++ Lowering.definitions m decls unit.nodes)) := by
  simp only [CUnit.items, SourceUnit.toC, List.map_filterMap, List.map_map]
  congr 1
  · refine congrArg (List.filterMap · unit.nodes) (funext fun n => ?_)
    cases n <;> rfl
  · congr 1
    refine congrArg (List.filterMap · unit.nodes) (funext fun n => ?_)
    cases n <;> rfl

theorem types_typedefs : (ns.filterMap (Node.typedef? m)).filterMap CItem.type? =
    ns.filterMap Node.aliasName? := by
  rw [List.filterMap_filterMap]
  refine congrArg (List.filterMap · ns) (funext fun n => ?_)
  cases n <;> rfl

theorem values_typedefs : (ns.filterMap (Node.typedef? m)).filterMap CItem.value? = [] := by
  rw [List.filterMap_filterMap, List.filterMap_eq_nil_iff]
  intro n _
  cases n <;> rfl

theorem values_variables : (ns.filterMap (Node.cVar? m decls)).filterMap CItem.value? =
    ns.filterMap Node.globalName? := by
  rw [List.filterMap_filterMap]
  refine congrArg (List.filterMap · ns) (funext fun n => ?_)
  cases n <;> rfl

/-- Only the first section declares types. -/
theorem types_items (unit : SourceUnit) : (unit.toC m decls).items.filterMap CItem.type? =
    unit.nodes.filterMap Node.aliasName? := by
  have hlater : ∀ item ∈ unit.nodes.filterMap (Node.cVar? m decls) ++
      (Lowering.prototypes m unit.nodes ++ Lowering.definitions m decls unit.nodes),
      item.type? = none := by
    intro item hitem
    cases item with
    | typedef d =>
      exfalso
      simp only [List.mem_append, List.mem_filterMap, Lowering.prototypes, Lowering.definitions,
        List.mem_map, Option.map_eq_some_iff, reduceCtorEq, and_false, exists_false,
        or_false] at hitem
      obtain ⟨n, -, hn⟩ := hitem
      cases n <;> cases hn
    | _ => rfl
  rw [items_toC, List.filterMap_append, types_typedefs, List.filterMap_eq_nil_iff.mpr hlater,
    List.append_nil]

theorem firstOfEach_subset (seen : List DeclId) (fs : List Function) :
    Lowering.firstOfEach seen fs ⊆ fs := by
  fun_induction Lowering.firstOfEach seen fs with
  | case1 => exact List.Subset.refl _
  | case2 seen f fs _ ih => exact List.cons_subset_cons f ih
  | case3 seen f fs id _ _ ih => exact List.subset_cons_of_subset f ih
  | case4 seen f fs id _ _ ih => exact List.cons_subset_cons f ih

/-- Every function has a prototype. -/
theorem mem_prototypes {aliases : AliasTable} (hparts : WellDeclared aliases ns)
    (h : name ∈ ns.filterMap Node.functionName?) :
    name ∈ (Lowering.prototypes m ns).filterMap CItem.value? := by
  obtain ⟨n, hn, hname⟩ := List.mem_filterMap.mp h
  cases n with
  | function f =>
    cases hname
    obtain ⟨id, -, hid⟩ := hparts.numbered _ hn f.name.text (by simp [Node.declares, Node.name?])
    have hfirst := filter_firstOfEach [] fun g hg => by
      simpa [Node.declares, Node.name?, Node.decl?] using hid _ (mem_functions.mp hg)
    rw [if_neg List.not_mem_nil] at hfirst
    cases hfind : (Lowering.functions ns).find? (·.name.text == f.name.text) with
    | none =>
      have := List.find?_eq_none.mp hfind f (mem_functions.mpr hn)
      simp at this
    | some g =>
      rw [hfind] at hfirst
      have hg : g ∈ (Lowering.firstOfEach [] (Lowering.functions ns)).filter
          (·.name.text == f.name.text) := by simp [hfirst]
      obtain ⟨hmem, hname⟩ := List.mem_filter.mp hg
      refine List.mem_filterMap.mpr ⟨.prototype (Lowering.head m g), ?_, ?_⟩
      · exact List.mem_map_of_mem hmem
      · exact congrArg some (eq_of_beq hname)
  | _ => cases hname

/-- The variables and functions that the items declare. -/
theorem mem_values_items {aliases : AliasTable} {unit : SourceUnit}
    (hparts : WellDeclared aliases unit.nodes) :
    name ∈ (unit.toC m decls).items.filterMap CItem.value? ↔
      name ∈ unit.nodes.filterMap Node.globalName? ∨
        name ∈ unit.nodes.filterMap Node.functionName? := by
  rw [items_toC, List.filterMap_append, values_typedefs, List.nil_append, List.filterMap_append,
    values_variables, List.mem_append]
  refine or_congr_right ⟨fun h => ?_, fun h => ?_⟩
  · have hfunction : ∃ f ∈ Lowering.functions unit.nodes, f.name.text = name := by
      obtain ⟨item, hitem, hname⟩ := List.mem_filterMap.mp h
      rcases List.mem_append.mp hitem with hitem | hitem
      · obtain ⟨f, hf, rfl⟩ := List.mem_map.mp hitem
        exact ⟨f, firstOfEach_subset _ _ hf, Option.some.inj hname⟩
      · obtain ⟨f, hf, hsome⟩ := List.mem_filterMap.mp hitem
        obtain ⟨definition, hdefinition, rfl⟩ := Option.map_eq_some_iff.mp hsome
        obtain ⟨body, -, rfl⟩ := Option.map_eq_some_iff.mp hdefinition
        exact ⟨f, hf, Option.some.inj hname⟩
    obtain ⟨f, hf, rfl⟩ := hfunction
    exact List.mem_filterMap.mpr ⟨_, mem_functions.mp hf, rfl⟩
  · rw [List.filterMap_append]
    exact List.mem_append_left _ (mem_prototypes hparts h)

/-- The names that the items declare, before an item that comes after some items. -/
theorem CItem.usesDeclared_iff {aliases : AliasTable} {unit : SourceUnit}
    (hparts : WellDeclared aliases unit.nodes) {before : List CItem} {item : CItem}
    (htypes : unit.nodes.filterMap Node.aliasName? ⊆ before.filterMap CItem.type?) :
    item.UsesDeclared (unit.toC m decls).items before ↔ ∀ name ∈ item.values,
      (name ∈ unit.nodes.filterMap Node.globalName? ∨
        name ∈ unit.nodes.filterMap Node.functionName?) →
      name ∈ (before ++ [item]).filterMap CItem.value? := by
  rw [CItem.UsesDeclared, types_items]
  simp only [mem_values_items hparts]
  exact and_iff_right fun name _ hname => htypes hname

/-- Aliases are used as their targets are written. -/
theorem usesDeclared_alias {unit : SourceUnit} (before : List Node) (item : Alias) :
    (CItem.typedef ⟨Lowering.typeExpr m item.target, item.name.text⟩).UsesDeclared
      (unit.toC m decls).items (before.filterMap (Node.typedef? m)) ↔
    (Node.alias item).RefersBack m unit.nodes before := by
  rw [CItem.UsesDeclared, types_items, types_typedefs]
  simp [CItem.types, CItem.values, Node.RefersBack]

/-- A function and a global have different names. -/
theorem WellDeclared.not_function {aliases : AliasTable} (hparts : WellDeclared aliases ns)
    (h : name ∈ ns.filterMap Node.globalName?) : name ∉ ns.filterMap Node.functionName? := by
  intro hfunction
  obtain ⟨n, hn, hname⟩ := List.mem_filterMap.mp h
  obtain ⟨k, hk, hname'⟩ := List.mem_filterMap.mp hfunction
  cases n with
  | global g =>
    cases hname
    cases k with
    | function f =>
      obtain ⟨before, after, rfl⟩ := List.append_of_mem hn
      have halone := alone_of_share hparts.shared (.function f) (by simpa using hk)
      simp [Node.declares, Node.name?, Option.some.inj hname'] at halone
    | _ => cases hname'
  | _ => cases hname

theorem values_variable (g : VarDecl) : (CItem.global (Lowering.varDecl m decls g)).values =
    g.init.toList.flatMap fun e => Lowering.written (e.mentions false) := by
  cases hinit : g.init with
  | none => simp [CItem.values, Lowering.varDecl, hinit]
  | some e => simp [CItem.values, Lowering.varDecl, hinit, Lowering.names_stored _ e false]

/-- A global uses what its initial value mentions. -/
theorem usesDeclared_global {aliases : AliasTable} {unit : SourceUnit}
    (hparts : WellDeclared aliases unit.nodes) {before after : List Node} {g : VarDecl}
    (hsplit : unit.nodes = before ++ .global g :: after) :
    (CItem.global (Lowering.varDecl m decls g)).UsesDeclared (unit.toC m decls).items
      (unit.nodes.filterMap (Node.typedef? m) ++ before.filterMap (Node.cVar? m decls)) ↔
    (Node.global g).RefersBack m unit.nodes before := by
  have hearlier : (unit.nodes.filterMap (Node.typedef? m) ++
      before.filterMap (Node.cVar? m decls) ++
      [CItem.global (Lowering.varDecl m decls g)]).filterMap CItem.value? =
        (before ++ [Node.global g]).filterMap Node.globalName? := by
    simp only [List.filterMap_append, values_typedefs, values_variables, List.nil_append]
    rfl
  have hsubset : ∀ name ∈ (before ++ [Node.global g]).filterMap Node.globalName?,
      name ∈ unit.nodes.filterMap Node.globalName? := by
    have hbefore : unit.nodes = before ++ [.global g] ++ after := by simp [hsplit]
    intro name hname
    rw [hbefore, List.filterMap_append]
    exact List.mem_append_left _ hname
  rw [CItem.usesDeclared_iff hparts (by rw [List.filterMap_append, types_typedefs]; simp), hearlier,
    values_variable]
  constructor
  · intro h e he mention hmention
    have hname : mention.name.written ∈
        g.init.toList.flatMap fun e => Lowering.written (e.mentions false) :=
      List.mem_flatMap.mpr ⟨e, Option.mem_toList.mpr he, List.mem_map_of_mem hmention⟩
    refine ⟨fun hfunction => ?_, fun hglobal => h _ hname (.inl hglobal)⟩
    exact hparts.not_function (hsubset _ (h _ hname (.inr hfunction))) hfunction
  · intro h name hname hdeclared
    obtain ⟨e, he, hwritten⟩ := List.mem_flatMap.mp hname
    obtain ⟨mention, hmention, rfl⟩ := List.mem_map.mp hwritten
    obtain ⟨hfunction, hglobal⟩ := h e (Option.mem_toList.mp he) mention hmention
    exact hglobal (hdeclared.resolve_right hfunction)

/-- Heads use types only. -/
theorem usesDeclared_prototypes {aliases : AliasTable} {unit : SourceUnit}
    (hparts : WellDeclared aliases unit.nodes) :
    Throughout (CItem.UsesDeclared (unit.toC m decls).items)
      (unit.nodes.filterMap (Node.typedef? m) ++ unit.nodes.filterMap (Node.cVar? m decls))
      (Lowering.prototypes m unit.nodes) := by
  rw [Throughout.iff_splits]
  intro earlier item later hsplit
  have hitem : item ∈ Lowering.prototypes m unit.nodes := by simp [hsplit]
  obtain ⟨f, -, rfl⟩ := List.mem_map.mp hitem
  rw [CItem.usesDeclared_iff hparts (by simp only [List.filterMap_append, types_typedefs]; simp)]
  exact List.forall_mem_nil _

/-- Bodies come after all variables and prototypes. -/
theorem usesDeclared_definitions {aliases : AliasTable} {unit : SourceUnit}
    (hparts : WellDeclared aliases unit.nodes) :
    Throughout (CItem.UsesDeclared (unit.toC m decls).items)
      (unit.nodes.filterMap (Node.typedef? m) ++ unit.nodes.filterMap (Node.cVar? m decls) ++
        Lowering.prototypes m unit.nodes)
      (Lowering.definitions m decls unit.nodes) := by
  rw [Throughout.iff_splits]
  intro earlier item later hsplit
  rw [CItem.usesDeclared_iff hparts (by simp only [List.filterMap_append, types_typedefs]; simp)]
  intro name _ hdeclared
  simp only [List.filterMap_append, values_variables, List.mem_append]
  rcases hdeclared with hglobal | hfunction
  · exact .inl (.inl (.inl (.inr hglobal)))
  · exact .inl (.inl (.inr (mem_prototypes hparts hfunction)))

end Items

/-- **Order of declarations.** The items of the C text of a checked unit, in its order, declare the
names of the unit before they use them, if and only if every alias and every global refers back. -/
theorem declared_before_use_iff {unit : SourceUnit} {a : Analyzed}
    (h : unit.analyzeBridged = .ok a) (m : DataModel) :
    ((a.unit.toC m a.context.decls).items.flatMap CItem.lines).Sublist
      (a.unit.toC m a.context.decls).lines ∧
    ((a.unit.toC m a.context.decls).DeclaresBeforeUse ↔
      Throughout (Node.RefersBack m a.unit.nodes) [] a.unit.nodes) := by
  obtain ⟨hparts, -⟩ := SourceUnit.analyze_completed h
  refine ⟨CUnit.lines_items _, ?_⟩
  -- Prototypes and definitions come last and use what is declared; types and globals decide.
  have hsections : (a.unit.toC m a.context.decls).DeclaresBeforeUse ↔
      Throughout (CItem.UsesDeclared (a.unit.toC m a.context.decls).items)
        [] (a.unit.nodes.filterMap (Node.typedef? m)) ∧
      Throughout (CItem.UsesDeclared (a.unit.toC m a.context.decls).items)
        (a.unit.nodes.filterMap (Node.typedef? m))
        (a.unit.nodes.filterMap (Node.cVar? m a.context.decls)) := by
    rw [CUnit.DeclaresBeforeUse]
    nth_rewrite 2 [items_toC]
    rw [Throughout.append_iff, Throughout.append_iff, Throughout.append_iff, List.nil_append]
    have hprototypes := @usesDeclared_prototypes m a.context.decls _ _ hparts
    have hdefinitions := @usesDeclared_definitions m a.context.decls _ _ hparts
    exact and_congr_right fun _ => and_iff_left ⟨hprototypes, hdefinitions⟩
  rw [hsections, Throughout.filterMap_iff, Throughout.filterMap_iff, Throughout.iff_splits]
  simp only [List.nil_append]
  constructor
  · rintro ⟨haliases, hglobals⟩ before n after hsplit
    cases n with
    | «alias» item => exact (usesDeclared_alias _ _).mp (haliases before _ after hsplit _ rfl)
    | global g =>
      exact (usesDeclared_global hparts hsplit).mp (hglobals before _ after hsplit _ rfl)
    | _ => trivial
  · intro hback
    refine ⟨fun before n after hsplit item hitem => ?_, fun before n after hsplit item hitem => ?_⟩
    · cases n with
      | «alias» item =>
        cases hitem
        exact (usesDeclared_alias _ _).mpr (hback before _ after hsplit)
      | _ => cases hitem
    · cases n with
      | global g =>
        cases hitem
        exact (usesDeclared_global hparts hsplit).mpr (hback before _ after hsplit)
      | _ => cases hitem

/-- Aliases and globals that refer back, around functions that use each other. -/
theorem in_order_declared_before_use : ∃ unit a,
    SourceUnit.parse 0 "int f(b i) { return g(i, y) } alias int a int x = 1 alias a b
      b g(b i, a j) { return f(i + j) } a y = x" = .ok unit ∧
    unit.analyzeBridged = .ok a ∧ (a.unit.toC .lp64 a.context.decls).DeclaresBeforeUse := by
  have hok : ((SourceUnit.parse 0 "int f(b i) { return g(i, y) } alias int a int x = 1 alias a b
      b g(b i, a j) { return f(i + j) } a y = x").toOption.any fun unit =>
      unit.analyzeBridged.toOption.any fun a =>
        decide (Throughout (Node.RefersBack .lp64 a.unit.nodes) [] a.unit.nodes)) = true := by
    rw [SourceUnit.parse_ofList]
    decide +kernel
  obtain ⟨unit, a, hparse, hanalyze, hback⟩ := SourceUnit.exists_analyzed hok
  exact ⟨unit, a, hparse, hanalyze,
    (declared_before_use_iff hanalyze .lp64).2.mpr (of_decide_eq_true hback)⟩

/-- An alias of a later alias: its type definition uses a name that is defined after it. -/
theorem alias_used_before_declared : ∃ unit a,
    SourceUnit.parse 0 "alias b a alias int b a x = 1" = .ok unit ∧
    unit.analyzeBridged = .ok a ∧ ¬ (a.unit.toC .lp64 a.context.decls).DeclaresBeforeUse := by
  have hok : ((SourceUnit.parse 0 "alias b a alias int b a x = 1").toOption.any fun unit =>
      unit.analyzeBridged.toOption.any fun a =>
        decide (¬ (a.unit.toC .lp64 a.context.decls).DeclaresBeforeUse)) = true := by
    rw [SourceUnit.parse_ofList]
    decide +kernel
  obtain ⟨unit, a, hparse, hanalyze, huse⟩ := SourceUnit.exists_analyzed hok
  exact ⟨unit, a, hparse, hanalyze, of_decide_eq_true huse⟩

end KilnLang
