import KilnLang.Proofs.Semantic.Filling
import KilnLang.Proofs.Semantic.Sites

/-!
# What names stand for

`Bound` says what a name stands for under lexical scoping: the innermost declaration that is visible
where the name is used; if there is none, what the unit declares under that name; and only if there
is none either, the array of further arguments, an alias or a symbol of a header.

**Agreement.** Resolution keeps a stack of scopes with numbers of declarations. It agrees with the
frames of declarations that are read off the tree (`Agrees`) if the scopes hold the same names in
the same order, and the numbers lead to declarations with the right name, place, kind and type.
Then what resolution finds is what a name is bound to (`lookupName_bound`).

**Growth.** Declarations only gain defaults and bodies, and new ones come last (`Grows`), so what
held when a name was bound still holds of the finished table.
-/

namespace KilnLang

/-! ## Tables that grow -/

/-- The part of a declaration that does not change. -/
def DeclInfo.head (info : DeclInfo) : DeclInfo := { info with defaults := [], defined := false }

theorem DeclInfo.eq_of_head {info info' : DeclInfo} (h : info'.head = info.head) :
    info'.name = info.name ∧ info'.span = info.span ∧ info'.kind = info.kind ∧
      info'.ty = info.ty ∧ info'.order = info.order := by
  obtain ⟨_, _, _, _, _, _, _⟩ := info
  obtain ⟨_, _, _, _, _, _, _⟩ := info'
  cases h
  exact ⟨rfl, rfl, rfl, rfl, rfl⟩

/-- The declarations of a table come first in the other one, and gain at most defaults and a
body. -/
def DeclTable.Extends (t t' : DeclTable) : Prop := t.map DeclInfo.head <+: t'.map DeclInfo.head

namespace DeclTable.Extends

variable {t t' t'' : DeclTable}

theorem refl (t : DeclTable) : Extends t t := List.prefix_rfl

theorem trans (h : Extends t t') (h' : Extends t' t'') : Extends t t'' := List.IsPrefix.trans h h'

theorem push (t : DeclTable) (info : DeclInfo) : Extends t (t ++ [info]) := by
  unfold Extends
  rw [List.map_append]
  exact List.prefix_append _ _

theorem modify (t : DeclTable) (id : DeclId) {f : DeclInfo → DeclInfo}
    (hf : ∀ info, (f info).head = info.head) : Extends t (t.modify id f) := by
  have heq : (t.modify id f).map DeclInfo.head = t.map DeclInfo.head := by
    refine List.ext_getElem? fun i => ?_
    rw [List.getElem?_map, List.getElem?_map, List.getElem?_modify]
    cases t[i]? <;> by_cases h : id = i <;> simp [h, hf]
  exact ⟨[], by rw [List.append_nil, heq]⟩

theorem getElem? (h : Extends t t') {id : DeclId} {info : DeclInfo} (hinfo : t[id]? = some info) :
    ∃ info', t'[id]? = some info' ∧ info'.head = info.head := by
  have hhead : (t.map DeclInfo.head)[id]? = some info.head := by
    rw [List.getElem?_map, hinfo, Option.map_some]
  obtain ⟨rest, hrest⟩ := h
  have hlt : id < (t.map DeclInfo.head).length := (List.getElem?_eq_some_iff.mp hhead).1
  rw [← List.getElem?_append_left hlt, hrest, List.getElem?_map, Option.map_eq_some_iff] at hhead
  exact hhead

end DeclTable.Extends

/-! ## What names stand for -/

/-- The declaration is that of the parameter or variable. -/
structure DeclInfo.Matches (aliases : AliasTable) (info : DeclInfo) (d : Declared) : Prop where
  name : info.name = d.name.text
  span : info.span = d.name.span
  kind : info.kind = d.kind
  ty : (aliases.annotate d.ty).2 = .ok info.ty
  inner : d.kind = .local ∨ d.kind = .parameter

/-- What a name stands for that nothing visible declares. `vargs` is the type of further
arguments. -/
inductive Outside (context : SemanticContext) (vargs : Option Ty) (name : String) (span : Span) :
    Resolution → Prop
  | furtherArgs {elem : Ty} (isName : name = "vargs") (typed : vargs = some elem) :
      Outside context vargs name span ⟨.varArgs, .array elem none⟩
  | type {ty : Ty} (free : name = "vargs" → vargs = none)
      (kind : context.aliases.kind? name = some .type)
      (leads : context.aliases.resolve name span = .ok ty) :
      Outside context vargs name span ⟨.type, ty⟩
  | constant (free : name = "vargs" → vargs = none)
      (kind : context.aliases.kind? name = some .value) :
      Outside context vargs name span
        ⟨.macroConstant, (context.aliases.resolve name span).toOption.getD .any⟩
  | symbol {s : BridgeSymbol} (free : name = "vargs" → vargs = none)
      (kind : context.aliases.kind? name = none) (entry : context.bridge.lookup name = some s) :
      Outside context vargs name span s.resolution

/-- What a name stands for under the scopes of a function, where `visible` are the parts of the
unit that can be seen. -/
inductive Bound (context : SemanticContext) (visible : List Node) (scopes : List Frame)
    (vargs : Option Ty) (name : String) (span : Span) : Resolution → Prop
  | inner {d : Declared} {id : DeclId} {info : DeclInfo}
      (innermost : Frame.innermost? scopes name = some d) (decl : d.decl = some id)
      (entry : context.decls[id]? = some info) (data : info.Matches context.aliases d) :
      Bound context visible scopes vargs name span ⟨info.binding id, info.ty⟩
  | unit {id : DeclId} {info : DeclInfo} (free : Frame.innermost? scopes name = none)
      (declared : ∃ n ∈ visible, n.declares name)
      (decl : ∀ n ∈ visible, n.declares name →
        n.decl? = some id ∧ info.Describes context.aliases n)
      (entry : context.decls[id]? = some info) :
      Bound context visible scopes vargs name span ⟨info.binding id, info.ty⟩
  | outside {r : Resolution} (free : Frame.innermost? scopes name = none)
      (undeclared : ∀ n ∈ visible, n.declares name = false)
      (outside : Outside context vargs name span r) :
      Bound context visible scopes vargs name span r

/-- What a name stands for whose slot is filled: a single name is bound, and the number of further
arguments is the only other name. -/
def DottedName.Bound (context : SemanticContext) (visible : List Node) (scopes : List Frame)
    (vargs : Option Ty) (name : DottedName) : Prop :=
  ∃ r, name.resolved = some r ∧
    ((∃ part, name.parts = [part] ∧
      KilnLang.Bound context visible scopes vargs part.text name.span r) ∨
    (name.parts.map (·.text) = ["vargs", "length"] ∧ vargs.isSome ∧ r = ⟨.varArgsLength, .int⟩))

/-! ## Scopes and frames -/

/-- An entry of a scope is that of the parameter or variable. -/
def EntryOf (context : SemanticContext) (entry : String × DeclId) (d : Declared) : Prop :=
  d.name.text = entry.1 ∧ d.decl = some entry.2 ∧
    ∃ info, context.decls[entry.2]? = some info ∧ info.Matches context.aliases d

/-- The unit's scope holds what the visible parts declare, and what it holds besides is hidden. -/
structure UnitScope (env : Env) (top : Scope) (visible : List Node) : Prop where
  entry : ∀ name id, top.lookup name = some id → ∃ info, env.context.decls[id]? = some info ∧
    if env.isHidden info then ∀ n ∈ visible, n.declares name = false
    else (∃ n ∈ visible, n.declares name) ∧ ∀ n ∈ visible, n.declares name →
      n.decl? = some id ∧ info.Describes env.context.aliases n
  none : ∀ name, top.lookup name = none → ∀ n ∈ visible, n.declares name = false

/-- The scopes hold what the frames and the visible parts declare. -/
structure Agrees (env : Env) (top : Scope) (frames : List Frame) (visible : List Node) : Prop where
  scopes : ∃ locals, env.scopes = locals ++ [top] ∧
    List.Forall₂ (List.Forall₂ (EntryOf env.context)) locals frames
  distinct : ∀ frame ∈ frames, (frame.map (·.name.text)).Nodup
  unit : UnitScope env top visible

section Lookup

variable {env : Env} {top : Scope} {frames : List Frame} {visible : List Node}

theorem forall₂_right {α β : Type} {R : α → β → Prop} {xs : List α} {ys : List β}
    (h : List.Forall₂ R xs ys) {y : β} (hy : y ∈ ys) : ∃ x ∈ xs, R x y := by
  induction h with
  | nil => exact nomatch hy
  | cons hxy _ ih =>
    rcases List.mem_cons.mp hy with rfl | hy
    · exact ⟨_, List.mem_cons_self, hxy⟩
    · obtain ⟨x, hx, hxy⟩ := ih hy
      exact ⟨x, List.mem_cons_of_mem _ hx, hxy⟩

theorem forall₂_left {α β : Type} {R : α → β → Prop} {xs : List α} {ys : List β}
    (h : List.Forall₂ R xs ys) {x : α} (hx : x ∈ xs) : ∃ y ∈ ys, R x y :=
  forall₂_right (List.Forall₂.flip h) hx

theorem EntryOf.lookup {context : SemanticContext} {scope : Scope} {frame : Frame}
    (h : List.Forall₂ (EntryOf context) scope frame) (name : String) :
    match frame.find? (·.name.text == name) with
    | none => scope.lookup name = none
    | some d => ∃ id info, scope.lookup name = some id ∧ d.decl = some id ∧
        context.decls[id]? = some info ∧ info.Matches context.aliases d := by
  induction h with
  | nil => rfl
  | @cons entry d scope frame hd _ ih =>
    obtain ⟨hname, hdecl, info, hinfo, hmatch⟩ := hd
    obtain ⟨other, id⟩ := entry
    simp only at hname hdecl hinfo
    by_cases hd : d.name.text = name
    · rw [List.find?_cons_of_pos (by simpa using hd)]
      exact ⟨id, info, by rw [Scope.lookup_cons, if_pos (hd ▸ hname)], hdecl, hinfo, hmatch⟩
    · rw [List.find?_cons_of_neg (by simpa using hd), Scope.lookup_cons,
        if_neg fun hn => hd (hname.trans hn.symm)]
      exact ih

/-- A name that a frame declares is found there, and other names in the unit's scope. -/
theorem inScopes?_frames (top : Scope) {locals : List Scope} (name : String)
    (h : List.Forall₂ (List.Forall₂ (EntryOf env.context)) locals frames) :
    match Frame.innermost? frames name with
    | none => env.inScopes? name (locals ++ [top]) = env.inScopes? name [top]
    | some d => ∃ id info, env.inScopes? name (locals ++ [top]) = some ⟨info.binding id, info.ty⟩ ∧
        d.decl = some id ∧ env.context.decls[id]? = some info ∧
        info.Matches env.context.aliases d := by
  induction h with
  | nil => rfl
  | @cons scope frame locals frames hscope _ ih =>
    have hfound := EntryOf.lookup hscope name
    rw [Frame.innermost?, List.findSome?_cons, List.cons_append, Env.inScopes?]
    cases hd : frame.find? (·.name.text == name) with
    | none =>
      rw [hd] at hfound
      rw [hfound]
      exact ih
    | some d =>
      rw [hd] at hfound
      obtain ⟨id, info, hid, hdecl, hinfo, hmatch⟩ := hfound
      refine ⟨id, info, ?_, hdecl, hinfo, hmatch⟩
      rw [hid]
      simp [hinfo]

theorem inScopes?_unit (h : UnitScope env top visible) (name : String) :
    ((∃ id info, env.inScopes? name [top] = some ⟨info.binding id, info.ty⟩ ∧
        (∃ n ∈ visible, n.declares name) ∧ (∀ n ∈ visible, n.declares name →
          n.decl? = some id ∧ info.Describes env.context.aliases n) ∧
        env.context.decls[id]? = some info)) ∨
      env.inScopes? name [top] = none ∧ ∀ n ∈ visible, n.declares name = false := by
  rw [Env.inScopes?]
  cases hid : top.lookup name with
  | none => exact .inr ⟨rfl, h.none name hid⟩
  | some id =>
    obtain ⟨info, hinfo, hvisible⟩ := h.entry name id hid
    simp only [hinfo, List.isEmpty_nil, Bool.true_and]
    cases hhidden : env.isHidden info with
    | true => exact .inr ⟨rfl, by simpa [hhidden] using hvisible⟩
    | false =>
      rw [hhidden] at hvisible
      exact .inl ⟨id, info, rfl, hvisible.1, hvisible.2, hinfo⟩

theorem lookupName_outside {name : String} {span : Span} {r : Resolution}
    (hscopes : env.inScopes? name env.scopes = none)
    (h : env.lookupName name span = (some r, [])) :
    Outside env.context env.vargs name span r := by
  rw [Env.lookupName, hscopes, Option.none_or] at h
  cases hvargs : env.asVarArgs? name with
  | some found =>
    rw [hvargs] at h
    cases h
    unfold Env.asVarArgs? at hvargs
    split at hvargs
    · rename_i hname
      obtain ⟨elem, helem, rfl⟩ := Option.map_eq_some_iff.mp hvargs
      exact .furtherArgs hname helem
    · exact nomatch hvargs
  | none =>
    -- The name of the array is looked up before all others, so it is free here.
    have hfree : name = "vargs" → env.vargs = none := by
      rintro rfl
      simpa [Env.asVarArgs?] using hvargs
    rw [hvargs] at h
    cases halias : env.asAlias? name span with
    | some found =>
      obtain ⟨kind, hkind, rfl⟩ := Option.map_eq_some_iff.mp halias
      rw [halias] at h
      cases kind with
      | value =>
        have hconstant : Outside env.context env.vargs name span ⟨.macroConstant,
            (env.context.aliases.resolve name span).toOption.getD .any⟩ := .constant hfree hkind
        cases hres : env.context.aliases.resolve name span <;> rw [hres] at h hconstant <;> cases h
        all_goals exact hconstant
      | type =>
        cases hres : env.context.aliases.resolve name span <;> rw [hres] at h <;> cases h
        exact .type hfree hkind hres
    | none =>
      rw [halias] at h
      have hkind : env.context.aliases.kind? name = none := by simpa [Env.asAlias?] using halias
      have hbridge : env.asBridge? name = some r := congrArg Prod.fst h
      obtain ⟨s, hs, rfl⟩ := Option.map_eq_some_iff.mp hbridge
      exact .symbol hfree hkind hs

/-- What resolution finds is what lexical scoping says. -/
theorem lookupName_bound (hagrees : Agrees env top frames visible) {name : String} {span : Span}
    {r : Resolution} (h : env.lookupName name span = (some r, [])) :
    Bound env.context visible frames env.vargs name span r := by
  obtain ⟨⟨locals, hscopes, hlocals⟩, -, hunit⟩ := hagrees
  have hframes := inScopes?_frames top name hlocals
  cases hinner : Frame.innermost? frames name with
  | some d =>
    rw [hinner] at hframes
    obtain ⟨id, info, hfound, hdecl, hinfo, hmatch⟩ := hframes
    rw [Env.lookupName, hscopes, hfound] at h
    cases h
    exact .inner hinner hdecl hinfo hmatch
  | none =>
    rw [hinner] at hframes
    rcases inScopes?_unit hunit name with ⟨id, info, hfound, hsome, hdecl, hinfo⟩ | ⟨hnone, hno⟩
    · rw [Env.lookupName, hscopes, hframes, hfound] at h
      cases h
      exact .unit hinner hsome hdecl hinfo
    · refine .outside hinner hno (lookupName_outside ?_ h)
      rw [hscopes, hframes, hnone]

theorem lookup_bound (hagrees : Agrees env top frames visible) {name : DottedName}
    {r : Resolution} (h : env.lookup name = (some r, [])) (hr : name.resolved = some r) :
    name.Bound env.context visible frames env.vargs := by
  refine ⟨r, hr, ?_⟩
  unfold Env.lookup at h
  split at h
  · rename_i single hparts
    obtain ⟨part, hpart, rfl⟩ := List.map_eq_singleton_iff.mp hparts
    exact .inl ⟨part, hpart, lookupName_bound hagrees h⟩
  · rename_i hparts
    obtain ⟨elem, helem, rfl⟩ := Option.map_eq_some_iff.mp (congrArg Prod.fst h)
    exact .inr ⟨hparts, by rw [helem]; rfl, rfl⟩
  · exact nomatch h

end Lookup

/-! ## Expressions -/

namespace Env

variable {env : Env}

/-- The slot of the name holds what is found under the name. -/
def Finds (env : Env) (name : DottedName) : Prop :=
  ∃ r, name.resolved = some r ∧ env.lookup name = (some r, [])

mutual

theorem finds_expr : ∀ {e e' : Expr}, env.expr e = pure e' →
    ∀ n ∈ e'.names, env.Finds n
  | .mk span ops, e', h => by
    simp only [expr, Report.bind_eq_pure, Report.pure_inj] at h
    obtain ⟨ops', hops, rfl⟩ := h
    simp only [Expr.names]
    exact finds_chain hops
termination_by structural e => e

theorem finds_chain : ∀ {c c' : Chain}, env.chain c = pure c' →
    ∀ n ∈ c'.names, env.Finds n
  | .operand v, c', h => by
    simp only [chain, Report.bind_eq_pure, Report.pure_inj] at h
    obtain ⟨v', hv, rfl⟩ := h
    simp only [Chain.names]
    exact finds_value hv
  | .link v op rest, c', h => by
    simp only [chain, Report.bind_eq_pure, Report.pure_inj] at h
    obtain ⟨v', hv, rest', hrest, rfl⟩ := h
    simp only [Chain.names]
    exact List.forall_mem_append.mpr ⟨finds_value hv, finds_chain hrest⟩
termination_by structural c => c

theorem finds_value : ∀ {v v' : Value}, env.value v = pure v' →
    ∀ n ∈ v'.names, env.Finds n
  | .ident name, v', h => by
    simp only [value, Report.bind_eq_pure, Report.pure_inj] at h
    obtain ⟨name', hname, rfl⟩ := h
    obtain ⟨r, hr, rfl⟩ := ident_eq_pure hname
    simp only [Value.names]
    exact List.forall_mem_singleton.mpr ⟨r, rfl, hr⟩
  | .call span name args target defaulted, v', h => by
    simp only [value, Report.bind_eq_pure, Report.pure_inj, Prod.exists] at h
    obtain ⟨args', hargs, name', target', hcallee, rfl⟩ := h
    obtain ⟨r, hr, rfl⟩ := callee_eq_pure hcallee
    simp only [Value.names]
    exact List.forall_mem_cons.mpr ⟨⟨r, rfl, hr⟩, finds_exprs hargs⟩
  | .index span base position, v', h => by
    simp only [value, Report.bind_eq_pure, Report.pure_inj] at h
    obtain ⟨base', hbase, position', hposition, rfl⟩ := h
    simp only [Value.names]
    exact List.forall_mem_append.mpr ⟨finds_value hbase, finds_expr hposition⟩
  | .ref span inner, v', h | .prefixed span op inner, v', h | .suffixed span op inner, v', h => by
    simp only [value, Report.bind_eq_pure, Report.pure_inj] at h
    obtain ⟨inner', hinner, rfl⟩ := h
    simp only [Value.names]
    exact finds_value hinner
  | .paren inner, v', h => by
    simp only [value, Report.bind_eq_pure, Report.pure_inj] at h
    obtain ⟨inner', hinner, rfl⟩ := h
    simp only [Value.names]
    exact finds_expr hinner
  | .number _, v', h | .decimal _, v', h | .string _, v', h
  | .char _, v', h | .bool _ _, v', h | .null _, v', h => by
    rw [← Report.pure_inj.mp h]
    simp [Value.names]
termination_by structural v => v

theorem finds_exprs : ∀ {es es' : List Expr}, env.exprs es = pure es' →
    ∀ n ∈ Value.namesEach es', env.Finds n
  | [], es', h => by
    rw [← Report.pure_inj.mp h]
    simp [Value.namesEach]
  | e :: es, es', h => by
    simp only [exprs, Report.bind_eq_pure, Report.pure_inj] at h
    obtain ⟨e', he, es', hes, rfl⟩ := h
    simp only [Value.namesEach]
    exact List.forall_mem_append.mpr ⟨finds_expr he, finds_exprs hes⟩
termination_by structural es => es

end

theorem guard_eq_pure {g g' : Guard} (h : env.guard g = pure g') :
    env.expr? g.cond? = pure g'.cond? := by
  cases g with
  | otherwise => rw [← Report.pure_inj.mp h]; rfl
  | _ =>
    simp only [guard, Report.bind_eq_pure, Report.pure_inj] at h
    obtain ⟨e', he, rfl⟩ := h
    simp only [Guard.cond?, expr?, he, pure_bind]

end Env

/-! ## What stays while statements are resolved -/

/-- The other context knows the same and more. -/
structure SemanticContext.Grows (c c' : SemanticContext) : Prop where
  decls : c.decls.Extends c'.decls
  aliases : c'.aliases = c.aliases
  bridge : c'.bridge = c.bridge

/-- The other environment knows the same and more, at the same kind of place. -/
structure Env.Grows (env env' : Env) : Prop where
  context : env.context.Grows env'.context
  vargs : env'.vargs = env.vargs
  limit : env'.limit = env.limit

namespace SemanticContext.Grows

variable {c c' c'' : SemanticContext}

theorem refl (c : SemanticContext) : c.Grows c := ⟨.refl _, rfl, rfl⟩

theorem trans (h : c.Grows c') (h' : c'.Grows c'') : c.Grows c'' :=
  ⟨h.decls.trans h'.decls, h'.aliases.trans h.aliases, h'.bridge.trans h.bridge⟩

/-- A declaration keeps what matters where its name is used. -/
theorem entry (h : c.Grows c') {id : DeclId} {info : DeclInfo} (hinfo : c.decls[id]? = some info) :
    ∃ info', c'.decls[id]? = some info' ∧ info'.name = info.name ∧ info'.span = info.span ∧
      info'.kind = info.kind ∧ info'.ty = info.ty ∧ info'.order = info.order := by
  obtain ⟨info', hinfo', hhead⟩ := h.decls.getElem? hinfo
  exact ⟨info', hinfo', DeclInfo.eq_of_head hhead⟩

end SemanticContext.Grows

theorem Env.Grows.refl (env : Env) : env.Grows env := ⟨.refl _, rfl, rfl⟩

theorem Env.Grows.trans {env env' env'' : Env} (h : env.Grows env') (h' : env'.Grows env'') :
    env.Grows env'' :=
  ⟨h.context.trans h'.context, h'.vargs.trans h.vargs, h'.limit.trans h.limit⟩

theorem Env.grows_setDefault (env : Env) (decl : Option DeclId) (index : Nat)
    (default : Option Expr) : env.Grows (env.setDefault decl index default) := by
  unfold Env.setDefault
  split
  · exact ⟨⟨.modify _ _ fun _ => rfl, rfl, rfl⟩, rfl, rfl⟩
  · exact .refl _

theorem Env.scopes_setDefault (env : Env) (decl : Option DeclId) (index : Nat)
    (default : Option Expr) : (env.setDefault decl index default).scopes = env.scopes := by
  unfold Env.setDefault
  split <;> rfl

section Growing

variable {c c' : SemanticContext} {visible : List Node} {scopes frames : List Frame}
  {vargs : Option Ty} {name : String} {span : Span} {r : Resolution} {env env' : Env} {top : Scope}

theorem Outside.grows (h : Outside c vargs name span r) (hgrows : c.Grows c') :
    Outside c' vargs name span r := by
  cases h with
  | furtherArgs hname htyped => exact .furtherArgs hname htyped
  | type hfree hkind hleads => exact .type hfree (hgrows.aliases ▸ hkind) (hgrows.aliases ▸ hleads)
  | constant hfree hkind =>
    rw [← hgrows.aliases] at hkind ⊢
    exact .constant hfree hkind
  | symbol hfree hkind hentry =>
    exact .symbol hfree (hgrows.aliases ▸ hkind) (hgrows.bridge ▸ hentry)

theorem DeclInfo.binding_congr {info info' : DeclInfo} (hkind : info'.kind = info.kind)
    (id : DeclId) : info'.binding id = info.binding id := by
  unfold DeclInfo.binding
  rw [hkind]

theorem DeclInfo.Describes.congr {aliases : AliasTable} {info info' : DeclInfo} {n : Node}
    (h : info.Describes aliases n) (hname : info'.name = info.name)
    (hspan : info'.span = info.span) (hkind : info'.kind = info.kind) (hty : info'.ty = info.ty) :
    info'.Describes aliases n := by
  cases n with
  | function f => exact ⟨hname ▸ h.1, hkind ▸ h.2.1, hty ▸ h.2.2⟩
  | global g => exact ⟨hname ▸ h.1, hkind ▸ h.2.1, hspan ▸ h.2.2.1, hty ▸ h.2.2.2⟩
  | _ => exact h

theorem DeclInfo.Matches.congr {aliases : AliasTable} {info info' : DeclInfo} {d : Declared}
    (h : info.Matches aliases d) (hname : info'.name = info.name)
    (hspan : info'.span = info.span) (hkind : info'.kind = info.kind) (hty : info'.ty = info.ty) :
    info'.Matches aliases d :=
  ⟨hname ▸ h.name, hspan ▸ h.span, hkind ▸ h.kind, hty ▸ h.ty, h.inner⟩

theorem Bound.grows (h : Bound c visible scopes vargs name span r) (hgrows : c.Grows c') :
    Bound c' visible scopes vargs name span r := by
  cases h with
  | @inner d id info hinner hdecl hentry hmatch =>
    obtain ⟨info', hentry', hname, hspan, hkind, hty, -⟩ := hgrows.entry hentry
    rw [← DeclInfo.binding_congr hkind, ← hty]
    rw [← hgrows.aliases] at hmatch
    exact .inner hinner hdecl hentry' (hmatch.congr hname hspan hkind hty)
  | @unit id info hfree hsome hdecl hentry =>
    obtain ⟨info', hentry', hname, hspan, hkind, hty, -⟩ := hgrows.entry hentry
    rw [← DeclInfo.binding_congr hkind, ← hty]
    refine .unit hfree hsome (fun n hn hdeclares => ?_) hentry'
    obtain ⟨hid, hdesc⟩ := hdecl n hn hdeclares
    rw [hgrows.aliases]
    exact ⟨hid, hdesc.congr hname hspan hkind hty⟩
  | outside hfree hno hout => exact .outside hfree hno (hout.grows hgrows)

theorem DottedName.Bound.grows {name : DottedName} (h : name.Bound c visible scopes vargs)
    (hgrows : c.Grows c') : name.Bound c' visible scopes vargs := by
  obtain ⟨r, hr, ⟨part, hpart, hbound⟩ | hlength⟩ := h
  · exact ⟨r, hr, .inl ⟨part, hpart, hbound.grows hgrows⟩⟩
  · exact ⟨r, hr, .inr hlength⟩

theorem EntryOf.grows {entry : String × DeclId} {d : Declared} (h : EntryOf c entry d)
    (hgrows : c.Grows c') : EntryOf c' entry d := by
  obtain ⟨hname, hdecl, info, hinfo, hmatch⟩ := h
  obtain ⟨info', hinfo', hname', hspan, hkind, hty, -⟩ := hgrows.entry hinfo
  rw [← hgrows.aliases] at hmatch
  exact ⟨hname, hdecl, info', hinfo', hmatch.congr hname' hspan hkind hty⟩

theorem UnitScope.grows (h : UnitScope env top visible) (hgrows : env.Grows env') :
    UnitScope env' top visible := by
  refine ⟨fun name id hid => ?_, h.none⟩
  obtain ⟨info, hinfo, hvisible⟩ := h.entry name id hid
  obtain ⟨info', hinfo', hname, hspan, hkind, hty, horder⟩ := hgrows.context.entry hinfo
  refine ⟨info', hinfo', ?_⟩
  have hhidden : env'.isHidden info' = env.isHidden info := by
    unfold Env.isHidden
    rw [hkind, horder, hgrows.limit]
  rw [hhidden, hgrows.context.aliases]
  cases hcase : env.isHidden info with
  | true =>
    rw [hcase] at hvisible
    exact hvisible
  | false =>
    rw [hcase] at hvisible
    refine ⟨hvisible.1, fun n hn hdecl => ?_⟩
    obtain ⟨hid, hdesc⟩ := hvisible.2 n hn hdecl
    exact ⟨hid, hdesc.congr hname hspan hkind hty⟩

theorem Agrees.grows (h : Agrees env top frames visible) (hgrows : env.Grows env')
    (hscopes : env'.scopes = env.scopes) : Agrees env' top frames visible := by
  obtain ⟨⟨locals, hlocals, hframes⟩, hdistinct, hunit⟩ := h
  refine ⟨⟨locals, hscopes.trans hlocals, ?_⟩, hdistinct, hunit.grows hgrows⟩
  exact hframes.imp fun _ _ h => h.imp fun _ _ h => h.grows hgrows.context

theorem Agrees.scopes_nil (h : Agrees env top [] visible) : env.scopes = [top] := by
  obtain ⟨⟨_, hlocals, hframes⟩, -, -⟩ := h
  cases hframes
  exact hlocals

theorem Agrees.withVargs (h : Agrees env top frames visible) (vargs : Option Ty) :
    Agrees { env with vargs } top frames visible :=
  ⟨h.scopes, h.distinct, ⟨h.unit.entry, h.unit.none⟩⟩

theorem Agrees.enter (h : Agrees env top frames visible) :
    Agrees env.enter top ([] :: frames) visible := by
  obtain ⟨⟨locals, hlocals, hframes⟩, hdistinct, hunit⟩ := h
  exact ⟨⟨[] :: locals, congrArg ([] :: ·) hlocals, .cons .nil hframes⟩,
    List.forall_mem_cons.mpr ⟨List.nodup_nil, hdistinct⟩, hunit.grows ⟨.refl _, rfl, rfl⟩⟩

theorem Agrees.leave {frame : Frame} (h : Agrees env top (frame :: frames) visible) :
    Agrees env.leave top frames visible := by
  obtain ⟨⟨_, hlocals, hframes⟩, hdistinct, hunit⟩ := h
  cases hframes with
  | cons _ hframes =>
    exact ⟨⟨_, congrArg List.tail hlocals, hframes⟩, (List.forall_mem_cons.mp hdistinct).2,
      hunit.grows ⟨.refl _, rfl, rfl⟩⟩

/-- Every declaration of a frame is in the table. -/
theorem Agrees.entries (h : Agrees env top frames visible) :
    ∀ frame ∈ frames, ∀ d ∈ frame, ∃ id info, d.decl = some id ∧
      env.context.decls[id]? = some info ∧ info.Matches env.context.aliases d := by
  obtain ⟨⟨locals, -, hframes⟩, -, -⟩ := h
  intro frame hframe d hd
  obtain ⟨scope, -, hscope⟩ := forall₂_right hframes hframe
  obtain ⟨entry, -, hentry⟩ := forall₂_right hscope hd
  obtain ⟨-, hdecl, info, hinfo, hmatch⟩ := hentry
  exact ⟨entry.2, info, hdecl, hinfo, hmatch⟩

/-- A name that can be declared is not in the innermost frame. -/
theorem Agrees.not_taken {frame : Frame} {name : String}
    (h : Agrees env top (frame :: frames) visible) (hfree : env.isTaken name = false) :
    ∀ d ∈ frame, d.name.text ≠ name := by
  obtain ⟨⟨_, hlocals, hframes⟩, -, -⟩ := h
  cases hframes with
  | @cons scope _ locals _ hscope _ =>
    have hnone : scope.lookup name = none := by
      simpa [Env.isTaken, hlocals] using (Bool.or_eq_false_iff.mp hfree).1
    have hfind := EntryOf.lookup hscope name
    intro d hd hname
    cases hcase : frame.find? (·.name.text == name) with
    | none => simpa [hname] using List.find?_eq_none.mp hcase d hd
    | some d' =>
      rw [hcase] at hfind
      obtain ⟨id, _, hid, -⟩ := hfind
      simp [hnone] at hid

/-! ## Parameters and variables -/

/-- The other environment has further parameters and variables, and is at the same kind of
place. -/
structure Env.Pushes (env env' : Env) : Prop where
  decls : ∃ added, env'.context.decls = env.context.decls ++ added ∧
    ∀ info ∈ added, info.defaults = []
  aliases : env'.context.aliases = env.context.aliases
  bridge : env'.context.bridge = env.context.bridge
  vargs : env'.vargs = env.vargs
  limit : env'.limit = env.limit

namespace Env.Pushes

variable {env env' env'' : Env}

theorem refl (env : Env) : env.Pushes env := ⟨⟨[], by simp⟩, rfl, rfl, rfl, rfl⟩

theorem trans (h : env.Pushes env') (h' : env'.Pushes env'') : env.Pushes env'' := by
  obtain ⟨added, hadded, hdefaults⟩ := h.decls
  obtain ⟨added', hadded', hdefaults'⟩ := h'.decls
  refine ⟨⟨added ++ added', by rw [hadded', hadded, List.append_assoc],
    List.forall_mem_append.mpr ⟨hdefaults, hdefaults'⟩⟩, h'.aliases.trans h.aliases,
    h'.bridge.trans h.bridge, h'.vargs.trans h.vargs, h'.limit.trans h.limit⟩

theorem grows (h : env.Pushes env') : env.Grows env' := by
  obtain ⟨added, hadded, -⟩ := h.decls
  refine ⟨⟨?_, h.aliases, h.bridge⟩, h.vargs, h.limit⟩
  rw [DeclTable.Extends, hadded, List.map_append]
  exact List.prefix_append _ _

theorem inside (h : env.enter.Pushes env') : env.Pushes env'.leave :=
  ⟨h.decls, h.aliases, h.bridge, h.vargs, h.limit⟩

theorem push (env : Env) {info : DeclInfo} (h : info.defaults = []) : env.Pushes (env.push info) :=
  ⟨⟨[info], rfl, by simpa using h⟩, rfl, rfl, rfl, rfl⟩

end Env.Pushes

/-- A declaration goes to the innermost scope and to the innermost frame. -/
theorem Agrees.push {info : DeclInfo} {d : Declared} {frame : Frame}
    (h : Agrees env top (frame :: frames) visible) (hmatch : info.Matches env.context.aliases d)
    (hdecl : d.decl = some env.context.decls.length) (hdefaults : info.defaults = [])
    (hfree : env.isTaken d.name.text = false) :
    Agrees (env.push info) top ((d :: frame) :: frames) visible := by
  have hnew := h.not_taken hfree
  obtain ⟨⟨_, hlocals, hframes⟩, hdistinct, hunit⟩ := h
  obtain ⟨hnodup, hdistinct⟩ := List.forall_mem_cons.mp hdistinct
  have hgrows := (Env.Pushes.push env hdefaults).grows
  cases hframes with
  | @cons scope _ locals _ hscope hframes =>
    refine ⟨⟨((info.name, env.context.decls.length) :: scope) :: locals, ?_,
      .cons (.cons ?_ ?_) ?_⟩, List.forall_mem_cons.mpr ⟨?_, hdistinct⟩, hunit.grows hgrows⟩
    · simp [Env.push, hlocals]
    · exact ⟨hmatch.name.symm, hdecl, info, by simp [Env.push], hmatch⟩
    · exact hscope.imp fun _ _ h => h.grows hgrows.context
    · exact hframes.imp fun _ _ h => h.imp fun _ _ h => h.grows hgrows.context
    · refine List.nodup_cons.mpr ⟨fun hmem => ?_, hnodup⟩
      obtain ⟨d', hd', hname⟩ := List.mem_map.mp hmem
      exact hnew d' hd' hname

end Growing

/-! ## Sites -/

/-- The declarations around a site are in the table: their names are distinct in each frame, and
the variable whose initial value stands at the site is newer than all of them. -/
structure Site.Placed (context : SemanticContext) (s : Site) : Prop where
  inside : s.scopes ≠ []
  entries : ∀ frame ∈ s.scopes, ∀ d ∈ frame, ∃ id info, d.decl = some id ∧
    context.decls[id]? = some info ∧ info.Matches context.aliases d
  distinct : ∀ frame ∈ s.scopes, (frame.map (·.name.text)).Nodup
  own : ∀ d, s.own = some d → ∃ id info, d.decl = some id ∧ context.decls[id]? = some info ∧
    info.Matches context.aliases d ∧
    (∀ frame ∈ s.scopes, ∀ d' ∈ frame, ∀ id', d'.decl = some id' → id' < id) ∧
    ∀ frame ∈ s.scopes.head?, ∀ d' ∈ frame, d'.name.text ≠ d.name.text

/-- The site is placed, and its names are bound. -/
structure Site.Bound (context : SemanticContext) (visible : List Node) (vargs : Option Ty)
    (s : Site) : Prop where
  placed : s.Placed context
  names : s.expr.Every (·.Bound context visible s.scopes vargs)

theorem Expr.Every.grows {c c' : SemanticContext} {visible : List Node} {scopes : List Frame}
    {vargs : Option Ty} {e : Expr} (h : e.Every (·.Bound c visible scopes vargs))
    (hgrows : c.Grows c') : e.Every (·.Bound c' visible scopes vargs) :=
  fun name hname => (h name hname).grows hgrows

theorem Site.Bound.grows {c c' : SemanticContext} {visible : List Node} {vargs : Option Ty}
    {s : Site} (h : s.Bound c visible vargs) (hgrows : c.Grows c') : s.Bound c' visible vargs := by
  have hentry : ∀ {id : DeclId} {info : DeclInfo} {d : Declared}, c.decls[id]? = some info →
      info.Matches c.aliases d →
        ∃ info' : DeclInfo, c'.decls[id]? = some info' ∧ info'.Matches c'.aliases d := by
    intro id info d hinfo hmatch
    obtain ⟨info', hinfo', hname, hspan, hkind, hty, -⟩ := hgrows.entry hinfo
    rw [← hgrows.aliases] at hmatch
    exact ⟨info', hinfo', hmatch.congr hname hspan hkind hty⟩
  obtain ⟨⟨hinside, hentries, hdistinct, hown⟩, hnames⟩ := h
  refine ⟨⟨hinside, fun frame hframe d hd => ?_, hdistinct, fun d hd => ?_⟩,
    hnames.grows hgrows⟩
  · obtain ⟨id, info, hid, hinfo, hmatch⟩ := hentries frame hframe d hd
    obtain ⟨info', hinfo', hmatch'⟩ := hentry hinfo hmatch
    exact ⟨id, info', hid, hinfo', hmatch'⟩
  · obtain ⟨id, info, hid, hinfo, hmatch, hnew⟩ := hown d hd
    obtain ⟨info', hinfo', hmatch'⟩ := hentry hinfo hmatch
    exact ⟨id, info', hid, hinfo', hmatch', hnew⟩

end KilnLang
