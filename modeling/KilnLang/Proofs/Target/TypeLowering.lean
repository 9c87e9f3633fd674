import KilnLang.Proofs.Semantic.AliasSources
import KilnLang.Proofs.Semantic.Completion
import KilnLang.Target.Lowering

/-!
# The two lowerings of types agree

A declaration is written with the names of aliases, and casts, array literals and signatures with
the types that the names stand for. So there are two lowerings, `Lowering.typeExpr` and
`Lowering.ty`.

**Theorem (`type_lowerings_agree`).** In an accepted unit, take the C type of any type expression
and replace each name in it that was kept for an alias by the C type of the alias's target, and so on
until no alias is left. The result is the C type of the type that the expression stands for, and there
is no other result.

`Expands` is the replacement. It follows the type expression, because a name in the C type alone does
not tell whether it was kept: an alias may be called `int32_t`. The proof follows the search for the
type of a name (`expands_named`), with an inner induction over type expressions
(`expands_typeExpr`).
-/

namespace KilnLang

/-! ## Replacing names -/

mutual

/-- In the C type written for a type expression, each name of an alias of the unit gives way to the C
type of the alias's target, in which names are replaced in turn, and each name of a header's type
gives way to the C type of the type recorded for it. Names of built-in types stay. -/
inductive Expands (m : DataModel) (aliases : AliasTable) (nodes : List Node) :
    TypeExpr → CType → CType → Prop
  | builtin {name : DottedName} {c : CType} (hname : Builtin.isBuiltin name.text = true) :
      Expands m aliases nodes (.named name) c c
  | alias {name : DottedName} {item : Alias} {c : CType}
      (hname : Builtin.isBuiltin name.text = false) (hitem : .alias item ∈ nodes)
      (hsame : item.name.text = name.text)
      (h : Expands m aliases nodes item.target (Lowering.typeExpr m item.target) c) :
      Expands m aliases nodes (.named name) (.named name.text) c
  | typedef {name : DottedName} {target : Ty} {span : Span}
      (hname : Builtin.isBuiltin name.text = false) (htypedef : HasTypedef nodes name.text target)
      (hentry : aliases.lookup? name.text = some ⟨.terminal target, .type, span⟩) :
      Expands m aliases nodes (.named name) (.named name.text) (Lowering.ty m target)
  | ref {span : Span} {inner : TypeExpr} {c c' : CType} (h : Expands m aliases nodes inner c c') :
      Expands m aliases nodes (.ref span inner) (.pointer c) (.pointer c')
  | array {span : Span} {elem : TypeExpr} {n : Nat} {c c' : CType}
      (h : Expands m aliases nodes elem c c') :
      Expands m aliases nodes (.array span elem (some n)) (.array c (some n)) (.array c' (some n))
  | unsized {span : Span} {elem : TypeExpr} {c c' : CType}
      (h : Expands m aliases nodes elem c c') :
      Expands m aliases nodes (.array span elem none) (.pointer c) (.pointer c')
  | func {span : Span} {ret : TypeExpr} {params : List TypeExpr} {rest : Rest TypeExpr}
      {c c' : CType} {cs cs' : List CType} {variadic : Bool}
      (hret : Expands m aliases nodes ret c c')
      (hparams : ExpandsParams m aliases nodes params rest cs cs') :
      Expands m aliases nodes (.func span ⟨ret, params, rest⟩)
        (.pointer (.function c cs variadic)) (.pointer (.function c' cs' variadic))

/-- The replacement in the parameters of a C function: those that are written, and for further
arguments of one type their number and their array. -/
inductive ExpandsParams (m : DataModel) (aliases : AliasTable) (nodes : List Node) :
    List TypeExpr → Rest TypeExpr → List CType → List CType → Prop
  | none : ExpandsParams m aliases nodes [] .none [] []
  | untyped : ExpandsParams m aliases nodes [] .untyped [] []
  | typed {elem : TypeExpr} {count c c' : CType} (h : Expands m aliases nodes elem c c') :
      ExpandsParams m aliases nodes [] (.typed elem) [count, .pointer c] [count, .pointer c']
  | cons {t : TypeExpr} {ts : List TypeExpr} {rest : Rest TypeExpr} {c c' : CType}
      {cs cs' : List CType} (h : Expands m aliases nodes t c c')
      (hrest : ExpandsParams m aliases nodes ts rest cs cs') :
      ExpandsParams m aliases nodes (t :: ts) rest (c :: cs) (c' :: cs')

end

namespace Lowering

variable {m : DataModel} {aliases : AliasTable} {nodes : List Node}

/-! ## Type expressions -/

section Structure

variable {look : DottedName → Except AliasError Ty}

/-- The names that `look` finds expand to the C types of what it finds. -/
def NamesExpand (m : DataModel) (aliases : AliasTable) (nodes : List Node)
    (look : DottedName → Except AliasError Ty) : Prop :=
  ∀ (n : DottedName) (found : Ty), n.resolved = some ⟨.type, found⟩ → look n = .ok found →
    ∀ c, Expands m aliases nodes (.named n) (typeExpr m (.named n)) c ↔ c = ty m found

mutual

theorem expands_typeExpr (hnames : NamesExpand m aliases nodes look) :
    ∀ {t : TypeExpr} {found : Ty}, t.annotateWith look = (t, .ok found) →
      ∀ c, Expands m aliases nodes t (typeExpr m t) c ↔ c = ty m found
  | .named name, found, h, c => by
    obtain ⟨hlook, hsame⟩ := TypeExpr.annotateWith_named_eq_ok.mp h
    have hslot : name.resolved = some ⟨.type, found⟩ := by
      rw [← TypeExpr.named.inj hsame]
    exact hnames name found hslot hlook c
  | .ref span inner, found, h, c => by
    obtain ⟨_, innerTy, hinner, hsame, rfl⟩ := TypeExpr.annotateWith_ref_eq_ok.mp h
    cases hsame
    have ih := expands_typeExpr hnames hinner
    simp only [typeExpr, ty]
    constructor
    · intro h
      cases h with
      | ref hc => rw [(ih _).mp hc]
    · rintro rfl
      exact .ref ((ih _).mpr rfl)
  | .array span elem length, found, h, c => by
    obtain ⟨_, elemTy, helem, hsame, rfl⟩ := TypeExpr.annotateWith_array_eq_ok.mp h
    cases hsame
    have ih := expands_typeExpr hnames helem
    cases length with
    | none =>
      simp only [typeExpr, ty, array]
      constructor
      · intro h
        cases h with
        | unsized hc => rw [(ih _).mp hc]
      · rintro rfl
        exact .unsized ((ih _).mpr rfl)
    | some n =>
      simp only [typeExpr, ty, array]
      constructor
      · intro h
        cases h with
        | array hc => rw [(ih _).mp hc]
      · rintro rfl
        exact .array ((ih _).mpr rfl)
  | .func span sig, found, h, c => by
    obtain ⟨_, sigTy, hsig, hsame, rfl⟩ := TypeExpr.annotateWith_func_eq_ok.mp h
    cases hsame
    simp only [typeExpr, ty]
    exact expands_signatureExpr hnames hsig c
termination_by structural t => t

theorem expands_signatureExpr (hnames : NamesExpand m aliases nodes look) {span : Span} :
    ∀ {sig : Signature TypeExpr} {sigTy : Signature Ty},
      TypeExpr.annotateSignature look sig = (sig, .ok sigTy) →
      ∀ c, Expands m aliases nodes (.func span sig) (signatureExpr m sig) c ↔ c = signature m sigTy
  | ⟨ret, params, rest⟩, sigTy, h, c => by
    obtain ⟨_, retTy, _, paramTys, _, furtherTy, hret, hparams, hrest, hsame, rfl⟩ :=
      TypeExpr.annotateSignature_eq_ok.mp h
    cases hsame
    have ihret := expands_typeExpr hnames hret
    obtain ⟨hvariadic, ihrest⟩ := expands_restExpr hnames hrest
    have ihparams := expands_typeExprs hnames ihrest hparams
    simp only [signatureExpr, signature, functionPointer, hvariadic]
    constructor
    · intro h
      cases h with
      | func hc hcs => rw [(ihret _).mp hc, (ihparams _).mp hcs]
    · rintro rfl
      exact .func ((ihret _).mpr rfl) ((ihparams _).mpr rfl)
termination_by structural sig => sig

theorem expands_typeExprs (hnames : NamesExpand m aliases nodes look) {rest : Rest TypeExpr}
    {written further : List CType}
    (hrest : ∀ cs, ExpandsParams m aliases nodes [] rest written cs ↔ cs = further) :
    ∀ {ts : List TypeExpr} {found : List Ty}, TypeExpr.annotateEach look ts = (ts, .ok found) →
      ∀ cs, ExpandsParams m aliases nodes ts rest (typeExprs m ts ++ written) cs ↔
        cs = tys m found ++ further
  | [], found, h, cs => by
    cases h
    exact hrest cs
  | t :: ts, found, h, cs => by
    obtain ⟨_, ty₁, _, tys₁, ht, hts, hsame, rfl⟩ := TypeExpr.annotateEach_cons_eq_ok.mp h
    cases hsame
    have ih := expands_typeExpr hnames ht
    have ihs := expands_typeExprs hnames hrest hts
    simp only [typeExprs, tys, List.cons_append]
    constructor
    · intro h
      cases h with
      | cons hc hcs => rw [(ih _).mp hc, (ihs _).mp hcs]
    · rintro rfl
      exact .cons ((ih _).mpr rfl) ((ihs _).mpr rfl)
termination_by structural ts => ts

theorem expands_restExpr (hnames : NamesExpand m aliases nodes look) :
    ∀ {rest : Rest TypeExpr} {found : Rest Ty},
      TypeExpr.annotateRest look rest = (rest, .ok found) →
      isVariadic (restExpr m rest) = isVariadic (restTy m found) ∧
      ∀ cs, ExpandsParams m aliases nodes [] rest (restParams m (restExpr m rest)) cs ↔
        cs = restParams m (restTy m found)
  | .none, found, h => by
    cases h
    refine ⟨rfl, fun cs => ⟨?_, ?_⟩⟩
    · rintro ⟨⟩
      rfl
    · rintro rfl
      exact .none
  | .untyped, found, h => by
    cases h
    refine ⟨rfl, fun cs => ⟨?_, ?_⟩⟩
    · rintro ⟨⟩
      rfl
    · rintro rfl
      exact .untyped
  | .typed elem, found, h => by
    obtain ⟨_, elemTy, helem, hsame, rfl⟩ := TypeExpr.annotateRest_typed_eq_ok.mp h
    cases hsame
    have ih := expands_typeExpr hnames helem
    refine ⟨rfl, fun cs => ?_⟩
    simp only [restExpr, restTy, restParams]
    constructor
    · intro h
      cases h with
      | typed hc => rw [(ih _).mp hc]
    · rintro rfl
      exact .typed ((ih _).mpr rfl)
termination_by structural rest => rest

end

end Structure

/-! ## Names -/

theorem isBuiltin_of_find? {name : String} {p : Option Primitive} (h : Builtin.find? name = p) :
    Builtin.isBuiltin name = p.isSome := by
  rw [Builtin.isBuiltin, h]

/-- The names in the target of an alias of the unit, and what the table leads to from there. -/
theorem expands_target {depth : Nat} {visiting : List String}
    (hnames : NamesExpand m aliases nodes (aliases.followType depth visiting))
    {item item' : Alias} {found annotated : Ty}
    (hreaches : aliases.Reaches depth visiting (Resolver.targetOf item'.target) found)
    (hann : aliases.annotate item'.target = (item.target, .ok annotated)) (c : CType) :
    Expands m aliases nodes item.target (typeExpr m item.target) c ↔ c = ty m found := by
  -- A target that is one name is looked up by its text; it cannot be a constant, or the unit would
  -- have been refused.
  have hboth : ∃ other, item'.target.annotateWith (aliases.followType depth visiting) =
      (other, .ok found) := by
    unfold Resolver.targetOf at hreaches
    split at hreaches
    · rename_i span part slot htarget
      cases hreaches with
      | name hfollow =>
        rw [htarget]
        refine ⟨_, TypeExpr.annotateWith_named_eq_ok.mpr ⟨?_, rfl⟩⟩
        rw [htarget] at hann
        obtain ⟨hlook, -⟩ := TypeExpr.annotateWith_named_eq_ok.mp hann
        rw [AliasTable.resolveType_eq_followType, AliasTable.followType_eq_ok] at hlook
        exact AliasTable.followType_eq_ok.mpr ⟨hlook.1, hfollow⟩
    · cases hreaches with
      | composite hexpr => exact ⟨_, hexpr⟩
  obtain ⟨other, hother⟩ := hboth
  have hagree : TypeExpr.Agree (aliases.followType depth visiting)
      (aliases.followType (aliases.size + 1) []) := by
    intro n a b ha hb
    exact AliasTable.follow_unique (AliasTable.followType_eq_ok.mp ha).2
      (AliasTable.followType_eq_ok.mp hb).2
  obtain ⟨rfl, rfl⟩ := TypeExpr.annotateWith_agree hagree hother hann
  exact expands_typeExpr hnames (TypeExpr.annotateWith_annotated (fun _ _ => rfl) hother) c

/-- A name that the table leads to a type expands to the C type of this type. The induction is on the
depth of the search: the target of an alias is searched one step less deep. -/
theorem expands_named (hrecords : aliases.Records nodes) (depth : Nat) (visiting : List String) :
    NamesExpand m aliases nodes (aliases.followType depth visiting) := by
  induction depth generalizing visiting with
  | zero =>
    intro n found _ hlook
    cases (AliasTable.followType_eq_ok.mp hlook).2
  | succ depth ih =>
    intro n found hslot hlook c
    obtain ⟨hkind, hfollow⟩ := AliasTable.followType_eq_ok.mp hlook
    have hty : n.ty = found := by rw [DottedName.ty, hslot]; rfl
    rcases AliasTable.reaches_of_follow hfollow with ⟨p, hp, rfl⟩ | ⟨hp, entry, hentry, hreaches⟩
    · have hbuiltin : Builtin.isBuiltin n.text = true := isBuiltin_of_find? hp
      have hwritten : typeExpr m (.named n) = ty m (.prim p) := by
        rw [typeExpr, named, if_pos hbuiltin, hty]
      rw [hwritten]
      generalize ty m (.prim p) = written
      constructor
      · intro h
        cases h with
        | builtin => rfl
        | «alias» hname => simp [hbuiltin] at hname
        | typedef hname => simp [hbuiltin] at hname
      · rintro rfl
        exact .builtin hbuiltin
    · have hbuiltin : Builtin.isBuiltin n.text = false := isBuiltin_of_find? hp
      have hwritten : typeExpr m (.named n) = .named n.text := by
        rw [typeExpr, named, if_neg (by simp [hbuiltin])]
      have htype : entry.kind = .type := by
        rw [AliasTable.kind?, if_neg (by simp [hbuiltin]), hentry, Option.map_some] at hkind
        cases hcase : entry.kind with
        | type => rfl
        | value => exact absurd (congrArg some hcase) hkind
      -- The target of the alias expands one level deeper in the chain of names.
      have htarget : ∀ item, .alias item ∈ nodes → item.name.text = n.text →
          ∀ c, Expands m aliases nodes item.target (typeExpr m item.target) c ↔ c = ty m found := by
        intro item hitem hsame c
        obtain ⟨item', annotated, hname, hentry', hann⟩ := hrecords.defined item hitem
        rw [hsame, hentry] at hentry'
        cases hentry'
        exact expands_target (ih (visiting ++ [n.text])) hreaches hann c
      rw [hwritten]
      constructor
      · intro h
        cases h with
        | builtin hname => simp [hbuiltin] at hname
        | «alias» _ hitem hsame h => exact (htarget _ hitem hsame c).mp h
        | typedef _ _ hentry' =>
          rw [hentry] at hentry'
          cases hentry'
          cases hreaches
          rfl
      · rintro rfl
        -- An entry for a type comes from an alias of the unit or from a header.
        rcases hrecords.origin n.text entry hentry htype with ⟨item, hitem, hsame⟩ |
          ⟨target, htarget', htypedef⟩
        · exact .alias hbuiltin hitem hsame ((htarget item hitem hsame _).mpr rfl)
        · obtain ⟨_, kind, span⟩ := entry
          cases htarget'
          cases htype
          cases hreaches
          exact .typedef hbuiltin htypedef hentry

end Lowering

/-! ## The types of a unit -/

namespace TypeExpr

mutual

/-- The type expression and those in it. -/
def parts : TypeExpr → List TypeExpr
  | .named name => [.named name]
  | .ref span inner => .ref span inner :: inner.parts
  | .array span elem length => .array span elem length :: elem.parts
  | .func span sig => .func span sig :: partsOf sig

/-- The type expressions in a signature. -/
def partsOf : Signature TypeExpr → List TypeExpr
  | ⟨ret, params, rest⟩ => ret.parts ++ partsEach params ++ partsRest rest

/-- The type expressions in a list. -/
def partsEach : List TypeExpr → List TypeExpr
  | [] => []
  | t :: ts => t.parts ++ partsEach ts

/-- The type expressions in the type of further arguments. -/
def partsRest : Rest TypeExpr → List TypeExpr
  | .none => []
  | .untyped => []
  | .typed elem => elem.parts

end

mutual

theorem typeNames_parts : ∀ {t : TypeExpr}, ∀ e ∈ t.parts, e.typeNames ⊆ t.typeNames
  | .named name => by simp [parts]
  | .ref span inner => by
    simp only [parts, List.forall_mem_cons]
    exact ⟨List.Subset.refl _, typeNames_parts⟩
  | .array span elem length => by
    simp only [parts, List.forall_mem_cons]
    exact ⟨List.Subset.refl _, typeNames_parts⟩
  | .func span sig => by
    simp only [parts, List.forall_mem_cons]
    exact ⟨List.Subset.refl _, typeNames_partsOf⟩

theorem typeNames_partsOf : ∀ {sig : Signature TypeExpr}, ∀ e ∈ partsOf sig,
    e.typeNames ⊆ typeNamesOf sig
  | ⟨ret, params, rest⟩ => by
    simp only [partsOf, typeNamesOf, List.forall_mem_append]
    refine ⟨⟨fun e he => ?_, fun e he => ?_⟩, fun e he => ?_⟩
    · exact List.subset_append_of_subset_left _
        (List.subset_append_of_subset_left _ (typeNames_parts e he))
    · exact List.subset_append_of_subset_left _
        (List.subset_append_of_subset_right _ (typeNames_partsEach e he))
    · exact List.subset_append_of_subset_right _ (typeNames_partsRest e he)

theorem typeNames_partsEach : ∀ {ts : List TypeExpr}, ∀ e ∈ partsEach ts,
    e.typeNames ⊆ typeNamesEach ts
  | [] => by simp [partsEach]
  | t :: ts => by
    simp only [partsEach, typeNamesEach, List.forall_mem_append]
    refine ⟨fun e he => ?_, fun e he => ?_⟩
    · exact List.subset_append_of_subset_left _ (typeNames_parts e he)
    · exact List.subset_append_of_subset_right _ (typeNames_partsEach e he)

theorem typeNames_partsRest : ∀ {rest : Rest TypeExpr}, ∀ e ∈ partsRest rest,
    e.typeNames ⊆ typeNamesRest rest
  | .none => by simp [partsRest]
  | .untyped => by simp [partsRest]
  | .typed elem => by
    simp only [partsRest, typeNamesRest]
    exact typeNames_parts

end

theorem Filled.part {aliases : AliasTable} {t e : TypeExpr} (h : t.Filled aliases)
    (he : e ∈ t.parts) : e.Filled aliases :=
  fun n hn => h n (typeNames_parts e he hn)

section Filled

variable {look : DottedName → Except AliasError Ty}

/-- The name has the type that it stands for. -/
def Named (look : DottedName → Except AliasError Ty) (n : DottedName) : Prop :=
  ∃ ty, n.resolved = some ⟨.type, ty⟩ ∧ look n = .ok ty

mutual

/-- Annotating a type whose names have their types changes nothing. -/
theorem annotateWith_of_named : ∀ {t : TypeExpr}, (∀ n ∈ t.typeNames, Named look n) →
    ∃ ty, t.annotateWith look = (t, .ok ty)
  | .named name, h => by
    obtain ⟨ty, hslot, hlook⟩ := h name (List.mem_singleton_self _)
    refine ⟨ty, annotateWith_named_eq_ok.mpr ⟨hlook, ?_⟩⟩
    rw [← hslot]
  | .ref span inner, h => by
    obtain ⟨ty, hinner⟩ := annotateWith_of_named (t := inner) h
    exact ⟨.ref ty, annotateWith_ref_eq_ok.mpr ⟨inner, ty, hinner, rfl, rfl⟩⟩
  | .array span elem length, h => by
    obtain ⟨ty, helem⟩ := annotateWith_of_named (t := elem) h
    exact ⟨.array ty length, annotateWith_array_eq_ok.mpr ⟨elem, ty, helem, rfl, rfl⟩⟩
  | .func span sig, h => by
    obtain ⟨ty, hsig⟩ := @annotateSignature_of_named sig h
    exact ⟨.func ty, annotateWith_func_eq_ok.mpr ⟨sig, ty, hsig, rfl, rfl⟩⟩

theorem annotateSignature_of_named : ∀ {sig : Signature TypeExpr},
    (∀ n ∈ typeNamesOf sig, Named look n) → ∃ ty, annotateSignature look sig = (sig, .ok ty)
  | ⟨ret, params, rest⟩, h => by
    simp only [typeNamesOf, List.forall_mem_append] at h
    obtain ⟨⟨hret, hparams⟩, hrest⟩ := h
    obtain ⟨retTy, hret⟩ := annotateWith_of_named hret
    obtain ⟨paramTys, hparams⟩ := annotateEach_of_named hparams
    obtain ⟨restTy, hrest⟩ := annotateRest_of_named hrest
    exact ⟨_, annotateSignature_eq_ok.mpr
      ⟨ret, retTy, params, paramTys, rest, restTy, hret, hparams, hrest, rfl, rfl⟩⟩

theorem annotateEach_of_named : ∀ {ts : List TypeExpr},
    (∀ n ∈ typeNamesEach ts, Named look n) → ∃ tys, annotateEach look ts = (ts, .ok tys)
  | [], _ => ⟨[], rfl⟩
  | t :: ts, h => by
    simp only [typeNamesEach, List.forall_mem_append] at h
    obtain ⟨ty, ht⟩ := annotateWith_of_named h.1
    obtain ⟨tys, hts⟩ := annotateEach_of_named h.2
    exact ⟨_, annotateEach_cons_eq_ok.mpr ⟨t, ty, ts, tys, ht, hts, rfl, rfl⟩⟩

theorem annotateRest_of_named : ∀ {rest : Rest TypeExpr},
    (∀ n ∈ typeNamesRest rest, Named look n) → ∃ ty, annotateRest look rest = (rest, .ok ty)
  | .none, _ => ⟨.none, rfl⟩
  | .untyped, _ => ⟨.untyped, rfl⟩
  | .typed elem, h => by
    obtain ⟨ty, helem⟩ := annotateWith_of_named (t := elem) h
    exact ⟨.typed ty, annotateRest_typed_eq_ok.mpr ⟨elem, ty, helem, rfl, rfl⟩⟩

end

end Filled

theorem Filled.annotated {aliases : AliasTable} {t : TypeExpr} (h : t.Filled aliases) :
    ∃ ty, aliases.annotate t = (t, .ok ty) :=
  annotateWith_of_named h

end TypeExpr

/-- The types written in a function: in its head, and of its variables. -/
def Function.types (f : Function) : List TypeExpr :=
  f.ret :: (f.params.map (·.ty) ++ f.rest.elem?.toList ++ f.vars.map (·.ty))

/-- The types written in a part. -/
def Node.types : Node → List TypeExpr
  | .header _ => []
  | .alias item => [item.target]
  | .function f => f.types
  | .global g => [g.ty]

/-- The variables that a part declares, but for parameters. -/
def Node.vars : Node → List VarDecl
  | .function f => f.vars
  | .global g => [g]
  | .header _ | .alias _ => []

/-- The types in the head of a function stand for the types of a signature. -/
structure Function.Signed (aliases : AliasTable) (f : Function) (sig : Signature Ty) : Prop where
  slot : f.sig = some sig
  ret : (aliases.annotate f.ret).2 = .ok sig.ret
  params : List.Forall₂ (fun t ty => (aliases.annotate t).2 = .ok ty) (f.params.map (·.ty))
    sig.params
  rest : Option.Rel (fun t ty => (aliases.annotate t).2 = .ok ty) f.rest.elem? sig.rest.elem?

/-- The signature depends on the types in the head only. -/
theorem Function.Signed.congr {aliases : AliasTable} {f f' : Function} {sig : Signature Ty}
    (h : f.Signed aliases sig) (hsig : f'.sig = f.sig) (hret : f'.ret = f.ret)
    (hparams : f'.params.map (·.ty) = f.params.map (·.ty)) (hrest : f'.rest = f.rest) :
    f'.Signed aliases sig where
  slot := hsig.trans h.slot
  ret := hret ▸ h.ret
  params := hparams ▸ h.params
  rest := hrest ▸ h.rest

theorem Env.signed_head {env : Env} {f f' : Function} {sig : Signature Ty}
    (h : env.head f = pure (f', sig)) : f'.Signed env.context.aliases sig := by
  have hparams := head_params h
  obtain ⟨ret, retTy, params, rest, restTy, hret, -, hrest, rfl, rfl⟩ := head_eq_pure.mp h
  refine ⟨rfl, ?_, List.forall₂_map_left_iff.mpr hparams, ?_⟩
  · exact congrArg Prod.snd (AliasTable.annotate_annotated (annotate_eq_pure.mp hret))
  · cases hcase : f.rest with
    | typed elem =>
      simp only [hcase, annotateRest, Report.bind_eq_pure, Report.pure_inj, Prod.exists,
        Prod.mk.injEq] at hrest
      obtain ⟨elem', ty, helem, rfl, rfl⟩ := hrest
      exact .some (congrArg Prod.snd (AliasTable.annotate_annotated (annotate_eq_pure.mp helem)))
    | _ =>
      simp only [hcase, annotateRest, Report.pure_inj, Prod.mk.injEq] at hrest
      obtain ⟨rfl, rfl⟩ := hrest
      exact .none

namespace Resolver

theorem aliases_declareNode {order : Nat} {n n' : Node} {env env' : Env}
    (h : Succeeds (declareNode order n) env n' env') :
    env'.context.aliases = env.context.aliases := by
  cases n with
  | function f =>
    obtain ⟨f', sig, decl, -, hdecl, -⟩ := succeeds_declareNode_function.mp h
    rcases succeeds_functionDecl.mp hdecl with ⟨_, _, -, -, -, -, rfl⟩ | ⟨-, -, -, rfl⟩ <;> rfl
  | global g =>
    obtain ⟨ty, varTy, -, -, -, rfl⟩ := succeeds_declareNode_global.mp h
    rfl
  | _ =>
    obtain ⟨-, rfl⟩ := succeeds_pure.mp h
    rfl

theorem signed_declareNodes {order : Nat} {ns ns' : List Node} {env env' : Env}
    (h : Succeeds (declareNodes order ns) env ns' env') {f : Function} (hf : .function f ∈ ns') :
    ∃ sig, f.Signed env.context.aliases sig := by
  induction ns generalizing order env ns' with
  | nil =>
    obtain ⟨rfl, -⟩ := succeeds_declareNodes_nil.mp h
    cases hf
  | cons n ns ih =>
    obtain ⟨n', env₁, ns', hn, hns, rfl⟩ := succeeds_declareNodes_cons.mp h
    rcases List.mem_cons.mp hf with rfl | hf
    · cases n with
      | function f₀ =>
        obtain ⟨f', sig, decl, hhead, -, hsame⟩ := succeeds_declareNode_function.mp hn
        cases hsame
        exact ⟨sig, (Env.signed_head hhead).congr rfl rfl rfl rfl⟩
      | global g =>
        obtain ⟨_, _, -, -, hsame, -⟩ := succeeds_declareNode_global.mp hn
        cases hsame
      | _ => cases (succeeds_pure.mp hn).1
    · rw [← aliases_declareNode hn]
      exact ih hns hf

theorem signed_nodes {ns ns' : List Node} {env env' : Env} {aliases : AliasTable}
    (h : Succeeds (nodes ns) env ns' env')
    (hsigned : ∀ f, .function f ∈ ns → ∃ sig, f.Signed aliases sig) {f : Function}
    (hf : .function f ∈ ns') : ∃ sig, f.Signed aliases sig := by
  induction ns generalizing env ns' with
  | nil =>
    obtain ⟨rfl, -⟩ := succeeds_nodes_nil.mp h
    cases hf
  | cons n ns ih =>
    obtain ⟨n', env₁, ns', hn, hns, rfl⟩ := succeeds_nodes_cons.mp h
    rcases List.mem_cons.mp hf with rfl | hf
    · cases n with
      | function f₀ =>
        obtain ⟨f', hf', hsame⟩ := succeeds_node_function.mp hn
        cases hsame
        obtain ⟨sig, hf₀⟩ := hsigned f₀ List.mem_cons_self
        refine ⟨sig, ?_⟩
        obtain ⟨ps, _, hps, ⟨-, rfl, -⟩ | ⟨_, _, -, -, rfl⟩⟩ := succeeds_function.mp hf'
        · exact hf₀.congr rfl rfl (params_defaults hps) rfl
        · exact hf₀.congr rfl rfl (params_defaults hps) rfl
      | global g =>
        obtain ⟨_, -, hsame⟩ := succeeds_node_global.mp hn
        cases hsame
      | _ => cases (succeeds_pure.mp hn).1
    · exact ih hns (fun f hf => hsigned f (List.mem_cons_of_mem _ hf)) hf

end Resolver

theorem SourceUnit.resolve_signed {unit unit' : SourceUnit} {context : SemanticContext}
    (h : unit.resolve = (unit', .ok context)) {f : Function} (hf : .function f ∈ unit'.nodes) :
    ∃ sig, f.Signed context.aliases sig := by
  obtain ⟨nodes, env', hs, rfl, rfl⟩ := resolve_eq_ok.mp h
  obtain ⟨aliases, annotated, declared, env, -, -, hdecl, hnodes⟩ := Resolver.succeeds_unit.mp hs
  have hempty : DeclaredIn (Resolver.withAliases unit.start aliases).context.aliases [] [] [] :=
    .empty
  obtain ⟨⟨top, decls, rfl, -⟩, -, -⟩ := Resolver.declareNodes_declared hempty hdecl
  rw [(Resolver.nodes_grows hnodes rfl rfl).aliases]
  exact Resolver.signed_nodes hnodes (fun f hf => Resolver.signed_declareNodes hdecl hf) hf

/-! ## Checking keeps types -/

/-- The variable without its initial value. -/
def VarDecl.head (var : VarDecl) : VarDecl := { var with init := none }

namespace Check

variable {decls : DeclTable} {returned : Ty}

theorem head_varDecl (var : VarDecl) : (varDecl decls var).value.head = var.head := by
  obtain ⟨span, ty, name, _ | init, decl⟩ := var <;> rfl

mutual

theorem vars_stmt : ∀ s : Stmt,
    (stmt decls returned s).value.vars.map VarDecl.head = s.vars.map VarDecl.head
  | .expr _ | .assign _ _ none _ | .assign _ _ (some _) _ | .ret _ _ => rfl
  | .decl var => congrArg (fun v => [v]) (head_varDecl var)
  | .cond list => by
    simp only [stmt, Report.value_bind, Report.value_pure, Stmt.vars]
    exact vars_branches list
  | .loop _ _ body => by
    simp only [stmt, Report.value_bind, Report.value_pure, Stmt.vars]
    exact vars_stmts body
  | .block _ body => by
    simp only [stmt, Report.value_bind, Report.value_pure, Stmt.vars]
    exact vars_stmts body

theorem vars_stmts : ∀ ss : List Stmt,
    (Stmt.varsEach (stmts decls returned ss).value).map VarDecl.head =
      (Stmt.varsEach ss).map VarDecl.head
  | [] => rfl
  | s :: ss => by
    simp only [stmts, Report.value_bind, Report.value_pure, Stmt.varsEach, List.map_append,
      vars_stmt s, vars_stmts ss]

theorem vars_branch : ∀ b : Branch,
    (branch decls returned b).value.vars.map VarDecl.head = b.vars.map VarDecl.head
  | .mk _ g body => by
    simp only [branch, Report.value_bind, Report.value_pure, Branch.vars]
    exact vars_stmts body

theorem vars_branches : ∀ bs : List Branch,
    (Branch.varsEach (branches decls returned bs).value).map VarDecl.head =
      (Branch.varsEach bs).map VarDecl.head
  | [] => rfl
  | b :: bs => by
    simp only [branches, Report.value_bind, Report.value_pure, Branch.varsEach, List.map_append,
      vars_branch b, vars_branches bs]

end

theorem types_params : ∀ (ps : List Param) (tys : List Ty),
    (params decls ps tys).value.map (·.ty) = ps.map (·.ty)
  | [], _ => rfl
  | p :: ps, [] => rfl
  | p :: ps, ty :: tys => by
    have ih := types_params ps tys
    simp only [params]
    cases p.default with
    | none => simp only [Report.value_bind, Report.value_pure, List.map_cons, ih]
    | some e => simp only [Report.value_bind, Report.value_pure, List.map_cons, ih]

/-- Checking a function keeps its head and the heads of its variables. -/
theorem heads_function (f : Function) :
    (function decls f).value.ret = f.ret ∧
      (function decls f).value.params.map (·.ty) = f.params.map (·.ty) ∧
      (function decls f).value.rest = f.rest ∧ (function decls f).value.decl = f.decl ∧
      (function decls f).value.sig = f.sig ∧
      (function decls f).value.vars.map VarDecl.head = f.vars.map VarDecl.head := by
  obtain ⟨span, ret, name, ps, rest, body, decl, sig⟩ := f
  cases sig with
  | none => exact ⟨rfl, rfl, rfl, rfl, rfl, rfl⟩
  | some sig =>
    have hparams := @types_params decls ps sig.params
    cases body with
    | none => exact ⟨rfl, hparams, rfl, rfl, rfl, rfl⟩
    | some body => exact ⟨rfl, hparams, rfl, rfl, rfl, vars_stmts body⟩

theorem vars_node (n : Node) : (node decls n).value.vars.map VarDecl.head =
    n.vars.map VarDecl.head := by
  cases n with
  | function f => exact (heads_function f).2.2.2.2.2
  | global g => exact congrArg (fun v => [v]) (head_varDecl g)
  | _ => rfl

theorem types_node (n : Node) : (node decls n).value.types = n.types := by
  have htypes : ∀ vars : List VarDecl, vars.map (·.ty) = (vars.map VarDecl.head).map (·.ty) :=
    fun vars => by rw [List.map_map]; rfl
  cases n with
  | function f =>
    obtain ⟨hret, hparams, hrest, -, -, hvars⟩ := @heads_function decls f
    show Function.types (function decls f).value = f.types
    rw [Function.types, hret, hparams, hrest, htypes, hvars, ← htypes]
    rfl
  | global g => exact congrArg (fun v => [v.ty]) (head_varDecl g)
  | _ => rfl

end Check

/-! ## Accepted units -/

namespace Analyzed

variable {unit : SourceUnit} {a : Analyzed}

/-- The type expression stands for the type, and what its C type expands to is the C type of the
type and nothing else. -/
structure LowersTo (m : DataModel) (a : Analyzed) (e : TypeExpr) (found : Ty) : Prop where
  resolved : a.context.aliases.annotate e = (e, .ok found)
  expands : ∀ c, Expands m a.context.aliases a.unit.nodes e (Lowering.typeExpr m e) c ↔
    c = Lowering.ty m found

theorem exists_checked (h : unit.analyzeBridged = .ok a) : ∃ unit',
    unit.resolve = (unit', .ok a.context) ∧
      a.unit.nodes = unit'.nodes.map fun n => (Check.node a.context.decls n).value := by
  obtain ⟨unit', hresolve, hcheck⟩ := SourceUnit.analyzeBridged_eq_ok.mp h
  refine ⟨unit', hresolve, ?_⟩
  rw [← Check.nodes_value]
  exact (congrArg (fun r => SourceUnit.nodes (Report.value r)) hcheck).symm

theorem records (h : unit.analyzeBridged = .ok a) : a.context.aliases.Records a.unit.nodes := by
  obtain ⟨unit', hresolve, hnodes⟩ := exists_checked h
  refine (SourceUnit.resolve_records hresolve).of_recorded fun n hn => ?_
  refine Node.mem_of_outline ?_ hn
  rw [hnodes, List.map_map]
  exact List.map_congr_left fun n _ => Check.outline_node n

theorem lowersTo (h : unit.analyzeBridged = .ok a) (m : DataModel) {e : TypeExpr} {found : Ty}
    (hfilled : e.Filled a.context.aliases) (hfound : (a.context.aliases.annotate e).2 = .ok found) :
    a.LowersTo m e found := by
  obtain ⟨ty, hann⟩ := hfilled.annotated
  obtain rfl : ty = found := by
    rw [hann] at hfound
    exact Except.ok.inj hfound
  exact ⟨hann, Lowering.expands_typeExpr (Lowering.expands_named (records h) _ []) hann⟩

/-- Every name in a type of the unit has its type. -/
theorem types_filled (h : unit.analyzeBridged = .ok a) {n : Node} (hn : n ∈ a.unit.nodes) :
    ∀ t ∈ n.types, t.Filled a.context.aliases := by
  obtain ⟨unit', hresolve, hnodes⟩ := exists_checked h
  rw [hnodes] at hn
  obtain ⟨n₀, hn₀, rfl⟩ := List.mem_map.mp hn
  rw [Check.types_node]
  obtain ⟨hhead, hbody⟩ := SourceUnit.resolve_filled hresolve n₀ hn₀
  cases n₀ with
  | header item => simp [Node.types]
  | «alias» item => exact List.forall_mem_singleton.mpr hhead
  | global g => exact List.forall_mem_singleton.mpr hhead
  | function f =>
    simp only [Node.types, Function.types, List.forall_mem_cons, List.forall_mem_append]
    refine ⟨hhead.ret, ⟨List.forall_mem_map.mpr hhead.params, fun t ht => ?_⟩,
      List.forall_mem_map.mpr fun v hv => (hbody.2.2 v hv).type⟩
    exact hhead.rest t (Option.mem_toList.mp ht)

/-- Every variable of the unit is in the declaration table with its type. -/
theorem vars_declared (h : unit.analyzeBridged = .ok a) {n : Node} (hn : n ∈ a.unit.nodes)
    {var : VarDecl} (hvar : var ∈ n.vars) : ∃ id info, var.decl = some id ∧
      a.context.decls[id]? = some info ∧ var.ty.Filled a.context.aliases ∧
      (a.context.aliases.annotate var.ty).2 = .ok info.ty := by
  obtain ⟨unit', hresolve, hnodes⟩ := exists_checked h
  rw [hnodes] at hn
  obtain ⟨n₀, hn₀, rfl⟩ := List.mem_map.mp hn
  obtain ⟨var₀, hvar₀, hhead⟩ := List.mem_map.mp
    (@Check.vars_node a.context.decls n₀ ▸ List.mem_map_of_mem (f := VarDecl.head) hvar)
  obtain ⟨kind, hfilled⟩ : ∃ kind, var₀.Filled a.context kind := by
    cases n₀ with
    | function f => exact ⟨_, (SourceUnit.function_filled hresolve hn₀).vars var₀ hvar₀⟩
    | global g =>
      obtain rfl := List.mem_singleton.mp hvar₀
      exact ⟨_, (SourceUnit.global_filled hresolve hn₀).1⟩
    | _ => cases hvar₀
  obtain ⟨id, info, hid, hinfo, -, -, hty⟩ := hfilled.declared
  obtain ⟨-, hsame, -, -, hdecl⟩ := VarDecl.mk.inj hhead.symm
  exact ⟨id, info, hdecl.trans hid, hinfo, hsame ▸ hfilled.type, hsame ▸ hty⟩

/-- Every function of the unit has the signature that its head says. -/
theorem functions_signed (h : unit.analyzeBridged = .ok a) {f : Function}
    (hf : .function f ∈ a.unit.nodes) : ∃ sig, f.Signed a.context.aliases sig := by
  obtain ⟨unit', hresolve, hnodes⟩ := exists_checked h
  rw [hnodes] at hf
  obtain ⟨n₀, hn₀, hsame⟩ := List.mem_map.mp hf
  cases n₀ with
  | function f₀ =>
    obtain rfl := Node.function.inj hsame
    obtain ⟨sig, hsigned⟩ := SourceUnit.resolve_signed hresolve hn₀
    obtain ⟨hret, hparams, hrest, -, hsig, -⟩ := @Check.heads_function a.context.decls f₀
    exact ⟨sig, hsigned.congr hsig hret hparams hrest⟩
  | _ => cases hsame

end Analyzed

/-- **The two lowerings of types agree.** In an accepted unit every type expression stands for a type,
and replacing the names of aliases in its C type, as often as possible, gives the C type of this type
and nothing else. For a variable it is the type of its declaration, and for the head of a function it
is the function's signature. -/
theorem type_lowerings_agree (m : DataModel) {unit : SourceUnit} {a : Analyzed}
    (h : unit.analyzeBridged = .ok a) :
    (∀ n ∈ a.unit.nodes, ∀ t ∈ n.types, ∀ e ∈ t.parts, ∃ found, a.LowersTo m e found) ∧
    (∀ n ∈ a.unit.nodes, ∀ var ∈ n.vars, ∃ id info, var.decl = some id ∧
      a.context.decls[id]? = some info ∧ a.LowersTo m var.ty info.ty) ∧
    ∀ f, .function f ∈ a.unit.nodes → ∃ sig, f.sig = some sig ∧ a.LowersTo m f.ret sig.ret ∧
      List.Forall₂ (fun t ty => a.LowersTo m t ty) (f.params.map (·.ty)) sig.params ∧
      Option.Rel (fun t ty => a.LowersTo m t ty) f.rest.elem? sig.rest.elem? := by
  refine ⟨fun n hn t ht e he => ?_, fun n hn var hvar => ?_, fun f hf => ?_⟩
  · have hfilled := (Analyzed.types_filled h hn t ht).part he
    obtain ⟨found, hann⟩ := hfilled.annotated
    exact ⟨found, Analyzed.lowersTo h m hfilled (congrArg Prod.snd hann)⟩
  · obtain ⟨id, info, hid, hinfo, hfilled, hty⟩ := Analyzed.vars_declared h hn hvar
    exact ⟨id, info, hid, hinfo, Analyzed.lowersTo h m hfilled hty⟩
  · obtain ⟨sig, hsigned⟩ := Analyzed.functions_signed h hf
    have hfilled := Analyzed.types_filled h hf
    simp only [Node.types, Function.types, List.forall_mem_cons, List.forall_mem_append] at hfilled
    obtain ⟨hret, ⟨hparams, hrest⟩, -⟩ := hfilled
    refine ⟨sig, hsigned.slot, Analyzed.lowersTo h m hret hsigned.ret, ?_, ?_⟩
    · exact ((List.forall₂_and_left _ _).mpr ⟨hparams, hsigned.params⟩).imp fun t ty ht =>
        Analyzed.lowersTo h m ht.1 ht.2
    · have hsignedRest := hsigned.rest
      -- The rest has an element type exactly if the signature has one.
      generalize f.rest.elem? = written at hrest hsignedRest
      generalize sig.rest.elem? = stood at hsignedRest
      cases hsignedRest with
      | some hty => exact .some (Analyzed.lowersTo h m (hrest _ (by simp)) hty)
      | none => exact .none

/-- Aliases of aliases, in an array, behind a reference and in a function type with further
arguments. -/
theorem nested_aliases_lower_alike : ∃ unit a,
    SourceUnit.parse 0
        "alias int num\nalias num[3] row\nalias func<row[](ref row, num...)> op\nref row f(op g) { num n = 1 return null }" =
      .ok unit ∧
    unit.analyzeBridged = .ok a ∧
    ∀ n ∈ a.unit.nodes, ∀ t ∈ n.types, ∀ e ∈ t.parts, ∃ found, a.LowersTo .lp64 e found := by
  have hok : ((SourceUnit.parse 0
        "alias int num\nalias num[3] row\nalias func<row[](ref row, num...)> op\nref row f(op g) { num n = 1 return null }").toOption.any
      fun unit => unit.analyzeBridged.toOption.any fun _ => true) = true := by
    rw [SourceUnit.parse_ofList]
    decide +kernel
  obtain ⟨unit, a, hparse, hanalyze, -⟩ := SourceUnit.exists_analyzed hok
  exact ⟨unit, a, hparse, hanalyze, (type_lowerings_agree .lp64 hanalyze).1⟩

end KilnLang
