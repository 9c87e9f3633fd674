import KilnLang.Proofs.Target.Emission
import KilnLang.Proofs.Syntax.Reading

/-!
# Hygiene

**Theorem (`emitted_names_hygienic`).** A name in the C text of a body refers to what its binding
says, unless it is captured. The output keeps the names of the source, so there are four ways to
capture one (`Captured`): a variable is in scope in its own initial value; a default is copied to
where its names are declared; `vargs_len` is declared around a use of the number of further
arguments; and the parameters for further arguments take the name of a declaration.

The frames of the source and the scopes of C differ in the variable whose initial value is written
and in the parameters that are added. So a name is looked up in two steps: whether the frames
declare it (`refersTo_declared`, `refersTo_free`), and what is declared outside of functions
(`unique?_entries`).
-/

namespace KilnLang

/-! ## Reference -/

/-- What a scope declares under a name. A name that is declared twice stands for nothing. -/
def Entries.unique? (scope : Entries) (name : String) : Option Entity :=
  match scope.filter (·.1 == name) with
  | [entry] => some entry.2
  | _ => none

/-- What a name refers to: what the innermost scope with the name declares under it. -/
def refersTo : List Entries → String → Option Entity
  | [], _ => none
  | scope :: outer, name =>
    if scope.any (·.1 == name) then scope.unique? name else refersTo outer name

section Lookup

variable {rest file : Entries} {name : String}

theorem filter_frame_free {frame : Frame} (h : ∀ d ∈ frame, d.name.text ≠ name) :
    (frame.map Declared.entry).filter (·.1 == name) = [] := by
  simpa [List.filter_eq_nil_iff, Declared.entry] using h

theorem filter_frame_found {frame : Frame} {d : Declared}
    (hfind : frame.find? (·.name.text == name) = some d)
    (hdistinct : (frame.map (·.name.text)).Nodup) :
    (frame.map Declared.entry).filter (·.1 == name) = [d.entry] := by
  induction frame with
  | nil => exact nomatch hfind
  | cons d' frame ih =>
    obtain ⟨hnew, hdistinct⟩ := List.nodup_cons.mp hdistinct
    by_cases hname : d'.name.text = name
    · rw [List.find?_cons_of_pos (by simpa using hname)] at hfind
      cases hfind
      have hothers : ∀ d' ∈ frame, d'.name.text ≠ name := fun d' hd' hname' =>
        hnew (List.mem_map.mpr ⟨d', hd', hname'.trans hname.symm⟩)
      rw [List.map_cons, List.filter_cons_of_pos (by simpa [Declared.entry] using hname),
        filter_frame_free hothers]
    · rw [List.find?_cons_of_neg (by simpa using hname)] at hfind
      rw [List.map_cons, List.filter_cons_of_neg (by simpa [Declared.entry] using hname)]
      exact ih hfind hdistinct

theorem any_eq_filter (scope : Entries) :
    scope.any (·.1 == name) = !(scope.filter (·.1 == name)).isEmpty := by
  rw [Bool.eq_iff_iff]
  simp

/-- A name that the frames do not declare is looked up in what is added to them. -/
theorem refersTo_free {frames : List Frame} (hne : frames ≠ [])
    (h : ∀ frame ∈ frames, ∀ d ∈ frame, d.name.text ≠ name) :
    refersTo (Frame.entries rest file frames) name = refersTo [rest, file] name := by
  induction frames with
  | nil => contradiction
  | cons frame frames ih =>
    obtain ⟨hframe, hframes⟩ := List.forall_mem_cons.mp h
    have hfilter := filter_frame_free hframe
    cases frames with
    | nil =>
      show refersTo [frame.map Declared.entry ++ rest, file] name = _
      simp only [refersTo, any_eq_filter, Entries.unique?, List.filter_append, hfilter,
        List.nil_append]
    | cons outer others =>
      rw [← ih (List.cons_ne_nil _ _) hframes]
      show refersTo (frame.map Declared.entry :: Frame.entries rest file (outer :: others)) name = _
      rw [refersTo, any_eq_filter, hfilter]
      rfl

/-- The parameters that are added to the outermost frame take the name, and no other frame has it. -/
def Clashes (rest : Entries) (frames : List Frame) (name : String) : Prop :=
  name ∈ rest.map (·.1) ∧ ∀ frame ∈ frames.dropLast, ∀ d ∈ frame, d.name.text ≠ name

/-- A name that the frames declare refers to its innermost declaration, unless the parameters that
are added to the outermost frame clash with it. -/
theorem refersTo_declared (rest file : Entries) {frames : List Frame} {d : Declared}
    (h : Frame.innermost? frames name = some d)
    (hdistinct : ∀ frame ∈ frames, (frame.map (·.name.text)).Nodup) :
    (Clashes rest frames name → refersTo (Frame.entries rest file frames) name = none) ∧
    (¬ Clashes rest frames name →
      refersTo (Frame.entries rest file frames) name = some (.declared d.decl)) := by
  induction frames with
  | nil => cases h
  | cons frame frames ih =>
    obtain ⟨hframe, hframes⟩ := List.forall_mem_cons.mp hdistinct
    rw [Frame.innermost?, List.findSome?_cons] at h
    cases hfind : frame.find? (·.name.text == name) with
    | some found =>
      rw [hfind] at h
      cases h
      have hfilter := filter_frame_found hfind hframe
      cases frames with
      | nil =>
        have hclash : Clashes rest [frame] name ↔ rest.filter (·.1 == name) ≠ [] := by
          simp [Clashes]
        show (_ → refersTo [frame.map Declared.entry ++ rest, file] name = _) ∧
          (_ → refersTo [frame.map Declared.entry ++ rest, file] name = _)
        rw [hclash]
        simp only [refersTo, any_eq_filter, Entries.unique?, List.filter_append, hfilter]
        cases rest.filter (·.1 == name) <;> simp [Declared.entry]
      | cons outer others =>
        -- Found in an inner frame, the name cannot clash: added parameters are in the outermost
        -- one.
        have hclash : ¬ Clashes rest (frame :: outer :: others) name := by
          rintro ⟨-, hfree⟩
          exact hfree frame (by simp) d (List.mem_of_find?_eq_some hfind)
            (by simpa using List.find?_some hfind)
        refine ⟨fun hclash' => absurd hclash' hclash, fun _ => ?_⟩
        show refersTo (frame.map Declared.entry :: Frame.entries rest file (outer :: others)) name = _
        simp only [refersTo, any_eq_filter, Entries.unique?, hfilter]
        rfl
    | none =>
      rw [hfind] at h
      have hfree : ∀ d ∈ frame, d.name.text ≠ name := by simpa using List.find?_eq_none.mp hfind
      cases frames with
      | nil => cases h
      | cons outer others =>
        have hclash : Clashes rest (frame :: outer :: others) name ↔
            Clashes rest (outer :: others) name := by
          simp only [Clashes, List.dropLast_cons_cons, List.forall_mem_cons, and_iff_right hfree]
        -- A frame without the name is passed over in C as well.
        have hskip : refersTo (Frame.entries rest file (frame :: outer :: others)) name =
            refersTo (Frame.entries rest file (outer :: others)) name := by
          show refersTo (frame.map Declared.entry :: Frame.entries rest file (outer :: others)) _ = _
          rw [refersTo, any_eq_filter, filter_frame_free hfree]
          rfl
        rw [hclash, hskip]
        exact ih h hframes

end Lookup

/-! ## Declarations outside of functions -/

section File

variable {ns : List Node} {name : String} {id : DeclId}

/-- The functions of a declaration have one prototype. -/
theorem filter_firstOfEach (seen : List DeclId) {fs : List Function}
    (hid : ∀ f ∈ fs, f.name.text = name ↔ f.decl = some id) :
    (Lowering.firstOfEach seen fs).filter (·.name.text == name) =
      if id ∈ seen then [] else (fs.find? (·.name.text == name)).toList := by
  induction fs generalizing seen with
  | nil => simp [Lowering.firstOfEach]
  | cons f fs ih =>
    obtain ⟨hf, hfs⟩ := List.forall_mem_cons.mp hid
    rw [Lowering.firstOfEach]
    by_cases hname : f.name.text = name
    · rw [hf.mp hname, List.find?_cons_of_pos (by simpa using hname)]
      by_cases hseen : id ∈ seen
      · simp [hseen, ih _ hfs]
      · simp [hseen, hname, ih _ hfs]
    · rw [List.find?_cons_of_neg (by simpa using hname)]
      cases hdecl : f.decl with
      | none => simp [hname, ih _ hfs]
      | some other =>
        have hother : id ≠ other := by
          rintro rfl
          exact hname (hf.mpr hdecl)
        by_cases hseen : other ∈ seen
        · simp [hseen, ih _ hfs]
        · simp [hseen, hname, ih _ hfs, hother]

theorem mem_functions {f : Function} : f ∈ Lowering.functions ns ↔ .function f ∈ ns := by
  rw [Lowering.functions, List.mem_filterMap]
  constructor
  · rintro ⟨n, hn, hf⟩
    cases n with
    | function g => cases hf; exact hn
    | _ => exact nomatch hf
  · exact fun h => ⟨_, h, rfl⟩

theorem filter_types {aliases : AliasTable}
    (haliased : ∀ item, .alias item ∈ ns → aliases.contains item.name.text)
    (hfresh : aliases.contains name = false) :
    (ns.filterMap Node.typeEntry?).filter (·.1 == name) = [] := by
  rw [List.filter_eq_nil_iff]
  intro entry hentry hname
  obtain ⟨n, hn, hsome⟩ := List.mem_filterMap.mp hentry
  cases n with
  | header _ => exact nomatch hsome
  | function _ => exact nomatch hsome
  | global _ => exact nomatch hsome
  | _ item =>
    cases hsome
    have hcontains := haliased item hn
    rw [show item.name.text = name from eq_of_beq hname, hfresh] at hcontains
    exact nomatch hcontains

theorem filter_globals_free (h : ∀ g, .global g ∈ ns → g.name.text ≠ name) :
    (ns.filterMap Node.globalEntry?).filter (·.1 == name) = [] := by
  rw [List.filter_eq_nil_iff]
  intro entry hentry
  obtain ⟨n, hn, hsome⟩ := List.mem_filterMap.mp hentry
  cases n with
  | global g =>
    cases hsome
    simpa using h g hn
  | _ => exact nomatch hsome

/-- A global shares its name with no other part. -/
theorem alone_of_share {before after : List Node} {g : VarDecl}
    (h : (before ++ .global g :: after).Pairwise Node.Share) :
    ∀ n ∈ before ++ after, n.declares g.name.text = false := by
  have hg : (Node.global g).declares g.name.text := by simp [Node.declares, Node.name?]
  obtain ⟨-, hafter, hbefore⟩ := List.pairwise_append.mp h
  intro n hn
  by_contra hname
  rw [Bool.not_eq_false] at hname
  rcases List.mem_append.mp hn with hn | hn
  · obtain ⟨-, _, hfunction⟩ := hbefore n hn _ List.mem_cons_self _ hname hg
    cases hfunction
  · obtain ⟨⟨_, hfunction⟩, -⟩ := (List.pairwise_cons.mp hafter).1 n hn _ hg hname
    cases hfunction

/-- The name of a part is declared once, for the part. -/
theorem unique?_entries {aliases : AliasTable} (hparts : WellDeclared aliases ns)
    (hsome : ∃ n ∈ ns, n.declares name) (hid : ∀ n ∈ ns, n.declares name → n.decl? = some id) :
    (Node.entries ns).unique? name = some (.declared (some id)) := by
  obtain ⟨n, hn, hname⟩ := hsome
  have hfresh := hparts.fresh n hn name hname
  -- All parts with the name have one number, and no other part has it.
  have hiff : ∀ m ∈ ns, m.declares name ↔ m.decl? = some id := by
    obtain ⟨id', hid', hall⟩ := hparts.numbered n hn name hname
    obtain rfl : id' = id := Option.some.inj (hid'.symm.trans (hid n hn hname))
    exact hall
  have hfunctions : ((Lowering.firstOfEach [] (Lowering.functions ns)).map Function.entry).filter
      (·.1 == name) =
      ((Lowering.functions ns).find? (·.name.text == name)).toList.map Function.entry := by
    have hfirst := filter_firstOfEach [] fun f hf => by
      simpa [Node.declares, Node.name?, Node.decl?] using hiff _ (mem_functions.mp hf)
    rw [List.filter_map]
    exact congrArg _ (hfirst.trans (if_neg List.not_mem_nil))
  rw [Entries.unique?, Node.entries, List.filter_append, List.filter_append, hfunctions,
    filter_types hparts.aliased hfresh, List.nil_append]
  by_cases hglobal : ∃ g, .global g ∈ ns ∧ g.name.text = name
  · obtain ⟨g, hg, rfl⟩ := hglobal
    obtain ⟨before, after, rfl⟩ := List.append_of_mem hg
    have halone := alone_of_share hparts.shared
    -- A global shares its name with no other part.
    have hothers : ∀ ms : List Node, (∀ m ∈ ms, m ∈ before ++ after) →
        (ms.filterMap Node.globalEntry?).filter (·.1 == g.name.text) = [] := fun ms hms =>
      filter_globals_free fun g' hg' hname' => by
        simpa [Node.declares, Node.name?, hname'] using halone _ (hms _ hg')
    have hfind : (Lowering.functions (before ++ .global g :: after)).find?
        (·.name.text == g.name.text) = none := by
      rw [List.find?_eq_none]
      intro f hf hname'
      have hmem : Node.function f ∈ before ++ after := by simpa using mem_functions.mp hf
      simpa [Node.declares, Node.name?, eq_of_beq hname'] using halone _ hmem
    have hg' : g.decl = some id := hid _ hg (by simp [Node.declares, Node.name?])
    have hcons : (Node.global g :: after).filterMap Node.globalEntry? =
        (g.name.text, .declared (some id)) :: after.filterMap Node.globalEntry? := by
      simp [Node.globalEntry?, hg']
    rw [hfind, List.filterMap_append, hcons, List.filter_append, List.filter_cons_of_pos (by simp),
      hothers before fun m => List.mem_append_left _,
      hothers after fun m => List.mem_append_right _]
    rfl
  -- Without a global the name is that of functions, which have one prototype.
  · have hnone : ∀ g, .global g ∈ ns → g.name.text ≠ name := fun g hg hname =>
      hglobal ⟨g, hg, hname⟩
    rw [filter_globals_free hnone]
    cases n with
    | function f =>
      cases hfind : (Lowering.functions ns).find? (·.name.text == name) with
      | none =>
        have := List.find?_eq_none.mp hfind f (mem_functions.mpr hn)
        exact absurd hname (by simpa [Node.declares, Node.name?] using this)
      | some f' =>
        have hf' : f'.decl = some id := by
          refine hid _ (mem_functions.mp (List.mem_of_find?_eq_some hfind)) ?_
          simpa [Node.declares, Node.name?] using List.find?_some hfind
        simp [Function.entry, hf']
    | global g => exact absurd (by simpa [Node.declares, Node.name?] using hname) (hnone g hn)
    | _ => cases hname

end File

/-! ## Hygiene -/

/-- What is written to C for a declaration, or for the number or the array of further arguments. -/
def Binding.entity? : Binding → Option Entity
  | .local id | .parameter id | .global id | .function id => some (.declared (some id))
  | .varArgs => some .array
  | .varArgsLength => some .count
  | .type | .macroConstant | .macroFunction _ _ | .cFunction | .cVariable => none

namespace Emitted

/-- What is written to C for what the name stands for. -/
def entity? (e : Emitted) : Option Entity := e.mention.name.binding?.bind Binding.entity?

/-- The name as it is written to C. -/
def text (e : Emitted) : String := e.mention.name.written

/-- What the name refers to in C. -/
def refersTo (rest file : Entries) (e : Emitted) : Option Entity :=
  KilnLang.refersTo (Frame.entries rest file e.site.inner) e.text

end Emitted

/-- The ways in which a name of the output is captured: by the variable whose initial value it
stands in; by a declaration around it, if it is copied or stands for the number of further
arguments; or by the parameters for further arguments, if it stands for a declaration and no inner
scope declares it. -/
inductive Captured (rest : Entries) (e : Emitted) : Prop
  | own {d : Declared} (own : e.site.own = some d) (name : d.name.text = e.text)
  | around {frame : Frame} {d : Declared}
      (moved : e.mention.copied = true ∨ e.entity? = some .count)
      (inside : frame ∈ e.site.scopes) (declared : d ∈ frame) (name : d.name.text = e.text)
  | added {id : DeclId} (entity : e.entity? = some (.declared (some id)))
      (clashes : Clashes rest e.site.scopes e.text)

section Hygiene

variable {context : SemanticContext} {ns : List Node} {rest file : Entries} {s : Site} {m : Mention}
  {name : String}

/-- The frames of C are distinct, too. -/
theorem Site.Placed.distinct_inner (h : s.Placed context) :
    ∀ frame ∈ s.inner, (frame.map (·.name.text)).Nodup := by
  unfold Site.inner
  cases hown : s.own with
  | none => exact h.distinct
  | some d =>
    obtain ⟨_, _, -, -, -, -, hnew⟩ := h.own d hown
    obtain ⟨frame, outer, hscopes⟩ := List.exists_cons_of_ne_nil h.inside
    rw [hscopes] at hnew ⊢
    obtain ⟨hframe, houter⟩ := List.forall_mem_cons.mp (hscopes ▸ h.distinct)
    refine List.forall_mem_cons.mpr ⟨List.nodup_cons.mpr ⟨fun hmem => ?_, hframe⟩, houter⟩
    obtain ⟨d', hd', hname⟩ := List.mem_map.mp hmem
    exact hnew frame rfl d' hd' hname

/-- A name that is not the variable's own is found as in the source. -/
theorem Site.innermost?_inner (h : ∀ d, s.own = some d → d.name.text ≠ name) :
    Frame.innermost? s.inner name = Frame.innermost? s.scopes name := by
  unfold Site.inner
  cases hown : s.own with
  | none => rfl
  | some d =>
    cases s.scopes with
    | nil => rfl
    | cons frame outer =>
      simp only [Frame.declare, Frame.innermost?, List.findSome?_cons]
      rw [List.find?_cons_of_neg (by simpa using h d hown)]

theorem Site.clashes_inner (rest : Entries) (h : ∀ d, s.own = some d → d.name.text ≠ name) :
    Clashes rest s.inner name ↔ Clashes rest s.scopes name := by
  unfold Site.inner
  cases hown : s.own with
  | none => rfl
  | some d =>
    rcases s.scopes with _ | ⟨frame, _ | ⟨outer, others⟩⟩
    · rfl
    · rfl
    · simp only [Frame.declare, Clashes, List.dropLast_cons_cons, List.forall_mem_cons,
        h d hown, ne_eq, not_false_eq_true, true_and]

/-- A variable in its own initial value hides what the name stands for. -/
theorem innermost?_own {d : Declared} (hinside : s.scopes ≠ []) (hown : s.own = some d)
    (hname : d.name.text = name) : Frame.innermost? s.inner name = some d := by
  obtain ⟨frame, outer, hscopes⟩ := List.exists_cons_of_ne_nil hinside
  simp [Site.inner, hown, hscopes, Frame.declare, Frame.innermost?, hname]

/-- The number of a declaration is that of a part or that of a parameter or a variable, never
both. -/
theorem Site.Placed.decl_ne {d : Declared} {id : DeclId} {info : DeclInfo} {n : Node}
    (hd : ∃ id info, d.decl = some id ∧ context.decls[id]? = some info ∧
      info.Matches context.aliases d)
    (hinfo : context.decls[id]? = some info) (hdesc : info.Describes context.aliases n) :
    d.decl ≠ some id := by
  obtain ⟨id', info', hid', hinfo', hmatch⟩ := hd
  intro hdecl
  obtain rfl : id' = id := Option.some.inj (hid'.symm.trans hdecl)
  obtain rfl : info' = info := Option.some.inj (hinfo'.symm.trans hinfo)
  have hkind := hmatch.kind
  rcases hmatch.inner with hinner | hinner <;> rw [hinner] at hkind <;> cases n <;>
    first
    | exact hdesc.elim
    | exact nomatch hkind.symm.trans hdesc.2.1

/-- A name in the frames of C refers to one of their declarations or to nothing. -/
theorem refersTo_inner (hplaced : s.Placed context) {d : Declared}
    (h : Frame.innermost? s.inner name = some d) {entity : Entity}
    (hentity : entity ≠ .declared d.decl) :
    refersTo (Frame.entries rest file s.inner) name ≠ some entity := by
  obtain ⟨hclash, hfound⟩ := refersTo_declared rest file h hplaced.distinct_inner
  by_cases hc : Clashes rest s.inner name
  · rw [hclash hc]
    exact nofun
  · rw [hfound hc]
    exact fun heq => hentity (Option.some.inj heq).symm

theorem Site.inner_ne_nil (h : s.scopes ≠ []) : s.inner ≠ [] := by
  unfold Site.inner
  split
  · exact h
  · obtain ⟨frame, outer, hscopes⟩ := List.exists_cons_of_ne_nil h
    rw [hscopes]
    exact List.cons_ne_nil _ _

theorem refersTo_file (hrest : name ∉ rest.map (·.1)) {entity : Entity}
    (hfile : file.unique? name = some entity) : refersTo [rest, file] name = some entity := by
  have hnone : rest.any (·.1 == name) = false := List.any_eq_false.mpr fun entry hentry hname =>
    hrest (List.mem_map.mpr ⟨entry, hentry, eq_of_beq hname⟩)
  have hsome : file.any (·.1 == name) = true := by
    unfold Entries.unique? at hfile
    split at hfile
    · rename_i entry hfilter
      have hmem : entry ∈ file.filter (·.1 == name) := hfilter ▸ List.mem_singleton_self entry
      exact List.any_eq_true.mpr ⟨entry, List.mem_filter.mp hmem⟩
    · exact nomatch hfile
  simp [refersTo, hnone, hsome, hfile]

/-! ### Where entities come from -/

/-- Where the entity of a name comes from: a frame, a part of the unit, or the further arguments of
the function. -/
inductive Origin (context : SemanticContext) (ns : List Node) (rest : Rest TypeExpr) (e : Emitted) :
    Entity → Prop
  | frame {d : Declared} (written : e.mention.copied = false)
      (found : Frame.innermost? e.site.scopes e.text = some d) (number : d.decl.isSome) :
      Origin context ns rest e (.declared d.decl)
  | part {id : DeclId} {info : DeclInfo}
      (free : e.mention.copied = true ∨ Frame.innermost? e.site.scopes e.text = none)
      (declared : ∃ n ∈ ns, n.declares e.text)
      (decl : ∀ n ∈ ns, n.declares e.text → n.decl? = some id ∧ info.Describes context.aliases n)
      (entry : context.decls[id]? = some info) : Origin context ns rest e (.declared (some id))
  | array {elem : TypeExpr} (written : e.mention.copied = false)
      (free : Frame.innermost? e.site.scopes e.text = none) (typed : rest = .typed elem)
      (name : e.text = Lowering.arrayName) : Origin context ns rest e .array
  | count {elem : TypeExpr} (written : e.mention.copied = false) (typed : rest = .typed elem)
      (name : e.text = Lowering.countName) : Origin context ns rest e .count

theorem DeclInfo.entity?_binding (info : DeclInfo) (id : DeclId) :
    (info.binding id).entity? = some (.declared (some id)) := by
  unfold DeclInfo.binding
  cases info.kind <;> rfl

theorem DottedName.written_single {name : DottedName} {part : Ident} {r : Resolution}
    (hparts : name.parts = [part]) (hr : name.resolved = some r)
    (hbinding : r.binding ≠ .varArgsLength) : name.written = part.text := by
  have htext : name.text = part.text := by
    rw [DottedName.text, hparts]
    rfl
  unfold DottedName.written DottedName.binding?
  rw [hr, Option.map_some]
  split
  · rename_i hlength
    exact absurd (Option.some.inj hlength) hbinding
  · exact htext

/-- The entity of a name that is bound somewhere: in a frame or in the unit. -/
theorem Bound.entity {scopes : List Frame} {vargs : Option Ty} {r : Resolution} {part : Ident}
    {span : Span} {entity : Entity} (h : Bound context ns scopes vargs part.text span r)
    (hentity : r.binding.entity? = some entity) :
    (∃ d, Frame.innermost? scopes part.text = some d ∧ d.decl.isSome ∧
      entity = .declared d.decl) ∨
    (∃ id info, Frame.innermost? scopes part.text = none ∧ (∃ n ∈ ns, n.declares part.text) ∧
      (∀ n ∈ ns, n.declares part.text → n.decl? = some id ∧ info.Describes context.aliases n) ∧
      context.decls[id]? = some info ∧ entity = .declared (some id)) ∨
    (Frame.innermost? scopes part.text = none ∧ part.text = "vargs" ∧ vargs.isSome ∧
      entity = .array) := by
  cases h with
  | @inner d id info hfound hdecl hentry hmatch =>
    rw [DeclInfo.entity?_binding] at hentity
    exact .inl ⟨d, hfound, by rw [hdecl]; rfl, by rw [hdecl, Option.some.inj hentity]⟩
  | @unit id info hfree hsome hdecl hentry =>
    rw [DeclInfo.entity?_binding] at hentity
    exact .inr (.inl ⟨id, info, hfree, hsome, hdecl, hentry, (Option.some.inj hentity).symm⟩)
  | outside hfree hno hout =>
    cases hout with
    | furtherArgs hname htyped =>
      exact .inr (.inr ⟨hfree, hname, by rw [htyped]; rfl, (Option.some.inj hentity).symm⟩)
    | @symbol symbol => cases symbol <;> exact nomatch hentity
    | _ => exact nomatch hentity

/-- Every entity has an origin. -/
theorem Site.Completed.origin {vargs : Option Ty} {rest : Rest TypeExpr} {entity : Entity}
    (h : s.Completed context ns vargs) (hm : m ∈ s.expr.mentions false)
    (hvargs : vargs.isSome = rest.elem?.isSome)
    (hentity : (⟨s, m⟩ : Emitted).entity? = some entity) :
    Origin context ns rest ⟨s, m⟩ entity := by
  have htyped : vargs.isSome → ∃ elem, rest = .typed elem := by
    rw [hvargs]
    cases rest with
    | typed elem => exact fun _ => ⟨elem, rfl⟩
    | _ => exact nofun
  have hbinding : ∀ {r : Resolution}, m.name.resolved = some r →
      r.binding.entity? = some entity := by
    intro r hr
    simpa [Emitted.entity?, DottedName.binding?, hr] using hentity
  -- All names but the number of the further arguments are written as they stand.
  have htext : ∀ {r : Resolution} {part : Ident}, m.name.parts = [part] →
      m.name.resolved = some r → entity ≠ .count → (⟨s, m⟩ : Emitted).text = part.text := by
    intro r part hpart hr hcount
    refine DottedName.written_single hpart hr fun hlength => hcount ?_
    have hentity' := hbinding hr
    rw [hlength] at hentity'
    exact (Option.some.inj hentity').symm
  cases hcopied : m.copied with
  | false =>
    obtain ⟨r, hr, ⟨part, hpart, hbound⟩ | ⟨-, hsome, rfl⟩⟩ := h.written m hm hcopied
    · rcases hbound.entity (hbinding hr) with ⟨d, hfound, hnumber, rfl⟩ |
        ⟨id, info, hfree, hpartial, hdecl, hentry, rfl⟩ | ⟨hfree, hname, hsome, rfl⟩ <;>
        rw [← htext hpart hr nofun] at *
      · exact .frame hcopied hfound hnumber
      · exact .part (.inr hfree) hpartial hdecl hentry
      · obtain ⟨elem, helem⟩ := htyped hsome
        exact .array hcopied hfree helem hname
    · obtain ⟨elem, helem⟩ := htyped hsome
      cases hbinding hr
      refine .count hcopied helem ?_
      simp [Emitted.text, DottedName.written, DottedName.binding?, hr]
  -- Defaults are bound outside of all functions: no frame and no further arguments are in scope.
  | true =>
    obtain ⟨r, hr, ⟨part, hpart, hbound⟩ | ⟨-, hsome, -⟩⟩ := h.copied m hm hcopied
    · rcases hbound.entity (hbinding hr) with ⟨d, hfound, hnumber, rfl⟩ |
        ⟨id, info, -, hpartial, hdecl, hentry, rfl⟩ | ⟨-, -, hsome, -⟩
      · exact nomatch hfound
      · rw [← htext hpart hr nofun] at *
        exact .part (.inl hcopied) hpartial hdecl hentry
      · exact nomatch hsome
    · exact nomatch hsome

/-! ### Capture -/

section Capture

variable {rest : Rest TypeExpr} {e : Emitted} {entity : Entity}

theorem refersTo_rest (file : Entries) (h : name ∈ rest.entries.map (·.1)) :
    refersTo [rest.entries, file] name = some .count ∨
      refersTo [rest.entries, file] name = some .array := by
  cases rest with
  | typed elem =>
    obtain rfl | rfl : name = Lowering.countName ∨ name = Lowering.arrayName := by
      simpa [Rest.entries] using h
    · exact .inl rfl
    · exact .inr rfl
  | _ => exact nomatch h

/-- A variable is never what a name in its own initial value stands for. -/
theorem Origin.ne_own (h : Origin context ns rest e entity) (hplaced : e.site.Placed context)
    {d : Declared} (hown : e.site.own = some d) : entity ≠ .declared d.decl := by
  obtain ⟨id, info, hid, hinfo, hmatch, holder, -⟩ := hplaced.own d hown
  cases h with
  | @frame d' _ hfound hnumber =>
    intro heq
    obtain ⟨-, frame, hframe, hd'⟩ := Frame.innermost?_mem hfound
    have hlt := holder frame hframe d' hd' id ((Entity.declared.inj heq).trans hid)
    exact Nat.lt_irrefl _ hlt
  | part _ hsome hdecl hentry =>
    intro heq
    obtain ⟨n, hn, hname⟩ := hsome
    exact Site.Placed.decl_ne ⟨id, info, hid, hinfo, hmatch⟩ hentry (hdecl n hn hname).2
      (Entity.declared.inj heq).symm
  | array => exact nofun
  | count => exact nofun

/-- The name of a part that the frames do not declare refers to the part, unless a parameter that is
added takes it. -/
theorem refersTo_part {id : DeclId} (hparts : WellDeclared context.aliases ns)
    (hinside : e.site.scopes ≠ [])
    (hfree : ∀ frame ∈ e.site.inner, ∀ d ∈ frame, d.name.text ≠ e.text)
    (hsome : ∃ n ∈ ns, n.declares e.text)
    (hdecl : ∀ n ∈ ns, n.declares e.text → n.decl? = some id) :
    e.refersTo rest.entries (Node.entries ns) = some (.declared (some id)) ↔
      e.text ∉ rest.entries.map (·.1) := by
  rw [Emitted.refersTo, refersTo_free (Site.inner_ne_nil hinside) hfree]
  by_cases hrest : e.text ∈ rest.entries.map (·.1)
  · refine iff_of_false ?_ (not_not_intro hrest)
    rcases refersTo_rest (Node.entries ns) hrest with heq | heq <;> rw [heq] <;> exact nofun
  · exact iff_of_true (refersTo_file hrest (unique?_entries hparts hsome hdecl)) hrest

/-- Names refer to where they come from, unless they are captured. -/
theorem Origin.refersTo_iff (h : Origin context ns rest e entity)
    (hentity : e.entity? = some entity) (hplaced : e.site.Placed context)
    (hparts : WellDeclared context.aliases ns) :
    e.refersTo rest.entries (Node.entries ns) = some entity ↔ ¬ Captured rest.entries e := by
  -- In its own initial value, the name of a local is that of the local.
  by_cases hown : ∃ d, e.site.own = some d ∧ d.name.text = e.text
  · obtain ⟨d, hown, hname⟩ := hown
    refine iff_of_false ?_ (not_not_intro (.own hown hname))
    exact refersTo_inner hplaced (innermost?_own hplaced.inside hown hname) (h.ne_own hplaced hown)
  have hother : ∀ d, e.site.own = some d → d.name.text ≠ e.text := fun d hd hname =>
    hown ⟨d, hd, hname⟩
  have hinner := Site.innermost?_inner hother
  have hclashes := Site.clashes_inner rest.entries hother
  cases h with
  | @frame d hwritten hfound hnumber =>
    obtain ⟨id, hid⟩ := Option.isSome_iff_exists.mp hnumber
    obtain ⟨hclash, hfree⟩ := refersTo_declared rest.entries (Node.entries ns)
      (hinner.trans hfound) hplaced.distinct_inner
    -- A parameter is hidden only by the parameters that are added for further arguments.
    by_cases hc : Clashes rest.entries e.site.scopes e.text
    · refine iff_of_false ?_ (not_not_intro (.added (hid ▸ hentity) hc))
      rw [Emitted.refersTo, hclash (hclashes.mpr hc)]
      exact nofun
    · refine iff_of_true (hfree fun hc' => hc (hclashes.mp hc')) fun hcaptured => ?_
      cases hcaptured with
      | own hd hname => exact hother _ hd hname
      | around hmoved => simp [hwritten, hentity] at hmoved
      | added _ hc' => exact hc hc'
  | @part id info hmoved hsome hdecl hentry =>
    cases hfound : Frame.innermost? e.site.scopes e.text with
    | none =>
      rw [refersTo_part hparts hplaced.inside (Frame.innermost?_eq_none.mp (hinner.trans hfound))
        hsome fun n hn hname => (hdecl n hn hname).1, not_iff_not]
      have hfree := Frame.innermost?_eq_none.mp hfound
      refine ⟨fun hrest => .added hentity ⟨hrest, fun frame hframe =>
        hfree frame (List.dropLast_subset _ hframe)⟩, fun hcaptured => ?_⟩
      cases hcaptured with
      | own hd hname => exact absurd hname (hother _ hd)
      | around _ hframe hd hname => exact absurd hname (hfree _ hframe _ hd)
      | added _ hc => exact hc.1
    | some d =>
      obtain ⟨hname, frame, hframe, hd⟩ := Frame.innermost?_mem hfound
      -- A name that resolves to a part although a local has it was copied from a default.
      have hcopied : e.mention.copied = true := hmoved.resolve_right (by simp [hfound])
      refine iff_of_false ?_ (not_not_intro (.around (.inl hcopied) hframe hd hname))
      refine refersTo_inner hplaced (hinner.trans hfound) fun heq => ?_
      obtain ⟨n, hn, hn'⟩ := hsome
      exact Site.Placed.decl_ne (hplaced.entries frame hframe d hd) hentry (hdecl n hn hn').2
        (Entity.declared.inj heq).symm
  | array hwritten hfound htyped hname =>
    subst htyped
    have hfree := Frame.innermost?_eq_none.mp (hinner.trans hfound)
    refine iff_of_true ?_ fun hcaptured => ?_
    · rw [Emitted.refersTo, refersTo_free (Site.inner_ne_nil hplaced.inside) hfree, hname]
      rfl
    · cases hcaptured with
      | own hd hname => exact hother _ hd hname
      | around hmoved => simp [hwritten, hentity] at hmoved
      | added hdeclared => simp [hentity] at hdeclared
  | count hwritten htyped hname =>
    subst htyped
    cases hfound : Frame.innermost? e.site.scopes e.text with
    | none =>
      have hfree := Frame.innermost?_eq_none.mp (hinner.trans hfound)
      refine iff_of_true ?_ fun hcaptured => ?_
      · rw [Emitted.refersTo, refersTo_free (Site.inner_ne_nil hplaced.inside) hfree, hname]
        rfl
      · cases hcaptured with
        | own hd hname => exact hother _ hd hname
        | around _ hframe hd hname => exact Frame.innermost?_eq_none.mp hfound _ hframe _ hd hname
        | added hdeclared => simp [hentity] at hdeclared
    | some d =>
      obtain ⟨hname, frame, hframe, hd⟩ := Frame.innermost?_mem hfound
      refine iff_of_false ?_ (not_not_intro (.around (.inr hentity) hframe hd hname))
      exact refersTo_inner hplaced (hinner.trans hfound) nofun

end Capture

end Hygiene

/-- **The output is hygienic up to capture.** The C text of the body of every function of a checked
unit uses exactly the names that the body mentions, copied defaults included. Each of them that
stands for a declaration or for further arguments refers in C to what was written for it if and only
if it is not captured. -/
theorem emitted_names_hygienic {unit : SourceUnit} {a : Analyzed}
    (h : unit.analyzeBridged = .ok a) (m : DataModel) :
    ∀ definition ∈ (a.unit.toC m a.context.decls).definitions,
      ∃ f first, .function f ∈ a.unit.nodes ∧
        Lowering.definition? m a.context.decls f = some definition ∧
        List.Forall₂ (Writes f.rest.entries (Node.entries a.unit.nodes))
          ((a.unit.toC m a.context.decls).uses definition) (f.emitted first) ∧
        ∀ e ∈ f.emitted first, ∀ entity, e.entity? = some entity →
          (e.refersTo f.rest.entries (Node.entries a.unit.nodes) = some entity ↔
            ¬ Captured f.rest.entries e) := by
  intro definition hmem
  obtain ⟨f, hmem', hdefinition⟩ := List.mem_filterMap.mp hmem
  have hf := mem_functions.mp hmem'
  obtain ⟨hparts, hfunctions⟩ := SourceUnit.analyze_completed h
  obtain ⟨first, hsites⟩ := hfunctions f hf
  refine ⟨f, first, hf, hdefinition,
    uses_definition a.unit m a.context.decls hdefinition first, ?_⟩
  intro e he entity hentity
  obtain ⟨s, hs, hemitted⟩ := List.mem_flatMap.mp he
  obtain ⟨mention, hmention, rfl⟩ := List.mem_map.mp hemitted
  have hcompleted := hsites s hs
  have hvargs : (Resolver.vargsOf f).isSome = f.rest.elem?.isSome := by
    obtain ⟨sig, hsig, hrest⟩ := hparts.typed f hf
    rw [← hrest, Resolver.vargsOf, hsig]
    rfl
  exact (hcompleted.origin hmention hvargs hentity).refersTo_iff hentity hcompleted.placed hparts

/-- A default that is copied to where nothing hides its names. -/
theorem copied_default_hygienic : ∃ unit a,
    SourceUnit.parse 0 "int x = 1 int f(int a = x) { return a } int main() { return f() }" =
      .ok unit ∧
    unit.analyzeBridged = .ok a ∧
    ∀ definition ∈ (a.unit.toC .lp64 a.context.decls).definitions, ∃ f first,
      .function f ∈ a.unit.nodes ∧
      List.Forall₂ (Writes f.rest.entries (Node.entries a.unit.nodes))
        ((a.unit.toC .lp64 a.context.decls).uses definition) (f.emitted first) ∧
      ∀ e ∈ f.emitted first, ∀ entity, e.entity? = some entity →
        (e.refersTo f.rest.entries (Node.entries a.unit.nodes) = some entity ↔
          ¬ Captured f.rest.entries e) := by
  have hok : ((SourceUnit.parse 0
      "int x = 1 int f(int a = x) { return a } int main() { return f() }").toOption.any
      fun unit => unit.analyzeBridged.toOption.any fun _ => true) = true := by
    rw [SourceUnit.parse_ofList]
    decide +kernel
  obtain ⟨unit, a, hparse, hanalyze, -⟩ := SourceUnit.exists_analyzed hok
  refine ⟨unit, a, hparse, hanalyze, fun definition hdefinition => ?_⟩
  obtain ⟨f, first, hf, -, hwrites, hiff⟩ :=
    emitted_names_hygienic hanalyze .lp64 definition hdefinition
  exact ⟨f, first, hf, hwrites, hiff⟩

/-- A default that is copied to where a variable hides the global that it names: in C the argument
refers to the variable. -/
theorem copied_default_captured : ∃ unit a,
    SourceUnit.parse 0
      "int x = 1 int f(int a = x) { return a } int main() { int x = 2 return f() }" = .ok unit ∧
    unit.analyzeBridged = .ok a ∧
    ∃ f, .function f ∈ a.unit.nodes ∧ f.params = [] ∧ ∃ e ∈ f.emitted 0, ∃ entity,
      e.entity? = some entity ∧
      e.refersTo f.rest.entries (Node.entries a.unit.nodes) ≠ some entity := by
  have hok : ((SourceUnit.parse 0
      "int x = 1 int f(int a = x) { return a } int main() { int x = 2 return f() }").toOption.any
      fun unit => unit.analyzeBridged.toOption.any fun a =>
        (Lowering.functions a.unit.nodes).any fun f => f.params.isEmpty &&
          (f.emitted 0).any fun e => e.entity?.isSome &&
            e.refersTo f.rest.entries (Node.entries a.unit.nodes) != e.entity?) = true := by
    rw [SourceUnit.parse_ofList]
    decide +kernel
  obtain ⟨unit, a, hparse, hanalyze, hcaptured⟩ := SourceUnit.exists_analyzed hok
  simp only [List.any_eq_true, Bool.and_eq_true, List.isEmpty_iff, bne_iff_ne] at hcaptured
  obtain ⟨f, hf, hparams, e, he, hsome, hne⟩ := hcaptured
  obtain ⟨entity, hentity⟩ := Option.isSome_iff_exists.mp hsome
  exact ⟨unit, a, hparse, hanalyze, f, mem_functions.mp hf, hparams, e, he, entity, hentity,
    hentity ▸ hne⟩

end KilnLang
