import KilnLang.Proofs.Semantic.Completion
import KilnLang.Target.Lowering

/-!
# Names in the output

Which names are written to C, and what C's scopes declare there. In C, a name is in scope from the
end of its declarator on, so a variable is in scope in its own initial value; parameters share a
scope with the outermost block of the body, and all types, variables and prototypes of the unit come
before the first body.

**Theorem (`uses_definition`).** The names in the C text of a body are the names that the sites of
the body mention, in order. The scopes around them declare what the frames of the sites declare, the
variable whose initial value is written, the parameters for further arguments, and the parts of the
unit. `Entity` says for each declared name what it stands for.
-/

namespace KilnLang

/-! ## Scopes of C -/

namespace CExpr

mutual

/-- The names that an expression uses, in order; names of types are not among them. -/
def names : CExpr → List String
  | .name text => [text]
  | .literal _ => []
  | .deref inner => inner.names
  | .address inner => inner.names
  | .paren inner => inner.names
  | .index base position => base.names ++ position.names
  | .prefixed _ inner => inner.names
  | .suffixed _ inner => inner.names
  | .call callee args => callee.names ++ namesEach args
  | .cast _ inner => inner.names
  | .array _ items => namesEach items
  | .binary left _ right => left.names ++ right.names

/-- The names that expressions use. -/
def namesEach : List CExpr → List String
  | [] => []
  | e :: es => e.names ++ namesEach es

end

theorem namesEach_append (es fs : List CExpr) :
    namesEach (es ++ fs) = namesEach es ++ namesEach fs := by
  induction es with
  | nil => rfl
  | cons e es ih => simp only [List.cons_append, namesEach, ih, List.append_assoc]

end CExpr

namespace CType

mutual

/-- The names in a type, built-in ones included. -/
def names : CType → List String
  | .named text => [text]
  | .pointer target => target.names
  | .array elem _ => elem.names
  | .function ret params _ => ret.names ++ namesEach params

/-- The names in types. -/
def namesEach : List CType → List String
  | [] => []
  | t :: ts => t.names ++ namesEach ts

end

end CType

/-- The condition of a guard. -/
def CGuard.cond? : CGuard → Option CExpr
  | .ifCond cond => some cond
  | .elseIf cond => some cond
  | .otherwise => none
  | .while cond => some cond

/-- A name that is used in C, with the names that the scopes around it declare. The innermost scope
comes first; within a scope the order does not matter. -/
structure CUse where
  scopes : List (List String)
  name : String

namespace CUse

/-- The names that an expression uses. -/
def ofExpr (scopes : List (List String)) (e : CExpr) : List CUse := e.names.map (⟨scopes, ·⟩)

/-- The scopes after a statement. -/
def declare (scopes : List (List String)) : CStmt → List (List String)
  | .decl var => Frame.declare var.decl.name scopes
  | _ => scopes

mutual

/-- The names that a statement uses. -/
def ofStmt (scopes : List (List String)) : CStmt → List CUse
  | .expr e => ofExpr scopes e
  | .decl var => var.init.toList.flatMap (ofExpr (Frame.declare var.decl.name scopes))
  | .assign target _ e => ofExpr scopes target ++ ofExpr scopes e
  | .ret e => e.toList.flatMap (ofExpr scopes)
  | .guarded g body => g.cond?.toList.flatMap (ofExpr scopes) ++ ofStmts ([] :: scopes) body
  | .block body => ofStmts ([] :: scopes) body

/-- The names that statements use. -/
def ofStmts (scopes : List (List String)) : List CStmt → List CUse
  | [] => []
  | s :: ss => ofStmt scopes s ++ ofStmts (declare scopes s) ss

end

/-- The scopes after statements. -/
def declareEach (scopes : List (List String)) (ss : List CStmt) : List (List String) :=
  ss.foldl declare scopes

theorem ofStmts_append (scopes : List (List String)) (ss ts : List CStmt) :
    ofStmts scopes (ss ++ ts) = ofStmts scopes ss ++ ofStmts (declareEach scopes ss) ts := by
  induction ss generalizing scopes with
  | nil => rfl
  | cons s ss ih =>
    simp only [List.cons_append, ofStmts, ih, List.append_assoc]
    rfl

end CUse

/-- The names that are declared outside of functions. -/
def CUnit.fileNames (u : CUnit) : List String :=
  u.typedefs.map (·.name) ++ u.globals.map (·.decl.name) ++ u.prototypes.map (·.name)

/-- The names that the body of a function uses. -/
def CUnit.uses (u : CUnit) (definition : CHead × List CStmt) : List CUse :=
  CUse.ofStmts [definition.1.params.map (·.name), u.fileNames] definition.2

/-! ## Names in expressions -/

/-- The name as it is written to C. -/
def DottedName.written (name : DottedName) : String :=
  match name.binding? with
  | some .varArgsLength => Lowering.countName
  | _ => name.text

namespace Lowering

variable {m : DataModel}

theorem names_ident (name : DottedName) : (ident name).names = [name.written] := by
  unfold ident DottedName.written
  rcases name.binding? with _ | binding
  · rfl
  · cases binding <;> rfl

theorem names_readAs (ty : Ty) (e : CExpr) : (readAs ty e).names = e.names := by
  unfold readAs
  split <;> rfl

theorem names_readCall (target : Option CallTarget) (e : CExpr) :
    (readCall target e).names = e.names := by
  unfold readCall
  split
  · rfl
  · exact names_readAs _ e
  · rfl

theorem names_restArgs (rest : Rest Ty) (args : List CExpr) :
    CExpr.namesEach (restArgs m rest args) = CExpr.namesEach args := by
  cases rest with
  | typed elem =>
    rw [restArgs]
    split
    · rename_i hempty
      rw [List.isEmpty_iff.mp hempty]
      rfl
    · simp [CExpr.namesEach, CExpr.names]
  | _ => rfl

/-- A call writes its callee and its arguments, and a cast its only argument. -/
theorem names_applied (callee : DottedName) (args : List CExpr) (target : Option CallTarget) :
    (applied m callee args target).names = if CallTarget.isCast target then
      (args.headD (.literal "")).names else callee.written :: CExpr.namesEach args := by
  have hargs : ∀ (n : Nat) (rest : Rest Ty),
      CExpr.namesEach (args.take n ++ restArgs m rest (args.drop n)) = CExpr.namesEach args := by
    intro n rest
    rw [CExpr.namesEach_append, names_restArgs, ← CExpr.namesEach_append, List.take_append_drop]
  unfold applied
  split <;>
    simp [CExpr.names, names_readAs, names_ident, hargs, CallTarget.isCast]

/-- The names that mentions write. -/
def written (mentions : List Mention) : List String := mentions.map (·.name.written)

theorem written_append (ms ns : List Mention) : written (ms ++ ns) = written ms ++ written ns :=
  List.map_append

theorem mentionsEach_none (copied : Bool) (count : Nat) (es : List Expr) :
    Value.mentionsEach copied count 0 es = [] := by
  induction es generalizing count with
  | nil => rfl
  | cons e es ih => simp [Value.mentionsEach, ih]

/-- The mentions of a call are those of what it writes. -/
theorem written_call {copied : Bool} {span : Span} {callee : DottedName} {args : List Expr}
    {target : Option CallTarget} {defaulted : Nat} {lowered : List CExpr}
    (hall : ∀ count kept, args.length ≤ kept →
      CExpr.namesEach lowered = written (Value.mentionsEach copied count kept args))
    (hfirst : ∀ copied, (lowered.headD (.literal "")).names =
      written ((args.head?.map (·.mentions copied)).getD [])) :
    (applied m callee lowered target).names =
      written ((Value.call span callee args target defaulted).mentions copied) := by
  rw [names_applied, Value.mentions]
  cases CallTarget.isCast target with
  | true =>
    cases args with
    | nil => exact hfirst copied
    | cons e es => simpa [Value.mentionsEach, mentionsEach_none] using hfirst _
  | false =>
    simp only [Bool.false_eq_true, if_false, List.singleton_append]
    exact congrArg (callee.written :: ·) (hall _ _ (Nat.le_refl _))

mutual

theorem names_value : ∀ (v : Value) (copied : Bool),
    (value m v).names = written (v.mentions copied)
  | .ident name, copied => by
    rw [value, names_readAs, names_ident]
    rfl
  | .call span callee args target defaulted, copied => by
    rw [value, names_readCall]
    exact written_call (fun _ _ h => names_storedEach _ args copied h)
      (names_head _ args)
  | .index _ base position, copied => by
    rw [value, Value.mentions, written_append, CExpr.names, names_value base copied,
      names_expr position copied]
  | .ref _ inner, copied => by
    rw [value, Value.mentions]
    exact names_pointer inner copied
  | .prefixed _ _ inner, copied | .suffixed _ _ inner, copied => by
    rw [value, Value.mentions, CExpr.names]
    exact names_value inner copied
  | .paren inner, copied => by
    rw [value, Value.mentions, CExpr.names]
    exact names_expr inner copied
  | .number _, _ | .decimal _, _ | .string _, _ | .char _, _ | .bool _ _, _ | .null _, _ => rfl

theorem names_pointer : ∀ (v : Value) (copied : Bool),
    (pointer m v).names = written (v.mentions copied)
  | .ident name, copied => by
    rw [pointer]
    split <;> exact names_ident name
  | .call span callee args target defaulted, copied => by
    rw [pointer]
    exact written_call (fun _ _ h => names_storedEach _ args copied h)
      (names_head _ args)
  | .index _ base position, copied => by
    rw [pointer, Value.mentions, written_append, CExpr.names, CExpr.names, names_value base copied,
      names_expr position copied]
  | .ref _ inner, copied => by
    rw [pointer, Value.mentions]
    exact names_pointer inner copied
  | .prefixed _ _ inner, copied | .suffixed _ _ inner, copied => by
    rw [pointer, Value.mentions, CExpr.names]
    exact names_value inner copied
  | .paren (.mk _ (.operand inner)), copied => by
    rw [pointer, Value.mentions, Expr.mentions, Chain.mentions]
    exact names_pointer inner copied
  | .paren (.mk _ (.link left op rest)), copied => by
    rw [pointer, Value.mentions, Expr.mentions, Chain.mentions, CExpr.names, CExpr.names,
      written_append, names_value left copied, names_chain rest copied]
  | .number _, _ | .decimal _, _ | .string _, _ | .char _, _ | .bool _ _, _ | .null _, _ => rfl

theorem names_expr : ∀ (e : Expr) (copied : Bool), (expr m e).names = written (e.mentions copied)
  | .mk _ c, copied => names_chain c copied

theorem names_chain : ∀ (c : Chain) (copied : Bool),
    (chain m c).names = written (c.mentions copied)
  | .operand v, copied => names_value v copied
  | .link v op rest, copied => by
    rw [chain, Chain.mentions, written_append, CExpr.names, names_value v copied,
      names_chain rest copied]

theorem names_stored (expected : Ty) : ∀ (e : Expr) (copied : Bool),
    (stored m expected e).names = written (e.mentions copied)
  | .mk _ (.operand v), copied => by
    rw [stored, Expr.mentions, Chain.mentions]
    split
    · exact names_pointer v copied
    · exact names_value v copied
  | .mk _ (.link left op rest), copied => by
    rw [stored, Expr.mentions, Chain.mentions, written_append, CExpr.names, names_value left copied,
      names_chain rest copied]

theorem names_storedEach : ∀ (tys : List Ty) (es : List Expr) (copied : Bool) {count kept : Nat},
    es.length ≤ kept →
      CExpr.namesEach (storedEach m tys es) = written (Value.mentionsEach copied count kept es)
  | _, [], _, _, _, _ => by
    rw [storedEach]
    rfl
  | [], e :: es, copied, count, kept, h => by
    obtain ⟨kept, rfl⟩ : ∃ more, kept = more + 1 := ⟨kept - 1, by rw [List.length_cons] at h; omega⟩
    rw [storedEach, Value.mentionsEach, written_append, CExpr.namesEach, if_neg (Nat.succ_ne_zero _),
      names_expr e, names_storedEach [] es copied (Nat.le_of_succ_le_succ h)]
    rfl
  | ty :: tys, e :: es, copied, count, kept, h => by
    obtain ⟨kept, rfl⟩ : ∃ more, kept = more + 1 := ⟨kept - 1, by rw [List.length_cons] at h; omega⟩
    rw [storedEach, Value.mentionsEach, written_append, CExpr.namesEach, if_neg (Nat.succ_ne_zero _),
      names_stored ty e, names_storedEach tys es copied (Nat.le_of_succ_le_succ h)]
    rfl

theorem names_head : ∀ (tys : List Ty) (es : List Expr) (copied : Bool),
    ((storedEach m tys es).headD (.literal "")).names =
      written ((es.head?.map (·.mentions copied)).getD [])
  | _, [], _ => by
    rw [storedEach]
    rfl
  | [], e :: _, copied => by
    rw [storedEach]
    exact names_expr e copied
  | ty :: _, e :: _, copied => by
    rw [storedEach]
    exact names_stored ty e copied

end

theorem names_discarded (e : Expr) (copied : Bool) :
    (discarded m e).names = written (e.mentions copied) := by
  rcases e with ⟨span, v | ⟨v, op, rest⟩⟩
  · cases v <;> first | exact names_expr _ copied | exact names_pointer _ copied
  · exact names_expr _ copied

end Lowering

/-! ## What declared names stand for -/

/-- What a name of C is declared for: a declaration of the unit, a type, or the number or the array
of further arguments. -/
inductive Entity where
  | declared (decl : Option DeclId)
  | type
  | count
  | array
  deriving DecidableEq

/-- What a scope of C declares: names, and what they stand for. -/
abbrev Entries := List (String × Entity)

/-- The entry of a parameter or a variable. -/
def Declared.entry (d : Declared) : String × Entity := (d.name.text, .declared d.decl)

/-- The entries of the parameters that are added for further arguments. -/
def Rest.entries : Rest TypeExpr → Entries
  | .typed _ => [(Lowering.countName, .count), (Lowering.arrayName, .array)]
  | .untyped => []
  | .none => []

/-- The entry of an alias. -/
def Node.typeEntry? : Node → Option (String × Entity)
  | .alias item => some (item.name.text, .type)
  | _ => none

/-- The entry of a global. -/
def Node.globalEntry? : Node → Option (String × Entity)
  | .global g => some (g.name.text, .declared g.decl)
  | _ => none

/-- The entry of a function. -/
def Function.entry (f : Function) : String × Entity := (f.name.text, .declared f.decl)

/-- The entries outside of functions. -/
def Node.entries (ns : List Node) : Entries :=
  ns.filterMap Node.typeEntry? ++ ns.filterMap Node.globalEntry? ++
    (Lowering.firstOfEach [] (Lowering.functions ns)).map Function.entry

theorem Node.names_entries (unit : SourceUnit) (m : DataModel) (decls : DeclTable) :
    (unit.toC m decls).fileNames = (Node.entries unit.nodes).map (·.1) := by
  simp only [CUnit.fileNames, SourceUnit.toC, Node.entries, List.map_append, List.map_map,
    List.map_filterMap]
  congr 2
  · refine congrArg (List.filterMap · unit.nodes) (funext fun n => ?_)
    cases n <;> rfl
  · refine congrArg (List.filterMap · unit.nodes) (funext fun n => ?_)
    cases n <;> rfl

/-- The frames with further entries in the outermost one. -/
def Frame.addLast {α : Type} (more : List α) : List (List α) → List (List α)
  | [] => []
  | [frame] => [frame ++ more]
  | frame :: outer :: others => frame :: Frame.addLast more (outer :: others)

/-- What C's scopes declare at a place in a function, where `rest` is added to the parameters and
`file` is declared outside of functions. -/
def Frame.entries (rest file : Entries) (frames : List Frame) : List Entries :=
  Frame.addLast rest (frames.map (·.map Declared.entry)) ++ [file]

theorem Frame.entries_declare {rest file : Entries} (d : Declared) {frames : List Frame}
    (h : frames ≠ []) : Frame.entries rest file (Frame.declare d frames) =
      Frame.declare d.entry (Frame.entries rest file frames) := by
  obtain ⟨frame, outer, rfl⟩ := List.exists_cons_of_ne_nil h
  cases outer <;> rfl

theorem Frame.entries_enter {rest file : Entries} {frames : List Frame} (h : frames ≠ []) :
    Frame.entries rest file ([] :: frames) = [] :: Frame.entries rest file frames := by
  obtain ⟨frame, outer, rfl⟩ := List.exists_cons_of_ne_nil h
  rfl

/-- The frames at a site in C, where a variable is in scope in its own initial value. -/
def Site.inner (s : Site) : List Frame :=
  match s.own with
  | none => s.scopes
  | some d => Frame.declare d s.scopes

/-- A name that is written to C, and the site where it stands. -/
structure Emitted where
  site : Site
  mention : Mention

/-- The names of a site that are written to C. -/
def Site.emitted (s : Site) : List Emitted := (s.expr.mentions false).map (⟨s, ·⟩)

/-- The names in the body of a function that are written to C. -/
def Function.emitted (f : Function) (first : DeclId) : List Emitted :=
  (f.sites first).flatMap Site.emitted

/-! ## Statements -/

section Statements

variable {m : DataModel} {decls : DeclTable} {returned : Ty} {rest file : Entries}

/-- The scopes declare what the entries list. -/
def Lists (scopes : List (List String)) (entries : List Entries) : Prop :=
  List.Forall₂ (fun scope entries => List.Perm scope (entries.map (·.1))) scopes entries

/-- The use in C is that of the name, under scopes that declare what is declared at the site. -/
def Writes (rest file : Entries) (use : CUse) (e : Emitted) : Prop :=
  use.name = e.mention.name.written ∧ Lists use.scopes (Frame.entries rest file e.site.inner)

theorem Lists.declare {scopes : List (List String)} {frames : List Frame}
    (h : Lists scopes (Frame.entries rest file frames)) (hne : frames ≠ []) (d : Declared) :
    Lists (Frame.declare d.name.text scopes)
      (Frame.entries rest file (Frame.declare d frames)) := by
  rw [Frame.entries_declare d hne]
  generalize Frame.entries rest file frames = entries at h
  cases h with
  | nil => exact .nil
  | cons hscope houter => exact .cons (hscope.cons _) houter

theorem Lists.enter {scopes : List (List String)} {frames : List Frame}
    (h : Lists scopes (Frame.entries rest file frames)) (hne : frames ≠ []) :
    Lists ([] :: scopes) (Frame.entries rest file ([] :: frames)) := by
  rw [Frame.entries_enter hne]
  exact .cons .nil h

theorem writes_expr {scopes : List (List String)} {s : Site} {e : CExpr}
    (hnames : e.names = Lowering.written (s.expr.mentions false))
    (h : Lists scopes (Frame.entries rest file s.inner)) :
    List.Forall₂ (Writes rest file) (CUse.ofExpr scopes e) s.emitted := by
  rw [CUse.ofExpr, hnames, Lowering.written, List.map_map, Site.emitted]
  exact List.forall₂_map_left_iff.mpr (List.forall₂_map_right_iff.mpr
    (List.forall₂_same.mpr fun m _ => ⟨rfl, h⟩))

theorem writes_expr? {scopes : List (List String)} {frames : List Frame} {own : Option Declared}
    {e : Option Expr} {e' : Option CExpr} {lower : Expr → CExpr} (heq : e' = e.map lower)
    (hnames : ∀ e : Expr, (lower e).names = Lowering.written (e.mentions false))
    (h : ∀ e, Lists scopes (Frame.entries rest file (Site.inner ⟨frames, own, e⟩))) :
    List.Forall₂ (Writes rest file) (e'.toList.flatMap (CUse.ofExpr scopes))
      ((e.toList.map (⟨frames, own, ·⟩)).flatMap Site.emitted) := by
  subst heq
  cases e with
  | none => exact .nil
  | some e =>
    simp only [Option.map_some, Option.toList_some, List.map_cons, List.map_nil,
      List.flatMap_singleton]
    exact writes_expr (hnames e) (h e)

/-- A statement declares in C what it declares. -/
theorem lists_stmt {scopes : List (List String)} {frames : List Frame}
    (h : Lists scopes (Frame.entries rest file frames)) (hne : frames ≠ []) (s : Stmt) :
    Lists (CUse.declareEach scopes (Lowering.stmt m decls returned s))
      (Frame.entries rest file (s.declare frames)) := by
  cases s with
  | decl var => exact h.declare hne var.declared
  | cond list =>
    have hbranches : ∀ bs, CUse.declareEach scopes (Lowering.branches m decls returned bs) = scopes := by
      intro bs
      induction bs with
      | nil => rfl
      | cons b bs ih =>
        cases b
        exact ih
    rw [Lowering.stmt, hbranches]
    exact h
  | _ => exact h

mutual

/-- The names that a statement uses in C. -/
theorem uses_stmt : ∀ (s : Stmt) {scopes : List (List String)} {frames : List Frame},
    Lists scopes (Frame.entries rest file frames) → frames ≠ [] →
      List.Forall₂ (Writes rest file) (CUse.ofStmts scopes (Lowering.stmt m decls returned s))
        ((s.sites frames).flatMap Site.emitted)
  | .expr e, scopes, frames, h, hne => by
    simpa [Lowering.stmt, CUse.ofStmts, CUse.ofStmt, Stmt.sites] using
      writes_expr (Lowering.names_discarded e false) h
  | .decl var, scopes, frames, h, hne => by
    simp only [Lowering.stmt, CUse.ofStmts, CUse.ofStmt, Stmt.sites, List.append_nil]
    exact writes_expr? rfl (fun e => Lowering.names_stored _ e false)
      (fun _ => h.declare hne var.declared)
  | .assign span target op e, scopes, frames, h, hne => by
    simp only [Lowering.stmt, CUse.ofStmts, CUse.ofStmt, Stmt.sites, List.append_nil,
      List.flatMap_cons, List.flatMap_nil]
    refine List.rel_append ?_ ?_
    · exact writes_expr (Lowering.names_value target false) h
    · exact writes_expr (Lowering.names_expr e false) h
  | .ret span e, scopes, frames, h, hne => by
    simp only [Lowering.stmt, CUse.ofStmts, CUse.ofStmt, Stmt.sites, List.append_nil]
    exact writes_expr? rfl (fun e => Lowering.names_stored _ e false) fun _ => h
  | .cond list, scopes, frames, h, hne => by
    rw [Lowering.stmt, Stmt.sites]
    exact uses_branches list h hne
  | .loop span cond body, scopes, frames, h, hne => by
    simp only [Lowering.stmt, CUse.ofStmts, CUse.ofStmt, Stmt.sites, List.append_nil,
      List.flatMap_cons, CGuard.cond?, Option.toList_some, List.flatMap_nil]
    refine List.rel_append ?_ ?_
    · exact writes_expr (Lowering.names_expr cond false) h
    · exact uses_stmts body (h.enter hne) (List.cons_ne_nil _ _)
  | .block span body, scopes, frames, h, hne => by
    simp only [Lowering.stmt, CUse.ofStmts, CUse.ofStmt, Stmt.sites, List.append_nil]
    exact uses_stmts body (h.enter hne) (List.cons_ne_nil _ _)

theorem uses_stmts : ∀ (ss : List Stmt) {scopes : List (List String)} {frames : List Frame},
    Lists scopes (Frame.entries rest file frames) → frames ≠ [] →
      List.Forall₂ (Writes rest file) (CUse.ofStmts scopes (Lowering.stmts m decls returned ss))
        ((Stmt.sitesEach frames ss).flatMap Site.emitted)
  | [], scopes, frames, h, hne => .nil
  | s :: ss, scopes, frames, h, hne => by
    rw [Lowering.stmts, CUse.ofStmts_append, Stmt.sitesEach, List.flatMap_append]
    have hne' : s.declare frames ≠ [] := by
      obtain ⟨frame, outer, rfl⟩ := List.exists_cons_of_ne_nil hne
      cases s <;> exact List.cons_ne_nil _ _
    exact List.rel_append (uses_stmt s h hne) (uses_stmts ss (lists_stmt h hne s) hne')

theorem uses_branches : ∀ (bs : List Branch) {scopes : List (List String)} {frames : List Frame},
    Lists scopes (Frame.entries rest file frames) → frames ≠ [] →
      List.Forall₂ (Writes rest file) (CUse.ofStmts scopes (Lowering.branches m decls returned bs))
        ((Branch.sitesEach frames bs).flatMap Site.emitted)
  | [], scopes, frames, h, hne => .nil
  | .mk span g body :: bs, scopes, frames, h, hne => by
    simp only [Lowering.branches, Lowering.branch, CUse.ofStmts, CUse.ofStmt, Branch.sitesEach,
      Branch.sites, List.flatMap_append]
    refine List.rel_append (List.rel_append ?_ ?_) (uses_branches bs h hne)
    · exact writes_expr? (by cases g <;> rfl) (fun e => Lowering.names_expr e false) fun _ => h
    · exact uses_stmts body (h.enter hne) (List.cons_ne_nil _ _)

end

/-! ## Functions -/

theorem names_ofParams (frame : Frame) (first : DeclId) (ps : List Param) :
    (Frame.ofParams frame first ps).map (·.name.text) =
      (ps.map (·.name.text)).reverse ++ frame.map (·.name.text) := by
  induction ps generalizing frame first with
  | nil => rfl
  | cons p ps ih => simp [Frame.ofParams, ih]

/-- **The names of a definition.** The C text of a body uses the names that are mentioned in the
body, in order, and the scopes around them declare what is declared there. -/
theorem uses_definition (unit : SourceUnit) (m : DataModel) (decls : DeclTable) {f : Function}
    {definition : CHead × List CStmt} (h : Lowering.definition? m decls f = some definition)
    (first : DeclId) :
    List.Forall₂ (Writes f.rest.entries (Node.entries unit.nodes))
      ((unit.toC m decls).uses definition) (f.emitted first) := by
  obtain ⟨body, hbody, rfl⟩ := Option.map_eq_some_iff.mp h
  rw [CUnit.uses, Function.emitted, Function.sites, hbody, Node.names_entries]
  refine uses_stmts body (.cons ?_ (.cons (.refl _) .nil)) (List.cons_ne_nil _ _)
  have hrest : (Lowering.restDecls m f.rest).map (·.name) = f.rest.entries.map (·.1) := by
    cases f.rest <;> rfl
  have hparams : ((Frame.ofParams [] first f.params).map Declared.entry).map (·.1) =
      (f.params.map (·.name.text)).reverse := by
    rw [List.map_map]
    exact (names_ofParams [] first f.params).trans (List.append_nil _)
  rw [List.map_append, hparams, Lowering.head, List.map_append, hrest, List.map_map]
  exact (List.reverse_perm _).symm.append_right _

end Statements

end KilnLang
