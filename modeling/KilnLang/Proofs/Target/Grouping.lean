import KilnLang.Proofs.Target.CGrammar

/-!
# How C groups expressions

Expressions are written without parentheses around operators, so C decides what an operator takes.
`CExpr.tree` is the tree that C reads. It differs from the expression in two ways: operands and
operators in a row are grouped by how tightly the operators bind, and a cast that is written before
them takes the first operand only.

**Theorem (`CExpr.conforms_tree`).** The tree is one of the grammar, if suffixes follow what takes
them, operators are not next to operands with operators of their own, and words are what they are
used as (`CExpr.Grammatical`).

**Theorem (`CExpr.mem_parts_tree`).** A part of the expression that has no operators of its own is
a subtree with the same tokens at the same place.

**Theorem (`CExpr.yield_first_operand`).** A cast takes all of what it is written before if and only
if that has no operators of its own.
-/

namespace KilnLang

open CPiece CLexer CDeclaration CTree

/-! ## Trees of expressions -/

namespace CExpr

/-- The tokens of a type in parentheses. -/
def typeTokens (type : CType) : List CLexeme := lexemes (type.spell 0 [])

mutual

/-- The operands that C reads in an expression. A cast takes the first operand of what it stands
before. -/
def operands : CExpr → Operands
  | .name text => (.leaf (.word text), [])
  | .literal text => (.leaf (CLiteral.token text), [])
  | .deref inner => (.group (.prefixed "*" (join inner.operands)), [])
  | .address inner => (.prefixed "&" (join inner.operands), [])
  | .paren inner => (.group (join inner.operands), [])
  | .index base position => (.index (join base.operands) (join position.operands), [])
  | .prefixed op inner => (.prefixed op.symbol (join inner.operands), [])
  | .suffixed op inner => (.suffixed (join inner.operands) op.symbol, [])
  | .call callee args => (.call (join callee.operands) (treeEach args), [])
  | .cast type inner =>
    (.group (join (.cast (typeTokens type) inner.operands.1, inner.operands.2)), [])
  | .array type items => (.listing (typeTokens type) (treeEach items), [])
  | .binary left op right =>
    (left.operands.1, left.operands.2 ++ (op, right.operands.1) :: right.operands.2)

/-- The trees that C reads in expressions. -/
def treeEach : List CExpr → List CTree
  | [] => []
  | e :: es => join e.operands :: treeEach es

end

/-- The tree that C reads in an expression. -/
def tree (e : CExpr) : CTree := join e.operands

/-- Whether operands are joined in the expression. -/
def isBinary : CExpr → Bool
  | .binary _ _ _ => true
  | _ => false

/-- Whether suffixes may follow the expression. -/
def isSuffixable : CExpr → Bool
  | .address _ | .prefixed _ _ | .binary _ _ _ => false
  | _ => true

theorem operands_of_not_binary {e : CExpr} (h : e.isBinary = false) : e.operands = (e.tree, []) := by
  cases e with
  | binary => cases h
  | _ => rfl

theorem level_of_not_binary {e : CExpr} (h : e.isBinary = false) : 12 ≤ e.tree.level := by
  cases e with
  | binary => cases h
  | _ => exact Nat.le_add_left 12 _

theorem level_of_isSuffixable {e : CExpr} (h : e.isSuffixable) : 13 ≤ e.tree.level := by
  cases e with
  | address => cases h
  | «prefixed» => cases h
  | binary => cases h
  | _ => exact Nat.le_refl 13

/-! ### Tokens -/

mutual

/-- The operands have the tokens that are written. -/
theorem yield_operands : ∀ e : CExpr, operandsYield e.operands = e.tokens
  | .name text | .literal text => rfl
  | .deref inner | .address inner | .paren inner | .prefixed _ inner | .suffixed _ inner => by
    simp [operands, operandsYield_single, yield, yield_join, yield_operands inner, tokens, spell]
  | .index base position => by
    simp [operands, operandsYield_single, yield, yield_join, yield_operands base,
      yield_operands position, tokens, spell]
  | .call callee args => by
    simp [operands, operandsYield_single, yield, yield_join, yield_operands callee,
      yield_treeEach args, tokens, spell]
  | .cast type inner => by
    simp [operands, operandsYield_single, yield, yield_join, operandsYield_cast,
      yield_operands inner, tokens, spell, typeTokens]
  | .array type items => by
    simp [operands, operandsYield_single, yield, yield_treeEach items, tokens, spell, typeTokens]
  | .binary left op right => by
    simp [operands, operandsYield_append, yield_operands left, yield_operands right, tokens, spell]

theorem yield_treeEach : ∀ es : List CExpr,
    yieldEach (treeEach es) = lexemes (listed (spellEach es))
  | [] => rfl
  | [e] => by
    simp [treeEach, yieldEach, yield_join, yield_operands e, listed, spellEach, tokens]
  | e :: e' :: es => by
    have hsome : spellEach (e' :: es) ≠ [] := List.cons_ne_nil _ _
    have hmore := yield_treeEach (e' :: es)
    rw [spellEach, listed_cons hsome, treeEach, treeEach, yieldEach, ← treeEach, hmore, yield_join,
      yield_operands e, tokens]
    · simp
    · exact List.cons_ne_nil _ _

end

theorem yield_tree (e : CExpr) : e.tree.yield = e.tokens := by
  rw [tree, yield_join, yield_operands]

/-! ### Grammar -/

section Grammar

variable (isType : String → Bool)

mutual

/-- The expression is written as the grammar has it: what has operators between its operands is not
next to other operators, suffixes follow what takes them, and words are what they are used as. -/
def Grammatical : CExpr → Prop
  | .name text => isOperandName isType text
  | .literal text => IsOperandToken isType (CLiteral.token text)
  | .deref inner | .address inner | .prefixed _ inner =>
    inner.isBinary = false ∧ inner.Grammatical
  | .paren inner => inner.Grammatical
  | .index base position => base.isSuffixable ∧ base.Grammatical ∧ position.Grammatical
  | .suffixed op inner => op.symbol ∈ stepMarks ∧ inner.isSuffixable ∧ inner.Grammatical
  | .call callee args => callee.isSuffixable ∧ callee.Grammatical ∧ GrammaticalEach args
  | .cast type inner => (∀ text ∈ type.names, CType.Denotes isType text) ∧ inner.Grammatical
  | .array type items =>
    (∀ text ∈ type.names, CType.Denotes isType text) ∧ items ≠ [] ∧ GrammaticalEach items
  | .binary left _ right => left.Grammatical ∧ right.Grammatical

/-- All expressions are written as the grammar has them. -/
def GrammaticalEach : List CExpr → Prop
  | [] => True
  | e :: es => e.Grammatical ∧ GrammaticalEach es

end

end Grammar

variable {isType : String → Bool}

theorem isTypeName_typeTokens {type : CType}
    (h : ∀ text ∈ type.names, CType.Denotes isType text) : IsTypeName isType (typeTokens type) :=
  ⟨type.spread, fun rest => CType.takes_declaration type 0 [] h (fun _ => rfl)
    CType.endsSpecifier_nil wraps_nil (suffixed_of_stops (stops_closing rest))
    (CType.endsSpecifier_punct _ _)⟩

/-- The operands conform to the grammar, between binary operators as well. -/
def OperandsConform (isType : String → Bool) (c : Operands) : Prop :=
  IsOperand isType c.1 ∧ ∀ o ∈ c.2, IsOperand isType o.2

theorem OperandsConform.join {c : Operands} (h : OperandsConform isType c) :
    (CTree.join c).Conforms isType :=
  conforms_join h.1.1 h.2

theorem operandsConform_single {t : CTree} (h : t.Conforms isType) (hlevel : 11 ≤ t.level) :
    OperandsConform isType (t, []) :=
  ⟨⟨h, hlevel⟩, List.forall_mem_nil _⟩

theorem conforms_prefixed {op : String} {inner : CExpr} (hop : op ∈ stepMarks ∨ op ∈ unaryMarks)
    (hinner : inner.isBinary = false) (h : inner.tree.Conforms isType) :
    (CTree.prefixed op inner.tree).Conforms isType := by
  have hlevel := level_of_not_binary hinner
  exact ⟨hop.imp (⟨·, hlevel⟩) (⟨·, (Nat.le_succ 11).trans hlevel⟩), h⟩

mutual

/-- What is written as the grammar has it is read as operands of the grammar. -/
theorem conforms_operands : ∀ {e : CExpr}, e.Grammatical isType →
    OperandsConform isType e.operands
  | .name _, h => operandsConform_single h (Nat.le_add_left 11 2)
  | .literal _, h => operandsConform_single h (Nat.le_add_left 11 2)
  | .deref inner, h =>
    have hinner : (CTree.prefixed "*" inner.tree).Conforms isType :=
      conforms_prefixed (.inr (by decide)) h.1 (conforms_operands h.2).join
    operandsConform_single hinner (Nat.le_add_left 11 2)
  | .address inner, h =>
    operandsConform_single (conforms_prefixed (.inr (by decide)) h.1 (conforms_operands h.2).join)
      (Nat.le_add_left 11 1)
  | .paren inner, h =>
    operandsConform_single (conforms_operands (e := inner) h).join (Nat.le_add_left 11 2)
  | .prefixed op inner, h => by
    have hop : op.symbol ∈ stepMarks ∨ op.symbol ∈ unaryMarks := by cases op <;> decide
    exact operandsConform_single (conforms_prefixed hop h.1 (conforms_operands h.2).join)
      (Nat.le_add_left 11 1)
  | .suffixed op inner, h =>
    operandsConform_single ⟨h.1, level_of_isSuffixable h.2.1, (conforms_operands h.2.2).join⟩
      (Nat.le_add_left 11 2)
  | .index base position, h =>
    operandsConform_single ⟨level_of_isSuffixable h.1, (conforms_operands h.2.1).join,
      (conforms_operands h.2.2).join⟩ (Nat.le_add_left 11 2)
  | .call callee args, h =>
    operandsConform_single ⟨level_of_isSuffixable h.1, (conforms_operands h.2.1).join,
      conforms_treeEach h.2.2⟩ (Nat.le_add_left 11 2)
  | .cast type inner, h => by
    obtain ⟨hfirst, hmore⟩ := conforms_operands h.2
    have hcast : (CTree.cast (typeTokens type) inner.operands.1).Conforms isType :=
      ⟨isTypeName_typeTokens h.1, hfirst.2, hfirst.1⟩
    -- The cast takes the first operand of what is inside; the parentheses hold the others.
    have hjoined : (CTree.group (CTree.join (.cast (typeTokens type) inner.operands.1,
        inner.operands.2))).Conforms isType := conforms_join hcast hmore
    exact operandsConform_single hjoined (Nat.le_add_left 11 2)
  | .array type items, h => by
    have hsome : treeEach items ≠ [] := by
      cases items with
      | nil => exact absurd rfl h.2.1
      | cons => exact List.cons_ne_nil _ _
    exact operandsConform_single ⟨isTypeName_typeTokens h.1, hsome, conforms_treeEach h.2.2⟩
      (Nat.le_add_left 11 2)
  | .binary left op right, h => by
    obtain ⟨hfirst, hmore⟩ := conforms_operands h.1
    obtain ⟨hfirst', hmore'⟩ := conforms_operands h.2
    exact ⟨hfirst, List.forall_mem_append.mpr ⟨hmore, List.forall_mem_cons.mpr ⟨hfirst', hmore'⟩⟩⟩

theorem conforms_treeEach : ∀ {es : List CExpr}, GrammaticalEach isType es →
    ConformsEach isType (treeEach es)
  | [], _ => trivial
  | _ :: _, h => ⟨(conforms_operands h.1).join, conforms_treeEach h.2⟩

end

theorem conforms_tree {e : CExpr} (h : e.Grammatical isType) : e.tree.Conforms isType :=
  (conforms_operands h).join

/-! ### Parts -/

mutual

/-- The parts of an expression that is written from token `start` on, with where each starts. -/
def parts (start : Nat) : CExpr → List (Nat × CExpr)
  | .name text => [(start, .name text)]
  | .literal text => [(start, .literal text)]
  | .deref inner => (start, .deref inner) :: inner.parts (start + 2)
  | .address inner => (start, .address inner) :: inner.parts (start + 1)
  | .paren inner => (start, .paren inner) :: inner.parts (start + 1)
  | .index base position => (start, .index base position) ::
      (base.parts start ++ position.parts (start + base.tokens.length + 1))
  | .prefixed op inner => (start, .prefixed op inner) :: inner.parts (start + 1)
  | .suffixed op inner => (start, .suffixed op inner) :: inner.parts start
  | .call callee args => (start, .call callee args) ::
      (callee.parts start ++ partsEach (start + callee.tokens.length + 1) args)
  | .cast type inner => (start, .cast type inner) ::
      inner.parts (start + (typeTokens type).length + 3)
  | .array type items => (start, .array type items) ::
      partsEach (start + (typeTokens type).length + 3) items
  | .binary left op right => (start, .binary left op right) ::
      (left.parts start ++ right.parts (start + left.tokens.length + 1))

/-- The parts of expressions with commas between them. -/
def partsEach (start : Nat) : List CExpr → List (Nat × CExpr)
  | [] => []
  | e :: es => e.parts start ++ partsEach (start + e.tokens.length + 1) es

end

theorem self_mem_parts (start : Nat) (e : CExpr) : (start, e) ∈ e.parts start := by
  cases e <;> exact List.mem_cons_self

/-- What C reads in a part is among the parts of a tree, where it is not joined by operators. -/
def Keeps (ps : List (Nat × CTree)) (p : Nat × CExpr) : Prop :=
  p.2.isBinary = false → ∀ q ∈ p.2.tree.parts p.1, 11 ≤ q.2.level → q ∈ ps

theorem Keeps.mono {ps ps' : List (Nat × CTree)} {p : Nat × CExpr} (h : Keeps ps p)
    (hsub : ∀ q ∈ ps, 11 ≤ q.2.level → q ∈ ps') : Keeps ps' p :=
  fun hbinary q hq hlevel => hsub q (h hbinary q hq hlevel) hlevel

theorem keeps_self (start : Nat) (e : CExpr) :
    Keeps (operandParts start e.operands) (start, e) := by
  intro hbinary q hq _
  rw [operands_of_not_binary hbinary]
  exact List.mem_append_left _ hq

theorem Keeps.join {start : Nat} {c : Operands} {p : Nat × CExpr}
    (h : Keeps (operandParts start c) p) : Keeps ((CTree.join c).parts start) p :=
  h.mono fun _ hq hlevel => mem_parts_join hlevel hq

theorem Keeps.single {ps : List (Nat × CTree)} {p : Nat × CExpr} (h : Keeps ps p) {start : Nat}
    {t : CTree} (hsub : ∀ q ∈ ps, q ∈ t.parts start) : Keeps (operandParts start (t, [])) p :=
  h.mono fun q hq _ => List.mem_append_left _ (hsub q hq)

mutual

/-- **Extents.** What is written for a part of an expression is a part of the tree that C reads, at
the same place. -/
theorem keeps_operands : ∀ (e : CExpr) (start : Nat), ∀ p ∈ e.parts start,
    Keeps (operandParts start e.operands) p
  | .name text, start, p, hp | .literal text, start, p, hp => by
    obtain rfl := List.mem_singleton.mp hp
    exact keeps_self start _
  | .deref inner, start, p, hp => by
    rcases List.mem_cons.mp hp with rfl | hp
    · exact keeps_self start _
    · refine (keeps_operands inner _ p hp).join.single fun q hq => ?_
      exact List.mem_cons_of_mem _ (List.mem_cons_of_mem _ hq)
  | .address inner, start, p, hp | .paren inner, start, p, hp | .prefixed _ inner, start, p, hp
  | .suffixed _ inner, start, p, hp => by
    rcases List.mem_cons.mp hp with rfl | hp
    · exact keeps_self start _
    · exact (keeps_operands inner _ p hp).join.single fun q hq => List.mem_cons_of_mem _ hq
  | .index base position, start, p, hp => by
    rw [parts, List.mem_cons, List.mem_append] at hp
    rcases hp with rfl | hp | hp
    · exact keeps_self start _
    · refine (keeps_operands base _ p hp).join.single fun q hq => ?_
      exact List.mem_cons_of_mem _ (List.mem_append_left _ hq)
    · refine (keeps_operands position _ p hp).join.single fun q hq => ?_
      rw [← yield_tree base] at hq
      exact List.mem_cons_of_mem _ (List.mem_append_right _ hq)
  | .call callee args, start, p, hp => by
    rw [parts, List.mem_cons, List.mem_append] at hp
    rcases hp with rfl | hp | hp
    · exact keeps_self start _
    · refine (keeps_operands callee _ p hp).join.single fun q hq => ?_
      exact List.mem_cons_of_mem _ (List.mem_append_left _ hq)
    · refine (keeps_treeEach args _ p hp).single fun q hq => ?_
      rw [← yield_tree callee] at hq
      exact List.mem_cons_of_mem _ (List.mem_append_right _ hq)
  | .cast type inner, start, p, hp => by
    rcases List.mem_cons.mp hp with rfl | hp
    · exact keeps_self start _
    · refine (keeps_operands inner _ p hp).mono fun q hq hlevel => List.mem_append_left _ ?_
      -- A cast binds to the first operand only, and the others keep theirs.
      refine List.mem_cons_of_mem _ (mem_parts_join hlevel (mem_operandParts_cast ?_))
      convert hq using 2
      omega
  | .array type items, start, p, hp => by
    rcases List.mem_cons.mp hp with rfl | hp
    · exact keeps_self start _
    · exact (keeps_treeEach items _ p hp).single fun q hq => List.mem_cons_of_mem _ hq
  | .binary left op right, start, p, hp => by
    rw [parts, List.mem_cons, List.mem_append] at hp
    rw [operands, operandParts_append, yield_operands]
    rcases hp with rfl | hp | hp
    -- The expression as a whole is no operand: its parts may group differently in C.
    · exact nofun
    · exact (keeps_operands left _ p hp).mono fun q hq _ => List.mem_append_left _ hq
    · exact (keeps_operands right _ p hp).mono fun q hq _ => List.mem_append_right _ hq

theorem keeps_treeEach : ∀ (es : List CExpr) (start : Nat), ∀ p ∈ partsEach start es,
    Keeps (CTree.partsEach start (treeEach es)) p
  | [], _, p, hp => by cases hp
  | e :: es, start, p, hp => by
    rcases List.mem_append.mp hp with hp | hp
    · exact (keeps_operands e _ p hp).join.mono fun q hq _ => List.mem_append_left _ hq
    · refine (keeps_treeEach es _ p hp).mono fun q hq _ => List.mem_append_right _ ?_
      rw [← yield_tree e] at hq
      exact hq

end

/-- A part that is not joined by operators is a subtree. -/
theorem mem_parts_tree {e : CExpr} {start : Nat} {p : Nat × CExpr} (hp : p ∈ e.parts start)
    (hbinary : p.2.isBinary = false) : ∀ q ∈ p.2.tree.parts p.1, 11 ≤ q.2.level →
      q ∈ e.tree.parts start :=
  (keeps_operands e start p hp).join hbinary

/-- The expression is written inside another: the parts of the one are parts of the other. -/
def Within (e e' : CExpr) : Prop :=
  ∀ start, ∃ start', ∀ p ∈ e.parts start', p ∈ e'.parts start

theorem Within.refl (e : CExpr) : e.Within e := fun start => ⟨start, fun _ hp => hp⟩

theorem Within.trans {e e' e'' : CExpr} (h : e.Within e') (h' : e'.Within e'') : e.Within e'' := by
  intro start
  obtain ⟨start', hsub'⟩ := h' start
  obtain ⟨start'', hsub⟩ := h start'
  exact ⟨start'', fun p hp => hsub' p (hsub p hp)⟩

theorem within_deref (inner : CExpr) : inner.Within (.deref inner) :=
  fun _ => ⟨_, fun _ hp => List.mem_cons_of_mem _ hp⟩

theorem within_address (inner : CExpr) : inner.Within (.address inner) :=
  fun _ => ⟨_, fun _ hp => List.mem_cons_of_mem _ hp⟩

theorem within_paren (inner : CExpr) : inner.Within (.paren inner) :=
  fun _ => ⟨_, fun _ hp => List.mem_cons_of_mem _ hp⟩

theorem within_prefixed (op : UnaryOp) (inner : CExpr) : inner.Within (.prefixed op inner) :=
  fun _ => ⟨_, fun _ hp => List.mem_cons_of_mem _ hp⟩

theorem within_suffixed (op : UnaryOp) (inner : CExpr) : inner.Within (.suffixed op inner) :=
  fun _ => ⟨_, fun _ hp => List.mem_cons_of_mem _ hp⟩

theorem within_cast (type : CType) (inner : CExpr) : inner.Within (.cast type inner) :=
  fun _ => ⟨_, fun _ hp => List.mem_cons_of_mem _ hp⟩

theorem base_within_index (base position : CExpr) : base.Within (.index base position) :=
  fun _ => ⟨_, fun _ hp => List.mem_cons_of_mem _ (List.mem_append_left _ hp)⟩

theorem position_within_index (base position : CExpr) : position.Within (.index base position) :=
  fun _ => ⟨_, fun _ hp => List.mem_cons_of_mem _ (List.mem_append_right _ hp)⟩

theorem left_within_binary (left : CExpr) (op : BinaryOp) (right : CExpr) :
    left.Within (.binary left op right) :=
  fun _ => ⟨_, fun _ hp => List.mem_cons_of_mem _ (List.mem_append_left _ hp)⟩

theorem right_within_binary (left : CExpr) (op : BinaryOp) (right : CExpr) :
    right.Within (.binary left op right) :=
  fun _ => ⟨_, fun _ hp => List.mem_cons_of_mem _ (List.mem_append_right _ hp)⟩

theorem exists_mem_partsEach {es : List CExpr} {e : CExpr} (h : e ∈ es) (start : Nat) :
    ∃ start', ∀ p ∈ e.parts start', p ∈ partsEach start es := by
  induction es generalizing start with
  | nil => cases h
  | cons e' es ih =>
    rcases List.mem_cons.mp h with rfl | h
    · exact ⟨start, fun p hp => List.mem_append_left _ hp⟩
    · obtain ⟨start', hsub⟩ := ih h (start + e'.tokens.length + 1)
      exact ⟨start', fun p hp => List.mem_append_right _ (hsub p hp)⟩

theorem arg_within_call {args : List CExpr} {arg : CExpr} (h : arg ∈ args) (callee : CExpr) :
    arg.Within (.call callee args) := by
  intro start
  obtain ⟨start', hsub⟩ := exists_mem_partsEach h (start + callee.tokens.length + 1)
  exact ⟨start', fun p hp => List.mem_cons_of_mem _ (List.mem_append_right _ (hsub p hp))⟩

theorem item_within_array {items : List CExpr} {item : CExpr} (h : item ∈ items) (type : CType) :
    item.Within (.array type items) := by
  intro start
  obtain ⟨start', hsub⟩ := exists_mem_partsEach h (start + (typeTokens type).length + 3)
  exact ⟨start', fun p hp => List.mem_cons_of_mem _ (hsub p hp)⟩

/-! ### Casts -/

/-- The tree of a cast has the cast after its parenthesis. -/
theorem cast_mem_parts (type : CType) (inner : CExpr) (start : Nat) :
    (start + 1, CTree.cast (typeTokens type) inner.operands.1) ∈
      (CExpr.cast type inner).tree.parts start :=
  List.mem_cons_of_mem _ (mem_parts_join (Nat.le_refl 11)
    (List.mem_append_left _ (CTree.self_mem_parts _ _)))

/-- A cast takes all of what it stands before if and only if that is not joined by operators. -/
theorem yield_first_operand {inner : CExpr} :
    inner.operands.1.yield = inner.tokens ↔ inner.isBinary = false := by
  constructor
  · intro h
    rw [← yield_operands, operandsYield, List.self_eq_append_right] at h
    cases inner with
    | binary left op right => simp [operands] at h
    | _ => rfl
  · intro h
    rw [operands_of_not_binary h, yield_tree]

end CExpr

end KilnLang
