import KilnLang.Proofs.Target.Fusion
import KilnLang.Proofs.Target.Grouping

/-!
# Extents of operands in the output

The operands of a unit keep their extent in the output if C reads what is written for each of them as
one complete subtree.

**Theorem (`operands_keep_extent`).** In a checked unit they do, if no operand fuses with what is in
it, and if names of operands are neither keywords nor types of C where they are written. C then reads
one tree. Casts keep the extent of their argument if and only if that is a single operand.

The induction over operands shows two things of what is written for them: it is grammatical
(`Lowering.grammatical_value`), since suffixes and prefixes are only written next to what has no
operators of its own, and each operand is written inside it (`Lowering.shows_value`).

**Counterexample (`cast_of_sum_takes_first`).** A unit is accepted in which a sum is cast, and C
reads a sum of which only the first operand is cast.
-/

namespace KilnLang

open CPiece CLexer CDeclaration CTree

/-! ## Lowered operands -/

/-- Whether the words of the operand, not counting those of operands in it, are what C takes them for:
names of operands are neither keywords nor types, and the alias that a cast names is a type. -/
def Value.isKnown (isType : String → Bool) : Value → Bool
  | .ident name => isOperandName isType name.written
  | .call _ callee _ (some (.cast _)) _ => Builtin.isBuiltin callee.text || isType callee.text
  | .call _ callee _ _ _ => isOperandName isType callee.written
  | _ => true

/-- The argument of a cast. -/
def Value.castArg? : Value → Option Expr
  | .call _ _ [arg] (some (.cast _)) _ => some arg
  | _ => none

namespace Lowering

open CExpr (Grammatical GrammaticalEach)

/-- C knows the words of primitive types as types, and those of constants as operands. -/
structure KnowsWords (m : DataModel) (isType : String → Bool) : Prop where
  primitives : KnowsPrimitives m isType
  constants : ∀ w ∈ ["NULL", "true", "false"], isType w = false

variable {m : DataModel} {isType : String → Bool}

theorem KnowsWords.constant (h : KnowsWords m isType) {w : String}
    (hw : w ∈ ["NULL", "true", "false"]) : (CExpr.literal w).Grammatical isType := by
  have hplain : ∀ w ∈ ["NULL", "true", "false"], CLiteral.token w = .word w ∧
      (!reservedWords.contains w && !isKeyword w) = true := by
    decide +kernel
  obtain ⟨htoken, hplain⟩ := hplain w hw
  rw [Grammatical, htoken, IsOperandToken, isOperandName, hplain, h.constants w hw]
  rfl

-- The kind of a token is known from lemmas: to evaluate it is slow and never needed.
attribute [local irreducible] CLiteral.token

theorem KnowsWords.denotes_ty (h : KnowsWords m isType) (t : Ty) :
    ∀ text ∈ (ty m t).names, CType.Denotes isType text :=
  fun text htext => (base_ty t text htext).denotes h.primitives

theorem KnowsWords.denotes_named (h : KnowsWords m isType) {callee : DottedName}
    (hformed : (CLexeme.word callee.text).Formed)
    (hknown : Builtin.isBuiltin callee.text || isType callee.text) (t : Ty) :
    ∀ text ∈ (named m callee t).names, CType.Denotes isType text := by
  unfold named
  split
  · exact h.denotes_ty t
  · rename_i hbuiltin
    refine List.forall_mem_singleton.mpr (denotes_of_word hformed ?_)
    rw [Bool.eq_false_iff.mpr hbuiltin, Bool.false_or] at hknown
    rw [hknown, Bool.or_true]

theorem grammatical_number {text : String} (h : (CLexeme.number text).Formed) :
    (CExpr.literal text).Grammatical isType := by
  rw [Grammatical, CLiteral.token_number h]
  trivial

theorem grammatical_quoted {quote : String} (hquote : quote.toList.head?.any isQuote)
    (lit : Literal) : (CLiteral.quoted quote lit).Grammatical isType := by
  obtain ⟨text, htext, htoken⟩ := CLiteral.exists_quoted hquote lit
  rw [htext, Grammatical, htoken]
  trivial

theorem grammatical_bool (hwords : KnowsWords m isType) (b : Bool) :
    (CLiteral.bool b).Grammatical isType := by
  apply hwords.constant
  cases b <;> decide

theorem grammatical_readAs {type : Ty} {e : CExpr} (hbinary : e.isBinary = false)
    (h : e.Grammatical isType) : (readAs type e).Grammatical isType := by
  unfold readAs
  split
  · exact ⟨hbinary, h⟩
  · exact h

theorem isSuffixable_readAs {type : Ty} {e : CExpr} (h : e.isSuffixable) :
    (readAs type e).isSuffixable := by
  unfold readAs
  split
  · rfl
  · exact h

theorem isSuffixable_applied {callee : DottedName} {args : List CExpr}
    {target : Option CallTarget} : (applied m callee args target).isSuffixable := by
  cases target with
  | none => rfl
  | some target => cases target <;> rfl

theorem isSuffixable_readCall {target : Option CallTarget} {e : CExpr} (h : e.isSuffixable) :
    (readCall target e).isSuffixable := by
  unfold readCall
  split
  · exact h
  · exact isSuffixable_readAs h
  · exact h

theorem not_binary_of_isSuffixable {e : CExpr} (h : e.isSuffixable) : e.isBinary = false := by
  cases e with
  | binary => cases h
  | _ => rfl

theorem isSuffixable_value {v : Value} (h : v.takesSuffix) : (value m v).isSuffixable := by
  cases v with
  | «prefixed» => cases h
  | ref => cases h
  | ident name =>
    rw [value, ident_eq]
    exact isSuffixable_readAs rfl
  | call => exact isSuffixable_readCall isSuffixable_applied
  | _ => rfl

theorem not_binary_pointer : ∀ v : Value, (pointer m v).isBinary = false
  | .ident name => by
    rw [pointer, ident_eq]
    split <;> rfl
  | .call _ _ _ _ _ => not_binary_of_isSuffixable isSuffixable_applied
  | .ref _ inner => not_binary_pointer inner
  | .paren (.mk _ (.operand inner)) => by
    rw [pointer]
    exact not_binary_pointer inner
  | .paren (.mk _ (.link _ _ _)) | .number _ | .decimal _ | .string _ | .char _ | .bool _ _
  | .null _ | .index _ _ _ | .prefixed _ _ _ | .suffixed _ _ _ => rfl

theorem not_binary_value (v : Value) : (value m v).isBinary = false := by
  by_cases htakes : v.takesSuffix
  · exact not_binary_of_isSuffixable (isSuffixable_value htakes)
  · cases v with
    | «prefixed» => rfl
    | ref span inner => exact not_binary_pointer inner
    | _ => exact absurd rfl htakes

theorem grammaticalEach_iff {es : List CExpr} :
    GrammaticalEach isType es ↔ ∀ e ∈ es, e.Grammatical isType := by
  induction es with
  | nil => exact iff_of_true trivial (List.forall_mem_nil _)
  | cons e es ih => rw [GrammaticalEach, List.forall_mem_cons, ih]

theorem grammatical_restArgs (hwords : KnowsWords m isType) {rest : Rest Ty} {args : List CExpr}
    (h : ∀ e ∈ args, e.Grammatical isType) :
    ∀ e ∈ restArgs m rest args, e.Grammatical isType := by
  have hcount (n : Nat) : (CExpr.literal (toString n)).Grammatical isType :=
    grammatical_number (CLexer.formed_decimal n)
  cases rest with
  | none => exact h
  | untyped => exact h
  | typed elem =>
    unfold restArgs
    dsimp only
    split
    · exact List.forall_mem_cons.mpr
        ⟨hcount 0, List.forall_mem_singleton.mpr (hwords.constant (by decide))⟩
    · rename_i hsome
      have harray : (CExpr.array (.array (ty m elem) none) args).Grammatical isType :=
        ⟨hwords.denotes_ty elem, fun hnil => hsome (List.isEmpty_iff.mpr hnil),
          grammaticalEach_iff.mpr h⟩
      exact List.forall_mem_cons.mpr ⟨hcount _, List.forall_mem_singleton.mpr harray⟩

theorem grammatical_applied (hwords : KnowsWords m isType) {span : Span} {callee : DottedName}
    {exprs : List Expr} {args : List CExpr} {target : Option CallTarget} {defaulted : Nat}
    (hlow : (Value.call span callee exprs target defaulted).Lowerable)
    (hknown : (Value.call span callee exprs target defaulted).isKnown isType)
    (hlength : args.length = exprs.length) (hargs : ∀ e ∈ args, e.Grammatical isType) :
    (applied m callee args target).Grammatical isType := by
  have hhead (hname : isOperandName isType callee.written) :
      (readAs callee.ty (ident callee)).isSuffixable ∧
        (readAs callee.ty (ident callee)).Grammatical isType := by
    rw [ident_eq]
    exact ⟨isSuffixable_readAs rfl, grammatical_readAs rfl hname⟩
  have hpassed (hname : isOperandName isType callee.written) (sig : Signature Ty) :
      (CExpr.call (readAs callee.ty (ident callee)) (args.take sig.params.length ++
        restArgs m sig.rest (args.drop sig.params.length))).Grammatical isType := by
    refine ⟨(hhead hname).1, (hhead hname).2, grammaticalEach_iff.mpr ?_⟩
    refine List.forall_mem_append.mpr ⟨fun e he => hargs e (List.mem_of_mem_take he), ?_⟩
    exact grammatical_restArgs hwords fun e he => hargs e (List.mem_of_mem_drop he)
  have hall (hname : isOperandName isType callee.written) :
      (CExpr.call (readAs callee.ty (ident callee)) args).Grammatical isType :=
    ⟨(hhead hname).1, (hhead hname).2, grammaticalEach_iff.mpr hargs⟩
  cases target with
  | none => exact hall hknown
  | some target =>
    cases target with
    | function decl sig => exact hpassed hknown sig
    | functionValue sig => exact hpassed hknown sig
    | cFunction sig => exact hpassed hknown sig
    | macroCall => exact hall hknown
    | cast type =>
      obtain ⟨hformed, hcast⟩ := hlow
      obtain ⟨hwritten, hone⟩ := hcast type rfl
      rw [hwritten] at hformed
      -- A cast has one argument, and its name is that of a type.
      obtain ⟨arg, rfl⟩ := List.length_eq_one_iff.mp (hlength.trans hone)
      exact ⟨hwords.denotes_named hformed hknown type, hargs arg List.mem_cons_self⟩

theorem mem_stepMarks {op : UnaryOp} (h : op = .inc ∨ op = .dec) : op.symbol ∈ stepMarks := by
  rcases h with rfl | rfl
  · decide
  · decide

/-- The operand can be lowered, and its words are what C takes them for. -/
def Suits (isType : String → Bool) (v : Value) : Prop := v.Lowerable ∧ v.isKnown isType

mutual

/-- **Grammar.** Operands are lowered to expressions of the grammar. -/
theorem grammatical_value (hwords : KnowsWords m isType) : ∀ {v : Value} {inside : List DeclId},
    (∀ o ∈ v.operands inside, Suits isType o.value) → (value m v).Grammatical isType
  | .number _, _, h | .decimal _, _, h => by
    simp only [Value.operands, List.forall_mem_singleton] at h
    exact grammatical_number h.1
  | .string lit, _, _ | .char lit, _, _ => by
    apply grammatical_quoted
    decide
  | .bool _ b, _, _ => by
    apply grammatical_bool hwords
  | .null _, _, _ => by
    apply hwords.constant
    decide
  | .ident name, _, h => by
    simp only [Value.operands, List.forall_mem_singleton] at h
    rw [value, ident_eq]
    exact grammatical_readAs rfl h.2
  | .call _ callee args target defaulted, inside, h => by
    simp only [Value.operands, List.forall_mem_cons] at h
    have hargs : ∀ e ∈ storedEach m (paramTypes target) args, e.Grammatical isType :=
      grammatical_storedEach hwords h.2
    -- The call is a postfix expression, which may be read through or stand as it is.
    have happlied := grammatical_applied hwords h.1.1 h.1.2 (length_storedEach _ _) hargs
    rw [value]
    unfold readCall
    split
    · exact happlied
    · exact grammatical_readAs (not_binary_of_isSuffixable isSuffixable_applied) happlied
    · exact happlied
  | .index _ base position, inside, h => by
    simp only [Value.operands, List.forall_mem_cons, List.forall_mem_append] at h
    exact ⟨isSuffixable_value h.1.1, grammatical_value hwords h.2.1,
      grammatical_expr hwords h.2.2⟩
  | .ref _ inner, inside, h => by
    simp only [Value.operands, List.forall_mem_cons] at h
    exact grammatical_pointer hwords h.2
  | .prefixed _ op inner, inside, h => by
    simp only [Value.operands, List.forall_mem_cons] at h
    exact ⟨not_binary_value inner, grammatical_value hwords h.2⟩
  | .suffixed _ op inner, inside, h => by
    simp only [Value.operands, List.forall_mem_cons] at h
    exact ⟨mem_stepMarks h.1.1.1, isSuffixable_value h.1.1.2, grammatical_value hwords h.2⟩
  | .paren inner, inside, h => by
    simp only [Value.operands, List.forall_mem_cons] at h
    exact grammatical_expr hwords h.2

theorem grammatical_pointer (hwords : KnowsWords m isType) : ∀ {v : Value} {inside : List DeclId},
    (∀ o ∈ v.operands inside, Suits isType o.value) → (pointer m v).Grammatical isType
  | .number _, _, h | .decimal _, _, h => by
    simp only [Value.operands, List.forall_mem_singleton] at h
    exact grammatical_number h.1
  | .string lit, _, _ | .char lit, _, _ => by
    apply grammatical_quoted
    decide
  | .bool _ b, _, _ => by
    apply grammatical_bool hwords
  | .null _, _, _ => by
    apply hwords.constant
    decide
  | .ident name, _, h => by
    simp only [Value.operands, List.forall_mem_singleton] at h
    rw [pointer, ident_eq]
    split
    · exact h.2
    · exact ⟨rfl, h.2⟩
  | .call _ callee args target defaulted, inside, h => by
    simp only [Value.operands, List.forall_mem_cons] at h
    have hargs : ∀ e ∈ storedEach m (paramTypes target) args, e.Grammatical isType :=
      grammatical_storedEach hwords h.2
    exact grammatical_applied hwords h.1.1 h.1.2 (length_storedEach _ _) hargs
  | .index _ base position, inside, h => by
    simp only [Value.operands, List.forall_mem_cons, List.forall_mem_append] at h
    exact ⟨rfl, isSuffixable_value h.1.1, grammatical_value hwords h.2.1,
      grammatical_expr hwords h.2.2⟩
  | .ref _ inner, inside, h => by
    simp only [Value.operands, List.forall_mem_cons] at h
    exact grammatical_pointer (v := inner) hwords h.2
  | .prefixed _ op inner, inside, h => by
    simp only [Value.operands, List.forall_mem_cons] at h
    exact ⟨not_binary_value inner, grammatical_value hwords h.2⟩
  | .suffixed _ op inner, inside, h => by
    simp only [Value.operands, List.forall_mem_cons] at h
    exact ⟨mem_stepMarks h.1.1.1, isSuffixable_value h.1.1.2, grammatical_value hwords h.2⟩
  | .paren (.mk _ (.operand inner)), inside, h => by
    simp only [Value.operands, Expr.operands, Chain.operands, List.forall_mem_cons] at h
    rw [pointer]
    exact grammatical_pointer (v := inner) hwords h.2
  | .paren (.mk _ (.link left op rest)), inside, h => by
    simp only [Value.operands, Expr.operands, Chain.operands, List.forall_mem_cons,
      List.forall_mem_append] at h
    rw [pointer]
    exact ⟨grammatical_value hwords h.2.1, grammatical_chain hwords h.2.2⟩

theorem grammatical_expr (hwords : KnowsWords m isType) : ∀ {e : Expr} {inside : List DeclId},
    (∀ o ∈ e.operands inside, Suits isType o.value) → (expr m e).Grammatical isType
  | .mk _ c, inside, h => by
    simp only [Expr.operands] at h
    exact grammatical_chain hwords h

theorem grammatical_chain (hwords : KnowsWords m isType) : ∀ {c : Chain} {inside : List DeclId},
    (∀ o ∈ c.operands inside, Suits isType o.value) → (chain m c).Grammatical isType
  | .operand v, inside, h => by
    simp only [Chain.operands] at h
    exact grammatical_value hwords h
  | .link v op rest, inside, h => by
    simp only [Chain.operands, List.forall_mem_append] at h
    exact ⟨grammatical_value hwords h.1, grammatical_chain hwords h.2⟩

theorem grammatical_stored (hwords : KnowsWords m isType) : ∀ {e : Expr} {expected : Ty}
    {inside : List DeclId}, (∀ o ∈ e.operands inside, Suits isType o.value) →
      (stored m expected e).Grammatical isType
  | .mk _ (.operand v), expected, inside, h => by
    simp only [Expr.operands, Chain.operands] at h
    rw [stored]
    split
    · exact grammatical_pointer hwords h
    · exact grammatical_value hwords h
  | .mk _ (.link left op rest), expected, inside, h => by
    simp only [Expr.operands, Chain.operands, List.forall_mem_append] at h
    exact ⟨grammatical_value hwords h.1, grammatical_chain hwords h.2⟩

theorem grammatical_storedEach (hwords : KnowsWords m isType) : ∀ {es : List Expr}
    {types : List Ty} {inside copied : List DeclId} {written : Nat},
    (∀ o ∈ Value.operandsEach inside copied written es, Suits isType o.value) →
      ∀ e ∈ storedEach m types es, e.Grammatical isType
  | [], _, _, _, _, _ => by simp [storedEach]
  | e :: es, [], inside, copied, written, h => by
    simp only [Value.operandsEach, List.forall_mem_append] at h
    exact List.forall_mem_cons.mpr ⟨grammatical_expr hwords h.1, grammatical_storedEach hwords h.2⟩
  | e :: es, expected :: more, inside, copied, written, h => by
    simp only [Value.operandsEach, List.forall_mem_append] at h
    exact List.forall_mem_cons.mpr
      ⟨grammatical_stored hwords h.1, grammatical_storedEach hwords h.2⟩

end

/-! ### Where operands are written -/

theorem within_readAs (type : Ty) (e : CExpr) : e.Within (readAs type e) := by
  unfold readAs
  split
  · exact CExpr.within_deref e
  · exact .refl e

theorem within_readCall (target : Option CallTarget) (e : CExpr) :
    e.Within (readCall target e) := by
  unfold readCall
  split
  · exact .refl e
  · exact within_readAs _ e
  · exact .refl e

theorem exists_within_restArgs {args : List CExpr} {arg : CExpr} (h : arg ∈ args) (rest : Rest Ty) :
    ∃ e ∈ restArgs m rest args, arg.Within e := by
  cases rest with
  | none => exact ⟨arg, h, .refl arg⟩
  | untyped => exact ⟨arg, h, .refl arg⟩
  | typed elem =>
    have hsome : ¬ args.isEmpty := fun hnil => by
      rw [List.isEmpty_iff.mp hnil] at h
      cases h
    rw [restArgs, if_neg hsome]
    exact ⟨_, List.mem_cons_of_mem _ List.mem_cons_self, CExpr.item_within_array h _⟩

theorem arg_within_applied {callee : DottedName} {args : List CExpr} {target : Option CallTarget}
    {arg : CExpr} (hcast : ∀ ty, target = some (.cast ty) → args.length = 1) (h : arg ∈ args) :
    arg.Within (applied m callee args target) := by
  have hpassed (sig : Signature Ty) :
      arg.Within (CExpr.call (readAs callee.ty (ident callee)) (args.take sig.params.length ++
        restArgs m sig.rest (args.drop sig.params.length))) := by
    rw [← List.take_append_drop sig.params.length args, List.mem_append] at h
    rcases h with h | h
    · exact CExpr.arg_within_call (List.mem_append_left _ h) _
    · obtain ⟨e, he, hwithin⟩ := exists_within_restArgs h sig.rest
      exact hwithin.trans (CExpr.arg_within_call (List.mem_append_right _ he) _)
  cases target with
  | none => exact CExpr.arg_within_call h _
  | some target =>
    cases target with
    | function decl sig => exact hpassed sig
    | functionValue sig => exact hpassed sig
    | cFunction sig => exact hpassed sig
    | macroCall => exact CExpr.arg_within_call h _
    | cast type =>
      obtain ⟨arg', rfl⟩ := List.length_eq_one_iff.mp (hcast type rfl)
      obtain rfl := List.mem_singleton.mp h
      exact CExpr.within_cast _ _

/-- The operands are written inside the expression, each in one of its forms. -/
def Shows (m : DataModel) (c : CExpr) (os : List Operand) : Prop :=
  ∀ o ∈ os, ∃ form ∈ forms m o.value, form.Within c

theorem Shows.within {c c' : CExpr} {os : List Operand} (h : Shows m c os) (hc : c.Within c') :
    Shows m c' os := by
  intro o ho
  obtain ⟨form, hform, hwithin⟩ := h o ho
  exact ⟨form, hform, hwithin.trans hc⟩

theorem Shows.append {c : CExpr} {os os' : List Operand} (h : Shows m c os) (h' : Shows m c os') :
    Shows m c (os ++ os') :=
  fun o ho => (List.mem_append.mp ho).elim (h o) (h' o)

/-- A form shows its operand. -/
theorem Shows.cons {c : CExpr} {v : Value} {inside : List DeclId} {os : List Operand}
    (h : Shows m c os) (hc : c ∈ forms m v) : Shows m c (⟨inside, v⟩ :: os) :=
  List.forall_mem_cons.mpr ⟨⟨c, hc, .refl c⟩, h⟩

theorem shows_nil (c : CExpr) : Shows m c [] := List.forall_mem_nil _

theorem value_mem_forms (v : Value) : value m v ∈ forms m v := List.mem_cons_self

theorem pointer_mem_forms (v : Value) : pointer m v ∈ forms m v :=
  List.mem_cons_of_mem _ List.mem_cons_self

theorem shows_applied {callee : DottedName} {args : List CExpr} {target : Option CallTarget}
    {os : List Operand} (hcast : ∀ ty, target = some (.cast ty) → args.length = 1)
    (h : ∀ o ∈ os, ∃ c ∈ args, Shows m c [o]) : Shows m (applied m callee args target) os := by
  intro o ho
  obtain ⟨c, hc, hshows⟩ := h o ho
  obtain ⟨form, hform, hwithin⟩ := List.forall_mem_singleton.mp hshows
  exact ⟨form, hform, hwithin.trans (arg_within_applied hcast hc)⟩

mutual

/-- **Operands are written.** Each operand is written inside what its expression is lowered to. -/
theorem shows_value : ∀ {v : Value} {inside : List DeclId},
    (∀ o ∈ v.operands inside, o.value.Lowerable) → Shows m (value m v) (v.operands inside)
  | .number _, _, _ | .decimal _, _, _ | .string _, _, _ | .char _, _, _ | .bool _ _, _, _
  | .null _, _, _ | .ident _, _, _ => (shows_nil _).cons (value_mem_forms _)
  | .call span callee args target defaulted, inside, h => by
    have hself := value_mem_forms (m := m) (.call span callee args target defaulted)
    simp only [Value.operands, List.forall_mem_cons] at h
    refine Shows.cons (.within (shows_applied ?_ (shows_storedEach h.2)) (within_readCall _ _)) hself
    exact fun ty hty => (length_storedEach _ _).trans (h.1.2 ty hty).2
  | .index span base position, inside, h => by
    have hself := value_mem_forms (m := m) (.index span base position)
    simp only [Value.operands, List.forall_mem_cons, List.forall_mem_append] at h
    refine Shows.cons (.append ?_ ?_) hself
    · exact (shows_value h.2.1).within (CExpr.base_within_index _ _)
    · exact (shows_expr h.2.2).within (CExpr.position_within_index _ _)
  | .ref span inner, inside, h => by
    have hself := value_mem_forms (m := m) (.ref span inner)
    simp only [Value.operands, List.forall_mem_cons] at h
    exact Shows.cons (shows_pointer h.2) hself
  | .prefixed span op inner, inside, h => by
    have hself := value_mem_forms (m := m) (.prefixed span op inner)
    simp only [Value.operands, List.forall_mem_cons] at h
    exact Shows.cons ((shows_value h.2).within (CExpr.within_prefixed _ _)) hself
  | .suffixed span op inner, inside, h => by
    have hself := value_mem_forms (m := m) (.suffixed span op inner)
    simp only [Value.operands, List.forall_mem_cons] at h
    exact Shows.cons ((shows_value h.2).within (CExpr.within_suffixed _ _)) hself
  | .paren inner, inside, h => by
    have hself := value_mem_forms (m := m) (.paren inner)
    simp only [Value.operands, List.forall_mem_cons] at h
    exact Shows.cons ((shows_expr h.2).within (CExpr.within_paren _)) hself

theorem shows_pointer : ∀ {v : Value} {inside : List DeclId},
    (∀ o ∈ v.operands inside, o.value.Lowerable) → Shows m (pointer m v) (v.operands inside)
  | .number _, _, _ | .decimal _, _, _ | .string _, _, _ | .char _, _, _ | .bool _ _, _, _
  | .null _, _, _ | .ident _, _, _ => (shows_nil _).cons (pointer_mem_forms _)
  | .call span callee args target defaulted, inside, h => by
    have hself := pointer_mem_forms (m := m) (.call span callee args target defaulted)
    simp only [Value.operands, List.forall_mem_cons] at h
    refine Shows.cons (shows_applied ?_ (shows_storedEach h.2)) hself
    exact fun ty hty => (length_storedEach _ _).trans (h.1.2 ty hty).2
  | .index span base position, inside, h => by
    have hself := pointer_mem_forms (m := m) (.index span base position)
    simp only [Value.operands, List.forall_mem_cons, List.forall_mem_append] at h
    refine Shows.cons (.within (.append ?_ ?_) (CExpr.within_address _)) hself
    · exact (shows_value h.2.1).within (CExpr.base_within_index _ _)
    · exact (shows_expr h.2.2).within (CExpr.position_within_index _ _)
  | .ref span inner, inside, h => by
    have hself := pointer_mem_forms (m := m) (.ref span inner)
    simp only [Value.operands, List.forall_mem_cons] at h
    exact Shows.cons (shows_pointer h.2) hself
  | .prefixed span op inner, inside, h => by
    have hself := pointer_mem_forms (m := m) (.prefixed span op inner)
    simp only [Value.operands, List.forall_mem_cons] at h
    exact Shows.cons ((shows_value h.2).within (CExpr.within_prefixed _ _)) hself
  | .suffixed span op inner, inside, h => by
    have hself := pointer_mem_forms (m := m) (.suffixed span op inner)
    simp only [Value.operands, List.forall_mem_cons] at h
    exact Shows.cons ((shows_value h.2).within (CExpr.within_suffixed _ _)) hself
  | .paren (.mk place (.operand inner)), inside, h => by
    have hself := pointer_mem_forms (m := m) (.paren (.mk place (.operand inner)))
    simp only [Value.operands, Expr.operands, Chain.operands, List.forall_mem_cons] at h ⊢
    rw [pointer] at hself ⊢
    exact Shows.cons (shows_pointer h.2) hself
  | .paren (.mk place (.link left op rest)), inside, h => by
    have hself := pointer_mem_forms (m := m) (.paren (.mk place (.link left op rest)))
    simp only [Value.operands, Expr.operands, Chain.operands, List.forall_mem_cons,
      List.forall_mem_append] at h ⊢
    rw [pointer] at hself ⊢
    refine Shows.cons (.within (.append ?_ ?_) (CExpr.within_paren _)) hself
    · exact (shows_value h.2.1).within (CExpr.left_within_binary _ _ _)
    · exact (shows_chain h.2.2).within (CExpr.right_within_binary _ _ _)

theorem shows_expr : ∀ {e : Expr} {inside : List DeclId},
    (∀ o ∈ e.operands inside, o.value.Lowerable) → Shows m (expr m e) (e.operands inside)
  | .mk _ c, inside, h => by
    simp only [Expr.operands] at h ⊢
    exact shows_chain h

theorem shows_chain : ∀ {c : Chain} {inside : List DeclId},
    (∀ o ∈ c.operands inside, o.value.Lowerable) → Shows m (chain m c) (c.operands inside)
  | .operand v, inside, h => by
    simp only [Chain.operands] at h ⊢
    exact shows_value h
  | .link v op rest, inside, h => by
    simp only [Chain.operands, List.forall_mem_append] at h ⊢
    refine Shows.append ?_ ?_
    · exact (shows_value h.1).within (CExpr.left_within_binary _ _ _)
    · exact (shows_chain h.2).within (CExpr.right_within_binary _ _ _)

theorem shows_stored : ∀ {e : Expr} {expected : Ty} {inside : List DeclId},
    (∀ o ∈ e.operands inside, o.value.Lowerable) → Shows m (stored m expected e) (e.operands inside)
  | .mk _ (.operand v), expected, inside, h => by
    simp only [Expr.operands, Chain.operands] at h ⊢
    rw [stored]
    split
    · exact shows_pointer h
    · exact shows_value h
  | .mk _ (.link left op rest), expected, inside, h => by
    simp only [Expr.operands, Chain.operands, List.forall_mem_append] at h ⊢
    refine Shows.append ?_ ?_
    · exact (shows_value h.1).within (CExpr.left_within_binary _ _ _)
    · exact (shows_chain h.2).within (CExpr.right_within_binary _ _ _)

theorem shows_storedEach : ∀ {es : List Expr} {types : List Ty} {inside copied : List DeclId}
    {written : Nat}, (∀ o ∈ Value.operandsEach inside copied written es, o.value.Lowerable) →
      ∀ o ∈ Value.operandsEach inside copied written es,
        ∃ c ∈ storedEach m types es, Shows m c [o]
  | [], _, _, _, _, _ => by simp [Value.operandsEach]
  | e :: es, [], inside, copied, written, h => by
    simp only [Value.operandsEach, List.forall_mem_append] at h ⊢
    constructor
    · exact fun o ho => ⟨expr m e, List.mem_cons_self,
        List.forall_mem_singleton.mpr (shows_expr h.1 o ho)⟩
    · intro o ho
      obtain ⟨c, hc, hshows⟩ := shows_storedEach h.2 o ho
      exact ⟨c, List.mem_cons_of_mem _ hc, hshows⟩
  | e :: es, expected :: more, inside, copied, written, h => by
    simp only [Value.operandsEach, List.forall_mem_append] at h ⊢
    constructor
    · exact fun o ho => ⟨stored m expected e, List.mem_cons_self,
        List.forall_mem_singleton.mpr (shows_stored h.1 o ho)⟩
    · intro o ho
      obtain ⟨c, hc, hshows⟩ := shows_storedEach h.2 o ho
      exact ⟨c, List.mem_cons_of_mem _ hc, hshows⟩

end

/-! ### Expressions -/

variable {e : Expr} {c : CExpr} {inside : List DeclId}

theorem WrittenAs.grammatical (hwords : KnowsWords m isType) (h : WrittenAs m e c)
    (hsuits : ∀ o ∈ e.operands inside, Suits isType o.value) : c.Grammatical isType := by
  cases h with
  | read => exact grammatical_expr hwords hsuits
  | stored => exact grammatical_stored hwords hsuits

theorem WrittenAs.shows (h : WrittenAs m e c) (hlow : ∀ o ∈ e.operands inside, o.value.Lowerable) :
    Shows m c (e.operands inside) := by
  cases h with
  | read => exact shows_expr hlow
  | stored => exact shows_stored hlow

theorem not_binary_of_form {v : Value} (h : c ∈ forms m v) : c.isBinary = false := by
  rcases List.mem_pair.mp h with rfl | rfl
  · exact not_binary_value v
  · exact not_binary_pointer v

/-- Operands without operators between them are single. -/
theorem not_binary_expr : (expr m e).isBinary = false ↔ e.single?.isSome := by
  obtain ⟨span, c⟩ := e
  cases c with
  | operand v => exact iff_of_true (not_binary_value v) rfl
  | link left op rest => exact iff_of_false (nofun : true ≠ false) (nofun : false ≠ true)

/-- Both forms of a cast are the cast. -/
theorem exists_cast_of_form {v : Value} {arg : Expr} (hcast : v.castArg? = some arg)
    (h : c ∈ forms m v) : c = value m v ∧ ∃ type, c = .cast type (expr m arg) := by
  unfold Value.castArg? at hcast
  split at hcast
  · cases hcast
    rcases List.mem_pair.mp h with rfl | rfl
    · exact ⟨rfl, _, rfl⟩
    · exact ⟨rfl, _, rfl⟩
  · cases hcast

/-- What C reads where an expression is written: a tree that is the only one of the grammar with the
tokens of its text. -/
structure ReadsAs (isType : String → Bool) (c : CExpr) (t : CTree) : Prop where
  tokens : tokens? c.render.toList = some t.yield
  unique : ∀ t', t'.Conforms isType ∧ t'.yield = t.yield ↔ t' = t

/-- The operands of an expression keep their extent in a tree: each part of what is written that has
no operators of its own is a subtree, each operand is such a part, and a cast takes all of its
argument if and only if that is a single operand. -/
structure KeepsExtents (m : DataModel) (e : Expr) (c : CExpr) (t : CTree) : Prop where
  parts : ∀ p ∈ c.parts 0, p.2.isBinary = false →
    ∃ u, (p.1, u) ∈ t.parts 0 ∧ u.yield = p.2.tokens
  operands : ∀ o ∈ e.operands [], ∃ p ∈ c.parts 0, p.2 ∈ forms m o.value ∧ p.2.isBinary = false
  casts : ∀ o ∈ e.operands [], ∀ arg, o.value.castArg? = some arg →
    ∃ start type operand, (start, value m o.value) ∈ c.parts 0 ∧
      (start + 1, .cast type operand) ∈ t.parts 0 ∧
        (operand.yield = (expr m arg).tokens ↔ arg.single?.isSome)

theorem readsAs_tree (h : c.Grammatical isType) (htokens : tokens? c.render.toList = some c.tokens) :
    ReadsAs isType c c.tree where
  tokens := by rw [CExpr.yield_tree, htokens]
  unique t' := by
    constructor
    · rintro ⟨hconforms, hyield⟩
      exact eq_of_yield hconforms (CExpr.conforms_tree h) hyield
    · rintro rfl
      exact ⟨CExpr.conforms_tree h, rfl⟩

theorem keepsExtents_tree (h : Shows m c (e.operands [])) : KeepsExtents m e c c.tree := by
  have hparts : ∀ p ∈ c.parts 0, p.2.isBinary = false → (p.1, p.2.tree) ∈ c.tree.parts 0 :=
    fun p hp hbinary => CExpr.mem_parts_tree hp hbinary _ (CTree.self_mem_parts _ _)
      ((Nat.le_succ 11).trans (CExpr.level_of_not_binary hbinary))
  have hshown : ∀ o ∈ e.operands [], ∃ p ∈ c.parts 0, p.2 ∈ forms m o.value := by
    intro o ho
    obtain ⟨form, hform, hwithin⟩ := h o ho
    obtain ⟨start, hsub⟩ := hwithin 0
    exact ⟨(start, form), hsub _ (CExpr.self_mem_parts _ _), hform⟩
  constructor
  · exact fun p hp hbinary => ⟨p.2.tree, hparts p hp hbinary, CExpr.yield_tree _⟩
  · intro o ho
    obtain ⟨p, hp, hform⟩ := hshown o ho
    exact ⟨p, hp, hform, not_binary_of_form hform⟩
  · intro o ho arg harg
    obtain ⟨⟨start, form⟩, hp, hform⟩ := hshown o ho
    obtain ⟨hvalue, type, rfl⟩ := exists_cast_of_form harg hform
    have hcast := CExpr.cast_mem_parts type (expr m arg) start
    rw [← hvalue]
    refine ⟨start, _, _, hp, CExpr.mem_parts_tree hp rfl _ hcast (Nat.le_refl 11), ?_⟩
    rw [CExpr.yield_first_operand, not_binary_expr]

end Lowering

open Lowering in
/-- **Extents.** C reads the text of an expression of a checked unit as one tree, in which each
operand is a complete subtree and casts take their first operand, unless an operand fuses or a word
in it is not what C takes it for. -/
theorem operands_keep_extent {unit : SourceUnit} {a : Analyzed} {m : DataModel}
    {isType : String → Bool} (hwords : KnowsWords m isType) (htext : unit.OfText)
    (h : unit.analyzeBridged = .ok a) :
    ∀ n ∈ a.unit.nodes, ∀ e ∈ n.exprs,
      (e.Has fun v => v.fuses = false ∧ v.isKnown isType) →
        ∀ c, WrittenAs m e c → ∃ t, ReadsAs isType c t ∧ KeepsExtents m e c t := by
  intro n hn e he hhas c hc
  have hlow := SourceUnit.lowerable_operands htext h n hn e he
  have hall := (e.has_iff []).mp hhas
  have hsuits : ∀ o ∈ e.operands [], Suits isType o.value := fun o ho =>
    ⟨hlow o ho, (hall o ho).2⟩
  have htokens : tokens? c.render.toList = some c.tokens :=
    (CExpr.tokens?_iff_separate (hc.legible hlow)).mpr
      ((hc.separate_iff hlow).mpr fun o ho => (hall o ho).1)
  exact ⟨c.tree, readsAs_tree (hc.grammatical hwords hsuits) htokens,
    keepsExtents_tree (hc.shows hlow)⟩

theorem knowsWords_isStandard (m : DataModel) : Lowering.KnowsWords m Lowering.isStandard where
  primitives := Lowering.knowsPrimitives_isStandard m
  constants := by decide +kernel

/-- Whether no operand of the expression fuses and all words are what C takes them for, where no
alias is a type. -/
def Expr.isPlain (e : Expr) : Bool :=
  (e.operands []).all fun o => !o.value.fuses && o.value.isKnown Lowering.isStandard

open Lowering in
/-- A cast of a sum in parentheses, next to other operators. -/
theorem parenthesized_sum_cast : ∃ unit a,
    SourceUnit.parse 0 "int f(int x, ref int y) { return int8((x + 1)) - -x * y }" = .ok unit ∧
    unit.analyzeBridged = .ok a ∧
    (∃ n ∈ a.unit.nodes, ∃ e ∈ n.exprs, ∃ o ∈ e.operands [], o.value.castArg?.isSome) ∧
    ∀ n ∈ a.unit.nodes, ∀ e ∈ n.exprs, ∃ t,
      ReadsAs isStandard (expr .lp64 e) t ∧ KeepsExtents .lp64 e (expr .lp64 e) t := by
  have hok : ((SourceUnit.parse 0
      "int f(int x, ref int y) { return int8((x + 1)) - -x * y }").toOption.any fun unit =>
      unit.analyzeBridged.toOption.any fun a =>
        (a.unit.nodes.any fun n => n.exprs.any fun e => (e.operands []).any fun o =>
          o.value.castArg?.isSome) &&
        a.unit.nodes.all fun n => n.exprs.all Expr.isPlain) = true := by
    rw [SourceUnit.parse_ofList]
    decide +kernel
  obtain ⟨unit, a, hparse, hanalyze, hall⟩ := SourceUnit.exists_analyzed hok
  obtain ⟨hany, hall⟩ := Bool.and_eq_true_iff.mp hall
  have htext : unit.OfText := ⟨0, _, unit, hparse, List.forall₂_same.mpr fun n _ => .inl rfl⟩
  refine ⟨unit, a, hparse, hanalyze, ?_, fun n hn e he => ?_⟩
  · obtain ⟨n, hn, hany⟩ := List.any_eq_true.mp hany
    obtain ⟨e, he, hany⟩ := List.any_eq_true.mp hany
    exact ⟨n, hn, e, he, List.any_eq_true.mp hany⟩
  · have hplain := List.all_eq_true.mp (List.all_eq_true.mp hall n hn) e he
    have hhas : e.Has fun v => v.fuses = false ∧ v.isKnown isStandard :=
      ⟨[], fun o ho => by simpa using List.all_eq_true.mp hplain o ho⟩
    exact operands_keep_extent (knowsWords_isStandard .lp64) htext hanalyze n hn e he hhas _ .read

/-- The tree of a sum of which only the first operand is cast. -/
def castFirst : CTree :=
  .group (.binary (.cast [.word "int8_t"] (.leaf (.word "x"))) .add (.leaf (.number "1")))

theorem conforms_castFirst : castFirst.Conforms Lowering.isStandard := by
  have hformed : (CLexeme.word "int8_t").Formed :=
    formed_word_of_all (by decide +kernel) (by decide +kernel)
  have hdenotes : ∀ text ∈ (CType.named "int8_t").names,
      CType.Denotes Lowering.isStandard text :=
    List.forall_mem_singleton.mpr (Lowering.denotes_of_word hformed (by decide +kernel))
  have htype : CExpr.typeTokens (.named "int8_t") = [.word "int8_t"] := by decide +kernel
  have hname : isOperandName Lowering.isStandard "x" := by decide +kernel
  have hcast := CExpr.isTypeName_typeTokens hdenotes
  rw [htype] at hcast
  exact ⟨by decide, by decide, ⟨hcast, by decide, hname⟩, trivial⟩

open Lowering in
/-- A cast of a sum takes the first operand of the sum. -/
theorem cast_of_sum_takes_first : ∃ unit a,
    SourceUnit.parse 0 "int f(int x) { return int8(x + 1) }\n" = .ok unit ∧
    unit.analyzeBridged = .ok a ∧
    ∃ n ∈ a.unit.nodes, ∃ e ∈ n.exprs, ∃ o ∈ e.operands [], ∃ arg, o.value.castArg? = some arg ∧
      (expr .lp64 arg).tokens = [.word "x", .punct "+", .number "1"] ∧
      ReadsAs isStandard (expr .lp64 e) castFirst := by
  have hok : ((SourceUnit.parse 0 "int f(int x) { return int8(x + 1) }\n").toOption.any fun unit =>
      unit.analyzeBridged.toOption.any fun a => a.unit.nodes.any fun n => n.exprs.any fun e =>
        ((expr .lp64 e).tokens == castFirst.yield && e.keepsApart) &&
          (e.operands []).any fun o => o.value.castArg?.any fun arg =>
            (expr .lp64 arg).tokens == [.word "x", .punct "+", .number "1"]) = true := by
    rw [SourceUnit.parse_ofList]
    decide +kernel
  obtain ⟨unit, a, hparse, hanalyze, hany⟩ := SourceUnit.exists_analyzed hok
  have htext : unit.OfText := ⟨0, _, unit, hparse, List.forall₂_same.mpr fun n _ => .inl rfl⟩
  obtain ⟨n, hn, hany⟩ := List.any_eq_true.mp hany
  obtain ⟨e, he, hany⟩ := List.any_eq_true.mp hany
  obtain ⟨hall, hany⟩ := Bool.and_eq_true_iff.mp hany
  obtain ⟨htokens, hapart⟩ := Bool.and_eq_true_iff.mp hall
  obtain ⟨o, ho, hcast⟩ := List.any_eq_true.mp hany
  obtain ⟨arg, harg, hsum⟩ := (Option.any_eq_true _ _).mp hcast
  have hlow := SourceUnit.lowerable_operands htext hanalyze n hn e he
  -- The text reads as the tokens that are meant, because no two of them run together.
  have hread : tokens? (expr .lp64 e).render.toList = some (expr .lp64 e).tokens :=
    (CExpr.tokens?_iff_separate (legible_expr hlow)).mpr
      ((separate_expr hlow).mpr fun o ho => by simpa using List.all_eq_true.mp hapart o ho)
  rw [eq_of_beq htokens] at hread
  refine ⟨unit, a, hparse, hanalyze, n, hn, e, he, o, ho, arg, harg, eq_of_beq hsum, hread, ?_⟩
  intro t'
  constructor
  · rintro ⟨hconforms, hyield⟩
    exact eq_of_yield hconforms conforms_castFirst hyield
  · rintro rfl
    exact ⟨conforms_castFirst, rfl⟩

end KilnLang
