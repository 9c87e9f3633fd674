import KilnLang.Proofs.Target.Declarators

/-!
# Expressions of C

Expressions of C have a tree for each way to read their tokens, in which operators take what binds
tighter than they do. Words that are neither keywords nor names of types (`isType`) are operands,
and what is in parentheses is a type if it starts with a word for one.

The grammar (`CTree.Conforms`) is that of expressions without members, sizes, conditions,
assignments and commas: no expression that is written here has tokens of those.

**Theorem (`CTree.eq_of_yield`).** The grammar is unambiguous: trees with the same tokens are the
same.

Tokens are read back by recursive descent (`CReader`). Operands are read first, as a list with the
operators between them, and the list is joined by how tightly the operators bind. The induction is
on the tree: an operand to which suffixes may be added is read together with those that follow it
(`CReader.takes_suffixable`).
-/

namespace KilnLang

open CLexer CDeclaration

/-! ## Trees -/

/-- How tightly a binary operator of C binds. -/
def BinaryOp.precedence : BinaryOp → Nat
  | .or => 1
  | .and => 2
  | .bitOr => 3
  | .bitXor => 4
  | .bitAnd => 5
  | .eq | .ne => 6
  | .lt | .le | .gt | .ge => 7
  | .shl | .shr => 8
  | .add | .sub => 9
  | .mul | .div | .rem => 10

/-- A tree of the grammar of expressions. -/
inductive CTree where
  | leaf (token : CLexeme)
  | group (inner : CTree)
  | index (base position : CTree)
  | call (callee : CTree) (args : List CTree)
  | suffixed (base : CTree) (op : String)
  | prefixed (op : String) (inner : CTree)
  | cast (type : List CLexeme) (inner : CTree)
  | listing (type : List CLexeme) (items : List CTree)
  | binary (left : CTree) (op : BinaryOp) (right : CTree)
  deriving Inhabited

/-- The keywords of C that are not words of types. -/
def reservedWords : List String :=
  ["auto", "break", "case", "const", "continue", "default", "do", "else", "enum", "extern", "for",
    "goto", "if", "inline", "register", "restrict", "return", "sizeof", "static", "struct",
    "switch", "typedef", "union", "volatile", "while", "_Alignas", "_Alignof", "_Atomic",
    "_Generic", "_Imaginary", "_Noreturn", "_Static_assert", "_Thread_local"]

/-- The unary operators before an operand of any kind. -/
def unaryMarks : List String := ["&", "*", "+", "-", "~", "!"]

/-- The operators before and after an operand. -/
def stepMarks : List String := ["++", "--"]

section Grammar

variable (isType : String → Bool)

/-- Whether the word may name an operand. -/
def isOperandName (w : String) : Bool := !reservedWords.contains w && !isKeyword w && !isType w

/-- A token that is an operand by itself. -/
def IsOperandToken : CLexeme → Prop
  | .word w => isOperandName isType w
  | .number _ | .quoted _ => True
  | .punct _ => False

/-- Whether what is in parentheses is a type. -/
def startsType : List CLexeme → Bool
  | .word w :: _ => isKeyword w || isType w
  | _ => false

/-- The tokens between parentheses are those of a type without a name. -/
def IsTypeName (ts : List CLexeme) : Prop :=
  ∃ type, ∀ rest, Takes (declaration isType (ts ++ .punct ")" :: rest)) ("", type)
    (.punct ")" :: rest)

end Grammar

namespace CTree

/-- The level of a tree in the grammar: of binary operators, casts, unary operators, and of what
suffixes may be added to. -/
def level : CTree → Nat
  | .binary _ op _ => op.precedence
  | .cast _ _ => 11
  | .prefixed _ _ => 12
  | .leaf _ | .group _ | .index _ _ | .call _ _ | .suffixed _ _ | .listing _ _ => 13

mutual

/-- The tokens of a tree. -/
def yield : CTree → List CLexeme
  | .leaf token => [token]
  | .group inner => .punct "(" :: (inner.yield ++ [.punct ")"])
  | .index base position => base.yield ++ .punct "[" :: (position.yield ++ [.punct "]"])
  | .call callee args => callee.yield ++ .punct "(" :: (yieldEach args ++ [.punct ")"])
  | .suffixed base op => base.yield ++ [.punct op]
  | .prefixed op inner => .punct op :: inner.yield
  | .cast type inner => .punct "(" :: (type ++ .punct ")" :: inner.yield)
  | .listing type items => .punct "(" :: (type ++ .punct ")" :: .punct "\x7b" ::
      (yieldEach items ++ [.punct "\x7d"]))
  | .binary left op right => left.yield ++ .punct op.symbol :: right.yield

/-- The tokens of trees with commas between them. -/
def yieldEach : List CTree → List CLexeme
  | [] => []
  | [t] => t.yield
  | t :: ts => t.yield ++ .punct "," :: yieldEach ts

end

mutual

/-- The grammar of expressions. Binary operators take operands on their left that bind as tightly as
they do, and tighter ones on their right. -/
def Conforms (isType : String → Bool) : CTree → Prop
  | .leaf token => IsOperandToken isType token
  | .group inner => inner.Conforms isType
  | .index base position => 13 ≤ base.level ∧ base.Conforms isType ∧ position.Conforms isType
  | .call callee args => 13 ≤ callee.level ∧ callee.Conforms isType ∧ ConformsEach isType args
  | .suffixed base op => op ∈ stepMarks ∧ 13 ≤ base.level ∧ base.Conforms isType
  | .prefixed op inner =>
    (op ∈ stepMarks ∧ 12 ≤ inner.level ∨ op ∈ unaryMarks ∧ 11 ≤ inner.level) ∧
      inner.Conforms isType
  | .cast type inner => IsTypeName isType type ∧ 11 ≤ inner.level ∧ inner.Conforms isType
  | .listing type items => IsTypeName isType type ∧ items ≠ [] ∧ ConformsEach isType items
  | .binary left op right => op.precedence ≤ left.level ∧ op.precedence < right.level ∧
      left.Conforms isType ∧ right.Conforms isType

/-- All trees conform to the grammar. -/
def ConformsEach (isType : String → Bool) : List CTree → Prop
  | [] => True
  | t :: ts => t.Conforms isType ∧ ConformsEach isType ts

end

/-! ### Operands and the operators between them -/

/-- A first operand, and the others with the operators before them. -/
abbrev Operands := CTree × List (BinaryOp × CTree)

/-- The operands of a tree. -/
def split : CTree → Operands
  | .binary left op right => (left.split.1, left.split.2 ++ (op, right.split.1) :: right.split.2)
  | t => (t, [])

/-- The tree with an operator and another operand after it. -/
def adjoin : CTree → BinaryOp × CTree → CTree
  | .binary left op right, o =>
    if op.precedence < o.1.precedence then .binary left op (right.adjoin o)
    else .binary (.binary left op right) o.1 o.2
  | t, o => .binary t o.1 o.2

/-- The tree of operands. -/
def join (c : Operands) : CTree := c.2.foldl adjoin c.1

theorem precedence_le (op : BinaryOp) : op.precedence ≤ 10 := by cases op <;> decide

/-- The operators between the operands bind as tightly as the tree does. -/
theorem level_le_of_mem_split {isType : String → Bool} : ∀ {t : CTree}, t.Conforms isType →
    ∀ o ∈ t.split.2, t.level ≤ o.1.precedence
  | .binary left op right, h, o, ho => by
    rcases List.mem_append.mp ho with ho | ho
    · exact h.1.trans (level_le_of_mem_split h.2.2.1 o ho)
    · rcases List.mem_cons.mp ho with rfl | ho
      · exact Nat.le_refl _
      · exact h.2.1.le.trans (level_le_of_mem_split h.2.2.2 o ho)

/-- Operands after operators that bind tighter are added on the right. -/
theorem foldl_adjoin_binary {left : CTree} {op : BinaryOp} {more : List (BinaryOp × CTree)}
    (h : ∀ o ∈ more, op.precedence < o.1.precedence) (right : CTree) :
    more.foldl adjoin (.binary left op right) = .binary left op (more.foldl adjoin right) := by
  induction more generalizing right with
  | nil => rfl
  | cons o more ih =>
    obtain ⟨ho, hmore⟩ := List.forall_mem_cons.mp h
    rw [List.foldl_cons, List.foldl_cons, adjoin, if_pos ho, ih hmore]

theorem adjoin_of_le {t : CTree} {o : BinaryOp × CTree} (h : o.1.precedence ≤ t.level) :
    t.adjoin o = .binary t o.1 o.2 := by
  cases t with
  | binary left op right => exact if_neg (Nat.not_lt.mpr h)
  | _ => rfl

/-- **Precedence.** A tree of the grammar is the one that its operands are joined to. -/
theorem join_split {isType : String → Bool} : ∀ {t : CTree}, t.Conforms isType →
    join t.split = t
  | .binary left op right, h => by
    have hleft := join_split h.2.2.1
    have hright := join_split h.2.2.2
    have htighter : ∀ o ∈ right.split.2, op.precedence < o.1.precedence := fun o ho =>
      h.2.1.trans_le (level_le_of_mem_split h.2.2.2 o ho)
    rw [join] at hleft hright
    rw [join, split, List.foldl_append, List.foldl_cons, hleft, adjoin_of_le h.1,
      foldl_adjoin_binary htighter, hright]
  | .leaf _, _ | .group _, _ | .index _ _, _ | .call _ _, _ | .suffixed _ _, _ | .prefixed _ _, _
  | .cast _ _, _ | .listing _ _, _ => rfl

end CTree

/-! ## Reading -/

namespace CReader

open CTree (Operands join)

/-- The binary operator with a spelling. -/
def binaryOp? (p : String) : Option BinaryOp :=
  [.add, .sub, .mul, .div, .rem, .eq, .ne, .lt, .le, .gt, .ge, .and, .or, .bitAnd, .bitOr, .bitXor,
    .shl, .shr].find? (·.symbol == p)

/-- A token that is read next leaves fewer tokens still. -/
theorem length_succ_lt {α : Type} {bound : Nat} (r : Reading α bound) {token : CLexeme}
    {rest : List CLexeme} (h : r.rest = token :: rest) : rest.length + 1 < bound := by
  have hfits := r.fits
  rwa [h] at hfits

variable (isType : String → Bool)

mutual

/-- Reads an operand. -/
def operand : (ts : List CLexeme) → Option (Reading CTree ts.length)
  | [] => none
  | .punct "(" :: ts =>
    if startsType isType ts then do
      let type ← declaration isType ts
      match h : type.rest with
      | .punct ")" :: .punct "\x7b" :: rest => do
        have : rest.length < ts.length :=
          Nat.lt_of_succ_lt (Nat.lt_of_succ_lt (length_succ_lt type h))
        let items ← items "\x7d" rest
        have := items.fits.trans this
        let s ← suffixes (.listing (ts.take (ts.length - type.rest.length)) items.value) items.rest
        some ⟨s.value, s.rest, Nat.lt_succ_of_lt (s.fits.trans_le this)⟩
      | .punct ")" :: rest => do
        have : rest.length < ts.length := Nat.lt_of_succ_lt (length_succ_lt type h)
        let inner ← operand rest
        some ⟨.cast (ts.take (ts.length - type.rest.length)) inner.value, inner.rest,
          Nat.lt_succ_of_lt (inner.fits.trans this)⟩
      | _ => none
    else do
      let inner ← chain ts
      match h : inner.rest with
      | .punct ")" :: rest => do
        have : rest.length < ts.length := Nat.lt_of_succ_lt (length_succ_lt inner h)
        let s ← suffixes (.group (join inner.value)) rest
        some ⟨s.value, s.rest, Nat.lt_succ_of_lt (s.fits.trans_le this)⟩
      | _ => none
  | .punct op :: ts => do
    let inner ← operand ts
    some ⟨.prefixed op inner.value, inner.rest, Nat.lt_succ_of_lt inner.fits⟩
  | token :: ts => do
    let s ← suffixes (.leaf token) ts
    some ⟨s.value, s.rest, s.fits⟩
termination_by ts => 3 * ts.length
decreasing_by all_goals grind

/-- Reads suffixes, and adds them to an operand. -/
def suffixes (base : CTree) : (ts : List CLexeme) → Option (Reading CTree (ts.length + 1))
  | .punct "[" :: ts => do
    let position ← chain ts
    match h : position.rest with
    | .punct "]" :: rest => do
      have : rest.length < ts.length := Nat.lt_of_succ_lt (length_succ_lt position h)
      let s ← suffixes (.index base (join position.value)) rest
      some ⟨s.value, s.rest, by grind [s.fits]⟩
    | _ => none
  | .punct "(" :: .punct ")" :: ts => do
    let s ← suffixes (.call base []) ts
    some ⟨s.value, s.rest, by grind [s.fits]⟩
  | .punct "(" :: ts => do
    let args ← items ")" ts
    have := args.fits
    let s ← suffixes (.call base args.value) args.rest
    some ⟨s.value, s.rest, by grind [s.fits]⟩
  | .punct "++" :: ts => do
    let s ← suffixes (.suffixed base "++") ts
    some ⟨s.value, s.rest, by grind [s.fits]⟩
  | .punct "--" :: ts => do
    let s ← suffixes (.suffixed base "--") ts
    some ⟨s.value, s.rest, by grind [s.fits]⟩
  | ts => some ⟨base, ts, Nat.lt_succ_self _⟩
termination_by ts => 3 * ts.length
decreasing_by all_goals grind

/-- Reads expressions up to what closes their list. -/
def items (close : String) (ts : List CLexeme) : Option (Reading (List CTree) ts.length) := do
  let first ← chain ts
  match h : first.rest with
  | .punct "," :: rest => do
    have : rest.length < ts.length := Nat.lt_of_succ_lt (length_succ_lt first h)
    let more ← items close rest
    some ⟨join first.value :: more.value, more.rest, by grind [more.fits]⟩
  | .punct p :: rest =>
    if p == close then
      some ⟨[join first.value], rest, Nat.lt_of_succ_lt (length_succ_lt first h)⟩
    else none
  | _ => none
termination_by 3 * ts.length + 2
decreasing_by all_goals grind

/-- Reads operands and the operators between them. -/
def chain (ts : List CLexeme) : Option (Reading Operands ts.length) := do
  let first ← operand ts
  have := first.fits
  let more ← tail first.rest
  some ⟨(first.value, more.value), more.rest, by grind [more.fits]⟩
termination_by 3 * ts.length + 1
decreasing_by all_goals grind

/-- Reads operators and the operands after them. -/
def tail : (ts : List CLexeme) → Option (Reading (List (BinaryOp × CTree)) (ts.length + 1))
  | .punct p :: ts =>
    match binaryOp? p with
    | none => some ⟨[], .punct p :: ts, Nat.lt_succ_self _⟩
    | some op => do
      let right ← operand ts
      have := right.fits
      let more ← tail right.rest
      some ⟨(op, right.value) :: more.value, more.rest,
        Nat.lt_succ_of_lt (Nat.lt_succ_of_lt ((Nat.le_of_lt_succ more.fits).trans_lt this))⟩
  | ts => some ⟨[], ts, Nat.lt_succ_self _⟩
termination_by ts => 3 * ts.length
decreasing_by all_goals grind

end

variable {isType : String → Bool} {ts rest rest' : List CLexeme} {t inner : CTree}

theorem binaryOp?_symbol (op : BinaryOp) : binaryOp? op.symbol = some op := by
  cases op <;> decide +kernel

theorem takes_leaf {token : CLexeme} (htoken : ∀ p, token ≠ .punct p)
    (h : Takes (suffixes isType (.leaf token) ts) t rest) :
    Takes (operand isType (token :: ts)) t rest := by
  obtain ⟨fits, h⟩ := h
  rw [operand, h]
  · exact ⟨_, rfl⟩
  · exact fun heq => htoken _ heq
  · exact fun p heq => htoken p heq

theorem takes_prefixed {op : String} (hop : op ≠ "(") (h : Takes (operand isType ts) inner rest) :
    Takes (operand isType (.punct op :: ts)) (.prefixed op inner) rest := by
  obtain ⟨fits, h⟩ := h
  rw [operand, h]
  · exact ⟨_, rfl⟩
  · simpa using hop

theorem takes_group {c : Operands} (hstarts : startsType isType ts = false)
    (hinner : Takes (chain isType ts) c (.punct ")" :: rest))
    (h : Takes (suffixes isType (.group (join c)) rest) t rest') :
    Takes (operand isType (.punct "(" :: ts)) t rest' := by
  obtain ⟨fits, hinner⟩ := hinner
  obtain ⟨fits', h⟩ := h
  rw [operand, if_neg (ne_true_of_eq_false hstarts), hinner]
  simp only [Option.bind_eq_bind, Option.bind_some]
  rw [h]
  exact ⟨_, rfl⟩

/-- What is read as a type starts with a word for one. -/
theorem startsType_of_takes {type : String × CType}
    (h : Takes (declaration isType ts) type rest) : startsType isType ts := by
  obtain ⟨fits, h⟩ := h
  rw [declaration] at h
  obtain ⟨s, hs, -⟩ := Option.bind_eq_some_iff.mp h
  revert hs
  unfold specifier
  split
  · rename_i w more
    split_ifs with hkeyword htype
    · simp [startsType, hkeyword]
    · simp [startsType, htype]
    · rintro ⟨⟩
  · rintro ⟨⟩

theorem take_before (type ts : List CLexeme) :
    (type ++ ts).take ((type ++ ts).length - ts.length) = type := by
  rw [List.length_append, Nat.add_sub_cancel, List.take_left]

theorem takes_cast {type : List CLexeme} (htype : IsTypeName isType type)
    (hlisting : ts.head? ≠ some (.punct "\x7b")) (h : Takes (operand isType ts) inner rest) :
    Takes (operand isType (.punct "(" :: (type ++ .punct ")" :: ts))) (.cast type inner) rest := by
  obtain ⟨name, htype⟩ := htype
  have hstarts := startsType_of_takes (htype ts)
  obtain ⟨fits, hread⟩ := htype ts
  obtain ⟨fits', h⟩ := h
  rw [operand, if_pos hstarts, hread]
  simp only [Option.bind_eq_bind, Option.bind_some]
  split
  · rename_i more heq
    obtain rfl := (List.cons.inj heq).2
    exact absurd rfl hlisting
  · rename_i more _ heq
    obtain rfl := (List.cons.inj heq).2
    rw [h, take_before]
    exact ⟨_, rfl⟩
  · rename_i hother
    exact absurd rfl (hother ts)

theorem takes_listing {type : List CLexeme} {items : List CTree} (htype : IsTypeName isType type)
    (hitems : Takes (CReader.items isType "\x7d" ts) items rest)
    (h : Takes (suffixes isType (.listing type items) rest) t rest') :
    Takes (operand isType (.punct "(" :: (type ++ .punct ")" :: .punct "\x7b" :: ts))) t rest' := by
  obtain ⟨name, htype⟩ := htype
  have hstarts := startsType_of_takes (htype (.punct "\x7b" :: ts))
  obtain ⟨fits, hread⟩ := htype (.punct "\x7b" :: ts)
  obtain ⟨fits', hitems⟩ := hitems
  obtain ⟨fits'', h⟩ := h
  rw [operand, if_pos hstarts, hread]
  simp only [Option.bind_eq_bind, Option.bind_some]
  rw [hitems]
  simp only [Option.bind_some, take_before]
  rw [h]
  exact ⟨_, rfl⟩

theorem takes_index {base : CTree} {c : Operands}
    (hposition : Takes (chain isType ts) c (.punct "]" :: rest))
    (h : Takes (suffixes isType (.index base (join c)) rest) t rest') :
    Takes (suffixes isType base (.punct "[" :: ts)) t rest' := by
  obtain ⟨fits, hposition⟩ := hposition
  obtain ⟨fits', h⟩ := h
  rw [suffixes, hposition]
  simp only [Option.bind_eq_bind, Option.bind_some]
  rw [h]
  exact ⟨_, rfl⟩

theorem takes_call_nil {base : CTree} (h : Takes (suffixes isType (.call base []) ts) t rest) :
    Takes (suffixes isType base (.punct "(" :: .punct ")" :: ts)) t rest := by
  obtain ⟨fits, h⟩ := h
  rw [suffixes, h]
  exact ⟨_, rfl⟩

theorem takes_call {base : CTree} {args : List CTree} (hsome : ts.head? ≠ some (.punct ")"))
    (hargs : Takes (items isType ")" ts) args rest)
    (h : Takes (suffixes isType (.call base args) rest) t rest') :
    Takes (suffixes isType base (.punct "(" :: ts)) t rest' := by
  obtain ⟨fits, hargs⟩ := hargs
  obtain ⟨fits', h⟩ := h
  rw [suffixes, hargs]
  · simp only [Option.bind_eq_bind, Option.bind_some]
    rw [h]
    exact ⟨_, rfl⟩
  · rintro more rfl
    exact hsome rfl

theorem takes_step {base : CTree} {op : String} (hop : op ∈ stepMarks)
    (h : Takes (suffixes isType (.suffixed base op) ts) t rest) :
    Takes (suffixes isType base (.punct op :: ts)) t rest := by
  obtain ⟨fits, h⟩ := h
  rcases List.mem_pair.mp hop with rfl | rfl
  · rw [suffixes, h]
    exact ⟨_, rfl⟩
  · rw [suffixes, h]
    exact ⟨_, rfl⟩

/-- The tokens do not start with a suffix. -/
def EndsOperand (ts : List CLexeme) : Prop :=
  ∀ p ∈ ["[", "(", "++", "--"], ts.head? ≠ some (.punct p)

theorem takes_no_suffix {base : CTree} (h : EndsOperand ts) :
    Takes (suffixes isType base ts) base ts := by
  rw [suffixes]
  · exact ⟨_, rfl⟩
  · rintro more rfl
    exact h "[" (by decide) rfl
  · rintro more rfl
    exact h "(" (by decide) rfl
  · rintro more rfl
    exact h "(" (by decide) rfl
  · rintro more rfl
    exact h "++" (by decide) rfl
  · rintro more rfl
    exact h "--" (by decide) rfl

theorem takes_chain {more : List (BinaryOp × CTree)} (hfirst : Takes (operand isType ts) t rest)
    (hmore : Takes (tail isType rest) more rest') : Takes (chain isType ts) (t, more) rest' := by
  obtain ⟨fits, hfirst⟩ := hfirst
  obtain ⟨fits', hmore⟩ := hmore
  rw [chain, hfirst]
  simp only [Option.bind_eq_bind, Option.bind_some]
  rw [hmore]
  exact ⟨_, rfl⟩

theorem takes_operator {c : Operands} (op : BinaryOp) (h : Takes (chain isType ts) c rest) :
    Takes (tail isType (.punct op.symbol :: ts)) ((op, c.1) :: c.2) rest := by
  obtain ⟨fits, h⟩ := h
  rw [chain] at h
  obtain ⟨first, hfirst, h⟩ := Option.bind_eq_some_iff.mp h
  obtain ⟨more, hmore, h⟩ := Option.bind_eq_some_iff.mp h
  cases h
  rw [tail, binaryOp?_symbol]
  simp only [Option.bind_eq_bind]
  rw [hfirst]
  simp only [Option.bind_some]
  rw [hmore]
  exact ⟨_, rfl⟩

/-- The tokens do not start with a binary operator. -/
def EndsChain (ts : List CLexeme) : Prop := ∀ op : BinaryOp, ts.head? ≠ some (.punct op.symbol)

theorem takes_no_operator (h : EndsChain ts) : Takes (tail isType ts) [] ts := by
  unfold tail
  split
  · rename_i p more
    have hnone : binaryOp? p = none := by
      refine List.find?_eq_none.mpr fun op _ heq => h op ?_
      rw [eq_of_beq heq]
      rfl
    rw [hnone]
    exact ⟨_, rfl⟩
  · exact ⟨_, rfl⟩

theorem takes_last_item {c : Operands} {close : String} (hclose : close ≠ ",")
    (h : Takes (chain isType ts) c (.punct close :: rest)) :
    Takes (items isType close ts) [join c] rest := by
  obtain ⟨fits, h⟩ := h
  rw [items, h]
  simp only [Option.bind_eq_bind, Option.bind_some, beq_self_eq_true, if_true]
  exact ⟨_, rfl⟩

theorem takes_item {c : Operands} {close : String} {more : List CTree}
    (h : Takes (chain isType ts) c (.punct "," :: rest))
    (hmore : Takes (items isType close rest) more rest') :
    Takes (items isType close ts) (join c :: more) rest' := by
  obtain ⟨fits, h⟩ := h
  obtain ⟨fits', hmore⟩ := hmore
  rw [items, h]
  simp only [Option.bind_eq_bind, Option.bind_some]
  rw [hmore]
  exact ⟨_, rfl⟩

/-! ### What trees start with -/

/-- The marks that an expression may start with. -/
def openingMarks : List String := "(" :: (stepMarks ++ unaryMarks)

/-- The token starts an expression. -/
def StartsOperand (isType : String → Bool) (token : CLexeme) : Prop :=
  IsOperandToken isType token ∨ ∃ p ∈ openingMarks, token = .punct p

theorem exists_first : ∀ {t : CTree}, t.Conforms isType →
    ∃ token more, t.yield = token :: more ∧ StartsOperand isType token
  | .leaf token, h => ⟨token, [], rfl, .inl h⟩
  | .group _, _ | .cast _ _, _ | .listing _ _, _ => ⟨_, _, rfl, .inr ⟨"(", by decide, rfl⟩⟩
  | .prefixed op _, h => by
    have hmem : op ∈ stepMarks ++ unaryMarks :=
      List.mem_append.mpr (h.1.imp And.left And.left)
    exact ⟨_, _, rfl, .inr ⟨op, List.mem_cons_of_mem _ hmem, rfl⟩⟩
  | .index base _, h => by
    obtain ⟨token, more, hyield, hstarts⟩ := exists_first h.2.1
    exact ⟨token, _, by rw [CTree.yield, hyield]; rfl, hstarts⟩
  | .call callee _, h => by
    obtain ⟨token, more, hyield, hstarts⟩ := exists_first h.2.1
    exact ⟨token, _, by rw [CTree.yield, hyield]; rfl, hstarts⟩
  | .suffixed base _, h => by
    obtain ⟨token, more, hyield, hstarts⟩ := exists_first h.2.2
    exact ⟨token, _, by rw [CTree.yield, hyield]; rfl, hstarts⟩
  | .binary left _ _, h => by
    obtain ⟨token, more, hyield, hstarts⟩ := exists_first h.2.2.1
    exact ⟨token, _, by rw [CTree.yield, hyield]; rfl, hstarts⟩

theorem startsType_yield (h : t.Conforms isType) : startsType isType (t.yield ++ ts) = false := by
  obtain ⟨token, more, hyield, hstarts⟩ := exists_first h
  rw [hyield]
  rcases hstarts with hoperand | ⟨p, -, rfl⟩
  · cases token with
    | word w =>
      have hname : isOperandName isType w := hoperand
      simp only [isOperandName, Bool.and_eq_true, Bool.not_eq_true'] at hname
      exact Bool.or_eq_false_iff.mpr ⟨hname.1.2, hname.2⟩
    | _ => rfl
  · rfl

theorem head?_yield_ne (h : t.Conforms isType) {p : String} (hp : p ∉ openingMarks) :
    (t.yield ++ ts).head? ≠ some (.punct p) := by
  obtain ⟨token, more, hyield, hstarts⟩ := exists_first h
  rw [hyield]
  rintro ⟨⟩
  rcases hstarts with hoperand | ⟨q, hq, heq⟩
  · exact hoperand
  · cases heq
    exact hp hq

/-! ### Reading trees -/

/-- The marks after a whole expression. -/
def closingMarks : List String := [")", "]", "\x7d", ","]

theorem endsOperand_closing {p : String} (hp : p ∈ closingMarks) :
    EndsOperand (.punct p :: ts) := by
  have hmarks : ∀ p ∈ closingMarks, ∀ q ∈ ["[", "(", "++", "--"], p ≠ q := by decide
  rintro q hq ⟨⟩
  exact hmarks p hp p hq rfl

theorem endsOperand_operator (op : BinaryOp) : EndsOperand (.punct op.symbol :: ts) := by
  have hmarks : ∀ q ∈ ["[", "(", "++", "--"], op.symbol ≠ q := by cases op <;> decide
  intro q hq heq
  exact hmarks q hq (CLexeme.punct.inj (Option.some.inj heq))

theorem endsChain_closing {p : String} (hp : p ∈ closingMarks) : EndsChain (.punct p :: ts) := by
  have hmarks : ∀ op : BinaryOp, op.symbol ∉ closingMarks := by
    intro op
    cases op <;> decide
  intro op heq
  rw [CLexeme.punct.inj (Option.some.inj heq)] at hp
  exact hmarks op hp

mutual

/-- An operand that suffixes may be added to is read together with those that follow it. -/
theorem takes_suffixable : ∀ (t : CTree) {ts rest : List CLexeme} {u : CTree},
    t.Conforms isType → 13 ≤ t.level → Takes (suffixes isType t ts) u rest →
      Takes (operand isType (t.yield ++ ts)) u rest
  | .leaf token, ts, rest, u, h, _, hsuffixes => by
    refine takes_leaf ?_ hsuffixes
    rintro p rfl
    exact h
  | .group inner, ts, rest, u, h, _, hsuffixes => by
    rw [CTree.yield, List.cons_append, List.append_assoc]
    refine takes_group (startsType_yield h) (takes_whole inner h (by decide)) ?_
    rwa [@CTree.join_split isType inner h]
  | .index base position, ts, rest, u, h, _, hsuffixes => by
    rw [CTree.yield, List.append_assoc, List.cons_append, List.append_assoc]
    refine takes_suffixable base h.2.1 h.1 (takes_index (takes_whole position h.2.2 (by decide)) ?_)
    rwa [CTree.join_split h.2.2]
  | .call callee [], ts, rest, u, h, _, hsuffixes => by
    rw [CTree.yield, List.append_assoc]
    exact takes_suffixable callee h.2.1 h.1 (takes_call_nil hsuffixes)
  | .call callee (arg :: args), ts, rest, u, h, _, hsuffixes => by
    rw [CTree.yield, List.append_assoc, List.cons_append, List.append_assoc]
    refine takes_suffixable callee h.2.1 h.1 (takes_call ?_
      (takes_items (arg :: args) h.2.2 (List.cons_ne_nil _ _) (by decide)) hsuffixes)
    cases args with
    | nil => exact head?_yield_ne h.2.2.1 (by decide)
    | cons next args =>
      rw [CTree.yieldEach, List.append_assoc]
      · exact head?_yield_ne h.2.2.1 (by decide)
      · exact List.cons_ne_nil next args
  | .suffixed base op, ts, rest, u, h, _, hsuffixes => by
    rw [CTree.yield, List.append_assoc]
    exact takes_suffixable base h.2.2 h.2.1 (takes_step h.1 hsuffixes)
  | .listing type items, ts, rest, u, h, _, hsuffixes => by
    have hyield : (CTree.listing type items).yield ++ ts = .punct "(" :: (type ++ .punct ")" ::
        .punct "\x7b" :: (CTree.yieldEach items ++ .punct "\x7d" :: ts)) := by simp [CTree.yield]
    rw [hyield]
    exact takes_listing h.1 (takes_items items h.2.2 h.2.1 (by decide)) hsuffixes
termination_by t => 4 * sizeOf t
decreasing_by
  all_goals simp only [CTree.group.sizeOf_spec, CTree.index.sizeOf_spec, CTree.call.sizeOf_spec,
    CTree.suffixed.sizeOf_spec, CTree.listing.sizeOf_spec]
  all_goals omega

/-- An operand is read up to what does not go on with it. -/
theorem takes_operand : ∀ (t : CTree) {ts : List CLexeme}, t.Conforms isType → 11 ≤ t.level →
    EndsOperand ts → Takes (operand isType (t.yield ++ ts)) t ts
  | .prefixed op inner, ts, h, _, hends => by
    have hop : op ≠ "(" ∧ 11 ≤ inner.level := by
      rcases h.1 with ⟨hop, hlevel⟩ | ⟨hop, hlevel⟩
      · exact ⟨ne_of_mem_of_not_mem hop (by decide), (by decide : 11 ≤ 12).trans hlevel⟩
      · exact ⟨ne_of_mem_of_not_mem hop (by decide), hlevel⟩
    exact takes_prefixed hop.1 (takes_operand inner h.2 hop.2 hends)
  | .cast type inner, ts, h, _, hends => by
    rw [CTree.yield, List.cons_append, List.append_assoc, List.cons_append]
    exact takes_cast h.1 (head?_yield_ne h.2.2 (by decide)) (takes_operand inner h.2.2 h.2.1 hends)
  | .binary _ op _, ts, _, hlevel, _ =>
    absurd hlevel (Nat.not_le.mpr (Nat.lt_succ_of_le (CTree.precedence_le op)))
  | .leaf _, ts, h, hlevel, hends | .group _, ts, h, hlevel, hends
  | .index _ _, ts, h, hlevel, hends | .call _ _, ts, h, hlevel, hends
  | .suffixed _ _, ts, h, hlevel, hends
  | .listing _ _, ts, h, hlevel, hends =>
    takes_suffixable _ h (Nat.le_refl 13) (takes_no_suffix hends)
termination_by t => 4 * sizeOf t + 1
decreasing_by
  · simp only [CTree.prefixed.sizeOf_spec]
    omega
  · simp only [CTree.cast.sizeOf_spec]
    omega
  all_goals omega

/-- The operands of a tree are read together with those that follow it. -/
theorem takes_split : ∀ (t : CTree) {ts rest : List CLexeme} {more : List (BinaryOp × CTree)},
    t.Conforms isType → EndsOperand ts → Takes (tail isType ts) more rest →
      Takes (chain isType (t.yield ++ ts)) (t.split.1, t.split.2 ++ more) rest
  | .binary left op right, ts, rest, more, h, hends, hmore => by
    have hright := takes_operator op (takes_split right h.2.2.2 hends hmore)
    have hleft := takes_split left h.2.2.1 (endsOperand_operator op) hright
    rw [CTree.yield, CTree.split, List.append_assoc, List.append_assoc]
    exact hleft
  | .leaf _, ts, rest, more, h, hends, hmore | .group _, ts, rest, more, h, hends, hmore
  | .index _ _, ts, rest, more, h, hends, hmore | .call _ _, ts, rest, more, h, hends, hmore
  | .suffixed _ _, ts, rest, more, h, hends, hmore | .prefixed _ _, ts, rest, more, h, hends, hmore
  | .cast _ _, ts, rest, more, h, hends, hmore | .listing _ _, ts, rest, more, h, hends, hmore =>
    takes_chain (takes_operand _ h (Nat.le_add_left 11 _) hends) hmore
termination_by t => 4 * sizeOf t + 2
decreasing_by
  iterate 2
    simp only [CTree.binary.sizeOf_spec]
    omega
  all_goals omega

/-- A tree is read up to what closes it. -/
theorem takes_whole (t : CTree) {p : String} {ts : List CLexeme} (h : t.Conforms isType)
    (hp : p ∈ closingMarks) :
    Takes (chain isType (t.yield ++ .punct p :: ts)) t.split (.punct p :: ts) := by
  have hmore := @takes_no_operator isType (.punct p :: ts) (endsChain_closing hp)
  have hsplit := takes_split t h (endsOperand_closing hp) hmore
  rw [List.append_nil] at hsplit
  exact hsplit
termination_by 4 * sizeOf t + 3
decreasing_by omega

/-- The trees of a list are read up to what closes it. -/
theorem takes_items : ∀ (trees : List CTree) {close : String} {ts : List CLexeme},
    CTree.ConformsEach isType trees → trees ≠ [] → close ∈ [")", "\x7d"] →
      Takes (items isType close (CTree.yieldEach trees ++ .punct close :: ts)) trees ts
  | [], _, _, _, hsome, _ => absurd rfl hsome
  | [t], close, ts, h, _, hclose => by
    have hmarks : ∀ p ∈ [")", "\x7d"], p ∈ closingMarks ∧ p ≠ "," := by decide
    have hlast := takes_last_item (hmarks close hclose).2
      (@takes_whole t close ts h.1 (hmarks close hclose).1)
    rwa [CTree.join_split h.1] at hlast
  | t :: u :: us, close, ts, h, _, hclose => by
    have hmore := @takes_items (u :: us) close ts h.2 (List.cons_ne_nil _ _) hclose
    have hitem := takes_item (takes_whole t h.1 (by decide)) hmore
    rw [CTree.join_split h.1] at hitem
    rw [CTree.yieldEach, List.append_assoc]
    · exact hitem
    · exact List.cons_ne_nil u us
termination_by trees => 4 * sizeOf trees
decreasing_by
  all_goals simp only [List.cons.sizeOf_spec]
  all_goals omega

end

end CReader

namespace CTree

open CReader

variable {isType : String → Bool}

/-- **The grammar is unambiguous.** Trees of the grammar with the same tokens are the same. -/
theorem eq_of_yield {t t' : CTree} (h : t.Conforms isType) (h' : t'.Conforms isType)
    (hyield : t.yield = t'.yield) : t = t' := by
  have hread := @takes_whole isType t ")" [] h (by decide)
  rw [hyield] at hread
  obtain ⟨_, hread⟩ := hread
  obtain ⟨_, hread'⟩ := @takes_whole isType t' ")" [] h' (by decide)
  have hsplit := (Reading.mk.inj (Option.some.inj (hread.symm.trans hread'))).1
  rw [← join_split h, hsplit, join_split h']

/-! ## Joined operands -/

/-- The tokens of operands and of the operators between them. -/
def operandsYield (c : Operands) : List CLexeme :=
  c.1.yield ++ c.2.flatMap fun o => .punct o.1.symbol :: o.2.yield

theorem operandsYield_single (t : CTree) : operandsYield (t, []) = t.yield := by
  simp [operandsYield]

theorem operandsYield_append (c c' : Operands) (op : BinaryOp) :
    operandsYield (c.1, c.2 ++ (op, c'.1) :: c'.2) =
      operandsYield c ++ .punct op.symbol :: operandsYield c' := by
  simp [operandsYield]

theorem operandsYield_cast (type : List CLexeme) (c : Operands) :
    operandsYield (.cast type c.1, c.2) =
      .punct "(" :: (type ++ .punct ")" :: operandsYield c) := by
  simp [operandsYield, yield]

theorem yield_adjoin : ∀ (t : CTree) (o : BinaryOp × CTree),
    (t.adjoin o).yield = t.yield ++ .punct o.1.symbol :: o.2.yield
  | .binary left op right, o => by
    rw [adjoin]
    split
    · rw [yield, yield, yield_adjoin right o, List.append_assoc, List.cons_append]
    · rfl
  | .leaf _, _ | .group _, _ | .index _ _, _ | .call _ _, _ | .suffixed _ _, _ | .prefixed _ _, _
  | .cast _ _, _ | .listing _ _, _ => rfl

theorem yield_join (c : Operands) : (join c).yield = operandsYield c := by
  obtain ⟨first, more⟩ := c
  induction more generalizing first with
  | nil => simp [join, operandsYield]
  | cons o more ih =>
    have hnext := ih (first.adjoin o)
    rw [join, List.foldl_cons]
    rw [join] at hnext
    rw [hnext, operandsYield, yield_adjoin, operandsYield, List.flatMap_cons, List.append_assoc]

/-- The tree may stand between binary operators. -/
def IsOperand (isType : String → Bool) (t : CTree) : Prop := t.Conforms isType ∧ 11 ≤ t.level

theorem conforms_adjoin : ∀ {t : CTree} {o : BinaryOp × CTree}, t.Conforms isType →
    IsOperand isType o.2 → (t.adjoin o).Conforms isType ∧
      ((t.adjoin o).level = t.level ∨ (t.adjoin o).level = o.1.precedence)
  | .binary left op right, o, h, ho => by
    have hright := ho.2.trans' (Nat.lt_succ_of_le (precedence_le o.1))
    rw [adjoin]
    split
    · rename_i hlt
      obtain ⟨hconforms, hlevel⟩ := conforms_adjoin h.2.2.2 ho
      refine ⟨⟨h.1, ?_, h.2.2.1, hconforms⟩, .inl rfl⟩
      rcases hlevel with hlevel | hlevel
      · rw [hlevel]
        exact h.2.1
      · rw [hlevel]
        exact hlt
    · rename_i hle
      exact ⟨⟨Nat.not_lt.mp hle, hright, h, ho.1⟩, .inr rfl⟩
  | .leaf _, o, h, ho | .group _, o, h, ho | .index _ _, o, h, ho | .call _ _, o, h, ho
  | .suffixed _ _, o, h, ho | .prefixed _ _, o, h, ho | .cast _ _, o, h, ho
  | .listing _ _, o, h, ho => by
    have hop := precedence_le o.1
    exact ⟨⟨hop.trans (by simp [level]), ho.2.trans' (Nat.lt_succ_of_le hop), h, ho.1⟩, .inr rfl⟩

/-- Operands that are joined make a tree of the grammar. -/
theorem conforms_join {c : Operands} (hfirst : c.1.Conforms isType)
    (hmore : ∀ o ∈ c.2, IsOperand isType o.2) : (join c).Conforms isType := by
  obtain ⟨first, more⟩ := c
  induction more generalizing first with
  | nil => exact hfirst
  | cons o more ih =>
    obtain ⟨ho, hmore⟩ := List.forall_mem_cons.mp hmore
    exact ih (first.adjoin o) (conforms_adjoin hfirst ho).1 hmore

/-! ## Parts -/

mutual

/-- The parts of a tree that is written from `start` on, with where each starts. -/
def parts (start : Nat) : CTree → List (Nat × CTree)
  | .leaf token => [(start, .leaf token)]
  | .group inner => (start, .group inner) :: inner.parts (start + 1)
  | .index base position => (start, .index base position) ::
      (base.parts start ++ position.parts (start + base.yield.length + 1))
  | .call callee args => (start, .call callee args) ::
      (callee.parts start ++ partsEach (start + callee.yield.length + 1) args)
  | .suffixed base op => (start, .suffixed base op) :: base.parts start
  | .prefixed op inner => (start, .prefixed op inner) :: inner.parts (start + 1)
  | .cast type inner => (start, .cast type inner) :: inner.parts (start + type.length + 2)
  | .listing type items => (start, .listing type items) ::
      partsEach (start + type.length + 3) items
  | .binary left op right => (start, .binary left op right) ::
      (left.parts start ++ right.parts (start + left.yield.length + 1))

/-- The parts of trees with commas between them. -/
def partsEach (start : Nat) : List CTree → List (Nat × CTree)
  | [] => []
  | t :: ts => t.parts start ++ partsEach (start + t.yield.length + 1) ts

end

/-- The parts of operands after operators. -/
def tailParts (start : Nat) : List (BinaryOp × CTree) → List (Nat × CTree)
  | [] => []
  | o :: more => o.2.parts (start + 1) ++ tailParts (start + 1 + o.2.yield.length) more

/-- The parts of operands. -/
def operandParts (start : Nat) (c : Operands) : List (Nat × CTree) :=
  c.1.parts start ++ tailParts (start + c.1.yield.length) c.2

theorem tailParts_append (start : Nat) (more more' : List (BinaryOp × CTree)) :
    tailParts start (more ++ more') = tailParts start more ++ tailParts
      (start + (more.flatMap fun o => .punct o.1.symbol :: o.2.yield).length) more' := by
  induction more generalizing start with
  | nil => rfl
  | cons o more ih =>
    rw [List.cons_append, tailParts, tailParts, ih, List.append_assoc, List.flatMap_cons]
    congr 3
    simp only [List.length_append, List.length_cons]
    omega

theorem operandParts_append (start : Nat) (c c' : Operands) (op : BinaryOp) :
    operandParts start (c.1, c.2 ++ (op, c'.1) :: c'.2) =
      operandParts start c ++ operandParts (start + (operandsYield c).length + 1) c' := by
  rw [operandParts, operandParts, operandParts, tailParts_append, tailParts, List.append_assoc,
    operandsYield, List.length_append, Nat.add_assoc start]

theorem mem_operandParts_cast {start : Nat} {type : List CLexeme} {c : Operands}
    {p : Nat × CTree} (hp : p ∈ operandParts (start + type.length + 2) c) :
    p ∈ operandParts start (.cast type c.1, c.2) := by
  rw [operandParts, List.mem_append] at hp ⊢
  refine hp.imp (List.mem_cons_of_mem _) fun hp => ?_
  convert hp using 2
  simp only [yield, List.length_append, List.length_cons]
  omega

theorem self_mem_parts (start : Nat) (t : CTree) : (start, t) ∈ t.parts start := by
  cases t <;> exact List.mem_cons_self

/-- Another operand changes no part but those that binary operators make. -/
theorem parts_adjoin : ∀ (t : CTree) {start : Nat} {o : BinaryOp × CTree},
    (∀ p ∈ t.parts start, 11 ≤ p.2.level → p ∈ (t.adjoin o).parts start) ∧
      ∀ p ∈ o.2.parts (start + t.yield.length + 1), p ∈ (t.adjoin o).parts start
  | .binary left op right, start, o => by
    rw [adjoin]
    split
    · obtain ⟨hright, ho⟩ := @parts_adjoin right (start + left.yield.length + 1) o
      constructor
      · intro p hp hlevel
        rw [parts, List.mem_cons, List.mem_append] at hp ⊢
        rcases hp with rfl | hp | hp
        · exact absurd hlevel (Nat.not_le.mpr (Nat.lt_succ_of_le (precedence_le op)))
        · exact .inr (.inl hp)
        · exact .inr (.inr (hright p hp hlevel))
      · intro p hp
        rw [parts, List.mem_cons, List.mem_append]
        refine .inr (.inr (ho p ?_))
        convert hp using 2
        simp only [yield, List.length_append, List.length_cons]
        omega
    · exact ⟨fun p hp _ => List.mem_cons_of_mem _ (List.mem_append_left _ hp),
        fun p hp => List.mem_cons_of_mem _ (List.mem_append_right _ hp)⟩
  | .leaf _, _, _ | .group _, _, _ | .index _ _, _, _ | .call _ _, _, _ | .suffixed _ _, _, _
  | .prefixed _ _, _, _ | .cast _ _, _, _ | .listing _ _, _, _ =>
    ⟨fun p hp _ => List.mem_cons_of_mem _ (List.mem_append_left _ hp),
      fun p hp => List.mem_cons_of_mem _ (List.mem_append_right _ hp)⟩

/-- **Operands stay whole.** The parts of operands are parts of the tree that they are joined to. -/
theorem mem_parts_join {start : Nat} {c : Operands} {p : Nat × CTree} (hlevel : 11 ≤ p.2.level)
    (hp : p ∈ operandParts start c) : p ∈ (join c).parts start := by
  obtain ⟨first, more⟩ := c
  induction more generalizing first with
  | nil => simpa [operandParts, tailParts, join] using hp
  | cons o more ih =>
    refine ih (first.adjoin o) ?_
    rw [operandParts, tailParts, List.mem_append, List.mem_append] at hp
    rw [operandParts, List.mem_append]
    rcases hp with hp | hp | hp
    · exact .inl ((parts_adjoin first).1 p hp hlevel)
    · exact .inl ((parts_adjoin first).2 p hp)
    · right
      convert hp using 2
      simp only [yield_adjoin, List.length_append, List.length_cons]
      omega

end CTree

end KilnLang
