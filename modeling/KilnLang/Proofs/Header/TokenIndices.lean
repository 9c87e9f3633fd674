import KilnLang.Proofs.Header.ByteScan

/-!
# The declarations of a header, token by token

Declarations by loops over the indices of their tokens, as a scan runs them: the tokens after an
index, and those between two indices, are cut out of the list. A step is `none` if it reads or cuts
out of range, and so is a loop that does not end; a look ahead may go behind the end. Where a
declaration is passed over because it is malformed, that is a value of its own, an inner `none`.

**Theorem (`declarations_eq`).** All of this goes well on every list of tokens, and gives what the
model reads.

An index stands for the tokens from there on (`StartsAt`). Each loop stops at an index where the
tokens start that the model is left with.
-/

namespace KilnLang.Header.Checked

/-! ## Places in a list of tokens -/

/-- The tokens between two indices, if these are in order and in range. -/
def tokensBetween? (ts : List CToken) (start stop : Nat) : Option (List CToken) :=
  if start ≤ stop ∧ stop ≤ ts.length then some ((ts.drop start).take (stop - start)) else none

/-- The tokens from the index on are `rest`. -/
def StartsAt (ts : List CToken) (index : Nat) (rest : List CToken) : Prop :=
  ∃ before, ts = before ++ rest ∧ before.length = index

theorem startsAt_zero (ts : List CToken) : StartsAt ts 0 ts := ⟨[], rfl, rfl⟩

namespace StartsAt

variable {ts part rest : List CToken} {t : CToken} {i : Nat}

theorem append (h : StartsAt ts i (part ++ rest)) : StartsAt ts (i + part.length) rest := by
  obtain ⟨before, rfl, rfl⟩ := h
  exact ⟨before ++ part, (List.append_assoc ..).symm, List.length_append⟩

theorem tail (h : StartsAt ts i (t :: rest)) : StartsAt ts (i + 1) rest :=
  append (show StartsAt ts i ([t] ++ rest) from h)

theorem length (h : StartsAt ts i rest) : i + rest.length = ts.length := by
  obtain ⟨before, rfl, rfl⟩ := h
  exact List.length_append.symm

/-- Fewer tokens start at a later index. -/
theorem lt_of_length {j : Nat} {more : List CToken} (h : StartsAt ts i rest)
    (h' : StartsAt ts j more) (hlength : more.length < rest.length) : i < j := by
  have := h.length
  have := h'.length
  omega

theorem lt (h : StartsAt ts i (t :: rest)) : i < ts.length := by
  rw [← h.length, List.length_cons]
  omega

theorem not_lt (h : StartsAt ts i []) : ¬ i < ts.length :=
  Nat.not_lt.mpr (Nat.le_of_eq h.length.symm)

theorem get? (h : StartsAt ts i rest) : ts[i]? = rest.head? := by
  obtain ⟨before, rfl, rfl⟩ := h
  rw [List.getElem?_append_right (Nat.le_refl _), Nat.sub_self, List.head?_eq_getElem?]

theorem first? (h : StartsAt ts i (t :: rest)) : ts[i]? = some t := h.get?

theorem between? (h : StartsAt ts i (part ++ rest)) :
    tokensBetween? ts i (i + part.length) = some part := by
  obtain ⟨before, rfl, rfl⟩ := h
  rw [tokensBetween?, if_pos (by simp), List.drop_left, Nat.add_sub_cancel_left,
    List.take_left]

theorem between?_end (h : StartsAt ts i rest) : tokensBetween? ts i ts.length = some rest := by
  rw [← h.length]
  have hall : StartsAt ts i (rest ++ []) := by rwa [List.append_nil]
  exact hall.between?

end StartsAt

/-! ## Attributes -/

/-- The index after the parenthesis that closes all, `depth` of which are open. -/
def parensEnd (ts : List CToken) (depth index : Nat) : Option Nat :=
  if index < ts.length then do
    let t ← ts[index]?
    if t = .punct '(' then parensEnd ts (depth + 1) (index + 1)
    else if t = .punct ')' then
      if depth = 0 then none
      else if depth = 1 then some (index + 1)
      else parensEnd ts (depth - 1) (index + 1)
    else parensEnd ts depth (index + 1)
  else some index
termination_by ts.length - index
decreasing_by all_goals omega

/-- The tokens from the index on, without attributes, after those in `out`. -/
def stripAttributes (ts out : List CToken) (index : Nat) : Option (List CToken) :=
  if index < ts.length then do
    let t ← ts[index]?
    if isOneOf attributeWords t ∧ ts[index + 1]? = some (.punct '(') then do
      let stop ← parensEnd ts 0 (index + 1)
      if index < stop then stripAttributes ts out stop else none
    else stripAttributes ts (out ++ [t]) (index + 1)
  else some out
termination_by ts.length - index
decreasing_by all_goals omega

section Attributes

variable {ts rest : List CToken} {i : Nat}

theorem exists_parensEnd (depth : Nat) (h : StartsAt ts i rest) :
    ∃ j, parensEnd ts (depth + 1) i = some j ∧ StartsAt ts j (skipParens depth rest) := by
  induction rest generalizing i depth with
  | nil => exact ⟨i, by rw [parensEnd, if_neg h.not_lt], h⟩
  | cons t rest ih =>
    rw [parensEnd, if_pos h.lt, bind_of_eq h.get?]
    by_cases hopen : t = .punct '('
    · subst hopen
      exact ih (depth + 1) h.tail
    by_cases hclose : t = .punct ')'
    · subst hclose
      rw [if_neg (by decide), if_pos rfl, if_neg (Nat.succ_ne_zero depth), skipParens]
      cases depth with
      | zero => exact ⟨i + 1, rfl, h.tail⟩
      | succ depth => exact ih depth h.tail
    · rw [if_neg hopen, if_neg hclose, skipParens]
      · exact ih depth h.tail
      · exact hopen
      · exact hclose

theorem stripAttributes_eq {out : List CToken} (h : StartsAt ts i rest) :
    stripAttributes ts out i = some (out ++ Header.stripAttributes rest) := by
  induction hlength : rest.length using Nat.strongRecOn generalizing rest out i with
  | ind n ih =>
    subst hlength
    cases rest with
    | nil => rw [stripAttributes, if_neg h.not_lt, Header.stripAttributes, List.append_nil]
    | cons t rest =>
      rw [stripAttributes, if_pos h.lt, bind_of_eq h.get?, h.tail.get?, Header.stripAttributes]
      split_ifs with hskip
      · obtain ⟨inner, rfl⟩ := List.head?_eq_some_iff.mp hskip.2
        obtain ⟨j, hj, hrest⟩ := exists_parensEnd 0 h.tail.tail
        have hfirst : parensEnd ts 0 (i + 1) = some j := by
          rw [parensEnd, if_pos h.tail.lt, bind_of_eq h.tail.get?, if_pos rfl, hj]
        have hle := skipParens_length 0 inner
        have hshorter : (skipParens 0 inner).length < (t :: .punct '(' :: inner).length := by
          simp only [List.length_cons]
          omega
        refine (bind_of_eq hfirst _).trans ?_
        rw [if_pos (h.lt_of_length hrest hshorter)]
        exact ih _ hshorter hrest rfl
      · rw [ih rest.length (Nat.lt_succ_self _) h.tail rfl]
        simp

end Attributes

/-! ## Base types -/

/-- The base type that words and a name give, and the tokens from the index on. -/
def baseEnd (ts : List CToken) (words : List String) (named : Option BaseType) (index : Nat) :
    Option (Option (BaseType × List CToken)) :=
  match named.or (ofBasicWords? words) with
  | none => some none
  | some base => do
    let rest ← tokensBetween? ts index ts.length
    return some (base, rest)

/-- Reads a base type from the index on. -/
def baseType (known : KnownTypes) (ts : List CToken) (words : List String)
    (named : Option BaseType) (index : Nat) : Option (Option (BaseType × List CToken)) :=
  if index < ts.length then do
    match ← ts[index]? with
    | .word w =>
      if qualifierWords.contains w then baseType known ts words named (index + 1)
      else if basicWords.contains w then
        if named.isSome then some none else baseType known ts (words ++ [w]) named (index + 1)
      else if !words.isEmpty || named.isSome then baseEnd ts words named index
      else if tagWords.contains w then
        match ts[index + 1]? with
        | some (.word _) => baseType known ts words (some .unknown) (index + 2)
        | _ => baseType known ts words (some .unknown) (index + 1)
      else baseType known ts words (some (ofTypeName known w)) (index + 1)
    | _ => baseEnd ts words named index
  else baseEnd ts words named index
termination_by ts.length - index
decreasing_by all_goals omega

section BaseTypes

variable {ts rest : List CToken} {i : Nat} {known : KnownTypes} {words : List String}
  {named : Option BaseType}

theorem baseEnd_eq (h : StartsAt ts i rest) :
    baseEnd ts words named i = some ((named.or (ofBasicWords? words)).map (·, rest)) := by
  rw [baseEnd]
  cases named.or (ofBasicWords? words) with
  | none => rfl
  | some base => exact bind_of_eq h.between?_end _

theorem baseType_word {w : String} (h : StartsAt ts i (.word w :: rest)) :
    baseType known ts words named i =
      if qualifierWords.contains w then baseType known ts words named (i + 1)
      else if basicWords.contains w then
        if named.isSome then some none else baseType known ts (words ++ [w]) named (i + 1)
      else if !words.isEmpty || named.isSome then baseEnd ts words named i
      else if tagWords.contains w then
        match rest.head? with
        | some (.word _) => baseType known ts words (some .unknown) (i + 2)
        | _ => baseType known ts words (some .unknown) (i + 1)
      else baseType known ts words (some (ofTypeName known w)) (i + 1) := by
  rw [baseType, if_pos h.lt, bind_of_eq h.first?, ← h.tail.get?]

theorem baseType_eq (h : StartsAt ts i rest) :
    baseType known ts words named i = some (Header.baseType known words named rest) := by
  fun_induction Header.baseType known words named rest generalizing i with
  | case1 words named w rest hqualifier ih => rw [baseType_word h, if_pos hqualifier, ih h.tail]
  | case2 words named w rest hqualifier hbasic hnamed =>
    rw [baseType_word h, if_neg hqualifier, if_pos hbasic, if_pos hnamed]
  | case3 words named w rest hqualifier hbasic hnamed ih =>
    rw [baseType_word h, if_neg hqualifier, if_pos hbasic, if_neg hnamed, ih h.tail]
  | case4 words named w rest hqualifier hbasic hread =>
    rw [baseType_word h, if_neg hqualifier, if_neg hbasic, if_pos hread, baseEnd_eq h]
  | case5 words named w hqualifier hbasic hread htag tag rest ih =>
    rw [baseType_word h, if_neg hqualifier, if_neg hbasic, if_neg hread, if_pos htag]
    exact ih h.tail.tail
  | case6 words named w hqualifier hbasic hread htag rest hplain ih =>
    rw [baseType_word h, if_neg hqualifier, if_neg hbasic, if_neg hread, if_pos htag]
    split
    · rename_i tag hhead
      obtain ⟨more, rfl⟩ := List.head?_eq_some_iff.mp hhead
      exact absurd rfl (hplain tag more)
    · exact ih h.tail
  | case7 words named w rest hqualifier hbasic hread htag ih =>
    rw [baseType_word h, if_neg hqualifier, if_neg hbasic, if_neg hread, if_neg htag, ih h.tail]
  | case8 words named rest hplain =>
    rw [← baseEnd_eq h, baseType]
    cases rest with
    | nil => rw [if_neg h.not_lt]
    | cons t rest =>
      rw [if_pos h.lt, bind_of_eq h.first?]
      cases t with
      | word w => exact absurd rfl (hplain w rest)
      | _ => rfl

end BaseTypes

/-! ## Declarators -/

/-- The number of stars from the index on, after `count` others, and the index after them. -/
def starsEnd (ts : List CToken) (count index : Nat) : Option (Nat × Nat) :=
  if index < ts.length then do
    let t ← ts[index]?
    if t = .punct '*' then starsEnd ts (count + 1) (index + 1)
    else if isOneOf qualifierWords t then starsEnd ts count (index + 1)
    else some (count, index)
  else some (count, index)
termination_by ts.length - index
decreasing_by all_goals omega

/-- The lengths of the arrays from the index on, after those in `lengths`, and the index after
them. -/
def arrayLengths (ts : List CToken) (lengths : List (Option Nat)) (index : Nat) :
    Option (Option (List (Option Nat) × Nat)) :=
  if index < ts.length ∧ ts[index]? = some (.punct '[') then do
    let rest ← tokensBetween? ts index ts.length
    match rest.findIdx? (· == .punct ']') with
    | none => some none
    | some close =>
      arrayLengths ts (lengths ++ [arrayLength? ts[index + 1]?]) (index + (close + 1))
  else some (some (lengths, index))
termination_by ts.length - index
decreasing_by all_goals omega

/-- The type of a declarator with its pointers and arrays; an array in a parameter is a pointer. -/
def typeBehind? (base : BaseType) (isParameter : Bool) (count : Nat)
    (lengths : List (Option Nat)) : Option Ty :=
  if isParameter && !lengths.isEmpty then pointerTo? base (count + 1)
  else (pointerTo? base count).map (lengths.foldr (fun length elem => .array elem length))

/-- The type that a declarator declares, unless it is `void`. -/
def declaredType? (base : BaseType) (isParameter : Bool) (count : Nat)
    (lengths : List (Option Nat)) : Option Ty :=
  match typeBehind? base isParameter count lengths with
  | none => none
  | some ty =>
    if ty.isVoid then none
    else
      match isParameter, ty with
      | true, .array _ _ => some (.ref ty)
      | _, _ => some ty

/-- A declarator with the name `name`, after which the index is. -/
def declaratorOf (base : BaseType) (ts : List CToken) (isParameter : Bool) (count : Nat)
    (name : String) (index : Nat) : Option (Option (Ty × String × List CToken)) := do
  match ← arrayLengths ts [] index with
  | none => return none
  | some (lengths, index) =>
    match declaredType? base isParameter count lengths with
    | none => return none
    | some ty => do
      let rest ← tokensBetween? ts index ts.length
      return some (ty, name, rest)

/-- A declarator; the name of a parameter may be missing. -/
def declarator (base : BaseType) (ts : List CToken) (isParameter : Bool) :
    Option (Option (Ty × String × List CToken)) := do
  let (count, index) ← starsEnd ts 0 0
  match ts[index]? with
  | some (.word name) => declaratorOf base ts isParameter count name (index + 1)
  | _ => if isParameter then declaratorOf base ts isParameter count "" index else return none

/-- The type of a parameter. -/
def parameter (known : KnownTypes) (ts : List CToken) : Option (Option Ty) := do
  match ← baseType known ts [] none 0 with
  | none => return none
  | some (base, rest) =>
    match ← declarator base rest true with
    | some (ty, _, []) => return some ty
    | _ => return none

section Declarators

variable {ts rest : List CToken} {i : Nat} {base : BaseType}

theorem exists_starsEnd (count : Nat) (h : StartsAt ts i rest) :
    ∃ j, starsEnd ts count i = some ((stars count rest).1, j) ∧
      StartsAt ts j (stars count rest).2 := by
  induction rest generalizing i count with
  | nil => exact ⟨i, by rw [starsEnd, if_neg h.not_lt]; rfl, h⟩
  | cons t rest ih =>
    rw [starsEnd, if_pos h.lt, bind_of_eq h.first?, stars]
    split_ifs with hstar hqualifier
    · exact ih (count + 1) h.tail
    · exact ih count h.tail
    · exact ⟨i, rfl, h⟩

/-- The first token of a kind is where the tokens before it end. -/
theorem position_cases (t : CToken) (rest : List CToken) :
    (rest.findIdx? (· == t) = none ∧ rest.dropWhile (· != t) = []) ∨
    ∃ before after, rest = before ++ t :: after ∧ t ∉ before ∧
      rest.findIdx? (· == t) = some before.length ∧ rest.dropWhile (· != t) = t :: after := by
  induction rest with
  | nil => exact .inl ⟨rfl, rfl⟩
  | cons s rest ih =>
    rw [List.findIdx?_cons, List.dropWhile_cons]
    by_cases hs : s = t
    · subst hs
      exact .inr ⟨[], rest, rfl, List.not_mem_nil, by simp, by simp⟩
    · have hne : (s == t) = false := beq_eq_false_iff_ne.mpr hs
      rw [bne, hne]
      rcases ih with ⟨hnone, hall⟩ | ⟨before, after, rfl, hbefore, hindex, hdrop⟩
      · exact .inl ⟨by rw [hnone]; rfl, hall⟩
      · refine .inr ⟨s :: before, after, rfl, ?_, by rw [hindex]; rfl, hdrop⟩
        exact List.not_mem_cons_of_ne_of_not_mem (Ne.symm hs) hbefore

theorem arrayLengths?_bracket (inner : List CToken) :
    arrayLengths? (.punct '[' :: inner) =
      match inner.dropWhile (· != .punct ']') with
      | [] => none
      | _ :: after =>
        (arrayLengths? after).map fun p => (arrayLength? inner.head? :: p.1, p.2) := by
  rw [arrayLengths?]
  dsimp only
  cases inner.dropWhile (· != .punct ']') <;> rfl

theorem arrayLengths_bracket {inner : List CToken} {lengths : List (Option Nat)}
    (h : StartsAt ts i (.punct '[' :: inner)) :
    arrayLengths ts lengths i =
      match inner.findIdx? (· == .punct ']') with
      | none => some none
      | some close =>
        arrayLengths ts (lengths ++ [arrayLength? inner.head?]) (i + (close + 1 + 1)) := by
  rw [arrayLengths, if_pos ⟨h.lt, h.first?⟩, h.tail.get?, bind_of_eq h.between?_end, List.findIdx?_cons]
  cases inner.findIdx? (· == .punct ']') <;> rfl

/-- The lengths are those of the model, and a declarator that is valid goes on after them. -/
theorem exists_arrayLengths (lengths : List (Option Nat)) (h : StartsAt ts i rest) :
    ∃ j, arrayLengths ts lengths i =
        some ((arrayLengths? rest).map fun p => (lengths ++ p.1, j)) ∧
      ∀ p ∈ arrayLengths? rest, StartsAt ts j p.2 := by
  induction hlength : rest.length using Nat.strongRecOn generalizing rest lengths i with
  | ind n ih =>
    subst hlength
    by_cases hopen : rest.head? = some (.punct '[')
    · obtain ⟨inner, rfl⟩ := List.head?_eq_some_iff.mp hopen
      rw [arrayLengths_bracket h, arrayLengths?_bracket]
      rcases position_cases (.punct ']') inner with
        ⟨hnone, hall⟩ | ⟨before, after, rfl, -, hindex, hdrop⟩
      · rw [hnone, hall]
        exact ⟨i, rfl, nofun⟩
      -- The index moves over both brackets and what is between them.
      · have hafter : StartsAt ts (i + (before.length + 1 + 1)) after := by
          have hclose := h.tail.append.tail
          rwa [Nat.add_right_comm i, Nat.add_assoc i] at hclose
        obtain ⟨j, hj, hrest⟩ := ih after.length (by simp; omega)
          (lengths ++ [arrayLength? (before ++ .punct ']' :: after).head?]) hafter rfl
        refine ⟨j, ?_, ?_⟩
        · rw [hindex, hdrop]
          dsimp only
          rw [hj, Option.map_map]
          cases arrayLengths? after with
          | none => rfl
          | some p => simp
        · rw [hdrop]
          intro p hp
          obtain ⟨q, hq, rfl⟩ := Option.map_eq_some_iff.mp hp
          exact hrest q hq
    · have hends : arrayLengths? rest = some ([], rest) := by
        rw [arrayLengths?]
        intro inner hinner
        exact hopen (by rw [hinner]; rfl)
      refine ⟨i, ?_, ?_⟩
      · rw [arrayLengths, h.get?, if_neg (mt And.right hopen), hends, Option.map_some,
          List.append_nil]
      · rw [hends]
        intro p hp
        obtain rfl := Option.some_inj.mp hp
        exact h

theorem declaratorOf_eq (isParameter : Bool) (count : Nat) (name : String)
    (h : StartsAt ts i rest) :
    declaratorOf base ts isParameter count name i =
      some ((arrayLengths? rest).bind fun p =>
        (declaredType? base isParameter count p.1).map (·, name, p.2)) := by
  obtain ⟨j, hj, hrest⟩ := exists_arrayLengths [] h
  rw [declaratorOf, bind_of_eq hj]
  cases hlengths : arrayLengths? rest with
  | none => rfl
  | some p =>
    dsimp only [Option.map_some, Option.bind_some, List.nil_append]
    cases declaredType? base isParameter count p.1 with
    | none => rfl
    | some ty => exact bind_of_eq (hrest p hlengths).between?_end _

theorem declaredType?_named (base : BaseType) (count : Nat) (lengths : List (Option Nat)) :
    declaredType? base false count lengths =
      match pointerTo? base count with
      | none => none
      | some ty =>
        let ty := lengths.foldr (fun length elem => .array elem length) ty
        if ty.isVoid then none else some ty := by
  rw [declaredType?, typeBehind?, Bool.false_and, if_neg Bool.false_ne_true]
  cases pointerTo? base count <;> rfl

theorem typeBehind?_parameter (base : BaseType) (count : Nat) (lengths : List (Option Nat)) :
    typeBehind? base true count lengths =
      pointerTo? base (if lengths.isEmpty then count else count + 1) := by
  cases lengths with
  | nil => exact Option.map_id_apply
  | cons length lengths => rfl

theorem declarator_eq (base : BaseType) (ts : List CToken) :
    declarator base ts false = some (declarator? base ts) := by
  obtain ⟨j, hj, hrest⟩ := exists_starsEnd 0 (startsAt_zero ts)
  rw [declarator, bind_of_eq hj, declarator?]
  generalize stars 0 ts = p at hrest ⊢
  obtain ⟨count, rest⟩ := p
  dsimp only at hrest ⊢
  rw [hrest.get?]
  cases rest with
  | nil => rfl
  | cons t rest =>
    cases t with
    | word name =>
      refine (declaratorOf_eq false count name hrest.tail).trans ?_
      dsimp only
      cases arrayLengths? rest with
      | none => rfl
      | some q =>
        rw [Option.bind_some, declaredType?_named]
        cases pointerTo? base count with
        | none => rfl
        | some ty =>
          dsimp only
          split_ifs <;> rfl
    | _ => rfl

/-- The tokens after the name of a parameter, if it has one. -/
def afterName : List CToken → List CToken
  | .word _ :: ts => ts
  | ts => ts

theorem declarator_parameter (base : BaseType) (ts : List CToken) :
    ∃ name, declarator base ts true =
      some ((arrayLengths? (afterName (stars 0 ts).2)).bind fun p =>
        (declaredType? base true (stars 0 ts).1 p.1).map (·, name, p.2)) := by
  obtain ⟨j, hj, hrest⟩ := exists_starsEnd 0 (startsAt_zero ts)
  rw [declarator, bind_of_eq hj]
  generalize stars 0 ts = p at hrest ⊢
  obtain ⟨count, rest⟩ := p
  dsimp only at hrest ⊢
  rw [hrest.get?]
  cases rest with
  | nil => exact ⟨"", declaratorOf_eq true count "" hrest⟩
  | cons t rest =>
    cases t with
    | word name => exact ⟨name, declaratorOf_eq true count name hrest.tail⟩
    | _ => exact ⟨"", declaratorOf_eq true count "" hrest⟩

theorem parameter_eq (known : KnownTypes) (ts : List CToken) :
    parameter known ts = some (parameter? known ts) := by
  rw [parameter, parameter?, bind_of_eq (baseType_eq (startsAt_zero ts))]
  cases Header.baseType known [] none ts with
  | none => rfl
  | some p =>
    obtain ⟨base, rest⟩ := p
    obtain ⟨name, hname⟩ := declarator_parameter base rest
    refine (bind_of_eq hname _).trans ?_
    rw [Option.bind_eq_bind, Option.bind_some]
    dsimp only
    change _ = some (arrayLengths? (afterName (stars 0 rest).2) >>= _)
    cases arrayLengths? (afterName (stars 0 rest).2) with
    | none => rfl
    | some q =>
      obtain ⟨lengths, after⟩ := q
      rw [Option.bind_some, declaredType?, typeBehind?_parameter, Option.bind_eq_bind,
        Option.bind_some]
      dsimp only
      cases pointerTo? base (if lengths.isEmpty then (stars 0 rest).1 else (stars 0 rest).1 + 1) with
      | none => rfl
      | some ty =>
        rw [Option.bind_eq_bind, Option.bind_some]
        dsimp only
        by_cases hvoid : ty.isVoid = true
        · rw [if_pos hvoid, hvoid]
          rfl
        · rw [if_neg hvoid, Bool.eq_false_iff.mpr hvoid]
          cases after with
          | nil => cases ty <;> rfl
          | cons t after => cases ty <;> rfl

end Declarators

/-! ## Parameter lists -/

/-- The number of open parentheses after a token. -/
def depthAfter (depth : Nat) (t : CToken) : Nat :=
  if t = .punct '(' then depth + 1 else if t = .punct ')' then depth - 1 else depth

/-- The parts of a list in parentheses, after those in `parts`; the next part starts at the index
`start` and goes on at the index `index`. -/
def listParts (ts : List CToken) (parts : List (List CToken)) (depth start index : Nat) :
    Option (Option (List (List CToken))) :=
  if index < ts.length then do
    let t ← ts[index]?
    if t = .punct ')' ∧ depth = 0 then do
      let part ← tokensBetween? ts start index
      return some (parts ++ [part])
    else if t = .punct ',' ∧ depth = 0 then do
      let part ← tokensBetween? ts start index
      listParts ts (parts ++ [part]) depth (index + 1) (index + 1)
    else listParts ts parts (depthAfter depth t) start (index + 1)
  else some none
termination_by ts.length - index
decreasing_by all_goals omega

/-- The types of parameters, the last of which may be an ellipsis. -/
def parameterTypes (known : KnownTypes) :
    List (List CToken) → Option (Option (List Ty × Rest Ty))
  | [] => some (some ([], .none))
  | [[.ellipsis]] => some (some ([], .untyped))
  | part :: parts => do
    match ← parameter known part with
    | none => return none
    | some ty =>
      match ← parameterTypes known parts with
      | none => return none
      | some (tys, rest) => return some (ty :: tys, rest)

/-- The parameters of a prototype after its opening parenthesis. -/
def parameters (known : KnownTypes) (ts : List CToken) : Option (Option (List Ty × Rest Ty)) := do
  match ← listParts ts [] 0 0 0 with
  | none => return none
  | some [[]] => return some ([], .none)
  | some [[.word "void"]] => return some ([], .none)
  | some parts => parameterTypes known parts

section Parameters

variable {ts held rest : List CToken} {parts : List (List CToken)} {depth start : Nat}

theorem listParts?_cons (depth : Nat) (t : CToken) (rest : List CToken) :
    listParts? depth (t :: rest) =
      if t = .punct ')' ∧ depth = 0 then some [[]]
      else if t = .punct ',' ∧ depth = 0 then (listParts? depth rest).map ([] :: ·)
      else
        match listParts? (depthAfter depth t) rest with
        | some (part :: parts) => some ((t :: part) :: parts)
        | _ => none := by
  rw [listParts?]
  rfl

theorem listParts?_ne_nil (depth : Nat) (rest : List CToken) : listParts? depth rest ≠ some [] := by
  cases rest with
  | nil => exact nofun
  | cons t rest =>
    rw [listParts?_cons]
    split_ifs
    · simp
    · simp
    · split <;> simp

theorem listParts_eq (h : StartsAt ts start (held ++ rest)) :
    listParts ts parts depth start (start + held.length) =
      some ((listParts? depth rest).map fun more => parts ++ more.modifyHead (held ++ ·)) := by
  induction rest generalizing held parts depth start with
  | nil =>
    rw [listParts, if_neg h.append.not_lt]
    rfl
  | cons t rest ih =>
    have hnext : StartsAt ts (start + held.length + 1) ([] ++ rest) := h.append.tail
    rw [listParts, if_pos h.append.lt, bind_of_eq h.append.first?, listParts?_cons]
    split_ifs with hclose hcomma
    · rw [bind_of_eq h.between?]
      simp
    · rw [bind_of_eq h.between?]
      refine (ih hnext).trans ?_
      cases listParts? depth rest with
      | none => rfl
      | some more => cases more <;> simp
    · have hkeep : StartsAt ts start ((held ++ [t]) ++ rest) := by simpa using h
      have hindex : start + held.length + 1 = start + (held ++ [t]).length := by
        simp [Nat.add_assoc]
      rw [hindex, ih hkeep]
      have hne := listParts?_ne_nil (depthAfter depth t) rest
      cases hmore : listParts? (depthAfter depth t) rest with
      | none => rfl
      | some more =>
        cases more with
        | nil => exact absurd hmore hne
        | cons part more => simp

theorem parameterTypes_eq (known : KnownTypes) (parts : List (List CToken)) :
    parameterTypes known parts = some (parameterTypes? known parts) := by
  fun_induction parameterTypes? known parts with
  | case1 => rfl
  | case2 => rfl
  | case3 part parts hlast ih =>
    rw [parameterTypes]
    · rw [bind_of_eq (parameter_eq known part)]
      cases parameter? known part with
      | none => rfl
      | some ty =>
        dsimp only
        rw [bind_of_eq ih]
        cases parameterTypes? known parts <;> rfl
    · exact hlast

theorem parameters_eq (known : KnownTypes) (ts : List CToken) :
    parameters known ts = some (parameters? known ts) := by
  have hparts : listParts ts [] 0 0 0 = some (listParts? 0 ts) := by
    have hstart : StartsAt ts 0 ([] ++ ts) := startsAt_zero ts
    refine (listParts_eq hstart).trans ?_
    cases listParts? 0 ts with
    | none => rfl
    | some more => cases more <;> rfl
  rw [parameters, parameters?, bind_of_eq hparts]
  generalize listParts? 0 ts = found
  split
  · rfl
  · rfl
  · rfl
  · simp [parameterTypes_eq]

end Parameters

/-! ## Single declarations -/

/-- The variables of a declaration, after those in `symbols`. -/
def variableList (base : BaseType) (ts : List CToken) (symbols : List HeaderSymbol) :
    Option (List HeaderSymbol) := do
  match ← declarator base ts false with
  | none => return symbols
  | some (ty, name, rest) =>
    let symbols := symbols ++ [.variable name ty]
    match rest.findIdx? (· == .punct ',') with
    | none => return symbols
    | some comma =>
      if rest.head? = some (.punct '=') ∨ comma = 0 then do
        let more ← tokensBetween? rest (comma + 1) rest.length
        if more.length < ts.length then variableList base more symbols else none
      else return symbols
termination_by ts.length
decreasing_by all_goals omega

/-- The symbols that follow a base type in a declaration, and the types known after it. -/
def declared (known : KnownTypes) (base : BaseType) (rest : List CToken) :
    Option (List HeaderSymbol × KnownTypes) :=
  match stars 0 rest with
  | (count, .word name :: .punct '(' :: params) =>
    match pointerTo? base count with
    | none => some ([], known)
    | some ret => do
      match ← parameters known params with
      | none => return ([], known)
      | some (params, rest) => return ([.function name ⟨ret, params, rest⟩], known)
  | _ => (variableList base rest []).map (·, known)

/-- The type name that follows a base type, and the types known after it. -/
def definedType (known : KnownTypes) (base : BaseType) (rest : List CToken) :
    Option (List HeaderSymbol × KnownTypes) := do
  match ← declarator base rest false with
  | some (ty, name, []) => return ([.typedef name ty], (name, ty) :: known)
  | _ => return ([], known)

/-- The symbols that one declaration introduces, and the types known after it. -/
def declaration (known : KnownTypes) (ts : List CToken) :
    Option (List HeaderSymbol × KnownTypes) := do
  let stripped ← stripAttributes ts [] 0
  let ts := stripped.filter (!isOneOf storageWords ·)
  if ts.isEmpty then return ([], known)
  else do
    let first ← ts[0]?
    if first = .word "typedef" then do
      let ts ← tokensBetween? ts 1 ts.length
      match ← baseType known ts [] none 0 with
      | none => return ([], known)
      | some (base, rest) => definedType known base rest
    else
      match ← baseType known ts [] none 0 with
      | none => return ([], known)
      | some (base, rest) => declared known base rest

section Declarations

variable {ts : List CToken}

theorem variableList_step (base : BaseType) (ts : List CToken) :
    Header.variableList base ts =
      match declarator? base ts with
      | none => []
      | some (ty, name, rest) =>
        if rest.head? = some (.punct ',') ∨ rest.head? = some (.punct '=') then
          match rest.dropWhile (· != .punct ',') with
          | [] => [.variable name ty]
          | _ :: after => .variable name ty :: Header.variableList base after
        else [.variable name ty] := by
  rw [Header.variableList]
  split
  · rename_i hnone
    rw [hnone]
  · rename_i ty name rest hdeclarator
    simp only [hdeclarator]
    cases rest.dropWhile (· != .punct ',') <;> rfl

theorem variableList_eq (base : BaseType) (ts : List CToken) (symbols : List HeaderSymbol) :
    variableList base ts symbols = some (symbols ++ Header.variableList base ts) := by
  induction hlength : ts.length using Nat.strongRecOn generalizing ts symbols with
  | ind n ih =>
    subst hlength
    rw [variableList, bind_of_eq (declarator_eq base ts), variableList_step]
    cases hdeclarator : declarator? base ts with
    | none => exact congrArg some (List.append_nil symbols).symm
    | some p =>
      obtain ⟨ty, name, rest⟩ := p
      have hshorter := declarator?_length hdeclarator
      dsimp only
      rcases position_cases (.punct ',') rest with
        ⟨hnone, hall⟩ | ⟨before, after, rfl, hbefore, hindex, hdrop⟩
      · rw [hnone, hall]
        dsimp only
        rw [ite_self]
        rfl
      · have hafter : StartsAt (before ++ .punct ',' :: after) (before.length + 1) after := by
          have hcomma := (startsAt_zero (before ++ .punct ',' :: after)).append.tail
          rwa [Nat.zero_add] at hcomma
        -- The index of the comma says whether one follows directly.
        have hfirst : before.length = 0 ↔
            (before ++ .punct ',' :: after).head? = some (.punct ',') := by
          cases before with
          | nil => simp
          | cons t before => simpa using fun ht => hbefore (by simp [ht])
        rw [hindex, hdrop]
        dsimp only
        simp only [hfirst, or_comm]
        split_ifs with hgoes
        · have hlength : after.length < ts.length := by
            rw [List.length_append, List.length_cons] at hshorter
            omega
          rw [bind_of_eq hafter.between?_end, if_pos hlength, ih _ hlength after _ rfl]
          simp
        · rfl

/-- The symbols that follow a base type, as the model has them. -/
theorem declared_eq (known : KnownTypes) (base : BaseType) (rest : List CToken) :
    declared known base rest = some (
      match stars 0 rest with
      | (count, .word name :: .punct '(' :: params) =>
        match pointerTo? base count, parameters? known params with
        | some ret, some (params, rest) => ([.function name ⟨ret, params, rest⟩], known)
        | _, _ => ([], known)
      | _ => (Header.variableList base rest, known)) := by
  rw [declared]
  split
  · rename_i count name params hstars
    rw [parameters_eq]
    cases pointerTo? base count with
    | none => rfl
    | some ret => cases parameters? known params <;> rfl
  · rw [variableList_eq]
    rfl

theorem definedType_eq (known : KnownTypes) (base : BaseType) (rest : List CToken) :
    definedType known base rest = some (
      match declarator? base rest with
      | some (ty, name, []) => ([.typedef name ty], (name, ty) :: known)
      | _ => ([], known)) := by
  rw [definedType, bind_of_eq (declarator_eq base rest)]
  split <;> rfl

theorem declaration_eq (known : KnownTypes) (ts : List CToken) :
    declaration known ts = some (Header.declaration known ts) := by
  rw [declaration, bind_of_eq (stripAttributes_eq (startsAt_zero ts)), List.nil_append]
  unfold Header.declaration
  generalize (Header.stripAttributes ts).filter (!isOneOf storageWords ·) = own
  dsimp only
  split_ifs with hempty
  · rw [List.isEmpty_iff.mp hempty]
    rfl
  · split
    · rename_i rest
      have hrest : StartsAt (.word "typedef" :: rest) 1 rest := (startsAt_zero _).tail
      refine (bind_of_eq hrest.between?_end _).trans ?_
      rw [bind_of_eq (baseType_eq (startsAt_zero rest))]
      cases Header.baseType known [] none rest with
      | none => rfl
      | some p => exact definedType_eq known p.1 p.2
    · rename_i hown
      cases own with
      | nil => exact absurd rfl hempty
      | cons t rest =>
        have hfirst : t ≠ .word "typedef" := fun ht => hown rest (by rw [ht])
        refine (if_neg hfirst).trans ?_
        rw [bind_of_eq (baseType_eq (startsAt_zero _))]
        cases Header.baseType known [] none (t :: rest) with
        | none => rfl
        | some p => exact declared_eq known p.1 p.2

end Declarations

/-! ## All declarations -/

/-- Ends the current declaration. -/
def finish (s : DeclScan) : Option DeclScan := do
  let (symbols, known) ← declaration s.known s.current
  return { s with current := [], known, symbols := s.symbols ++ symbols }

/-- Reads a closing brace. -/
def closeBrace (s : DeclScan) : Option DeclScan :=
  match s.braces with
  | [] => some s
  | transparent :: braces =>
    let closed := { s with braces }
    if !transparent && !closed.inBody && !s.aggregate then finish closed else some closed

/-- Reads a semicolon. -/
def semicolon (s : DeclScan) : Option DeclScan :=
  if s.inBody then some s
  else if s.aggregate then some { s with aggregate := false, current := [] }
  else finish s

/-- Reads one token. -/
def step (s : DeclScan) (t : CToken) : Option DeclScan :=
  if t = .punct '{' then some s.openBrace
  else if t = .punct '}' then closeBrace s
  else if t = .punct ';' then semicolon s
  else if s.inBody then some s
  else some { s with current := s.current ++ [t] }

/-- Reads the tokens from the index on. -/
def run (ts : List CToken) (s : DeclScan) (index : Nat) : Option DeclScan :=
  if index < ts.length then do
    let t ← ts[index]?
    if !s.inBody ∧ s.current.isEmpty ∧ t = .word "extern" ∧ ts[index + 1]? = some .str ∧
        ts[index + 2]? = some (.punct '{') then
      run ts { s with braces := true :: s.braces } (index + 3)
    else do
      let s ← step s t
      run ts s (index + 1)
  else some s
termination_by ts.length - index
decreasing_by all_goals omega

/-- The symbols that a text declares. -/
def declarations (known : KnownTypes) (text : List Char) :
    Option (List HeaderSymbol × KnownTypes) := do
  let ts ← tokenize text [] 0
  let s ← run ts ⟨[], [], false, known, []⟩ 0
  return (s.symbols, s.known)

section Scan

variable {ts rest : List CToken} {i : Nat}

theorem finish_eq (s : DeclScan) : finish s = some s.finish := by
  rw [finish, bind_of_eq (declaration_eq s.known s.current)]
  rfl

theorem step_eq (s : DeclScan) (t : CToken) : step s t = some (s.step t) := by
  unfold step DeclScan.step closeBrace DeclScan.closeBrace semicolon DeclScan.semicolon
  split_ifs
  · rfl
  · cases s.braces with
    | nil => rfl
    | cons transparent braces =>
      dsimp only
      rw [finish_eq]
      split_ifs <;> rfl
  all_goals first | rfl | exact finish_eq s

theorem run_step (s : DeclScan) {t : CToken} (h : StartsAt ts i (t :: rest))
    (hwrapper : s.inBody = false → s.current = [] → t = .word "extern" →
      ∀ more, rest ≠ .str :: .punct '{' :: more) :
    run ts s i = run ts (s.step t) (i + 1) := by
  have hno : ¬ (!s.inBody ∧ s.current.isEmpty ∧ t = .word "extern" ∧ ts[i + 1]? = some .str ∧
      ts[i + 2]? = some (.punct '{')) := by
    rintro ⟨hbody, hempty, ht, hstr, hbrace⟩
    obtain ⟨rest, rfl⟩ := List.head?_eq_some_iff.mp (h.tail.get?.symm.trans hstr)
    obtain ⟨more, rfl⟩ := List.head?_eq_some_iff.mp (h.tail.tail.get?.symm.trans hbrace)
    exact hwrapper (by simpa using hbody) (List.isEmpty_iff.mp hempty) ht more rfl
  rw [run, if_pos h.lt, bind_of_eq h.first?, if_neg hno, bind_of_eq (step_eq s t)]

theorem run_eq (s : DeclScan) (h : StartsAt ts i rest) : run ts s i = some (s.run rest) := by
  fun_induction DeclScan.run s rest generalizing i with
  | case1 s => rw [run, if_neg h.not_lt]
  | case2 s w rest hwrapper ih =>
    obtain ⟨rfl, hbody, hempty⟩ := hwrapper
    rw [run, if_pos h.lt, bind_of_eq h.first?,
      if_pos ⟨hbody, hempty, rfl, h.tail.first?, h.tail.tail.first?⟩]
    exact ih h.tail.tail.tail
  | case3 s w rest hwrapper ih =>
    rw [run_step s h, run_step _ h.tail, run_step _ h.tail.tail, ih h.tail.tail.tail]
    · exact fun _ _ hbrace => nomatch hbrace
    · exact fun _ _ hstr => nomatch hstr
    · intro hbody hempty hw
      exact absurd ⟨CToken.word.inj hw, by rw [hbody]; rfl, by rw [hempty]; rfl⟩ hwrapper
  | case4 s t rest hwrapper ih =>
    rw [run_step s h fun _ _ ht more hrest => hwrapper "extern" more ht hrest, ih h.tail]

theorem declarations_eq (known : KnownTypes) (text : List Char) :
    declarations known text = some (Header.declarations known text) := by
  rw [declarations, bind_of_eq (tokenize_eq [] (Text.at_zero text)),
    bind_of_eq (run_eq _ (startsAt_zero _))]
  rfl

end Scan

end KilnLang.Header.Checked
