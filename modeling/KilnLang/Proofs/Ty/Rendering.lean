import KilnLang.Proofs.Semantic.Completion
import KilnLang.Proofs.Syntax.Drawing

/-!
# Texts of types

The text of a type writes `ref` before the type and the brackets of an array after it, without
parentheses, so that an array of references and a reference to an array have the same text.

**Theorem (`render_eq_iff_regrouped`).** Nothing else is ambiguous. Two types have the same text if
and only if they are the same once every reference is moved outside of the arrays around it
(`Ty.regrouped`). So the text determines the type among types in which no array has references as
its elements (`Ty.RefsOutside`).

The text of a type has three parts: the marks of its references, the text of its core, which is a
primitive or a function type, and the brackets of its arrays from the inside (`Ty.chars_eq`). The
core starts with another character than a reference, and what comes after it is a bracket or ends
the type, so the three parts can be told apart. The parts of a function type are followed by a
parenthesis, a comma or the dots of further arguments (`Ty.EndsType`).
-/

namespace KilnLang

/-! ## Primitive types -/

/-- The characters that can come after a type: a bracket, or what ends it. -/
def typeDelimiters : List Char := ['[', ',', ')', '(', '.']

theorem repr_injective : Function.Injective Nat.repr := by
  intro m n h
  have hdigits := congrArg (fun text : String => Nat.ofDigitChars 10 text.toList 0) h
  simpa using hdigits

theorem IntWidth.render_inj {v w : IntWidth} (h : v.render = w.render) : v = w := by
  have hdigit : ∀ {n : Nat} {width : CWidth}, toString n ≠ "\x7b" ++ width.tag ++ "\x7d" := by
    intro n width heq
    have hmem : '\x7b' ∈ (toString n).toList := by
      rw [heq, String.toList_append, String.toList_append]
      exact List.mem_append_left _ (List.mem_append_left _ (by decide))
    rw [Nat.toString_eq_repr, Nat.toList_repr] at hmem
    exact absurd (Nat.isDigit_of_mem_toDigits (by decide) (by decide) hmem) (by decide)
  cases v with
  | fixed m =>
    cases w with
    | fixed n => exact congrArg IntWidth.fixed (repr_injective h)
    | platform width => exact absurd h hdigit
  | platform width =>
    cases w with
    | fixed n => exact absurd h.symm hdigit
    | platform width' => cases width <;> cases width' <;> first | rfl | exact absurd h (by decide)

namespace Primitive

/-- Integer types of the same name are told apart by their widths, and all others by their names. -/
theorem render_inj {p q : Primitive} (h : p.render = q.render) : p = q := by
  have hwidth : ∀ {name : String} {v w : IntWidth},
      name ++ v.render = name ++ w.render → v = w := by
    intro name v w h
    have hlist := congrArg String.toList h
    rw [String.toList_append, String.toList_append] at hlist
    exact IntWidth.render_inj (String.toList_inj.mp (List.append_cancel_left hlist))
  cases p <;> cases q <;> first
    | rfl
    | exact congrArg Primitive.int (hwidth h)
    | exact congrArg Primitive.uint (hwidth h)
    | exact absurd (congrArg String.toList h) (by simp [render])

theorem not_mem_delimiters (p : Primitive) : ∀ c ∈ p.render.toList, c ∉ typeDelimiters := by
  have hdelimiter : ∀ c ∈ typeDelimiters, c.isDigit = false := by decide
  have hwidth : ∀ w : IntWidth, ∀ c ∈ w.render.toList, c ∉ typeDelimiters := by
    intro w
    cases w with
    | fixed n =>
      intro c hc hmem
      rw [IntWidth.render, Nat.toString_eq_repr, Nat.toList_repr] at hc
      have hdigit := Nat.isDigit_of_mem_toDigits (by decide) (by decide) hc
      rw [hdelimiter c hmem] at hdigit
      cases hdigit
    | platform width => cases width <;> decide
  cases p with
  | int w =>
    rw [render, String.toList_append, List.forall_mem_append]
    exact ⟨by decide, hwidth w⟩
  | uint w =>
    rw [render, String.toList_append, List.forall_mem_append]
    exact ⟨by decide, hwidth w⟩
  | _ => decide

/-- The text of a primitive type starts with `@`. -/
theorem exists_chars (p : Primitive) : ∃ more, p.render.toList = '@' :: more := by
  cases p <;> rw [render]
  case int w => exact ⟨_, String.toList_append⟩
  case uint w => exact ⟨_, String.toList_append⟩
  all_goals exact ⟨_, rfl⟩

end Primitive

/-! ## The parts of a type -/

namespace Ty

/-- The characters of the text of a type. -/
def chars (t : Ty) : List Char := t.render.toList

/-- The number of references around the core of a type. -/
def refs : Ty → Nat
  | .ref inner => inner.refs + 1
  | .array elem _ => elem.refs
  | _ => 0

/-- The lengths of the arrays around the core of a type, from the inside. -/
def lengths : Ty → List (Option Nat)
  | .ref inner => inner.lengths
  | .array elem length => elem.lengths ++ [length]
  | _ => []

/-- The primitive or function type inside all references and arrays. -/
def core : Ty → Ty
  | .ref inner => inner.core
  | .array elem _ => elem.core
  | t => t

/-- The brackets of an array. -/
def brackets (length : Option Nat) : List Char :=
  '[' :: ((length.map Nat.repr).getD "").toList ++ [']']

/-- The marks of some references. -/
def refMarks (n : Nat) : List Char := (List.replicate n "ref ".toList).flatten

theorem refMarks_succ (n : Nat) : refMarks (n + 1) = "ref ".toList ++ refMarks n := by
  rw [refMarks, List.replicate_succ, List.flatten_cons]
  rfl

theorem chars_ref (inner : Ty) : (Ty.ref inner).chars = "ref ".toList ++ inner.chars := by
  rw [chars, render, String.toList_append]
  rfl

theorem chars_array (elem : Ty) (length : Option Nat) :
    (Ty.array elem length).chars = elem.chars ++ brackets length := by
  cases length <;> simp [chars, render, brackets]

/-- The text of a type is the marks of its references, the text of its core, and the brackets of its
arrays. -/
theorem chars_eq (t : Ty) :
    t.chars = refMarks t.refs ++ (t.core.chars ++ t.lengths.flatMap brackets) := by
  cases t with
  | prim p => exact (List.append_nil _).symm
  | func sig => exact (List.append_nil _).symm
  | ref inner =>
    rw [chars_ref, chars_eq inner, refs, core, lengths, refMarks_succ, List.append_assoc]
  | array elem length =>
    rw [chars_array, chars_eq elem, refs, core, lengths, List.flatMap_append]
    simp

/-! ## References outside of arrays -/

/-- The array of the elements, inside of the references around them. -/
def arrayInside : Ty → Option Nat → Ty
  | .ref inner, length => .ref (arrayInside inner length)
  | elem, length => .array elem length

mutual

/-- The type with every reference moved outside of the arrays around it. -/
def regrouped : Ty → Ty
  | .prim p => .prim p
  | .ref inner => .ref inner.regrouped
  | .array elem length => elem.regrouped.arrayInside length
  | .func sig => .func (regroupedSignature sig)

/-- The signature with the references in its types moved outside. -/
def regroupedSignature : Signature Ty → Signature Ty
  | ⟨ret, params, rest⟩ => ⟨ret.regrouped, regroupedEach params, regroupedRest rest⟩

/-- The types with their references moved outside. -/
def regroupedEach : List Ty → List Ty
  | [] => []
  | t :: ts => t.regrouped :: regroupedEach ts

/-- The type of further arguments with its references moved outside. -/
def regroupedRest : Rest Ty → Rest Ty
  | .none => .none
  | .untyped => .untyped
  | .typed elem => .typed elem.regrouped

end

mutual

/-- No array has references as its elements. -/
def RefsOutside : Ty → Prop
  | .prim _ => True
  | .ref inner => inner.RefsOutside
  | .array elem _ => elem.isRef = false ∧ elem.RefsOutside
  | .func sig => RefsOutsideSignature sig

/-- No array in the signature has references as its elements. -/
def RefsOutsideSignature : Signature Ty → Prop
  | ⟨ret, params, rest⟩ => ret.RefsOutside ∧ RefsOutsideEach params ∧ RefsOutsideRest rest

/-- No array in the types has references as its elements. -/
def RefsOutsideEach : List Ty → Prop
  | [] => True
  | t :: ts => t.RefsOutside ∧ RefsOutsideEach ts

/-- No array in the type of further arguments has references as its elements. -/
def RefsOutsideRest : Rest Ty → Prop
  | .none => True
  | .untyped => True
  | .typed elem => elem.RefsOutside

end

mutual

theorem RefsOutside.regrouped_eq {t : Ty} (h : t.RefsOutside) : t.regrouped = t := by
  cases t with
  | prim p => rfl
  | ref inner => rw [regrouped, RefsOutside.regrouped_eq (t := inner) h]
  | array elem length =>
    obtain ⟨hnoRef, hinner⟩ := h
    rw [regrouped, RefsOutside.regrouped_eq hinner]
    cases elem with
    | ref inner => cases hnoRef
    | _ => rfl
  | func sig => rw [regrouped, RefsOutsideSignature.regrouped_eq h]

theorem RefsOutsideSignature.regrouped_eq {sig : Signature Ty} (h : RefsOutsideSignature sig) :
    regroupedSignature sig = sig := by
  obtain ⟨ret, params, rest⟩ := sig
  obtain ⟨hret, hparams, hrest⟩ := h
  rw [regroupedSignature, RefsOutside.regrouped_eq hret, RefsOutsideEach.regrouped_eq hparams,
    RefsOutsideRest.regrouped_eq hrest]

theorem RefsOutsideEach.regrouped_eq {ts : List Ty} (h : RefsOutsideEach ts) :
    regroupedEach ts = ts := by
  cases ts with
  | nil => rfl
  | cons t ts =>
    rw [regroupedEach, RefsOutside.regrouped_eq h.1, RefsOutsideEach.regrouped_eq h.2]

theorem RefsOutsideRest.regrouped_eq {rest : Rest Ty} (h : RefsOutsideRest rest) :
    regroupedRest rest = rest := by
  cases rest with
  | typed elem => rw [regroupedRest, RefsOutside.regrouped_eq (t := elem) h]
  | _ => rfl

end

/-- The array around an element, outside of `n` references. -/
theorem arrayInside_refs (n : Nat) (t : Ty) (length : Option Nat) :
    arrayInside (n.repeat .ref t) length = n.repeat .ref (t.arrayInside length) := by
  induction n with
  | zero => rfl
  | succ n ih =>
    show Ty.ref (arrayInside _ length) = Ty.ref _
    rw [ih]

theorem arrayInside_of_noRef {t : Ty} (h : t.isRef = false) (length : Option Nat) :
    t.arrayInside length = .array t length := by
  cases t with
  | ref inner => cases h
  | _ => rfl

theorem foldl_array_isRef {t : Ty} (ls : List (Option Nat)) (h : t.isRef = false) :
    (ls.foldl Ty.array t).isRef = false := by
  induction ls generalizing t with
  | nil => exact h
  | cons l ls ih => exact ih rfl

theorem core_regrouped_isRef (t : Ty) : t.core.regrouped.isRef = false := by
  cases t with
  | prim p => rfl
  | ref inner => exact core_regrouped_isRef inner
  | array elem length => exact core_regrouped_isRef elem
  | func sig => rfl

/-- A type is determined by its references, its arrays and its core, up to their order. -/
theorem regrouped_eq (t : Ty) :
    t.regrouped = t.refs.repeat .ref (t.lengths.foldl .array t.core.regrouped) := by
  cases t with
  | prim p => rfl
  | func sig => rfl
  | ref inner =>
    rw [regrouped, regrouped_eq inner]
    rfl
  | array elem length =>
    have hcore : ∀ n, (elem.lengths.foldl Ty.array elem.core.regrouped).arrayInside n =
        .array (elem.lengths.foldl Ty.array elem.core.regrouped) n :=
      fun n => arrayInside_of_noRef (foldl_array_isRef _ (core_regrouped_isRef elem)) n
    rw [regrouped, regrouped_eq elem, arrayInside_refs, hcore, refs, lengths, core,
      List.foldl_append]
    rfl

/-! ## Reading the parts back -/

/-- The rest of a text does not go on with an array's brackets. -/
def EndsType (rest : List Char) : Prop := ∀ c ∈ rest.head?, c ∈ [',', ')', '(', '.']

/-- The rest of a text starts with a character that comes after a type. -/
def EndsCore (rest : List Char) : Prop := ∀ c ∈ rest.head?, c ∈ typeDelimiters

theorem EndsType.endsCore {rest : List Char} (h : EndsType rest) : EndsCore rest :=
  fun c hc => List.mem_cons_of_mem _ (h c hc)

theorem endsCore_brackets (ls : List (Option Nat)) {rest : List Char} (h : EndsType rest) :
    EndsCore (ls.flatMap brackets ++ rest) := by
  cases ls with
  | nil => exact h.endsCore
  | cons l ls =>
    intro c hc
    cases hc
    exact List.mem_cons_self

theorem refMarks_inj {m n : Nat} {as bs : List Char} (has : ∃ a ∈ as.head?, a ≠ 'r')
    (hbs : ∃ b ∈ bs.head?, b ≠ 'r') (h : refMarks m ++ as = refMarks n ++ bs) :
    m = n ∧ as = bs := by
  have hmark : ∀ {k : Nat} {cs ds : List Char}, (∃ c ∈ cs.head?, c ≠ 'r') →
      cs ≠ refMarks (k + 1) ++ ds := by
    rintro k cs ds ⟨c, hc, hne⟩ rfl
    rw [refMarks_succ] at hc
    exact hne (Option.some.inj hc).symm
  induction m generalizing n with
  | zero =>
    cases n with
    | zero => exact ⟨rfl, h⟩
    | succ n => exact absurd h (hmark has)
  | succ m ih =>
    cases n with
    | zero => exact absurd h.symm (hmark hbs)
    | succ n =>
      rw [refMarks_succ, refMarks_succ, List.append_assoc, List.append_assoc] at h
      obtain ⟨heq, hrest⟩ := ih (List.append_cancel_left h)
      exact ⟨congrArg (· + 1) heq, hrest⟩

theorem brackets_inj {l l' : Option Nat} {as bs : List Char}
    (h : brackets l ++ as = brackets l' ++ bs) : l = l' ∧ as = bs := by
  -- A length is written in digits, and a bracket is none: so the length ends at the bracket.
  have hdigits : ∀ l : Option Nat, ∀ c ∈ ((l.map Nat.repr).getD "").toList, c.isDigit := by
    intro l
    cases l with
    | none => exact fun c hc => absurd hc List.not_mem_nil
    | some n =>
      intro c hc
      rw [Option.map_some, Option.getD_some, Nat.toList_repr] at hc
      exact Nat.isDigit_of_mem_toDigits (by decide) (by decide) hc
  have hstop : ∀ cs : List Char, ∀ c ∈ (']' :: cs).head?, c.isDigit = false := by
    intro cs c hc
    cases hc
    rfl
  simp only [brackets, List.cons_append, List.append_assoc, List.nil_append, List.cons.injEq,
    true_and] at h
  obtain ⟨hlength, hrest⟩ :=
    append_inj_of_boundary (hdigits l) (hdigits l') (hstop as) (hstop bs) h
  refine ⟨?_, (List.cons.inj hrest).2⟩
  have hrepr : ∀ n : Nat, n.repr.toList ≠ [] := fun n => by
    rw [Nat.toList_repr]
    exact Nat.toDigits_ne_nil
  cases l with
  | none =>
    cases l' with
    | none => rfl
    | some n' => exact absurd hlength.symm (hrepr n')
  | some n =>
    cases l' with
    | none => exact absurd hlength (hrepr n)
    | some n' => exact congrArg some (repr_injective (String.toList_inj.mp hlength))

theorem flatMap_brackets_inj {ls ls' : List (Option Nat)} {as bs : List Char} (has : EndsType as)
    (hbs : EndsType bs) (h : ls.flatMap brackets ++ as = ls'.flatMap brackets ++ bs) :
    ls = ls' ∧ as = bs := by
  have hbracket : ∀ {l : Option Nat} {ls : List (Option Nat)} {cs ds : List Char}, EndsType cs →
      cs ≠ (l :: ls).flatMap brackets ++ ds := by
    rintro l ls cs ds hends rfl
    exact absurd (hends '[' rfl) (by decide)
  induction ls generalizing ls' with
  | nil =>
    cases ls' with
    | nil => exact ⟨rfl, h⟩
    | cons l' ls' => exact absurd h (hbracket has)
  | cons l ls ih =>
    cases ls' with
    | nil => exact absurd h.symm (hbracket hbs)
    | cons l' ls' =>
      rw [List.flatMap_cons, List.flatMap_cons, List.append_assoc, List.append_assoc] at h
      obtain ⟨rfl, hmore⟩ := brackets_inj h
      obtain ⟨rfl, hrest⟩ := ih hmore
      exact ⟨rfl, hrest⟩

/-! ## Arguments of function types -/

/-- The characters between the parentheses of a function type. -/
def argChars (params : List Ty) (rest : Rest Ty) : List Char :=
  (", ".intercalate (renderEach params ++ renderRest rest)).toList

/-- The characters after an argument, with the others still to come. -/
def moreArgChars : List Ty → Rest Ty → List Char
  | [], .none => []
  | params, rest => ", ".toList ++ argChars params rest

theorem chars_func (ret : Ty) (params : List Ty) (rest : Rest Ty) :
    (Ty.func ⟨ret, params, rest⟩).chars =
      "func<".toList ++ (ret.chars ++ '(' :: (argChars params rest ++ ")>".toList)) := by
  simp [chars, render, renderSignature, argChars]

theorem argChars_typed (elem : Ty) :
    argChars [] (.typed elem) = elem.chars ++ "...".toList := by
  rw [argChars, renderEach, renderRest, List.nil_append, String.intercalate_singleton,
    String.toList_append]
  rfl

theorem argChars_cons (param : Ty) (params : List Ty) (rest : Rest Ty) :
    argChars (param :: params) rest = param.chars ++ moreArgChars params rest := by
  have hmore : ∀ {texts : List String}, texts ≠ [] →
      (", ".intercalate (param.render :: texts)).toList =
        param.chars ++ (", ".toList ++ (", ".intercalate texts).toList) := by
    intro texts hne
    obtain ⟨text, texts, rfl⟩ := List.exists_cons_of_ne_nil hne
    rw [String.intercalate_cons_cons, String.toList_append, String.toList_append, List.append_assoc]
    rfl
  cases params with
  | cons next params => exact hmore (by simp [renderEach])
  | nil =>
    cases rest with
    | none =>
      rw [argChars, renderEach, renderEach, renderRest, List.append_nil,
        String.intercalate_singleton, moreArgChars, List.append_nil]
      rfl
    | untyped => exact hmore (by simp [renderRest])
    | typed elem => exact hmore (by simp [renderRest])

/-- Whether more arguments follow is read off the next character. -/
theorem moreArgChars_cases (params : List Ty) (rest : Rest Ty) :
    (params = [] ∧ rest = .none ∧ moreArgChars params rest = []) ∨
      moreArgChars params rest = ", ".toList ++ argChars params rest := by
  cases params with
  | cons param params => exact .inr rfl
  | nil =>
    cases rest with
    | none => exact .inl ⟨rfl, rfl, rfl⟩
    | untyped => exact .inr rfl
    | typed elem => exact .inr rfl

theorem core_cases (t : Ty) :
    (∃ p, t.core = .prim p) ∨ ∃ ret params rest, t.core = .func ⟨ret, params, rest⟩ := by
  cases t with
  | prim p => exact .inl ⟨p, rfl⟩
  | ref inner => exact core_cases inner
  | array elem length => exact core_cases elem
  | func sig => exact .inr ⟨sig.ret, sig.params, sig.rest, rfl⟩

theorem core_exists_chars (t : Ty) :
    ∃ first more, t.core.chars = first :: more ∧ (first = '@' ∨ first = 'f') := by
  cases t with
  | prim p =>
    obtain ⟨more, hmore⟩ := p.exists_chars
    exact ⟨'@', more, hmore, .inl rfl⟩
  | ref inner => exact core_exists_chars inner
  | array elem length => exact core_exists_chars elem
  | func sig => exact ⟨'f', _, chars_func sig.ret sig.params sig.rest, .inr rfl⟩

theorem exists_chars (t : Ty) :
    ∃ first more, t.chars = first :: more ∧ first ∈ ['r', '@', 'f'] := by
  rw [chars_eq]
  cases hrefs : t.refs with
  | zero =>
    obtain ⟨first, more, hcore, hfirst⟩ := core_exists_chars t
    refine ⟨first, more ++ t.lengths.flatMap brackets, ?_, ?_⟩
    · rw [hcore]
      rfl
    · rcases hfirst with rfl | rfl <;> decide
  | succ n => exact ⟨'r', _, by rw [refMarks_succ]; rfl, by decide⟩

/-! ## Unambiguity -/

/-- The text of the core determines the core, up to the place of references. -/
def CoreDetermined (t : Ty) : Prop :=
  ∀ (u : Ty) (as bs : List Char), EndsCore as → EndsCore bs →
    t.core.chars ++ as = u.core.chars ++ bs → t.core.regrouped = u.core.regrouped ∧ as = bs

/-- The text of the type determines the type, up to the place of references. -/
def Determined (t : Ty) : Prop :=
  ∀ (u : Ty) (as bs : List Char), EndsType as → EndsType bs →
    t.chars ++ as = u.chars ++ bs → t.regrouped = u.regrouped ∧ as = bs

theorem CoreDetermined.determined {t : Ty} (h : t.CoreDetermined) : t.Determined := by
  intro u as bs has hbs heq
  have hfirst : ∀ (v : Ty) (cs : List Char), ∃ c ∈ (v.core.chars ++ cs).head?, c ≠ 'r' := by
    intro v cs
    obtain ⟨first, more, hcore, hfirst⟩ := core_exists_chars v
    refine ⟨first, by rw [hcore]; rfl, ?_⟩
    rcases hfirst with rfl | rfl <;> decide
  rw [chars_eq t, chars_eq u, List.append_assoc, List.append_assoc, List.append_assoc,
    List.append_assoc] at heq
  obtain ⟨hrefs, hrest⟩ := refMarks_inj (hfirst t _) (hfirst u _) heq
  obtain ⟨hcore, hafter⟩ :=
    h u _ _ (endsCore_brackets _ has) (endsCore_brackets _ hbs) hrest
  obtain ⟨hlengths, hend⟩ := flatMap_brackets_inj has hbs hafter
  exact ⟨by rw [regrouped_eq t, regrouped_eq u, hrefs, hlengths, hcore], hend⟩

/-- The text of the arguments of a function type determines them, up to the place of references. -/
def ArgsDetermined (params : List Ty) (rest : Rest Ty) : Prop :=
  ∀ (params' : List Ty) (rest' : Rest Ty) (as bs : List Char),
    argChars params rest ++ ')' :: as = argChars params' rest' ++ ')' :: bs →
      regroupedEach params = regroupedEach params' ∧ regroupedRest rest = regroupedRest rest' ∧
        as = bs

/-- How the text of arguments goes on: with the end, with the dots, or with a type. -/
theorem argChars_cases (params : List Ty) (rest : Rest Ty) (as : List Char) :
    (params = [] ∧ rest = .none ∧ argChars params rest ++ as = as) ∨
      (params = [] ∧ rest = .untyped ∧ argChars params rest ++ as = "...".toList ++ as) ∨
      (∃ elem, params = [] ∧ rest = .typed elem ∧
        argChars params rest ++ as = elem.chars ++ ("...".toList ++ as)) ∨
      ∃ param more, params = param :: more ∧
        argChars params rest ++ as = param.chars ++ (moreArgChars more rest ++ as) := by
  cases params with
  | cons param more =>
    exact .inr (.inr (.inr ⟨param, more, rfl, by rw [argChars_cons, List.append_assoc]⟩))
  | nil =>
    cases rest with
    | none => exact .inl ⟨rfl, rfl, rfl⟩
    | untyped => exact .inr (.inl ⟨rfl, rfl, rfl⟩)
    | typed elem =>
      exact .inr (.inr (.inl ⟨elem, rfl, rfl, by rw [argChars_typed, List.append_assoc]⟩))

/-- A type starts with the mark of a reference or with its core. -/
theorem ne_chars_append {c : Char} {as bs : List Char} {t : Ty} (hc : c ∉ ['r', '@', 'f']) :
    c :: as ≠ t.chars ++ bs := by
  obtain ⟨first, more, hchars, hfirst⟩ := exists_chars t
  intro h
  rw [hchars] at h
  exact hc ((List.cons.inj h).1 ▸ hfirst)

theorem endsType_moreArgChars (params : List Ty) (rest : Rest Ty) (as : List Char) :
    EndsType (moreArgChars params rest ++ ')' :: as) := by
  obtain ⟨-, -, hmore⟩ | hmore := moreArgChars_cases params rest
  all_goals
    rw [hmore]
    intro c hc
    cases hc
    decide

theorem endsType_dots (as : List Char) : EndsType ("...".toList ++ as) := by
  intro c hc
  cases hc
  decide

theorem dots_ne_moreArgChars {params : List Ty} {rest : Rest Ty} {as bs : List Char} :
    "...".toList ++ as ≠ moreArgChars params rest ++ ')' :: bs := by
  obtain ⟨-, -, hmore⟩ | hmore := moreArgChars_cases params rest
  all_goals
    rw [hmore]
    intro h
    exact absurd (List.cons.inj h).1 (by decide)

theorem none_argsDetermined : ArgsDetermined [] .none := by
  intro params' rest' as bs heq
  obtain ⟨rfl, rfl, -⟩ | ⟨rfl, rfl, -⟩ | ⟨elem', rfl, rfl, htext⟩ |
      ⟨param', more', rfl, htext⟩ := argChars_cases params' rest' (')' :: bs)
  · exact ⟨rfl, rfl, (List.cons.inj heq).2⟩
  · exact absurd (List.cons.inj heq).1 (by decide)
  · exact absurd (heq.trans htext) (ne_chars_append (by decide))
  · exact absurd (heq.trans htext) (ne_chars_append (by decide))

theorem untyped_argsDetermined : ArgsDetermined [] .untyped := by
  intro params' rest' as bs heq
  obtain ⟨rfl, rfl, -⟩ | ⟨rfl, rfl, -⟩ | ⟨elem', rfl, rfl, htext⟩ |
      ⟨param', more', rfl, htext⟩ := argChars_cases params' rest' (')' :: bs)
  · exact absurd (List.cons.inj heq).1 (by decide)
  · have hend : "...)".toList ++ as = "...)".toList ++ bs := heq
    exact ⟨rfl, rfl, List.append_cancel_left hend⟩
  · exact absurd (heq.trans htext) (ne_chars_append (by decide))
  · exact absurd (heq.trans htext) (ne_chars_append (by decide))

theorem typed_argsDetermined {elem : Ty} (h : elem.Determined) :
    ArgsDetermined [] (.typed elem) := by
  intro params' rest' as bs heq
  rw [argChars_typed, List.append_assoc] at heq
  obtain ⟨rfl, rfl, htext⟩ | ⟨rfl, rfl, htext⟩ | ⟨elem', rfl, rfl, htext⟩ |
      ⟨param', more', rfl, htext⟩ := argChars_cases params' rest' (')' :: bs)
  all_goals rw [htext] at heq
  · exact absurd heq.symm (ne_chars_append (by decide))
  · exact absurd heq.symm (ne_chars_append (by decide))
  · obtain ⟨helem, hend⟩ := h elem' _ _ (endsType_dots _) (endsType_dots _) heq
    have hafter : "...)".toList ++ as = "...)".toList ++ bs := hend
    exact ⟨rfl, by rw [regroupedRest, regroupedRest, helem], List.append_cancel_left hafter⟩
  · obtain ⟨-, hend⟩ := h param' _ _ (endsType_dots _) (endsType_moreArgChars _ _ _) heq
    exact absurd hend dots_ne_moreArgChars

theorem cons_argsDetermined {param : Ty} {params : List Ty} {rest : Rest Ty}
    (hparam : param.Determined) (hmore : ArgsDetermined params rest) :
    ArgsDetermined (param :: params) rest := by
  intro params' rest' as bs heq
  rw [argChars_cons, List.append_assoc] at heq
  obtain ⟨rfl, rfl, htext⟩ | ⟨rfl, rfl, htext⟩ | ⟨elem', rfl, rfl, htext⟩ |
      ⟨param', more', rfl, htext⟩ := argChars_cases params' rest' (')' :: bs)
  all_goals rw [htext] at heq
  · exact absurd heq.symm (ne_chars_append (by decide))
  · exact absurd heq.symm (ne_chars_append (by decide))
  · obtain ⟨-, hend⟩ := hparam elem' _ _ (endsType_moreArgChars _ _ _) (endsType_dots _) heq
    exact absurd hend.symm dots_ne_moreArgChars
  · obtain ⟨hfirst, hafter⟩ :=
      hparam param' _ _ (endsType_moreArgChars _ _ _) (endsType_moreArgChars _ _ _) heq
    rw [regroupedEach, regroupedEach, hfirst]
    obtain ⟨rfl, rfl, hcs⟩ | hcs := moreArgChars_cases params rest
    · obtain ⟨rfl, rfl, hds⟩ | hds := moreArgChars_cases more' rest'
      · rw [hcs] at hafter
        exact ⟨rfl, rfl, (List.cons.inj hafter).2⟩
      · rw [hcs, hds] at hafter
        exact absurd (List.cons.inj hafter).1 (by decide)
    · obtain ⟨rfl, rfl, hds⟩ | hds := moreArgChars_cases more' rest'
      · rw [hcs, hds] at hafter
        exact absurd (List.cons.inj hafter).1 (by decide)
      · rw [hcs, hds, List.append_assoc, List.append_assoc] at hafter
        obtain ⟨heach, hrest, hend⟩ :=
          hmore more' rest' as bs (List.append_cancel_left hafter)
        exact ⟨by rw [heach], hrest, hend⟩

/-- The text of a primitive type is told apart from every other core. -/
theorem prim_coreDetermined (p : Primitive) : (Ty.prim p).CoreDetermined := by
  intro u as bs has hbs heq
  have hcut : ∀ {cs : List Char}, EndsCore cs →
      ∀ c ∈ cs.head?, decide (c ∉ typeDelimiters) = false :=
    fun hends c hc => decide_eq_false (not_not_intro (hends c hc))
  have hinner : ∀ q : Primitive, ∀ c ∈ q.render.toList, decide (c ∉ typeDelimiters) = true :=
    fun q c hc => decide_eq_true (q.not_mem_delimiters c hc)
  obtain ⟨q, hu⟩ | ⟨ret, params, rest, hu⟩ := core_cases u
  · rw [hu] at heq
    obtain ⟨htext, hend⟩ :=
      append_inj_of_boundary (hinner p) (hinner q) (hcut has) (hcut hbs) heq
    rw [hu, Primitive.render_inj (String.toList_inj.mp htext)]
    exact ⟨rfl, hend⟩
  · obtain ⟨more, hmore⟩ := p.exists_chars
    rw [hu, show (Ty.prim p).core.chars = _ from hmore,
      show (Ty.func _).chars = _ from chars_func ..] at heq
    exact absurd (List.cons.inj heq).1 (by decide)

/-- The parts of a signature are told apart by what comes after each of them. -/
theorem func_coreDetermined {ret : Ty} {params : List Ty} {rest : Rest Ty} (hret : ret.Determined)
    (hargs : ArgsDetermined params rest) : (Ty.func ⟨ret, params, rest⟩).CoreDetermined := by
  intro u as bs has hbs heq
  have hopen : ∀ cs : List Char, EndsType ('(' :: cs) := by
    intro cs c hc
    cases hc
    decide
  obtain ⟨q, hu⟩ | ⟨ret', params', rest', hu⟩ := core_cases u
  · obtain ⟨more, hmore⟩ := q.exists_chars
    rw [hu, show (Ty.prim q).chars = _ from hmore,
      show (Ty.func _).core.chars = _ from chars_func ..] at heq
    exact absurd (List.cons.inj heq).1 (by decide)
  · rw [hu, show (Ty.func _).core.chars = _ from chars_func ..,
      show (Ty.func _).chars = _ from chars_func .., List.append_assoc, List.append_assoc,
      List.append_assoc, List.append_assoc] at heq
    obtain ⟨hret', hmore⟩ :=
      hret ret' _ _ (hopen _) (hopen _) (List.append_cancel_left heq)
    have hinside := (List.cons.inj hmore).2
    rw [List.append_eq, List.append_eq, List.append_assoc, List.append_assoc] at hinside
    obtain ⟨hparams, hrest, hend⟩ := hargs params' rest' _ _ hinside
    rw [hu]
    refine ⟨?_, (List.cons.inj hend).2⟩
    show Ty.func ⟨ret.regrouped, regroupedEach params, regroupedRest rest⟩ = _
    rw [hret', hparams, hrest]
    rfl

mutual

theorem coreDetermined (t : Ty) : t.CoreDetermined := by
  cases t with
  | prim p => exact prim_coreDetermined p
  | ref inner => exact coreDetermined inner
  | array elem length => exact coreDetermined elem
  | func sig => exact signature_coreDetermined sig

theorem signature_coreDetermined (sig : Signature Ty) : (Ty.func sig).CoreDetermined := by
  obtain ⟨ret, params, rest⟩ := sig
  exact func_coreDetermined (coreDetermined ret).determined
    (argsDetermined params (restDetermined rest))

theorem argsDetermined (params : List Ty) {rest : Rest Ty} (hrest : ArgsDetermined [] rest) :
    ArgsDetermined params rest := by
  cases params with
  | nil => exact hrest
  | cons param params =>
    exact cons_argsDetermined (coreDetermined param).determined (argsDetermined params hrest)

theorem restDetermined (rest : Rest Ty) : ArgsDetermined [] rest := by
  cases rest with
  | none => exact none_argsDetermined
  | untyped => exact untyped_argsDetermined
  | typed elem => exact typed_argsDetermined (coreDetermined elem).determined

end

/-! ## Regrouping keeps the text -/

theorem arrayInside_chars (t : Ty) (length : Option Nat) :
    (t.arrayInside length).chars = t.chars ++ brackets length := by
  cases t with
  | ref inner => rw [arrayInside, chars_ref, chars_ref, arrayInside_chars inner, List.append_assoc]
  | _ => exact chars_array _ _

mutual

theorem regrouped_render (t : Ty) : t.regrouped.render = t.render := by
  cases t with
  | prim p => rfl
  | ref inner => rw [regrouped, render, render, regrouped_render inner]
  | array elem length =>
    have hchars : (Ty.array elem length).regrouped.chars = (Ty.array elem length).chars := by
      rw [regrouped, arrayInside_chars, chars, regrouped_render elem, chars_array]
      rfl
    exact String.toList_inj.mp hchars
  | func sig => rw [regrouped, render, render, regroupedSignature_render sig]

theorem regroupedSignature_render (sig : Signature Ty) :
    renderSignature (regroupedSignature sig) = renderSignature sig := by
  obtain ⟨ret, params, rest⟩ := sig
  rw [regroupedSignature, renderSignature, renderSignature, regrouped_render ret,
    regroupedEach_render params, regroupedRest_render rest]

theorem regroupedEach_render (ts : List Ty) : renderEach (regroupedEach ts) = renderEach ts := by
  cases ts with
  | nil => rfl
  | cons t ts =>
    rw [regroupedEach, renderEach, renderEach, regrouped_render t, regroupedEach_render ts]

theorem regroupedRest_render (rest : Rest Ty) :
    renderRest (regroupedRest rest) = renderRest rest := by
  cases rest with
  | typed elem => rw [regroupedRest, renderRest, renderRest, regrouped_render elem]
  | _ => rfl

end

end Ty

/-- Two types have the same text if and only if they are the same up to the place of references
around arrays. So the text determines the type where no array has references as its elements. -/
theorem render_eq_iff_regrouped (t u : Ty) :
    (t.render = u.render ↔ t.regrouped = u.regrouped) ∧
      (t.RefsOutside → u.RefsOutside → t.render = u.render → t = u) := by
  have hiff : t.render = u.render ↔ t.regrouped = u.regrouped := by
    constructor
    · intro h
      have hchars : t.chars ++ [] = u.chars ++ [] := by rw [Ty.chars, Ty.chars, h]
      exact ((Ty.coreDetermined t).determined u [] [] nofun nofun hchars).1
    · intro h
      rw [← Ty.regrouped_render t, h, Ty.regrouped_render u]
  refine ⟨hiff, fun ht hu h => ?_⟩
  rw [← ht.regrouped_eq, hiff.mp h, hu.regrouped_eq]

/-- A function type over an array of references has the text of one over a reference to an array,
and is that type once regrouped. -/
theorem function_of_ref_to_array_determined :
    (Ty.func ⟨.array (.ref .int) (some 4), [.int], .untyped⟩).render =
        (Ty.func ⟨.ref (.array .int (some 4)), [.int], .untyped⟩).render ∧
      Ty.func ⟨.ref (.array .int (some 4)), [.int], .untyped⟩ =
        (Ty.func ⟨.array (.ref .int) (some 4), [.int], .untyped⟩).regrouped :=
  ⟨(render_eq_iff_regrouped _ _).1.mpr rfl,
    (render_eq_iff_regrouped _ _).2 ⟨⟨rfl, trivial⟩, ⟨trivial, trivial⟩, trivial⟩
      ⟨⟨rfl, trivial⟩, ⟨trivial, trivial⟩, trivial⟩ rfl⟩

/-- A source can name an array of references and a reference to an array, which have the same text,
and a mismatch between them is reported with this text twice. -/
theorem array_of_refs_has_text_of_ref : ∃ unit unit' context,
    SourceUnit.parse 0 "alias ref int p\np[4] x\nref int[4] y = x\n" = .ok unit ∧
    unit.resolve = (unit', .ok context) ∧
    ∃ d ∈ context.decls, ∃ e ∈ context.decls, d.ty.render = e.ty.render ∧ d.ty ≠ e.ty ∧
      (unit'.check context).errors = [.typeMismatch e.ty.render d.ty.render ⟨0, 38, 39⟩] := by
  have hok : ((SourceUnit.parse 0
      "alias ref int p\np[4] x\nref int[4] y = x\n").toOption.any fun unit =>
      unit.resolve.2.toOption.any fun context =>
        context.decls.any fun d => context.decls.any fun e =>
          d.ty.render = e.ty.render ∧ d.ty ≠ e.ty ∧ (unit.resolve.1.check context).errors =
            [.typeMismatch e.ty.render d.ty.render ⟨0, 38, 39⟩]) = true := by
    rw [SourceUnit.parse_ofList]
    decide +kernel
  obtain ⟨unit, unit', context, hparse, hresolve, htypes⟩ := SourceUnit.exists_resolved
    (p := fun unit' context => context.decls.any fun d => context.decls.any fun e =>
      d.ty.render = e.ty.render ∧ d.ty ≠ e.ty ∧ (unit'.check context).errors =
        [.typeMismatch e.ty.render d.ty.render ⟨0, 38, 39⟩]) hok
  obtain ⟨d, hd, htypes⟩ := List.any_eq_true.mp htypes
  obtain ⟨e, he, htypes⟩ := List.any_eq_true.mp htypes
  exact ⟨unit, unit', context, hparse, hresolve, d, hd, e, he, of_decide_eq_true htypes⟩

end KilnLang
