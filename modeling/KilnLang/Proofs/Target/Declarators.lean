import KilnLang.Proofs.Semantic.Operands
import KilnLang.Proofs.Target.Spelling
import Mathlib.Data.List.TakeWhile
import Mathlib.Logic.Function.Iterate
import Mathlib.Tactic.IntervalCases

/-!
# Reading declarators

A declaration of C starts with a specifier, which names the type at the base, and goes on with a
declarator: stars, then a name, nothing or a declarator in parentheses, and after it the lengths of
arrays and the parameters of functions. What is after bears on the name before the stars do, and
what is in parentheses before what is after them.

The words of C's own types and the names that are defined as types (`isType`) tell a parameter list
from a declarator in parentheses, and a specifier from a name.

**Theorem (`declarations_read_back`).** The text of a declaration of a name with a type is read back
as the name and the type, where stars of the text at the base are pointers, and where a list of one
parameter that is `void` without a name is empty.

The induction is on the type. A declarator that is written around a name wraps the types it is given
in its own layers (`Wraps`), whatever is written after it.
-/

namespace KilnLang

open CPiece CLexer

/-! ## The grammar -/

namespace CDeclaration

/-- What is read from tokens: a value and the tokens that are left, fewer than `bound`. -/
structure Reading (α : Type) (bound : Nat) where
  value : α
  rest : List CLexeme
  fits : rest.length < bound

/-- A declarator: the name, and the type that it gives the name over the type at its base. -/
structure Declarator where
  name : String
  wrap : CType → CType

/-- The words that C's own types are made of. -/
def typeKeywords : List String :=
  ["void", "char", "short", "int", "long", "float", "double", "signed", "unsigned", "_Bool",
    "_Complex"]

/-- Whether the word is one of those that C's own types are made of. -/
def isKeyword (w : String) : Bool := typeKeywords.contains w

/-- Whether the token is a word of C's own types. -/
def isKeywordToken : CLexeme → Bool
  | .word w => isKeyword w
  | _ => false

/-- The length of an array: a decimal number without a leading zero. -/
def length? (text : String) : Option Nat :=
  if text.toList.all Char.isDigit && (text == "0" || text.toList.head? != some '0') then
    some (Nat.ofDigitChars 10 text.toList 0)
  else none

/-- The types of parameters, where one `void` without a name stands for none. -/
def paramTypes : List (String × CType) → Bool → List CType
  | [("", .named "void")], false => []
  | params, _ => params.map (·.2)

variable (isType : String → Bool)

/-- Whether a declarator in parentheses starts with the tokens, and not a parameter list. -/
def startsDeclarator : List CLexeme → Bool
  | .punct p :: _ => p == "*" || p == "(" || p == "["
  | .word w :: _ => !isKeyword w && !isType w
  | _ => false

/-- Reads a specifier: words of C's own types, or the name of a type. -/
def specifier : (ts : List CLexeme) → Option (Reading String ts.length)
  | .word w :: ts =>
    if isKeyword w then
      some ⟨" ".intercalate (w :: (ts.takeWhile isKeywordToken).map (·.text)),
        ts.dropWhile isKeywordToken, Nat.lt_succ_of_le (List.dropWhile_suffix _).length_le⟩
    else if isType w then some ⟨w, ts, Nat.lt_succ_self _⟩
    else none
  | _ => none

mutual

/-- Reads a declarator, which may start with stars. -/
def declarator : (ts : List CLexeme) → Option (Reading Declarator (ts.length + 1))
  | .punct "*" :: ts => do
    let d ← declarator ts
    some ⟨⟨d.value.name, fun t => d.value.wrap (.pointer t)⟩, d.rest, Nat.lt_succ_of_lt d.fits⟩
  | ts => direct ts
termination_by ts => 3 * ts.length + 2
decreasing_by all_goals grind

/-- Reads a declarator without stars before it. -/
def direct : (ts : List CLexeme) → Option (Reading Declarator (ts.length + 1))
  | .punct "(" :: ts =>
    if startsDeclarator isType ts then do
      let d ← declarator ts
      match h : d.rest with
      | .punct ")" :: rest => do
        have : rest.length < ts.length := by grind [d.fits]
        let s ← suffixes rest
        some ⟨⟨d.value.name, fun t => d.value.wrap (s.value t)⟩, s.rest, by grind [s.fits]⟩
      | _ => none
    else do
      let s ← suffixes (.punct "(" :: ts)
      some ⟨⟨"", s.value⟩, s.rest, s.fits⟩
  | .word w :: ts =>
    if isKeyword w then some ⟨⟨"", id⟩, .word w :: ts, Nat.lt_succ_self _⟩
    else do
      let s ← suffixes ts
      some ⟨⟨w, s.value⟩, s.rest, Nat.lt_succ_of_lt s.fits⟩
  | ts => do
    let s ← suffixes ts
    some ⟨⟨"", s.value⟩, s.rest, s.fits⟩
termination_by ts => 3 * ts.length + 1
decreasing_by all_goals grind

/-- Reads lengths of arrays and parameter lists; gives the type that they make of the type of their
elements or results. -/
def suffixes : (ts : List CLexeme) → Option (Reading (CType → CType) (ts.length + 1))
  | .punct "[" :: .punct "]" :: ts => do
    let s ← suffixes ts
    some ⟨fun t => .array (s.value t) none, s.rest, by grind [s.fits]⟩
  | .punct "[" :: .number text :: .punct "]" :: ts => do
    let length ← length? text
    let s ← suffixes ts
    some ⟨fun t => .array (s.value t) (some length), s.rest, by grind [s.fits]⟩
  | .punct "(" :: ts => do
    let p ← params ts
    have := p.fits
    let s ← suffixes p.rest
    some ⟨fun t => .function (s.value t) (paramTypes p.value.1 p.value.2) p.value.2, s.rest,
      by grind [s.fits]⟩
  | ts => some ⟨id, ts, Nat.lt_succ_self _⟩
termination_by ts => 3 * ts.length
decreasing_by all_goals grind

/-- Reads parameters up to the closing parenthesis, and whether further arguments may follow. -/
def params : (ts : List CLexeme) → Option (Reading (List (String × CType) × Bool) ts.length)
  | .punct "..." :: .punct ")" :: ts => some ⟨([], true), ts, by grind⟩
  | ts => do
    let p ← declaration ts
    match h : p.rest with
    | .punct ")" :: rest => some ⟨([p.value], false), rest, by grind [p.fits]⟩
    | .punct "," :: rest => do
      have : rest.length < ts.length := by grind [p.fits]
      let more ← params rest
      some ⟨(p.value :: more.value.1, more.value.2), more.rest, by grind [more.fits]⟩
    | _ => none
termination_by ts => 3 * ts.length + 1
decreasing_by all_goals grind

/-- Reads a declaration: the name, which may be missing, and its type. -/
def declaration (ts : List CLexeme) : Option (Reading (String × CType) ts.length) := do
  let s ← specifier isType ts
  have := s.fits
  let d ← declarator s.rest
  some ⟨(d.value.name, d.value.wrap (.named s.value)), d.rest, by grind [d.fits]⟩
termination_by 3 * ts.length
decreasing_by all_goals grind

end

/-- The name and the type that a text declares. -/
def ofText (text : String) : Option (String × CType) := do
  let ts ← tokens? text.toList
  let d ← declaration isType ts
  if d.rest.isEmpty then some d.value else none

/-! ## Reading what is written -/

/-- The reading gives the value and leaves the tokens. -/
def Takes {α : Type} {bound : Nat} (r : Option (Reading α bound)) (value : α)
    (rest : List CLexeme) : Prop :=
  ∃ fits, r = some ⟨value, rest, fits⟩

variable {isType}

theorem takes_star {ts rest : List CLexeme} {name : String} {wrap : CType → CType}
    (h : Takes (declarator isType ts) ⟨name, wrap⟩ rest) :
    Takes (declarator isType (.punct "*" :: ts)) ⟨name, fun t => wrap (.pointer t)⟩ rest := by
  obtain ⟨fits, h⟩ := h
  rw [declarator, h]
  exact ⟨_, rfl⟩

theorem takes_name {w : String} {ts rest : List CLexeme} {wrap : CType → CType}
    (hw : isKeyword w = false) (h : Takes (suffixes isType ts) wrap rest) :
    Takes (declarator isType (.word w :: ts)) ⟨w, wrap⟩ rest := by
  obtain ⟨fits, h⟩ := h
  rw [declarator, direct, if_neg (ne_true_of_eq_false hw), h]
  · exact ⟨_, rfl⟩
  · simp

theorem takes_group {ts rest rest' : List CLexeme} {name : String} {wrap wrap' : CType → CType}
    (hstarts : startsDeclarator isType ts)
    (h : Takes (declarator isType ts) ⟨name, wrap⟩ (.punct ")" :: rest))
    (h' : Takes (suffixes isType rest) wrap' rest') :
    Takes (declarator isType (.punct "(" :: ts)) ⟨name, wrap ∘ wrap'⟩ rest' := by
  obtain ⟨fits, h⟩ := h
  obtain ⟨fits', h'⟩ := h'
  rw [declarator, direct, if_pos hstarts, h]
  · simp only [Option.bind_eq_bind, Option.bind_some]
    rw [h']
    exact ⟨_, rfl⟩
  · simp

/-- No decimal numeral but that of zero starts with a zero. -/
theorem head?_toDigits_ne_zero {n : Nat} (h : 0 < n) : (Nat.toDigits 10 n).head? ≠ some '0' := by
  induction n using Nat.strongRecOn with
  | ind n ih =>
    by_cases hlt : n < 10
    · rw [Nat.toDigits_of_lt_base hlt]
      interval_cases n <;> decide
    · have hle : 10 ≤ n := Nat.le_of_not_lt hlt
      have hhead := ih (n / 10) (Nat.div_lt_self h (by decide)) (Nat.div_pos hle (by decide))
      rw [Nat.toDigits_of_base_le (by decide) hle,
        List.head?_append_of_ne_nil _ Nat.toDigits_ne_nil]
      exact hhead

theorem length?_toString (n : Nat) : length? (toString n) = some n := by
  have htext : (toString n).toList = Nat.toDigits 10 n := by
    rw [Nat.toString_eq_ofList_toDigits, String.toList_ofList]
  have hdigits : (Nat.toDigits 10 n).all Char.isDigit :=
    List.all_eq_true.mpr fun _ => Nat.isDigit_of_mem_toDigits (by decide) (by decide)
  have hzero : (toString n == "0" || (Nat.toDigits 10 n).head? != some '0') = true := by
    rcases Nat.eq_zero_or_pos n with rfl | hpos
    · rfl
    · simp [head?_toDigits_ne_zero hpos]
  rw [length?, htext, hdigits, hzero, Bool.and_true, if_pos rfl, Nat.ofDigitChars_ten_toDigits]

/-- Lengths and parameters, with nothing before them, are read as those of a declarator without a
name. -/
def Suffixed (isType : String → Bool) (ts : List CLexeme) (wrap : CType → CType)
    (rest : List CLexeme) : Prop :=
  Takes (suffixes isType ts) wrap rest ∧ Takes (declarator isType ts) ⟨"", wrap⟩ rest

theorem suffixed_array {ts rest : List CLexeme} {wrap : CType → CType}
    (h : Suffixed isType ts wrap rest) (length : Option Nat) :
    Suffixed isType (.punct "[" :: (lexemes (CType.lengthPieces length) ++ .punct "]" :: ts))
      (fun t => .array (wrap t) length) rest := by
  obtain ⟨⟨fits, h⟩, -⟩ := h
  have hsuffixes : Takes (suffixes isType
      (.punct "[" :: (lexemes (CType.lengthPieces length) ++ .punct "]" :: ts)))
      (fun t => .array (wrap t) length) rest := by
    cases length with
    | none =>
      show Takes (suffixes isType (.punct "[" :: .punct "]" :: ts)) _ _
      rw [suffixes, h]
      exact ⟨_, rfl⟩
    | some n =>
      show Takes (suffixes isType (.punct "[" :: .number (toString n) :: .punct "]" :: ts)) _ _
      rw [suffixes, length?_toString, Option.bind_eq_bind, Option.bind_some, h]
      exact ⟨_, rfl⟩
  refine ⟨hsuffixes, ?_⟩
  obtain ⟨fits, hsuffixes⟩ := hsuffixes
  rw [declarator, direct, hsuffixes]
  · exact ⟨_, rfl⟩
  all_goals simp

theorem suffixed_function {ts ps rest : List CLexeme} {wrap : CType → CType}
    {params : List (String × CType)} {variadic : Bool} (h : Suffixed isType ts wrap rest)
    (hstarts : startsDeclarator isType ps = false)
    (hparams : Takes (CDeclaration.params isType ps) (params, variadic) ts) :
    Suffixed isType (.punct "(" :: ps)
      (fun t => .function (wrap t) (paramTypes params variadic) variadic) rest := by
  obtain ⟨⟨fits, h⟩, -⟩ := h
  obtain ⟨fits', hparams⟩ := hparams
  have hsuffixes : Takes (suffixes isType (.punct "(" :: ps))
      (fun t => .function (wrap t) (paramTypes params variadic) variadic) rest := by
    rw [suffixes, hparams]
    simp only [Option.bind_eq_bind, Option.bind_some]
    rw [h]
    exact ⟨_, rfl⟩
  refine ⟨hsuffixes, ?_⟩
  obtain ⟨fits, hsuffixes⟩ := hsuffixes
  rw [declarator, direct, if_neg (ne_true_of_eq_false hstarts), hsuffixes]
  · exact ⟨_, rfl⟩
  · simp

/-- The tokens start neither with a declarator nor with what may go on with one. -/
def Stops (ts : List CLexeme) : Prop :=
  ∀ t ∈ ts.head?, (∀ w, t ≠ .word w) ∧ t ≠ .punct "*" ∧ t ≠ .punct "(" ∧ t ≠ .punct "["

theorem suffixed_of_stops {ts : List CLexeme} (h : Stops ts) : Suffixed isType ts id ts := by
  have hsuffixes : Takes (suffixes isType ts) id ts := by
    rw [suffixes]
    · exact ⟨_, rfl⟩
    · rintro more rfl
      exact absurd rfl (h _ rfl).2.2.2
    · rintro text more rfl
      exact absurd rfl (h _ rfl).2.2.2
    · rintro more rfl
      exact absurd rfl (h _ rfl).2.2.1
  refine ⟨hsuffixes, ?_⟩
  obtain ⟨fits, hsuffixes⟩ := hsuffixes
  rw [declarator, direct, hsuffixes]
  · exact ⟨_, rfl⟩
  · rintro more rfl
    exact absurd rfl (h _ rfl).2.2.1
  · rintro w more rfl
    exact absurd rfl ((h _ rfl).1 w)
  · rintro more rfl
    exact absurd rfl (h _ rfl).2.1

theorem stops_nil : Stops [] := fun _ h => absurd h (by simp)

theorem stops_closing (ts : List CLexeme) : Stops (.punct ")" :: ts) := by
  intro t ht
  obtain rfl : .punct ")" = t := by simpa using ht
  simp

theorem stops_comma (ts : List CLexeme) : Stops (.punct "," :: ts) := by
  intro t ht
  obtain rfl : .punct "," = t := by simpa using ht
  simp

/-! ### Declarators around a name -/

/-- The tokens are those of a declarator of the name, which wraps what is written after it in its
own layers. -/
def Wraps (isType : String → Bool) (core : List CLexeme) (name : String) (wrap : CType → CType) :
    Prop :=
  ∀ ts inner rest, Suffixed isType ts inner rest →
    Takes (declarator isType (core ++ ts)) ⟨name, wrap ∘ inner⟩ rest

theorem wraps_nil : Wraps isType [] "" id := fun _ _ _ h => h.2

theorem wraps_name {w : String} (hw : isKeyword w = false) : Wraps isType [.word w] w id :=
  fun _ _ _ h => takes_name hw h.1

theorem Wraps.array {core : List CLexeme} {name : String} {wrap : CType → CType}
    (h : Wraps isType core name wrap) (length : Option Nat) :
    Wraps isType (core ++ .punct "[" :: (lexemes (CType.lengthPieces length) ++ [.punct "]"])) name
      (fun t => wrap (.array t length)) := by
  intro ts inner rest hts
  have happend : core ++ .punct "[" :: (lexemes (CType.lengthPieces length) ++ [.punct "]"]) ++ ts =
      core ++ .punct "[" :: (lexemes (CType.lengthPieces length) ++ .punct "]" :: ts) := by simp
  rw [happend]
  exact h _ _ _ (suffixed_array hts length)

theorem Wraps.function {core ps : List CLexeme} {name : String} {wrap : CType → CType}
    {params : List (String × CType)} {variadic : Bool} (h : Wraps isType core name wrap)
    (hstarts : ∀ ts, startsDeclarator isType (ps ++ ts) = false)
    (hparams : ∀ ts,
      Takes (CDeclaration.params isType (ps ++ .punct ")" :: ts)) (params, variadic) ts) :
    Wraps isType (core ++ .punct "(" :: (ps ++ [.punct ")"])) name
      (fun t => wrap (.function t (paramTypes params variadic) variadic)) := by
  intro ts inner rest hts
  have happend : core ++ .punct "(" :: (ps ++ [.punct ")"]) ++ ts =
      core ++ .punct "(" :: (ps ++ .punct ")" :: ts) := by simp
  rw [happend]
  exact h _ _ _ (suffixed_function hts (hstarts _) (hparams ts))

theorem Wraps.stars {core ts rest : List CLexeme} {name : String} {wrap inner : CType → CType}
    (h : Wraps isType core name wrap) (hts : Suffixed isType ts inner rest) (n : Nat) :
    Takes (declarator isType (List.replicate n (.punct "*") ++ (core ++ ts)))
      ⟨name, fun t => wrap (inner (CType.pointer^[n] t))⟩ rest := by
  induction n with
  | zero => exact h ts inner rest hts
  | succ n ih => exact takes_star ih

theorem Wraps.group {core : List CLexeme} {name : String} {wrap : CType → CType}
    (h : Wraps isType core name wrap) (n : Nat) :
    Wraps isType
      (.punct "(" :: (List.replicate (n + 1) (.punct "*") ++ (core ++ [.punct ")"]))) name
      (fun t => wrap (CType.pointer^[n + 1] t)) := by
  intro ts inner rest hts
  rw [List.cons_append, List.append_assoc, List.append_assoc, List.singleton_append]
  have hinner := h.stars (suffixed_of_stops (stops_closing ts)) (n + 1)
  exact takes_group (by simp [List.replicate_succ, startsDeclarator]) hinner hts.1

end CDeclaration

/-! ## Types that are read back -/

namespace CType

open CDeclaration

/-- The text of a named type without its stars. -/
def base (text : String) : String := String.ofList (text.toList.takeWhile (· != '*'))

mutual

/-- The type with pointers for the stars of its names, and without parameters for a list of one
`void`. -/
def spread : CType → CType
  | .named text => CType.pointer^[specifierStars text] (.named (base text))
  | .pointer target => .pointer target.spread
  | .array elem length => .array elem.spread length
  | .function ret [.named "void"] false => .function ret.spread [] false
  | .function ret params variadic => .function ret.spread (spreadEach params) variadic

/-- The types with pointers for stars. -/
def spreadEach : List CType → List CType
  | [] => []
  | t :: ts => t.spread :: spreadEach ts

end

/-- The text names a type: words of C's own types, or one name of a type, and stars. -/
structure Denotes (isType : String → Bool) (text : String) : Prop extends IsSpecifier text where
  known : (∀ w ∈ specifierWords text, isKeyword w) ∨
    ∃ w, specifierWords text = [w] ∧ isType w

theorem intercalate_words (text : String) :
    " ".intercalate (specifierWords text) = base text := by
  refine String.toList_inj.mp ?_
  rw [String.toList_intercalate, specifierWords, base, String.toList_ofList, List.map_map]
  have hwords : String.toList ∘ String.ofList = id := funext fun _ => String.toList_ofList
  rw [hwords, List.map_id]
  exact (List.intercalate_splitOn ' ').trans String.toList_ofList.symm

theorem specifierWords_ne_nil (text : String) : specifierWords text ≠ [] := by
  simp [specifierWords]

theorem lexemes_words (words : List String) :
    lexemes (wordPieces words) = words.map CLexeme.word := by
  induction words with
  | nil => rfl
  | cons w words ih =>
    cases words with
    | nil => rfl
    | cons next words =>
      rw [wordPieces, lexemes_tight, lexemes_space, ih]
      rfl

theorem lexemes_stars (n : Nat) :
    lexemes (List.replicate n (mark "*")) = List.replicate n (.punct "*") := by
  induction n with
  | zero => rfl
  | succ n ih => rw [List.replicate_succ, lexemes_tight, ih]; rfl

theorem lexemes_gap (core : List CPiece) : lexemes (gap core) = [] := by
  unfold gap
  split
  · rfl
  · split <;> rfl

variable {isType : String → Bool}

/-- The first token of a specifier is a word of a type. -/
theorem Denotes.first {text : String} (h : Denotes isType text) :
    ∃ w more, specifierWords text = w :: more ∧ (isKeyword w || isType w) := by
  obtain ⟨w, more, hwords⟩ := List.exists_cons_of_ne_nil (specifierWords_ne_nil text)
  refine ⟨w, more, hwords, ?_⟩
  rcases h.known with hall | ⟨w', hwords', hw⟩
  · simp [hall w (by simp [hwords])]
  · obtain ⟨rfl, rfl⟩ := List.cons.inj (hwords.symm.trans hwords')
    simp [hw]

/-- No word of C's own types follows. -/
def EndsSpecifier (ts : List CLexeme) : Prop := ∀ t ∈ ts.head?, isKeywordToken t = false

theorem takes_specifier {text : String} (h : Denotes isType text) {ts : List CLexeme}
    (hts : EndsSpecifier ts) :
    Takes (CDeclaration.specifier isType ((specifierWords text).map .word ++ ts)) (base text)
      ts := by
  obtain ⟨w, more, hwords, hw⟩ := h.first
  rw [← intercalate_words, hwords, List.map_cons, List.cons_append]
  by_cases hkeyword : isKeyword w
  · have hall : ∀ t ∈ more.map CLexeme.word, isKeywordToken t := by
      rcases h.known with hall | ⟨w', hwords', -⟩
      · rintro t ht
        obtain ⟨v, hv, rfl⟩ := List.mem_map.mp ht
        exact hall v (by simp [hwords, hv])
      · obtain ⟨rfl, rfl⟩ := List.cons.inj (hwords.symm.trans hwords')
        exact List.forall_mem_nil _
    obtain ⟨htake, hdrop⟩ := takeWhile_stops hall hts
    have htexts : (more.map CLexeme.word).map CLexeme.text = more := by
      rw [List.map_map]
      exact List.map_id _
    refine ⟨Nat.lt_succ_of_le (by simp), ?_⟩
    simp only [CDeclaration.specifier, if_pos hkeyword, htake, hdrop, htexts]
  · obtain rfl : more = [] := by
      rcases h.known with hall | ⟨w', hwords', -⟩
      · exact absurd (hall w (by simp [hwords])) hkeyword
      · exact (List.cons.inj (hwords.symm.trans hwords')).2
    have hname : isType w := by simpa [hkeyword] using hw
    refine ⟨Nat.lt_succ_of_le (by simp), ?_⟩
    simp [CDeclaration.specifier, hkeyword, hname]

/-- A word of a type is the first token of what is written for a type. -/
theorem first_lexeme : ∀ (t : CType) (stars : Nat) (core : List CPiece),
    (∀ text ∈ t.names, Denotes isType text) →
    ∃ w more, lexemes (t.spell stars core) = .word w :: more ∧ (isKeyword w || isType w)
  | .named text, stars, core, h => by
    obtain ⟨w, more, hwords, hw⟩ := (h text List.mem_cons_self).first
    rw [spell, specifier, lexemes_append, lexemes_append, lexemes_append, lexemes_words, hwords]
    exact ⟨w, _, rfl, hw⟩
  | .pointer target, stars, core, h => by
    rw [spell]
    split
    · exact first_lexeme target _ _ h
    · exact first_lexeme target _ _ h
  | .array elem length, stars, core, h => by
    rw [spell]
    exact first_lexeme elem _ _ h
  | .function ret params variadic, stars, core, h => by
    rw [spell]
    exact first_lexeme ret _ _ (List.forall_mem_append.mp h).1

/-! ### Parameters -/

theorem pointer_iterate_ne_named {n : Nat} (h : 0 < n) (t : CType) (text : String) :
    CType.pointer^[n] t ≠ .named text := by
  obtain ⟨n, rfl⟩ := Nat.exists_eq_succ_of_ne_zero h.ne'
  rw [Function.iterate_succ_apply']
  exact fun heq => CType.noConfusion heq

theorem eq_void_of_spread {t : CType} (h : t.spread = .named "void") : t = .named "void" := by
  cases t with
  | named text =>
    rw [spread] at h
    rcases Nat.eq_zero_or_pos (specifierStars text) with hstars | hstars
    · rw [hstars, Function.iterate_zero_apply] at h
      have hdrop : text.toList.dropWhile (· != '*') = [] := List.eq_nil_of_length_eq_zero hstars
      have htake : text.toList.takeWhile (· != '*') = text.toList := by
        have happend := List.takeWhile_append_dropWhile (p := (· != '*')) (l := text.toList)
        rwa [hdrop, List.append_nil] at happend
      rw [← h, base, htake, String.ofList_toList]
    · exact absurd h (pointer_iterate_ne_named hstars _ _)
  | pointer target => simp [spread] at h
  | array elem length => simp [spread] at h
  | function ret params variadic =>
    by_cases hvoid : params = [.named "void"] ∧ variadic = false
    · obtain ⟨rfl, rfl⟩ := hvoid
      rw [spread] at h
      cases h
    · rw [spread] at h
      · cases h
      · exact fun hparams hvariadic => hvoid ⟨hparams, hvariadic⟩

theorem spread_void : (CType.named "void").spread = .named "void" := rfl

theorem paramTypes_of_ne {params : List (String × CType)} {variadic : Bool}
    (h : ¬ (params = [("", .named "void")] ∧ variadic = false)) :
    paramTypes params variadic = params.map (·.2) := by
  unfold paramTypes
  split
  · exact absurd ⟨rfl, rfl⟩ h
  · rfl

/-- The parameters that are read are those of the type that is read. -/
theorem function_spread (ret : CType) (params : List CType) (variadic : Bool) :
    (CType.function ret params variadic).spread =
      .function ret.spread (paramTypes ((spreadEach params).map ("", ·)) variadic) variadic := by
  by_cases hvoid : params = [.named "void"] ∧ variadic = false
  · obtain ⟨rfl, rfl⟩ := hvoid
    rw [spread, spreadEach, spreadEach, spread_void]
    rfl
  · have hnone :
        ¬ ((spreadEach params).map (("", ·)) = [("", .named "void")] ∧ variadic = false) := by
      rintro ⟨hparams, hvariadic⟩
      refine hvoid ⟨?_, hvariadic⟩
      cases params with
      | nil => cases hparams
      | cons p ps =>
        cases ps with
        | nil =>
          simp only [spreadEach, List.map_cons, List.map_nil, List.cons.injEq,
            Prod.mk.injEq] at hparams
          rw [eq_void_of_spread hparams.1.2]
        | cons q qs => simp [spreadEach] at hparams
    have htypes : ((spreadEach params).map (("", ·))).map (·.2) = spreadEach params := by
      rw [List.map_map]
      exact List.map_id _
    rw [paramTypes_of_ne hnone, htypes, spread]
    exact fun hparams hvariadic => hvoid ⟨hparams, hvariadic⟩

/-! ### Declarations -/

theorem EndsSpecifier.append {ts us : List CLexeme} (hts : EndsSpecifier ts)
    (hus : EndsSpecifier us) : EndsSpecifier (ts ++ us) := by
  cases ts with
  | nil => exact hus
  | cons t ts => exact hts

theorem endsSpecifier_punct (p : String) (ts : List CLexeme) :
    EndsSpecifier (.punct p :: ts) := by
  intro t ht
  obtain rfl : .punct p = t := by simpa using ht
  rfl

theorem endsSpecifier_nil : EndsSpecifier [] := fun _ h => absurd h (by simp)

theorem endsSpecifier_stars (n : Nat) : EndsSpecifier (List.replicate n (.punct "*")) := by
  cases n with
  | zero => exact endsSpecifier_nil
  | succ n => exact endsSpecifier_punct _ _

/-- A specifier and a declarator are read together. -/
theorem takes_of_declarator {text name : String} {wrap : CType → CType} {ts rest : List CLexeme}
    (h : Denotes isType text) (hts : EndsSpecifier ts)
    (hdeclarator : Takes (declarator isType ts) ⟨name, wrap⟩ rest) :
    Takes (declaration isType ((specifierWords text).map .word ++ ts))
      (name, wrap (.named (base text))) rest := by
  obtain ⟨fits, hspecifier⟩ := takes_specifier h hts
  obtain ⟨fits', hdeclarator⟩ := hdeclarator
  rw [declaration, hspecifier]
  simp only [Option.bind_eq_bind, Option.bind_some]
  rw [hdeclarator]
  exact ⟨_, rfl⟩

theorem takes_named {text : String} (h : Denotes isType text) (stars : Nat) (core : List CPiece)
    {name : String} {wrap : CType → CType} {rest : List CLexeme}
    (hends : EndsSpecifier (lexemes core)) (hwraps : Wraps isType (lexemes core) name wrap)
    (hrest : Suffixed isType rest id rest) (hend : EndsSpecifier rest) :
    Takes (declaration isType (lexemes ((CType.named text).spell stars core) ++ rest))
      (name, wrap (CType.pointer^[stars] (CType.named text).spread)) rest := by
  have hlexemes : lexemes ((CType.named text).spell stars core) ++ rest =
      (specifierWords text).map .word ++
        (List.replicate (stars + specifierStars text) (.punct "*") ++ (lexemes core ++ rest)) := by
    rw [spell, specifier]
    simp only [lexemes_append, lexemes_words, lexemes_stars, lexemes_gap, List.nil_append,
      List.append_assoc]
    rw [← List.append_assoc (List.replicate _ _), List.replicate_append_replicate, Nat.add_comm]
  rw [hlexemes, spread, ← Function.iterate_add_apply]
  exact takes_of_declarator h ((endsSpecifier_stars _).append (hends.append hend))
    (hwraps.stars hrest _)

theorem takes_last_param {ts rest : List CLexeme} {param : String × CType}
    (h : Takes (declaration isType ts) param (.punct ")" :: rest)) :
    Takes (params isType ts) ([param], false) rest := by
  obtain ⟨fits, h⟩ := h
  rw [params, h]
  · exact ⟨_, rfl⟩
  · rintro more rfl
    simp [declaration, CDeclaration.specifier] at h

theorem takes_param {ts rest rest' : List CLexeme} {param : String × CType}
    {more : List (String × CType)} {variadic : Bool}
    (h : Takes (declaration isType ts) param (.punct "," :: rest))
    (h' : Takes (params isType rest) (more, variadic) rest') :
    Takes (params isType ts) (param :: more, variadic) rest' := by
  obtain ⟨fits, h⟩ := h
  obtain ⟨fits', h'⟩ := h'
  rw [params, h]
  · simp only [Option.bind_eq_bind, Option.bind_some]
    rw [h']
    exact ⟨_, rfl⟩
  · rintro more rfl
    simp [declaration, CDeclaration.specifier] at h

theorem takes_ellipsis (rest : List CLexeme) :
    Takes (params isType (.punct "..." :: .punct ")" :: rest)) ([], true) rest := by
  rw [params]
  exact ⟨_, rfl⟩

theorem denotes_void : Denotes isType "void" := by
  have hwords : specifierWords "void" = ["void"] := by decide +kernel
  exact {
    words := by rw [hwords]; exact List.forall_mem_cons.mpr ⟨formed_void, List.forall_mem_nil _⟩
    stars := by decide +kernel
    known := by rw [hwords]; exact .inl (by decide +kernel) }

theorem takes_void (rest : List CLexeme) :
    Takes (params isType (.word "void" :: .punct ")" :: rest)) ([("", .named "void")], false)
      rest :=
  takes_last_param (takes_named denotes_void 0 [] endsSpecifier_nil wraps_nil
    (suffixed_of_stops (stops_closing rest)) (endsSpecifier_punct _ _))

theorem entries_ne_nil {ps : List CType} {variadic : Bool} (h : ps ≠ [] ∨ variadic) :
    spellEach ps ++ ellipsis variadic ≠ [] := by
  rcases h with h | rfl
  · obtain ⟨p, ps, rfl⟩ := List.exists_cons_of_ne_nil h
    exact List.cons_ne_nil _ _
  · simp [ellipsis]

theorem paramPieces_of_ne_nil {items : List (List CPiece)} {variadic : Bool}
    (h : items ++ ellipsis variadic ≠ []) :
    paramPieces items variadic = listed (items ++ ellipsis variadic) := by
  unfold paramPieces
  split
  · exact absurd ‹_› h
  · rfl

/-- A parameter list does not start as a declarator in parentheses does. -/
theorem starts_params (ps : List CType) (variadic : Bool)
    (h : ∀ text ∈ namesEach ps, Denotes isType text) (ts : List CLexeme) :
    startsDeclarator isType (lexemes (paramPieces (spellEach ps) variadic) ++ ts) = false := by
  cases ps with
  | nil => cases variadic <;> rfl
  | cons p ps =>
    obtain ⟨w, more, hfirst, hw⟩ := first_lexeme p 0 [] (List.forall_mem_append.mp h).1
    have hlist : ∃ ts, lexemes (paramPieces (spellEach (p :: ps)) variadic) = .word w :: ts := by
      rw [paramPieces_of_ne_nil (entries_ne_nil (.inl (List.cons_ne_nil p ps))), spellEach,
        List.cons_append]
      by_cases hmore : spellEach ps ++ ellipsis variadic = []
      · rw [hmore, listed, List.intercalate_singleton, hfirst]
        exact ⟨_, rfl⟩
      · rw [listed_cons hmore, lexemes_append, hfirst]
        exact ⟨_, rfl⟩
    obtain ⟨us, hlist⟩ := hlist
    have hstarts : (!isKeyword w && !isType w) = false := by
      rw [← Bool.not_or, hw]
      rfl
    rw [hlist]
    exact hstarts

mutual

/-- **Reading a declaration.** What is written for a type with a declarator around a name is read as
the name, with the layers of the declarator around the type. -/
theorem takes_declaration : ∀ (t : CType) (stars : Nat) (core : List CPiece) {name : String}
    {wrap : CType → CType} {rest : List CLexeme},
    (∀ text ∈ t.names, Denotes isType text) → (t.isSuffixed → stars = 0) →
    EndsSpecifier (lexemes core) → Wraps isType (lexemes core) name wrap →
    Suffixed isType rest id rest → EndsSpecifier rest →
    Takes (declaration isType (lexemes (t.spell stars core) ++ rest))
      (name, wrap (CType.pointer^[stars] t.spread)) rest
  | .named text, stars, core, name, wrap, rest, h, _, hends, hwraps, hrest, hend =>
    takes_named (h text List.mem_cons_self) stars core hends hwraps hrest hend
  | .pointer target, stars, core, name, wrap, rest, h, _, hends, hwraps, hrest, hend => by
    rw [spell, spread, ← Function.iterate_succ_apply]
    by_cases hsuffixed : target.isSuffixed
    · rw [if_pos hsuffixed]
      have hgroup := hwraps.group stars
      have hlexemes : lexemes (mark "(" ::
          (List.replicate (stars + 1) (mark "*") ++ (core ++ [mark ")"]))) =
          .punct "(" :: (List.replicate (stars + 1) (.punct "*") ++
            (lexemes core ++ [.punct ")"])) := by
        simp [lexemes_stars]
      rw [← hlexemes] at hgroup
      have hcore : EndsSpecifier (lexemes (mark "(" ::
          (List.replicate (stars + 1) (mark "*") ++ (core ++ [mark ")"])))) :=
        endsSpecifier_punct _ _
      exact takes_declaration target 0 _ h (fun _ => rfl) hcore hgroup hrest hend
    · rw [if_neg hsuffixed]
      exact takes_declaration target _ core h (absurd · hsuffixed) hends hwraps hrest hend
  | .array elem length, stars, core, name, wrap, rest, h, hstars, hends, hwraps, hrest, hend => by
    obtain rfl := hstars rfl
    have harray := hwraps.array length
    have hlexemes : lexemes (core ++ mark "[" :: (lengthPieces length ++ [mark "]"])) =
        lexemes core ++ .punct "[" :: (lexemes (lengthPieces length) ++ [.punct "]"]) := by simp
    rw [← hlexemes] at harray
    have hcore :
        EndsSpecifier (lexemes (core ++ mark "[" :: (lengthPieces length ++ [mark "]"]))) := by
      rw [hlexemes]
      exact hends.append (endsSpecifier_punct _ _)
    rw [spell, spread]
    exact takes_declaration elem 0 _ h (fun _ => rfl) hcore harray hrest hend
  | .function ret params variadic, stars, core, name, wrap, rest, h, hstars, hends, hwraps,
      hrest, hend => by
    obtain rfl := hstars rfl
    obtain ⟨hret, hparams⟩ := List.forall_mem_append.mp h
    have hlexemes :
        lexemes (core ++ mark "(" :: (paramPieces (spellEach params) variadic ++ [mark ")"])) =
        lexemes core ++ .punct "(" ::
          (lexemes (paramPieces (spellEach params) variadic) ++ [.punct ")"]) := by simp
    obtain ⟨entries, htypes, hentries⟩ : ∃ entries,
        paramTypes entries variadic = paramTypes ((spreadEach params).map ("", ·)) variadic ∧
        ∀ ts, Takes (CDeclaration.params isType
          (lexemes (paramPieces (spellEach params) variadic) ++ .punct ")" :: ts))
        (entries, variadic) ts := by
      -- A list without parameters is written as `void`, which is read as no parameters.
      by_cases hsome : params ≠ [] ∨ variadic
      · refine ⟨_, rfl, fun ts => ?_⟩
        rw [paramPieces_of_ne_nil (entries_ne_nil hsome)]
        exact takes_params params variadic ts hparams hsome
      · obtain ⟨rfl, rfl⟩ : params = [] ∧ variadic = false := by simpa using hsome
        exact ⟨[("", .named "void")], rfl, takes_void⟩
    have hfunction := hwraps.function (starts_params params variadic hparams) hentries
    rw [← hlexemes] at hfunction
    have hcore : EndsSpecifier
        (lexemes (core ++ mark "(" ::
          (paramPieces (spellEach params) variadic ++ [mark ")"]))) := by
      rw [hlexemes]
      exact hends.append (endsSpecifier_punct _ _)
    rw [spell, function_spread, ← htypes]
    exact takes_declaration ret 0 _ hret (fun _ => rfl) hcore hfunction hrest hend

/-- A parameter list that is not empty is read. -/
theorem takes_params : ∀ (ps : List CType) (variadic : Bool) (rest : List CLexeme),
    (∀ text ∈ namesEach ps, Denotes isType text) → (ps ≠ [] ∨ variadic) →
    Takes (params isType (lexemes (listed (spellEach ps ++ ellipsis variadic)) ++
      .punct ")" :: rest)) ((spreadEach ps).map ("", ·), variadic) rest
  | [], true, rest, _, _ => takes_ellipsis rest
  | [], false, rest, _, hsome => by simp at hsome
  | p :: ps, variadic, rest, h, _ => by
    obtain ⟨hp, hps⟩ := List.forall_mem_append.mp h
    by_cases hmore : ps ≠ [] ∨ variadic
    · have hparams := takes_params ps variadic rest hps hmore
      have hparam := takes_declaration p 0 [] hp (fun _ => rfl) endsSpecifier_nil wraps_nil
        (suffixed_of_stops (stops_comma (lexemes (listed (spellEach ps ++ ellipsis variadic)) ++
          .punct ")" :: rest))) (endsSpecifier_punct _ _)
      have hlexemes : lexemes (listed (spellEach (p :: ps) ++ ellipsis variadic)) ++
          .punct ")" :: rest = lexemes (p.spell 0 []) ++ .punct "," ::
            (lexemes (listed (spellEach ps ++ ellipsis variadic)) ++ .punct ")" :: rest) := by
        rw [spellEach, List.cons_append, listed_cons (entries_ne_nil hmore)]
        simp
      rw [hlexemes]
      exact takes_param hparam hparams
    · obtain ⟨rfl, rfl⟩ : ps = [] ∧ variadic = false := by simpa using hmore
      have hlexemes :
          lexemes (listed (spellEach [p] ++ ellipsis false)) = lexemes (p.spell 0 []) := by
        rw [spellEach, spellEach, ellipsis, if_neg Bool.false_ne_true, List.append_nil, listed,
          List.intercalate_singleton]
      rw [hlexemes]
      exact takes_last_param (takes_declaration p 0 [] hp (fun _ => rfl) endsSpecifier_nil wraps_nil
        (suffixed_of_stops (stops_closing rest)) (endsSpecifier_punct _ _))

end

/-! ### Whole texts -/

/-- A name that may be declared: a word that is not one of C's own types. -/
def IsIdentifier (name : String) : Prop := (CLexeme.word name).Formed ∧ isKeyword name = false

/-- The text of a declaration is read as the name, with the layers of the declarator around the
type. -/
theorem ofText_spelled {t : CType} (h : ∀ text ∈ t.names, Denotes isType text) {core : List CPiece}
    {name : String} {wrap : CType → CType} (hcore : IsCore core) (hformed : ∀ p ∈ core, p.Formed)
    (hparted : Parted core) (hends : EndsSpecifier (lexemes core))
    (hwraps : Wraps isType (lexemes core) name wrap) :
    ofText isType (t.declare (String.ofList (text core))) = some (name, wrap t.spread) := by
  have hspecifiers : ∀ text ∈ t.names, IsSpecifier text := fun text ht => (h text ht).toIsSpecifier
  have htext : text (t.spell 0 core) = (t.declare (String.ofList (text core))).toList :=
    text_spell t hspecifiers hcore
  have htokens : tokens? (text (t.spell 0 core)) = some (lexemes (t.spell 0 core)) :=
    (tokens?_iff_parted (formed_spell t hspecifiers hformed)).mpr
      (parted_spell t hspecifiers hcore hformed hparted)
  have hread := takes_declaration t 0 core h (fun _ => rfl) hends hwraps
    (suffixed_of_stops stops_nil) endsSpecifier_nil
  rw [List.append_nil] at hread
  obtain ⟨fits, hread⟩ := hread
  rw [ofText, ← htext, htokens, Option.bind_eq_bind, Option.bind_some, hread]
  rfl

/-- **The text of a declaration** is read as the name and the type. -/
theorem ofText_declare {t : CType} (h : ∀ text ∈ t.names, Denotes isType text) {name : String}
    (hname : name = "" ∨ IsIdentifier name) :
    ofText isType (t.declare name) = some (name, t.spread) := by
  rcases hname with rfl | ⟨hformed, hkeyword⟩
  · have hread := ofText_spelled h .nil (List.forall_mem_nil _) .nil endsSpecifier_nil wraps_nil
    exact hread
  · have hends : EndsSpecifier (lexemes [word name]) := by
      intro t ht
      obtain rfl : .word name = t := by simpa using ht
      exact hkeyword
    have hread := ofText_spelled h (.name [] hformed) (by simpa using formed_word hformed)
      (.singleton _) hends (wraps_name hkeyword)
    have htext : text [word name] = name.toList := by simp [chars, CLexeme.text]
    rwa [htext, String.ofList_toList] at hread

end CType

/-! ## Types that are written -/

namespace Lowering

open CType CDeclaration

variable {m : DataModel} {isType : String → Bool}

theorem isSpecifier_of_word {w : String} (hw : (CLexeme.word w).Formed) :
    IsSpecifier w ∧ specifierWords w = [w] := by
  obtain ⟨c, cs, htext, hc, hcs⟩ := hw
  have hchars : ∀ d ∈ w.toList, Lexer.isNameChar d := by
    rw [htext]
    exact List.forall_mem_cons.mpr ⟨by simp [Lexer.isNameChar, hc], hcs⟩
  have hstar : ∀ d ∈ w.toList, d != '*' := by
    intro d hd
    rw [bne_iff_ne]
    rintro rfl
    exact absurd (hchars _ hd) (by decide)
  have hspace : ' ' ∉ w.toList := fun hmem => absurd (hchars _ hmem) (by decide)
  have hwords : specifierWords w = [w] := by
    rw [specifierWords, List.takeWhile_eq_self_iff.mpr hstar, List.splitOn_eq_singleton hspace]
    simp
  refine ⟨⟨?_, ?_⟩, hwords⟩
  · rw [hwords]
    exact List.forall_mem_cons.mpr ⟨⟨c, cs, htext, hc, hcs⟩, List.forall_mem_nil _⟩
  · rw [List.dropWhile_eq_nil_iff.mpr hstar]
    exact List.forall_mem_nil _

theorem denotes_of_word {w : String} (hw : (CLexeme.word w).Formed)
    (hknown : isKeyword w || isType w) : Denotes isType w := by
  obtain ⟨hspecifier, hwords⟩ := isSpecifier_of_word hw
  refine ⟨hspecifier, ?_⟩
  rw [hwords]
  rcases Bool.or_eq_true_iff.mp hknown with h | h
  · exact .inl (List.forall_mem_cons.mpr ⟨h, List.forall_mem_nil _⟩)
  · exact .inr ⟨w, rfl, h⟩

/-- C knows the words that primitive types are written with. -/
def KnowsPrimitives (m : DataModel) (isType : String → Bool) : Prop :=
  ∀ p, ∀ w ∈ specifierWords (primitive m p), isKeyword w || isType w

/-- The text is that of a primitive type, or a name that C knows as the name of a type. -/
def IsBase (m : DataModel) (isType : String → Bool) (text : String) : Prop :=
  (∃ p, text = primitive m p) ∨ ((CLexeme.word text).Formed ∧ (isKeyword text || isType text))

/-- The text is made of words of C's own types and of stars. -/
def isKeywords (text : String) : Bool :=
  (specifierWords text).all (fun w =>
    isKeyword w && w.toList.head?.any Lexer.isNameStart && w.toList.all Lexer.isNameChar) &&
    (text.toList.dropWhile (· != '*')).all (· == '*')

theorem denotes_of_isKeywords {text : String} (h : isKeywords text) : Denotes isType text := by
  simp only [isKeywords, Bool.and_eq_true, List.all_eq_true] at h
  obtain ⟨hwords, hstars⟩ := h
  exact {
    words := fun w hw => formed_word_of_all (hwords w hw).1.2 (List.all_eq_true.mpr (hwords w hw).2)
    stars := fun c hc => beq_iff_eq.mp (hstars c hc)
    known := .inl fun w hw => (hwords w hw).1.1 }

theorem formed_integer {kind : String} (hkind : kind ∈ ["int", "uint"]) (n : Nat) :
    (CLexeme.word (kind ++ toString n ++ "_t")).Formed := by
  have hdigits : ∀ c ∈ (toString n).toList, Lexer.isNameChar c := by
    rw [Nat.toString_eq_ofList_toDigits, String.toList_ofList]
    intro c hc
    have hdigit : c.isDigit := Nat.isDigit_of_mem_toDigits (by decide) (by decide) hc
    simp [Lexer.isNameChar, hdigit]
  have hparts : ∀ kind ∈ ["int", "uint"], kind.toList.head?.any Lexer.isNameStart ∧
      (∀ c ∈ kind.toList, Lexer.isNameChar c) ∧ ∀ c ∈ "_t".toList, Lexer.isNameChar c := by
    decide +kernel
  obtain ⟨hstart, hchars, hend⟩ := hparts kind hkind
  refine formed_word_of_all ?_ ?_
  · rw [String.toList_append, String.toList_append, List.append_assoc]
    cases htext : kind.toList with
    | nil => simp [htext] at hstart
    | cons c cs => simpa [htext] using hstart
  · rw [List.all_eq_true, String.toList_append, String.toList_append]
    simp only [List.forall_mem_append]
    exact ⟨⟨hchars, hdigits⟩, hend⟩

/-- The texts of primitive types are words with stars after them. -/
theorem denotes_primitive (h : KnowsPrimitives m isType) (p : Primitive) :
    Denotes isType (primitive m p) := by
  have hword (hw : (CLexeme.word (primitive m p)).Formed) : Denotes isType (primitive m p) := by
    refine denotes_of_word hw (h p _ ?_)
    rw [(isSpecifier_of_word hw).2]
    exact List.mem_cons_self
  have hkeywords : ∀ text ∈ ["float", "double", "long double", "char*", "char", "void", "void*"],
      isKeywords text := by decide +kernel
  have hnames : ∀ w ∈ ["bool", "size_t"], w.toList.head?.any Lexer.isNameStart ∧
      w.toList.all Lexer.isNameChar := by decide +kernel
  have hbool := hnames "bool" (by decide)
  have hsize := hnames "size_t" (by decide)
  cases p with
  | int width => exact hword (formed_integer (by decide) _)
  | uint width => exact hword (formed_integer (by decide) _)
  | float => exact denotes_of_isKeywords (hkeywords "float" (by decide))
  | double => exact denotes_of_isKeywords (hkeywords "double" (by decide))
  | decimal => exact denotes_of_isKeywords (hkeywords "long double" (by decide))
  | str => exact denotes_of_isKeywords (hkeywords "char*" (by decide))
  | char => exact denotes_of_isKeywords (hkeywords "char" (by decide))
  | bool => exact hword (formed_word_of_all hbool.1 hbool.2)
  | void => exact denotes_of_isKeywords (hkeywords "void" (by decide))
  | size => exact hword (formed_word_of_all hsize.1 hsize.2)
  | any => exact denotes_of_isKeywords (hkeywords "void*" (by decide))

theorem IsBase.denotes (h : KnowsPrimitives m isType) {text : String}
    (htext : IsBase m isType text) :
    Denotes isType text := by
  rcases htext with ⟨p, rfl⟩ | ⟨hformed, hknown⟩
  · exact denotes_primitive h p
  · exact denotes_of_word hformed hknown

/-! ### The bases of types that are lowered -/

theorem namesEach_append : ∀ (ts us : List CType),
    namesEach (ts ++ us) = namesEach ts ++ namesEach us
  | [], _ => rfl
  | t :: ts, us => by
    rw [List.cons_append, namesEach, namesEach, namesEach_append ts us, List.append_assoc]

theorem base_functionPointer {ret : CType} {params : List CType} {rest : Rest CType}
    (hret : ∀ text ∈ ret.names, IsBase m isType text)
    (hparams : ∀ text ∈ namesEach params, IsBase m isType text)
    (hrest : ∀ elem ∈ rest.elem?, ∀ text ∈ elem.names, IsBase m isType text) :
    ∀ text ∈ (functionPointer m ret params rest).names, IsBase m isType text := by
  have hextra : ∀ text ∈ namesEach (restParams m rest), IsBase m isType text := by
    cases rest with
    | none => exact List.forall_mem_nil _
    | untyped => exact List.forall_mem_nil _
    | typed elem =>
      have hcount : ∀ text ∈ (countType m).names, IsBase m isType text :=
        List.forall_mem_singleton.mpr (.inl ⟨_, rfl⟩)
      exact List.forall_mem_append.mpr
        ⟨hcount, List.forall_mem_append.mpr ⟨hrest elem rfl, List.forall_mem_nil _⟩⟩
  rw [functionPointer, CType.names, CType.names, namesEach_append]
  exact List.forall_mem_append.mpr ⟨hret, List.forall_mem_append.mpr ⟨hparams, hextra⟩⟩

theorem base_array {elem : CType} (h : ∀ text ∈ elem.names, IsBase m isType text)
    (length : Option Nat) : ∀ text ∈ (array elem length).names, IsBase m isType text := by
  cases length with
  | none => exact h
  | some n => exact h

mutual

theorem base_ty : ∀ (t : Ty), ∀ text ∈ (ty m t).names, IsBase m isType text
  | .prim p => List.forall_mem_cons.mpr ⟨.inl ⟨p, rfl⟩, List.forall_mem_nil _⟩
  | .ref inner => base_ty inner
  | .array elem length => base_array (base_ty elem) length
  | .func sig => base_signature sig

theorem base_signature : ∀ (sig : Signature Ty),
    ∀ text ∈ (signature m sig).names, IsBase m isType text
  | ⟨ret, params, rest⟩ =>
    base_functionPointer (base_ty ret) (base_tys params) (base_restTy rest)

theorem base_tys : ∀ (ts : List Ty), ∀ text ∈ namesEach (tys m ts), IsBase m isType text
  | [] => List.forall_mem_nil _
  | t :: ts => List.forall_mem_append.mpr ⟨base_ty t, base_tys ts⟩

theorem base_restTy : ∀ (rest : Rest Ty), ∀ elem ∈ (restTy m rest).elem?,
    ∀ text ∈ elem.names, IsBase m isType text
  | .none => fun _ h => by cases h
  | .untyped => fun _ h => by cases h
  | .typed elem => fun _ h => by
    cases h
    exact base_ty elem

end

/-- C knows the names of a type expression that are not built in. -/
def KnowsAliases (isType : String → Bool) (names : List DottedName) : Prop :=
  ∀ name ∈ names, Builtin.isBuiltin name.text = false →
    (CLexeme.word name.text).Formed ∧ (isKeyword name.text || isType name.text)

mutual

theorem base_typeExpr : ∀ (t : TypeExpr), KnowsAliases isType t.typeNames →
    ∀ text ∈ (typeExpr m t).names, IsBase m isType text
  | .named name, h => by
    rw [typeExpr, named]
    split
    · exact base_ty name.ty
    · rename_i hbuiltin
      refine List.forall_mem_cons.mpr ⟨.inr ?_, List.forall_mem_nil _⟩
      exact h name List.mem_cons_self (Bool.eq_false_iff.mpr hbuiltin)
  | .ref _ inner, h => base_typeExpr inner h
  | .array _ elem length, h => base_array (base_typeExpr elem h) length
  | .func _ sig, h => base_signatureExpr sig h

theorem base_signatureExpr : ∀ (sig : Signature TypeExpr),
    KnowsAliases isType (TypeExpr.typeNamesOf sig) →
    ∀ text ∈ (signatureExpr m sig).names, IsBase m isType text
  | ⟨ret, params, rest⟩, h => by
    rw [TypeExpr.typeNamesOf, KnowsAliases] at h
    obtain ⟨h, hrest⟩ := List.forall_mem_append.mp h
    obtain ⟨hret, hparams⟩ := List.forall_mem_append.mp h
    exact base_functionPointer (base_typeExpr ret hret) (base_typeExprs params hparams)
      (base_restExpr rest hrest)

theorem base_typeExprs : ∀ (ts : List TypeExpr), KnowsAliases isType (TypeExpr.typeNamesEach ts) →
    ∀ text ∈ namesEach (typeExprs m ts), IsBase m isType text
  | [], _ => List.forall_mem_nil _
  | t :: ts, h => by
    obtain ⟨ht, hts⟩ := List.forall_mem_append.mp h
    exact List.forall_mem_append.mpr ⟨base_typeExpr t ht, base_typeExprs ts hts⟩

theorem base_restExpr : ∀ (rest : Rest TypeExpr),
    KnowsAliases isType (TypeExpr.typeNamesRest rest) → ∀ elem ∈ (restExpr m rest).elem?,
    ∀ text ∈ elem.names, IsBase m isType text
  | .none, _ => fun _ h => by cases h
  | .untyped, _ => fun _ h => by cases h
  | .typed elem, hnames => fun _ h => by
    cases h
    exact base_typeExpr elem hnames

end

/-- **Declarations are read back.** The text of a declaration of a name, or of nothing, with a type
over names that are lowered is read by C's grammar as the name and the type. The types that types,
signatures and type expressions are lowered to are such types. -/
theorem declarations_read_back (h : KnowsPrimitives m isType) :
    (∀ t : CType, (∀ text ∈ t.names, IsBase m isType text) → ∀ name, name = "" ∨ IsIdentifier name →
      ofText isType (t.declare name) = some (name, t.spread)) ∧
    (∀ t : Ty, ∀ text ∈ (ty m t).names, IsBase m isType text) ∧
    (∀ sig : Signature Ty, ∀ text ∈ (signature m sig).names, IsBase m isType text) ∧
    (∀ t : TypeExpr, KnowsAliases isType t.typeNames →
      ∀ text ∈ (typeExpr m t).names, IsBase m isType text) := by
  refine ⟨fun t ht name hname => ?_, base_ty, base_signature, base_typeExpr⟩
  exact ofText_declare (fun text htext => (ht text htext).denotes h) hname

/-- The names of C's own headers: truth values, and names that end in `_t`. -/
def isStandard (w : String) : Bool := w == "bool" || "_t".toList.isSuffixOf w.toList

theorem knowsPrimitives_isStandard (m : DataModel) : KnowsPrimitives m isStandard := by
  have hclosed : ∀ text ∈ ["float", "double", "long double", "char*", "char", "bool", "void",
      "size_t", "void*"], ∀ w ∈ specifierWords text, isKeyword w || isStandard w := by
    decide +kernel
  have hinteger {kind : String} (hkind : kind ∈ ["int", "uint"]) (n : Nat) :
      ∀ w ∈ specifierWords (kind ++ toString n ++ "_t"), isKeyword w || isStandard w := by
    rw [(isSpecifier_of_word (formed_integer hkind n)).2, List.forall_mem_singleton]
    have hend : "_t".toList.isSuffixOf (kind ++ toString n ++ "_t").toList := by
      rw [String.toList_append, List.isSuffixOf_iff_suffix]
      exact List.suffix_append _ _
    rw [isStandard, hend, Bool.or_true, Bool.or_true]
  intro p
  cases p with
  | int width => exact hinteger (by decide) _
  | uint width => exact hinteger (by decide) _
  | float => exact hclosed "float" (by decide)
  | double => exact hclosed "double" (by decide)
  | decimal => exact hclosed "long double" (by decide)
  | str => exact hclosed "char*" (by decide)
  | char => exact hclosed "char" (by decide)
  | bool => exact hclosed "bool" (by decide)
  | void => exact hclosed "void" (by decide)
  | size => exact hclosed "size_t" (by decide)
  | any => exact hclosed "void*" (by decide)

/-- A pointer to three pointers to functions that give strings, with the name `f`. -/
theorem nested_declaration_reads_back :
    let t : CType := .pointer (.array
      (.pointer (.function (.named "char*") [.named "int32_t", .pointer (.named "void*")] true))
      (some 3))
    KnowsPrimitives .lp64 isStandard ∧ (∀ text ∈ t.names, IsBase .lp64 isStandard text) ∧
      IsIdentifier "f" ∧ t.declare "f" = "char* (*(*f)[3])(int32_t, void**, ...)" ∧
      ofText isStandard (t.declare "f") = some ("f", .pointer (.array (.pointer (.function
        (.pointer (.named "char")) [.named "int32_t", .pointer (.pointer (.named "void"))] true))
        (some 3))) := by
  intro t
  have hnames : ∀ text ∈ t.names, IsBase .lp64 isStandard text := by
    have hall : t.names = [primitive .lp64 .str, primitive .lp64 (.int (.platform .int)),
        primitive .lp64 .any] := by decide +kernel
    rw [hall]
    simp only [List.forall_mem_cons]
    exact ⟨.inl ⟨_, rfl⟩, .inl ⟨_, rfl⟩, .inl ⟨_, rfl⟩, List.forall_mem_nil _⟩
  have hname : IsIdentifier "f" :=
    ⟨formed_word_of_all (by decide +kernel) (by decide +kernel), by decide +kernel⟩
  refine ⟨knowsPrimitives_isStandard _, hnames, hname, by decide +kernel, ?_⟩
  exact (declarations_read_back (knowsPrimitives_isStandard _)).1 t hnames "f" (.inr hname)

end Lowering

end KilnLang
