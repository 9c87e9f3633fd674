import KilnLang.Proofs.Target.CLexemes
import KilnLang.Proofs.Target.Emission

/-!
# The tokens of types and expressions

What is written for a type or an expression of C, token by token: its **spelling**. The text of a
named type has words and then stars, all of them tokens of their own. The stars of a declarator are
counted, since they stand right after the specifier, apart from the rest of the declarator.
-/

namespace KilnLang

open CPiece CLexer

namespace CPiece

/-- The piece of a punctuator. -/
abbrev mark (text : String) : CPiece := .tight (.punct text)

/-- The piece of a name or keyword. -/
abbrev word (text : String) : CPiece := .tight (.word text)

/-- Pieces with a comma and a space between any two. -/
def listed (items : List (List CPiece)) : List CPiece := [mark ",", .space].intercalate items

/-! ### Putting pieces together -/

theorem formed_mark {text : String} (h : text ∈ punctuators)
    (hspecial : text ∉ [".", "%:", "/"]) : (mark text).Formed := by
  simp only [List.mem_cons, List.not_mem_nil, or_false, not_or] at hspecial
  exact ⟨⟨h, hspecial.1, hspecial.2.1⟩, fun hslash => hspecial.2.2 (CLexeme.punct.inj hslash)⟩

/-- The punctuators that are delimiters. -/
def delimiterMarks : List String := ["(", ")", "[", "]", "\x7b", "\x7d", ","]

theorem formed_delimiter : ∀ d ∈ delimiterMarks, (mark d).Formed := by
  have hall : ∀ d ∈ delimiterMarks, d ∈ punctuators ∧ d ∉ [".", "%:", "/"] := by decide +kernel
  exact fun d hd => formed_mark (hall d hd).1 (hall d hd).2

/-- Nothing goes on with a delimiter. -/
theorem apart_delimiter {p : CPiece} (hp : p.Formed) : ∀ d ∈ delimiterMarks, Apart p (mark d) := by
  have hall : ∀ d ∈ delimiterMarks, ∀ c ∈ d.toList, c ∈ delimiters := by decide +kernel
  intro d hd
  obtain ⟨c, cs, htext⟩ := List.exists_cons_of_ne_nil (formed_delimiter d hd).1.text_ne_nil
  exact apart_delimited hp htext (hall d hd c (by rw [show d.toList = c :: cs from htext]; simp))

/-- A delimiter goes on with nothing. -/
theorem delimiter_apart (p : CPiece) : ∀ d ∈ delimiterMarks, Apart (mark d) p := by
  have hall : ∀ d ∈ delimiterMarks, isClosed d := by decide +kernel
  exact fun d hd => apart_closed (hall d hd) p

/-- A punctuator does not go on with a name, a number or a quote. -/
theorem apart_operand {t : CLexeme} (ht : t.Formed) (hpunct : ∀ text, t ≠ .punct text)
    (text : String) : Apart (mark text) (.tight t) := by
  intro c hc
  refine not_goesOn_of_operand ?_
  cases t with
  | word text =>
    obtain ⟨d, ds, htext, hd, -⟩ := ht
    obtain rfl : d = c := by simpa [CLexeme.text, htext] using hc
    exact .inl (by simp [Lexer.isNameChar, hd])
  | number text =>
    obtain ⟨d, ds, htext, hd, -⟩ := ht
    obtain rfl : d = c := by simpa [CLexeme.text, htext] using hc
    exact .inl (by simp [Lexer.isNameChar, hd])
  | quoted text =>
    obtain ⟨d, ds, htext, hd, -⟩ := ht
    obtain rfl : d = c := by simpa [CLexeme.text, htext] using hc
    exact .inr hd
  | punct text => exact absurd rfl (hpunct text)

theorem Parted.cons {p : CPiece} {ps : List CPiece} (h : Parted ps)
    (hhead : ∀ q ∈ ps.head?, Apart p q) : Parted (p :: ps) :=
  List.isChain_cons.mpr ⟨hhead, h⟩

theorem Parted.cons_delimiter {d : String} (hd : d ∈ delimiterMarks) {ps : List CPiece}
    (h : Parted ps) : Parted (mark d :: ps) :=
  h.cons fun q _ => delimiter_apart q d hd

theorem Parted.cons_space {ps : List CPiece} (h : Parted ps) : Parted (.space :: ps) :=
  h.cons fun q _ => apart_space q

/-- Pieces are apart from what follows a delimiter. -/
theorem Parted.append_delimiter {d : String} (hd : d ∈ delimiterMarks) {ps qs : List CPiece}
    (hps : Parted ps) (hformed : ∀ p ∈ ps, p.Formed) (hqs : Parted qs) :
    Parted (ps ++ mark d :: qs) := by
  refine List.isChain_append.mpr ⟨hps, hqs.cons_delimiter hd, fun p hp q hq => ?_⟩
  obtain rfl : mark d = q := by simpa using hq
  exact apart_delimiter (hformed p (List.mem_of_mem_getLast? hp)) d hd

theorem listed_cons {items : List (List CPiece)} (h : items ≠ []) (item : List CPiece) :
    listed (item :: items) = item ++ mark "," :: .space :: listed items := by
  obtain ⟨next, more, rfl⟩ := List.exists_cons_of_ne_nil h
  rw [listed, List.intercalate_cons_cons, List.append_assoc]
  rfl

theorem forall_mem_listed {P : CPiece → Prop} {items : List (List CPiece)}
    (hitems : ∀ item ∈ items, ∀ p ∈ item, P p) (hcomma : P (mark ",")) (hspace : P .space) :
    ∀ p ∈ listed items, P p := by
  induction items with
  | nil => exact fun p hp => absurd hp List.not_mem_nil
  | cons item items ih =>
    obtain ⟨hitem, hmore⟩ := List.forall_mem_cons.mp hitems
    cases items with
    | nil => simpa [listed] using hitem
    | cons next items =>
      rw [listed_cons (List.cons_ne_nil next items)]
      simp only [List.forall_mem_append, List.forall_mem_cons]
      exact ⟨hitem, hcomma, hspace, ih hmore⟩

theorem parted_listed {items : List (List CPiece)} (hparted : ∀ item ∈ items, Parted item)
    (hformed : ∀ item ∈ items, ∀ p ∈ item, p.Formed) : Parted (listed items) := by
  induction items with
  | nil => exact .nil
  | cons item items ih =>
    cases items with
    | nil => simpa [listed] using hparted
    | cons next items =>
      have hmore := ih (List.forall_mem_cons.mp hparted).2 (List.forall_mem_cons.mp hformed).2
      rw [listed_cons (List.cons_ne_nil next items)]
      exact Parted.append_delimiter (by decide) (hparted _ List.mem_cons_self)
        (hformed _ List.mem_cons_self) hmore.cons_space

end CPiece

/-! ## Types -/

namespace CType

/-- The words of the text of a named type. -/
def specifierWords (text : String) : List String :=
  ((text.toList.takeWhile (· != '*')).splitOn ' ').map String.ofList

/-- The number of stars after the words of a named type. -/
def specifierStars (text : String) : Nat := (text.toList.dropWhile (· != '*')).length

/-- The text of a named type consists of words with spaces between them and of stars after them. -/
structure IsSpecifier (text : String) : Prop where
  words : ∀ w ∈ specifierWords text, (CLexeme.word w).Formed
  stars : ∀ c ∈ text.toList.dropWhile (· != '*'), c = '*'

/-- The pieces of words with a space between any two. -/
def wordPieces : List String → List CPiece
  | [] => []
  | [w] => [word w]
  | w :: next :: more => word w :: .space :: wordPieces (next :: more)

/-- The pieces of the text of a named type. -/
def specifier (text : String) : List CPiece :=
  wordPieces (specifierWords text) ++ List.replicate (specifierStars text) (mark "*")

/-- The space between a specifier with its stars and the rest of a declarator. -/
def gap : List CPiece → List CPiece
  | [] => []
  | p :: _ => if p = mark "[" then [] else [.space]

/-- The marker for further arguments, as an entry of a parameter list. -/
def ellipsis (variadic : Bool) : List (List CPiece) := if variadic then [[mark "..."]] else []

/-- The pieces between the parentheses of a parameter list. -/
def paramPieces (params : List (List CPiece)) (variadic : Bool) : List CPiece :=
  match params ++ ellipsis variadic with
  | [] => [word "void"]
  | entries => listed entries

/-- The pieces of the length of an array. -/
def lengthPieces : Option Nat → List CPiece
  | some n => [.tight (.number (toString n))]
  | none => []

mutual

/-- The pieces of a declaration, whose declarator has stars before the rest of it. -/
def spell : CType → Nat → List CPiece → List CPiece
  | .named text, stars, core =>
    specifier text ++ List.replicate stars (mark "*") ++ (gap core ++ core)
  | .pointer target, stars, core =>
    if target.isSuffixed then
      target.spell 0 (mark "(" :: (List.replicate (stars + 1) (mark "*") ++ (core ++ [mark ")"])))
    else target.spell (stars + 1) core
  | .array elem length, stars, core =>
    elem.spell stars (core ++ mark "[" :: (lengthPieces length ++ [mark "]"]))
  | .function ret params variadic, stars, core =>
    ret.spell stars (core ++ mark "(" :: (paramPieces (spellEach params) variadic ++ [mark ")"]))

/-- The pieces of types without names. -/
def spellEach : List CType → List (List CPiece)
  | [] => []
  | t :: ts => t.spell 0 [] :: spellEach ts

end

/-- What may stand after the stars of a declarator: nothing, a name, a group in parentheses or a
parameter list, or the length of an array. -/
inductive IsCore : List CPiece → Prop
  | nil : IsCore []
  | name {w : String} (rest : List CPiece) (formed : (CLexeme.word w).Formed) :
    IsCore (word w :: rest)
  | group (rest : List CPiece) : IsCore (mark "(" :: rest)
  | length (rest : List CPiece) : IsCore (mark "[" :: rest)

theorem IsCore.append_group {core : List CPiece} (h : IsCore core) (rest : List CPiece) :
    IsCore (core ++ mark "(" :: rest) := by
  cases h with
  | nil => exact .group rest
  | name more formed => exact .name _ formed
  | group more => exact .group _
  | length more => exact .length _

theorem IsCore.append_length {core : List CPiece} (h : IsCore core) (rest : List CPiece) :
    IsCore (core ++ mark "[" :: rest) := by
  cases h with
  | nil => exact .length rest
  | name more formed => exact .name _ formed
  | group more => exact .group _
  | length more => exact .length _

/-! ### The text of a declaration -/

theorem text_stars (n : Nat) : text (List.replicate n (mark "*")) = List.replicate n '*' := by
  induction n with
  | zero => rfl
  | succ n ih => rw [List.replicate_succ, List.replicate_succ, text_cons, ih]; rfl

theorem text_intercalate (sep : List CPiece) (items : List (List CPiece)) :
    text (sep.intercalate items) = (text sep).intercalate (items.map text) := by
  induction items with
  | nil => rfl
  | cons item items ih =>
    cases items with
    | nil => simp
    | cons next items => simp_all [List.intercalate_cons_cons]

theorem text_wordPieces (words : List (List Char)) :
    text (wordPieces (words.map String.ofList)) = [' '].intercalate words := by
  induction words with
  | nil => rfl
  | cons w words ih =>
    cases words with
    | nil => simp [wordPieces, chars, CLexeme.text]
    | cons next words =>
      simp only [List.map_cons] at ih
      simp [wordPieces, List.intercalate_cons_cons, chars, CLexeme.text, ih]

theorem text_specifier {text : String} (h : IsSpecifier text) :
    CPiece.text (specifier text) = text.toList := by
  have hstars : text.toList.dropWhile (· != '*') = List.replicate (specifierStars text) '*' :=
    List.eq_replicate_of_mem h.stars
  rw [specifier, specifierWords, text_append, text_stars, text_wordPieces, ← hstars,
    List.intercalate_splitOn, List.takeWhile_append_dropWhile]

/-- What stands after the stars of a declarator does not start with a star. -/
theorem IsCore.not_star {core : List CPiece} (h : IsCore core) :
    ∀ c ∈ (text core).head?, c ≠ '*' := by
  rintro c hc rfl
  cases h with
  | nil => cases hc
  | name rest formed =>
    obtain ⟨d, ds, htext, hd, -⟩ := formed
    obtain rfl : d = '*' := by simpa [chars, CLexeme.text, htext] using hc
    exact absurd hd (by decide)
  | group rest => exact absurd hc (by simp [chars, CLexeme.text])
  | length rest => exact absurd hc (by simp [chars, CLexeme.text])

theorem IsCore.text_gap {core : List CPiece} (h : IsCore core) :
    text (gap core) = if hugs (text core) then [] else [' '] := by
  have hstars : (text core).dropWhile (· == '*') = text core := by
    cases htext : text core with
    | nil => rfl
    | cons c cs =>
      have hc : (c == '*') = false := beq_eq_false_iff_ne.mpr (h.not_star c (by rw [htext]; rfl))
      simp [hc]
  rw [hugs, hstars]
  cases h with
  | nil => rfl
  | name rest formed =>
    obtain ⟨d, ds, htext, hd, -⟩ := formed
    have hbracket : (d == '[') = false := by
      rw [beq_eq_false_iff_ne]
      rintro rfl
      exact absurd hd (by decide)
    simp [gap, chars, CLexeme.text, htext, hbracket]
  | group rest => rfl
  | length rest => rfl

theorem toList_attach {specifier : String} {n : Nat} {cs : List Char}
    (h : ∀ c ∈ cs.head?, c ≠ '*') :
    (attach specifier (String.ofList (List.replicate n '*' ++ cs))).toList =
      specifier.toList ++ List.replicate n '*' ++ ((if hugs cs then [] else [' ']) ++ cs) := by
  obtain ⟨htake, hdrop⟩ := @takeWhile_stops Char (· == '*') (List.replicate n '*') cs (by simp)
    (by simpa using h)
  have hdropped : cs.dropWhile (· == '*') = cs := by
    cases cs with
    | nil => rfl
    | cons c cs => simp [h c rfl]
  have hhugs : hugs (List.replicate n '*' ++ cs) = hugs cs := by
    rw [hugs, hugs, hdrop, hdropped]
  simp only [attach, String.toList_ofList, String.toList_append, htake, hdrop, hhugs]
  split <;> simp

theorem text_params {params : List (List CPiece)} {texts : List String} (variadic : Bool)
    (h : params.map text = texts.map String.toList) :
    text (paramPieces params variadic) = (paramList texts variadic).toList := by
  have hentries : (params ++ ellipsis variadic).map text =
      (texts ++ if variadic then ["..."] else []).map String.toList := by
    rw [List.map_append, List.map_append, h]
    cases variadic <;> rfl
  unfold paramPieces paramList
  generalize (params ++ ellipsis variadic) = entries at hentries ⊢
  generalize (texts ++ if variadic then ["..."] else []) = entryTexts at hentries ⊢
  cases entries with
  | nil =>
    obtain rfl : entryTexts = [] := List.map_eq_nil_iff.mp hentries.symm
    rfl
  | cons entry entries =>
    cases entryTexts with
    | nil => cases hentries
    | cons entryText entryTexts =>
      simp only [listed, text_intercalate, hentries, String.toList_intercalate]
      rfl

theorem text_length (length : Option Nat) :
    text (lengthPieces length) = ((length.map toString).getD "").toList := by
  cases length with
  | none => rfl
  | some n => simp [lengthPieces, chars, CLexeme.text]

mutual

/-- **The text of a declaration** is the text of its pieces. -/
theorem text_spell : ∀ (t : CType) {stars : Nat} {core : List CPiece},
    (∀ text ∈ t.names, IsSpecifier text) → IsCore core →
    text (t.spell stars core) =
      (t.declare (String.ofList (List.replicate stars '*' ++ text core))).toList
  | .named text, stars, core, h, hcore => by
    have hspecifier := text_specifier (h text List.mem_cons_self)
    rw [spell, declare, toList_attach hcore.not_star, text_append, text_append, text_append,
      hspecifier, text_stars, hcore.text_gap]
  | .pointer target, stars, core, h, hcore => by
    rw [spell, declare]
    split
    · rw [text_spell target h (.group _)]
      refine congrArg (fun inner => (target.declare inner).toList) (String.toList_inj.mp ?_)
      simp [text_stars, chars, CLexeme.text, List.replicate_succ]
    · rw [text_spell target h hcore]
      refine congrArg (fun inner => (target.declare inner).toList) (String.toList_inj.mp ?_)
      simp [List.replicate_succ]
  | .array elem length, stars, core, h, hcore => by
    rw [spell, declare, text_spell elem h (hcore.append_length _)]
    refine congrArg (fun inner => (elem.declare inner).toList) (String.toList_inj.mp ?_)
    simp [text_length, chars, CLexeme.text]
  | .function ret params variadic, stars, core, h, hcore => by
    obtain ⟨hret, hparams⟩ := List.forall_mem_append.mp h
    have hlist := text_params variadic (text_spellEach params hparams)
    rw [spell, declare, text_spell ret hret (hcore.append_group _)]
    refine congrArg (fun inner => (ret.declare inner).toList) (String.toList_inj.mp ?_)
    simp [hlist, chars, CLexeme.text]

theorem text_spellEach : ∀ (ts : List CType), (∀ text ∈ namesEach ts, IsSpecifier text) →
    (spellEach ts).map text = (renderEach ts).map String.toList
  | [], _ => rfl
  | t :: ts, h => by
    obtain ⟨ht, hts⟩ := List.forall_mem_append.mp h
    rw [spellEach, renderEach, List.map_cons, List.map_cons, text_spellEach ts hts,
      text_spell t ht .nil]
    rfl

end

/-! ### Tokens that are apart -/

theorem formed_star : (mark "*").Formed := formed_mark (by decide +kernel) (by decide +kernel)

theorem formed_word {w : String} (h : (CLexeme.word w).Formed) : (word w).Formed :=
  ⟨h, by simp⟩

theorem formed_stars (n : Nat) : ∀ p ∈ List.replicate n (mark "*"), p.Formed := by
  intro p hp
  rw [List.eq_of_mem_replicate hp]
  exact formed_star

theorem star_apart_star : Apart (mark "*") (mark "*") := by
  show ∀ c ∈ "*".toList.head?, (CLexeme.punct "*").goesOn c = false
  decide +kernel

/-- A star is apart from what may stand after the stars of a declarator. -/
theorem IsCore.star_apart {core : List CPiece} (h : IsCore core) :
    ∀ p ∈ core.head?, Apart (mark "*") p := by
  intro p hp
  cases h with
  | nil => cases hp
  | name rest formed =>
    obtain rfl : word _ = p := by simpa using hp
    exact apart_operand formed (by simp) _
  | group rest =>
    obtain rfl : mark "(" = p := by simpa using hp
    exact apart_delimiter formed_star _ (by decide)
  | length rest =>
    obtain rfl : mark "[" = p := by simpa using hp
    exact apart_delimiter formed_star _ (by decide)

theorem IsCore.parted_gap {core : List CPiece} (h : IsCore core) (hparted : Parted core) :
    Parted (gap core ++ core) := by
  cases h with
  | nil => exact .nil
  | name rest formed => exact hparted.cons_space
  | group rest => exact hparted.cons_space
  | length rest => exact hparted

theorem IsCore.star_apart_gap {core : List CPiece} (h : IsCore core) :
    ∀ p ∈ (gap core ++ core).head?, Apart (mark "*") p := by
  intro p hp
  cases h with
  | nil => cases hp
  | name rest formed =>
    obtain rfl : .space = p := by simpa [gap] using hp
    trivial
  | group rest =>
    obtain rfl : .space = p := by simpa [gap] using hp
    trivial
  | length rest => exact (IsCore.length rest).star_apart p (by simpa [gap] using hp)

theorem IsCore.star_apart_closing {core : List CPiece} (h : IsCore core) :
    ∀ p ∈ (core ++ [mark ")"]).head?, Apart (mark "*") p := by
  cases core with
  | nil =>
    intro p hp
    obtain rfl : mark ")" = p := by simpa using hp
    exact apart_delimiter formed_star _ (by decide)
  | cons q core => exact fun p hp => h.star_apart p (by simpa using hp)

theorem parted_stars {ps : List CPiece} (h : Parted ps) (hhead : ∀ p ∈ ps.head?, Apart (mark "*") p)
    (n : Nat) : Parted (List.replicate n (mark "*") ++ ps) := by
  induction n with
  | zero => exact h
  | succ n ih =>
    rw [List.replicate_succ, List.cons_append]
    refine ih.cons fun p hp => ?_
    cases n with
    | zero => exact hhead p hp
    | succ n =>
      obtain rfl : mark "*" = p := by simpa [List.replicate_succ] using hp
      exact star_apart_star

/-- A word is apart from what may stand after a specifier. -/
theorem word_apart {w : String} (hw : (CLexeme.word w).Formed) {n : Nat} {core : List CPiece}
    (h : IsCore core) :
    ∀ p ∈ (List.replicate n (mark "*") ++ (gap core ++ core)).head?, Apart (word w) p := by
  intro p hp
  cases n with
  | zero =>
    cases h with
    | nil => cases hp
    | name rest formed =>
      obtain rfl : .space = p := by simpa [gap] using hp
      trivial
    | group rest =>
      obtain rfl : .space = p := by simpa [gap] using hp
      trivial
    | length rest =>
      obtain rfl : mark "[" = p := by simpa [gap] using hp
      exact apart_delimiter (formed_word hw) _ (by decide)
  | succ n =>
    obtain rfl : mark "*" = p := by simpa [List.replicate_succ] using hp
    exact word_not_goesOn (by decide +kernel)

theorem parted_words {words : List String} {ps : List CPiece} (h : Parted ps)
    (hhead : ∀ w ∈ words, ∀ p ∈ ps.head?, Apart (word w) p) : Parted (wordPieces words ++ ps) := by
  induction words with
  | nil => exact h
  | cons w words ih =>
    obtain ⟨hw, hwords⟩ := List.forall_mem_cons.mp hhead
    cases words with
    | nil => exact h.cons hw
    | cons next words =>
      refine (ih hwords).cons_space.cons fun p hp => ?_
      obtain rfl : .space = p := by simpa using hp
      trivial

theorem formed_words {words : List String} (h : ∀ w ∈ words, (CLexeme.word w).Formed) :
    ∀ p ∈ wordPieces words, p.Formed := by
  induction words with
  | nil => exact List.forall_mem_nil _
  | cons w words ih =>
    obtain ⟨hw, hwords⟩ := List.forall_mem_cons.mp h
    cases words with
    | nil => simpa [wordPieces] using formed_word hw
    | cons next words =>
      exact List.forall_mem_cons.mpr
        ⟨formed_word hw, List.forall_mem_cons.mpr ⟨trivial, ih hwords⟩⟩

theorem formed_specifier {text : String} (h : IsSpecifier text) :
    ∀ p ∈ specifier text, p.Formed :=
  List.forall_mem_append.mpr ⟨formed_words h.words, formed_stars _⟩

theorem formed_gap (core : List CPiece) : ∀ p ∈ gap core, p.Formed := by
  unfold gap
  split
  · exact List.forall_mem_nil _
  · split
    · exact List.forall_mem_nil _
    · exact List.forall_mem_cons.mpr ⟨trivial, List.forall_mem_nil _⟩

theorem formed_length (length : Option Nat) : ∀ p ∈ lengthPieces length, p.Formed := by
  cases length with
  | none => exact List.forall_mem_nil _
  | some n => simpa [lengthPieces] using ⟨formed_decimal n, by simp⟩

theorem parted_length (length : Option Nat) : Parted (lengthPieces length) := by
  cases length with
  | none => exact .nil
  | some n => exact .singleton _

/-- The entries of a parameter list that is not empty. -/
theorem paramPieces_cases (params : List (List CPiece)) (variadic : Bool) :
    paramPieces params variadic = [word "void"] ∨
      paramPieces params variadic = listed (params ++ ellipsis variadic) := by
  unfold paramPieces
  split
  · exact .inl rfl
  · exact .inr rfl

theorem formed_ellipsis : (mark "...").Formed := formed_mark (by decide +kernel) (by decide +kernel)

theorem formed_entries {params : List (List CPiece)} (variadic : Bool)
    (h : ∀ item ∈ params, ∀ p ∈ item, p.Formed) :
    ∀ item ∈ params ++ ellipsis variadic, ∀ p ∈ item, p.Formed := by
  refine List.forall_mem_append.mpr ⟨h, ?_⟩
  cases variadic with
  | false => exact List.forall_mem_nil _
  | true => simpa [ellipsis] using formed_ellipsis

theorem formed_void : (CLexeme.word "void").Formed :=
  ⟨'v', ['o', 'i', 'd'], rfl, by decide, by decide⟩

theorem formed_params {params : List (List CPiece)} (variadic : Bool)
    (h : ∀ item ∈ params, ∀ p ∈ item, p.Formed) : ∀ p ∈ paramPieces params variadic, p.Formed := by
  rcases paramPieces_cases params variadic with heq | heq
  · rw [heq]
    simpa using formed_word formed_void
  · rw [heq]
    exact forall_mem_listed (formed_entries variadic h) (formed_delimiter _ (by decide)) trivial

theorem parted_params {params : List (List CPiece)} (variadic : Bool)
    (hparted : ∀ item ∈ params, Parted item) (hformed : ∀ item ∈ params, ∀ p ∈ item, p.Formed) :
    Parted (paramPieces params variadic) := by
  rcases paramPieces_cases params variadic with heq | heq
  · rw [heq]
    exact .singleton _
  · rw [heq]
    refine parted_listed (List.forall_mem_append.mpr ⟨hparted, ?_⟩)
      (formed_entries variadic hformed)
    cases variadic with
    | false => exact List.forall_mem_nil _
    | true => simp [ellipsis]

/-- Pieces in parentheses or brackets after other pieces are apart. -/
theorem parted_enclosed {opening closing : String} (hopening : opening ∈ delimiterMarks)
    (hclosing : closing ∈ delimiterMarks) {ps inner : List CPiece} (hps : Parted ps)
    (hformed : ∀ p ∈ ps, p.Formed) (hinner : Parted inner) (hinnerFormed : ∀ p ∈ inner, p.Formed) :
    Parted (ps ++ mark opening :: (inner ++ [mark closing])) :=
  hps.append_delimiter hopening hformed
    (hinner.append_delimiter hclosing hinnerFormed .nil)

mutual

/-- The tokens of a declaration are formed. -/
theorem formed_spell : ∀ (t : CType) {stars : Nat} {core : List CPiece},
    (∀ text ∈ t.names, IsSpecifier text) → (∀ p ∈ core, p.Formed) →
    ∀ p ∈ t.spell stars core, p.Formed
  | .named text, stars, core, h, hcore => by
    simp only [spell, List.forall_mem_append]
    exact ⟨⟨formed_specifier (h text List.mem_cons_self), formed_stars _⟩, formed_gap core, hcore⟩
  | .pointer target, stars, core, h, hcore => by
    rw [spell]
    split
    · refine formed_spell target h ?_
      simp only [List.forall_mem_append, List.forall_mem_cons]
      exact ⟨formed_delimiter _ (by decide), formed_stars _, hcore, formed_delimiter _ (by decide),
        List.forall_mem_nil _⟩
    · exact formed_spell target h hcore
  | .array elem length, stars, core, h, hcore => by
    rw [spell]
    refine formed_spell elem h ?_
    simp only [List.forall_mem_append, List.forall_mem_cons]
    exact ⟨hcore, formed_delimiter _ (by decide), formed_length _, formed_delimiter _ (by decide),
      List.forall_mem_nil _⟩
  | .function ret params variadic, stars, core, h, hcore => by
    obtain ⟨hret, hparams⟩ := List.forall_mem_append.mp h
    rw [spell]
    refine formed_spell ret hret ?_
    simp only [List.forall_mem_append, List.forall_mem_cons]
    exact ⟨hcore, formed_delimiter _ (by decide), formed_params _ (formed_spellEach params hparams),
      formed_delimiter _ (by decide), List.forall_mem_nil _⟩

theorem formed_spellEach : ∀ (ts : List CType), (∀ text ∈ namesEach ts, IsSpecifier text) →
    ∀ item ∈ spellEach ts, ∀ p ∈ item, p.Formed
  | [], _ => List.forall_mem_nil _
  | t :: ts, h => by
    obtain ⟨ht, hts⟩ := List.forall_mem_append.mp h
    exact List.forall_mem_cons.mpr
      ⟨formed_spell t ht (List.forall_mem_nil _), formed_spellEach ts hts⟩

end

mutual

/-- The tokens of a declaration are apart. -/
theorem parted_spell : ∀ (t : CType) {stars : Nat} {core : List CPiece},
    (∀ text ∈ t.names, IsSpecifier text) → IsCore core → (∀ p ∈ core, p.Formed) → Parted core →
    Parted (t.spell stars core)
  | .named text, stars, core, h, hcore, hformed, hparted => by
    have hname := h text List.mem_cons_self
    have hafter := parted_stars (hcore.parted_gap hparted) hcore.star_apart_gap
      (specifierStars text + stars)
    rw [spell, specifier, List.append_assoc, List.append_assoc, ← List.append_assoc
      (List.replicate (specifierStars text) _), List.replicate_append_replicate]
    exact parted_words hafter fun w hw => word_apart (hname.words w hw) hcore
  | .pointer target, stars, core, h, hcore, hformed, hparted => by
    rw [spell]
    split
    -- Stars before brackets are enclosed with the core, where nothing can run into them.
    · have hclosed := hparted.append_delimiter (d := ")") (by decide) hformed .nil
      have hstars := parted_stars hclosed (hcore.star_apart_closing) (stars + 1)
      refine parted_spell target h (.group _) ?_ (hstars.cons_delimiter (by decide))
      simp only [List.forall_mem_append, List.forall_mem_cons]
      exact ⟨formed_delimiter _ (by decide), formed_stars _, hformed,
        formed_delimiter _ (by decide),
        List.forall_mem_nil _⟩
    · exact parted_spell target h hcore hformed hparted
  | .array elem length, stars, core, h, hcore, hformed, hparted => by
    rw [spell]
    refine parted_spell elem h (hcore.append_length _) ?_
      (parted_enclosed (by decide) (by decide) hparted hformed (parted_length _) (formed_length _))
    simp only [List.forall_mem_append, List.forall_mem_cons]
    exact ⟨hformed, formed_delimiter _ (by decide), formed_length _, formed_delimiter _ (by decide),
      List.forall_mem_nil _⟩
  | .function ret params variadic, stars, core, h, hcore, hformed, hparted => by
    obtain ⟨hret, hparams⟩ := List.forall_mem_append.mp h
    have hlist := formed_params variadic (formed_spellEach params hparams)
    rw [spell]
    refine parted_spell ret hret (hcore.append_group _) ?_
      (parted_enclosed (by decide) (by decide) hparted hformed
        (parted_params _ (parted_spellEach params hparams) (formed_spellEach params hparams)) hlist)
    simp only [List.forall_mem_append, List.forall_mem_cons]
    exact ⟨hformed, formed_delimiter _ (by decide), hlist, formed_delimiter _ (by decide),
      List.forall_mem_nil _⟩

theorem parted_spellEach : ∀ (ts : List CType), (∀ text ∈ namesEach ts, IsSpecifier text) →
    ∀ item ∈ spellEach ts, Parted item
  | [], _ => List.forall_mem_nil _
  | t :: ts, h => by
    obtain ⟨ht, hts⟩ := List.forall_mem_append.mp h
    exact List.forall_mem_cons.mpr
      ⟨parted_spell t ht .nil (List.forall_mem_nil _) .nil, parted_spellEach ts hts⟩

end

end CType

/-! ## Expressions -/

/-- The token of a literal or of a word that stands for one. -/
def CLiteral.token (text : String) : CLexeme :=
  match text.toList.head? with
  | some c => if isQuote c then .quoted text else if c.isDigit then .number text else .word text
  | none => .word text

theorem CLiteral.text_token (text : String) : (token text).text = text := by
  unfold token
  split
  · split_ifs <;> rfl
  · rfl

theorem CLiteral.token_ne_punct (text p : String) : token text ≠ .punct p := by
  unfold token
  split
  · split_ifs <;> simp
  · simp

namespace CExpr

mutual

/-- The pieces of an expression. -/
def spell : CExpr → List CPiece
  | .name text => [word text]
  | .literal text => [.tight (CLiteral.token text)]
  | .deref inner => mark "(" :: mark "*" :: (inner.spell ++ [mark ")"])
  | .address inner => mark "&" :: inner.spell
  | .paren inner => mark "(" :: (inner.spell ++ [mark ")"])
  | .index base position => base.spell ++ mark "[" :: (position.spell ++ [mark "]"])
  | .prefixed op inner => mark op.symbol :: inner.spell
  | .suffixed op inner => inner.spell ++ [mark op.symbol]
  | .call callee args => callee.spell ++ mark "(" :: (listed (spellEach args) ++ [mark ")"])
  | .cast type inner =>
    mark "(" :: mark "(" :: (type.spell 0 [] ++ mark ")" :: (inner.spell ++ [mark ")"]))
  | .array type items => mark "(" :: (type.spell 0 [] ++ mark ")" :: mark "\x7b" ::
      (listed (spellEach items) ++ [mark "\x7d"]))
  | .binary left op right => left.spell ++ .spaced (.punct op.symbol) :: right.spell

/-- The pieces of expressions. -/
def spellEach : List CExpr → List (List CPiece)
  | [] => []
  | e :: es => e.spell :: spellEach es

end

mutual

/-- The names, the literals and the types in the expression are written with tokens of C, and the
operators after operands are operators of C. -/
def Legible : CExpr → Prop
  | .name text => (CLexeme.word text).Formed
  | .literal text => (CLiteral.token text).Formed
  | .deref inner | .address inner | .paren inner | .prefixed _ inner => inner.Legible
  | .suffixed op inner => (op = .inc ∨ op = .dec) ∧ inner.Legible
  | .index base position => base.Legible ∧ position.Legible
  | .call callee args => callee.Legible ∧ LegibleEach args
  | .cast type inner => (∀ text ∈ type.names, CType.IsSpecifier text) ∧ inner.Legible
  | .array type items => (∀ text ∈ type.names, CType.IsSpecifier text) ∧ LegibleEach items
  | .binary left _ right => left.Legible ∧ right.Legible

/-- All expressions are legible. -/
def LegibleEach : List CExpr → Prop
  | [] => True
  | e :: es => e.Legible ∧ LegibleEach es

end

/-- The tokens that are written for an expression. -/
def tokens (e : CExpr) : List CLexeme := lexemes e.spell

theorem text_listed {items : List (List CPiece)} {texts : List String}
    (h : items.map text = texts.map String.toList) :
    text (listed items) = (", ".intercalate texts).toList := by
  rw [listed, CType.text_intercalate, h, String.toList_intercalate]
  rfl

mutual

/-- **The text of an expression** is the text of its pieces. -/
theorem text_spell : ∀ (e : CExpr), e.Legible → text e.spell = e.render.toList
  | .name text, _ => by simp [spell, render, chars, CLexeme.text]
  | .literal text, _ => by simp [spell, render, chars, CLiteral.text_token]
  | .deref inner, h => by
    simp [spell, render, text_spell inner h, chars, CLexeme.text]
  | .address inner, h => by
    simp [spell, render, text_spell inner h, chars, CLexeme.text]
  | .paren inner, h => by
    simp [spell, render, text_spell inner h, chars, CLexeme.text]
  | .index base position, h => by
    simp [spell, render, text_spell base h.1, text_spell position h.2, chars, CLexeme.text]
  | .prefixed op inner, h => by
    simp [spell, render, text_spell inner h, chars, CLexeme.text]
  | .suffixed op inner, h => by
    simp [spell, render, text_spell inner h.2, chars, CLexeme.text]
  | .call callee args, h => by
    simp [spell, render, text_spell callee h.1, text_listed (text_spellEach args h.2), chars,
      CLexeme.text]
  | .cast type inner, h => by
    have htype := @CType.text_spell type 0 [] h.1 .nil
    simp [spell, render, text_spell inner h.2, htype, CType.render, chars, CLexeme.text]
  | .array type items, h => by
    have htype := @CType.text_spell type 0 [] h.1 .nil
    simp [spell, render, htype, text_listed (text_spellEach items h.2), CType.render, chars,
      CLexeme.text]
  | .binary left op right, h => by
    simp [spell, render, text_spell left h.1, text_spell right h.2, chars, CLexeme.text]

theorem text_spellEach : ∀ (es : List CExpr), LegibleEach es →
    (spellEach es).map text = (renderEach es).map String.toList
  | [], _ => rfl
  | e :: es, h => by
    rw [spellEach, renderEach, List.map_cons, List.map_cons, text_spell e h.1,
      text_spellEach es h.2]

end

theorem formed_unary (op : UnaryOp) : (mark op.symbol).Formed := by
  cases op <;> exact formed_mark (by decide +kernel) (by decide +kernel)

theorem formed_binary (op : BinaryOp) : (CPiece.spaced (.punct op.symbol)).Formed := by
  have hmem : op.symbol ∈ punctuators ∧ op.symbol ≠ "." ∧ op.symbol ≠ "%:" := by
    cases op <;> decide +kernel
  exact hmem

theorem formed_ampersand : (mark "&").Formed := formed_mark (by decide +kernel) (by decide +kernel)

mutual

/-- The tokens of an expression are formed. -/
theorem formed_spell : ∀ (e : CExpr), e.Legible → ∀ p ∈ e.spell, p.Formed
  | .name text, h => List.forall_mem_singleton.mpr ⟨h, by simp⟩
  | .literal text, h => List.forall_mem_singleton.mpr ⟨h, CLiteral.token_ne_punct text _⟩
  | .deref inner, h => by
    simp only [spell, List.forall_mem_cons, List.forall_mem_append]
    exact ⟨formed_delimiter _ (by decide), CType.formed_star, formed_spell inner h,
      formed_delimiter _ (by decide), List.forall_mem_nil _⟩
  | .address inner, h => List.forall_mem_cons.mpr ⟨formed_ampersand, formed_spell inner h⟩
  | .paren inner, h => by
    simp only [spell, List.forall_mem_cons, List.forall_mem_append]
    exact ⟨formed_delimiter _ (by decide), formed_spell inner h, formed_delimiter _ (by decide),
      List.forall_mem_nil _⟩
  | .index base position, h => by
    simp only [spell, List.forall_mem_cons, List.forall_mem_append]
    exact ⟨formed_spell base h.1, formed_delimiter _ (by decide), formed_spell position h.2,
      formed_delimiter _ (by decide), List.forall_mem_nil _⟩
  | .prefixed op inner, h => List.forall_mem_cons.mpr ⟨formed_unary op, formed_spell inner h⟩
  | .suffixed op inner, h => by
    simp only [spell, List.forall_mem_cons, List.forall_mem_append]
    exact ⟨formed_spell inner h.2, formed_unary op, List.forall_mem_nil _⟩
  | .call callee args, h => by
    have hargs := forall_mem_listed (formed_spellEach args h.2) (formed_delimiter "," (by decide))
      trivial
    simp only [spell, List.forall_mem_cons, List.forall_mem_append]
    exact ⟨formed_spell callee h.1, formed_delimiter _ (by decide), hargs,
      formed_delimiter _ (by decide), List.forall_mem_nil _⟩
  | .cast type inner, h => by
    simp only [spell, List.forall_mem_cons, List.forall_mem_append]
    exact ⟨formed_delimiter _ (by decide), formed_delimiter _ (by decide),
      CType.formed_spell type h.1 (List.forall_mem_nil _), formed_delimiter _ (by decide),
      formed_spell inner h.2, formed_delimiter _ (by decide), List.forall_mem_nil _⟩
  | .array type items, h => by
    have hitems := forall_mem_listed (formed_spellEach items h.2) (formed_delimiter "," (by decide))
      trivial
    simp only [spell, List.forall_mem_cons, List.forall_mem_append]
    exact ⟨formed_delimiter _ (by decide),
      CType.formed_spell type h.1 (List.forall_mem_nil _), formed_delimiter _ (by decide),
      formed_delimiter _ (by decide), hitems, formed_delimiter _ (by decide),
      List.forall_mem_nil _⟩
  | .binary left op right, h => by
    simp only [spell, List.forall_mem_cons, List.forall_mem_append]
    exact ⟨formed_spell left h.1, formed_binary op, formed_spell right h.2⟩

theorem formed_spellEach : ∀ (es : List CExpr), LegibleEach es →
    ∀ item ∈ spellEach es, ∀ p ∈ item, p.Formed
  | [], _ => List.forall_mem_nil _
  | e :: es, h => List.forall_mem_cons.mpr ⟨formed_spell e h.1, formed_spellEach es h.2⟩

end

end CExpr

end KilnLang
