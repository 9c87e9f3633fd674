import KilnLang.Header.Table
import KilnLang.Proofs.Header.TokenIndices

/-!
# A scan never fails

**Theorem (`scan_never_fails`).** The scan of a header that reads bytes and tokens by their indices
ends for every text, reads nothing out of range, cuts no character, and gives what the model says.

The directives of a line are cut out at the offset of the first character that a test finds, where a
character starts (`slice?_takeWhile`) and, behind an ASCII character, the next one too
(`slice?_after`). The loops over bytes and over tokens never fail (`stripComments_eq`,
`tokenize_eq`, `run_eq`), so nothing does.
-/

namespace KilnLang.Header

open Lexer (isNameStart isNameChar)
open Text (IsAscii At trim trimStart)

namespace Checked

/-! ## Directives -/

/-- The name and the text of a directive, if a line is one. -/
def directive? (line : List Char) : Option (Option (String × List Char)) :=
  match trimStart line with
  | '#' :: cs => do
    let rest := trimStart cs
    let stop := (offsetOf? (fun c => !isNameChar c) rest).getD (utf8Width rest)
    let name ← slice? rest 0 stop
    let text ← slice? rest stop (utf8Width rest)
    return some (String.ofList name, text)
  | _ => some none

/-- The text before the first such character, if there is one. -/
def upTo? (close : Char) (text : List Char) : Option (Option (List Char)) :=
  match offsetOf? (· == close) text with
  | none => some none
  | some stop => (slice? text 0 stop).map some

/-- The header that an include names. -/
def includeTarget? (text : List Char) : Option (Option String) := do
  let target ← match trim text with
    | '<' :: cs => upTo? '>' cs
    | '"' :: cs => upTo? '"' cs
    | _ => some none
  return target.map String.ofList

/-- What the tokens of a macro body produce. -/
def valueOf (ts : List CToken) : MacroValue :=
  let ofNumber (text : String) : MacroValue := if isFloat text then .float else .int
  match unwrap ts with
  | [] => .other
  | [.number text] => ofNumber text
  | [.punct '-', .number text] => ofNumber text
  | [.punct '+', .number text] => ofNumber text
  | [.char] => .char
  | [.word name] => .name name
  | ts => if ts.all (· == .str) then .str else .other

/-- What a macro body produces. -/
def bodyValue (body : List Char) : Option MacroValue :=
  (tokenize (trim body) [] 0).map valueOf

/-- The macro with the parameters at the start of a text and the body after them. -/
def macroWithParams (name : String) (params : List Char) :
    Option (Except DirectiveFlaw HeaderSymbol) :=
  match offsetOf? (· == ')') params with
  | none => some (.error (.unterminatedParameters name))
  | some close => do
    let list ← slice? params 0 close
    match macroParams? list with
    | none => return .error (.invalidParameters name)
    | some (arity, variadic) => do
      let body ← slice? params (close + 1) (utf8Width params)
      let value ← bodyValue body
      return .ok (.macroFn name arity variadic value)

/-- The macro that a definition introduces. -/
def definition (text : List Char) : Option (Except DirectiveFlaw HeaderSymbol) :=
  let rest := trimStart text
  let length := nameLength rest
  if length = 0 then some (.error .missingMacroName)
  else do
    let name ← slice? rest 0 length
    let after ← slice? rest length (utf8Width rest)
    match after with
    | '(' :: params => macroWithParams (String.ofList name) params
    | _ => (bodyValue after).map fun value => .ok (.constant (String.ofList name) value)

section Directives

variable {text cs : List Char} {c : Char}

theorem slice?_takeWhile (p : Char → Bool) (cs : List Char) :
    slice? cs 0 (utf8Width (cs.takeWhile p)) = some (cs.takeWhile p) ∧
      slice? cs (utf8Width (cs.takeWhile p)) (utf8Width cs) = some (cs.dropWhile p) := by
  have hparts : At cs 0 (cs.takeWhile p ++ cs.dropWhile p) := by
    rw [List.takeWhile_append_dropWhile]
    exact Text.at_zero cs
  have hfirst := hparts.slice?
  have hrest := hparts.append.slice?_rest
  rw [Nat.zero_add] at hfirst hrest
  exact ⟨hfirst, hrest⟩

theorem directive?_eq (line : List Char) :
    directive? line = some (Header.directive? line) := by
  unfold directive? Header.directive?
  cases trimStart line with
  | nil => rfl
  | cons c cs =>
    by_cases hc : c = '#'
    · subst hc
      obtain ⟨hname, htext⟩ := slice?_takeWhile isNameChar (trimStart cs)
      rw [← width_takeWhile] at hname htext
      exact (bind_of_eq hname _).trans (bind_of_eq htext _)
    · simp [hc]

theorem offsetOf?_eq (close : Char) (text : List Char) : offsetOf? (· == close) text =
    if text.contains close then some (utf8Width (text.takeWhile (· != close))) else none := by
  have hany : text.any (· == close) = text.contains close := by
    rw [Bool.eq_iff_iff]
    simp
  rw [offsetOf?, hany]
  rfl

theorem upTo?_eq (close : Char) (text : List Char) : upTo? close text =
    some (if text.contains close then some (text.takeWhile (· != close)) else none) := by
  rw [upTo?, offsetOf?_eq]
  split_ifs
  · show (slice? text 0 _).map some = _
    rw [(slice?_takeWhile _ text).1]
    rfl
  · rfl

theorem includeTarget?_eq (text : List Char) :
    includeTarget? text = some (Header.includeTarget? text) := by
  have hmap : ∀ (close : Char) (cs : List Char),
      (upTo? close cs >>= fun target => some (target.map String.ofList)) =
        some (if cs.contains close then some (String.ofList (cs.takeWhile (· != close)))
          else none) := by
    intro close cs
    rw [bind_of_eq (upTo?_eq close cs)]
    split_ifs <;> rfl
  unfold includeTarget? Header.includeTarget?
  cases trim text with
  | nil => rfl
  | cons c cs =>
    by_cases hangle : c = '<'
    · subst hangle
      exact hmap '>' cs
    by_cases hquote : c = '"'
    · subst hquote
      exact hmap '"' cs
    · simp [hangle, hquote]

theorem bodyValue_eq (body : List Char) : bodyValue body = some (Header.bodyValue body) := by
  obtain ⟨before, after, hbefore, hafter, hbody⟩ := Text.padded_trim body
  have htokens : CToken.tokenize body = CToken.tokenize (trim body) := by
    refine (congrArg CToken.tokenize hbody).trans ?_
    rw [tokenize_append_blank hafter, tokenize_of_blank hbefore]
  rw [bodyValue, tokenize_eq [] (Text.at_zero _), List.nil_append, ← htokens]
  rfl

/-- The name at the start of a text is cut off without failure. -/
theorem nameLength_eq (text : List Char) : (nameLength text = 0 ↔ (splitName text).1 = []) ∧
    slice? text 0 (nameLength text) = some (splitName text).1 ∧
    slice? text (nameLength text) (utf8Width text) = some (splitName text).2 := by
  have hstart : At text 0 ([] ++ text) := Text.at_zero text
  have hnone : slice? text 0 0 = some [] ∧ slice? text 0 (utf8Width text) = some text :=
    ⟨hstart.slice?, hstart.slice?_rest⟩
  cases text with
  | nil => exact ⟨⟨fun _ => rfl, fun _ => rfl⟩, hnone⟩
  | cons c cs =>
    rw [splitName]
    by_cases hstart : isNameStart c = true
    · have hfirst : (c :: cs).takeWhile isNameChar = c :: cs.takeWhile isNameChar :=
        List.takeWhile_cons_of_pos (isNameChar_of_isNameStart hstart)
      have hslices := slice?_takeWhile isNameChar (c :: cs)
      rw [if_pos hstart, nameLength_cons hstart, ← hfirst]
      refine ⟨⟨fun hzero => ?_, fun hnil => ?_⟩, hslices⟩
      · have := c.utf8Size_pos
        rw [hfirst, utf8Width_cons] at hzero
        omega
      · rw [hfirst] at hnil
        exact absurd hnil (List.cons_ne_nil _ _)
    · rw [if_neg hstart, nameLength, if_neg hstart]
      exact ⟨⟨fun _ => rfl, fun _ => rfl⟩, hnone⟩

/-- The text after the first such character is cut off without failure. -/
theorem slice?_after {close : Char} (hclose : IsAscii close) (hmem : close ∈ text) :
    slice? text (utf8Width (text.takeWhile (· != close)) + 1) (utf8Width text) =
      some ((text.dropWhile (· != close)).drop 1) := by
  have hparts : At text 0 (text.takeWhile (· != close) ++ text.dropWhile (· != close)) := by
    rw [List.takeWhile_append_dropWhile]
    exact Text.at_zero text
  have hat := hparts.append
  rw [Nat.zero_add] at hat
  obtain ⟨rest, hrest⟩ : ∃ rest, text.dropWhile (· != close) = close :: rest := by
    cases hrest : text.dropWhile (· != close) with
    | nil => exact absurd (List.dropWhile_eq_nil_iff.mp hrest close hmem) (by simp)
    | cons c rest =>
      have hhead : (c != close) = false := by
        simpa [hrest] using List.head?_dropWhile_not (· != close) text
      exact ⟨rest, by rw [bne_eq_false_iff_eq.mp hhead]⟩
  rw [hrest] at hat ⊢
  exact (hat.tail_ascii hclose).slice?_rest

theorem macroWithParams_eq (name : String) (params : List Char) :
    macroWithParams name params =
      some (if params.contains ')' then
        match macroParams? (params.takeWhile (· != ')')) with
        | some (arity, variadic) =>
          .ok (.macroFn name arity variadic
            (Header.bodyValue ((params.dropWhile (· != ')')).drop 1)))
        | none => .error (.invalidParameters name)
      else .error (.unterminatedParameters name)) := by
  rw [macroWithParams, offsetOf?_eq]
  by_cases hmem : params.contains ')' = true
  · rw [if_pos hmem, if_pos hmem]
    refine (bind_of_eq (slice?_takeWhile _ params).1 _).trans ?_
    cases macroParams? (params.takeWhile (· != ')')) with
    | none => rfl
    | some p =>
      refine (bind_of_eq (slice?_after (by decide) (List.contains_iff_mem.mp hmem)) _).trans ?_
      exact bind_of_eq (bodyValue_eq _) _
  · rw [if_neg hmem, if_neg hmem]

theorem definition_eq (text : List Char) : definition text = some (Header.definition text) := by
  obtain ⟨hempty, hname, hafter⟩ := nameLength_eq (trimStart text)
  unfold definition Header.definition
  dsimp only
  by_cases hnil : (splitName (trimStart text)).1 = []
  · rw [if_pos (hempty.mpr hnil), if_pos (List.isEmpty_iff.mpr hnil)]
  rw [if_neg (mt hempty.mp hnil), if_neg (mt List.isEmpty_iff.mp hnil), bind_of_eq hname,
    bind_of_eq hafter]
  generalize (splitName (trimStart text)).2 = after
  generalize String.ofList (splitName (trimStart text)).1 = name
  have hconstant : (bodyValue after).map (fun value => .ok (.constant name value)) =
      some (.ok (.constant name (Header.bodyValue after)) : Except DirectiveFlaw HeaderSymbol) := by
    rw [bodyValue_eq after]
    rfl
  cases after with
  | nil => exact hconstant
  | cons c params =>
    by_cases hopen : c = '('
    · subst hopen
      exact macroWithParams_eq name params
    · simpa [hopen] using hconstant

end Directives

/-! ## Lines -/

/-- Adds what one logical line says; `depth` conditionals are open before it. -/
def addLine (d : Directives) (depth : Nat) (line : LogicalLine) : Option (Directives × Nat) := do
  match ← directive? line.text with
  | none => return ({ d with declarations := d.declarations ++ line.text ++ ['\n'] }, depth)
  | some (name, text) =>
    let warn (flaw : DirectiveFlaw) : Directives :=
      { d with warnings := d.warnings ++ [(line.number, flaw)] }
    if name == "define" then
      match ← definition text with
      | .ok symbol => return ({ d with macros := d.macros ++ [symbol] }, depth)
      | .error flaw => return (warn flaw, depth)
    else if ["include", "include_next", "import"].contains name then do
      let target ← includeTarget? text
      return ({ d with includes := d.includes ++ target.toList }, depth)
    else if ["if", "ifdef", "ifndef"].contains name then return (d, depth + 1)
    else if ["elif", "elifdef", "elifndef", "else"].contains name then
      return (if depth = 0 then warn (.unmatched name) else d, depth)
    else if name == "endif" then
      if depth = 0 then return (warn (.unmatched name), depth) else return (d, depth - 1)
    else return (d, depth)

/-- Adds what the lines say. -/
def addLines (d : Directives) (depth last : Nat) : List LogicalLine → Option Directives
  | [] =>
    if depth = 0 then some d
    else some { d with warnings := d.warnings ++ [(last, .unterminatedConditionals depth)] }
  | line :: more => do
    let (d, depth) ← addLine d depth line
    addLines d depth line.number more

/-- Reads the directives of a header. -/
def directives (contents : String) : Option Directives := do
  let text ← stripComments contents.toList [] none 0 0
  addLines ⟨[], [], [], []⟩ 0 1 (logicalLines text)

/-- Scans one header. -/
def scan (contents : String) : Option Scanned := do
  let d ← directives contents
  let (symbols, _) ← declarations [] d.declarations
  return ⟨d.macros ++ symbols, d.warnings, d.includes⟩

theorem addLine_eq (d : Directives) (depth : Nat) (line : LogicalLine) :
    addLine d depth line = some (d.addLine depth line) := by
  rw [addLine, bind_of_eq (directive?_eq line.text), Directives.addLine]
  cases Header.directive? line.text with
  | none => rfl
  | some p =>
    obtain ⟨name, text⟩ := p
    dsimp only
    split_ifs
    · rw [bind_of_eq (definition_eq text)]
      cases Header.definition text <;> rfl
    · exact bind_of_eq (includeTarget?_eq text) _
    all_goals rfl

theorem addLines_eq (d : Directives) (depth last : Nat) (lines : List LogicalLine) :
    addLines d depth last lines = some (d.addLines depth last lines) := by
  induction lines generalizing d depth last with
  | nil =>
    rw [addLines, Directives.addLines]
    split_ifs <;> rfl
  | cons line more ih =>
    rw [addLines, bind_of_eq (addLine_eq d depth line)]
    exact ih _ _ _

theorem directives_eq (contents : String) :
    directives contents = some (Header.directives contents) := by
  have hstart : At contents.toList 0 ([] ++ contents.toList) := Text.at_zero _
  have hstrip : stripComments contents.toList [] none 0 0 =
      some (Header.stripComments .plain contents.toList) :=
    stripComments_eq isQuote_of_mem_none hstart
  rw [directives, bind_of_eq hstrip, addLines_eq]
  rfl

end Checked

/-- The scan of a header ends, never reads out of range and never cuts a character, whatever its
text is, and gives what the model says. -/
theorem scan_never_fails (contents : String) : Checked.scan contents = some (scan contents) := by
  rw [Checked.scan, Checked.bind_of_eq (Checked.directives_eq contents),
    Checked.bind_of_eq (Checked.declarations_eq [] _)]
  rfl

end KilnLang.Header
