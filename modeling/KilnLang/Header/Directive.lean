import KilnLang.Header.CToken
import KilnLang.Header.Lines
import KilnLang.Header.Symbol

/-!
# Directives

Lines that start with `#`. **Definitions** give macros, **includes** name further headers, and
**conditionals** are only checked for balance: no condition is evaluated, so every branch is
visible. All lines that are no directives are kept for the declarations.
-/

namespace KilnLang.Header

open Lexer (isNameStart isNameChar)

/-! ## Macros -/

/-- Splits off the name at the start of a text, empty if none is there. -/
def splitName (cs : List Char) : List Char × List Char :=
  match cs with
  | [] => ([], [])
  | c :: _ =>
    if isNameStart c then (cs.takeWhile isNameChar, cs.dropWhile isNameChar) else ([], cs)

/-- Whether a text is a name. -/
def isName (cs : List Char) : Bool :=
  let (name, rest) := splitName cs
  !name.isEmpty && rest.isEmpty

/-- Whether every closing parenthesis closes one that was opened, `depth` of which are open, and
all are closed at the end. -/
def isBalanced (depth : Nat) : List CToken → Bool
  | [] => depth == 0
  | .punct '(' :: ts => isBalanced (depth + 1) ts
  | .punct ')' :: ts => depth != 0 && isBalanced (depth - 1) ts
  | _ :: ts => isBalanced depth ts

/-- The tokens without a pair of parentheses around all of them. -/
def unwrap? (ts : List CToken) : Option (List CToken) :=
  match ts with
  | .punct '(' :: inner =>
    if inner.getLast? = some (.punct ')') ∧ isBalanced 0 inner.dropLast then some inner.dropLast
    else none
  | _ => none

theorem unwrap?_length {ts inner : List CToken} (h : unwrap? ts = some inner) :
    inner.length < ts.length := by
  unfold unwrap? at h
  split at h
  · split at h
    · grind
    · simp at h
  · simp at h

/-- The tokens without the parentheses around all of them. -/
def unwrap (ts : List CToken) : List CToken :=
  match _h : unwrap? ts with
  | some inner => unwrap inner
  | none => ts
termination_by ts.length
decreasing_by exact unwrap?_length _h

/-- Whether the text of a number makes it a floating literal. -/
def isFloat (text : String) : Bool :=
  let cs := text.toList.map Char.toLower
  if ['0', 'x'].isPrefixOf cs then cs.contains 'p' || cs.contains '.'
  else cs.contains '.' || cs.contains 'e'

/-- What a macro body produces: a literal, which a sign may precede, a name, or anything else. -/
def bodyValue (body : List Char) : MacroValue :=
  let ofNumber (text : String) : MacroValue := if isFloat text then .float else .int
  match unwrap (CToken.tokenize body) with
  | [] => .other
  | [.number text] => ofNumber text
  | [.punct '-', .number text] => ofNumber text
  | [.punct '+', .number text] => ofNumber text
  | [.char] => .char
  | [.word name] => .name name
  | ts => if ts.all (· == .str) then .str else .other

/-- The text before three final points. -/
def dropEllipsis? (cs : List Char) : Option (List Char) :=
  if ['.', '.', '.'].isSuffixOf cs then some (cs.take (cs.length - 3)) else none

/-- The number of parameters in a list of them, `arity` of which have been read, and whether the
last takes all further arguments: `...` or `name...`, which does not count. -/
def paramCount? (arity : Nat) : List (List Char) → Option (Nat × Bool)
  | [] => some (arity, false)
  | part :: more =>
    match dropEllipsis? part with
    | some [] => if more.isEmpty then some (arity, true) else none
    | some named =>
      if more.isEmpty && isName (Text.trimEnd named) then some (arity, true) else none
    | none => if isName part then paramCount? (arity + 1) more else none

/-- The number of parameters of a macro and whether it is variadic. -/
def macroParams? (list : List Char) : Option (Nat × Bool) :=
  if (Text.trim list).isEmpty then some (0, false)
  else paramCount? 0 ((Text.splitAt ',' list).map Text.trim)

/-- The macro that a definition introduces; a parenthesis that touches the name opens its
parameters. -/
def definition (text : List Char) : Except DirectiveFlaw HeaderSymbol :=
  let (name, after) := splitName (Text.trimStart text)
  let nameText := String.ofList name
  if name.isEmpty then .error .missingMacroName
  else
    match after with
    | '(' :: params =>
      if params.contains ')' then
        match macroParams? (params.takeWhile (· != ')')) with
        | some (arity, variadic) =>
          let body := (params.dropWhile (· != ')')).drop 1
          .ok (.macroFn nameText arity variadic (bodyValue body))
        | none => .error (.invalidParameters nameText)
      else .error (.unterminatedParameters nameText)
    | _ => .ok (.constant nameText (bodyValue after))

/-! ## Lines -/

/-- The name and the text of a directive, if a line is one. -/
def directive? (line : List Char) : Option (String × List Char) :=
  match Text.trimStart line with
  | '#' :: cs =>
    let cs := Text.trimStart cs
    some (String.ofList (cs.takeWhile isNameChar), cs.dropWhile isNameChar)
  | _ => none

/-- The header that an include names between angle brackets or quotes. -/
def includeTarget? (text : List Char) : Option String :=
  let upTo (close : Char) (cs : List Char) : Option String :=
    if cs.contains close then some (String.ofList (cs.takeWhile (· != close))) else none
  match Text.trim text with
  | '<' :: cs => upTo '>' cs
  | '"' :: cs => upTo '"' cs
  | _ => none

/-- What the directives of a header say, and the text outside of them. -/
structure Directives where
  macros : List HeaderSymbol
  warnings : List (Nat × DirectiveFlaw)
  includes : List String
  declarations : List Char
  deriving Repr, Inhabited

/-- Adds what one logical line says; `depth` conditionals are open before it. -/
def Directives.addLine (d : Directives) (depth : Nat) (line : LogicalLine) : Directives × Nat :=
  match directive? line.text with
  | none => ({ d with declarations := d.declarations ++ line.text ++ ['\n'] }, depth)
  | some (name, text) =>
    let warn (flaw : DirectiveFlaw) : Directives :=
      { d with warnings := d.warnings ++ [(line.number, flaw)] }
    if name == "define" then
      match definition text with
      | .ok symbol => ({ d with macros := d.macros ++ [symbol] }, depth)
      | .error flaw => (warn flaw, depth)
    else if ["include", "include_next", "import"].contains name then
      ({ d with includes := d.includes ++ (includeTarget? text).toList }, depth)
    else if ["if", "ifdef", "ifndef"].contains name then (d, depth + 1)
    else if ["elif", "elifdef", "elifndef", "else"].contains name then
      (if depth = 0 then warn (.unmatched name) else d, depth)
    else if name == "endif" then
      if depth = 0 then (warn (.unmatched name), depth) else (d, depth - 1)
    else (d, depth)

/-- Adds what the lines say, the last of which ends the header; conditionals that are still open
are reported there. -/
def Directives.addLines (d : Directives) (depth last : Nat) : List LogicalLine → Directives
  | [] =>
    if depth = 0 then d
    else { d with warnings := d.warnings ++ [(last, .unterminatedConditionals depth)] }
  | line :: more =>
    let (d, depth) := d.addLine depth line
    d.addLines depth line.number more

/-- Reads the directives of a header. -/
def directives (contents : String) : Directives :=
  Directives.addLines ⟨[], [], [], []⟩ 0 1 (logicalLines (stripComments .plain contents.toList))

end KilnLang.Header
