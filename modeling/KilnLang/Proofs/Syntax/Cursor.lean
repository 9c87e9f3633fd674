import KilnLang.Syntax.Parser

/-!
# Parsing by positions

The parser as it goes over an array of tokens: a position that only `bump` moves on and only a
rewind moves back, and a look at the next tokens that stops at the last one. At the end of the
tokens `bump` stays where it is, so nothing in the loops says that they end. A loop goes on as a call
of itself.

A reader has no result if its calls nest deeper than a given depth, and none if it goes past the
first end among the tokens (`Reader`). So that it has one from some depth on says both that it ends
and that it stays within the tokens.
-/

namespace KilnLang.Cursor

open KilnLang.Parser (prefixOp? binaryOp? assignOp? literal? respan)

/-- What goes on from a position, and gives a value or an error and the position after it, or has
no result. -/
abbrev Reader (α : Type) := ExceptT ParseError (StateT Nat Option) α

variable (ts : List Token) (depth : Nat)

/-- Has no result: calls nest too deep. -/
def tooDeep {α : Type} : Reader α := fun _ => none

/-- The index of the first end among the tokens. -/
def limit : Nat := ts.findIdx (·.kind == .eof)

/-! ## Tokens -/

/-- The token that comes `offset` tokens after the next one, or the last one. -/
def peekAt (offset : Nat) : Reader Token := fun position => do
  let t ← ts[min (position + offset) (ts.length - 1)]?
  return (.ok t, position)

/-- The next token. -/
def peek : Reader Token := peekAt ts 0

/-- Whether the next token has the kind. -/
def sees (kind : TokenKind) : Reader Bool := do
  return (← peek ts).kind = kind

/-- Takes the next token, but not the end. -/
def bump : Reader Token := fun position => do
  let t ← ts[min position (ts.length - 1)]?
  if t.kind = .eof then some (.ok t, position)
  else if position < limit ts then some (.ok t, position + 1)
  else none

/-- Takes the next token if it has the kind. -/
def take? (kind : TokenKind) : Reader (Option Token) := do
  if ← sees ts kind then return some (← bump ts) else return none

/-- Goes back to a position. -/
def rewind (saved : Nat) : Reader Unit := fun _ => some (.ok (), saved)

/-- The position. -/
def position : Reader Nat := fun position => some (.ok position, position)

/-- The result of a reader, also if it is an error. -/
def attempt {α : Type} (r : Reader α) : Reader (Except ParseError α) := fun position => do
  let (result, position) ← r position
  return (.ok result, position)

/-- The span of the token before the position, or of the next one. -/
def previousSpan : Reader Span := do
  let next ← peek ts
  let p ← position
  match if p = 0 then none else ts[p - 1]? with
  | some t => return t.span
  | none => return next.span

/-- Whether the next token stands on a new line. -/
def newlineBefore : Reader Bool := do
  let next ← peek ts
  let p ← position
  return p ≠ 0 && next.fresh

/-- Fails because none of the kinds comes next. -/
def unexpected {α : Type} (expected : List TokenKind) : Reader α := do
  let t ← peek ts
  throw ⟨if t.kind = .eof then .unexpectedEof else .unexpectedToken t.text, t.span,
    expected.map (·.describe)⟩

/-- Takes the next token, which has to have the kind. -/
def expect (kind : TokenKind) : Reader Token := do
  match ← take? ts kind with
  | some t => return t
  | none => unexpected ts [kind]

/-- Takes a name. -/
def ident : Reader Ident := do
  let t ← expect ts .ident
  return ⟨t.text, t.span⟩

/-- Takes the parenthesis that closes a list whose last element no comma follows. -/
def closeList : Reader Unit := do
  match ← take? ts .rparen with
  | some _ => return ()
  | none => unexpected ts [.rparen, .comma]

/-- Takes the parenthesis that closes a list after its variadic marker. -/
def closeRest : Reader Unit := do
  let _ ← take? ts .comma
  match ← take? ts .rparen with
  | some _ => return ()
  | none => throw ⟨.variadicNotLast, (← peek ts).span, [TokenKind.rparen.describe]⟩

/-! ## Types -/

/-- Reads the length of an array type after its opening bracket. -/
def arrayLength : Reader (Option Nat) := do
  match ← take? ts .intLiteral with
  | none => return none
  | some t =>
    match IntLiteral.value? t.text with
    | some n => return some n
    | none => throw ⟨.invalidArrayLength t.text, t.span, []⟩

/-- Reads the brackets after the type `ty`. -/
def arraySuffix : Nat → TypeExpr → Reader TypeExpr
  | 0, _ => tooDeep
  | depth + 1, ty => do
    match ← take? ts .lbracket with
    | none => return ty
    | some _ =>
      let length ← arrayLength ts
      let close ← expect ts .rbracket
      arraySuffix depth (.array (ty.span.join close.span) ty length)

mutual

/-- Reads a type. -/
def typeExpr : Nat → Reader TypeExpr
  | 0 => tooDeep
  | depth + 1 => do
    match ← take? ts .kwRef with
    | some start =>
      let inner ← typeExpr depth
      return .ref (start.span.join inner.span) inner
    | none =>
      match ← take? ts .kwFunc with
      | some start =>
        let _ ← expect ts .less
        let ret ← typeExpr depth
        let _ ← expect ts .lparen
        let (params, rest) ← typeList depth
        let close ← expect ts .greater
        arraySuffix ts depth (.func (start.span.join close.span) ⟨ret, params, rest⟩)
      | none =>
        let name ← ident ts
        arraySuffix ts depth (.named ⟨name.span, [name], none⟩)

/-- Reads types up to the closing parenthesis. -/
def typeList : Nat → Reader (List TypeExpr × Rest TypeExpr)
  | 0 => tooDeep
  | depth + 1 => do
    match ← take? ts .rparen with
    | some _ => return ([], .none)
    | none =>
      match ← take? ts .ellipsis with
      | some _ =>
        closeRest ts
        return ([], .untyped)
      | none =>
        let ty ← typeExpr depth
        match ← take? ts .ellipsis with
        | some _ =>
          closeRest ts
          return ([], .typed ty)
        | none =>
          match ← take? ts .comma with
          | some _ =>
            let (params, rest) ← typeList depth
            return (ty :: params, rest)
          | none =>
            closeList ts
            return ([ty], .none)

end

/-! ## Expressions -/

/-- Takes a binary operator; two adjacent closing angle brackets are a shift. -/
def operator? : Reader (Option Operator) := do
  let t ← peek ts
  match binaryOp? t.kind with
  | none => return none
  | some op =>
    let next ← peekAt ts 1
    if op = .gt ∧ next.kind = .greater ∧ next.span.start = t.span.stop then
      let _ ← bump ts
      let _ ← bump ts
      return some ⟨t.span.join next.span, .shr⟩
    else
      let _ ← bump ts
      return some ⟨t.span, op⟩

/-- Reads further parts of a dotted name. -/
def dottedTail : Nat → Reader (List Ident)
  | 0 => tooDeep
  | depth + 1 => do
    match ← take? ts .dot with
    | none => return []
    | some _ =>
      let name ← ident ts
      let names ← dottedTail depth
      return name :: names

/-- Reads a dotted name. -/
def dottedName : Reader DottedName := do
  let first ← ident ts
  let more ← dottedTail ts depth
  return ⟨first.span.join ((more.getLast?).getD first).span, first :: more, none⟩

mutual

/-- Reads an operand. -/
def operand : Nat → Reader Value
  | 0 => tooDeep
  | depth + 1 => do
    let t ← peek ts
    match prefixOp? t.kind with
    | some op =>
      let start ← bump ts
      let value ← operand depth
      return .prefixed (start.span.join value.span) op value
    | none =>
      match literal? t with
      | some value =>
        let _ ← bump ts
        suffix depth value
      | none =>
        match ← take? ts .lparen with
        | some start =>
          let inner ← expr depth
          let close ← expect ts .rparen
          suffix depth (.paren (respan (start.span.join close.span) inner))
        | none =>
          match ← take? ts .kwRef with
          | some start =>
            let inner ← operand depth
            suffix depth (.ref (start.span.join inner.span) inner)
          | none =>
            if t.kind = .ident then
              let name ← dottedName ts depth
              suffix depth (.ident name)
            else unexpected ts [.ident, .intLiteral, .stringLiteral, .lparen]

/-- Reads the calls, indices and suffix operators after an operand. -/
def suffix : Nat → Value → Reader Value
  | 0, _ => tooDeep
  | depth + 1, value => do
    if ← sees ts .lparen then
      match value with
      | .ident callee =>
        let args ← arguments depth
        suffix depth (.call (callee.span.join (← previousSpan ts)) callee args none 0)
      | other => throw ⟨.invalidCallee, other.span, []⟩
    else
      match ← take? ts .lbracket with
      | some _ =>
        let index ← expr depth
        let close ← expect ts .rbracket
        suffix depth (.index (value.span.join close.span) value index)
      | none =>
        match ← take? ts .plusPlus with
        | some sign => suffix depth (.suffixed (value.span.join sign.span) .inc value)
        | none =>
          match ← take? ts .minusMinus with
          | some sign => suffix depth (.suffixed (value.span.join sign.span) .dec value)
          | none => return value

/-- Reads the arguments of a call. -/
def arguments : Nat → Reader (List Expr)
  | 0 => tooDeep
  | depth + 1 => do
    let _ ← expect ts .lparen
    moreArguments depth

/-- Reads arguments up to the closing parenthesis. -/
def moreArguments : Nat → Reader (List Expr)
  | 0 => tooDeep
  | depth + 1 => do
    match ← take? ts .rparen with
    | some _ => return []
    | none =>
      let arg ← expr depth
      match ← take? ts .comma with
      | some _ =>
        let args ← moreArguments depth
        return arg :: args
      | none =>
        closeList ts
        return [arg]

/-- Reads an expression. -/
def expr : Nat → Reader Expr
  | 0 => tooDeep
  | depth + 1 => do
    let first ← operand depth
    let chain ← chainTail depth first
    return .mk (first.span.join (← previousSpan ts)) chain

/-- Reads the operators and operands after the operand `first`. -/
def chainTail : Nat → Value → Reader Chain
  | 0, _ => tooDeep
  | depth + 1, first => do
    match ← operator? ts with
    | none => return .operand first
    | some op =>
      let next ← operand depth
      let chain ← chainTail depth next
      return .link first op chain

end

/-- Reads the rest of an expression that starts with the operand `first`. -/
def exprFrom (first : Value) : Reader Expr := do
  let chain ← chainTail ts depth first
  return .mk (first.span.join (← previousSpan ts)) chain

/-! ## Statements -/

/-- Reads the initial value of a variable whose type and name have been read. -/
def varDecl (ty : TypeExpr) (name : Ident) : Reader VarDecl := do
  match ← take? ts .assign with
  | none => return ⟨ty.span.join (← previousSpan ts), ty, name, none, none⟩
  | some _ =>
    let init ← expr ts depth
    return ⟨ty.span.join (← previousSpan ts), ty, name, some init, none⟩

/-- Reads the type and the name of a local variable, or goes back to where it started. -/
def localHead? : Reader (Option (TypeExpr × Ident)) := do
  let saved ← position
  match ← attempt (typeExpr ts depth) with
  | .error _ =>
    rewind saved
    return none
  | .ok ty =>
    if !(← sees ts .ident) || (← newlineBefore ts) then
      rewind saved
      return none
    else
      let name ← ident ts
      return some (ty, name)

/-- Reads a local variable, or nothing. -/
def localVar? : Reader (Option VarDecl) := do
  match ← localHead? ts depth with
  | none => return none
  | some (ty, name) => return some (← varDecl ts depth ty name)

/-- Reads an assignment or an expression. -/
def exprStmt : Reader Stmt := do
  let first ← operand ts depth
  let t ← peek ts
  match assignOp? t.kind with
  | some op =>
    let _ ← bump ts
    let value ← expr ts depth
    return .assign (first.span.join value.span) first op value
  | none => return .expr (← exprFrom ts depth first)

/-- Reads a declaration, an assignment or an expression. -/
def simpleStmt : Reader Stmt := do
  match ← localVar? ts depth with
  | some var => return .decl var
  | none => exprStmt ts depth

/-- Reads the value of a return statement, unless the statement ends. -/
def returnValue : Reader (Option Expr) := do
  let t ← peek ts
  if t.kind = .rbrace ∨ t.kind = .semi ∨ t.kind = .eof then return none
  else return some (← expr ts depth)

mutual

/-- Reads a statement and a semicolon after it. -/
def stmt : Nat → Reader Stmt
  | 0 => tooDeep
  | depth + 1 => do
    let first ← bareStmt depth
    let _ ← take? ts .semi
    return first

/-- Reads a statement. -/
def bareStmt : Nat → Reader Stmt
  | 0 => tooDeep
  | depth + 1 => do
    match ← take? ts .kwIf with
    | some start =>
      let cond ← expr ts depth
      let (body, bodySpan) ← block depth
      let branches ← otherBranches depth
      return .cond (.mk (start.span.join bodySpan) (.first cond) body :: branches)
    | none =>
      match ← take? ts .kwWhile with
      | some start =>
        let cond ← expr ts depth
        let (body, bodySpan) ← block depth
        return .loop (start.span.join bodySpan) cond body
      | none =>
        match ← take? ts .kwReturn with
        | some start =>
          let value ← returnValue ts depth
          return .ret (start.span.join (← previousSpan ts)) value
        | none =>
          if ← sees ts .lbrace then
            let (body, span) ← block depth
            return .block span body
          else simpleStmt ts depth

/-- Reads statements in braces, and the span of the braces. -/
def block : Nat → Reader (List Stmt × Span)
  | 0 => tooDeep
  | depth + 1 => do
    let start ← expect ts .lbrace
    let body ← stmts depth
    return (body, start.span.join (← previousSpan ts))

/-- Reads statements up to and with the closing brace. -/
def stmts : Nat → Reader (List Stmt)
  | 0 => tooDeep
  | depth + 1 => do
    match ← take? ts .rbrace with
    | some _ => return []
    | none =>
      if ← sees ts .eof then unexpected ts [.rbrace]
      else
        let first ← stmt depth
        let body ← stmts depth
        return first :: body

/-- Reads the branches after the first one. -/
def otherBranches : Nat → Reader (List Branch)
  | 0 => tooDeep
  | depth + 1 => do
    match ← take? ts .kwElif with
    | some start =>
      let cond ← expr ts depth
      let (body, bodySpan) ← block depth
      let branches ← otherBranches depth
      return .mk (start.span.join bodySpan) (.next cond) body :: branches
    | none =>
      match ← take? ts .kwElse with
      | some start =>
        let (body, bodySpan) ← block depth
        return [.mk (start.span.join bodySpan) .otherwise body]
      | none => return []

end

/-! ## Units -/

/-- Reads further segments of the path of an include. -/
def includeTail : Nat → Reader (List Ident)
  | 0 => tooDeep
  | depth + 1 => do
    match ← take? ts .slash with
    | none => return []
    | some _ =>
      let name ← ident ts
      let names ← includeTail depth
      return name :: names

/-- Reads the default of a parameter. -/
def defaultValue : Reader (Option Expr) := do
  match ← take? ts .assign with
  | none => return none
  | some _ => return some (← expr ts depth)

/-- Reads the name and the default of a parameter whose type has been read. -/
def param (needsDefault : Bool) (ty : TypeExpr) : Reader Param := do
  let name ← ident ts
  let default ← defaultValue ts depth
  if needsDefault && default.isNone then
    throw ⟨.defaultParameterOrder name.text, name.span, [TokenKind.assign.describe]⟩
  else return ⟨ty, name, default⟩

/-- Reads parameters up to the closing parenthesis. -/
def paramList : Nat → Bool → Reader (List Param × Rest TypeExpr)
  | 0, _ => tooDeep
  | depth + 1, needsDefault => do
    match ← take? ts .rparen with
    | some _ => return ([], .none)
    | none =>
      match ← take? ts .ellipsis with
      | some _ =>
        closeRest ts
        return ([], .untyped)
      | none =>
        let ty ← typeExpr ts depth
        match ← take? ts .ellipsis with
        | some _ =>
          closeRest ts
          return ([], .typed ty)
        | none =>
          let first ← param ts depth needsDefault ty
          match ← take? ts .comma with
          | some _ =>
            let (params, rest) ← paramList depth first.default.isSome
            return (first :: params, rest)
          | none =>
            closeList ts
            return ([first], .none)

/-- Reads the body of a function, if it has one. -/
def functionBody : Reader (Option (List Stmt)) := do
  if ← sees ts .lbrace then
    let (body, _) ← block ts depth
    return some body
  else return none

/-- Reads an include. -/
def headerNode : Reader Node := do
  let start ← expect ts .kwInclude
  let first ← ident ts
  let more ← includeTail ts depth
  let last := (more.getLast?).getD first
  return .header ⟨start.span.join last.span, first :: more, none⟩

/-- Reads an alias. -/
def aliasNode : Reader Node := do
  let start ← expect ts .kwAlias
  let target ← typeExpr ts depth
  let name ← ident ts
  return .alias ⟨start.span.join name.span, target, name⟩

/-- Reads a function or a variable. -/
def declaration : Reader Node := do
  let ty ← typeExpr ts depth
  let name ← ident ts
  match ← take? ts .lparen with
  | some _ =>
    let (params, rest) ← paramList ts depth false
    let body ← functionBody ts depth
    return .function ⟨ty.span.join (← previousSpan ts), ty, name, params, rest, body, none, none⟩
  | none => return .global (← varDecl ts depth ty name)

/-- Reads a part of a unit. -/
def node : Reader Node := do
  if ← sees ts .kwInclude then headerNode ts depth
  else if ← sees ts .kwAlias then aliasNode ts depth
  else declaration ts depth

/-- Reads the parts of a unit up to the end, with a semicolon after each where there is one. -/
def nodes : Nat → Reader (List Node)
  | 0 => tooDeep
  | depth + 1 => do
    if ← sees ts .eof then return []
    else
      let first ← node ts depth
      let _ ← take? ts .semi
      let more ← nodes depth
      return first :: more

end KilnLang.Cursor
