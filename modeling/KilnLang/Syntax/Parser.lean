import KilnLang.Syntax.TokenStream
import KilnLang.Token.IntLiteral

/-!
# Parsing

Recursive descent over a token stream, in four layers: types, expressions, statements and units.
Each layer ends because every step shortens the stream; where two parsers of a layer call each
other without reading, the measure ranks them.

**Declarations and expressions** can start alike (`a[4] x` against `a[4] = x`). A statement is
read as a declaration when a type followed by a name on the same line can be read, and else as an
expression from where it started.

**Separators.** A semicolon may follow each statement and each part of a unit, and a comma the
last element of each non-empty list in parentheses.
-/

namespace KilnLang.Parser

open TokenStream

/-! ## Types -/

/-- Reads the length of an array type after its opening bracket. -/
def arrayLength (s : TokenStream) : Except ParseError (Pause s (Option Nat)) :=
  match s.take? .intLiteral with
  | none => .ok (.stay none)
  | some step =>
    match IntLiteral.value? step.value.text with
    | some n => .ok (step.map fun _ => some n).toPause
    | none => .error ⟨.invalidArrayLength step.value.text, step.value.span, []⟩

/-- Reads the brackets after the type `ty`. -/
def arraySuffix (ty : TypeExpr) (s : TokenStream) : Except ParseError (Pause s TypeExpr) :=
  match s.take? .lbracket with
  | none => .ok (.stay ty)
  | some ⟨_, s₁, h₁⟩ => do
    let ⟨length, s₂, h₂⟩ ← arrayLength s₁
    let ⟨close, s₃, h₃⟩ ← s₂.expect .rbracket
    let ⟨ty, s₄, h₄⟩ ← arraySuffix (.array (ty.span.join close.span) ty length) s₃
    return ⟨ty, s₄, by omega⟩
termination_by s.size
decreasing_by all_goals omega

mutual

/-- Reads a type. -/
def typeExpr (s : TokenStream) : Except ParseError (Step s TypeExpr) :=
  match s.take? .kwRef with
  | some ⟨start, s₁, h₁⟩ => do
    let ⟨inner, s₂, h₂⟩ ← typeExpr s₁
    return ⟨.ref (start.span.join inner.span) inner, s₂, by omega⟩
  | none =>
    match s.take? .kwFunc with
    | some ⟨start, s₁, h₁⟩ => do
      let ⟨_, s₂, h₂⟩ ← s₁.expect .less
      let ⟨ret, s₃, h₃⟩ ← typeExpr s₂
      let ⟨_, s₄, h₄⟩ ← s₃.expect .lparen
      let ⟨(params, rest), s₅, h₅⟩ ← typeList s₄
      let ⟨close, s₆, h₆⟩ ← s₅.expect .greater
      let ⟨ty, s₇, h₇⟩ ← arraySuffix (.func (start.span.join close.span) ⟨ret, params, rest⟩) s₆
      return ⟨ty, s₇, by omega⟩
    | none => do
      let ⟨name, s₁, h₁⟩ ← s.ident
      let ⟨ty, s₂, h₂⟩ ← arraySuffix (.named ⟨name.span, [name], none⟩) s₁
      return ⟨ty, s₂, by omega⟩
termination_by 2 * s.size
decreasing_by all_goals omega

/-- Reads types up to the closing parenthesis. -/
def typeList (s : TokenStream) : Except ParseError (Step s (List TypeExpr × Rest TypeExpr)) :=
  match s.take? .rparen with
  | some step => .ok (step.map fun _ => ([], .none))
  | none =>
    match s.take? .ellipsis with
    | some ⟨_, s₁, h₁⟩ => do
      let ⟨_, s₂, h₂⟩ ← s₁.closeRest
      return ⟨([], .untyped), s₂, Nat.lt_trans h₂ h₁⟩
    | none => do
      let ⟨ty, s₁, h₁⟩ ← typeExpr s
      match s₁.take? .ellipsis with
      | some ⟨_, s₂, h₂⟩ =>
        let ⟨_, s₃, h₃⟩ ← s₂.closeRest
        return ⟨([], .typed ty), s₃, Nat.lt_trans h₃ (Nat.lt_trans h₂ h₁)⟩
      | none =>
        match s₁.take? .comma with
        | some ⟨_, s₂, h₂⟩ =>
          let ⟨(params, rest), s₃, h₃⟩ ← typeList s₂
          return ⟨(ty :: params, rest), s₃, Nat.lt_trans h₃ (Nat.lt_trans h₂ h₁)⟩
        | none =>
          let ⟨_, s₂, h₂⟩ ← s₁.closeList
          return ⟨([ty], .none), s₂, Nat.lt_trans h₂ h₁⟩
termination_by 2 * s.size + 1
decreasing_by all_goals omega

end

/-! ## Expressions -/

/-- The operator of one operand that a token is. -/
def prefixOp? : TokenKind → Option UnaryOp
  | .bang => some .not
  | .minus => some .neg
  | .tilde => some .bitNot
  | .plusPlus => some .inc
  | .minusMinus => some .dec
  | _ => none

/-- The binary operator that a single token is. -/
def binaryOp? : TokenKind → Option BinaryOp
  | .plus => some .add
  | .minus => some .sub
  | .star => some .mul
  | .slash => some .div
  | .percent => some .rem
  | .eqEq => some .eq
  | .notEq => some .ne
  | .less => some .lt
  | .lessEq => some .le
  | .greater => some .gt
  | .greaterEq => some .ge
  | .andAnd => some .and
  | .orOr => some .or
  | .amp => some .bitAnd
  | .pipe => some .bitOr
  | .caret => some .bitXor
  | .shl => some .shl
  | _ => none

/-- The assignment operator that a token is; plain assignment has no operation. -/
def assignOp? : TokenKind → Option (Option AssignOp)
  | .assign => some none
  | .plusAssign => some (some .add)
  | .minusAssign => some (some .sub)
  | .starAssign => some (some .mul)
  | .slashAssign => some (some .div)
  | .percentAssign => some (some .rem)
  | _ => none

/-- Takes any token but the end. -/
def advance? (s : TokenStream) : Option (Step s Token) := s.take? s.kind

/-- Takes a binary operator; two adjacent closing angle brackets are a shift. -/
def operator? (s : TokenStream) : Option (Step s Operator) :=
  match binaryOp? s.kind, advance? s with
  | some op, some step =>
    if op = .gt then
      match step.rest.take? .greater with
      | some second =>
        if second.value.span.start = step.value.span.stop then
          some (step.andThen (second.map fun t => ⟨step.value.span.join t.span, .shr⟩))
        else some (step.map fun t => ⟨t.span, op⟩)
      | none => some (step.map fun t => ⟨t.span, op⟩)
    else some (step.map fun t => ⟨t.span, op⟩)
  | _, _ => none

/-- The text between the quotes of a literal. -/
def unquote (text : String) : String := String.ofList (text.toList.drop 1).dropLast

/-- The operand that a single token is. -/
def literal? (t : Token) : Option Value :=
  match t.kind with
  | .intLiteral => some (.number ⟨t.span, t.text⟩)
  | .floatLiteral => some (.decimal ⟨t.span, t.text⟩)
  | .stringLiteral => some (.string ⟨t.span, unquote t.text⟩)
  | .charLiteral => some (.char ⟨t.span, unquote t.text⟩)
  | .kwTrue => some (.bool t.span true)
  | .kwFalse => some (.bool t.span false)
  | .kwNull => some (.null t.span)
  | _ => none

/-- Reads further parts of a dotted name. -/
def dottedTail (s : TokenStream) : Except ParseError (Pause s (List Ident)) :=
  match s.take? .dot with
  | none => .ok (.stay [])
  | some ⟨_, s₁, h₁⟩ => do
    let ⟨name, s₂, h₂⟩ ← s₁.ident
    let ⟨names, s₃, h₃⟩ ← dottedTail s₂
    return ⟨name :: names, s₃, by omega⟩
termination_by s.size
decreasing_by all_goals omega

/-- Reads a dotted name. -/
def dottedName (s : TokenStream) : Except ParseError (Step s DottedName) := do
  let ⟨first, s₁, h₁⟩ ← s.ident
  let ⟨more, s₂, h₂⟩ ← dottedTail s₁
  let last := (more.getLast?).getD first
  return ⟨⟨first.span.join last.span, first :: more, none⟩, s₂, by omega⟩

/-- The expression whose text is `span`. -/
def respan (span : Span) : Expr → Expr
  | .mk _ chain => .mk span chain

mutual

/-- Reads an operand. -/
def operand (s : TokenStream) : Except ParseError (Step s Value) :=
  match prefixOp? s.kind, advance? s with
  | some op, some ⟨start, s₁, h₁⟩ => do
    let ⟨value, s₂, h₂⟩ ← operand s₁
    return ⟨.prefixed (start.span.join value.span) op value, s₂, by omega⟩
  | _, _ =>
    match literal? s.peek, advance? s with
    | some value, some ⟨_, s₁, h₁⟩ => do
      let ⟨value, s₂, h₂⟩ ← suffix value s₁
      return ⟨value, s₂, by omega⟩
    | _, _ =>
      match s.take? .lparen with
      | some ⟨start, s₁, h₁⟩ => do
        let ⟨inner, s₂, h₂⟩ ← expr s₁
        let ⟨close, s₃, h₃⟩ ← s₂.expect .rparen
        let ⟨value, s₄, h₄⟩ ← suffix (.paren (respan (start.span.join close.span) inner)) s₃
        return ⟨value, s₄, by omega⟩
      | none =>
        match s.take? .kwRef with
        | some ⟨start, s₁, h₁⟩ => do
          let ⟨inner, s₂, h₂⟩ ← operand s₁
          let ⟨value, s₃, h₃⟩ ← suffix (.ref (start.span.join inner.span) inner) s₂
          return ⟨value, s₃, by omega⟩
        | none =>
          if s.kind = .ident then do
            let ⟨name, s₁, h₁⟩ ← dottedName s
            let ⟨value, s₂, h₂⟩ ← suffix (.ident name) s₁
            return ⟨value, s₂, by omega⟩
          else .error (s.unexpected [.ident, .intLiteral, .stringLiteral, .lparen])
termination_by 3 * s.size
decreasing_by all_goals omega

/-- Reads the calls, indices and suffix operators after an operand. -/
def suffix (value : Value) (s : TokenStream) : Except ParseError (Pause s Value) :=
  match s.take? .lparen with
  | some ⟨_, s₁, h₁⟩ =>
    match value with
    | .ident callee => do
      let ⟨args, s₂, h₂⟩ ← arguments s₁
      let ⟨value, s₃, h₃⟩ ← suffix (.call (callee.span.join s₂.last) callee args none 0) s₂
      return ⟨value, s₃, by omega⟩
    | other => .error ⟨.invalidCallee, other.span, []⟩
  | none =>
    match s.take? .lbracket with
    | some ⟨_, s₁, h₁⟩ => do
      let ⟨position, s₂, h₂⟩ ← expr s₁
      let ⟨close, s₃, h₃⟩ ← s₂.expect .rbracket
      let ⟨value, s₄, h₄⟩ ← suffix (.index (value.span.join close.span) value position) s₃
      return ⟨value, s₄, by omega⟩
    | none =>
      match s.take? .plusPlus with
      | some ⟨sign, s₁, h₁⟩ => do
        let ⟨value, s₂, h₂⟩ ← suffix (.suffixed (value.span.join sign.span) .inc value) s₁
        return ⟨value, s₂, by omega⟩
      | none =>
        match s.take? .minusMinus with
        | some ⟨sign, s₁, h₁⟩ => do
          let ⟨value, s₂, h₂⟩ ← suffix (.suffixed (value.span.join sign.span) .dec value) s₁
          return ⟨value, s₂, by omega⟩
        | none => .ok (.stay value)
termination_by 3 * s.size
decreasing_by all_goals omega

/-- Reads arguments up to the closing parenthesis. -/
def arguments (s : TokenStream) : Except ParseError (Step s (List Expr)) :=
  match s.take? .rparen with
  | some step => .ok (step.map fun _ => [])
  | none => do
    let ⟨arg, s₁, h₁⟩ ← expr s
    match s₁.take? .comma with
    | some ⟨_, s₂, h₂⟩ =>
      let ⟨args, s₃, h₃⟩ ← arguments s₂
      return ⟨arg :: args, s₃, by omega⟩
    | none =>
      let ⟨_, s₂, h₂⟩ ← s₁.closeList
      return ⟨[arg], s₂, by omega⟩
termination_by 3 * s.size + 2
decreasing_by all_goals omega

/-- Reads an expression. -/
def expr (s : TokenStream) : Except ParseError (Step s Expr) := do
  let ⟨first, s₁, h₁⟩ ← operand s
  let ⟨chain, s₂, h₂⟩ ← chainTail first s₁
  return ⟨.mk (first.span.join s₂.last) chain, s₂, by omega⟩
termination_by 3 * s.size + 1
decreasing_by all_goals omega

/-- Reads the operators and operands after the operand `first`. -/
def chainTail (first : Value) (s : TokenStream) : Except ParseError (Pause s Chain) :=
  match operator? s with
  | none => .ok (.stay (.operand first))
  | some ⟨op, s₁, h₁⟩ => do
    let ⟨next, s₂, h₂⟩ ← operand s₁
    let ⟨chain, s₃, h₃⟩ ← chainTail next s₂
    return ⟨.link first op chain, s₃, by omega⟩
termination_by 3 * s.size
decreasing_by all_goals omega

end

/-- Reads the rest of an expression that starts with the operand `first`. -/
def exprFrom (first : Value) (s : TokenStream) : Except ParseError (Pause s Expr) := do
  let ⟨chain, s₁, h₁⟩ ← chainTail first s
  return ⟨.mk (first.span.join s₁.last) chain, s₁, h₁⟩

/-! ## Statements -/

/-- Reads the initial value of a variable whose type and name have been read. -/
def varDecl (ty : TypeExpr) (name : Ident) (s : TokenStream) :
    Except ParseError (Pause s VarDecl) :=
  match s.take? .assign with
  | none => .ok (.stay ⟨ty.span.join s.last, ty, name, none, none⟩)
  | some ⟨_, s₁, h₁⟩ => do
    let ⟨init, s₂, h₂⟩ ← expr s₁
    return ⟨⟨ty.span.join s₂.last, ty, name, some init, none⟩, s₂, by omega⟩

/-- Reads the type and the name of a local variable, if they come next on one line. -/
def localHead? (s : TokenStream) : Option (Step s (TypeExpr × Ident)) :=
  match typeExpr s with
  | .error _ => none
  | .ok ⟨ty, s₁, h₁⟩ =>
    match s₁.take? .ident with
    | none => none
    | some ⟨name, s₂, h₂⟩ =>
      if name.fresh then none else some ⟨(ty, ⟨name.text, name.span⟩), s₂, by omega⟩

/-- Reads a declaration, an assignment or an expression. -/
def simpleStmt (s : TokenStream) : Except ParseError (Step s Stmt) :=
  match localHead? s with
  | some ⟨(ty, name), s₁, h₁⟩ => do
    let ⟨var, s₂, h₂⟩ ← varDecl ty name s₁
    return ⟨.decl var, s₂, by omega⟩
  | none => do
    let ⟨first, s₁, h₁⟩ ← operand s
    match assignOp? s₁.kind, advance? s₁ with
    | some op, some ⟨_, s₂, h₂⟩ =>
      let ⟨value, s₃, h₃⟩ ← expr s₂
      return ⟨.assign (first.span.join value.span) first op value, s₃, by omega⟩
    | _, _ =>
      let ⟨value, s₂, h₂⟩ ← exprFrom first s₁
      return ⟨.expr value, s₂, by omega⟩

/-- Reads the value of a return statement, unless the statement ends. -/
def returnValue (s : TokenStream) : Except ParseError (Pause s (Option Expr)) :=
  if s.kind = .rbrace ∨ s.kind = .semi ∨ s.kind = .eof then .ok (.stay none)
  else (expr s).map fun step => (step.map some).toPause

mutual

/-- Reads a statement and a semicolon after it. -/
def stmt (s : TokenStream) : Except ParseError (Step s Stmt) := do
  let step ← bareStmt s
  let pause := step.rest.skip .semi
  return ⟨step.value, pause.rest, Nat.lt_of_le_of_lt pause.notLonger step.shorter⟩
termination_by 4 * s.size + 2
decreasing_by all_goals omega

/-- Reads a statement. -/
def bareStmt (s : TokenStream) : Except ParseError (Step s Stmt) :=
  match s.take? .kwIf with
  | some ⟨start, s₁, h₁⟩ => do
    let ⟨cond, s₂, h₂⟩ ← expr s₁
    let ⟨(body, bodySpan), s₃, h₃⟩ ← block s₂
    let ⟨branches, s₄, h₄⟩ ← otherBranches s₃
    return ⟨.cond (.mk (start.span.join bodySpan) (.first cond) body :: branches), s₄, by omega⟩
  | none =>
    match s.take? .kwWhile with
    | some ⟨start, s₁, h₁⟩ => do
      let ⟨cond, s₂, h₂⟩ ← expr s₁
      let ⟨(body, bodySpan), s₃, h₃⟩ ← block s₂
      return ⟨.loop (start.span.join bodySpan) cond body, s₃, by omega⟩
    | none =>
      match s.take? .kwReturn with
      | some ⟨start, s₁, h₁⟩ => do
        let ⟨value, s₂, h₂⟩ ← returnValue s₁
        return ⟨.ret (start.span.join s₂.last) value, s₂, by omega⟩
      | none =>
        if s.kind = .lbrace then do
          let ⟨(body, span), s₁, h₁⟩ ← block s
          return ⟨.block span body, s₁, h₁⟩
        else simpleStmt s
termination_by 4 * s.size + 1
decreasing_by all_goals omega

/-- Reads statements in braces, and the span of the braces. -/
def block (s : TokenStream) : Except ParseError (Step s (List Stmt × Span)) := do
  let ⟨start, s₁, h₁⟩ ← s.expect .lbrace
  let ⟨body, s₂, h₂⟩ ← stmts s₁
  return ⟨(body, start.span.join s₂.last), s₂, by omega⟩
termination_by 4 * s.size
decreasing_by all_goals omega

/-- Reads statements up to and with the closing brace. -/
def stmts (s : TokenStream) : Except ParseError (Step s (List Stmt)) :=
  match s.take? .rbrace with
  | some step => .ok (step.map fun _ => [])
  | none =>
    if s.kind = .eof then .error (s.unexpected [.rbrace])
    else do
      let ⟨first, s₁, h₁⟩ ← stmt s
      let ⟨body, s₂, h₂⟩ ← stmts s₁
      return ⟨first :: body, s₂, by omega⟩
termination_by 4 * s.size + 3
decreasing_by all_goals omega

/-- Reads the branches after the first one. -/
def otherBranches (s : TokenStream) : Except ParseError (Pause s (List Branch)) :=
  match s.take? .kwElif with
  | some ⟨start, s₁, h₁⟩ => do
    let ⟨cond, s₂, h₂⟩ ← expr s₁
    let ⟨(body, bodySpan), s₃, h₃⟩ ← block s₂
    let ⟨branches, s₄, h₄⟩ ← otherBranches s₃
    return ⟨.mk (start.span.join bodySpan) (.next cond) body :: branches, s₄, by omega⟩
  | none =>
    match s.take? .kwElse with
    | some ⟨start, s₁, h₁⟩ => do
      let ⟨(body, bodySpan), s₂, h₂⟩ ← block s₁
      return ⟨[.mk (start.span.join bodySpan) .otherwise body], s₂, by omega⟩
    | none => .ok (.stay [])
termination_by 4 * s.size
decreasing_by all_goals omega

end

/-! ## Units -/

/-- Reads further segments of the path of an include. -/
def includeTail (s : TokenStream) : Except ParseError (Pause s (List Ident)) :=
  match s.take? .slash with
  | none => .ok (.stay [])
  | some ⟨_, s₁, h₁⟩ => do
    let ⟨name, s₂, h₂⟩ ← s₁.ident
    let ⟨names, s₃, h₃⟩ ← includeTail s₂
    return ⟨name :: names, s₃, by omega⟩
termination_by s.size
decreasing_by all_goals omega

/-- Reads the default of a parameter. -/
def defaultValue (s : TokenStream) : Except ParseError (Pause s (Option Expr)) :=
  match s.take? .assign with
  | none => .ok (.stay none)
  | some ⟨_, s₁, h₁⟩ => do
    let ⟨value, s₂, h₂⟩ ← expr s₁
    return ⟨some value, s₂, by omega⟩

/-- Reads parameters up to the closing parenthesis; `needsDefault` says that the parameter before
has a default, so that every further one needs one. -/
def paramList (needsDefault : Bool) (s : TokenStream) :
    Except ParseError (Step s (List Param × Rest TypeExpr)) :=
  match s.take? .rparen with
  | some step => .ok (step.map fun _ => ([], .none))
  | none =>
    match s.take? .ellipsis with
    | some ⟨_, s₁, h₁⟩ => do
      let ⟨_, s₂, h₂⟩ ← s₁.closeRest
      return ⟨([], .untyped), s₂, by omega⟩
    | none => do
      let ⟨ty, s₁, h₁⟩ ← typeExpr s
      match s₁.take? .ellipsis with
      | some ⟨_, s₂, h₂⟩ =>
        let ⟨_, s₃, h₃⟩ ← s₂.closeRest
        return ⟨([], .typed ty), s₃, by omega⟩
      | none =>
        let ⟨name, s₂, h₂⟩ ← s₁.ident
        let ⟨default, s₃, h₃⟩ ← defaultValue s₂
        if needsDefault && default.isNone then
          .error ⟨.defaultParameterOrder name.text, name.span, [TokenKind.assign.describe]⟩
        else
          match s₃.take? .comma with
          | some ⟨_, s₄, h₄⟩ =>
            let ⟨(params, rest), s₅, h₅⟩ ← paramList default.isSome s₄
            return ⟨(⟨ty, name, default⟩ :: params, rest), s₅, by omega⟩
          | none =>
            let ⟨_, s₄, h₄⟩ ← s₃.closeList
            return ⟨([⟨ty, name, default⟩], .none), s₄, by omega⟩
termination_by s.size
decreasing_by all_goals omega

/-- Reads the body of a function, if it has one. -/
def functionBody (s : TokenStream) : Except ParseError (Pause s (Option (List Stmt))) :=
  if s.kind = .lbrace then (block s).map fun step => (step.map fun (body, _) => some body).toPause
  else .ok (.stay none)

/-- Reads a part of a unit. -/
def node (s : TokenStream) : Except ParseError (Step s Node) :=
  match s.take? .kwInclude with
  | some ⟨start, s₁, h₁⟩ => do
    let ⟨first, s₂, h₂⟩ ← s₁.ident
    let ⟨more, s₃, h₃⟩ ← includeTail s₂
    let last := (more.getLast?).getD first
    return ⟨.header ⟨start.span.join last.span, first :: more, none⟩, s₃, by omega⟩
  | none =>
    match s.take? .kwAlias with
    | some ⟨start, s₁, h₁⟩ => do
      let ⟨target, s₂, h₂⟩ ← typeExpr s₁
      let ⟨name, s₃, h₃⟩ ← s₂.ident
      return ⟨.alias ⟨start.span.join name.span, target, name⟩, s₃, by omega⟩
    | none => do
      let ⟨ty, s₁, h₁⟩ ← typeExpr s
      let ⟨name, s₂, h₂⟩ ← s₁.ident
      match s₂.take? .lparen with
      | some ⟨_, s₃, h₃⟩ =>
        let ⟨(params, rest), s₄, h₄⟩ ← paramList false s₃
        let ⟨body, s₅, h₅⟩ ← functionBody s₄
        return ⟨.function ⟨ty.span.join s₅.last, ty, name, params, rest, body, none, none⟩, s₅,
          by omega⟩
      | none =>
        let ⟨var, s₃, h₃⟩ ← varDecl ty name s₂
        return ⟨.global var, s₃, by omega⟩

/-- Reads the parts of a unit up to the end, with a semicolon after each where there is one. -/
def nodes (s : TokenStream) : Except ParseError (List Node) :=
  if s.kind = .eof then .ok []
  else do
    let ⟨first, s₁, _⟩ ← node s
    have := (s₁.skip .semi).notLonger
    let more ← nodes (s₁.skip .semi).rest
    return first :: more
termination_by s.size
decreasing_by all_goals omega

end KilnLang.Parser

namespace KilnLang

/-- The error that a text is no unit: it is no list of tokens, or they do not parse. -/
inductive SyntaxError where
  | lex (error : LexError)
  | parse (error : ParseError)
  deriving DecidableEq, Repr, Inhabited

/-- A syntax error for the user. -/
def SyntaxError.diagnostic : SyntaxError → Diagnostic
  | .lex e => e.diagnostic
  | .parse e => e.diagnostic

namespace SourceUnit

/-- The unit that a list of tokens is; `size` is the length of the text in bytes. -/
def ofTokens (file size : Nat) (tokens : List Token) : Except ParseError SourceUnit :=
  let stop : Span := ⟨file, size, size⟩
  (Parser.nodes ⟨stop, tokens, stop⟩).map fun nodes => ⟨file, nodes⟩

/-- The unit that a text is. -/
def parse (file : Nat) (text : String) : Except SyntaxError SourceUnit :=
  match Token.lex file text with
  | .error e => .error (.lex e)
  | .ok tokens => (ofTokens file text.utf8ByteSize tokens).mapError .parse

end SourceUnit

end KilnLang
