import KilnLang.Syntax.Parser

/-!
# What a tree says

The **pieces** of a tree are what has to be written for it, from left to right: symbols and keywords,
names and literals, lengths of arrays, and shifts. Two things may be written or left out. A
semicolon may follow each statement and each part of a unit, and a comma may stand before the
parenthesis that closes a non-empty list. The pieces have a place for each of them.

**Spelling.** A list of tokens *spells* pieces if it consists of them in order (`Spells`). The length
of an array is compared by its value, since one number has many numerals, and a shift is two closing
angle brackets with nothing between them.
-/

namespace KilnLang

/-- The tokens that may be left out. -/
inductive Separator where
  | semi
  | comma
  deriving DecidableEq, Repr

/-- The kind of a separator. -/
def Separator.kind : Separator → TokenKind
  | .semi => .semi
  | .comma => .comma

/-- A part of what is written for a tree. -/
inductive Piece where
  | mark (kind : TokenKind)
  | word (kind : TokenKind) (text : String)
  | length (value : Nat)
  | shift
  | optional (sep : Separator)
  deriving DecidableEq, Repr

/-- The token is the symbol or keyword of the kind. -/
def Token.Is (t : Token) (kind : TokenKind) : Prop := t.kind = kind ∧ kind.spelling? = some t.text

/-- The tokens are the pieces in order, where those that are optional may be left out. -/
inductive Spells : List Piece → List Token → Prop
  | nil : Spells [] []
  | mark {kind : TokenKind} {t : Token} {ps : List Piece} {ts : List Token} (is : t.Is kind)
      (rest : Spells ps ts) : Spells (.mark kind :: ps) (t :: ts)
  | word {t : Token} {ps : List Piece} {ts : List Token} (rest : Spells ps ts) :
      Spells (.word t.kind t.text :: ps) (t :: ts)
  | length {value : Nat} {t : Token} {ps : List Piece} {ts : List Token}
      (kind : t.kind = .intLiteral) (text : IntLiteral.value? t.text = some value)
      (rest : Spells ps ts) : Spells (.length value :: ps) (t :: ts)
  | shift {t u : Token} {ps : List Piece} {ts : List Token} (first : t.Is .greater)
      (second : u.Is .greater) (adjacent : u.span.start = t.span.stop) (rest : Spells ps ts) :
      Spells (.shift :: ps) (t :: u :: ts)
  | skip {sep : Separator} {ps : List Piece} {ts : List Token} (rest : Spells ps ts) :
      Spells (.optional sep :: ps) ts
  | take {sep : Separator} {t : Token} {ps : List Piece} {ts : List Token} (is : t.Is sep.kind)
      (rest : Spells ps ts) : Spells (.optional sep :: ps) (t :: ts)

theorem Spells.append {ps qs : List Piece} {ts us : List Token} (h : Spells ps ts)
    (h' : Spells qs us) : Spells (ps ++ qs) (ts ++ us) := by
  induction h with
  | nil => exact h'
  | mark is _ ih => exact .mark is ih
  | word _ ih => exact .word ih
  | length kind text _ ih => exact .length kind text ih
  | shift first second adjacent _ ih => exact .shift first second adjacent ih
  | skip _ ih => exact .skip ih
  | take is _ ih => exact .take is ih

/-! ## Lists -/

namespace Piece

/-- Items, each after a separator. -/
def tailed (sep : TokenKind) (items : List (List Piece)) : List Piece :=
  items.flatMap (.mark sep :: ·)

/-- Items with separators between them. -/
def joined (sep : TokenKind) : List (List Piece) → List Piece
  | [] => []
  | first :: more => first ++ tailed sep more

/-- The items of a list in parentheses and the closing parenthesis, before which a comma may stand
if there are items. -/
def closing : List (List Piece) → List Piece
  | [] => [.mark .rparen]
  | first :: more => joined .comma (first :: more) ++ [.optional .comma, .mark .rparen]

theorem closing_singleton (item : List Piece) :
    closing [item] = item ++ [.optional .comma, .mark .rparen] := by
  simp [closing, joined, tailed]

theorem closing_cons_cons (item next : List Piece) (more : List (List Piece)) :
    closing (item :: next :: more) = item ++ .mark .comma :: closing (next :: more) := by
  simp [closing, joined, tailed]

end Piece

/-! ## Names and types -/

/-- The piece of a name. -/
def Ident.piece (name : Ident) : Piece := .word .ident name.text

/-- The pieces of a dotted name. -/
def DottedName.pieces (name : DottedName) : List Piece :=
  Piece.joined .dot (name.parts.map ([·.piece]))

mutual

/-- The pieces of a type. -/
def TypeExpr.pieces : TypeExpr → List Piece
  | .named name => name.pieces
  | .ref _ inner => .mark .kwRef :: inner.pieces
  | .array _ elem length =>
    elem.pieces ++ .mark .lbracket :: (length.map .length).toList ++ [.mark .rbracket]
  | .func _ sig => .mark .kwFunc :: .mark .less :: Signature.pieces sig ++ [.mark .greater]

/-- The pieces of a signature. -/
def Signature.pieces : Signature TypeExpr → List Piece
  | ⟨ret, params, rest⟩ =>
    ret.pieces ++ .mark .lparen :: Piece.closing (TypeExpr.items params ++ Rest.items rest)

/-- The pieces of each type of a list. -/
def TypeExpr.items : List TypeExpr → List (List Piece)
  | [] => []
  | ty :: more => ty.pieces :: TypeExpr.items more

/-- The pieces of what may follow parameters. -/
def Rest.items : Rest TypeExpr → List (List Piece)
  | .none => []
  | .untyped => [[.mark .ellipsis]]
  | .typed elem => [elem.pieces ++ [.mark .ellipsis]]

end

/-! ## Operators -/

/-- The kind of a unary operator. -/
def UnaryOp.kind : UnaryOp → TokenKind
  | .not => .bang
  | .neg => .minus
  | .bitNot => .tilde
  | .inc => .plusPlus
  | .dec => .minusMinus

/-- The piece of a binary operator. -/
def BinaryOp.piece : BinaryOp → Piece
  | .add => .mark .plus
  | .sub => .mark .minus
  | .mul => .mark .star
  | .div => .mark .slash
  | .rem => .mark .percent
  | .eq => .mark .eqEq
  | .ne => .mark .notEq
  | .lt => .mark .less
  | .le => .mark .lessEq
  | .gt => .mark .greater
  | .ge => .mark .greaterEq
  | .and => .mark .andAnd
  | .or => .mark .orOr
  | .bitAnd => .mark .amp
  | .bitOr => .mark .pipe
  | .bitXor => .mark .caret
  | .shl => .mark .shl
  | .shr => .shift

/-- The kind of an assignment. -/
def AssignOp.kind : Option AssignOp → TokenKind
  | none => .assign
  | some .add => .plusAssign
  | some .sub => .minusAssign
  | some .mul => .starAssign
  | some .div => .slashAssign
  | some .rem => .percentAssign

/-! ## Expressions -/

mutual

/-- The pieces of an expression. -/
def Expr.pieces : Expr → List Piece
  | .mk _ chain => chain.pieces

/-- The pieces of operands and operators. -/
def Chain.pieces : Chain → List Piece
  | .operand value => value.pieces
  | .link value op rest => value.pieces ++ op.op.piece :: rest.pieces

/-- The pieces of an operand. -/
def Value.pieces : Value → List Piece
  | .number lit => [.word .intLiteral lit.text]
  | .decimal lit => [.word .floatLiteral lit.text]
  | .string lit => [.word .stringLiteral ("\"" ++ lit.text ++ "\"")]
  | .char lit => [.word .charLiteral ("'" ++ lit.text ++ "'")]
  | .bool _ value => [.mark (if value then .kwTrue else .kwFalse)]
  | .null _ => [.mark .kwNull]
  | .ident name => name.pieces
  | .call _ callee args _ _ => callee.pieces ++ .mark .lparen :: Piece.closing (Expr.items args)
  | .index _ base position => base.pieces ++ .mark .lbracket :: position.pieces ++ [.mark .rbracket]
  | .ref _ inner => .mark .kwRef :: inner.pieces
  | .prefixed _ op value => .mark op.kind :: value.pieces
  | .suffixed _ op value => value.pieces ++ [.mark op.kind]
  | .paren inner => .mark .lparen :: inner.pieces ++ [.mark .rparen]

/-- The pieces of each expression of a list. -/
def Expr.items : List Expr → List (List Piece)
  | [] => []
  | e :: more => e.pieces :: Expr.items more

end

/-- The pieces of an initial value or a default. -/
def Expr.initialPieces : Option Expr → List Piece
  | none => []
  | some value => .mark .assign :: value.pieces

/-! ## Statements -/

/-- The pieces of a variable. -/
def VarDecl.pieces (var : VarDecl) : List Piece :=
  var.ty.pieces ++ var.name.piece :: Expr.initialPieces var.init

/-- The pieces of a guard. -/
def Guard.pieces : Guard → List Piece
  | .first cond => .mark .kwIf :: cond.pieces
  | .next cond => .mark .kwElif :: cond.pieces
  | .otherwise => [.mark .kwElse]

/-- The pieces of a block with the given pieces inside. -/
def Piece.braced (inside : List Piece) : List Piece := .mark .lbrace :: inside ++ [.mark .rbrace]

mutual

/-- The pieces of a statement without the semicolon after it. -/
def Stmt.pieces : Stmt → List Piece
  | .expr value => value.pieces
  | .decl var => var.pieces
  | .assign _ target op value => target.pieces ++ .mark (AssignOp.kind op) :: value.pieces
  | .ret _ value => .mark .kwReturn :: (value.map (·.pieces)).getD []
  | .cond branches => Branch.piecesEach branches
  | .loop _ cond body => .mark .kwWhile :: cond.pieces ++ Piece.braced (Stmt.piecesEach body)
  | .block _ body => Piece.braced (Stmt.piecesEach body)

/-- The pieces of statements, after each of which a semicolon may stand. -/
def Stmt.piecesEach : List Stmt → List Piece
  | [] => []
  | s :: more => s.pieces ++ .optional .semi :: Stmt.piecesEach more

/-- The pieces of a branch. -/
def Branch.pieces : Branch → List Piece
  | .mk _ guard body => guard.pieces ++ Piece.braced (Stmt.piecesEach body)

/-- The pieces of branches. -/
def Branch.piecesEach : List Branch → List Piece
  | [] => []
  | b :: more => b.pieces ++ Branch.piecesEach more

end

/-! ## Units -/

/-- The pieces of a parameter. -/
def Param.pieces (p : Param) : List Piece :=
  p.ty.pieces ++ p.name.piece :: Expr.initialPieces p.default

/-- The pieces of a part of a unit without the semicolon after it. -/
def Node.pieces : Node → List Piece
  | .header item => .mark .kwInclude :: Piece.joined .slash (item.path.map ([·.piece]))
  | .alias item => .mark .kwAlias :: item.target.pieces ++ [item.name.piece]
  | .function item =>
    item.ret.pieces ++ item.name.piece :: .mark .lparen ::
      Piece.closing (item.params.map (·.pieces) ++ Rest.items item.rest) ++
      (item.body.map fun body => Piece.braced (Stmt.piecesEach body)).getD []
  | .global var => var.pieces

/-- The pieces of parts of a unit, after each of which a semicolon may stand. -/
def Node.piecesEach (nodes : List Node) : List Piece :=
  nodes.flatMap fun n => n.pieces ++ [.optional .semi]

/-- The pieces of a unit. -/
def SourceUnit.pieces (u : SourceUnit) : List Piece := Node.piecesEach u.nodes

end KilnLang
