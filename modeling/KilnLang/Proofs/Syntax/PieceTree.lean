import KilnLang.Proofs.Syntax.Places
import KilnLang.Proofs.Syntax.Reading

/-!
# Where the parts of a tree are written

A tree is written as a tree of pieces: each part that has a span, above the pieces and the parts in
it (`SourceUnit.pieceTree`). It is *placed* in a list of tokens if they can be cut into consecutive
segments, one for each piece and each part, such that a piece is spelled by its segment, and a part
is placed in its segment and covers it (`Placed`). A part covers tokens if its span goes from where
the first one starts to where the last one stops (`Covers`).

**Parentheses.** An operand in parentheses has no span of its own: it is the expression inside that
has the span of the parentheses. So both are written with them.

**Theorem (`PlacedEach.nested`).** If the tokens are in order, the parts that are placed in them are
nested: parts lie inside the part above them, and parts side by side are apart and in order.
-/

namespace KilnLang

/-! ## Trees of pieces -/

/-- A piece, or a part with a span and what is written for it. -/
inductive PieceTree where
  | piece (piece : Piece)
  | part (span : Span) (inside : List PieceTree)

namespace PieceTree

/-- A symbol or a keyword. -/
def mark (kind : TokenKind) : PieceTree := .piece (.mark kind)

/-- A token that may be left out. -/
def separator (sep : Separator) : PieceTree := .piece (.optional sep)

/-- Items, each after a separator. -/
def tailed (sep : TokenKind) (items : List (List PieceTree)) : List PieceTree :=
  items.flatMap (mark sep :: ·)

/-- Items with separators between them. -/
def joined (sep : TokenKind) : List (List PieceTree) → List PieceTree
  | [] => []
  | first :: more => first ++ tailed sep more

/-- The items of a list in parentheses and the closing parenthesis, before which a comma may stand
if there are items. -/
def closing : List (List PieceTree) → List PieceTree
  | [] => [mark .rparen]
  | first :: more => joined .comma (first :: more) ++ [separator .comma, mark .rparen]

theorem closing_singleton (item : List PieceTree) :
    closing [item] = item ++ [separator .comma, mark .rparen] := by
  simp [closing, joined, tailed]

theorem closing_cons_cons (item next : List PieceTree) (more : List (List PieceTree)) :
    closing (item :: next :: more) = item ++ mark .comma :: closing (next :: more) := by
  simp [closing, joined, tailed]

/-- A block with what is written inside. -/
def braced (inside : List PieceTree) : List PieceTree := mark .lbrace :: inside ++ [mark .rbrace]

end PieceTree

open PieceTree (mark separator)

/-- A name. -/
def Ident.pieceTree (name : Ident) : PieceTree := .part name.span [.piece name.piece]

/-- A dotted name. -/
def DottedName.pieceTree (name : DottedName) : PieceTree :=
  .part name.span (PieceTree.joined .dot (name.parts.map ([·.pieceTree])))

mutual

/-- A type. -/
def TypeExpr.pieceTree : TypeExpr → PieceTree
  | .named name => name.pieceTree
  | .ref span inner => .part span [mark .kwRef, inner.pieceTree]
  | .array span elem length =>
    .part span (elem.pieceTree :: mark .lbracket ::
      (length.map fun n => PieceTree.piece (.length n)).toList ++ [mark .rbracket])
  | .func span sig =>
    .part span (mark .kwFunc :: mark .less :: Signature.pieceTree sig ++ [mark .greater])

/-- A signature. -/
def Signature.pieceTree : Signature TypeExpr → List PieceTree
  | ⟨ret, params, rest⟩ =>
    ret.pieceTree :: mark .lparen ::
      PieceTree.closing (TypeExpr.pieceItems params ++ Rest.pieceItems rest)

/-- The types of a list. -/
def TypeExpr.pieceItems : List TypeExpr → List (List PieceTree)
  | [] => []
  | ty :: more => [ty.pieceTree] :: TypeExpr.pieceItems more

/-- What may follow parameters. -/
def Rest.pieceItems : Rest TypeExpr → List (List PieceTree)
  | .none => []
  | .untyped => [[mark .ellipsis]]
  | .typed elem => [[elem.pieceTree, mark .ellipsis]]

end

/-- A binary operator. -/
def Operator.pieceTree (op : Operator) : PieceTree := .part op.span [.piece op.op.piece]

/-- A literal of the given kind. -/
def Literal.pieceTree (lit : Literal) (kind : TokenKind) (text : String) : PieceTree :=
  .part lit.span [.piece (.word kind text)]

mutual

/-- An expression. -/
def Expr.pieceTree : Expr → PieceTree
  | .mk span chain => .part span chain.pieceTree

/-- Operands and operators. -/
def Chain.pieceTree : Chain → List PieceTree
  | .operand value => [value.pieceTree]
  | .link value op rest => value.pieceTree :: op.pieceTree :: rest.pieceTree

/-- An operand. -/
def Value.pieceTree : Value → PieceTree
  | .number lit => lit.pieceTree .intLiteral lit.text
  | .decimal lit => lit.pieceTree .floatLiteral lit.text
  | .string lit => lit.pieceTree .stringLiteral ("\"" ++ lit.text ++ "\"")
  | .char lit => lit.pieceTree .charLiteral ("'" ++ lit.text ++ "'")
  | .bool span value => .part span [mark (if value then .kwTrue else .kwFalse)]
  | .null span => .part span [mark .kwNull]
  | .ident name => name.pieceTree
  | .call span callee args _ _ =>
    .part span (callee.pieceTree :: mark .lparen :: PieceTree.closing (Expr.pieceItems args))
  | .index span base position =>
    .part span [base.pieceTree, mark .lbracket, position.pieceTree, mark .rbracket]
  | .ref span inner => .part span [mark .kwRef, inner.pieceTree]
  | .prefixed span op value => .part span [mark op.kind, value.pieceTree]
  | .suffixed span op value => .part span [value.pieceTree, mark op.kind]
  | .paren (.mk span chain) =>
    .part span [.part span (mark .lparen :: chain.pieceTree ++ [mark .rparen])]

/-- The expressions of a list. -/
def Expr.pieceItems : List Expr → List (List PieceTree)
  | [] => []
  | e :: more => [e.pieceTree] :: Expr.pieceItems more

end

/-- An initial value or a default. -/
def Expr.pieceInitial : Option Expr → List PieceTree
  | none => []
  | some value => [mark .assign, value.pieceTree]

/-- A variable. -/
def VarDecl.pieceTree (var : VarDecl) : PieceTree :=
  .part var.span (var.ty.pieceTree :: var.name.pieceTree :: Expr.pieceInitial var.init)

/-- A guard. -/
def Guard.pieceTree : Guard → List PieceTree
  | .first cond => [mark .kwIf, cond.pieceTree]
  | .next cond => [mark .kwElif, cond.pieceTree]
  | .otherwise => [mark .kwElse]

mutual

/-- A statement without the semicolon after it; a condition is written as its branches. -/
def Stmt.pieceTree : Stmt → List PieceTree
  | .expr value => [value.pieceTree]
  | .decl var => [var.pieceTree]
  | .assign span target op value =>
    [.part span [target.pieceTree, mark (AssignOp.kind op), value.pieceTree]]
  | .ret span value => [.part span (mark .kwReturn :: (value.map (·.pieceTree)).toList)]
  | .cond branches => Branch.pieceTrees branches
  | .loop span cond body =>
    [.part span (mark .kwWhile :: cond.pieceTree :: PieceTree.braced (Stmt.pieceTrees body))]
  | .block span body => [.part span (PieceTree.braced (Stmt.pieceTrees body))]

/-- Statements, after each of which a semicolon may stand. -/
def Stmt.pieceTrees : List Stmt → List PieceTree
  | [] => []
  | s :: more => s.pieceTree ++ separator .semi :: Stmt.pieceTrees more

/-- A branch. -/
def Branch.pieceTree : Branch → PieceTree
  | .mk span guard body => .part span (guard.pieceTree ++ PieceTree.braced (Stmt.pieceTrees body))

/-- The branches of a list. -/
def Branch.pieceTrees : List Branch → List PieceTree
  | [] => []
  | b :: more => b.pieceTree :: Branch.pieceTrees more

end

/-- A parameter. -/
def Param.pieceTree (p : Param) : List PieceTree :=
  p.ty.pieceTree :: p.name.pieceTree :: Expr.pieceInitial p.default

/-- A part of a unit without the semicolon after it. -/
def Node.pieceTree : Node → PieceTree
  | .header item =>
    .part item.span
      (mark .kwInclude :: PieceTree.joined .slash (item.path.map ([·.pieceTree])))
  | .alias item => .part item.span [mark .kwAlias, item.target.pieceTree, item.name.pieceTree]
  | .function item =>
    .part item.span (item.ret.pieceTree :: item.name.pieceTree :: mark .lparen ::
      PieceTree.closing (item.params.map (·.pieceTree) ++ Rest.pieceItems item.rest) ++
      (item.body.map fun body => PieceTree.braced (Stmt.pieceTrees body)).getD [])
  | .global var => var.pieceTree

/-- Parts of a unit, after each of which a semicolon may stand. -/
def Node.pieceTrees (nodes : List Node) : List PieceTree :=
  nodes.flatMap fun n => [n.pieceTree, separator .semi]

/-- A unit. -/
def SourceUnit.pieceTree (u : SourceUnit) : List PieceTree := Node.pieceTrees u.nodes

/-! ## Places -/

/-- The span goes from where the first of the tokens starts to where the last one stops. -/
def Covers (span : Span) (ts : List Token) : Prop :=
  ∃ first last, ts.head? = some first ∧ ts.getLast? = some last ∧
    span = ⟨first.span.file, first.span.start, last.span.stop⟩

mutual

/-- The tokens are those of what is written, and each part in it covers its own ones. -/
inductive Placed : PieceTree → List Token → Prop
  | piece {p : Piece} {ts : List Token} (spells : Spells [p] ts) : Placed (.piece p) ts
  | part {span : Span} {inside : List PieceTree} {ts : List Token} (covers : Covers span ts)
    (each : PlacedEach inside ts) : Placed (.part span inside) ts

/-- The tokens are consecutive segments, one for each item. -/
inductive PlacedEach : List PieceTree → List Token → Prop
  | nil : PlacedEach [] []
  | cons {w : PieceTree} {ws : List PieceTree} {ts us : List Token} (first : Placed w ts)
    (more : PlacedEach ws us) : PlacedEach (w :: ws) (ts ++ us)

end

theorem Placed.singleton {w : PieceTree} {ts : List Token} (h : Placed w ts) :
    PlacedEach [w] ts := by
  have heach := PlacedEach.cons h .nil
  rwa [List.append_nil] at heach

theorem PlacedEach.append {ws vs : List PieceTree} {ts us : List Token} (h : PlacedEach ws ts)
    (h' : PlacedEach vs us) : PlacedEach (ws ++ vs) (ts ++ us) := by
  induction ws generalizing ts with
  | nil =>
    cases h
    exact h'
  | cons w ws ih =>
    cases h with
    | cons first more =>
      rw [List.append_assoc]
      exact .cons first (ih more)

/-! ## Tokens in order -/

/-- The tokens have texts that fit their kinds, and spans that are not empty and follow each other
in one file. -/
structure Orderly (ts : List Token) : Prop where
  proper : ∀ t ∈ ts, t.Proper
  nonempty : ∀ t ∈ ts, t.span.start < t.span.stop
  apart : ts.Pairwise fun t u => t.span.file = u.span.file ∧ t.span.stop ≤ u.span.start

namespace Orderly

variable {ts us : List Token} {a b : Span}

theorem sublist (h : Orderly us) (hts : ts.Sublist us) : Orderly ts :=
  ⟨fun t ht => h.proper t (hts.subset ht), fun t ht => h.nonempty t (hts.subset ht),
    h.apart.sublist hts⟩

theorem left (h : Orderly (ts ++ us)) : Orderly ts := h.sublist (List.sublist_append_left ts us)

theorem right (h : Orderly (ts ++ us)) : Orderly us := h.sublist (List.sublist_append_right ts us)

/-- The first token starts where all of them start, and the last one stops where they stop. -/
theorem bounds (h : Orderly ts) {first last t : Token} (hfirst : ts.head? = some first)
    (hlast : ts.getLast? = some last) (ht : t ∈ ts) :
    first.span.file = t.span.file ∧ first.span.start ≤ t.span.start ∧
      t.span.stop ≤ last.span.stop := by
  have hstart : first.span.file = t.span.file ∧ first.span.start ≤ t.span.start := by
    obtain ⟨more, rfl⟩ := List.head?_eq_some_iff.mp hfirst
    rcases List.mem_cons.mp ht with rfl | ht
    · exact ⟨rfl, Nat.le_refl _⟩
    · obtain ⟨hfile, hle⟩ := List.rel_of_pairwise_cons h.apart ht
      exact ⟨hfile, ((h.nonempty first List.mem_cons_self).trans_le hle).le⟩
  have hstop : t.span.stop ≤ last.span.stop := by
    obtain ⟨init, rfl⟩ := List.getLast?_eq_some_iff.mp hlast
    rcases List.mem_append.mp ht with hinit | hlast
    · have hlt := h.nonempty last (List.mem_append_right _ List.mem_cons_self)
      have hle := (List.pairwise_append.mp h.apart).2.2 t hinit last List.mem_cons_self
      exact (hle.2.trans_lt hlt).le
    · rw [List.mem_singleton.mp hlast]
  exact ⟨hstart.1, hstart.2, hstop⟩

end Orderly

namespace Covers

variable {ts us seg : List Token} {a b : Span}

theorem singleton (t : Token) : Covers t.span [t] := ⟨t, t, rfl, rfl, rfl⟩

/-- If two spans cover a start and an end of the tokens, their join covers all of them. -/
theorem join (h : Orderly seg) (ha : Covers a ts) (hts : ts <+: seg) (hb : Covers b us)
    (hus : us <:+ seg) : Covers (a.join b) seg := by
  obtain ⟨first, last, hfirst, hlast, rfl⟩ := ha
  obtain ⟨first', last', hfirst', hlast', rfl⟩ := hb
  have hhead : seg.head? = some first := by
    obtain ⟨rest, rfl⟩ := hts
    rw [List.head?_append, hfirst]
    rfl
  have hend : seg.getLast? = some last' := by
    obtain ⟨front, rfl⟩ := hus
    rw [List.getLast?_append, hlast']
    rfl
  have hstop := (h.bounds hhead hend (hts.subset (List.mem_of_getLast? hlast))).2.2
  have hstart := (h.bounds hhead hend (hus.subset (List.mem_of_head? hfirst'))).2.1
  refine ⟨first, last', hhead, hend, ?_⟩
  simp only [Span.join, Nat.min_eq_left hstart, Nat.max_eq_right hstop]

end Covers

/-! ## Parts in order -/

/-- The span lies inside the other one. -/
def Span.Within (a b : Span) : Prop := a.file = b.file ∧ b.start ≤ a.start ∧ a.stop ≤ b.stop

/-- The span stops before the other one starts. -/
def Span.Before (a b : Span) : Prop := a.file = b.file ∧ a.stop ≤ b.start

namespace PieceTree

/-- The spans of the parts that stand side by side. -/
def spans : List PieceTree → List Span
  | [] => []
  | .piece _ :: ws => spans ws
  | .part span _ :: ws => span :: spans ws

mutual

/-- The parts in a part lie inside it, one before the other, and so on down the tree. -/
def Nested : PieceTree → Prop
  | .piece _ => True
  | .part span inside =>
    (∀ a ∈ spans inside, a.Within span) ∧ (spans inside).Pairwise Span.Before ∧ NestedEach inside

/-- What is in each of the parts is nested. -/
def NestedEach : List PieceTree → Prop
  | [] => True
  | w :: ws => w.Nested ∧ NestedEach ws

end

end PieceTree

/-- Side by side the parts cover segments of the tokens that are apart. -/
theorem PlacedEach.spans_covered {ws : List PieceTree} {ts : List Token} (h : PlacedEach ws ts)
    {a : Span} (ha : a ∈ PieceTree.spans ws) : ∃ us, us.Sublist ts ∧ Covers a us := by
  induction ws generalizing ts with
  | nil => exact nomatch ha
  | cons w ws ih =>
    cases h with
    | @cons _ _ us vs first more =>
      cases first with
      | piece =>
        obtain ⟨seg, hseg, hcovers⟩ := ih more ha
        exact ⟨seg, hseg.trans (List.sublist_append_right us vs), hcovers⟩
      | part covers each =>
        rcases List.mem_cons.mp ha with rfl | ha
        · exact ⟨us, List.sublist_append_left us vs, covers⟩
        · obtain ⟨seg, hseg, hcovers⟩ := ih more ha
          exact ⟨seg, hseg.trans (List.sublist_append_right us vs), hcovers⟩

/-- Spans of segments that follow each other are one before the other. -/
theorem Covers.before {ts us seg : List Token} {a b : Span} (h : Orderly (ts ++ us))
    (ha : Covers a ts) (hb : Covers b seg) (hseg : seg.Sublist us) : a.Before b := by
  obtain ⟨first, last, hfirst, hlast, rfl⟩ := ha
  obtain ⟨first', last', hfirst', hlast', rfl⟩ := hb
  have hapart := (List.pairwise_append.mp h.apart).2.2
  have hmem := hseg.subset (List.mem_of_head? hfirst')
  refine ⟨(hapart first (List.mem_of_head? hfirst) first' hmem).1, ?_⟩
  exact (hapart last (List.mem_of_getLast? hlast) first' hmem).2

theorem Covers.within {ts seg : List Token} {a b : Span} (h : Orderly ts) (ha : Covers a seg)
    (hseg : seg.Sublist ts) (hb : Covers b ts) : a.Within b := by
  obtain ⟨first, last, hfirst, hlast, rfl⟩ := ha
  obtain ⟨first', last', hfirst', hlast', rfl⟩ := hb
  obtain ⟨hfile, hstart, -⟩ :=
    h.bounds hfirst' hlast' (hseg.subset (List.mem_of_head? hfirst))
  have hstop := (h.bounds hfirst' hlast' (hseg.subset (List.mem_of_getLast? hlast))).2.2
  exact ⟨hfile.symm, hstart, hstop⟩

theorem PlacedEach.pairwise {ws : List PieceTree} {ts : List Token} (h : PlacedEach ws ts)
    (hts : Orderly ts) : (PieceTree.spans ws).Pairwise Span.Before := by
  induction ws generalizing ts with
  | nil => exact .nil
  | cons w ws ih =>
    cases h with
    | @cons _ _ us vs first more =>
      cases first with
      | piece => exact ih more hts.right
      | part covers each =>
        refine .cons (fun b hb => ?_) (ih more hts.right)
        obtain ⟨seg, hseg, hcovers⟩ := more.spans_covered hb
        exact covers.before hts hcovers hseg

mutual

/-- What is placed in tokens that are in order is nested. -/
theorem Placed.nested : {w : PieceTree} → {ts : List Token} → Placed w ts → Orderly ts → w.Nested
  | _, _, .piece _, _ => trivial
  | _, _, .part covers each, h => by
    refine ⟨fun a ha => ?_, each.pairwise h, each.nested h⟩
    obtain ⟨seg, hseg, hcovers⟩ := each.spans_covered ha
    exact hcovers.within h hseg covers

theorem PlacedEach.nested : {ws : List PieceTree} → {ts : List Token} → PlacedEach ws ts →
    Orderly ts → PieceTree.NestedEach ws
  | _, _, .nil, _ => trivial
  | _, _, .cons first more, h => ⟨first.nested h.left, more.nested h.right⟩

end


/-! ## All spans -/

section Spans

variable {P : Span → Prop}

namespace PieceTree

mutual

/-- All spans of what is written are in `P`. -/
def AllSpans (P : Span → Prop) : PieceTree → Prop
  | .piece _ => True
  | .part span inside => P span ∧ AllSpansEach P inside

/-- All spans of the items are in `P`. -/
def AllSpansEach (P : Span → Prop) : List PieceTree → Prop
  | [] => True
  | w :: ws => w.AllSpans P ∧ AllSpansEach P ws

end

variable {ws vs : List PieceTree} {items : List (List PieceTree)} {sep : TokenKind}

@[simp] theorem allSpansEach_append :
    AllSpansEach P (ws ++ vs) ↔ AllSpansEach P ws ∧ AllSpansEach P vs := by
  induction ws with
  | nil => simp [AllSpansEach]
  | cons w ws ih => simp [AllSpansEach, ih, and_assoc]

@[simp] theorem allSpansEach_tailed :
    AllSpansEach P (tailed sep items) ↔ ∀ item ∈ items, AllSpansEach P item := by
  induction items with
  | nil => simp [tailed, AllSpansEach]
  | cons item items ih =>
    have htailed : tailed sep (item :: items) = mark sep :: (item ++ tailed sep items) := rfl
    simp [htailed, mark, AllSpansEach, AllSpans, ih]

@[simp] theorem allSpansEach_joined :
    AllSpansEach P (joined sep items) ↔ ∀ item ∈ items, AllSpansEach P item := by
  cases items <;> simp [joined, AllSpansEach]

@[simp] theorem allSpansEach_closing :
    AllSpansEach P (closing items) ↔ ∀ item ∈ items, AllSpansEach P item := by
  cases items <;> simp [closing, separator, mark, AllSpansEach, AllSpans]

@[simp] theorem allSpansEach_braced : AllSpansEach P (braced ws) ↔ AllSpansEach P ws := by
  simp [braced, mark, AllSpansEach, AllSpans]

end PieceTree

open PieceTree (AllSpansEach)

theorem DottedName.allSpans_of_pieceTree {name : DottedName} (h : name.pieceTree.AllSpans P) :
    name.AllSpans P := by
  simpa [DottedName.pieceTree, DottedName.AllSpans, PieceTree.AllSpans, AllSpansEach,
    Ident.pieceTree] using h

mutual

theorem TypeExpr.allSpans_of_pieceTree :
    {ty : TypeExpr} → ty.pieceTree.AllSpans P → ty.AllSpans P
  | .named _, h => DottedName.allSpans_of_pieceTree h
  | .ref _ _, h => ⟨h.1, TypeExpr.allSpans_of_pieceTree h.2.2.1⟩
  | .array _ _ _, h => ⟨h.1, TypeExpr.allSpans_of_pieceTree h.2.1⟩
  | .func _ _, h => by
    simp only [TypeExpr.pieceTree, PieceTree.AllSpans, AllSpansEach, PieceTree.allSpansEach_append,
      List.cons_append] at h
    exact ⟨h.1, Signature.allSpans_of_pieceTree h.2.2.2.1⟩

theorem Signature.allSpans_of_pieceTree : {sig : Signature TypeExpr} →
    AllSpansEach P (Signature.pieceTree sig) → Signature.AllSpans P sig
  | ⟨_, _, _⟩, h => by
    simp only [Signature.pieceTree, AllSpansEach, PieceTree.allSpansEach_closing,
      List.forall_mem_append] at h
    exact ⟨TypeExpr.allSpans_of_pieceTree h.1, TypeExpr.allSpansEach_of_pieceTree h.2.2.1,
      Rest.allSpans_of_pieceTree h.2.2.2⟩

theorem TypeExpr.allSpansEach_of_pieceTree : {types : List TypeExpr} →
    (∀ item ∈ TypeExpr.pieceItems types, AllSpansEach P item) → TypeExpr.AllSpansEach P types
  | [], _ => trivial
  | _ :: _, h => by
    rw [TypeExpr.pieceItems, List.forall_mem_cons] at h
    exact ⟨TypeExpr.allSpans_of_pieceTree h.1.1, TypeExpr.allSpansEach_of_pieceTree h.2⟩

theorem Rest.allSpans_of_pieceTree : {rest : Rest TypeExpr} →
    (∀ item ∈ Rest.pieceItems rest, AllSpansEach P item) → Rest.AllSpans P rest
  | .none, _ => trivial
  | .untyped, _ => trivial
  | .typed _, h => TypeExpr.allSpans_of_pieceTree (h _ List.mem_cons_self).1

end

mutual

theorem Expr.allSpans_of_pieceTree : {e : Expr} → e.pieceTree.AllSpans P → e.AllSpans P
  | .mk _ _, h => ⟨h.1, Chain.allSpans_of_pieceTree h.2⟩

theorem Chain.allSpans_of_pieceTree :
    {chain : Chain} → AllSpansEach P chain.pieceTree → chain.AllSpans P
  | .operand _, h => Value.allSpans_of_pieceTree h.1
  | .link _ _ _, h =>
    ⟨Value.allSpans_of_pieceTree h.1, h.2.1.1, Chain.allSpans_of_pieceTree h.2.2⟩

theorem Value.allSpans_of_pieceTree :
    {value : Value} → value.pieceTree.AllSpans P → value.AllSpans P
  | .number _, h | .decimal _, h | .string _, h | .char _, h | .bool _ _, h | .null _, h => h.1
  | .ident _, h => DottedName.allSpans_of_pieceTree h
  | .call _ _ _ _ _, h => by
    simp only [Value.pieceTree, PieceTree.AllSpans, AllSpansEach,
      PieceTree.allSpansEach_closing] at h
    exact ⟨h.1, DottedName.allSpans_of_pieceTree h.2.1, Value.allSpansEach_of_pieceTree h.2.2.2⟩
  | .index _ _ _, h =>
    ⟨h.1, Value.allSpans_of_pieceTree h.2.1, Expr.allSpans_of_pieceTree h.2.2.2.1⟩
  | .ref _ _, h | .prefixed _ _ _, h => ⟨h.1, Value.allSpans_of_pieceTree h.2.2.1⟩
  | .suffixed _ _ _, h => ⟨h.1, Value.allSpans_of_pieceTree h.2.1⟩
  | .paren (.mk _ _), h => by
    simp only [Value.pieceTree, PieceTree.AllSpans, AllSpansEach, PieceTree.allSpansEach_append,
      List.cons_append] at h
    exact ⟨h.1, Chain.allSpans_of_pieceTree h.2.1.2.2.1⟩

theorem Value.allSpansEach_of_pieceTree : {es : List Expr} →
    (∀ item ∈ Expr.pieceItems es, AllSpansEach P item) → Value.AllSpansEach P es
  | [], _ => trivial
  | _ :: _, h => by
    rw [Expr.pieceItems, List.forall_mem_cons] at h
    exact ⟨Expr.allSpans_of_pieceTree h.1.1, Value.allSpansEach_of_pieceTree h.2⟩

end

theorem Expr.allSpans_of_pieceInitial {init : Option Expr}
    (h : AllSpansEach P (Expr.pieceInitial init)) : ∀ e ∈ init, e.AllSpans P := by
  rintro e ⟨⟩
  exact Expr.allSpans_of_pieceTree h.2.1

theorem VarDecl.allSpans_of_pieceTree {var : VarDecl} (h : var.pieceTree.AllSpans P) :
    var.AllSpans P :=
  ⟨h.1, TypeExpr.allSpans_of_pieceTree h.2.1, h.2.2.1.1,
    Expr.allSpans_of_pieceInitial h.2.2.2⟩

theorem Guard.allSpans_of_pieceTree {guard : Guard} (h : AllSpansEach P guard.pieceTree) :
    guard.AllSpans P := by
  cases guard with
  | first cond | next cond =>
    rintro e ⟨⟩
    exact Expr.allSpans_of_pieceTree h.2.1
  | otherwise => exact nofun

mutual

theorem Stmt.allSpans_of_pieceTree : {s : Stmt} → AllSpansEach P s.pieceTree → s.AllSpans P
  | .expr _, h => Expr.allSpans_of_pieceTree h.1
  | .decl _, h => VarDecl.allSpans_of_pieceTree h.1
  | .assign _ _ _ _, h =>
    ⟨h.1.1, Value.allSpans_of_pieceTree h.1.2.1, Expr.allSpans_of_pieceTree h.1.2.2.2.1⟩
  | .ret _ none, h => ⟨h.1.1, nofun⟩
  | .ret _ (some _), h => by
    refine ⟨h.1.1, ?_⟩
    rintro e ⟨⟩
    exact Expr.allSpans_of_pieceTree h.1.2.2.1
  | .cond _, h => Branch.allSpansEach_of_pieceTree h
  | .loop _ _ _, h => by
    simp only [Stmt.pieceTree, PieceTree.AllSpans, AllSpansEach, PieceTree.allSpansEach_braced] at h
    exact ⟨h.1.1, Expr.allSpans_of_pieceTree h.1.2.2.1, Stmt.allSpansEach_of_pieceTree h.1.2.2.2⟩
  | .block _ _, h => by
    simp only [Stmt.pieceTree, PieceTree.AllSpans, AllSpansEach, PieceTree.allSpansEach_braced] at h
    exact ⟨h.1.1, Stmt.allSpansEach_of_pieceTree h.1.2⟩

theorem Stmt.allSpansEach_of_pieceTree : {body : List Stmt} →
    AllSpansEach P (Stmt.pieceTrees body) → Stmt.AllSpansEach P body
  | [], _ => trivial
  | _ :: _, h => by
    simp only [Stmt.pieceTrees, PieceTree.allSpansEach_append, AllSpansEach] at h
    exact ⟨Stmt.allSpans_of_pieceTree h.1, Stmt.allSpansEach_of_pieceTree h.2.2⟩

theorem Branch.allSpans_of_pieceTree : {b : Branch} → b.pieceTree.AllSpans P → b.AllSpans P
  | .mk _ _ _, h => by
    simp only [Branch.pieceTree, PieceTree.AllSpans, PieceTree.allSpansEach_append,
      PieceTree.allSpansEach_braced] at h
    exact ⟨h.1, Guard.allSpans_of_pieceTree h.2.1, Stmt.allSpansEach_of_pieceTree h.2.2⟩

theorem Branch.allSpansEach_of_pieceTree : {branches : List Branch} →
    AllSpansEach P (Branch.pieceTrees branches) → Branch.AllSpansEach P branches
  | [], _ => trivial
  | _ :: _, h => ⟨Branch.allSpans_of_pieceTree h.1, Branch.allSpansEach_of_pieceTree h.2⟩

end

theorem Param.allSpans_of_pieceTree {p : Param} (h : AllSpansEach P p.pieceTree) : p.AllSpans P :=
  ⟨TypeExpr.allSpans_of_pieceTree h.1, h.2.1.1, Expr.allSpans_of_pieceInitial h.2.2⟩

theorem Node.allSpans_of_pieceTree {n : Node} (h : n.pieceTree.AllSpans P) : n.AllSpans P := by
  cases n with
  | header item =>
    simpa [Node.pieceTree, Node.AllSpans, PieceTree.AllSpans, AllSpansEach, mark, Ident.pieceTree]
      using h
  | «alias» item => exact ⟨h.1, TypeExpr.allSpans_of_pieceTree h.2.2.1, h.2.2.2.1.1⟩
  | function item =>
    obtain ⟨span, ret, name, params, rest, body, _, _⟩ := item
    simp only [Node.pieceTree, PieceTree.AllSpans, AllSpansEach, PieceTree.allSpansEach_append,
      PieceTree.allSpansEach_closing, List.forall_mem_append, List.forall_mem_map] at h
    obtain ⟨hspan, ⟨hret, hname, -, hparams, hrest⟩, hbody⟩ := h
    refine ⟨hspan, TypeExpr.allSpans_of_pieceTree hret, hname.1,
      fun p hp => Param.allSpans_of_pieceTree (hparams p hp),
      Rest.allSpans_of_pieceTree hrest, ?_⟩
    rintro body ⟨⟩
    exact Stmt.allSpansEach_of_pieceTree (PieceTree.allSpansEach_braced.mp hbody)
  | global var => exact VarDecl.allSpans_of_pieceTree h

/-- Every span of a unit is that of a part. -/
theorem SourceUnit.allSpans_of_pieceTree {u : SourceUnit} (h : AllSpansEach P u.pieceTree) :
    u.AllSpans P := by
  intro n hn
  obtain ⟨file, nodes⟩ := u
  change AllSpansEach P (Node.pieceTrees nodes) at h
  induction nodes with
  | nil => exact nomatch hn
  | cons m nodes ih =>
    obtain ⟨hm, -, hmore⟩ := h
    rcases List.mem_cons.mp hn with rfl | hn
    · exact Node.allSpans_of_pieceTree hm
    · exact ih hn hmore

mutual

/-- The parts of what is placed in tokens cover consecutive tokens each. -/
theorem Placed.allSpans : {w : PieceTree} → {ts : List Token} → Placed w ts →
    (∀ a us, us <:+: ts → Covers a us → P a) → w.AllSpans P
  | _, _, .piece _, _ => trivial
  | _, _, .part covers each, h => ⟨h _ _ List.infix_rfl covers, each.allSpans h⟩

theorem PlacedEach.allSpans : {ws : List PieceTree} → {ts : List Token} → PlacedEach ws ts →
    (∀ a us, us <:+: ts → Covers a us → P a) → AllSpansEach P ws
  | _, _, .nil, _ => trivial
  | _, _, .cons first more, h =>
    ⟨first.allSpans fun a us hus => h a us (hus.trans (List.prefix_append _ _).isInfix),
      more.allSpans fun a us hus => h a us (hus.trans (List.suffix_append _ _).isInfix)⟩

end

end Spans

end KilnLang
