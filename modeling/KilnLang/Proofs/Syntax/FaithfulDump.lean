import KilnLang.Proofs.Syntax.Drawing
import KilnLang.Proofs.Syntax.DumpReading
import KilnLang.Proofs.Syntax.Printing

/-!
# Dumps are faithful

**Theorem (`dump_is_faithful`).** Two lists of trees whose labels have no line break have the same
drawing only if they are the same. Two texts whose units have the same dump are the same unit, up to
spans and the number of the file.

The drawing gives the trees of the dump, if no label has a line break, and the trees give the parts
of the unit (`Dump.readNode_ofNode`). What a label shows besides fixed words is a number or the text
of a name or a literal, which is the text of a token, or within its quotes. No token has a line
break inside: strings and characters end before one (`Lexer.oneLine_of_lexeme`).
-/

namespace KilnLang

/-! ## Tokens -/

namespace Lexer

theorem not_mem_takeWhile {p : Char → Bool} (hp : p '\n' = false) (cs : List Char) :
    '\n' ∉ cs.takeWhile p := by
  intro h
  have hbreak := List.mem_takeWhile_imp h
  rw [hp] at hbreak
  cases hbreak

theorem oneLine_of_escape {cs text rest : List Char} (h : escape cs = .ok (text, rest)) :
    '\n' ∉ text := by
  cases cs with
  | nil => cases h
  | cons c cs =>
    simp only [escape] at h
    split_ifs at h with hx hdigits hsimple
    · cases h
      rw [eq_of_beq hx, List.mem_cons, not_or]
      exact ⟨by decide, not_mem_takeWhile (by decide) _⟩
    · cases h
      rw [List.mem_singleton]
      rintro rfl
      exact absurd hsimple (by decide)

theorem oneLine_of_stringTail {start pos : Nat} {cs text rest : List Char}
    (h : stringTail start pos cs = .ok (text, rest)) : '\n' ∉ text := by
  fun_induction stringTail start pos cs generalizing text rest with
  | case1 => cases h
  | case2 pos c cs hc =>
    cases h
    rw [eq_of_beq hc]
    decide
  | case3 => cases h
  | case4 => cases h
  | case5 pos c cs _ hbreak _ t r he _ ih =>
    obtain ⟨⟨tail, rest⟩, htail, heq⟩ := exists_of_map_eq_ok h
    cases heq
    have hc : '\n' ≠ c := fun heq => hbreak (by simp [← heq])
    simp [hc, oneLine_of_escape he, ih htail]
  | case6 pos c cs _ hbreak _ ih =>
    obtain ⟨⟨tail, rest⟩, htail, heq⟩ := exists_of_map_eq_ok h
    cases heq
    have hc : '\n' ≠ c := fun heq => hbreak (by simp [← heq])
    simp [hc, ih htail]

theorem oneLine_of_charTail {start pos : Nat} {cs text rest : List Char}
    (h : charTail start pos cs = .ok (text, rest)) : '\n' ∉ text := by
  cases cs with
  | nil => cases h
  | cons c cs =>
    rw [charTail] at h
    split_ifs at h with hbreak hescape
    · split at h
      · cases h
      · rename_i t r he
        obtain ⟨⟨tail, rest⟩, htail, heq⟩ := exists_of_map_eq_ok h
        cases heq
        rw [(eq_of_closeQuote htail).1, eq_of_beq hescape]
        simp [oneLine_of_escape he]
    · obtain ⟨⟨tail, rest⟩, htail, heq⟩ := exists_of_map_eq_ok h
      cases heq
      have hc : '\n' ≠ c := fun heq => hbreak (by simp [← heq])
      rw [(eq_of_closeQuote htail).1]
      simp [hc]

theorem oneLine_of_digits (cs : List Char) : '\n' ∉ (digits cs).2.1 := by
  have hhex : ∀ ds : List Char, '\n' ∉ ds.takeWhile isHexDigit := not_mem_takeWhile (by decide)
  have hdigit : ∀ ds : List Char, '\n' ∉ ds.takeWhile Char.isDigit := not_mem_takeWhile (by decide)
  fun_cases digits cs with
  | case1 ds => simp [hhex]
  | case2 ds => simp [hhex]
  | case3 cs _ _ whole d ds _ hd =>
    have hd' : '\n' ≠ d := by
      rintro rfl
      exact absurd hd (by decide)
    simp [whole, hdigit, hd']
  | case4 => exact hdigit _
  | case5 => exact hdigit _

theorem kind_of_digits_ne_ident (cs : List Char) : (digits cs).1 ≠ .ident := by
  fun_cases digits cs <;> rintro ⟨⟩

theorem symbols_oneLine : ∀ k ∈ TokenKind.symbols, ∀ s ∈ k.spelling?, '\n' ∉ s.toList := by
  decide +kernel

/-- No lexeme has a line break, and that of a name consists of the characters of names. -/
theorem oneLine_of_lexeme {pos : Nat} {c : Char} {cs text rest : List Char} {kind : TokenKind}
    (h : lexeme pos c cs = .ok (kind, text, rest)) :
    '\n' ∉ text ∧ (kind = .ident → ∀ d ∈ text, isNameChar d) := by
  unfold lexeme at h
  split_ifs at h with hstring hchar hdigit hname
  · obtain ⟨⟨tail, rest⟩, htail, heq⟩ := exists_of_map_eq_ok h
    cases heq
    rw [eq_of_beq hstring, List.mem_cons, not_or]
    exact ⟨⟨by decide, oneLine_of_stringTail htail⟩, by rintro ⟨⟩⟩
  · obtain ⟨⟨tail, rest⟩, htail, heq⟩ := exists_of_map_eq_ok h
    cases heq
    rw [eq_of_beq hchar, List.mem_cons, not_or]
    exact ⟨⟨by decide, oneLine_of_charTail htail⟩, by rintro ⟨⟩⟩
  · simp only [number] at h
    split_ifs at h
    cases h
    exact ⟨oneLine_of_digits _, fun hkind => absurd hkind (kind_of_digits_ne_ident _)⟩
  · cases h
    have hword : ∀ d ∈ c :: cs.takeWhile isNameChar, isNameChar d := by
      refine List.forall_mem_cons.mpr ⟨by rw [isNameChar, hname, Bool.true_or], ?_⟩
      exact fun _ => List.mem_takeWhile_imp
    exact ⟨fun hbreak => absurd (hword _ hbreak) (by decide), fun _ => hword⟩
  · split at h
    · rename_i found hfound
      cases h
      obtain ⟨k, hk, hfound⟩ := List.exists_of_findSome?_eq_some hfound
      obtain ⟨s, hs, hfound⟩ := Option.bind_eq_some_iff.mp hfound
      split_ifs at hfound
      cases hfound
      refine ⟨symbols_oneLine _ hk s hs, ?_⟩
      rintro rfl
      exact absurd hk (by decide)
    · cases h

/-- A legible text is on one line. -/
theorem Legible.oneLine {kind : TokenKind} {text : List Char} (h : Legible kind text) :
    '\n' ∉ text := by
  obtain ⟨c, cs, rfl, hread⟩ := h
  have hlexeme := (hread [] .nil).2 0
  exact (oneLine_of_lexeme hlexeme).1

/-- A legible name is not empty and has no slash. -/
theorem Legible.name {text : List Char} (h : Legible .ident text) : text ≠ [] ∧ '/' ∉ text := by
  obtain ⟨c, cs, rfl, hread⟩ := h
  have hlexeme := (hread [] .nil).2 0
  refine ⟨List.cons_ne_nil c cs, fun hslash => ?_⟩
  exact absurd ((oneLine_of_lexeme hlexeme).2 rfl _ hslash) (by decide)

end Lexer

/-! ## Labels -/

namespace Dump

open KilnLang.Tree

/-- The pieces are legible. -/
def Readable (ps : List Piece) : Prop := ∀ p ∈ ps, p.Legible

@[simp] theorem readable_nil : Readable [] := List.forall_mem_nil _

@[simp] theorem readable_cons {p : Piece} {ps : List Piece} :
    Readable (p :: ps) ↔ p.Legible ∧ Readable ps := List.forall_mem_cons

@[simp] theorem readable_append {ps qs : List Piece} :
    Readable (ps ++ qs) ↔ Readable ps ∧ Readable qs := List.forall_mem_append

theorem readable_joined {sep : TokenKind} {items : List (List Piece)}
    (h : Readable (Piece.joined sep items)) : ∀ item ∈ items, Readable item := by
  cases items with
  | nil => exact List.forall_mem_nil _
  | cons first more =>
    obtain ⟨hfirst, hmore⟩ := readable_append.mp h
    refine List.forall_mem_cons.mpr ⟨hfirst, fun item hitem p hp => ?_⟩
    exact hmore p (List.mem_flatMap.mpr ⟨item, hitem, List.mem_cons_of_mem _ hp⟩)

theorem legible_of_joined {sep : TokenKind} {names : List Ident}
    (h : Readable (Piece.joined sep (names.map fun name => [name.piece]))) :
    ∀ name ∈ names, name.piece.Legible := by
  intro name hname
  exact readable_joined h _ (List.mem_map_of_mem hname) _ List.mem_cons_self

theorem readable_closing {items : List (List Piece)} (h : Readable (Piece.closing items)) :
    ∀ item ∈ items, Readable item := by
  cases items with
  | nil => exact List.forall_mem_nil _
  | cons first more => exact readable_joined (readable_append.mp h).1

theorem oneLine_identifier {name : Ident} (h : name.piece.Legible) :
    (identifier name.text).OneLine := by
  have hname : '\n' ∉ name.text.toList := Lexer.Legible.oneLine h
  simp [identifier, Tree.leaf, hname]

theorem clean_identifiers {names : List Ident} (h : ∀ name ∈ names, name.piece.Legible) :
    Clean (names.map (identifier ·.text)) := by
  induction names with
  | nil => exact clean_nil
  | cons name names ih =>
    rw [List.forall_mem_cons] at h
    exact clean_cons.mpr ⟨oneLine_identifier h.1, ih h.2⟩

theorem oneLine_dotted {name : DottedName} (h : Readable name.pieces) :
    (dotted { name with resolved := none }).OneLine := by
  have hnames := legible_of_joined h
  simp [dotted, clean_identifiers hnames]

/-! ### Types -/

theorem clean_argumentsOf {trees : List DumpTree} (h : Clean trees) :
    Clean (argumentsOf trees) := by
  cases trees with
  | nil => exact clean_nil
  | cons t ts => simpa [argumentsOf] using h

mutual

/-- The labels of a type whose slots are emptied. -/
theorem oneLine_ofType : ∀ {t : TypeExpr}, Readable t.pieces → (ofType t.bare).OneLine
  | .named name, h => oneLine_dotted h
  | .ref span inner, h => by
    have hinner := oneLine_ofType (readable_cons.mp h).2
    simp [TypeExpr.bare, ofType, hinner]
  | .array span elem length, h => by
    simp only [TypeExpr.pieces, readable_append] at h
    have helem := oneLine_ofType h.1.1
    cases length with
    | none => simp [TypeExpr.bare, ofType, helem]
    | some n =>
      have hnumber : '\n' ∉ (toString n).toList := (Lexer.legible_decimal n).oneLine
      simp only [TypeExpr.bare, ofType, Option.map_some, Option.toList_some, Tree.leaf,
        oneLine_node, clean_cons, clean_nil, String.toList_append, List.mem_append, hnumber]
      exact ⟨by decide, helem, by decide, trivial⟩
  | .func span ⟨ret, params, rest⟩, h => by
    simp only [TypeExpr.pieces, Signature.pieces, readable_cons, readable_append] at h
    obtain ⟨⟨-, -, hret, -, hlist⟩, -⟩ := h
    have hitems := List.forall_mem_append.mp (readable_closing hlist)
    have hparams := clean_argumentsOf (clean_ofTypes hitems.1)
    simp [TypeExpr.bare, TypeExpr.bareSignature, ofType, ofSignature, oneLine_ofType hret, hparams,
      clean_ofRest hitems.2]

theorem clean_ofTypes : ∀ {ts : List TypeExpr}, (∀ item ∈ TypeExpr.items ts, Readable item) →
    Clean (ofTypes (TypeExpr.bareEach ts))
  | [], _ => clean_nil
  | t :: ts, h => by
    obtain ⟨ht, hts⟩ := List.forall_mem_cons.mp h
    exact clean_cons.mpr ⟨oneLine_ofType ht, clean_ofTypes hts⟩

theorem clean_ofRest : ∀ {rest : Rest TypeExpr}, (∀ item ∈ Rest.items rest, Readable item) →
    Clean (ofRest (TypeExpr.bareRest rest))
  | .none, _ => clean_nil
  | .untyped, _ => by simp [TypeExpr.bareRest, ofRest, untypedRest, Tree.leaf]
  | .typed elem, h => by
    have helem := oneLine_ofType (readable_append.mp (h _ List.mem_cons_self)).1
    simp [TypeExpr.bareRest, ofRest, helem]

end

/-! ### Expressions -/

theorem oneLine_operator {symbol : String} (h : '\n' ∉ symbol.toList) :
    (operatorLine symbol).OneLine := by
  simp [operatorLine, Tree.leaf, h]

theorem oneLine_binary (op : BinaryOp) : (operatorLine op.symbol).OneLine := by
  cases op <;> exact oneLine_operator (by decide)

theorem oneLine_unary (op : UnaryOp) : (operatorLine op.symbol).OneLine := by
  cases op <;> exact oneLine_operator (by decide)

theorem oneLine_assign (op : AssignOp) : (operatorLine op.symbol).OneLine := by
  cases op <;> exact oneLine_operator (by decide)

theorem oneLine_literal {label text : String} (hlabel : '\n' ∉ label.toList)
    (h : '\n' ∉ text.toList) : (Tree.leaf (label ++ text)).OneLine := by
  simp [Tree.leaf, hlabel, h]

mutual

/-- The labels of an expression whose slots are emptied. -/
theorem oneLine_ofExpr : ∀ {e : Expr}, Readable e.pieces → (ofExpr (e.refill .emptied)).OneLine
  | .mk span chain, h => by
    simp [Expr.refill, ofExpr, clean_ofChain h]

theorem clean_ofChain : ∀ {c : Chain}, Readable c.pieces → Clean (ofChain (c.refill .emptied))
  | .operand value, h => by
    simp [Chain.refill, ofChain, oneLine_ofValue h]
  | .link value op rest, h => by
    simp only [Chain.pieces, readable_append, readable_cons] at h
    obtain ⟨hvalue, -, hrest⟩ := h
    simp [Chain.refill, ofChain, oneLine_ofValue hvalue, oneLine_binary, clean_ofChain hrest]

theorem oneLine_ofValue : ∀ {v : Value}, Readable v.pieces → (ofValue (v.refill .emptied)).OneLine
  | .number lit, h => oneLine_literal (by decide) (readable_cons.mp h).1.oneLine
  | .decimal lit, h => oneLine_literal (by decide) (readable_cons.mp h).1.oneLine
  | .string lit, h => by
    have htext := (readable_cons.mp h).1.oneLine
    simp only [String.toList_append, List.mem_append, not_or] at htext
    exact oneLine_literal (by decide) htext.1.2
  | .char lit, h => by
    have htext := (readable_cons.mp h).1.oneLine
    simp only [String.toList_append, List.mem_append, not_or] at htext
    exact oneLine_literal (by decide) htext.1.2
  | .bool span b, _ => by
    cases b <;> exact oneLine_literal (by decide) (by decide)
  | .null span, _ => by simp [Value.refill, ofValue, Tree.leaf]
  | .ident name, h => oneLine_dotted h
  | .call span callee args target defaulted, h => by
    simp only [Value.pieces, readable_append, readable_cons] at h
    have hcallee : (dotted (callee.refill .emptied)).OneLine := oneLine_dotted h.1
    have hargs := clean_ofExprs (readable_closing h.2.2)
    rw [show ofValue ((Value.call span callee args target defaulted).refill .emptied) =
      .node "FunctionCall" [dotted (callee.refill .emptied),
        .node "Arguments" (ofExprs (Value.refillEach .emptied args))] from rfl]
    simp [hcallee, hargs]
  | .index span base position, h => by
    simp only [Value.pieces, readable_append, readable_cons] at h
    simp [Value.refill, ofValue, oneLine_ofValue h.1.1, oneLine_ofExpr h.1.2.2]
  | .ref span inner, h => by
    simp [Value.refill, ofValue, oneLine_ofValue (readable_cons.mp h).2]
  | .prefixed span op inner, h => by
    simp [Value.refill, ofValue, oneLine_unary, oneLine_ofValue (readable_cons.mp h).2]
  | .suffixed span op inner, h => by
    simp [Value.refill, ofValue, oneLine_unary, oneLine_ofValue (readable_append.mp h).1]
  | .paren inner, h => by
    simp only [Value.pieces, readable_append, readable_cons] at h
    exact oneLine_ofExpr h.1.2

theorem clean_ofExprs : ∀ {es : List Expr}, (∀ item ∈ Expr.items es, Readable item) →
    Clean (ofExprs (Value.refillEach .emptied es))
  | [], _ => clean_nil
  | e :: es, h => by
    obtain ⟨he, hes⟩ := List.forall_mem_cons.mp h
    exact clean_cons.mpr ⟨oneLine_ofExpr he, clean_ofExprs hes⟩

end

/-! ### Statements -/

theorem oneLine_ofVariable {ty : TypeExpr} {name : Ident} {init : Option Expr}
    (h : Readable (ty.pieces ++ name.piece :: Expr.initialPieces init)) :
    (ofVariable ty.bare name (init.map (·.refill .emptied))).OneLine := by
  simp only [readable_append, readable_cons] at h
  obtain ⟨hty, hname, hinit⟩ := h
  have hname := oneLine_identifier hname
  cases init with
  | none => simp [ofVariable, oneLine_ofType hty, hname]
  | some e =>
    simp [ofVariable, oneLine_ofType hty, hname, oneLine_ofExpr (readable_cons.mp hinit).2]

theorem readable_braced {ps : List Piece} (h : Readable (Piece.braced ps)) : Readable ps :=
  (readable_append.mp (readable_cons.mp h).2).1

theorem clean_guard {guard : Guard} (h : Readable guard.pieces) :
    Clean (((guard.refill .emptied).cond?.map ofExpr).toList) := by
  cases guard with
  | first cond => simp [Guard.refill, Guard.cond?, oneLine_ofExpr (readable_cons.mp h).2]
  | next cond => simp [Guard.refill, Guard.cond?, oneLine_ofExpr (readable_cons.mp h).2]
  | otherwise => simp [Guard.refill, Guard.cond?]

mutual

/-- The labels of a statement whose slots are emptied. -/
theorem oneLine_ofStmt : ∀ {s : Stmt}, Readable s.pieces → (ofStmt (s.refill .emptied)).OneLine
  | .expr value, h => by
    simp [Stmt.refill, ofStmt, oneLine_ofExpr h]
  | .decl var, h => oneLine_ofVariable h
  | .assign span target op value, h => by
    simp only [Stmt.pieces, readable_append, readable_cons] at h
    obtain ⟨htarget, -, hvalue⟩ := h
    have hop : Clean (op.map fun o => operatorLine o.symbol).toList := by
      cases op with
      | none => exact clean_nil
      | some op => exact clean_cons.mpr ⟨oneLine_assign op, clean_nil⟩
    simp [Stmt.refill, ofStmt, hop, oneLine_ofValue htarget, oneLine_ofExpr hvalue]
  | .ret span none, _ => by simp [Stmt.refill, ofStmt]
  | .ret span (some e), h => by
    simp [Stmt.refill, ofStmt, oneLine_ofExpr (readable_cons.mp h).2]
  | .cond branches, h => by
    simp [Stmt.refill, ofStmt, clean_ofBranches h]
  | .loop span cond body, h => by
    simp only [Stmt.pieces, readable_append, readable_cons] at h
    simp [Stmt.refill, ofStmt, oneLine_ofExpr h.1.2, clean_ofStmts (readable_braced h.2)]
  | .block span body, h => by
    simp [Stmt.refill, ofStmt, clean_ofStmts (readable_braced h)]

theorem clean_ofStmts : ∀ {ss : List Stmt}, Readable (Stmt.piecesEach ss) →
    Clean (ofStmts (Stmt.refillEach .emptied ss))
  | [], _ => clean_nil
  | s :: ss, h => by
    simp only [Stmt.piecesEach, readable_append, readable_cons] at h
    exact clean_cons.mpr ⟨oneLine_ofStmt h.1, clean_ofStmts h.2.2⟩

theorem oneLine_ofBranch : ∀ {b : Branch}, Readable b.pieces →
    (ofBranch (b.refill .emptied)).OneLine
  | .mk span guard body, h => by
    simp only [Branch.pieces, readable_append] at h
    have hlabel : '\n' ∉ ("ControlStructure: " ++ (guard.refill .emptied).keyword).toList := by
      cases guard <;> simp [Guard.refill, Guard.keyword]
    refine oneLine_node.mpr ⟨hlabel, clean_append.mpr ⟨clean_guard h.1, ?_⟩⟩
    simp [clean_ofStmts (readable_braced h.2)]

theorem clean_ofBranches : ∀ {bs : List Branch}, Readable (Branch.piecesEach bs) →
    Clean (ofBranches (Branch.refillEach .emptied bs))
  | [], _ => clean_nil
  | b :: bs, h => by
    simp only [Branch.piecesEach, readable_append] at h
    exact clean_cons.mpr ⟨oneLine_ofBranch h.1, clean_ofBranches h.2⟩

end

/-! ### Units -/

theorem not_mem_intercalate {names : List String} (h : ∀ name ∈ names, '\n' ∉ name.toList) :
    '\n' ∉ ("/".intercalate names).toList := by
  induction names with
  | nil => simp
  | cons first more ih =>
    rw [List.forall_mem_cons] at h
    cases more with
    | nil => simpa using h.1
    | cons next more =>
      rw [String.intercalate_cons_cons, String.toList_append, String.toList_append,
        List.mem_append, List.mem_append, not_or, not_or]
      exact ⟨⟨h.1, by decide⟩, ih h.2⟩

theorem clean_params {params : List Param} (h : ∀ item ∈ params.map (·.pieces), Readable item) :
    Clean ((params.map (·.refill .emptied)).map fun p => ofVariable p.ty p.name p.default) := by
  induction params with
  | nil => exact clean_nil
  | cons p params ih =>
    obtain ⟨hp, hparams⟩ := List.forall_mem_cons.mp h
    exact clean_cons.mpr ⟨oneLine_ofVariable hp, ih hparams⟩

theorem oneLine_ofFunction {item : Function} (h : Readable (Node.function item).pieces) :
    (ofNode (.function (item.refill .emptied))).OneLine := by
  obtain ⟨span, ret, name, params, rest, body, decl, sig⟩ := item
  simp only [Node.pieces, readable_append, readable_cons] at h
  obtain ⟨⟨hret, hname, -, hlist⟩, hbody⟩ := h
  have hitems := List.forall_mem_append.mp (readable_closing hlist)
  have hparams := clean_argumentsOf (clean_params hitems.1)
  have hrest : Clean (ofRest (rest.refill .emptied)) := by
    cases rest with
    | typed elem => exact clean_ofRest hitems.2
    | none => exact clean_nil
    | untyped => simp [Rest.refill, ofRest, untypedRest, Tree.leaf]
  have htype : (ofType (Slots.emptied.type ret)).OneLine := oneLine_ofType hret
  cases body with
  | none =>
    simp only [Function.refill, ofNode, Option.map_none, Option.toList_none]
    simp [-List.map_map, Tree.leaf, oneLine_identifier hname, htype, hparams, hrest]
  | some body =>
    have hstmts := clean_ofStmts (readable_braced hbody)
    simp only [Function.refill, ofNode, Option.map_some, Option.toList_some]
    simp [-List.map_map, oneLine_identifier hname, htype, hparams, hrest, hstmts]

/-- The labels of a plain part. -/
theorem oneLine_ofNode : ∀ {n : Node}, n.Plain → Readable n.pieces → (ofNode n).OneLine
  | .header item, hplain, h => by
    have hsymbols : none = item.symbols := congrArg Include.symbols (Node.header.inj hplain.2)
    have hpath : '\n' ∉ item.pathText.toList := by
      refine not_mem_intercalate fun name hname => ?_
      obtain ⟨ident, hident, rfl⟩ := List.mem_map.mp hname
      exact (legible_of_joined (readable_cons.mp h).2 ident hident).oneLine
    simp [ofNode, Tree.leaf, hpath, ← hsymbols]
  | .alias item, hplain, h => by
    rw [← hplain.1]
    simp only [Node.pieces, readable_append, readable_cons] at h
    have hname := oneLine_identifier h.2.1
    simp [Node.refill, Slots.emptied, ofNode, oneLine_ofType h.1.2, hname]
  | .function item, hplain, h => by
    rw [← hplain.1]
    exact oneLine_ofFunction h
  | .global item, hplain, h => by
    rw [← hplain.1]
    exact oneLine_ofVariable h

end Dump

/-! ## Units -/

namespace SourceUnit

variable {file file' : Nat} {text text' : String} {unit unit' : SourceUnit}

/-- The pieces of a parsed unit are legible. -/
theorem readable_of_parse (h : SourceUnit.parse file text = .ok unit) :
    ∀ n ∈ unit.nodes, Dump.Readable n.pieces := by
  obtain ⟨tokens, nodes, hlex, hnodes, rfl⟩ := SourceUnit.parse_eq_ok.mp h
  have hlegible := (Parser.spells_of_nodes hlex hnodes).legible fun t ht =>
    Lexer.lexed_of_mem_lex hlex ht
  intro n hn p hp
  exact hlegible p (List.mem_flatMap.mpr ⟨n, hn, List.mem_append_left _ hp⟩)

theorem clean_of_parse (h : SourceUnit.parse file text = .ok unit) :
    Tree.Clean (unit.nodes.map Dump.ofNode) := by
  have hplain := plain_of_parse h
  have hreadable := readable_of_parse h
  generalize unit.nodes = nodes at hplain hreadable
  induction nodes with
  | nil => exact Tree.clean_nil
  | cons n nodes ih =>
    rw [List.forall_mem_cons] at hplain hreadable
    exact Tree.clean_cons.mpr ⟨Dump.oneLine_ofNode hplain.1 hreadable.1, ih hplain.2 hreadable.2⟩

theorem named_of_parse (h : SourceUnit.parse file text = .ok unit) :
    ∀ n ∈ unit.nodes, Dump.Named n := by
  intro n hn
  cases n with
  | header item =>
    intro name hname
    have hpath := Dump.legible_of_joined (Dump.readable_cons.mp (readable_of_parse h _ hn)).2
    obtain ⟨hnonempty, hslash⟩ := Lexer.Legible.name (hpath name hname)
    exact ⟨fun hempty => hnonempty (by rw [hempty]; rfl), hslash⟩
  | _ => trivial

/-- The parts of a parsed unit are what is read back from the trees of its dump. -/
theorem readNode_of_parse (h : SourceUnit.parse file text = .ok unit) :
    (unit.nodes.map Dump.ofNode).map Dump.readNode = unit.nodes.map (·.unspanned) := by
  rw [List.map_map]
  refine List.map_congr_left fun n hn => ?_
  exact Dump.readNode_ofNode (plain_of_parse h n hn) (named_of_parse h n hn)

end SourceUnit

/-- **Dumps are faithful.** Different lists of trees whose labels have no line break have different
drawings. Texts that are units have the same dump only if the parts of the units are the same up to
their spans. -/
theorem dump_is_faithful :
    (∀ ts us : List (Tree String), Tree.Clean ts → Tree.Clean us →
      Tree.render ts = Tree.render us → ts = us) ∧
    ∀ (file file' : Nat) (text text' : String) (unit unit' : SourceUnit),
      SourceUnit.parse file text = .ok unit → SourceUnit.parse file' text' = .ok unit' →
      unit.dump = unit'.dump → unit.nodes.map (·.unspanned) = unit'.nodes.map (·.unspanned) := by
  refine ⟨fun ts us => Tree.render_inj, ?_⟩
  intro file file' text text' unit unit' h h' hdump
  have htrees := Tree.render_inj (SourceUnit.clean_of_parse h) (SourceUnit.clean_of_parse h') hdump
  rw [← SourceUnit.readNode_of_parse h, ← SourceUnit.readNode_of_parse h', htrees]

/-- Labels that look like guides do not hide what is below what; a unit that is written in two ways
has one dump. -/
theorem respaced_dump_is_faithful :
    Tree.render [.leaf "a", .leaf "└─ b"] ≠ Tree.render [.node "a" [.leaf "b"]] ∧
    ∃ unit unit', SourceUnit.parse 0 "include a/b alias int t t f(t x = (1), ...)" = .ok unit ∧
      SourceUnit.parse 1 "include a / b; alias int t; t f(t x = (1), ...,);" = .ok unit' ∧
      unit.dump = unit'.dump ∧ unit.nodes.map (·.unspanned) = unit'.nodes.map (·.unspanned) := by
  constructor
  · intro h
    have htrees := dump_is_faithful.1 _ _ (by simp [Tree.leaf]) (by simp [Tree.leaf]) h
    simp [Tree.leaf] at htrees
  · have hok : ((SourceUnit.parse 0 "include a/b alias int t t f(t x = (1), ...)").toOption.any
        fun unit => (SourceUnit.parse 1
          "include a / b; alias int t; t f(t x = (1), ...,);").toOption.any
            fun unit' => unit.dump == unit'.dump) = true := by
      rw [SourceUnit.parse_ofList, SourceUnit.parse_ofList]
      decide +kernel
    obtain ⟨unit, hparse, hok⟩ := SourceUnit.exists_parsed hok
    obtain ⟨unit', hparse', hdump⟩ := SourceUnit.exists_parsed hok
    exact ⟨unit, unit', hparse, hparse', eq_of_beq hdump,
      dump_is_faithful.2 0 1 _ _ unit unit' hparse hparse' (eq_of_beq hdump)⟩

end KilnLang
