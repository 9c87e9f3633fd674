import KilnLang.Proofs.Syntax.Plain
import KilnLang.Proofs.Syntax.Unspanned
import KilnLang.Proofs.Text.Cutting
import KilnLang.Syntax.Dump
import KilnLang.Text.Blank

/-!
# Dumps can be read back

The dump of a tree that was just parsed shows all that the tree says. `Dump.readNode` reads a part
of a unit back from its dump.

**Theorem (`Dump.readNode_ofNode`).** What is read back from the dump of a plain part is the part
without its spans.

No two constructs share a dump: most are told apart by their label, literals by what stands before
the colon, a call from a cast by the label too, and what may be left out by the number of children
or by the label of what follows. Parentheses show as an expression among the operands, where nothing
else does.
-/

namespace KilnLang.Dump

/-! ## Labels -/

/-- What a label says before its colon. -/
def head (label : String) : String := String.ofList (label.toList.takeWhile (· != ':'))

/-- What a label says after its colon and a space. -/
def tail (label : String) : String := String.ofList ((label.toList.dropWhile (· != ':')).drop 2)

section

variable (kind : String) {label : String} (text : String)

theorem toList_append (h : label.toList = kind.toList ++ [':', ' ']) :
    (label ++ text).toList = kind.toList ++ ':' :: ' ' :: text.toList := by
  rw [String.toList_append, h, List.append_assoc]
  rfl

theorem head_append (h : label.toList = kind.toList ++ [':', ' ']) (hkind : ':' ∉ kind.toList) :
    head (label ++ text) = kind := by
  rw [head, toList_append kind text h, List.takeWhile_append_of_pos]
  · simp
  · intro c hc
    exact bne_iff_ne.mpr fun heq => hkind (heq ▸ hc)

theorem tail_append (h : label.toList = kind.toList ++ [':', ' ']) (hkind : ':' ∉ kind.toList) :
    tail (label ++ text) = text := by
  rw [tail, toList_append kind text h, List.dropWhile_append_of_pos]
  · simp
  · intro c hc
    exact bne_iff_ne.mpr fun heq => hkind (heq ▸ hc)

@[simp] theorem tail_identifier : tail ("Identifier: " ++ text) = text :=
  tail_append "Identifier" text (by decide) (by decide)

@[simp] theorem tail_length : tail ("Length: " ++ text) = text :=
  tail_append "Length" text (by decide) (by decide)

@[simp] theorem tail_operator : tail ("Operator: " ++ text) = text :=
  tail_append "Operator" text (by decide) (by decide)

@[simp] theorem tail_path : tail ("Path: " ++ text) = text :=
  tail_append "Path" text (by decide) (by decide)

theorem identifier_ne_declaration : "Identifier: " ++ text ≠ "Declaration" := by
  intro h
  have hhead : head ("Identifier: " ++ text) = "Identifier" :=
    head_append "Identifier" text (by decide) (by decide)
  rw [h] at hhead
  exact absurd hhead (by decide +kernel)

end

/-! ## Names and types -/

/-- The name that a line shows. -/
def readIdent : DumpTree → Ident
  | .node label _ => ⟨tail label, default⟩

/-- A dotted name. -/
def readDotted : DumpTree → DottedName
  | .node _ parts => ⟨default, parts.map readIdent, none⟩

/-- A number. -/
def readLength : DumpTree → Nat
  | .node label _ => Nat.ofDigitChars 10 (tail label).toList 0

mutual

/-- A type expression. -/
def readType : DumpTree → TypeExpr
  | .node label children =>
    if label = "Reference" then
      match children with
      | inner :: _ => .ref default (readType inner)
      | [] => default
    else if label = "Array" then
      match children with
      | elem :: length => .array default (readType elem) (length.head?.map readLength)
      | [] => default
    else if label = "FunctionType" then
      match children with
      | ret :: more => .func default ⟨readType ret, readParams more, readRest more⟩
      | [] => default
    else .named ⟨default, children.map readIdent, none⟩

/-- The parameters of a signature, from what stands after the result. -/
def readParams : List DumpTree → List TypeExpr
  | [] => []
  | .node label types :: _ => if label = "Arguments:" then readTypes types else []

/-- What may follow the parameters, from what stands after the result. -/
def readRest : List DumpTree → Rest TypeExpr
  | [] => .none
  | .node label types :: more =>
    if label = "Arguments:" then readRest more
    else if label = "Variadic:" then
      match types with
      | elem :: _ => .typed (readType elem)
      | [] => .none
    else .untyped

/-- The types of a list. -/
def readTypes : List DumpTree → List TypeExpr
  | [] => []
  | t :: ts => readType t :: readTypes ts

end

theorem readIdent_identifier (name : Ident) :
    readIdent (identifier name.text) = name.unspanned := by
  simp [identifier, Tree.leaf, readIdent, Ident.unspanned]

theorem readIdents (names : List Ident) :
    (names.map (identifier ·.text)).map readIdent = names.map (·.unspanned) := by
  rw [List.map_map]
  exact List.map_congr_left fun name _ => readIdent_identifier name

theorem readDotted_dotted {name : DottedName} (h : name.resolved = none) :
    readDotted (dotted name) = name.unspanned := by
  rw [dotted, readDotted, h, Option.map_none, Option.toList_none, List.append_nil, readIdents]
  simp only [DottedName.unspanned, h]

theorem readLength_leaf (n : Nat) : readLength (.leaf ("Length: " ++ n.repr)) = n := by
  show readLength (.leaf ("Length: " ++ toString n)) = n
  rw [Tree.leaf, readLength, tail_length, Nat.toString_eq_ofList_toDigits, String.toList_ofList,
    Nat.ofDigitChars_ten_toDigits]

/-- A list of arguments that is left out is read as empty. -/
theorem readParams_argumentsOf (types : List DumpTree) (rest : Rest TypeExpr) :
    readParams (argumentsOf types ++ ofRest rest) = readTypes types := by
  cases types with
  | nil => cases rest <;> simp [argumentsOf, ofRest, untypedRest, Tree.leaf, readParams, readTypes]
  | cons type types => simp [argumentsOf, readParams]

/-- The list of arguments is passed over. -/
theorem readRest_argumentsOf (types : List DumpTree) (rest : Rest TypeExpr) :
    readRest (argumentsOf types ++ ofRest rest) = readRest (ofRest rest) := by
  cases types with
  | nil => rfl
  | cons type types => simp [argumentsOf, readRest]

mutual

theorem readType_ofType : ∀ {t : TypeExpr}, t.Plain → readType (ofType t) = t.unspanned
  | .named name, h => by
    have hresolved : name.resolved = none :=
      (congrArg DottedName.resolved (TypeExpr.named.inj h)).symm
    rw [ofType, dotted, hresolved, Option.map_none, Option.toList_none, List.append_nil]
    unfold readType
    rw [readIdents]
    simp [TypeExpr.unspanned, DottedName.unspanned, hresolved]
  | .ref span inner, h => by
    have hinner : inner.Plain := (TypeExpr.ref.inj h).2
    simp [ofType, readType, readType_ofType hinner, TypeExpr.unspanned]
  | .array span elem length, h => by
    have helem : elem.Plain := (TypeExpr.array.inj h).2.1
    cases length with
    | none => simp [ofType, readType, readType_ofType helem, TypeExpr.unspanned]
    | some n =>
      simp only [ofType, Option.map_some, Option.toList_some, readType]
      simp [readType_ofType helem, TypeExpr.unspanned, readLength_leaf]
  | .func span ⟨ret, params, rest⟩, h => by
    obtain ⟨hret, hparams, hrest⟩ := Signature.mk.inj (TypeExpr.func.inj h).2
    simp only [ofType, ofSignature, List.cons_append, readType]
    simp [readParams_argumentsOf, readRest_argumentsOf, readType_ofType hret,
      readTypes_ofTypes hparams, readRest_ofRest hrest, TypeExpr.unspanned, Signature.unspanned]

theorem readTypes_ofTypes : ∀ {ts : List TypeExpr}, TypeExpr.bareEach ts = ts →
    readTypes (ofTypes ts) = TypeExpr.unspannedEach ts
  | [], _ => rfl
  | t :: ts, h => by
    obtain ⟨ht, hts⟩ := List.cons.inj h
    rw [ofTypes, readTypes, readType_ofType ht, readTypes_ofTypes hts, TypeExpr.unspannedEach]

theorem readRest_ofRest : ∀ {rest : Rest TypeExpr}, TypeExpr.bareRest rest = rest →
    readRest (ofRest rest) = Rest.unspanned rest
  | .none, _ => rfl
  | .untyped, _ => by
    simp [ofRest, untypedRest, Tree.leaf, readRest, Rest.unspanned]
  | .typed elem, h => by
    simp [ofRest, readRest, readType_ofType (Rest.typed.inj h), Rest.unspanned]

end

/-! ## Expressions -/

/-- The binary operators. -/
def binaryOps : List BinaryOp :=
  [.add, .sub, .mul, .div, .rem, .eq, .ne, .lt, .le, .gt, .ge, .and, .or, .bitAnd, .bitOr, .bitXor,
    .shl, .shr]

/-- The unary operators. -/
def unaryOps : List UnaryOp := [.not, .neg, .bitNot, .inc, .dec]

/-- The operators that assign. -/
def assignOps : List AssignOp := [.add, .sub, .mul, .div, .rem]

/-- The operator that a line shows, among some with their spellings. -/
def readOp {α : Type} [Inhabited α] (ops : List α) (symbol : α → String) : DumpTree → α
  | .node label _ => (ops.find? (symbol · == tail label)).getD default

/-- The literal of a kind, or else a name without parts. -/
def literalOf (kind text : String) : Value :=
  if kind = "Number" then .number ⟨default, text⟩
  else if kind = "DecimalNumber" then .decimal ⟨default, text⟩
  else if kind = "String" then .string ⟨default, text⟩
  else if kind = "Character" then .char ⟨default, text⟩
  else if kind = "BoolValue" then .bool default (text == "true")
  else if kind = "NullValue" then .null default
  else .ident ⟨default, [], none⟩

/-- The literal that a line shows. -/
def readLiteral (label : String) : Value := literalOf (head label) (tail label)

mutual

/-- An expression. -/
def readExpr : DumpTree → Expr
  | .node _ chain => .mk default (readChain chain)

/-- Operands and operators. -/
def readChain : List DumpTree → Chain
  | [] => .operand (.null default)
  | [value] => .operand (readValue value)
  | value :: op :: rest =>
    .link (readValue value) ⟨default, readOp binaryOps BinaryOp.symbol op⟩ (readChain rest)

/-- An operand. Those without children are literals, unless they are names. -/
def readValue : DumpTree → Value
  | .node label [] => readLiteral label
  | .node label (first :: more) =>
    if label = "CompoundIdentifier" then .ident ⟨default, (first :: more).map readIdent, none⟩
    else if label = "Expression" then .paren (.mk default (readChain (first :: more)))
    else if label = "Reference" then .ref default (readValue first)
    else
      match more with
      | [] => .null default
      | second :: _ =>
        if label = "FunctionCall" then .call default (readDotted first) (readArgs second) none 0
        else if label = "ArrayAccess" then .index default (readValue second) (readExpr first)
        else if label = "PrefixOperatorValue" then
          .prefixed default (readOp unaryOps UnaryOp.symbol first) (readValue second)
        else .suffixed default (readOp unaryOps UnaryOp.symbol first) (readValue second)

/-- The arguments of a call. -/
def readArgs : DumpTree → List Expr
  | .node _ args => readExprs args

/-- The expressions of a list. -/
def readExprs : List DumpTree → List Expr
  | [] => []
  | e :: es => readExpr e :: readExprs es

end

theorem readBinaryOp (op : BinaryOp) :
    readOp binaryOps BinaryOp.symbol (operatorLine op.symbol) = op := by
  rw [operatorLine, Tree.leaf, readOp, tail_operator]
  cases op <;> rfl

theorem readUnaryOp (op : UnaryOp) :
    readOp unaryOps UnaryOp.symbol (operatorLine op.symbol) = op := by
  rw [operatorLine, Tree.leaf, readOp, tail_operator]
  cases op <;> rfl

theorem readAssignOp (op : AssignOp) :
    readOp assignOps AssignOp.symbol (operatorLine op.symbol) = op := by
  rw [operatorLine, Tree.leaf, readOp, tail_operator]
  cases op <;> rfl

theorem readLiteral_append (kind : String) {label : String} (text : String)
    (h : label.toList = kind.toList ++ [':', ' ']) (hkind : ':' ∉ kind.toList) :
    readLiteral (label ++ text) = literalOf kind text := by
  rw [readLiteral, head_append kind text h hkind, tail_append kind text h hkind]

theorem readLiteral_bool (b : Bool) :
    readLiteral ("BoolValue: " ++ toString b) = .bool default b := by
  rw [readLiteral_append "BoolValue" _ (by decide) (by decide)]
  cases b
  · simp [literalOf, show toString false = "false" from rfl]
  · simp [literalOf, show toString true = "true" from rfl]

theorem readLiteral_null : readLiteral "NullValue" = .null default := by
  rw [readLiteral, show head "NullValue" = "NullValue" by decide +kernel]
  simp [literalOf]

theorem readLiteral_name : readLiteral "CompoundIdentifier" = .ident ⟨default, [], none⟩ := by
  rw [readLiteral, show head "CompoundIdentifier" = "CompoundIdentifier" by decide +kernel]
  simp [literalOf]

mutual

theorem readExpr_ofExpr : ∀ {e : Expr}, e.Plain → readExpr (ofExpr e) = e.unspanned
  | .mk span chain, h => by
    rw [ofExpr, readExpr, readChain_ofChain (Expr.plain_mk.mp h), Expr.unspanned]

theorem readChain_ofChain : ∀ {c : Chain}, c.Plain → readChain (ofChain c) = c.unspanned
  | .operand value, h => by
    have hvalue : value.Plain := ⟨Chain.operand.inj h.1, Chain.operand.inj h.2⟩
    rw [ofChain, readChain, readValue_ofValue hvalue, Chain.unspanned]
  | .link value op rest, h => by
    have hvalue : value.Plain := ⟨(Chain.link.inj h.1).1, (Chain.link.inj h.2).1⟩
    have hrest : rest.Plain := ⟨(Chain.link.inj h.1).2.2, (Chain.link.inj h.2).2.2⟩
    have hread : readChain (ofChain (.link value op rest)) =
        .link (readValue (ofValue value)) ⟨default, op.op⟩ (readChain (ofChain rest)) := by
      cases rest <;> simp [ofChain, readChain, readBinaryOp]
    rw [hread, readValue_ofValue hvalue, readChain_ofChain hrest, Chain.unspanned]
    rfl

theorem readValue_ofValue : ∀ {v : Value}, v.Plain → readValue (ofValue v) = v.unspanned
  | .number lit, _ => by
    rw [ofValue, Tree.leaf, readValue, readLiteral_append "Number" _ (by decide) (by decide)]
    simp [literalOf, Value.unspanned, Literal.unspanned]
  | .decimal lit, _ => by
    rw [ofValue, Tree.leaf, readValue, readLiteral_append "DecimalNumber" _ (by decide) (by decide)]
    simp [literalOf, Value.unspanned, Literal.unspanned]
  | .string lit, _ => by
    rw [ofValue, Tree.leaf, readValue, readLiteral_append "String" _ (by decide) (by decide)]
    simp [literalOf, Value.unspanned, Literal.unspanned]
  | .char lit, _ => by
    rw [ofValue, Tree.leaf, readValue, readLiteral_append "Character" _ (by decide) (by decide)]
    simp [literalOf, Value.unspanned, Literal.unspanned]
  | .bool span b, _ => by
    rw [ofValue, Tree.leaf, readValue, readLiteral_bool, Value.unspanned]
  | .null span, _ => by
    rw [ofValue, Tree.leaf, readValue, readLiteral_null, Value.unspanned]
  | .ident ⟨span, parts, resolved⟩, h => by
    obtain rfl : resolved = none := Value.resolved_of_plain h
    cases parts with
    | nil => exact readLiteral_name
    | cons part parts =>
      rw [ofValue, dotted, Option.map_none, Option.toList_none, List.append_nil]
      unfold readValue
      simp only [List.map_cons, if_true]
      exact congrArg (fun names => Value.ident ⟨default, names, none⟩) (readIdents (part :: parts))
  | .call span callee args target defaulted, h => by
    obtain ⟨-, hcallee, hrefill, htarget, -⟩ := Value.call.inj h.1
    obtain ⟨-, -, huncompleted, -, rfl⟩ := Value.call.inj h.2
    obtain rfl : none = target := htarget
    have hresolved : callee.resolved = none := (congrArg DottedName.resolved hcallee).symm
    have hargs : Value.PlainEach args := by
      refine ⟨hrefill, ?_⟩
      rwa [Nat.sub_zero, ← Value.length_uncompletedEach, List.take_length] at huncompleted
    simp [ofValue, ofCall, readValue, readArgs, readDotted_dotted hresolved,
      readExprs_ofExprs hargs, Value.unspanned]
  | .index span base position, h => by
    have hbase : base.Plain := ⟨(Value.index.inj h.1).2.1, (Value.index.inj h.2).2.1⟩
    have hposition : position.Plain := ⟨(Value.index.inj h.1).2.2, (Value.index.inj h.2).2.2⟩
    simp [ofValue, readValue, readValue_ofValue hbase, readExpr_ofExpr hposition, Value.unspanned]
  | .ref span inner, h => by
    have hinner : inner.Plain := ⟨(Value.ref.inj h.1).2, (Value.ref.inj h.2).2⟩
    simp [ofValue, readValue, readValue_ofValue hinner, Value.unspanned]
  | .prefixed span op inner, h => by
    have hinner : inner.Plain := ⟨(Value.prefixed.inj h.1).2.2, (Value.prefixed.inj h.2).2.2⟩
    simp [ofValue, readValue, readUnaryOp, readValue_ofValue hinner, Value.unspanned]
  | .suffixed span op inner, h => by
    have hinner : inner.Plain := ⟨(Value.suffixed.inj h.1).2.2, (Value.suffixed.inj h.2).2.2⟩
    simp [ofValue, readValue, readUnaryOp, readValue_ofValue hinner, Value.unspanned]
  | .paren (.mk span chain), h => by
    have hchain : chain.Plain := Expr.plain_mk.mp ⟨Value.paren.inj h.1, Value.paren.inj h.2⟩
    -- A chain of one operand has no node of its own in the dump.
    have hread : readValue (ofValue (.paren (.mk span chain))) =
        .paren (.mk default (readChain (ofChain chain))) := by
      cases chain <;> simp [ofValue, ofExpr, ofChain, readValue]
    rw [hread, readChain_ofChain hchain, Value.unspanned, Expr.unspanned]

theorem readExprs_ofExprs : ∀ {es : List Expr}, Value.PlainEach es →
    readExprs (ofExprs es) = Expr.unspannedEach es
  | [], _ => rfl
  | e :: es, h => by
    have he : e.Plain := ⟨(List.cons.inj h.1).1, (List.cons.inj h.2).1⟩
    have hes : Value.PlainEach es := ⟨(List.cons.inj h.1).2, (List.cons.inj h.2).2⟩
    rw [ofExprs, readExprs, readExpr_ofExpr he, readExprs_ofExprs hes, Expr.unspannedEach]

end

/-! ## Statements -/

/-- An initial value or a default, if there is one. -/
def readInit : List DumpTree → Option Expr
  | .node _ (value :: _) :: _ => some (readExpr value)
  | _ => none

/-- The type, the name and the initial value of a variable. -/
def readVariable : DumpTree → TypeExpr × Ident × Option Expr
  | .node _ (ty :: name :: init) => (readType ty, readIdent name, readInit init)
  | _ => (default, default, none)

/-- A variable. -/
def readVarDecl (t : DumpTree) : VarDecl :=
  ⟨default, (readVariable t).1, (readVariable t).2.1, (readVariable t).2.2, none⟩

/-- The operator of an assignment, if there is one, and the value. -/
def readAssignment : List DumpTree → Option AssignOp × Expr
  | .node _ [value] :: _ => (none, readExpr value)
  | .node _ (op :: value :: _) :: _ =>
    (some (readOp assignOps AssignOp.symbol op), readExpr value)
  | _ => (none, .mk default (.operand (.null default)))

mutual

/-- A statement. -/
def readStmt : DumpTree → Stmt
  | .node label children =>
    if label = "VariableDeclaration" then .decl (readVarDecl (.node label children))
    else if label = "Return" then .ret default (children.head?.map readExpr)
    else if label = "ConditionBranches" then .cond (readBranches children)
    else if label = "Block" then .block default (readStmts children)
    else
      match children with
      | [] => .block default []
      | first :: more =>
        if label = "Statement" then .expr (readExpr first)
        else if label = "ControlStructure: while" then
          .loop default (readExpr first) (readBody more)
        else
          .assign default (readValue first) (readAssignment more).1 (readAssignment more).2

/-- The statements of a loop or a branch, after its condition. -/
def readBody : List DumpTree → List Stmt
  | [] => []
  | .node _ body :: _ => readStmts body

/-- The statements of a list. -/
def readStmts : List DumpTree → List Stmt
  | [] => []
  | s :: ss => readStmt s :: readStmts ss

/-- A branch. -/
def readBranch : DumpTree → Branch
  | .node label children =>
    if label = "ControlStructure: else" then .mk default .otherwise (readBody children)
    else
      match children with
      | [] => .mk default .otherwise []
      | cond :: more =>
        if label = "ControlStructure: if" then
          .mk default (.first (readExpr cond)) (readBody more)
        else .mk default (.next (readExpr cond)) (readBody more)

/-- The branches of a list. -/
def readBranches : List DumpTree → List Branch
  | [] => []
  | b :: bs => readBranch b :: readBranches bs

end

theorem readVariable_ofVariable {ty : TypeExpr} (name : Ident) {init : Option Expr}
    (hty : ty.Plain) (hinit : ∀ e ∈ init, e.Plain) :
    readVariable (ofVariable ty name init) =
      (ty.unspanned, name.unspanned, init.map (·.unspanned)) := by
  cases init with
  | none => simp [ofVariable, readVariable, readInit, readType_ofType hty, readIdent_identifier]
  | some e =>
    simp [ofVariable, readVariable, readInit, readType_ofType hty, readIdent_identifier,
      readExpr_ofExpr (hinit e rfl)]

/-- What is plain of an expression that may be missing. -/
theorem plain_of_option {e? : Option Expr} (hrefill : e?.map (·.refill .emptied) = e?)
    (huncompleted : e?.map (·.uncompleted) = e?) : ∀ e ∈ e?, e.Plain := by
  rintro e rfl
  exact ⟨Option.some.inj hrefill, Option.some.inj huncompleted⟩

theorem readVarDecl_ofVariable {var : VarDecl} (h : var.Plain) :
    readVarDecl (ofVariable var.ty var.name var.init) = var.unspanned := by
  have hty : var.ty.Plain := congrArg VarDecl.ty h.1
  have hdecl : none = var.decl := congrArg VarDecl.decl h.1
  have hinit := plain_of_option (congrArg VarDecl.init h.1) (congrArg VarDecl.init h.2)
  rw [readVarDecl, readVariable_ofVariable var.name hty hinit, hdecl]
  rfl

mutual

theorem readStmt_ofStmt : ∀ {s : Stmt}, s.Plain → readStmt (ofStmt s) = s.unspanned
  | .expr value, h => by
    have hvalue : value.Plain := ⟨Stmt.expr.inj h.1, Stmt.expr.inj h.2⟩
    simp [ofStmt, readStmt, readExpr_ofExpr hvalue, Stmt.unspanned]
  | .decl var, h => by
    have hvar : var.Plain := ⟨Stmt.decl.inj h.1, Stmt.decl.inj h.2⟩
    -- A declaration is dumped like a variable of the unit, and read back like one.
    have hread := readVarDecl_ofVariable hvar
    rw [ofVariable] at hread
    rw [ofStmt, ofVariable]
    unfold readStmt
    simp [hread, Stmt.unspanned]
  | .assign span target op value, h => by
    have htarget : target.Plain := ⟨(Stmt.assign.inj h.1).2.1, (Stmt.assign.inj h.2).2.1⟩
    have hvalue : value.Plain := ⟨(Stmt.assign.inj h.1).2.2.2, (Stmt.assign.inj h.2).2.2.2⟩
    cases op with
    | none =>
      simp [ofStmt, readStmt, readAssignment, readValue_ofValue htarget, readExpr_ofExpr hvalue,
        Stmt.unspanned]
    | some op =>
      simp [ofStmt, readStmt, readAssignment, readAssignOp, readValue_ofValue htarget,
        readExpr_ofExpr hvalue, Stmt.unspanned]
  | .ret span value, h => by
    have hvalue := plain_of_option (Stmt.ret.inj h.1).2 (Stmt.ret.inj h.2).2
    cases value with
    | none => simp [ofStmt, readStmt, Stmt.unspanned]
    | some e => simp [ofStmt, readStmt, readExpr_ofExpr (hvalue e rfl), Stmt.unspanned]
  | .cond branches, h => by
    have hbranches : Branch.PlainEach branches := ⟨Stmt.cond.inj h.1, Stmt.cond.inj h.2⟩
    rw [ofStmt]
    unfold readStmt
    simp [readBranches_ofBranches hbranches, Stmt.unspanned]
  | .loop span cond body, h => by
    have hcond : cond.Plain := ⟨(Stmt.loop.inj h.1).2.1, (Stmt.loop.inj h.2).2.1⟩
    have hbody : Stmt.PlainEach body := ⟨(Stmt.loop.inj h.1).2.2, (Stmt.loop.inj h.2).2.2⟩
    simp [ofStmt, readStmt, readBody, readExpr_ofExpr hcond, readStmts_ofStmts hbody,
      Stmt.unspanned]
  | .block span body, h => by
    have hbody : Stmt.PlainEach body := ⟨(Stmt.block.inj h.1).2, (Stmt.block.inj h.2).2⟩
    rw [ofStmt]
    unfold readStmt
    simp [readStmts_ofStmts hbody, Stmt.unspanned]

theorem readStmts_ofStmts : ∀ {ss : List Stmt}, Stmt.PlainEach ss →
    readStmts (ofStmts ss) = Stmt.unspannedEach ss
  | [], _ => rfl
  | s :: ss, h => by
    have hs : s.Plain := ⟨(List.cons.inj h.1).1, (List.cons.inj h.2).1⟩
    have hss : Stmt.PlainEach ss := ⟨(List.cons.inj h.1).2, (List.cons.inj h.2).2⟩
    rw [ofStmts, readStmts, readStmt_ofStmt hs, readStmts_ofStmts hss, Stmt.unspannedEach]

theorem readBranch_ofBranch : ∀ {b : Branch}, b.refill .emptied = b → b.uncompleted = b →
    readBranch (ofBranch b) = b.unspanned
  | .mk span guard body, hrefill, huncompleted => by
    obtain ⟨-, hguard, hbody⟩ := Branch.mk.inj hrefill
    obtain ⟨-, hguard', hbody'⟩ := Branch.mk.inj huncompleted
    have hstmts : readStmts (ofStmts body) = Stmt.unspannedEach body :=
      readStmts_ofStmts ⟨hbody, hbody'⟩
    cases guard with
    | first cond =>
      have hcond : cond.Plain := ⟨Guard.first.inj hguard, Guard.first.inj hguard'⟩
      simp [ofBranch, Guard.keyword, Guard.cond?, readBranch, readBody, readExpr_ofExpr hcond,
        hstmts, Branch.unspanned, Guard.unspanned]
    | next cond =>
      have hcond : cond.Plain := ⟨Guard.next.inj hguard, Guard.next.inj hguard'⟩
      simp [ofBranch, Guard.keyword, Guard.cond?, readBranch, readBody, readExpr_ofExpr hcond,
        hstmts, Branch.unspanned, Guard.unspanned]
    | otherwise =>
      simp [ofBranch, Guard.keyword, Guard.cond?, readBranch, readBody, hstmts, Branch.unspanned,
        Guard.unspanned]

theorem readBranches_ofBranches : ∀ {bs : List Branch}, Branch.PlainEach bs →
    readBranches (ofBranches bs) = Branch.unspannedEach bs
  | [], _ => rfl
  | b :: bs, h => by
    have hbs : Branch.PlainEach bs := ⟨(List.cons.inj h.1).2, (List.cons.inj h.2).2⟩
    rw [ofBranches, readBranches, readBranch_ofBranch (List.cons.inj h.1).1 (List.cons.inj h.2).1,
      readBranches_ofBranches hbs, Branch.unspannedEach]

end

/-! ## Units -/

/-- The path of an include. -/
def readPath : List DumpTree → List Ident
  | [] => []
  | .node label _ :: _ =>
    if tail label = "" then []
    else (Text.splitAt '/' (tail label).toList).map fun name => ⟨String.ofList name, default⟩

/-- The body of a function, if there is one. -/
def readFunctionBody : List DumpTree → Option (List Stmt)
  | [] => none
  | .node _ body :: _ => some (readStmts body)

/-- A parameter. -/
def readParam (t : DumpTree) : Param :=
  ⟨(readVariable t).1, (readVariable t).2.1, (readVariable t).2.2⟩

/-- The parameters of a function, from what stands after its result. -/
def readFunctionParams : List DumpTree → List Param
  | [] => []
  | .node label params :: _ => if label = "Arguments:" then params.map readParam else []

/-- A function, from its name on. -/
def readNamedFunction : List DumpTree → Function
  | name :: .node _ (ret :: more) :: body =>
    ⟨default, readType ret, readIdent name, readFunctionParams more, readRest more,
      readFunctionBody body, none, none⟩
  | _ => ⟨default, default, default, [], .none, none, none, none⟩

/-- A part of a unit. -/
def readNode : DumpTree → Node
  | .node label children =>
    if label = "Include" then .header ⟨default, readPath children, none⟩
    else if label = "Alias" then
      match children with
      | .node _ (target :: _) :: .node _ (name :: _) :: _ =>
        .alias ⟨default, readType target, readIdent name⟩
      | _ => .alias ⟨default, default, default⟩
    else if label = "Function" then
      .function (readNamedFunction (children.filter (·.label != "Declaration")))
    else .global (readVarDecl (.node label children))

/-- Names without a slash are what the slashes between them separate. -/
theorem splitAt_intercalate {first : String} {more : List String}
    (h : ∀ name ∈ first :: more, '/' ∉ name.toList) :
    Text.splitAt '/' ("/".intercalate (first :: more)).toList =
      (first :: more).map String.toList := by
  induction more generalizing first with
  | nil => simp [Text.splitAt_of_not_mem (h first List.mem_cons_self)]
  | cons next more ih =>
    rw [List.forall_mem_cons] at h
    have hsplit : ("/".intercalate (first :: next :: more)).toList =
        first.toList ++ '/' :: ("/".intercalate (next :: more)).toList := by
      simp [String.intercalate_cons_cons]
    rw [hsplit, Text.splitAt_append h.1, ih h.2, ← List.map_cons]

/-- The names of a path are names: none is empty, and none has a slash. -/
def Named : Node → Prop
  | .header item => ∀ name ∈ item.path, name.text ≠ "" ∧ '/' ∉ name.text.toList
  | _ => True

theorem readPath_pathText {item : Include} (h : Named (.header item)) (more : List DumpTree) :
    readPath (.leaf ("Path: " ++ item.pathText) :: more) = item.path.map (·.unspanned) := by
  obtain ⟨span, path, symbols⟩ := item
  rw [Tree.leaf, readPath, tail_path]
  cases path with
  | nil => rfl
  | cons first path =>
    have hfirst := h first List.mem_cons_self
    have hslash : ∀ name ∈ (first :: path).map (·.text), '/' ∉ name.toList := by
      intro name hname
      obtain ⟨ident, hident, rfl⟩ := List.mem_map.mp hname
      exact (h ident hident).2
    have hsplit := splitAt_intercalate hslash
    rw [← List.map_cons] at hsplit
    have hnonempty : Include.pathText ⟨span, first :: path, symbols⟩ ≠ "" := by
      intro hempty
      rw [show "/".intercalate ((first :: path).map (·.text)) = "" from hempty] at hsplit
      have htext : ([] : List Char) = first.text.toList := (List.cons.inj hsplit).1
      exact hfirst.1 (String.toList_inj.mp htext.symm)
    rw [if_neg hnonempty, Include.pathText, hsplit, List.map_map, List.map_map]
    refine List.map_congr_left fun name _ => ?_
    simp [Ident.unspanned]

theorem readFunctionParams_argumentsOf (params : List DumpTree) (rest : Rest TypeExpr) :
    readFunctionParams (argumentsOf params ++ ofRest rest) = params.map readParam := by
  cases params with
  | nil => cases rest <;> simp [argumentsOf, ofRest, untypedRest, Tree.leaf, readFunctionParams]
  | cons param params => simp [argumentsOf, readFunctionParams]

theorem readParam_ofVariable {p : Param} (h : p.Plain) :
    readParam (ofVariable p.ty p.name p.default) = p.unspanned := by
  have hty : p.ty.Plain := congrArg Param.ty h.1
  have hdefault := plain_of_option (congrArg Param.default h.1) (congrArg Param.default h.2)
  rw [readParam, readVariable_ofVariable p.name hty hdefault, Param.unspanned]

/-- What a map leaves as it is, it leaves as it is everywhere. -/
theorem eq_of_map_eq_self {α : Type} {f : α → α} {l : List α} (h : l.map f = l) :
    ∀ x ∈ l, f x = x :=
  List.map_inj_left.mp (h.trans (List.map_id l).symm)

theorem readFunctionBody_map {body : Option (List Stmt)}
    (hrefill : body.map (Stmt.refillEach .emptied) = body)
    (huncompleted : body.map Stmt.uncompletedEach = body) :
    readFunctionBody (body.map fun body => .node "Body" (ofStmts body)).toList =
      body.map Stmt.unspannedEach := by
  cases body with
  | none => rfl
  | some body =>
    have hbody : Stmt.PlainEach body := ⟨Option.some.inj hrefill, Option.some.inj huncompleted⟩
    exact congrArg some (readStmts_ofStmts hbody)

/-- A function is read from the children of its dump, without the line that marks a prototype. -/
theorem readNamedFunction_ofNode {item : Function} (hrefill : item.refill .emptied = item)
    (huncompleted : item.uncompleted = item) : .function
      (readNamedFunction ((ofNode (.function item)).children.filter (·.label != "Declaration"))) =
      (Node.function item).unspanned := by
  obtain ⟨span, ret, name, params, rest, body, decl, sig⟩ := item
  obtain ⟨-, hret, -, hparams, hrest, hbody, hdecl, hsig⟩ := Function.mk.inj hrefill
  obtain ⟨-, -, -, hparams', -, hbody', -, -⟩ := Function.mk.inj huncompleted
  obtain rfl : none = decl := hdecl
  obtain rfl : none = sig := hsig
  have hread : (params.map fun p => ofVariable p.ty p.name p.default).map readParam =
      params.map (·.unspanned) := by
    rw [List.map_map]
    refine List.map_congr_left fun p hp => readParam_ofVariable ⟨?_, ?_⟩
    · exact eq_of_map_eq_self hparams p hp
    · exact eq_of_map_eq_self hparams' p hp
  have hrest : TypeExpr.bareRest rest = rest := by
    cases rest with
    | typed elem => exact hrest
    | _ => rfl
  have hfilter : (ofNode (.function ⟨span, ret, name, params, rest, body, none, none⟩)).children.filter
        (·.label != "Declaration") =
      identifier name.text :: .node "FunctionType" (ofType ret ::
          (argumentsOf (params.map fun p => ofVariable p.ty p.name p.default) ++ ofRest rest)) ::
        (body.map fun body => .node "Body" (ofStmts body)).toList := by
    cases body <;>
      simp [ofNode, Tree.children, Tree.label, identifier, Tree.leaf, identifier_ne_declaration]
  rw [hfilter]
  simp only [readNamedFunction, readIdent_identifier, readFunctionParams_argumentsOf,
    readRest_argumentsOf, hread, readRest_ofRest hrest, readType_ofType hret,
    readFunctionBody_map hbody hbody', Node.unspanned]

/-- **Dumps can be read back.** The dump of a plain part gives the part without its spans. -/
theorem readNode_ofNode : ∀ {n : Node}, n.Plain → Named n → readNode (ofNode n) = n.unspanned
  | .header item, h, hnamed => by
    have hsymbols : none = item.symbols := congrArg Include.symbols (Node.header.inj h.2)
    simp only [ofNode, readNode, if_true]
    rw [readPath_pathText hnamed, Node.unspanned, ← hsymbols]
  | .alias item, h, _ => by
    have htarget : item.target.Plain := congrArg Alias.target (Node.alias.inj h.1)
    simp [ofNode, readNode, readType_ofType htarget, readIdent_identifier, Node.unspanned]
  | .function item, h, _ => by
    rw [← readNamedFunction_ofNode (Node.function.inj h.1) (Node.function.inj h.2)]
    simp [ofNode, readNode, Tree.children]
  | .global item, h, _ => by
    have hitem : item.Plain := ⟨Node.global.inj h.1, Node.global.inj h.2⟩
    have hread := readVarDecl_ofVariable hitem
    rw [ofVariable] at hread
    simp [ofNode, ofVariable, readNode, hread, Node.unspanned]

end KilnLang.Dump
