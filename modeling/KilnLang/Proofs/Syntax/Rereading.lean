import KilnLang.Proofs.Syntax.RereadingExpr

/-!
# Parsing inverts printing

**Theorem (`parse_print_again`).** Print a unit that was parsed from any text, and parse what is
printed. This succeeds, and gives the unit up to spans.

The tokens of a text are legible, so what is printed is split into the tokens of the pieces, and it
remains to follow the parsers of statements and of parts of a unit, as for types and expressions.
All of them stop before a semicolon, and one is printed after each.

**Declarations and expressions.** A declaration is printed on one line, so its type and its name
start a declaration again. The converse is not obvious: a type that is read from the start of an
expression could be followed by a name. But the operand that is read from the same place then ends
where the type ends (`typeExpr_operand`): both are a name with references before it and numbers in
brackets after it. What comes after the operand is an operator, an assignment or the semicolon, and
no name.
-/

namespace KilnLang

namespace Parser

open TokenStream

/-! ## Declarations and expressions -/

theorem expect_take? (s : TokenStream) (k : TokenKind) :
    Ensures (s.expect k) fun r => s.take? k = some r := by
  unfold TokenStream.expect
  split
  · exact .ok ‹_›
  · exact .error

theorem ident_take? (s : TokenStream) :
    Ensures s.ident fun r => ∃ step, s.take? .ident = some step ∧ r.rest = step.rest := by
  unfold TokenStream.ident
  refine (expect_take? s .ident).map ?_
  exact fun step hstep => ⟨step, hstep, rfl⟩

/-- No operand starts with a bracket that closes, or with a type of functions. -/
theorem operand_fails {s : TokenStream}
    (h : headKind s.tokens = .rbracket ∨ headKind s.tokens = .kwFunc) :
    Ensures (operand s) fun _ => False := by
  have hne : ∀ k, k ≠ .rbracket → k ≠ .kwFunc → s.take? k = none := fun k hk hk' =>
    take?_of_ne (by rintro rfl; exact h.elim hk hk')
  have hkind : s.peek.kind = headKind s.tokens := s.kind_eq_headKind
  have hbegins : prefixOp? s.kind = none := by
    rw [s.kind_eq_headKind]
    obtain h | h := h <;> rw [h] <;> rfl
  have hliteral : literal? s.peek = none := by
    rw [literal?, hkind]
    obtain h | h := h <;> rw [h]
  have hident : s.kind ≠ .ident := by
    rw [s.kind_eq_headKind]
    obtain h | h := h <;> rw [h] <;> decide
  rw [operand, hbegins, hliteral, hne .lparen (by decide) (by decide),
    hne .kwRef (by decide) (by decide)]
  dsimp only
  rw [if_neg hident]
  exact .error

/-- The length of an array is read alike as an expression. -/
theorem arrayLength_expr (s : TokenStream) :
    Ensures (arrayLength s) fun r => headKind r.rest.tokens = .rbracket →
      Ensures (expr s) fun r' => r'.rest = r.rest := by
  unfold arrayLength
  split
  · refine .ok fun hclose => ?_
    rw [expr]
    exact (operand_fails (.inl hclose)).bind fun _ hfalse => hfalse.elim
  · rename_i step hstep
    split
    · refine .ok fun hclose => ?_
      have hkind : s.kind = .intLiteral := s.kind_eq_headKind.trans (headKind_of_take? hstep)
      have hadvance : advance? s = some step := by rw [advance?, hkind, hstep]
      have hliteral : literal? s.peek = some (.number ⟨s.peek.span, s.peek.text⟩) := by
        rw [literal?, show s.peek.kind = _ from hkind]
      have hclose : headKind step.rest.tokens = .rbracket := hclose
      rw [expr, operand, hkind, hliteral, hadvance]
      dsimp only [prefixOp?]
      rw [suffix_eq _ (by rw [hclose]; rfl)]
      refine Ensures.bind (Q := fun r => r.rest = step.rest) (.pure rfl) ?_
      rintro ⟨value, s₁, h₁⟩ rfl
      dsimp only
      rw [chainTail, operator?_eq_none (by rw [hclose]; rfl)]
      exact .pure rfl
    · exact .error

/-- The brackets after a type that ends before a name are read alike after an operand. -/
theorem arraySuffix_suffix (ty : TypeExpr) (s : TokenStream) :
    Ensures (arraySuffix ty s) fun r => headKind r.rest.tokens = .ident →
      headKind s.tokens ≠ .dot ∧ ∀ value, Ensures (suffix value s) fun r' => r'.rest = r.rest := by
  rw [arraySuffix]
  split
  · refine .ok fun hident => ?_
    rw [Pause.rest_stay] at hident
    refine ⟨?_, fun value => ?_⟩
    · rw [hident]
      decide
    · rw [suffix_eq value (by rw [hident]; rfl)]
      exact .ok rfl
  · rename_i hopen
    refine (arrayLength_expr _).bind ?_
    rintro ⟨length, s₂, h₂⟩ hlength
    refine (expect_take? _ _).bind ?_
    rintro ⟨close, s₃, h₃⟩ hclose
    refine (arraySuffix_suffix _ _).bind ?_
    rintro ⟨ty₁, s₄, h₄⟩ hmore
    have hhead := headKind_of_take? hopen
    refine .pure fun hident => ⟨by rw [hhead]; decide, fun value => ?_⟩
    rw [suffix, take?_of_headKind hhead, hopen]
    refine (hlength (headKind_of_take? hclose)).bind ?_
    rintro ⟨position, s₂', h₂'⟩ rfl
    dsimp only at hclose ⊢
    rw [TokenStream.expect, hclose]
    exact ((hmore hident).2 _).bind fun _ hrest => .pure hrest
termination_by s.size
decreasing_by all_goals omega

/-- A name that no dot follows is read alike as a dotted name. -/
theorem dottedName_single {s : TokenStream} {step : Step s Token} (h : s.take? .ident = some step)
    (hdot : headKind step.rest.tokens ≠ .dot) :
    Ensures (dottedName s) fun r => r.rest = step.rest := by
  unfold dottedName
  refine (ident_take? s).bind ?_
  rintro ⟨name, s₁, h₁⟩ ⟨step', hstep, rfl⟩
  cases Option.some.inj (h.symm.trans hstep)
  dsimp only
  rw [dottedTail, take?_of_ne hdot]
  exact .pure rfl

/-- An operand ends where a type ends that is read from the same place and ends before a name. -/
theorem typeExpr_operand (s : TokenStream) :
    Ensures (typeExpr s) fun r => headKind r.rest.tokens = .ident →
      Ensures (operand s) fun r' => r'.rest = r.rest := by
  rw [typeExpr]
  split
  · rename_i href
    refine (typeExpr_operand _).bind ?_
    rintro ⟨inner, s₂, h₂⟩ hinner
    refine .pure fun hident => ?_
    rw [operand_ref href]
    refine (hinner hident).bind ?_
    rintro ⟨value, s₂', h₂'⟩ rfl
    dsimp only at hident ⊢
    rw [suffix_eq _ (by rw [hident]; rfl)]
    exact .pure rfl
  · split
    · rename_i hfunc
      intro _ _ _
      exact fun r hr => (operand_fails (.inr (headKind_of_take? hfunc)) r hr).elim
    · refine (ident_take? s).bind ?_
      rintro ⟨name, s₁, h₁⟩ ⟨step, hstep, rfl⟩
      refine (arraySuffix_suffix _ _).bind ?_
      rintro ⟨ty, s₂, h₂⟩ hmore
      refine .pure fun hident => ?_
      obtain ⟨hdot, hsuffix⟩ := hmore hident
      rw [operand_ident (headKind_of_take? hstep)]
      refine (dottedName_single hstep hdot).bind ?_
      rintro ⟨name', s₁', h₁'⟩ rfl
      exact (hsuffix _).bind fun _ hrest => .pure hrest
termination_by s.size
decreasing_by all_goals omega

/-- What is read as an operand that ends before no name is no declaration. -/
theorem localHead?_eq_none {s : TokenStream} {r : Step s Value} (h : operand s = .ok r)
    (hrest : headKind r.rest.tokens ≠ .ident) : localHead? s = none := by
  unfold localHead?
  split
  · rfl
  · rename_i ty s₁ h₁ hty
    split
    · rfl
    · rename_i hname
      have hident := headKind_of_take? hname
      have hsame : r.rest = s₁ := typeExpr_operand s _ hty hident r h
      rw [hsame] at hrest
      exact absurd hident hrest

/-- A type and a name on one line start a declaration. -/
theorem exists_localHead? {s : TokenStream} {ty : TypeExpr} {name : Ident}
    {ps : List Piece} {mid rest : List Token}
    (hty : Gives (typeExpr s) fun r => r.value.unspanned = ty.unspanned ∧ r.rest.tokens = mid)
    (hname : Starts mid (name.piece :: ps) rest) :
    ∃ r, localHead? s = some r ∧ r.value.1.unspanned = ty.unspanned ∧
      r.value.2.unspanned = name.unspanned ∧ Starts r.rest.tokens ps rest := by
  obtain ⟨⟨ty', s₁, h₁⟩, hrun, hsame, rfl⟩ := hty
  obtain ⟨⟨name', s₂, h₂⟩, htake, htext, hfresh, hrest⟩ := exists_take?_word hname
  refine ⟨⟨(ty', ⟨name'.text, name'.span⟩), s₂, Nat.lt_trans h₂ h₁⟩, ?_, hsame, ?_, hrest⟩
  · dsimp only at htake hfresh
    simp only [localHead?, hrun, htake, hfresh]
    rfl
  · dsimp only at htext
    simp [Ident.unspanned, htext]

/-! ## Statements -/

/-- The initial value of a variable is read again after the same type and name. -/
theorem varDecl_again (ty : TypeExpr) (name : Ident) (s : TokenStream) :
    Ensures (varDecl ty name s) fun r =>
      r.value.pieces = ty.pieces ++ name.piece :: Expr.initialPieces r.value.init ∧
      ∀ ty' name' t rest, ty'.unspanned = ty.unspanned → name'.unspanned = name.unspanned →
        Starts t.tokens (Expr.initialPieces r.value.init) rest → headKind rest = .semi →
        Gives (varDecl ty' name' t) fun r' =>
          r'.value.unspanned = r.value.unspanned ∧ r'.rest.tokens = rest := by
  unfold varDecl
  split
  · refine .ok ⟨rfl, fun ty' name' t rest hty hname ht hrest => ?_⟩
    have htokens := ht.eq_of_nil
    rw [take?_of_headKind (htokens ▸ hrest)]
    exact .ok ⟨by simp [VarDecl.unspanned, hty, hname], htokens⟩
  · refine (expr_again _).bind ?_
    rintro ⟨init, s₂, h₂⟩ ⟨-, hinit⟩
    refine .pure ⟨rfl, fun ty' name' t rest hty hname ht hrest => ?_⟩
    obtain ⟨⟨_, t₁, ht₁⟩, htake, ht⟩ := exists_take? ht
    rw [htake]
    refine (hinit t₁ rest ht (by rw [hrest]; rfl)).bind ?_
    rintro ⟨init', t₂, ht₂⟩ ⟨hsame, htokens⟩
    exact .pure ⟨by simp [VarDecl.unspanned, hty, hname, hsame], htokens⟩

/-- No parameters follow the name of a variable. -/
theorem headKind_initial_ne {init : Option Expr} {ts rest : List Token}
    (h : Starts ts (Expr.initialPieces init) rest) (hrest : headKind rest = .semi) :
    headKind ts ≠ .lparen := by
  cases init with
  | none =>
    rw [h.eq_of_nil, hrest]
    decide
  | some value =>
    rw [h.headKind_of_leads rfl]
    decide

@[simp] theorem assignOp?_kind (op : Option AssignOp) : assignOp? (AssignOp.kind op) = some op := by
  obtain _ | op := op
  · rfl
  · cases op <;> rfl

theorem endsOperand_assign (op : Option AssignOp) :
    endsOperand (AssignOp.kind op) ∧ AssignOp.kind op ≠ .ident := by
  obtain _ | op := op
  · decide
  · cases op <;> decide

theorem localHead?_again {s : TokenStream} {r : Step s (TypeExpr × Ident)}
    (h : localHead? s = some r) : leads r.value.1.pieces = some (headKind s.tokens) ∧
      ∀ t rest, Starts t.tokens r.value.1.pieces rest → headKind rest ≠ .lbracket →
        Gives (typeExpr t) fun r' =>
          r'.value.unspanned = r.value.1.unspanned ∧ r'.rest.tokens = rest := by
  unfold localHead? at h
  split at h
  · exact nomatch h
  · rename_i hty
    split at h
    · exact nomatch h
    · split at h
      · exact nomatch h
      · cases h
        exact typeExpr_again s _ hty

/-- A declaration, an assignment or an expression is read again as what it is. -/
theorem simpleStmt_again (s : TokenStream) :
    Ensures (simpleStmt s) fun r => leads r.value.pieces = some (headKind s.tokens) ∧
      ∀ t rest, Starts t.tokens r.value.pieces rest → headKind rest = .semi →
        Gives (simpleStmt t) fun r' =>
          r'.value.unspanned = r.value.unspanned ∧ r'.rest.tokens = rest := by
  unfold simpleStmt
  split
  · rename_i ty name s₁ h₁ hhead
    obtain ⟨hlead, hty⟩ := localHead?_again hhead
    refine (varDecl_again _ _ _).bind ?_
    rintro ⟨var, s₂, h₂⟩ ⟨hpieces, hvar⟩
    refine .pure ⟨by simp [Stmt.pieces, hpieces, hlead], fun t rest ht hrest => ?_⟩
    simp only [Stmt.pieces, hpieces] at ht
    obtain ⟨mid, hstart, ht⟩ := ht.append
    -- A type and a name on one line are read as a declaration again: the type spells the same.
    obtain ⟨⟨⟨ty', name'⟩, t₁, ht₁⟩, hhead', hsame, hname, ht⟩ :=
      exists_localHead? (hty t mid hstart (by rw [ht.headKind_of_leads rfl]; decide)) ht
    rw [hhead']
    refine (hvar ty' name' t₁ rest hsame hname ht hrest).bind ?_
    rintro ⟨var', t₂, ht₂⟩ ⟨hvar', htokens⟩
    exact .pure ⟨by simp [Stmt.unspanned, hvar'], htokens⟩
  · refine (operand_again _).bind ?_
    rintro ⟨first, s₁, h₁⟩ ⟨⟨hlead, -, -⟩, hfirst⟩
    dsimp only
    split
    · rename_i op _ _ _ hop hassign
      refine (expr_again _).bind ?_
      rintro ⟨value, s₃, h₃⟩ ⟨-, hvalue⟩
      refine .pure ⟨by simp [Stmt.pieces, hlead], fun t rest ht hrest => ?_⟩
      simp only [Stmt.pieces] at ht
      obtain ⟨mid, hstart, ht⟩ := ht.append
      have hmid : headKind mid = AssignOp.kind op := ht.headKind_of_leads rfl
      obtain ⟨hends, hident⟩ := endsOperand_assign op
      obtain ⟨⟨first', t₁, ht₁⟩, hrun, hsame, rfl⟩ :=
        hfirst t mid hstart (by rw [hmid]; exact hends)
      obtain ⟨-, ⟨_, t₂, ht₂⟩, hadvance, ht⟩ := exists_advance? ht rfl
      dsimp only at hadvance hmid
      -- After the target comes an operator, no name, so no declaration is read.
      rw [localHead?_eq_none hrun (by rw [hmid]; exact hident), hrun]
      refine Gives.bind (Q := fun r => r = ⟨first', t₁, ht₁⟩) (.ok rfl) ?_
      rintro _ rfl
      dsimp only
      rw [t₁.kind_eq_headKind, hmid, assignOp?_kind, hadvance]
      refine (hvalue t₂ rest ht (by rw [hrest]; rfl)).bind ?_
      rintro ⟨value', t₃, ht₃⟩ ⟨hvalue', htokens⟩
      exact .pure ⟨by simp [Stmt.unspanned, hsame, hvalue'], htokens⟩
    · refine (exprFrom_again _ _).bind ?_
      rintro ⟨value, s₂, h₂⟩ ⟨ps, hps, hends, hmore⟩
      refine .pure ⟨by simp [Stmt.pieces, hps, hlead], fun t rest ht hrest => ?_⟩
      simp only [Stmt.pieces, hps] at ht
      obtain ⟨mid, hstart, ht⟩ := ht.append
      have hsemi : endsExpr (headKind rest) := by rw [hrest]; rfl
      -- What follows the first operand ends it, names nothing and assigns nothing.
      have hmid : endsOperand (headKind mid) ∧ headKind mid ≠ .ident ∧
          assignOp? (headKind mid) = none := by
        obtain hmid | hmid := hends ht
        · rw [hmid, hrest]
          decide
        · exact ends_of_binaryOp? hmid
      obtain ⟨⟨first', t₁, ht₁⟩, hrun, hsame, rfl⟩ := hfirst t mid hstart hmid.1
      rw [localHead?_eq_none hrun hmid.2.1, hrun]
      refine Gives.bind (Q := fun r => r = ⟨first', t₁, ht₁⟩) (.ok rfl) ?_
      rintro _ rfl
      dsimp only at hmid ⊢
      rw [t₁.kind_eq_headKind, hmid.2.2]
      refine (hmore first' t₁ rest hsame ht hsemi).bind ?_
      rintro ⟨value', t₂, ht₂⟩ ⟨hvalue', htokens⟩
      exact .pure ⟨by simp [Stmt.unspanned, hvalue'], htokens⟩

/-- The value of a return statement is read again. -/
theorem returnValue_again (s : TokenStream) :
    Ensures (returnValue s) fun r => ∀ t rest,
      Starts t.tokens ((r.value.map (·.pieces)).getD []) rest → headKind rest = .semi →
      Gives (returnValue t) fun r' =>
        r'.value.map (·.unspanned) = r.value.map (·.unspanned) ∧ r'.rest.tokens = rest := by
  unfold returnValue
  split
  · refine .ok fun t rest ht hrest => ?_
    have htokens := ht.eq_of_nil
    rw [if_pos (.inr (.inl (by rw [t.kind_eq_headKind, htokens, hrest])))]
    exact .ok ⟨rfl, htokens⟩
  · rename_i hkind
    refine (expr_again s).map ?_
    rintro ⟨value, s₁, h₁⟩ ⟨hlead, hvalue⟩ t rest ht hrest
    have hsame : t.kind = s.kind := by
      rw [t.kind_eq_headKind, s.kind_eq_headKind]
      exact ht.headKind_of_leads hlead
    rw [if_neg (by rwa [hsame])]
    refine (hvalue t rest ht (by rw [hrest]; rfl)).map ?_
    rintro ⟨value', t₁, ht₁⟩ ⟨hvalue', htokens⟩
    exact ⟨congrArg some hvalue', htokens⟩

mutual

theorem stmt_again (s : TokenStream) :
    Ensures (stmt s) fun r => leads r.value.pieces = some (headKind s.tokens) ∧
      ∀ t rest, Starts t.tokens (r.value.pieces ++ [.optional .semi]) rest →
        Gives (stmt t) fun r' =>
          r'.value.unspanned = r.value.unspanned ∧ r'.rest.tokens = rest := by
  rw [stmt]
  refine (bareStmt_again s).bind ?_
  rintro ⟨value, s₁, h₁⟩ ⟨hlead, hvalue⟩
  refine .pure ⟨hlead, fun t rest ht => ?_⟩
  obtain ⟨mid, hstart, ht⟩ := ht.append
  rw [stmt]
  refine (hvalue t mid hstart (ht.headKind_of_leads rfl)).bind ?_
  rintro ⟨value', t₁, ht₁⟩ ⟨hsame, rfl⟩
  exact .pure ⟨hsame, (skip_semi ht).eq_of_nil⟩
termination_by 4 * s.size + 2
decreasing_by all_goals omega

theorem bareStmt_again (s : TokenStream) :
    Ensures (bareStmt s) fun r => leads r.value.pieces = some (headKind s.tokens) ∧
      ∀ t rest, Starts t.tokens r.value.pieces rest → headKind rest = .semi →
        Gives (bareStmt t) fun r' =>
          r'.value.unspanned = r.value.unspanned ∧ r'.rest.tokens = rest := by
  rw [bareStmt]
  split
  · rename_i hif
    refine (expr_again _).bind ?_
    rintro ⟨cond, s₂, h₂⟩ ⟨-, hcond⟩
    refine (block_again _).bind ?_
    rintro ⟨⟨body, bodySpan⟩, s₃, h₃⟩ ⟨-, hbody⟩
    refine (otherBranches_again _).bind ?_
    rintro ⟨branches, s₄, h₄⟩ hbranches
    refine .pure ⟨?_, fun t rest ht hrest => ?_⟩
    · simp [Stmt.pieces, Branch.piecesEach, Branch.pieces, Guard.pieces, headKind_of_take? hif]
    · simp only [Stmt.pieces, Branch.piecesEach, Branch.pieces, Guard.pieces, List.cons_append,
        List.append_assoc] at ht
      obtain ⟨⟨_, t₁, ht₁⟩, htake, ht⟩ := exists_take? ht
      obtain ⟨mid, hstart, ht⟩ := ht.append
      rw [bareStmt, htake]
      refine (hcond t₁ mid hstart (by rw [ht.headKind_of_leads rfl]; rfl)).bind ?_
      rintro ⟨cond', t₂, ht₂⟩ ⟨hcond', rfl⟩
      obtain ⟨mid, hstart, ht⟩ := ht.append
      refine (hbody t₂ mid hstart).bind ?_
      rintro ⟨⟨body', bodySpan'⟩, t₃, ht₃⟩ ⟨hbody', rfl⟩
      refine (hbranches t₃ rest ht hrest).bind ?_
      rintro ⟨branches', t₄, ht₄⟩ ⟨hbranches', htokens⟩
      refine .pure ⟨?_, htokens⟩
      simp [Stmt.unspanned, Branch.unspannedEach, Branch.unspanned, Guard.unspanned, hcond', hbody',
        hbranches']
  · rename_i hif
    split
    · rename_i hwhile
      refine (expr_again _).bind ?_
      rintro ⟨cond, s₂, h₂⟩ ⟨-, hcond⟩
      refine (block_again _).bind ?_
      rintro ⟨⟨body, bodySpan⟩, s₃, h₃⟩ ⟨-, hbody⟩
      refine .pure ⟨by simp [Stmt.pieces, headKind_of_take? hwhile], fun t rest ht hrest => ?_⟩
      simp only [Stmt.pieces, List.cons_append] at ht
      have hhead := ht.headKind_of_leads rfl
      obtain ⟨⟨_, t₁, ht₁⟩, htake, ht⟩ := exists_take? ht
      obtain ⟨mid, hstart, ht⟩ := ht.append
      rw [bareStmt, take?_of_headKind hhead, htake]
      refine (hcond t₁ mid hstart (by rw [ht.headKind_of_leads rfl]; rfl)).bind ?_
      rintro ⟨cond', t₂, ht₂⟩ ⟨hcond', rfl⟩
      refine (hbody t₂ rest ht).bind ?_
      rintro ⟨⟨body', bodySpan'⟩, t₃, ht₃⟩ ⟨hbody', htokens⟩
      exact .pure ⟨by simp [Stmt.unspanned, hcond', hbody'], htokens⟩
    · rename_i hwhile
      split
      · rename_i hreturn
        refine (returnValue_again _).bind ?_
        rintro ⟨value, s₂, h₂⟩ hvalue
        refine .pure ⟨by simp [Stmt.pieces, headKind_of_take? hreturn], fun t rest ht hrest => ?_⟩
        have hhead := ht.headKind_of_leads rfl
        obtain ⟨⟨_, t₁, ht₁⟩, htake, ht⟩ := exists_take? ht
        rw [bareStmt, take?_of_headKind hhead, take?_of_headKind hhead,
          htake]
        refine (hvalue t₁ rest ht hrest).bind ?_
        rintro ⟨value', t₂, ht₂⟩ ⟨hvalue', htokens⟩
        exact .pure ⟨by simp only [Stmt.unspanned, hvalue'], htokens⟩
      · rename_i hreturn
        -- None of the words that start other statements comes first, in the second text either.
        have hfirst : ∀ (t : TokenStream), headKind t.tokens = headKind s.tokens →
            t.take? .kwIf = none ∧ t.take? .kwWhile = none ∧ t.take? .kwReturn = none :=
          fun t hhead => ⟨take?_of_headKind_eq hif hhead,
            take?_of_headKind_eq hwhile hhead,
            take?_of_headKind_eq hreturn hhead⟩
        split
        · refine (block_again s).bind ?_
          rintro ⟨⟨body, span⟩, s₁, h₁⟩ ⟨hopen, hbody⟩
          refine .pure ⟨by simp [Stmt.pieces, Piece.braced, hopen], fun t rest ht hrest => ?_⟩
          have hhead : headKind t.tokens = .lbrace := ht.headKind_of_leads rfl
          obtain ⟨hnone, hnone', hnone''⟩ := hfirst t (hhead.trans hopen.symm)
          rw [bareStmt, hnone, hnone', hnone'']
          dsimp only
          rw [if_pos (t.kind_eq_headKind.trans hhead)]
          refine (hbody t rest ht).bind ?_
          rintro ⟨⟨body', span'⟩, t₁, ht₁⟩ ⟨hbody', htokens⟩
          exact .pure ⟨by simp [Stmt.unspanned, hbody'], htokens⟩
        · rename_i hopen
          intro r hr
          obtain ⟨hlead, hr⟩ := simpleStmt_again s r hr
          refine ⟨hlead, fun t rest ht hrest => ?_⟩
          have hhead : headKind t.tokens = headKind s.tokens := ht.headKind_of_leads hlead
          obtain ⟨hnone, hnone', hnone''⟩ := hfirst t hhead
          rw [s.kind_eq_headKind, ← hhead, ← t.kind_eq_headKind] at hopen
          rw [bareStmt, hnone, hnone', hnone'']
          dsimp only
          rw [if_neg hopen]
          exact hr t rest ht hrest
termination_by 4 * s.size + 1
decreasing_by all_goals omega

theorem block_again (s : TokenStream) :
    Ensures (block s) fun r => headKind s.tokens = .lbrace ∧
      ∀ t rest, Starts t.tokens (Piece.braced (Stmt.piecesEach r.value.1)) rest →
        Gives (block t) fun r' => Stmt.unspannedEach r'.value.1 = Stmt.unspannedEach r.value.1 ∧
          r'.rest.tokens = rest := by
  rw [block]
  refine (expect_take? s .lbrace).bind ?_
  rintro ⟨start, s₁, h₁⟩ hopen
  refine (stmts_again _).bind ?_
  rintro ⟨body, s₂, h₂⟩ hbody
  refine .pure ⟨headKind_of_take? hopen, fun t rest ht => ?_⟩
  rw [block]
  refine (expect_gives ht).bind ?_
  rintro ⟨start', t₁, ht₁⟩ ht
  refine (hbody t₁ rest ht).bind ?_
  rintro ⟨body', t₂, ht₂⟩ ⟨hsame, htokens⟩
  exact .pure ⟨hsame, htokens⟩
termination_by 4 * s.size
decreasing_by all_goals omega

theorem stmts_again (s : TokenStream) :
    Ensures (stmts s) fun r => ∀ t rest,
      Starts t.tokens (Stmt.piecesEach r.value ++ [.mark .rbrace]) rest →
      Gives (stmts t) fun r' => Stmt.unspannedEach r'.value = Stmt.unspannedEach r.value ∧
        r'.rest.tokens = rest := by
  rw [stmts]
  split
  · refine .ok fun t rest ht => ?_
    obtain ⟨r', htake, ht⟩ := exists_take? ht
    rw [stmts, htake]
    exact .ok ⟨rfl, ht.eq_of_nil⟩
  · rename_i hclose
    split
    · exact .error
    · rename_i hend
      refine (stmt_again _).bind ?_
      rintro ⟨first, s₁, h₁⟩ ⟨hlead, hfirst⟩
      refine (stmts_again _).bind ?_
      rintro ⟨body, s₂, h₂⟩ hbody
      refine .pure fun t rest ht => ?_
      -- The second text starts with the same kind of token, so the list does not end there either.
      have hhead : headKind t.tokens = headKind s.tokens :=
        ht.headKind_of_leads (by simp [Stmt.piecesEach, hlead])
      have hstart : Starts t.tokens ((first.pieces ++ [.optional .semi]) ++
          (Stmt.piecesEach body ++ [.mark .rbrace])) rest := by
        simpa [Stmt.piecesEach] using ht
      obtain ⟨mid, hstart, ht⟩ := hstart.append
      rw [s.kind_eq_headKind, ← hhead, ← t.kind_eq_headKind] at hend
      rw [stmts, take?_of_headKind_eq hclose hhead]
      dsimp only
      rw [if_neg hend]
      refine (hfirst t mid hstart).bind ?_
      rintro ⟨first', t₁, ht₁⟩ ⟨hsame, rfl⟩
      refine (hbody t₁ rest ht).bind ?_
      rintro ⟨body', t₂, ht₂⟩ ⟨hbody', htokens⟩
      exact .pure ⟨by simp [Stmt.unspannedEach, hsame, hbody'], htokens⟩
termination_by 4 * s.size + 3
decreasing_by all_goals omega

/-- Branches are read again before a semicolon. -/
theorem otherBranches_again (s : TokenStream) :
    Ensures (otherBranches s) fun r => ∀ t rest,
      Starts t.tokens (Branch.piecesEach r.value) rest → headKind rest = .semi →
      Gives (otherBranches t) fun r' =>
        Branch.unspannedEach r'.value = Branch.unspannedEach r.value ∧ r'.rest.tokens = rest := by
  rw [otherBranches]
  split
  · refine (expr_again _).bind ?_
    rintro ⟨cond, s₂, h₂⟩ ⟨-, hcond⟩
    refine (block_again _).bind ?_
    rintro ⟨⟨body, bodySpan⟩, s₃, h₃⟩ ⟨-, hbody⟩
    refine (otherBranches_again _).bind ?_
    rintro ⟨branches, s₄, h₄⟩ hbranches
    refine .pure fun t rest ht hrest => ?_
    simp only [Branch.piecesEach, Branch.pieces, Guard.pieces, List.cons_append,
      List.append_assoc] at ht
    obtain ⟨⟨_, t₁, ht₁⟩, htake, ht⟩ := exists_take? ht
    obtain ⟨mid, hstart, ht⟩ := ht.append
    rw [otherBranches, htake]
    refine (hcond t₁ mid hstart (by rw [ht.headKind_of_leads rfl]; rfl)).bind ?_
    rintro ⟨cond', t₂, ht₂⟩ ⟨hcond', rfl⟩
    obtain ⟨mid, hstart, ht⟩ := ht.append
    refine (hbody t₂ mid hstart).bind ?_
    rintro ⟨⟨body', bodySpan'⟩, t₃, ht₃⟩ ⟨hbody', rfl⟩
    refine (hbranches t₃ rest ht hrest).bind ?_
    rintro ⟨branches', t₄, ht₄⟩ ⟨hbranches', htokens⟩
    refine .pure ⟨?_, htokens⟩
    simp [Branch.unspannedEach, Branch.unspanned, Guard.unspanned, hcond', hbody', hbranches']
  · split
    · refine (block_again _).bind ?_
      rintro ⟨⟨body, bodySpan⟩, s₂, h₂⟩ ⟨-, hbody⟩
      refine .pure fun t rest ht _ => ?_
      simp only [Branch.piecesEach, Branch.pieces, Guard.pieces, List.cons_append, List.nil_append,
        List.append_nil] at ht
      have hhead := ht.headKind_of_leads rfl
      obtain ⟨⟨_, t₁, ht₁⟩, htake, ht⟩ := exists_take? ht
      rw [otherBranches, take?_of_headKind hhead, htake]
      refine (hbody t₁ rest ht).bind ?_
      rintro ⟨⟨body', bodySpan'⟩, t₂, ht₂⟩ ⟨hbody', htokens⟩
      refine .pure ⟨?_, htokens⟩
      simp [Branch.unspannedEach, Branch.unspanned, Guard.unspanned, hbody']
    -- No further branch: the semicolon that follows starts none.
    · refine .ok fun t rest ht hrest => ?_
      have htokens := ht.eq_of_nil
      rw [otherBranches, take?_of_headKind (htokens ▸ hrest),
        take?_of_headKind (htokens ▸ hrest)]
      exact .ok ⟨rfl, htokens⟩
termination_by 4 * s.size
decreasing_by all_goals omega

end

/-! ## Units -/

theorem includeTail_again (s : TokenStream) :
    Ensures (includeTail s) fun r => ∀ t rest,
      Starts t.tokens (Piece.tailed .slash (r.value.map ([·.piece]))) rest → headKind rest = .semi →
      Gives (includeTail t) fun r' =>
        r'.value.map (·.unspanned) = r.value.map (·.unspanned) ∧ r'.rest.tokens = rest := by
  rw [includeTail]
  split
  · refine .ok fun t rest ht hrest => ?_
    have htokens := ht.eq_of_nil
    rw [includeTail, take?_of_headKind (htokens ▸ hrest)]
    exact .ok ⟨rfl, htokens⟩
  · refine (ident_reads _).bind ?_
    rintro ⟨name, s₂, h₂⟩ -
    refine (includeTail_again _).bind ?_
    rintro ⟨names, s₃, h₃⟩ hmore
    refine .pure fun t rest ht hrest => ?_
    obtain ⟨⟨_, t₁, ht₁⟩, htake, ht⟩ := exists_take? ht
    rw [includeTail, htake]
    refine (ident_gives ht).bind ?_
    rintro ⟨name', t₂, ht₂⟩ ⟨hname, ht⟩
    refine (hmore t₂ rest ht hrest).bind ?_
    rintro ⟨names', t₃, ht₃⟩ ⟨hnames, htokens⟩
    exact .pure ⟨by simp [hname, hnames], htokens⟩
termination_by s.size
decreasing_by all_goals omega

theorem defaultValue_again (s : TokenStream) :
    Ensures (defaultValue s) fun r => ∀ t rest,
      Starts t.tokens (Expr.initialPieces r.value) rest →
      headKind rest = .comma ∨ headKind rest = .rparen →
      Gives (defaultValue t) fun r' =>
        r'.value.map (·.unspanned) = r.value.map (·.unspanned) ∧ r'.rest.tokens = rest := by
  unfold defaultValue
  split
  · refine .ok fun t rest ht hrest => ?_
    have htokens := ht.eq_of_nil
    rw [take?_of_ne (by rw [htokens]; obtain h | h := hrest <;> rw [h] <;> decide)]
    exact .ok ⟨rfl, htokens⟩
  · refine (expr_again _).bind ?_
    rintro ⟨value, s₂, h₂⟩ ⟨-, hvalue⟩
    refine .pure fun t rest ht hrest => ?_
    obtain ⟨⟨_, t₁, ht₁⟩, htake, ht⟩ := exists_take? ht
    rw [htake]
    refine (hvalue t₁ rest ht (by obtain h | h := hrest <;> rw [h] <;> rfl)).bind ?_
    rintro ⟨value', t₂, ht₂⟩ ⟨hsame, htokens⟩
    exact .pure ⟨congrArg some hsame, htokens⟩

theorem params_eq_nil {params : List Param} {rest : Rest TypeExpr}
    (h : params.map (·.pieces) ++ Rest.items rest = []) : params = [] ∧ rest = .none := by
  cases params <;> cases rest <;> first | exact ⟨rfl, rfl⟩ | exact nomatch h

theorem isSome_of_unspanned {a b : Option Expr}
    (h : a.map (·.unspanned) = b.map (·.unspanned)) : a.isSome = b.isSome := by
  simpa using congrArg Option.isSome h

theorem paramList_again (needsDefault : Bool) (s : TokenStream) :
    Ensures (paramList needsDefault s) fun r => ∀ t rest,
      Starts t.tokens (Piece.closing (r.value.1.map (·.pieces) ++ Rest.items r.value.2)) rest →
      Gives (paramList needsDefault t) fun r' =>
        r'.value.1.map (·.unspanned) = r.value.1.map (·.unspanned) ∧
        Rest.unspanned r'.value.2 = Rest.unspanned r.value.2 ∧ r'.rest.tokens = rest := by
  rw [paramList]
  split
  · refine .ok fun t rest ht => ?_
    obtain ⟨r', htake, ht⟩ := exists_take? ht
    rw [paramList, htake]
    exact .ok ⟨rfl, rfl, ht.eq_of_nil⟩
  · rename_i hrparen
    split
    · refine (closeRest_reads _).bind ?_
      rintro ⟨_, s₂, h₂⟩ -
      refine .pure fun t rest ht => ?_
      have hhead := ht.headKind_of_leads rfl
      obtain ⟨⟨_, t₁, ht₁⟩, htake, ht⟩ := exists_take? ht
      rw [paramList, take?_of_headKind hhead, htake]
      refine (closeRest_gives ht).bind ?_
      rintro ⟨_, t₂, ht₂⟩ ht
      exact .pure ⟨rfl, rfl, ht.eq_of_nil⟩
    · rename_i hellipsis
      refine (typeExpr_again _).bind ?_
      rintro ⟨ty, s₁, h₁⟩ ⟨hlead, hty⟩
      -- A list that starts with a type neither ends nor has an ellipsis there.
      have hfirst : ∀ (t : TokenStream), headKind t.tokens = headKind s.tokens →
          t.take? .rparen = none ∧ t.take? .ellipsis = none := fun t hhead =>
        ⟨take?_of_headKind_eq hrparen hhead,
          take?_of_headKind_eq hellipsis hhead⟩
      dsimp only
      split
      · refine (closeRest_reads _).bind ?_
        rintro ⟨_, s₃, h₃⟩ -
        refine .pure fun t rest ht => ?_
        simp only [List.map_nil, Rest.items, List.nil_append, Piece.closing_singleton,
          List.append_assoc, List.cons_append] at ht
        obtain ⟨hnone, hnone'⟩ := hfirst t (ht.headKind_of_leads (by simp [hlead]))
        obtain ⟨mid, hstart, ht⟩ := ht.append
        rw [paramList, hnone, hnone']
        refine (hty t mid hstart (by rw [ht.headKind_of_leads rfl]; decide)).bind ?_
        rintro ⟨ty', t₁, ht₁⟩ ⟨hsame, rfl⟩
        obtain ⟨⟨_, t₂, ht₂⟩, htake, ht⟩ := exists_take? ht
        dsimp only at htake ⊢
        rw [htake]
        refine (closeRest_gives ht).bind ?_
        rintro ⟨_, t₃, ht₃⟩ ht
        exact .pure ⟨rfl, by simp [Rest.unspanned, hsame], ht.eq_of_nil⟩
      · refine (ident_reads _).bind ?_
        rintro ⟨name, s₂, h₂⟩ -
        refine (defaultValue_again s₂).bind ?_
        rintro ⟨default, s₃, h₃⟩ hdefault
        dsimp only
        split
        · exact .error
        · rename_i hneeds
          -- One parameter before a list that is read again, or before the end of the list.
          have hitem : ∀ params rest,
              (params.map (·.pieces) ++ Rest.items rest ≠ [] → ∀ t stop,
                Starts t.tokens (Piece.closing (params.map (·.pieces) ++ Rest.items rest)) stop →
                Gives (paramList default.isSome t) fun r' =>
                  r'.value.1.map (·.unspanned) = params.map (·.unspanned) ∧
                  Rest.unspanned r'.value.2 = Rest.unspanned rest ∧ r'.rest.tokens = stop) →
              ∀ t stop, Starts t.tokens (Piece.closing
                  ((Param.mk ty name default).pieces :: (params.map (·.pieces) ++ Rest.items rest)))
                  stop →
                Gives (paramList needsDefault t) fun r' =>
                  r'.value.1.map (·.unspanned) =
                    (Param.mk ty name default :: params).map (·.unspanned) ∧
                  Rest.unspanned r'.value.2 = Rest.unspanned rest ∧ r'.rest.tokens = stop := by
            intro params rest hmore t stop ht
            obtain ⟨hnone, hnone'⟩ := hfirst t
              (ht.headKind_of_leads (leads_closing_cons (by simp [Param.pieces, hlead]) _))
            obtain ⟨mid, hstart, hmid⟩ := ht.item
            have hhead : headKind mid = .comma ∨ headKind mid = .rparen :=
              hmid.symm.imp (·.2.1) (·.2.1)
            obtain ⟨mid', hstart, hname⟩ := hstart.append
            have hident : headKind mid' = .ident := hname.headKind_of_leads rfl
            rw [paramList, hnone, hnone']
            refine (hty t mid' hstart (by rw [hident]; decide)).bind ?_
            rintro ⟨ty', t₁, ht₁⟩ ⟨hsame, rfl⟩
            dsimp only at hident ⊢
            rw [take?_of_headKind hident]
            refine (ident_gives hname).bind ?_
            rintro ⟨name', t₂, ht₂⟩ ⟨hname', hstart⟩
            refine (hdefault t₂ mid hstart hhead).bind ?_
            rintro ⟨default', t₃, ht₃⟩ ⟨hdefault', rfl⟩
            have hsome := isSome_of_unspanned hdefault'
            have hparam : (Param.mk ty' name' default').unspanned =
                (Param.mk ty name default).unspanned := by
              simp only [Param.unspanned, hsame, hname', hdefault']
            dsimp only at hmid hsome ⊢
            -- The default is missing in the second text only if it is in the first.
            rw [if_neg (by rwa [← Option.not_isSome, hsome, Option.not_isSome])]
            obtain ⟨hitems, hhead, hclose⟩ | ⟨hitems, -, ht⟩ := hmid
            · obtain ⟨rfl, rfl⟩ := params_eq_nil hitems
              rw [take?_of_headKind hhead]
              refine (closeList_gives hclose).bind ?_
              rintro ⟨_, t₄, ht₄⟩ hclose
              exact .pure ⟨by simp [hparam], rfl, hclose.eq_of_nil⟩
            · obtain ⟨⟨_, t₄, ht₄⟩, htake, ht⟩ := exists_take? ht
              rw [htake, hsome]
              refine (hmore hitems t₄ stop ht).bind ?_
              rintro ⟨⟨params', rest'⟩, t₅, ht₅⟩ ⟨hparams, hrest, htokens⟩
              exact .pure ⟨by simp [hparam, hparams], hrest, htokens⟩
          split
          · refine (paramList_again _ _).bind ?_
            rintro ⟨⟨params, rest⟩, s₅, h₅⟩ hmore
            exact .pure (hitem params rest fun _ => hmore)
          · refine (closeList_reads _).bind ?_
            rintro ⟨_, s₄, h₄⟩ -
            exact .pure (hitem [] .none fun h => absurd rfl h)
termination_by s.size
decreasing_by all_goals omega

/-- The body of a function is read again before a semicolon. -/
theorem functionBody_again (s : TokenStream) :
    Ensures (functionBody s) fun r => ∀ t rest,
      Starts t.tokens ((r.value.map fun body => Piece.braced (Stmt.piecesEach body)).getD []) rest →
      headKind rest = .semi →
      Gives (functionBody t) fun r' =>
        r'.value.map Stmt.unspannedEach = r.value.map Stmt.unspannedEach ∧
        r'.rest.tokens = rest := by
  unfold functionBody
  split
  · refine (block_again s).map ?_
    rintro ⟨⟨body, span⟩, s₁, h₁⟩ ⟨-, hbody⟩ t rest ht -
    rw [if_pos (t.kind_eq_headKind.trans (ht.headKind_of_leads rfl))]
    refine (hbody t rest ht).map ?_
    rintro ⟨⟨body', span'⟩, t₁, ht₁⟩ ⟨hsame, htokens⟩
    exact ⟨congrArg some hsame, htokens⟩
  · refine .ok fun t rest ht hrest => ?_
    have htokens := ht.eq_of_nil
    rw [if_neg (by rw [t.kind_eq_headKind, htokens, hrest]; decide)]
    exact .ok ⟨rfl, htokens⟩

/-- A part of a unit is read again before a semicolon. -/
theorem node_again (s : TokenStream) :
    Ensures (node s) fun r => leads r.value.pieces = some (headKind s.tokens) ∧
      ∀ t rest, Starts t.tokens r.value.pieces rest → headKind rest = .semi →
        Gives (node t) fun r' =>
          r'.value.unspanned = r.value.unspanned ∧ r'.rest.tokens = rest := by
  unfold node
  split
  · rename_i hinclude
    refine (ident_reads _).bind ?_
    rintro ⟨first, s₂, h₂⟩ -
    refine (includeTail_again _).bind ?_
    rintro ⟨more, s₃, h₃⟩ hmore
    refine .pure ⟨by simp [Node.pieces, headKind_of_take? hinclude], fun t rest ht hrest => ?_⟩
    obtain ⟨⟨_, t₁, ht₁⟩, htake, ht⟩ := exists_take? ht
    rw [htake]
    refine (ident_gives ht).bind ?_
    rintro ⟨first', t₂, ht₂⟩ ⟨hfirst, ht⟩
    refine (hmore t₂ rest ht hrest).bind ?_
    rintro ⟨more', t₃, ht₃⟩ ⟨hmore', htokens⟩
    exact .pure ⟨by simp [Node.unspanned, hfirst, hmore'], htokens⟩
  · rename_i hinclude
    split
    · rename_i halias
      refine (typeExpr_again _).bind ?_
      rintro ⟨target, s₂, h₂⟩ ⟨-, htarget⟩
      refine (ident_reads _).bind ?_
      rintro ⟨name, s₃, h₃⟩ -
      refine .pure ⟨by simp [Node.pieces, headKind_of_take? halias], fun t rest ht _ => ?_⟩
      have hhead := ht.headKind_of_leads rfl
      obtain ⟨⟨_, t₁, ht₁⟩, htake, ht⟩ := exists_take? ht
      obtain ⟨mid, hstart, ht⟩ := ht.append
      rw [take?_of_headKind hhead, htake]
      refine (htarget t₁ mid hstart (by rw [ht.headKind_of_leads rfl]; decide)).bind ?_
      rintro ⟨target', t₂, ht₂⟩ ⟨htarget', rfl⟩
      refine (ident_gives ht).bind ?_
      rintro ⟨name', t₃, ht₃⟩ ⟨hname, ht⟩
      exact .pure ⟨by simp [Node.unspanned, htarget', hname], ht.eq_of_nil⟩
    · rename_i halias
      refine (typeExpr_again _).bind ?_
      rintro ⟨ty, s₁, h₁⟩ ⟨hlead, hty⟩
      refine (ident_reads _).bind ?_
      rintro ⟨name, s₂, h₂⟩ -
      -- Neither text starts with a word for an include or an alias.
      have hfirst : ∀ (t : TokenStream), headKind t.tokens = headKind s.tokens →
          t.take? .kwInclude = none ∧ t.take? .kwAlias = none := fun t hhead =>
        ⟨take?_of_headKind_eq hinclude hhead,
          take?_of_headKind_eq halias hhead⟩
      dsimp only
      split
      · refine (paramList_again _ _).bind ?_
        rintro ⟨⟨params, rest⟩, s₄, h₄⟩ hparams
        refine (functionBody_again _).bind ?_
        rintro ⟨body, s₅, h₅⟩ hbody
        refine .pure ⟨by simp [Node.pieces, hlead], fun t stop ht hstop => ?_⟩
        simp only [Node.pieces, List.append_assoc, List.cons_append] at ht
        obtain ⟨hnone, hnone'⟩ := hfirst t (ht.headKind_of_leads (by simp [hlead]))
        obtain ⟨mid, hstart, ht⟩ := ht.append
        rw [hnone, hnone']
        refine (hty t mid hstart (by rw [ht.headKind_of_leads rfl]; decide)).bind ?_
        rintro ⟨ty', t₁, ht₁⟩ ⟨hty', rfl⟩
        refine (ident_gives ht).bind ?_
        rintro ⟨name', t₂, ht₂⟩ ⟨hname, ht⟩
        obtain ⟨⟨_, t₃, ht₃⟩, htake, ht⟩ := exists_take? ht
        obtain ⟨mid, hstart, ht⟩ := ht.append
        dsimp only at htake ⊢
        rw [htake]
        refine (hparams t₃ mid hstart).bind ?_
        rintro ⟨⟨params', rest'⟩, t₄, ht₄⟩ ⟨hparams', hrest, rfl⟩
        refine (hbody t₄ stop ht hstop).bind ?_
        rintro ⟨body', t₅, ht₅⟩ ⟨hbody', htokens⟩
        refine .pure ⟨?_, htokens⟩
        simp only [Node.unspanned, hty', hname, hparams', hrest, hbody']
      · refine (varDecl_again _ _ _).bind ?_
        rintro ⟨var, s₃, h₃⟩ ⟨hpieces, hvar⟩
        refine .pure ⟨by simp [Node.pieces, hpieces, hlead], fun t rest ht hrest => ?_⟩
        simp only [Node.pieces, hpieces] at ht
        obtain ⟨hnone, hnone'⟩ := hfirst t (ht.headKind_of_leads (by simp [hlead]))
        obtain ⟨mid, hstart, ht⟩ := ht.append
        rw [hnone, hnone']
        refine (hty t mid hstart (by rw [ht.headKind_of_leads rfl]; decide)).bind ?_
        rintro ⟨ty', t₁, ht₁⟩ ⟨hty', rfl⟩
        refine (ident_gives ht).bind ?_
        rintro ⟨name', t₂, ht₂⟩ ⟨hname, ht⟩
        -- What follows the name of a global starts its initial value or ends it.
        have hlparen : headKind t₂.tokens ≠ .lparen := headKind_initial_ne ht hrest
        dsimp only
        rw [take?_of_ne hlparen]
        refine (hvar ty' name' t₂ rest hty' hname ht hrest).bind ?_
        rintro ⟨var', t₃, ht₃⟩ ⟨hvar', htokens⟩
        exact .pure ⟨by simp [Node.unspanned, hvar'], htokens⟩

/-- The parts of a unit are read again up to the end. -/
theorem nodes_again (s : TokenStream) :
    Ensures (nodes s) fun ns => ∀ t, Starts t.tokens (Node.piecesEach ns) [] →
      Gives (nodes t) fun ns' => ns'.map (·.unspanned) = ns.map (·.unspanned) := by
  rw [nodes]
  split
  · refine .ok fun t ht => ?_
    rw [nodes, if_pos (by rw [t.kind_eq_headKind, ht.eq_of_nil]; rfl)]
    exact .ok rfl
  · rename_i hend
    refine (node_again s).bind ?_
    rintro ⟨first, s₁, h₁⟩ ⟨hlead, hfirst⟩
    have := (s₁.skip .semi).notLonger
    refine (nodes_again _).bind fun more hmore => .pure fun t ht => ?_
    rw [Node.piecesEach, List.flatMap_cons] at ht
    have hhead : headKind t.tokens = headKind s.tokens := ht.headKind_of_leads (by simp [hlead])
    rw [s.kind_eq_headKind, ← hhead, ← t.kind_eq_headKind] at hend
    obtain ⟨after, ht, hrest⟩ := ht.append
    obtain ⟨mid, hstart, ht⟩ := ht.append
    rw [nodes, if_neg hend]
    refine (hfirst t mid hstart (ht.headKind_of_leads rfl)).bind ?_
    rintro ⟨first', t₁, ht₁⟩ ⟨hsame, rfl⟩
    refine (hmore (t₁.skip .semi).rest ?_).bind fun more' hmore' => .pure ?_
    · rw [(skip_semi ht).eq_of_nil]
      exact hrest
    · simp [hsame, hmore']
termination_by s.size
decreasing_by all_goals omega

end Parser

/-- **Parsing inverts printing.** The text of a unit that was parsed is a unit, which is the same up
to spans. -/
theorem parse_print_again {file : Nat} {text : String} {unit : SourceUnit}
    (h : SourceUnit.parse file text = .ok unit) :
    ∃ again, SourceUnit.parse file unit.print = .ok again ∧ again.unspanned = unit.unspanned := by
  obtain ⟨tokens, nodes, hlex, hnodes, rfl⟩ := SourceUnit.parse_eq_ok.mp h
  have hlegible : ∀ p ∈ Node.piecesEach nodes, p.Legible :=
    (Parser.spells_of_nodes hlex hnodes).legible fun _ => Lexer.lexed_of_mem_lex hlex
  obtain ⟨printed, hlex', hprinted⟩ := lex_printed hlegible file
  obtain ⟨again, hagain, hsame⟩ := Parser.nodes_again _ nodes hnodes ⟨_, printed, _⟩
    ⟨printed, (List.append_nil _).symm, hprinted⟩
  exact ⟨⟨file, again⟩, SourceUnit.parse_eq_ok.mpr ⟨printed, again, hlex', hagain, rfl⟩,
    by simp [SourceUnit.unspanned, hsame]⟩

/-- A line break keeps a name from being declared, and a semicolon does so in print. -/
theorem line_break_read_again : ∃ unit again,
    SourceUnit.parse 0 "int f(int[0x4] a,) \x7b a\nb; int b = a[1] >> 1 \x7d" = .ok unit ∧
    unit.print = "int f ( int [ 4 ] a ) { a ; b ; int b = a [ 1 ] >> 1 ; } ;" ∧
    SourceUnit.parse 0 unit.print = .ok again ∧ again.unspanned = unit.unspanned := by
  have hok : ((SourceUnit.parse 0
      "int f(int[0x4] a,) \x7b a\nb; int b = a[1] >> 1 \x7d").toOption.any fun unit =>
      unit.print == "int f ( int [ 4 ] a ) { a ; b ; int b = a [ 1 ] >> 1 ; } ;") = true := by
    rw [SourceUnit.parse_ofList]
    decide +kernel
  obtain ⟨unit, hparse, hprint⟩ := SourceUnit.exists_parsed hok
  obtain ⟨again, hagain, hsame⟩ := parse_print_again hparse
  exact ⟨unit, again, hparse, eq_of_beq hprint, hagain, hsame⟩

end KilnLang
