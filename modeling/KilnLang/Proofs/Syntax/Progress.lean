import KilnLang.Proofs.Syntax.CursorSteps
import KilnLang.Proofs.Token.Tiling

/-!
# Parsing ends within the tokens

**Theorem (`parsing_ends_within_tokens`).** For any tokens among which there is an end, parsing them
by positions ends, with at most four nested calls for each token, and no position is behind the
first end. Each part of a unit that is read takes at least one token. Where the head of a local
variable does not fit, the position goes back, but what is read there next fails or takes a token.

None of this is assumed of the tokens: `bump` stays where it is at the end, and a loop would go on
there forever if it did not look for the end. It holds because the readers follow the parsers of
streams, each of which leaves a shorter stream (`Steps`), or no longer one (`Pauses`).
-/

namespace KilnLang.Cursor

section Statements

variable {ts : List Token} {depth p q : Nat} {s : TokenStream} {k : TokenKind}

/-! ## Statements -/

theorem exprFrom_pauses (first : Value) (h : At ts p s) (hpos : 0 < p) (hd : 4 * s.size < depth) :
    Pauses ts (exprFrom ts depth first) p (Parser.exprFrom first s) := by
  rw [exprFrom, Parser.exprFrom]
  refine (chainTail_pauses first h hd).bind fun chain s₁ hle₁ q₁ h₁ => ?_
  refine .previousSpan h₁ (hpos.trans_le (h.le_of_notLonger h₁ hle₁)) ?_
  exact .pure ⟨rfl, h₁⟩

theorem varDecl_pauses (ty : TypeExpr) (name : Ident) (h : At ts p s) (hpos : 0 < p)
    (hd : 4 * s.size < depth) :
    Pauses ts (varDecl ts depth ty name) p (Parser.varDecl ty name s) := by
  rw [varDecl, Parser.varDecl]
  split
  · rename_i ht
    exact .untaken h (by decide) ht (.previousSpan h hpos (.pure ⟨rfl, h⟩))
  · rename_i ht
    refine .taken h ht fun h₁ => (expr_steps h₁ (by omega)).bind fun init s₂ hlt₂ q₂ h₂ => ?_
    refine .previousSpan h₂ (h₁.pos_of_shorter h₂ hlt₂) ?_
    exact .pure ⟨rfl, h₂⟩

theorem newlineBefore_eq (h : At ts p s) (hpos : 0 < p) :
    ∃ fresh, newlineBefore ts p = some (.ok fresh, p) ∧ (s.kind ≠ .eof → fresh = s.peek.fresh) := by
  obtain ⟨t, hpeek, -, -, heq⟩ := h.peek
  have hposition : position p = some (.ok p, p) := rfl
  refine ⟨t.fresh, ?_, fun hend => by rw [heq hend]⟩
  rw [newlineBefore, bind_ok hpeek, bind_ok hposition, decide_eq_true hpos.ne']
  rfl

/-- The head of a local variable is read, or the position is the old one. -/
theorem localHead?_eq (h : At ts p s) (hd : 4 * s.size < depth) :
    match Parser.localHead? s with
    | none => localHead? ts depth p = some (.ok none, p)
    | some ⟨head, rest, _⟩ =>
      ∃ q, localHead? ts depth p = some (.ok (some head), q) ∧ At ts q rest := by
  have hposition : position p = some (.ok p, p) := rfl
  have htype := typeExpr_steps h hd
  rw [localHead?, bind_ok hposition, Parser.localHead?]
  cases hrun : Parser.typeExpr s with
  | error e =>
    rw [hrun] at htype
    obtain ⟨q, -, hq⟩ := htype
    -- The attempt fails without an error, and the cursor goes back to where it was.
    have hattempt : attempt (typeExpr ts depth) p = some (.ok (.error e), q) := by
      rw [attempt, hq]
      rfl
    rw [bind_ok hattempt]
    rfl
  | ok step =>
    obtain ⟨ty, s₁, hlt₁⟩ := step
    rw [hrun] at htype
    obtain ⟨_, q, hq, rfl, h₁⟩ := htype
    have hattempt : attempt (typeExpr ts depth) p = some (.ok (.ok ty), q) := by
      rw [attempt, hq]
      rfl
    -- A name on the next line starts a statement of its own.
    obtain ⟨fresh, hnewline, hfresh⟩ := newlineBefore_eq h₁ (h.pos_of_shorter h₁ hlt₁)
    rw [bind_ok hattempt]
    dsimp only
    rw [bind_ok h₁.sees, bind_ok hnewline]
    cases hname : s₁.take? .ident with
    | none =>
      rw [decide_eq_false (kind_ne_of_take?_eq_none (by decide) hname)]
      rfl
    | some step =>
      obtain ⟨name, s₂, hlt₂⟩ := step
      have hident : ident ts q = some (.ok ⟨name.text, name.span⟩, q + 1) := by
        rw [ident, bind_ok (h₁.expect hname)]
        rfl
      rw [decide_eq_true (kind_of_take? hname), hfresh (h₁.kind_ne_eof hname),
        (take?_eq_some hname).2.2.1]
      cases hline : name.fresh with
      | true =>
        dsimp only
        rw [if_pos hline]
        rfl
      | false =>
        dsimp only
        rw [if_neg (ne_true_of_eq_false hline)]
        refine ⟨q + 1, ?_, h₁.taken hname⟩
        rw [if_neg (by decide), bind_ok hident]
        rfl

/-- Where no local variable can be read, an assignment or an expression has to be. -/
theorem exprStmt_steps (h : At ts p s) (hd : 4 * s.size < depth)
    (hhead : Parser.localHead? s = none) :
    Steps ts (exprStmt ts depth) p (Parser.simpleStmt s) := by
  rw [exprStmt, Parser.simpleStmt, hhead]
  refine (operand_steps h (by omega)).bind fun first s₁ hlt₁ q₁ h₁ => ?_
  refine .peeked h₁ fun t hkind hspan heq => ?_
  rw [hkind]
  cases hop : Parser.assignOp? s₁.kind with
  | some op =>
    have hend : s₁.kind ≠ .eof := fun hk => nomatch hk ▸ hop
    obtain ⟨_, s₂, hlt₂, hadvance⟩ := exists_advance? hend
    dsimp only
    rw [hop, hadvance]
    refine .bumped h₁ hadvance fun h₂ => ?_
    refine (expr_steps h₂ (by omega)).bind fun value s₃ hlt₃ q₃ h₃ => ?_
    exact .pure ⟨rfl, h₃⟩
  | none =>
    dsimp only
    rw [hop]
    have hpos := h.pos_of_shorter h₁ hlt₁
    refine (exprFrom_pauses first h₁ hpos (by omega)).bind fun value s₂ hle₂ q₂ h₂ => ?_
    exact .pure ⟨rfl, h₂⟩

theorem localVar?_none (h : At ts p s) (hd : 4 * s.size < depth)
    (hhead : Parser.localHead? s = none) : localVar? ts depth p = some (.ok none, p) := by
  have heq := localHead?_eq h hd
  rw [hhead] at heq
  rw [localVar?, bind_ok heq]
  rfl

theorem simpleStmt_steps (h : At ts p s) (hd : 4 * s.size < depth) :
    Steps ts (simpleStmt ts depth) p (Parser.simpleStmt s) := by
  cases hhead : Parser.localHead? s with
  | none => exact Follows.congr (bind_ok (localVar?_none h hd hhead)) (exprStmt_steps h hd hhead)
  | some step =>
    obtain ⟨⟨ty, name⟩, s₁, hlt₁⟩ := step
    have heq := localHead?_eq h hd
    rw [hhead] at heq
    obtain ⟨q₁, hread, h₁⟩ := heq
    rw [simpleStmt, localVar?, bind_assoc, Parser.simpleStmt, hhead]
    refine Follows.congr (bind_ok hread) ?_
    dsimp only
    rw [bind_assoc]
    have hpos := h.pos_of_shorter h₁ hlt₁
    refine (varDecl_pauses ty name h₁ hpos (by omega)).bind fun var s₂ hle₂ q₂ h₂ => ?_
    rw [pure_bind]
    exact .pure ⟨rfl, h₂⟩

theorem returnValue_pauses (h : At ts p s) (hd : 4 * s.size + 1 < depth) :
    Pauses ts (returnValue ts depth) p (Parser.returnValue s) := by
  rw [returnValue, Parser.returnValue]
  refine .peeked h fun t hkind hspan heq => ?_
  rw [hkind]
  split_ifs
  · exact .pure ⟨rfl, h⟩
  · exact (expr_steps h (by omega)).map fun _ _ _ _ h₁ => .pure ⟨rfl, h₁⟩

mutual

theorem stmt_steps {depth p : Nat} {s : TokenStream} (h : At ts p s)
    (hd : 4 * s.size + 2 < depth) : Steps ts (stmt ts depth) p (Parser.stmt s) := by
  obtain ⟨depth, rfl⟩ := Nat.exists_eq_add_one_of_ne_zero (Nat.ne_zero_of_lt hd)
  rw [stmt, Parser.stmt]
  refine (bareStmt_steps h (by omega)).bind fun first s₁ hlt₁ q₁ h₁ => ?_
  obtain ⟨_, q₂, htake, h₂⟩ := skip_pauses h₁ (k := .semi) (by decide)
  exact Follows.congr (bind_ok htake) (.pure ⟨rfl, h₂⟩)
termination_by 4 * s.size + 2
decreasing_by all_goals omega

theorem bareStmt_steps {depth p : Nat} {s : TokenStream} (h : At ts p s)
    (hd : 4 * s.size + 1 < depth) : Steps ts (bareStmt ts depth) p (Parser.bareStmt s) := by
  obtain ⟨depth, rfl⟩ := Nat.exists_eq_add_one_of_ne_zero (Nat.ne_zero_of_lt hd)
  rw [bareStmt, Parser.bareStmt]
  cases hif : s.take? .kwIf with
  | some step =>
    obtain ⟨start, s₁, hlt₁⟩ := step
    refine .taken h hif fun h₁ => (expr_steps h₁ (by omega)).bind fun cond s₂ hlt₂ q₂ h₂ => ?_
    refine (block_steps h₂ (by omega)).bind fun ⟨body, span⟩ s₃ hlt₃ q₃ h₃ => ?_
    refine (otherBranches_pauses h₃ (by omega)).bind fun branches s₄ hlt₄ q₄ h₄ => ?_
    exact .pure ⟨rfl, h₄⟩
  | none =>
    refine .untaken h (by decide) hif ?_
    cases hwhile : s.take? .kwWhile with
    | some step =>
      obtain ⟨start, s₁, hlt₁⟩ := step
      refine .taken h hwhile fun h₁ => (expr_steps h₁ (by omega)).bind fun cond s₂ hlt₂ q₂ h₂ => ?_
      refine (block_steps h₂ (by omega)).bind fun ⟨body, span⟩ s₃ hlt₃ q₃ h₃ => ?_
      exact .pure ⟨rfl, h₃⟩
    | none =>
      refine .untaken h (by decide) hwhile ?_
      cases hreturn : s.take? .kwReturn with
      | some step =>
        obtain ⟨start, s₁, hlt₁⟩ := step
        refine .taken h hreturn fun h₁ => ?_
        refine (returnValue_pauses h₁ (by omega)).bind fun value s₂ hle₂ q₂ h₂ => ?_
        refine .previousSpan h₂ (p.succ_pos.trans_le (h₁.le_of_notLonger h₂ hle₂)) ?_
        exact .pure ⟨rfl, h₂⟩
      | none =>
        refine .untaken h (by decide) hreturn (.sees h ?_)
        dsimp only
        simp only [decide_eq_true_eq]
        split_ifs
        · refine (block_steps h (by omega)).bind fun ⟨body, span⟩ s₁ hlt₁ q₁ h₁ => ?_
          exact .pure ⟨rfl, h₁⟩
        · exact simpleStmt_steps h (by omega)
termination_by 4 * s.size + 1
decreasing_by all_goals omega

theorem block_steps {depth p : Nat} {s : TokenStream} (h : At ts p s)
    (hd : 4 * s.size < depth) : Steps ts (block ts depth) p (Parser.block s) := by
  obtain ⟨depth, rfl⟩ := Nat.exists_eq_add_one_of_ne_zero (Nat.ne_zero_of_lt hd)
  rw [block, Parser.block]
  refine (expect_steps h (by decide)).bind fun start s₁ hlt₁ q₁ h₁ => ?_
  refine (stmts_steps h₁ (by omega)).bind fun body s₂ hlt₂ q₂ h₂ => ?_
  refine .previousSpan h₂ (h₁.pos_of_shorter h₂ hlt₂) ?_
  exact .pure ⟨rfl, h₂⟩
termination_by 4 * s.size
decreasing_by all_goals omega

theorem stmts_steps {depth p : Nat} {s : TokenStream} (h : At ts p s)
    (hd : 4 * s.size + 3 < depth) : Steps ts (stmts ts depth) p (Parser.stmts s) := by
  obtain ⟨depth, rfl⟩ := Nat.exists_eq_add_one_of_ne_zero (Nat.ne_zero_of_lt hd)
  rw [stmts, Parser.stmts]
  split
  · rename_i ht
    exact .taken h ht fun h₁ => .pure ⟨rfl, h₁⟩
  · rename_i ht
    refine .untaken h (by decide) ht (.sees h ?_)
    dsimp only
    simp only [decide_eq_true_eq]
    split_ifs
    · exact .unexpected h [.rbrace]
    · refine (stmt_steps h (by omega)).bind fun first s₁ hlt₁ q₁ h₁ => ?_
      refine (stmts_steps h₁ (by omega)).bind fun body s₂ hlt₂ q₂ h₂ => ?_
      exact .pure ⟨rfl, h₂⟩
termination_by 4 * s.size + 3
decreasing_by all_goals omega

theorem otherBranches_pauses {depth p : Nat} {s : TokenStream} (h : At ts p s)
    (hd : 4 * s.size < depth) : Pauses ts (otherBranches ts depth) p (Parser.otherBranches s) := by
  obtain ⟨depth, rfl⟩ := Nat.exists_eq_add_one_of_ne_zero (Nat.ne_zero_of_lt hd)
  rw [otherBranches, Parser.otherBranches]
  cases helif : s.take? .kwElif with
  | some step =>
    obtain ⟨start, s₁, hlt₁⟩ := step
    refine .taken h helif fun h₁ => (expr_steps h₁ (by omega)).bind fun cond s₂ hlt₂ q₂ h₂ => ?_
    refine (block_steps h₂ (by omega)).bind fun ⟨body, span⟩ s₃ hlt₃ q₃ h₃ => ?_
    refine (otherBranches_pauses h₃ (by omega)).bind fun branches s₄ hlt₄ q₄ h₄ => ?_
    exact .pure ⟨rfl, h₄⟩
  | none =>
    refine .untaken h (by decide) helif ?_
    cases helse : s.take? .kwElse with
    | some step =>
      obtain ⟨start, s₁, hlt₁⟩ := step
      refine .taken h helse fun h₁ => ?_
      refine (block_steps h₁ (by omega)).bind fun ⟨body, span⟩ s₂ hlt₂ q₂ h₂ => ?_
      exact .pure ⟨rfl, h₂⟩
    | none => exact .untaken h (by decide) helse (.pure ⟨rfl, h⟩)
termination_by 4 * s.size
decreasing_by all_goals omega

end

/-! ## Units -/

theorem includeTail_pauses {depth p : Nat} {s : TokenStream} (h : At ts p s)
    (hd : 4 * s.size < depth) : Pauses ts (includeTail ts depth) p (Parser.includeTail s) := by
  obtain ⟨depth, rfl⟩ := Nat.exists_eq_add_one_of_ne_zero (Nat.ne_zero_of_lt hd)
  rw [includeTail, Parser.includeTail]
  split
  · rename_i ht
    exact .untaken h (by decide) ht (.pure ⟨rfl, h⟩)
  · rename_i ht
    refine .taken h ht fun h₁ => (ident_steps h₁).bind fun name s₂ hlt₂ q₂ h₂ => ?_
    refine (includeTail_pauses h₂ (by omega)).bind fun names s₃ hlt₃ q₃ h₃ => ?_
    exact .pure ⟨rfl, h₃⟩
termination_by s.size
decreasing_by all_goals omega

theorem defaultValue_pauses (h : At ts p s) (hd : 4 * s.size < depth) :
    Pauses ts (defaultValue ts depth) p (Parser.defaultValue s) := by
  rw [defaultValue, Parser.defaultValue]
  split
  · rename_i ht
    exact .untaken h (by decide) ht (.pure ⟨rfl, h⟩)
  · rename_i ht
    refine .taken h ht fun h₁ => (expr_steps h₁ (by omega)).bind fun value s₂ hlt₂ q₂ h₂ => ?_
    exact .pure ⟨rfl, h₂⟩

theorem paramList_steps {depth p : Nat} {s : TokenStream} (needsDefault : Bool) (h : At ts p s)
    (hd : 4 * s.size + 1 < depth) :
    Steps ts (paramList ts depth needsDefault) p (Parser.paramList needsDefault s) := by
  obtain ⟨depth, rfl⟩ := Nat.exists_eq_add_one_of_ne_zero (Nat.ne_zero_of_lt hd)
  rw [paramList, Parser.paramList]
  split
  · rename_i ht
    exact .taken h ht fun h₁ => .pure ⟨rfl, h₁⟩
  · rename_i ht
    refine .untaken h (by decide) ht ?_
    dsimp only
    split
    · rename_i ht
      refine .taken h ht fun h₁ => (closeRest_steps h₁).bind fun _ s₂ hlt₂ q₂ h₂ => ?_
      exact .pure ⟨rfl, h₂⟩
    · rename_i ht
      refine .untaken h (by decide) ht ?_
      refine (typeExpr_steps h (by omega)).bind fun ty s₁ hlt₁ q₁ h₁ => ?_
      dsimp only
      split
      · rename_i ht
        refine .taken h₁ ht fun h₂ => (closeRest_steps h₂).bind fun _ s₃ hlt₃ q₃ h₃ => ?_
        exact .pure ⟨rfl, h₃⟩
      · rename_i ht
        refine .untaken h₁ (by decide) ht ?_
        dsimp only
        -- The type has been read by the list, which looks for the rest before it reads a parameter.
        rw [param, bind_assoc]
        refine (ident_steps h₁).bind fun name s₂ hlt₂ q₂ h₂ => ?_
        rw [bind_assoc]
        refine (defaultValue_pauses h₂ (by omega)).bind fun default s₃ hle₃ q₃ h₃ => ?_
        dsimp only
        split_ifs
        · exact .throw h₃.le
        · rw [pure_bind]
          split
          · rename_i ht
            refine .taken h₃ ht fun h₄ => ?_
            refine (paramList_steps _ h₄ (by omega)).bind fun found s₅ hlt₅ q₅ h₅ => ?_
            obtain ⟨params, rest⟩ := found
            exact .pure ⟨rfl, h₅⟩
          · rename_i ht
            refine .untaken h₃ (by decide) ht ((closeList_steps h₃).bind fun _ s₄ hlt₄ q₄ h₄ => ?_)
            exact .pure ⟨rfl, h₄⟩
termination_by s.size
decreasing_by all_goals omega

theorem functionBody_pauses (h : At ts p s) (hd : 4 * s.size < depth) :
    Pauses ts (functionBody ts depth) p (Parser.functionBody s) := by
  rw [functionBody, Parser.functionBody]
  refine .sees h ?_
  dsimp only
  simp only [decide_eq_true_eq]
  split_ifs
  · exact (block_steps h (by omega)).map fun ⟨body, span⟩ _ _ _ h₁ => .pure ⟨rfl, h₁⟩
  · exact .pure ⟨rfl, h⟩

theorem node_steps (h : At ts p s) (hd : 4 * s.size < depth) :
    Steps ts (node ts depth) p (Parser.node s) := by
  rw [node, Parser.node]
  refine .sees h ?_
  cases hinclude : s.take? .kwInclude with
  | some step =>
    obtain ⟨start, s₁, hlt₁⟩ := step
    rw [decide_eq_true (kind_of_take? hinclude), if_pos rfl]
    refine Follows.congr (bind_ok (h.expect hinclude)) ?_
    refine (ident_steps (h.taken hinclude)).bind fun first s₂ hlt₂ q₂ h₂ => ?_
    refine (includeTail_pauses h₂ (by omega)).bind fun more s₃ hle₃ q₃ h₃ => ?_
    exact .pure ⟨rfl, h₃⟩
  | none =>
    rw [decide_eq_false (kind_ne_of_take?_eq_none (by decide) hinclude),
      if_neg Bool.false_ne_true]
    refine .sees h ?_
    cases halias : s.take? .kwAlias with
    | some step =>
      obtain ⟨start, s₁, hlt₁⟩ := step
      rw [decide_eq_true (kind_of_take? halias), if_pos rfl]
      refine Follows.congr (bind_ok (h.expect halias)) ?_
      refine (typeExpr_steps (h.taken halias) (by omega)).bind fun target s₂ hlt₂ q₂ h₂ => ?_
      refine (ident_steps h₂).bind fun name s₃ hlt₃ q₃ h₃ => ?_
      exact .pure ⟨rfl, h₃⟩
    | none =>
      rw [decide_eq_false (kind_ne_of_take?_eq_none (by decide) halias),
        if_neg Bool.false_ne_true, declaration]
      refine (typeExpr_steps h (by omega)).bind fun ty s₁ hlt₁ q₁ h₁ => ?_
      refine (ident_steps h₁).bind fun name s₂ hlt₂ q₂ h₂ => ?_
      dsimp only
      split
      · rename_i ht
        refine .taken h₂ ht fun h₃ => ?_
        refine (paramList_steps false h₃ (by omega)).bind fun found s₄ hlt₄ q₄ h₄ => ?_
        obtain ⟨params, rest⟩ := found
        refine (functionBody_pauses h₄ (by omega)).bind fun body s₅ hle₅ q₅ h₅ => ?_
        refine .previousSpan h₅ (h₃.pos_of_shorter h₅ (hle₅.trans_lt hlt₄)) ?_
        exact .pure ⟨rfl, h₅⟩
      · rename_i ht
        refine .untaken h₂ (by decide) ht ?_
        -- The name has been read, so there is a token before the cursor to take the span from.
        have hpos := h₁.pos_of_shorter h₂ hlt₂
        refine (varDecl_pauses ty name h₂ hpos (by omega)).bind fun var s₃ hle₃ q₃ h₃ => ?_
        exact .pure ⟨rfl, h₃⟩

/-- The parts of a unit are read up to the first end. -/
theorem nodes_follow {depth p : Nat} {s : TokenStream} (h : At ts p s)
    (hd : 4 * s.size + 1 < depth) :
    Follows ts (nodes ts depth) p (Parser.nodes s)
      fun parts found q => parts = found ∧ q = limit ts := by
  obtain ⟨depth, rfl⟩ := Nat.exists_eq_add_one_of_ne_zero (Nat.ne_zero_of_lt hd)
  rw [nodes, Parser.nodes]
  refine .sees h ?_
  dsimp only
  simp only [decide_eq_true_eq]
  split_ifs with hend
  · exact .pure ⟨rfl, h.eq_limit hend⟩
  · refine (node_steps h (by omega)).bind fun first s₁ hlt₁ q₁ h₁ => ?_
    obtain ⟨_, q₂, htake, h₂⟩ := skip_pauses h₁ (k := .semi) (by decide)
    have hskip := (s₁.skip .semi).notLonger
    refine Follows.congr (bind_ok htake) ?_
    refine (nodes_follow h₂ (by omega)).bind fun more _ q₃ hmore => ?_
    obtain ⟨rfl, hq⟩ := hmore
    exact .pure ⟨rfl, hq⟩
termination_by s.size
decreasing_by omega

end Statements

section Progress

variable {ts : List Token} {depth p q start least k m : Nat} {s : TokenStream} {α β : Type}
  {r : Reader α} {f : α → Reader β}

/-! ## Progress -/

theorem exists_at (hend : ∃ t ∈ ts, t.kind = .eof) (hp : p ≤ limit ts) : ∃ s, At ts p s := by
  have hlimit : limit ts < ts.length := List.findIdx_lt_length.mpr (by simpa using hend)
  have hkind : ts[limit ts].kind = .eof := by
    have hfound : (ts[limit ts].kind == .eof) = true := List.findIdx_getElem (w := hlimit)
    exact eq_of_beq hfound
  have hlast : p - 1 < ts.length := (p.sub_le 1).trans_lt (hp.trans_lt hlimit)
  refine ⟨⟨ts[p - 1].span, (ts.take (limit ts)).drop p, ts[limit ts].span⟩, rfl, hp, ?_,
    fun _ => ?_⟩
  · exact ⟨ts[limit ts], List.getElem?_eq_getElem hlimit, hkind, rfl⟩
  · exact ⟨ts[p - 1], List.getElem?_eq_getElem hlast, rfl⟩

/-- Four calls for each token are deep enough. -/
theorem At.deep (h : At ts p s) (hdepth : 4 * ts.length ≤ depth) : 4 * s.size + 3 < depth := by
  have hlimit := h.limit_lt
  have hsize := h.size
  omega

theorem Steps.exists_result {run : Except ParseError (s.Step α)} (hat : At ts p s)
    (h : Steps ts r p run) : ∃ result q, r p = some (result, q) ∧ q ≤ limit ts ∧
      ∀ a, result = .ok a → p < q := by
  cases run with
  | error e =>
    obtain ⟨q, hq, hr⟩ := h
    exact ⟨.error e, q, hr, hq, fun _ ha => nomatch ha⟩
  | ok step =>
    obtain ⟨a, q, hr, -, hrest⟩ := h
    exact ⟨.ok a, q, hr, hrest.le, fun _ _ => hat.lt_of_shorter hrest step.shorter⟩

theorem Pauses.exists_result {run : Except ParseError (s.Pause α)} (hat : At ts p s)
    (h : Pauses ts r p run) : ∃ result q, r p = some (result, q) ∧ q ≤ limit ts ∧
      ∀ a, result = .ok a → p ≤ q := by
  cases run with
  | error e =>
    obtain ⟨q, hq, hr⟩ := h
    exact ⟨.error e, q, hr, hq, fun _ ha => nomatch ha⟩
  | ok pause =>
    obtain ⟨a, q, hr, -, hrest⟩ := h
    exact ⟨.ok a, q, hr, hrest.le, fun _ _ => hat.le_of_notLonger hrest pause.notLonger⟩

/-- From every position from `start` up to the first end the reader has a result, at a position up
to the first end. It gives a value only after it has taken at least `least` tokens. -/
def Takes (ts : List Token) (start least : Nat) (r : Reader α) : Prop :=
  ∀ p, start ≤ p → p ≤ limit ts → ∃ result q, r p = some (result, q) ∧ q ≤ limit ts ∧
    ∀ a, result = .ok a → p + least ≤ q

namespace Takes

theorem weaken (h : Takes ts start k r) : Takes ts start 0 r := by
  intro p hp hlimit
  obtain ⟨result, q, hr, hq, htaken⟩ := h p hp hlimit
  exact ⟨result, q, hr, hq, fun a ha => (Nat.le_add_right p k).trans (htaken a ha)⟩

theorem pure (a : α) : Takes ts start 0 (Pure.pure a : Reader α) :=
  fun p _ hlimit => ⟨.ok a, p, rfl, hlimit, fun _ _ => le_rfl⟩

theorem throw (e : ParseError) : Takes ts start 0 (MonadExcept.throw e : Reader α) :=
  fun p _ hlimit => ⟨.error e, p, rfl, hlimit, fun _ ha => nomatch ha⟩

/-- The reader goes on from where at least `k` tokens have been taken. -/
theorem bind (h : Takes ts start k r) (hf : ∀ a, Takes ts (start + k) 0 (f a)) :
    Takes ts start k (r >>= f) := by
  intro p hp hlimit
  obtain ⟨result, q, hr, hq, htaken⟩ := h p hp hlimit
  cases result with
  | error e => exact ⟨.error e, q, bind_error hr, hq, fun _ ha => nomatch ha⟩
  | ok a =>
    have hmore := htaken a rfl
    obtain ⟨result, q', hr', hq', htaken'⟩ :=
      hf a q ((Nat.add_le_add_right hp k).trans hmore) hq
    exact ⟨result, q', (bind_ok hr).trans hr', hq', fun b hb => hmore.trans (htaken' b hb)⟩

theorem of_steps (hend : ∃ t ∈ ts, t.kind = .eof) (hdepth : 4 * ts.length ≤ depth)
    {run : (s : TokenStream) → Except ParseError (s.Step α)}
    (h : ∀ {p s}, At ts p s → 4 * s.size + 3 < depth → Steps ts r p (run s)) :
    Takes ts start 1 r := by
  intro p _ hlimit
  obtain ⟨s, hat⟩ := exists_at hend hlimit
  exact (h hat (hat.deep hdepth)).exists_result hat

theorem of_pauses (hend : ∃ t ∈ ts, t.kind = .eof) (hdepth : 4 * ts.length ≤ depth)
    {run : (s : TokenStream) → Except ParseError (s.Pause α)}
    (h : ∀ {p s}, At ts p s → 4 * s.size + 3 < depth → start ≤ p → Pauses ts r p (run s)) :
    Takes ts start 0 r := by
  intro p hp hlimit
  obtain ⟨s, hat⟩ := exists_at hend hlimit
  exact (h hat (hat.deep hdepth) hp).exists_result hat

end Takes

section Readers

variable (hend : ∃ t ∈ ts, t.kind = .eof)
include hend

theorem expect_takes {kind : TokenKind} (hk : kind ≠ .eof) : Takes ts start 1 (expect ts kind) :=
  .of_steps hend le_rfl fun h _ => expect_steps h hk

theorem ident_takes : Takes ts start 1 (ident ts) :=
  .of_steps hend le_rfl fun h _ => ident_steps h

theorem take?_takes {kind : TokenKind} (hk : kind ≠ .eof) : Takes ts start 0 (take? ts kind) := by
  intro p _ hlimit
  obtain ⟨s, hat⟩ := exists_at hend hlimit
  obtain ⟨found, q, htake, hrest⟩ := skip_pauses hat hk
  exact ⟨.ok found, q, htake, hrest.le,
    fun _ _ => hat.le_of_notLonger hrest (s.skip kind).notLonger⟩

theorem previousSpan_takes : Takes ts start 0 (previousSpan ts) := by
  intro p _ hlimit
  obtain ⟨s, hat⟩ := exists_at hend hlimit
  obtain ⟨t, hpeek, -⟩ := hat.peek
  have hposition : position p = some (.ok p, p) := rfl
  rw [previousSpan, bind_ok hpeek, bind_ok hposition]
  cases if p = 0 then none else ts[p - 1]? with
  | none => exact ⟨_, p, rfl, hlimit, fun _ _ => le_rfl⟩
  | some u => exact ⟨_, p, rfl, hlimit, fun _ _ => le_rfl⟩

variable (hdepth : 4 * ts.length ≤ depth)
include hdepth

theorem typeExpr_takes : Takes ts start 1 (typeExpr ts depth) :=
  .of_steps hend hdepth fun h hd => typeExpr_steps h (by omega)

theorem headerNode_takes : Takes ts start 1 (headerNode ts depth) := by
  refine (expect_takes hend (by decide)).bind fun _ => ?_
  refine (ident_takes hend).weaken.bind fun _ => ?_
  have htail : Takes ts (start + 1) 0 (includeTail ts depth) :=
    .of_pauses hend hdepth fun h hd _ => includeTail_pauses h (by omega)
  exact htail.bind fun _ => .pure _

theorem aliasNode_takes : Takes ts start 1 (aliasNode ts depth) := by
  refine (expect_takes hend (by decide)).bind fun _ => ?_
  refine (typeExpr_takes hend hdepth).weaken.bind fun _ => ?_
  exact (ident_takes hend).weaken.bind fun _ => .pure _

theorem declaration_takes : Takes ts start 1 (declaration ts depth) := by
  refine (typeExpr_takes hend hdepth).bind fun ty => ?_
  refine (ident_takes hend).weaken.bind fun name => ?_
  refine (take?_takes hend (by decide)).bind fun paren => ?_
  cases paren with
  | some t =>
    have hparams : Takes ts (start + 1) 1 (paramList ts depth false) :=
      .of_steps hend hdepth fun h hd => paramList_steps false h (by omega)
    have hbody : Takes ts (start + 1) 0 (functionBody ts depth) :=
      .of_pauses hend hdepth fun h hd _ => functionBody_pauses h (by omega)
    refine hparams.weaken.bind fun params => hbody.bind fun body => ?_
    exact (previousSpan_takes hend).bind fun _ => .pure _
  | none =>
    have hvar : Takes ts (start + 1) 0 (varDecl ts depth ty name) :=
      .of_pauses hend hdepth fun h hd hpos => varDecl_pauses ty name h (by omega) (by omega)
    exact hvar.bind fun _ => .pure _

theorem param_takes (needsDefault : Bool) :
    Takes ts start 1 (typeExpr ts depth >>= param ts depth needsDefault) := by
  refine (typeExpr_takes hend hdepth).bind fun ty => ?_
  refine (ident_takes hend).weaken.bind fun name => ?_
  have hdefault : Takes ts (start + 1) 0 (defaultValue ts depth) :=
    .of_pauses hend hdepth fun h hd _ => defaultValue_pauses h (by omega)
  refine hdefault.bind fun default => ?_
  split
  · exact .throw _
  · exact .pure _

/-- Where the position is the old one, what is read next takes a token, or fails. -/
theorem exprStmt_takes_of_localVar? (hlimit : p ≤ limit ts)
    (hnone : localVar? ts depth p = some (.ok none, q)) :
    q = p ∧ ∃ result q', exprStmt ts depth p = some (result, q') ∧ q' ≤ limit ts ∧
      ∀ a, result = .ok a → p < q' := by
  obtain ⟨s, hat⟩ := exists_at hend hlimit
  have hdeep := hat.deep hdepth
  have hd : 4 * s.size < depth := by omega
  cases hhead : Parser.localHead? s with
  | none =>
    have hback := localVar?_none hat hd hhead
    rw [hnone] at hback
    cases hback
    exact ⟨rfl, (exprStmt_steps hat hd hhead).exists_result hat⟩
  | some step =>
    obtain ⟨⟨ty, name⟩, s₁, hlt₁⟩ := step
    have heq := localHead?_eq hat hd
    rw [hhead] at heq
    obtain ⟨q₁, hread, h₁⟩ := heq
    rw [localVar?, bind_ok hread] at hnone
    dsimp only at hnone
    have hpos := hat.pos_of_shorter h₁ hlt₁
    have hvar := varDecl_pauses ty name h₁ hpos (lt_trans (by omega) hd)
    cases hrun : Parser.varDecl ty name s₁ with
    | error e =>
      rw [hrun] at hvar
      obtain ⟨q₂, -, hr⟩ := hvar
      rw [bind_error hr] at hnone
      cases hnone
    | ok pause =>
      rw [hrun] at hvar
      obtain ⟨var, q₂, hr, -⟩ := hvar
      rw [bind_ok hr] at hnone
      cases hnone

/-- The parts of a unit are read as from the stream of the tokens before the first end. -/
theorem exists_nodes : ∃ stop result q, ts[limit ts]? = some stop ∧
    nodes ts depth 0 = some (result, q) ∧
    result = Parser.nodes ⟨stop.span, ts.take (limit ts), stop.span⟩ ∧ q ≤ limit ts ∧
    ∀ parts, result = .ok parts → q = limit ts := by
  obtain ⟨s, hat⟩ := exists_at hend (limit ts).zero_le
  obtain ⟨stop, hget, hkind, -⟩ := hat.stop
  have hstart : At ts 0 ⟨stop.span, ts.take (limit ts), stop.span⟩ :=
    ⟨rfl, hat.le, ⟨stop, hget, hkind, rfl⟩, fun hpos => absurd hpos (Nat.lt_irrefl 0)⟩
  have hdeep := hstart.deep hdepth
  have hfollow := nodes_follow hstart (lt_trans (by omega) hdeep)
  cases hrun : Parser.nodes ⟨stop.span, ts.take (limit ts), stop.span⟩ with
  | error e =>
    rw [hrun] at hfollow
    obtain ⟨q, hq, hr⟩ := hfollow
    exact ⟨stop, _, q, hget, hr, hrun.symm, hq, fun _ hparts => nomatch hparts⟩
  | ok parts =>
    rw [hrun] at hfollow
    obtain ⟨_, q, hr, rfl, hq⟩ := hfollow
    exact ⟨stop, _, q, hget, hr, hrun.symm, hq.le, fun _ _ => hq⟩

end Readers

/-- Parsing ends: from four nested calls for each token on, the depth does not matter. No position is
behind the first end among the tokens. Each part of a unit that is read takes at least one token.
Where a local variable is given up the position is the old one, and the assignment or expression
that is read there takes a token, or fails. -/
theorem parsing_ends_within_tokens {ts : List Token} (hend : ∃ t ∈ ts, t.kind = .eof) {depth : Nat}
    (hdepth : 4 * ts.length ≤ depth) :
    (∃ stop result q, ts[limit ts]? = some stop ∧ nodes ts depth 0 = some (result, q) ∧
      result = Parser.nodes ⟨stop.span, ts.take (limit ts), stop.span⟩ ∧ q ≤ limit ts ∧
      ∀ parts, result = .ok parts → q = limit ts) ∧
    (Takes ts 0 1 (headerNode ts depth) ∧ Takes ts 0 1 (aliasNode ts depth) ∧
      Takes ts 0 1 (declaration ts depth) ∧ Takes ts 0 1 (stmt ts depth) ∧
      Takes ts 0 1 (typeExpr ts depth) ∧ Takes ts 0 1 (operand ts depth) ∧
      Takes ts 0 1 (expr ts depth) ∧
      ∀ needsDefault, Takes ts 0 1 (typeExpr ts depth >>= param ts depth needsDefault)) ∧
    ∀ p q, p ≤ limit ts → localVar? ts depth p = some (.ok none, q) → q = p ∧
      ∃ result q', exprStmt ts depth p = some (result, q') ∧ q' ≤ limit ts ∧
        ∀ a, result = .ok a → p < q' :=
  ⟨exists_nodes hend hdepth,
    ⟨headerNode_takes hend hdepth, aliasNode_takes hend hdepth, declaration_takes hend hdepth,
      .of_steps hend hdepth fun h hd => stmt_steps h (by omega), typeExpr_takes hend hdepth,
      .of_steps hend hdepth fun h hd => operand_steps h (by omega),
      .of_steps hend hdepth fun h hd => expr_steps h (by omega), param_takes hend hdepth⟩,
    fun _ _ hlimit hnone => exprStmt_takes_of_localVar? hend hdepth hlimit hnone⟩

/-- After an open bracket the tokens end, and there are more tokens behind the end. -/
theorem open_bracket_ends :
    let token (kind : TokenKind) (text : String) (start stop : Nat) : Token :=
      ⟨kind, text, ⟨0, start, stop⟩, false⟩
    let ts := [token .ident "a" 0 1, token .lbracket "[" 1 2, token .eof "" 2 2,
      token .rbracket "]" 2 3, token .eof "" 3 3]
    ∃ result q, nodes ts 20 0 = some (result, q) ∧ q ≤ 2 := by
  intro token ts
  have hend : ∃ t ∈ ts, t.kind = .eof := ⟨token .eof "" 2 2, by decide, rfl⟩
  obtain ⟨⟨-, result, q, -, hnodes, -, hq, -⟩, -⟩ := parsing_ends_within_tokens hend (Nat.le_refl 20)
  have hlimit : limit ts = 2 := by decide
  exact ⟨result, q, hnodes, hlimit ▸ hq⟩

/-- A text is parsed by positions as by streams. -/
theorem exists_nodes_of_lexed {file : Nat} {text : String} {tokens : List Token}
    (h : Token.lex file text = .ok tokens) {depth : Nat}
    (hdepth : 4 * (tokens.length + 1) ≤ depth) :
    ∃ result q, nodes (tokens ++ [Token.endOf file text.toList]) depth 0 = some (result, q) ∧
      SourceUnit.ofTokens file text.utf8ByteSize tokens =
        result.map fun parts => ⟨file, parts⟩ := by
  let ts := tokens ++ [Token.endOf file text.toList]
  have hno : ∀ t ∈ tokens, t.kind ≠ .eof :=
    fun t ht => (Lexer.lexed_of_mem_lex h ht).shape.kind_ne_eof
  have hlimit : limit ts = tokens.length := by
    have hlength : tokens.findIdx (·.kind == .eof) = tokens.length :=
      List.findIdx_eq_length_of_false fun t ht => beq_eq_false_iff_ne.mpr (hno t ht)
    have hfirst : [Token.endOf file text.toList].findIdx (·.kind == .eof) = 0 := rfl
    rw [limit, List.findIdx_append, hlength, if_neg (Nat.lt_irrefl _), hfirst, Nat.zero_add]
  have hend : ∃ t ∈ ts, t.kind = .eof :=
    ⟨Token.endOf file text.toList, List.mem_append_right _ List.mem_cons_self, rfl⟩
  have hdeep : 4 * ts.length ≤ depth := by rwa [List.length_append, List.length_singleton]
  obtain ⟨stop, result, q, hstop, hnodes, hresult, -⟩ := exists_nodes hend hdeep
  rw [hlimit] at hstop hresult
  rw [List.getElem?_concat_length] at hstop
  rw [List.take_left' rfl] at hresult
  cases hstop
  refine ⟨result, q, hnodes, ?_⟩
  rw [hresult, SourceUnit.ofTokens, ← utf8Width_toList]
  rfl

end Progress

end KilnLang.Cursor
