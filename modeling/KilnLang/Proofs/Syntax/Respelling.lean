import KilnLang.Proofs.Syntax.Rereading
import KilnLang.Proofs.Syntax.RespellingExpr

/-!
# Units in another spelling

**Theorem (`Parser.nodes_respelled`).** If a list of tokens is the parts of a unit, then so is each
respelling of it, with the same parts up to spans.

It remains to follow the parsers of statements and of parts of a unit, as for types and expressions.

**Declarations and expressions.** What is no declaration in one spelling must be none in the other.
The pieces do not say so, since they are those of the expression that was read, so the type is
compared token by token (`Parallel`): a type that could start an expression has no parentheses, so no
comma is added in it, and it is a type in both spellings. Whether the name after it starts a line is
what both spellings agree on.

**Semicolons.** What comes after a semicolon that may be left out never starts with one, so both
spellings have it or none has.
-/

namespace KilnLang

/-! ## Token by token -/

/-- The tokens are like each other up to the end, or to a comma that is added before a closing
parenthesis. -/
inductive Parallel : List Token → List Token → Prop
  | nil : Parallel [] []
  | cons {t u : Token} {ts us : List Token} (like : t.Like u) (level : Level ts us)
      (rest : Parallel ts us) : Parallel (t :: ts) (u :: us)
  | stop {ts us : List Token} (close : headKind ts = .rparen) (comma : headKind us = .comma) :
      Parallel ts us

theorem Respelled.parallel {ps : List Piece} {ts us : List Token} (h : Respelled ps ts us) :
    Parallel ts us := by
  induction h with
  | nil => exact .nil
  | mark _ like level _ ih => exact .cons like level ih
  | word like level _ ih => exact .cons like level ih
  | length _ _ like level _ ih => exact .cons like level ih
  | shift kind kind' like like' _ level _ ih =>
    refine .cons like (.of_headKind ?_ _) (.cons like' level ih)
    rw [headKind, kind']
    decide
  | omitted _ ih => exact ih
  | kept _ like level _ ih => exact .cons like level ih
  | added close kind => exact .stop close kind

namespace TokenStream

variable {s t : TokenStream} {k : TokenKind}

/-- What is taken from the second list is taken from the first. -/
theorem take?_of_parallel {r' : Step t Token} (h : Parallel s.tokens t.tokens)
    (ht : t.take? k = some r') (hk : k ≠ .comma) :
    ∃ r, s.take? k = some r ∧ r.value.Like r'.value ∧ Level r.rest.tokens r'.rest.tokens ∧
      Parallel r.rest.tokens r'.rest.tokens := by
  obtain ⟨hts, hkind⟩ := tokens_of_take? ht
  rw [hts] at h
  generalize hss : s.tokens = ss at h
  cases h with
  | cons like level rest =>
    obtain ⟨r, hr, rfl, hrest⟩ := take?_of_tokens hss
    rw [← like.kind, hkind] at hr
    refine ⟨r, hr, like, ?_⟩
    rw [hrest]
    exact ⟨level, rest⟩
  | stop _ comma => exact absurd (hkind.symm.trans comma) hk

/-- What is not taken from the second list is not taken from the first. -/
theorem take?_none_of_parallel (h : Parallel s.tokens t.tokens) (ht : t.take? k = none)
    (hk : k ≠ .eof) (hclose : k ≠ .rparen) : s.take? k = none := by
  have hne := headKind_ne_of_take? ht hk
  refine take?_of_ne ?_
  generalize s.tokens = ss at h ⊢
  generalize t.tokens = ts at h hne
  cases h with
  | nil => exact hk.symm
  | cons like => exact fun heq => hne (like.kind.trans heq)
  | stop close =>
    rw [close]
    exact hclose.symm

end TokenStream

namespace Parser

open TokenStream

/-! ## Declarations and expressions -/

theorem arrayLength_parallel (t : TokenStream) :
    Ensures (arrayLength t) fun r' => ∀ s, Level s.tokens t.tokens →
      Parallel s.tokens t.tokens → Gives (arrayLength s) fun r =>
        Level r.rest.tokens r'.rest.tokens ∧ Parallel r.rest.tokens r'.rest.tokens := by
  unfold arrayLength
  split
  · rename_i hnone
    refine .ok fun s hlevel h => ?_
    rw [take?_none_of_parallel h hnone (by decide) (by decide)]
    exact .ok ⟨hlevel, h⟩
  · rename_i r' hr'
    split
    · rename_i n hn
      refine .ok fun s _ h => ?_
      obtain ⟨r, hr, like, hrest⟩ := take?_of_parallel h hr' (by decide)
      rw [hr]
      dsimp only
      rw [← like.text, hn]
      exact .ok hrest
    · exact .error

theorem arraySuffix_parallel (ty' : TypeExpr) (t : TokenStream) :
    Ensures (arraySuffix ty' t) fun r' => ∀ ty s, Level s.tokens t.tokens →
      Parallel s.tokens t.tokens → Gives (arraySuffix ty s) fun r =>
        Level r.rest.tokens r'.rest.tokens ∧ Parallel r.rest.tokens r'.rest.tokens := by
  rw [arraySuffix]
  split
  · rename_i hnone
    refine .ok fun ty s hlevel h => ?_
    rw [arraySuffix, take?_none_of_parallel h hnone (by decide) (by decide)]
    exact .ok ⟨hlevel, h⟩
  · rename_i hopen
    refine (arrayLength_parallel _).bind ?_
    rintro ⟨length', t₂, ht₂⟩ hlength
    refine (expect_take? _ _).bind ?_
    rintro ⟨close', t₃, ht₃⟩ hclose
    refine (arraySuffix_parallel _ _).bind ?_
    rintro ⟨ty₁', t₄, ht₄⟩ hmore
    refine .pure fun ty s _ h => ?_
    obtain ⟨⟨_, s₁, h₁⟩, htake, -, hlevel, h⟩ := take?_of_parallel h hopen (by decide)
    rw [arraySuffix, htake]
    refine (hlength s₁ hlevel h).bind ?_
    rintro ⟨length, s₂, h₂⟩ ⟨-, h⟩
    obtain ⟨⟨close, s₃, h₃⟩, htake, -, hlevel, h⟩ := take?_of_parallel h hclose (by decide)
    dsimp only at htake ⊢
    rw [TokenStream.expect, htake]
    exact (hmore _ s₃ hlevel h).bind fun _ hrest => .pure hrest
termination_by t.size
decreasing_by all_goals omega

/-- A type is one in the first list, if an operand can be read there. -/
theorem typeExpr_parallel (t : TokenStream) :
    Ensures (typeExpr t) fun r' => ∀ s first, operand s = .ok first →
      Parallel s.tokens t.tokens → Gives (typeExpr s) fun r =>
        Level r.rest.tokens r'.rest.tokens ∧ Parallel r.rest.tokens r'.rest.tokens := by
  rw [typeExpr]
  split
  · rename_i href
    refine (typeExpr_parallel _).bind ?_
    rintro ⟨inner', t₂, ht₂⟩ hinner
    refine .pure fun s first hfirst h => ?_
    obtain ⟨⟨_, s₁, h₁⟩, htake, -, -, h⟩ := take?_of_parallel h href (by decide)
    -- The operand starts with a reference as well, so what follows it is read as an operand.
    rw [operand_ref htake] at hfirst
    rw [typeExpr, htake]
    cases hoperand : operand s₁ with
    | error e =>
      rw [hoperand] at hfirst
      cases hfirst
    | ok inner => exact (hinner s₁ inner hoperand h).bind fun _ hrest => .pure hrest
  · rename_i href
    split
    · rename_i hfunc
      intro _ _ s first hfirst h
      obtain ⟨_, htake, -⟩ := take?_of_parallel h hfunc (by decide)
      -- No operand starts with the word for a function type.
      exact (operand_fails (.inr (headKind_of_take? htake)) first hfirst).elim
    · rename_i hfunc
      refine (ident_take? t).bind ?_
      rintro ⟨name', t₁, ht₁⟩ ⟨step', hstep', rfl⟩
      refine (arraySuffix_parallel _ _).bind ?_
      rintro ⟨ty', t₂, ht₂⟩ hmore
      refine .pure fun s _ _ h => ?_
      have hnone := take?_none_of_parallel h href (by decide) (by decide)
      have hnone' := take?_none_of_parallel h hfunc (by decide) (by decide)
      obtain ⟨⟨_, s₁, h₁⟩, htake, -, hlevel, h⟩ := take?_of_parallel h hstep' (by decide)
      rw [typeExpr, hnone, hnone']
      dsimp only
      rw [ident, TokenStream.expect, htake]
      exact (hmore _ s₁ hlevel h).bind fun _ hrest => .pure hrest
termination_by t.size
decreasing_by all_goals omega

/-- What is read as an operand and is no declaration is none in another spelling. -/
theorem localHead?_respelled_none {s t : TokenStream} {ps : List Piece} {first : Step s Value}
    (h : localHead? s = none) (hfirst : operand s = .ok first) (ht : Respells ps s t) :
    localHead? t = none := by
  unfold localHead?
  split
  · rfl
  · rename_i ty' t₁ ht₁ hty'
    split
    · rfl
    · rename_i name' t₂ ht₂ hname'
      by_cases hfresh : name'.fresh
      · rw [if_pos hfresh]
      · obtain ⟨⟨ty, s₁, h₁⟩, hty, hlevel, hparallel⟩ :=
          typeExpr_parallel t _ hty' s first hfirst ht.parallel
        obtain ⟨⟨name, s₂, h₂⟩, hname, -⟩ := take?_of_parallel hparallel hname' (by decide)
        dsimp only at hname hlevel hname'
        rw [(tokens_of_take? hname).1, (tokens_of_take? hname').1] at hlevel
        have hsame : name'.fresh = name.fresh := hlevel (tokens_of_take? hname).2
        rw [hsame] at hfresh
        simp only [localHead?, hty, hname, hfresh] at h
        cases h

/-- A type and a name that start a declaration start one in another spelling. -/
theorem localHead?_respelled {s : TokenStream} {r : Step s (TypeExpr × Ident)}
    (h : localHead? s = some r) : ∀ t qs,
      Respells (r.value.1.pieces ++ r.value.2.piece :: qs) s t →
      ∃ r', localHead? t = some r' ∧ r'.value.1.unspanned = r.value.1.unspanned ∧
        r'.value.2.unspanned = r.value.2.unspanned ∧ Abreast qs r.rest r'.rest := by
  unfold localHead? at h
  split at h
  · cases h
  · rename_i ty s₁ h₁ hty
    split at h
    · cases h
    · rename_i name s₂ h₂ hname
      split_ifs at h with hfresh
      cases h
      intro t qs ht
      obtain ⟨⟨ty', t₁, ht₁⟩, hty', hsame, ht⟩ := typeExpr_respelled s _ hty t _ ht
      obtain ⟨⟨name', t₂, ht₂⟩, hname', htext, hlevel, hrest⟩ := ht.respells.take?_ident hname
      have hfresh' : name'.fresh = name.fresh := hlevel ht.level
      refine ⟨⟨(ty', ⟨name'.text, name'.span⟩), t₂, Nat.lt_trans ht₂ ht₁⟩, ?_, hsame, ?_, hrest⟩
      · dsimp only at hname'
        simp only [localHead?, hty', hname', hfresh', hfresh]
        rfl
      · dsimp only at htext
        simp [Ident.unspanned, htext]

/-! ## Statements -/

/-- The initial value of a variable is read alike after the same type and name. -/
theorem varDecl_respelled (ty : TypeExpr) (name : Ident) (s : TokenStream) :
    Ensures (varDecl ty name s) fun r =>
      r.value.pieces = ty.pieces ++ name.piece :: Expr.initialPieces r.value.init ∧
      ∀ ty' name' t qs, ty'.unspanned = ty.unspanned → name'.unspanned = name.unspanned →
        Abreast (Expr.initialPieces r.value.init ++ qs) s t →
        Gives (varDecl ty' name' t) fun r' =>
          r'.value.unspanned = r.value.unspanned ∧ Abreast qs r.rest r'.rest := by
  unfold varDecl
  split
  · rename_i hassign
    refine .ok ⟨rfl, fun ty' name' t qs hty hname ht => ?_⟩
    rw [ht.respells.take?_eq_none hassign]
    exact .ok ⟨by simp [VarDecl.unspanned, hty, hname], ht⟩
  · rename_i hassign
    refine (expr_respelled _).bind ?_
    rintro ⟨init, s₂, h₂⟩ hinit
    refine .pure ⟨rfl, fun ty' name' t qs hty hname ht => ?_⟩
    obtain ⟨⟨_, t₁, ht₁⟩, htake, ht⟩ := Respells.take? ht.respells hassign
    rw [htake]
    refine (hinit t₁ qs ht.respells).bind ?_
    rintro ⟨init', t₂, ht₂⟩ ⟨hsame, ht⟩
    exact .pure ⟨by simp [VarDecl.unspanned, hty, hname, hsame], ht⟩

/-- The rest of an expression is read alike after the same operand. -/
theorem exprFrom_respelled (first : Value) (s : TokenStream) :
    Ensures (exprFrom first s) fun r => ∃ ps, r.value.pieces = first.pieces ++ ps ∧
      ∀ first' t qs, first'.unspanned = first.unspanned → Abreast (ps ++ qs) s t →
        Gives (exprFrom first' t) fun r' =>
          r'.value.unspanned = r.value.unspanned ∧ Abreast qs r.rest r'.rest := by
  unfold exprFrom
  refine (chainTail_respelled _ _).bind ?_
  rintro ⟨chain, s₁, h₁⟩ ⟨ps, hps, hmore⟩
  refine .pure ⟨ps, by simp [Expr.pieces, hps], fun first' t qs hfirst ht => ?_⟩
  refine (hmore first' t qs hfirst ht).bind ?_
  rintro ⟨chain', t₁, ht₁⟩ ⟨hchain, ht⟩
  exact .pure ⟨by simp [Expr.unspanned, hchain], ht⟩

/-- An assignment that comes next can be taken. -/
theorem assignOp?_eq_none {s : TokenStream}
    (h : ∀ op value (rest : TokenStream) (shorter : rest.size < s.size),
      assignOp? s.kind = some op → advance? s = some ⟨value, rest, shorter⟩ → False) :
    assignOp? s.kind = none := by
  obtain ⟨last, ts, stop⟩ := s
  cases ts with
  | nil => rfl
  | cons t ts =>
    cases hop : assignOp? (TokenStream.kind ⟨last, t :: ts, stop⟩) with
    | none => rfl
    | some op => exact (h op _ _ _ hop (if_pos rfl)).elim

/-- A declaration, an assignment or an expression is read alike as what it is. -/
theorem simpleStmt_respelled (s : TokenStream) :
    Ensures (simpleStmt s) fun r => ∀ t qs, Respells (r.value.pieces ++ qs) s t →
      Gives (simpleStmt t) fun r' =>
        r'.value.unspanned = r.value.unspanned ∧ Abreast qs r.rest r'.rest := by
  unfold simpleStmt
  split
  · rename_i ty name s₁ h₁ hhead
    refine (varDecl_respelled _ _ _).bind ?_
    rintro ⟨var, s₂, h₂⟩ ⟨hpieces, hvar⟩
    refine .pure fun t qs ht => ?_
    simp only [Stmt.pieces, hpieces, List.append_assoc, List.cons_append] at ht
    obtain ⟨⟨⟨ty', name'⟩, t₁, ht₁⟩, hhead', hsame, hname, ht⟩ := localHead?_respelled hhead t _ ht
    rw [hhead']
    refine (hvar ty' name' t₁ qs hsame hname ht).bind ?_
    rintro ⟨var', t₂, ht₂⟩ ⟨hvar', ht⟩
    exact .pure ⟨by simp [Stmt.unspanned, hvar'], ht⟩
  · rename_i hnone
    -- Reading the operand must be kept as a fact: it shows that the other text has no declaration.
    cases hfirst : operand s with
    | error e => exact .error
    | ok r =>
      obtain ⟨first, s₁, h₁⟩ := r
      have hrespelled := operand_respelled s _ hfirst
      refine Ensures.bind (Q := fun r => r = ⟨first, s₁, h₁⟩) (.ok rfl) ?_
      rintro _ rfl
      dsimp only
      split
      · rename_i op _ _ _ hop hassign
        refine (expr_respelled _).bind ?_
        rintro ⟨value, s₃, h₃⟩ hvalue
        refine .pure fun t qs ht => ?_
        simp only [Stmt.pieces, List.append_assoc, List.cons_append] at ht
        rw [localHead?_respelled_none hnone hfirst ht]
        refine (hrespelled t _ ht).bind ?_
        rintro ⟨first', t₁, ht₁⟩ ⟨hsame, ht⟩
        obtain ⟨hk, ⟨_, s₂, h₂⟩, ⟨_, t₂, ht₂⟩, hadvance, hadvance', ht⟩ :=
          ht.respells.advance? rfl
        cases hassign.symm.trans hadvance
        have hk : t₁.kind = AssignOp.kind op := hk
        dsimp only at hadvance' ⊢
        rw [hk, assignOp?_kind, hadvance']
        refine (hvalue t₂ qs ht.respells).bind ?_
        rintro ⟨value', t₃, ht₃⟩ ⟨hvalue', ht⟩
        exact .pure ⟨by simp [Stmt.unspanned, hsame, hvalue'], ht⟩
      · rename_i hnot
        refine (exprFrom_respelled _ _).bind ?_
        rintro ⟨value, s₂, h₂⟩ ⟨ps, hps, hmore⟩
        refine .pure fun t qs ht => ?_
        simp only [Stmt.pieces, hps, List.append_assoc] at ht
        rw [localHead?_respelled_none hnone hfirst ht]
        refine (hrespelled t _ ht).bind ?_
        rintro ⟨first', t₁, ht₁⟩ ⟨hsame, ht⟩
        -- What follows the first operand is no assignment in the other spelling either.
        have hassign : assignOp? t₁.kind = none := by
          rw [(prefixOp?_respelled ht.respells).2.2.1]
          exact assignOp?_eq_none hnot
        dsimp only
        rw [hassign]
        refine (hmore first' t₁ qs hsame ht).bind ?_
        rintro ⟨value', t₂, ht₂⟩ ⟨hvalue', ht⟩
        exact .pure ⟨by simp [Stmt.unspanned, hvalue'], ht⟩

/-- The value of a return statement is read alike. -/
theorem returnValue_respelled (s : TokenStream) :
    Ensures (returnValue s) fun r => ∀ t qs,
      Abreast ((r.value.map (·.pieces)).getD [] ++ qs) s t →
      Gives (returnValue t) fun r' =>
        r'.value.map (·.unspanned) = r.value.map (·.unspanned) ∧ Abreast qs r.rest r'.rest := by
  unfold returnValue
  split
  · rename_i hends
    refine .ok fun t qs ht => ?_
    have hsame : t.kind = s.kind := by
      rw [t.kind_eq_headKind, s.kind_eq_headKind]
      obtain heq | ⟨hclose, -⟩ := ht.respells.head
      · exact heq
      · rw [s.kind_eq_headKind, hclose] at hends
        exact absurd hends (by decide)
    rw [if_pos (by rwa [hsame])]
    exact .ok ⟨rfl, ht⟩
  · rename_i hends
    refine (expr_respelled s).map ?_
    rintro ⟨value, s₁, h₁⟩ hvalue t qs ht
    rw [if_neg ?_]
    · refine (hvalue t qs ht.respells).map ?_
      rintro ⟨value', t₁, ht₁⟩ ⟨hvalue', ht⟩
      exact ⟨congrArg some hvalue', ht⟩
    · rw [t.kind_eq_headKind]
      obtain heq | ⟨-, heq⟩ := ht.respells.head
      · rwa [heq, ← s.kind_eq_headKind]
      · rw [heq]
        decide

/-- No type starts with a semicolon. -/
theorem typeExpr_ne_semi (s : TokenStream) :
    Ensures (typeExpr s) fun _ => headKind s.tokens ≠ .semi := by
  intro r hr h
  rw [typeExpr, take?_of_headKind h, take?_of_headKind h, ident, TokenStream.expect,
    take?_of_headKind h] at hr
  cases hr

/-- No operand starts with a semicolon. -/
theorem operand_ne_semi (s : TokenStream) :
    Ensures (operand s) fun _ => headKind s.tokens ≠ .semi := by
  intro r hr h
  have hkind : s.kind = .semi := s.kind_eq_headKind.trans h
  have hliteral : literal? s.peek = none := by rw [literal?, show s.peek.kind = _ from hkind]
  rw [operand, hliteral, hkind, take?_of_headKind h, take?_of_headKind h] at hr
  cases hr

/-- No statement starts with a semicolon. -/
theorem bareStmt_ne_semi (s : TokenStream) :
    Ensures (bareStmt s) fun _ => headKind s.tokens ≠ .semi := by
  intro r hr h
  have hlocal : localHead? s = none := by
    unfold localHead?
    split
    · rfl
    · rename_i hty
      exact absurd h (typeExpr_ne_semi s _ hty)
  rw [bareStmt, take?_of_headKind h, take?_of_headKind h, take?_of_headKind h] at hr
  dsimp only at hr
  rw [if_neg (by rw [s.kind_eq_headKind, h]; decide), simpleStmt, hlocal] at hr
  cases hoperand : operand s with
  | error e =>
    rw [hoperand] at hr
    cases hr
  | ok first => exact operand_ne_semi s first hoperand h

mutual

/-- A statement and the semicolon after it are read alike before what starts with none. -/
theorem stmt_respelled (s : TokenStream) :
    Ensures (stmt s) fun r => headKind s.tokens ≠ .semi ∧ ∀ t qs, leads qs ≠ some .semi →
      Respells (r.value.pieces ++ .optional .semi :: qs) s t →
      Gives (stmt t) fun r' =>
        r'.value.unspanned = r.value.unspanned ∧ Abreast qs r.rest r'.rest := by
  rw [stmt]
  refine ((bareStmt_ne_semi s).and (bareStmt_respelled s)).bind ?_
  rintro ⟨value, s₁, h₁⟩ ⟨hsemi, hvalue⟩
  refine .pure ⟨hsemi, fun t qs hqs ht => ?_⟩
  rw [stmt]
  refine (hvalue t _ ht).bind ?_
  rintro ⟨value', t₁, ht₁⟩ ⟨hsame, ht⟩
  exact .pure ⟨hsame, ht.skip hqs⟩
termination_by 4 * s.size + 2
decreasing_by all_goals omega

theorem bareStmt_respelled (s : TokenStream) :
    Ensures (bareStmt s) fun r => ∀ t qs, Respells (r.value.pieces ++ qs) s t →
      Gives (bareStmt t) fun r' =>
        r'.value.unspanned = r.value.unspanned ∧ Abreast qs r.rest r'.rest := by
  rw [bareStmt]
  split
  · rename_i hif
    refine (expr_respelled _).bind ?_
    rintro ⟨cond, s₂, h₂⟩ hcond
    refine (block_respelled _).bind ?_
    rintro ⟨⟨body, bodySpan⟩, s₃, h₃⟩ hbody
    refine (otherBranches_respelled _).bind ?_
    rintro ⟨branches, s₄, h₄⟩ hbranches
    refine .pure fun t qs ht => ?_
    simp only [Stmt.pieces, Branch.piecesEach, Branch.pieces, Guard.pieces, List.cons_append,
      List.append_assoc] at ht
    obtain ⟨⟨_, t₁, ht₁⟩, htake, ht⟩ := ht.take? hif
    rw [bareStmt, htake]
    refine (hcond t₁ _ ht.respells).bind ?_
    rintro ⟨cond', t₂, ht₂⟩ ⟨hcond', ht⟩
    refine (hbody t₂ _ ht.respells).bind ?_
    rintro ⟨⟨body', bodySpan'⟩, t₃, ht₃⟩ ⟨hbody', ht⟩
    refine (hbranches t₃ qs ht).bind ?_
    rintro ⟨branches', t₄, ht₄⟩ ⟨hbranches', ht⟩
    refine .pure ⟨?_, ht⟩
    simp [Stmt.unspanned, Branch.unspannedEach, Branch.unspanned, Guard.unspanned, hcond', hbody',
      hbranches']
  · rename_i hif
    split
    · rename_i hwhile
      refine (expr_respelled _).bind ?_
      rintro ⟨cond, s₂, h₂⟩ hcond
      refine (block_respelled _).bind ?_
      rintro ⟨⟨body, bodySpan⟩, s₃, h₃⟩ hbody
      refine .pure fun t qs ht => ?_
      simp only [Stmt.pieces, List.cons_append, List.append_assoc] at ht
      have hnone := ht.take?_eq_none hif
      obtain ⟨⟨_, t₁, ht₁⟩, htake, ht⟩ := ht.take? hwhile
      rw [bareStmt, hnone, htake]
      refine (hcond t₁ _ ht.respells).bind ?_
      rintro ⟨cond', t₂, ht₂⟩ ⟨hcond', ht⟩
      refine (hbody t₂ _ ht.respells).bind ?_
      rintro ⟨⟨body', bodySpan'⟩, t₃, ht₃⟩ ⟨hbody', ht⟩
      exact .pure ⟨by simp [Stmt.unspanned, hcond', hbody'], ht⟩
    · rename_i hwhile
      split
      · rename_i hreturn
        refine (returnValue_respelled _).bind ?_
        rintro ⟨value, s₂, h₂⟩ hvalue
        refine .pure fun t qs ht => ?_
        have hnone := ht.take?_eq_none hif
        have hnone' := ht.take?_eq_none hwhile
        obtain ⟨⟨_, t₁, ht₁⟩, htake, ht⟩ := Respells.take? ht hreturn
        rw [bareStmt, hnone, hnone', htake]
        refine (hvalue t₁ qs ht).bind ?_
        rintro ⟨value', t₂, ht₂⟩ ⟨hvalue', ht⟩
        exact .pure ⟨by simp only [Stmt.unspanned, hvalue'], ht⟩
      · rename_i hreturn
        split
        · refine (block_respelled s).bind ?_
          rintro ⟨⟨body, span⟩, s₁, h₁⟩ hbody
          refine .pure fun t qs ht => ?_
          simp only [Stmt.pieces] at ht
          -- A brace is a mark, so it is spelled in one way only.
          have hopen : t.kind = .lbrace := by
            obtain ⟨_, r', -, hr', -⟩ := Respells.mark ht
            exact t.kind_eq_headKind.trans (headKind_of_take? hr')
          rw [bareStmt, ht.take?_eq_none hif, ht.take?_eq_none hwhile, ht.take?_eq_none hreturn]
          dsimp only
          rw [if_pos hopen]
          refine (hbody t qs ht).bind ?_
          rintro ⟨⟨body', span'⟩, t₁, ht₁⟩ ⟨hbody', ht⟩
          exact .pure ⟨by simp [Stmt.unspanned, hbody'], ht⟩
        · rename_i hopen
          intro r hr t qs ht
          rw [bareStmt, ht.take?_eq_none hif, ht.take?_eq_none hwhile, ht.take?_eq_none hreturn]
          dsimp only
          rw [if_neg (ht.kind_ne hopen)]
          exact simpleStmt_respelled s r hr t qs ht
termination_by 4 * s.size + 1
decreasing_by all_goals omega

theorem block_respelled (s : TokenStream) :
    Ensures (block s) fun r => ∀ t qs,
      Respells (Piece.braced (Stmt.piecesEach r.value.1) ++ qs) s t →
      Gives (block t) fun r' => Stmt.unspannedEach r'.value.1 = Stmt.unspannedEach r.value.1 ∧
        Abreast qs r.rest r'.rest := by
  rw [block]
  refine (expect_respelled s .lbrace).bind ?_
  rintro ⟨start, s₁, h₁⟩ hopen
  refine (stmts_respelled _).bind ?_
  rintro ⟨body, s₂, h₂⟩ ⟨-, hbody⟩
  refine .pure fun t qs ht => ?_
  simp only [Piece.braced, List.cons_append, List.append_assoc, List.nil_append] at ht
  rw [block]
  refine (hopen t _ ht).bind ?_
  rintro ⟨start', t₁, ht₁⟩ ht
  refine (hbody t₁ qs ht.respells).bind ?_
  rintro ⟨body', t₂, ht₂⟩ hresult
  exact .pure hresult
termination_by 4 * s.size
decreasing_by all_goals omega

theorem stmts_respelled (s : TokenStream) :
    Ensures (stmts s) fun r =>
      (∀ qs, leads (Stmt.piecesEach r.value ++ .mark .rbrace :: qs) ≠ some .semi) ∧
      ∀ t qs, Respells (Stmt.piecesEach r.value ++ .mark .rbrace :: qs) s t →
        Gives (stmts t) fun r' => Stmt.unspannedEach r'.value = Stmt.unspannedEach r.value ∧
          Abreast qs r.rest r'.rest := by
  rw [stmts]
  split
  · rename_i hclose
    refine .ok ⟨fun qs => by simp [Step.map, Stmt.piecesEach], fun t qs ht => ?_⟩
    obtain ⟨r', htake, ht⟩ := Respells.take? ht hclose
    rw [stmts, htake]
    exact .ok ⟨rfl, ht⟩
  · rename_i hclose
    split
    · exact .error
    · rename_i hend
      refine ((stmt_again _).and (stmt_respelled _)).bind ?_
      rintro ⟨first, s₁, h₁⟩ ⟨⟨hlead, -⟩, hsemi, hfirst⟩
      refine (stmts_respelled _).bind ?_
      rintro ⟨body, s₂, h₂⟩ ⟨hbodyLead, hbody⟩
      refine .pure ⟨fun qs => by simpa [Stmt.piecesEach, hlead] using hsemi, fun t qs ht => ?_⟩
      simp only [Stmt.piecesEach, List.cons_append, List.append_assoc] at ht
      rw [stmts, ht.take?_eq_none hclose]
      dsimp only
      rw [if_neg (ht.kind_ne hend)]
      refine (hfirst t _ (hbodyLead qs) ht).bind ?_
      rintro ⟨first', t₁, ht₁⟩ ⟨hsame, ht⟩
      refine (hbody t₁ qs ht.respells).bind ?_
      rintro ⟨body', t₂, ht₂⟩ ⟨hbody', ht⟩
      exact .pure ⟨by simp [Stmt.unspannedEach, hsame, hbody'], ht⟩
termination_by 4 * s.size + 3
decreasing_by all_goals omega

theorem otherBranches_respelled (s : TokenStream) :
    Ensures (otherBranches s) fun r => ∀ t qs, Abreast (Branch.piecesEach r.value ++ qs) s t →
      Gives (otherBranches t) fun r' =>
        Branch.unspannedEach r'.value = Branch.unspannedEach r.value ∧
        Abreast qs r.rest r'.rest := by
  rw [otherBranches]
  split
  · rename_i helif
    refine (expr_respelled _).bind ?_
    rintro ⟨cond, s₂, h₂⟩ hcond
    refine (block_respelled _).bind ?_
    rintro ⟨⟨body, bodySpan⟩, s₃, h₃⟩ hbody
    refine (otherBranches_respelled _).bind ?_
    rintro ⟨branches, s₄, h₄⟩ hbranches
    refine .pure fun t qs ht => ?_
    simp only [Branch.piecesEach, Branch.pieces, Guard.pieces, List.cons_append,
      List.append_assoc] at ht
    obtain ⟨⟨_, t₁, ht₁⟩, htake, ht⟩ := ht.respells.take? helif
    rw [otherBranches, htake]
    refine (hcond t₁ _ ht.respells).bind ?_
    rintro ⟨cond', t₂, ht₂⟩ ⟨hcond', ht⟩
    refine (hbody t₂ _ ht.respells).bind ?_
    rintro ⟨⟨body', bodySpan'⟩, t₃, ht₃⟩ ⟨hbody', ht⟩
    refine (hbranches t₃ qs ht).bind ?_
    rintro ⟨branches', t₄, ht₄⟩ ⟨hbranches', ht⟩
    refine .pure ⟨?_, ht⟩
    simp [Branch.unspannedEach, Branch.unspanned, Guard.unspanned, hcond', hbody', hbranches']
  · rename_i helif
    split
    · rename_i helse
      refine (block_respelled _).bind ?_
      rintro ⟨⟨body, bodySpan⟩, s₂, h₂⟩ hbody
      refine .pure fun t qs ht => ?_
      simp only [Branch.piecesEach, Branch.pieces, Guard.pieces, List.cons_append, List.nil_append,
        List.append_nil] at ht
      have hnone := ht.respells.take?_eq_none helif
      obtain ⟨⟨_, t₁, ht₁⟩, htake, ht⟩ := ht.respells.take? helse
      rw [otherBranches, hnone, htake]
      refine (hbody t₁ qs ht.respells).bind ?_
      rintro ⟨⟨body', bodySpan'⟩, t₂, ht₂⟩ ⟨hbody', ht⟩
      refine .pure ⟨?_, ht⟩
      simp [Branch.unspannedEach, Branch.unspanned, Guard.unspanned, hbody']
    · rename_i helse
      refine .ok fun t qs ht => ?_
      rw [otherBranches, ht.respells.take?_eq_none helif, ht.respells.take?_eq_none helse]
      exact .ok ⟨rfl, ht⟩
termination_by 4 * s.size
decreasing_by all_goals omega

end

/-! ## Units -/

theorem includeTail_respelled (s : TokenStream) :
    Ensures (includeTail s) fun r => ∀ t qs,
      Abreast (Piece.tailed .slash (r.value.map ([·.piece])) ++ qs) s t →
      Gives (includeTail t) fun r' =>
        r'.value.map (·.unspanned) = r.value.map (·.unspanned) ∧ Abreast qs r.rest r'.rest := by
  rw [includeTail]
  split
  · rename_i hslash
    refine .ok fun t qs ht => ?_
    rw [includeTail, ht.respells.take?_eq_none hslash]
    exact .ok ⟨rfl, ht⟩
  · rename_i hslash
    refine (ident_respelled _).bind ?_
    rintro ⟨name, s₂, h₂⟩ hname
    refine (includeTail_respelled _).bind ?_
    rintro ⟨names, s₃, h₃⟩ hmore
    refine .pure fun t qs ht => ?_
    obtain ⟨⟨_, t₁, ht₁⟩, htake, ht⟩ := Respells.take? ht.respells hslash
    rw [includeTail, htake]
    refine (hname t₁ _ ht.respells).bind ?_
    rintro ⟨name', t₂, ht₂⟩ ⟨hname', ht⟩
    refine (hmore t₂ qs ht).bind ?_
    rintro ⟨names', t₃, ht₃⟩ ⟨hnames, ht⟩
    exact .pure ⟨by simp [hname', hnames], ht⟩
termination_by s.size
decreasing_by all_goals omega

theorem defaultValue_respelled (s : TokenStream) :
    Ensures (defaultValue s) fun r => ∀ t qs, Abreast (Expr.initialPieces r.value ++ qs) s t →
      Gives (defaultValue t) fun r' =>
        r'.value.map (·.unspanned) = r.value.map (·.unspanned) ∧ Abreast qs r.rest r'.rest := by
  unfold defaultValue
  split
  · rename_i hassign
    refine .ok fun t qs ht => ?_
    rw [ht.respells.take?_eq_none hassign]
    exact .ok ⟨rfl, ht⟩
  · rename_i hassign
    refine (expr_respelled _).bind ?_
    rintro ⟨value, s₂, h₂⟩ hvalue
    refine .pure fun t qs ht => ?_
    obtain ⟨⟨_, t₁, ht₁⟩, htake, ht⟩ := Respells.take? ht.respells hassign
    rw [htake]
    refine (hvalue t₁ qs ht.respells).bind ?_
    rintro ⟨value', t₂, ht₂⟩ ⟨hsame, ht⟩
    exact .pure ⟨congrArg some hsame, ht⟩

theorem paramList_respelled (needsDefault : Bool) (s : TokenStream) :
    Ensures (paramList needsDefault s) fun r => ∀ t qs,
      Respells (Piece.closing (r.value.1.map (·.pieces) ++ Rest.items r.value.2) ++ qs) s t →
      Gives (paramList needsDefault t) fun r' =>
        r'.value.1.map (·.unspanned) = r.value.1.map (·.unspanned) ∧
        Rest.unspanned r'.value.2 = Rest.unspanned r.value.2 ∧ Abreast qs r.rest r'.rest := by
  rw [paramList]
  split
  · rename_i hrparen
    refine .ok fun t qs ht => ?_
    obtain ⟨r', htake, ht⟩ := Respells.take? ht hrparen
    rw [paramList, htake]
    exact .ok ⟨rfl, rfl, ht⟩
  · rename_i hrparen
    split
    · rename_i hellipsis
      refine (closeRest_respelled _).bind ?_
      rintro ⟨_, s₂, h₂⟩ hclose
      refine .pure fun t qs ht => ?_
      have hnone := ht.take?_eq_none hrparen
      obtain ⟨⟨_, t₁, ht₁⟩, htake, ht⟩ := Respells.take? ht hellipsis
      rw [paramList, hnone, htake]
      refine (hclose t₁ qs ht.respells).bind ?_
      rintro ⟨_, t₂, ht₂⟩ ht
      exact .pure ⟨rfl, rfl, ht⟩
    · rename_i hellipsis
      refine (typeExpr_respelled _).bind ?_
      rintro ⟨ty, s₁, h₁⟩ hty
      dsimp only
      split
      · rename_i hellipsis'
        refine (closeRest_respelled _).bind ?_
        rintro ⟨_, s₃, h₃⟩ hclose
        refine .pure fun t qs ht => ?_
        simp only [List.map_nil, Rest.items, List.nil_append, Piece.closing_cons,
          List.append_assoc, List.cons_append] at ht
        rw [paramList, ht.take?_eq_none hrparen, ht.take?_eq_none hellipsis]
        refine (hty t _ ht).bind ?_
        rintro ⟨ty', t₁, ht₁⟩ ⟨hsame, ht⟩
        obtain ⟨⟨_, t₂, ht₂⟩, htake, ht⟩ := ht.respells.take? hellipsis'
        dsimp only at htake ⊢
        rw [htake]
        refine (hclose t₂ qs ht.respells).bind ?_
        rintro ⟨_, t₃, ht₃⟩ ht
        exact .pure ⟨rfl, by simp [Rest.unspanned, hsame], ht⟩
      · rename_i hellipsis'
        refine (ident_respelled _).bind ?_
        rintro ⟨name, s₂, h₂⟩ hname
        refine (defaultValue_respelled s₂).bind ?_
        rintro ⟨default, s₃, h₃⟩ hdefault
        dsimp only
        split
        · exact .error
        · rename_i hneeds
          -- After the parameter comes the parenthesis, or a comma and the other parameters, of which
          -- there are none after a comma that is added.
          have hitem : ∀ params rest (s₅ : TokenStream),
              (∀ t₃ qs, Respells (Piece.ending (params.map (·.pieces) ++ Rest.items rest) ++ qs)
                  s₃ t₃ →
                (∃ comma, t₃.take? .comma = some comma ∧
                  Gives (paramList default.isSome comma.rest) fun r' =>
                    r'.value.1.map (·.unspanned) = params.map (·.unspanned) ∧
                    Rest.unspanned r'.value.2 = Rest.unspanned rest ∧ Abreast qs s₅ r'.rest) ∨
                params = [] ∧ rest = .none ∧
                  ∃ close, t₃.take? .rparen = some close ∧ Abreast qs s₅ close.rest) →
              ∀ t qs, Respells (Piece.closing
                  ((Param.mk ty name default :: params).map (·.pieces) ++ Rest.items rest) ++ qs)
                  s t →
                Gives (paramList needsDefault t) fun r' =>
                  r'.value.1.map (·.unspanned) =
                    (Param.mk ty name default :: params).map (·.unspanned) ∧
                  Rest.unspanned r'.value.2 = Rest.unspanned rest ∧ Abreast qs s₅ r'.rest := by
            intro params rest s₅ hmore t qs ht
            rw [List.map_cons, List.cons_append, Piece.closing_cons, Param.pieces,
              List.append_assoc, List.append_assoc] at ht
            rw [paramList, ht.take?_eq_none hrparen, ht.take?_eq_none hellipsis]
            refine (hty t _ ht).bind ?_
            rintro ⟨ty', t₁, ht₁⟩ ⟨hsame, ht⟩
            have hnone := ht.respells.take?_eq_none hellipsis'
            dsimp only at hnone ⊢
            rw [hnone]
            refine (hname t₁ _ ht.respells).bind ?_
            rintro ⟨name', t₂, ht₂⟩ ⟨hname', ht⟩
            refine (hdefault t₂ _ ht).bind ?_
            rintro ⟨default', t₃, ht₃⟩ ⟨hdefault', ht⟩
            have hsome := isSome_of_unspanned hdefault'
            have hparam : (Param.mk ty' name' default').unspanned =
                (Param.mk ty name default).unspanned := by
              simp only [Param.unspanned, hsame, hname', hdefault']
            dsimp only at hsome ⊢
            rw [if_neg (by rwa [← Option.not_isSome, hsome, Option.not_isSome])]
            obtain ⟨⟨_, t₄, ht₄⟩, hcomma, hparams⟩ | ⟨rfl, rfl, close, hclose, hrest⟩ :=
              hmore t₃ qs ht.respells
            · rw [hcomma, hsome]
              refine hparams.bind ?_
              rintro ⟨⟨params', rest'⟩, t₅, ht₅⟩ ⟨hparams, hrest, ht⟩
              exact .pure ⟨by simp [hparam, hparams], hrest, ht⟩
            · rw [take?_of_headKind (headKind_of_take? hclose), closeList_eq hclose]
              exact .ok ⟨by simp [hparam], rfl, hrest⟩
          split
          · rename_i hcomma
            refine (paramList_respelled _ _).bind ?_
            rintro ⟨⟨params, rest⟩, s₅, h₅⟩ hmore
            refine .pure (hitem params rest s₅ fun t₃ qs ht => .inl ?_)
            obtain ⟨comma, htake, ht⟩ := ht.take?_comma hcomma
            exact ⟨comma, htake, hmore _ qs ht.respells⟩
          · refine (closeList_take? _).bind ?_
            rintro ⟨_, s₄, h₄⟩ ⟨close, hclose, rfl⟩
            refine .pure (hitem [] .none _ fun t₃ qs ht => ?_)
            obtain hclose' | ⟨comma, htake, close', hclose', hrest⟩ := ht.close hclose
            · exact .inr ⟨rfl, rfl, hclose'⟩
            · refine .inl ⟨comma, htake, ?_⟩
              rw [paramList, hclose']
              exact .ok ⟨rfl, rfl, hrest⟩
termination_by s.size
decreasing_by all_goals omega

theorem functionBody_respelled (s : TokenStream) :
    Ensures (functionBody s) fun r => ∀ t qs,
      Abreast ((r.value.map fun body => Piece.braced (Stmt.piecesEach body)).getD [] ++ qs) s t →
      Gives (functionBody t) fun r' =>
        r'.value.map Stmt.unspannedEach = r.value.map Stmt.unspannedEach ∧
        Abreast qs r.rest r'.rest := by
  unfold functionBody
  split
  · refine (block_respelled s).map ?_
    rintro ⟨⟨body, span⟩, s₁, h₁⟩ hbody t qs ht
    obtain ⟨_, r', -, hr', -⟩ := Respells.mark ht.respells
    rw [if_pos (t.kind_eq_headKind.trans (headKind_of_take? hr'))]
    refine (hbody t qs ht.respells).map ?_
    rintro ⟨⟨body', span'⟩, t₁, ht₁⟩ ⟨hsame, ht⟩
    exact ⟨congrArg some hsame, ht⟩
  · rename_i hopen
    refine .ok fun t qs ht => ?_
    rw [if_neg (ht.respells.kind_ne hopen)]
    exact .ok ⟨rfl, ht⟩

theorem node_respelled (s : TokenStream) :
    Ensures (node s) fun r => headKind s.tokens ≠ .semi ∧ ∀ t qs,
      Respells (r.value.pieces ++ qs) s t →
      Gives (node t) fun r' =>
        r'.value.unspanned = r.value.unspanned ∧ Abreast qs r.rest r'.rest := by
  unfold node
  split
  · rename_i hinclude
    refine (ident_respelled _).bind ?_
    rintro ⟨first, s₂, h₂⟩ hfirst
    refine (includeTail_respelled _).bind ?_
    rintro ⟨more, s₃, h₃⟩ hmore
    refine .pure ⟨by rw [headKind_of_take? hinclude]; decide, fun t qs ht => ?_⟩
    obtain ⟨⟨_, t₁, ht₁⟩, htake, ht⟩ := Respells.take? ht hinclude
    rw [htake]
    refine (hfirst t₁ _ ht.respells).bind ?_
    rintro ⟨first', t₂, ht₂⟩ ⟨hfirst', ht⟩
    refine (hmore t₂ qs ht).bind ?_
    rintro ⟨more', t₃, ht₃⟩ ⟨hmore', ht⟩
    exact .pure ⟨by simp [Node.unspanned, hfirst', hmore'], ht⟩
  · rename_i hinclude
    split
    · rename_i halias
      refine (typeExpr_respelled _).bind ?_
      rintro ⟨target, s₂, h₂⟩ htarget
      refine (ident_respelled _).bind ?_
      rintro ⟨name, s₃, h₃⟩ hname
      refine .pure ⟨by rw [headKind_of_take? halias]; decide, fun t qs ht => ?_⟩
      simp only [Node.pieces, List.cons_append, List.append_assoc] at ht
      have hnone := ht.take?_eq_none hinclude
      obtain ⟨⟨_, t₁, ht₁⟩, htake, ht⟩ := ht.take? halias
      rw [hnone, htake]
      refine (htarget t₁ _ ht.respells).bind ?_
      rintro ⟨target', t₂, ht₂⟩ ⟨htarget', ht⟩
      refine (hname t₂ _ ht.respells).bind ?_
      rintro ⟨name', t₃, ht₃⟩ ⟨hname', ht⟩
      exact .pure ⟨by simp [Node.unspanned, htarget', hname'], ht⟩
    · rename_i halias
      -- No type starts with a semicolon, so neither does a part that starts with a type.
      refine ((typeExpr_ne_semi s).and (typeExpr_respelled _)).bind ?_
      rintro ⟨ty, s₁, h₁⟩ ⟨hsemi, hty⟩
      refine (ident_respelled _).bind ?_
      rintro ⟨name, s₂, h₂⟩ hname
      dsimp only
      split
      · rename_i hlparen
        refine (paramList_respelled _ _).bind ?_
        rintro ⟨⟨params, rest⟩, s₄, h₄⟩ hparams
        refine (functionBody_respelled _).bind ?_
        rintro ⟨body, s₅, h₅⟩ hbody
        refine .pure ⟨hsemi, fun t qs ht => ?_⟩
        simp only [Node.pieces, List.append_assoc, List.cons_append] at ht
        rw [ht.take?_eq_none hinclude, ht.take?_eq_none halias]
        refine (hty t _ ht).bind ?_
        rintro ⟨ty', t₁, ht₁⟩ ⟨hty', ht⟩
        refine (hname t₁ _ ht.respells).bind ?_
        rintro ⟨name', t₂, ht₂⟩ ⟨hname', ht⟩
        obtain ⟨⟨_, t₃, ht₃⟩, htake, ht⟩ := ht.respells.take? hlparen
        dsimp only at htake ⊢
        rw [htake]
        refine (hparams t₃ _ ht.respells).bind ?_
        rintro ⟨⟨params', rest'⟩, t₄, ht₄⟩ ⟨hparams', hrest, ht⟩
        refine (hbody t₄ qs ht).bind ?_
        rintro ⟨body', t₅, ht₅⟩ ⟨hbody', ht⟩
        refine .pure ⟨?_, ht⟩
        simp only [Node.unspanned, hty', hname', hparams', hrest, hbody']
      · rename_i hlparen
        refine (varDecl_respelled _ _ _).bind ?_
        rintro ⟨var, s₃, h₃⟩ ⟨hpieces, hvar⟩
        refine .pure ⟨hsemi, fun t qs ht => ?_⟩
        simp only [Node.pieces, hpieces, List.append_assoc, List.cons_append] at ht
        rw [ht.take?_eq_none hinclude, ht.take?_eq_none halias]
        refine (hty t _ ht).bind ?_
        rintro ⟨ty', t₁, ht₁⟩ ⟨hty', ht⟩
        refine (hname t₁ _ ht.respells).bind ?_
        rintro ⟨name', t₂, ht₂⟩ ⟨hname', ht⟩
        have hnone := ht.respells.take?_eq_none hlparen
        dsimp only at hnone ⊢
        rw [hnone]
        refine (hvar ty' name' t₂ qs hty' hname' ht).bind ?_
        rintro ⟨var', t₃, ht₃⟩ ⟨hvar', ht⟩
        exact .pure ⟨by simp [Node.unspanned, hvar'], ht⟩

/-- The parts of a unit are read alike up to the end. -/
theorem nodes_respelled (s : TokenStream) :
    Ensures (nodes s) fun ns => leads (Node.piecesEach ns) ≠ some .semi ∧
      ∀ t, Respells (Node.piecesEach ns) s t →
        Gives (nodes t) fun ns' => ns'.map (·.unspanned) = ns.map (·.unspanned) := by
  rw [nodes]
  split
  · refine .ok ⟨by simp [Node.piecesEach], fun t ht => ?_⟩
    have hend : t.kind = .eof := by
      obtain ⟨last, us, stop⟩ := t
      obtain ⟨last', ts, stop'⟩ := s
      cases ht
      rfl
    rw [nodes, if_pos hend]
    exact .ok rfl
  · rename_i hend
    refine ((node_again s).and (node_respelled s)).bind ?_
    rintro ⟨first, s₁, h₁⟩ ⟨⟨hlead, -⟩, hsemi, hfirst⟩
    have := (s₁.skip .semi).notLonger
    refine (nodes_respelled _).bind ?_
    rintro more ⟨hmoreLead, hmore⟩
    refine .pure ⟨by simpa [Node.piecesEach, hlead] using hsemi, fun t ht => ?_⟩
    rw [Node.piecesEach, List.flatMap_cons, List.append_assoc] at ht
    rw [nodes, if_neg (ht.kind_ne hend)]
    refine (hfirst t _ ht).bind ?_
    rintro ⟨first', t₁, ht₁⟩ ⟨hsame, ht⟩
    refine (hmore (t₁.skip .semi).rest (ht.skip hmoreLead).respells).bind ?_
    intro more' hmore'
    exact .pure (by simp [hsame, hmore'])
termination_by s.size
decreasing_by all_goals omega

end Parser

end KilnLang
