import Mathlib.Logic.Relation
import Mathlib.Tactic.SplitIfs
import KilnLang.Proofs.Header.TokenIndices

/-!
# Bodies and wrappers in a header

**Theorem (`declared_through_bodies_and_wrappers`).** A scan finds the same declarations and knows
the same types if the tokens of a body are exchanged for other ones, and if the braces of a wrapper
`extern "C"` are taken away. The braces of what is exchanged or unwrapped have to match.

**Starts.** A wrapper stands where a declaration starts that is in no body: at the start of the
header, after a semicolon, after the body of a function, in a wrapper, and after one (`Starts`).
There the scan has no declaration open (`atStart_of_starts`).

**What is lost.** The scan takes a body that does not follow a closing parenthesis for one of an
aggregate, and does not end the declaration before the next semicolon. If that declaration is a
function with a body of its own, it swallows all that comes up to the semicolon, prototypes and
wrappers too (`scanned_skips`). So the body of such a function is no place where `Starts` holds.

In a body the scan keeps nothing: it leaves the tokens between matching braces in the state in which
it came to them (`DeclScan.run_body`). In a wrapper the scan differs in one transparent brace from a
scan without the wrapper (`DeclScan.under`), and a transparent brace makes no body
(`DeclScan.run_under`). A scan looks two tokens ahead, so both need that the tokens may be cut where
the wrapper begins and ends (`DeclScan.run_append`).
-/

namespace KilnLang.Header

/-! ## Matching braces -/

/-- Each brace of the tokens has its match among them. -/
inductive Balanced : List CToken → Prop
  | nil : Balanced []
  | token {t ts} (hopen : t ≠ .punct '{') (hclose : t ≠ .punct '}') (h : Balanced ts) :
    Balanced (t :: ts)
  | block {inner ts} (hinner : Balanced inner) (h : Balanced ts) :
    Balanced (.punct '{' :: inner ++ .punct '}' :: ts)

theorem Balanced.of_plain {ts : List CToken} (h : ∀ t ∈ ts, t ≠ .punct '{' ∧ t ≠ .punct '}') :
    Balanced ts := by
  induction ts with
  | nil => exact .nil
  | cons t ts ih =>
    obtain ⟨⟨hopen, hclose⟩, hmore⟩ := List.forall_mem_cons.mp h
    exact .token hopen hclose (ih hmore)

/-- The tokens close `depth` braces that are open before them, and all that they open. -/
def ClosesBraces : Nat → List CToken → Prop
  | depth, [] => depth = 0
  | depth, t :: ts =>
    if t = .punct '{' then ClosesBraces (depth + 1) ts
    else if t = .punct '}' then 0 < depth ∧ ClosesBraces (depth - 1) ts
    else ClosesBraces depth ts

theorem Balanced.closesBraces_append {ts : List CToken} (h : Balanced ts) (depth : Nat)
    (rest : List CToken) : ClosesBraces depth (ts ++ rest) ↔ ClosesBraces depth rest := by
  induction h generalizing depth rest with
  | nil => rfl
  | token hopen hclose _ ih => rw [List.cons_append, ClosesBraces, if_neg hopen, if_neg hclose, ih]
  | @block inner ts _ _ ihinner ih =>
    have happend : .punct '{' :: inner ++ .punct '}' :: ts ++ rest =
        .punct '{' :: (inner ++ .punct '}' :: (ts ++ rest)) := by simp
    rw [happend, ClosesBraces, if_pos rfl, ihinner, ClosesBraces, if_neg (by decide), if_pos rfl,
      Nat.add_sub_cancel, ih]
    exact and_iff_right depth.succ_pos

theorem Balanced.closesBraces {ts : List CToken} (h : Balanced ts) : ClosesBraces 0 ts := by
  have hclosed : ClosesBraces 0 (ts ++ []) := (h.closesBraces_append 0 []).mpr rfl
  rwa [List.append_nil] at hclosed

namespace DeclScan

variable {s : DeclScan} {t : CToken} {ts front rest : List CToken}

/-! ## Cutting a scan -/

/-- A wrapper would begin in the first tokens and end in the other ones. -/
def Straddles (front rest : List CToken) : Prop :=
  (∃ init w more, front = init ++ [.word w] ∧ rest = .str :: .punct '{' :: more) ∨
    ∃ init w more, front = init ++ [.word w, .str] ∧ rest = .punct '{' :: more

theorem Straddles.prepend (init : List CToken) (h : Straddles front rest) :
    Straddles (init ++ front) rest := by
  obtain ⟨before, w, more, rfl, rfl⟩ | ⟨before, w, more, rfl, rfl⟩ := h
  · exact .inl ⟨init ++ before, w, more, (List.append_assoc ..).symm, rfl⟩
  · exact .inr ⟨init ++ before, w, more, (List.append_assoc ..).symm, rfl⟩

theorem not_straddles_of_head (hstr : t ≠ .str) (hopen : t ≠ .punct '{') :
    ¬ Straddles front (t :: rest) := by
  rintro (⟨_, _, _, -, heq⟩ | ⟨_, _, _, -, heq⟩)
  · exact hstr (List.cons.inj heq).1
  · exact hopen (List.cons.inj heq).1

theorem not_straddles_of_last (hword : ∀ w, t ≠ .word w) (hstr : t ≠ .str) :
    ¬ Straddles (front ++ [t]) rest := by
  rintro (⟨init, w, _, heq, -⟩ | ⟨init, w, _, heq, -⟩)
  · exact hword w (List.singleton_inj.mp (List.append_inj' heq rfl).2)
  · have hsplit : front ++ [t] = init ++ [.word w] ++ [.str] := by rw [heq, List.append_assoc]; rfl
    exact hstr (List.singleton_inj.mp (List.append_inj' hsplit rfl).2)

theorem run_cons (h : ∀ w more, t = .word w → ts ≠ .str :: .punct '{' :: more) :
    s.run (t :: ts) = (s.step t).run ts := by
  rw [run]
  exact fun w more ht => h w more ht

theorem step_open : s.step (.punct '{') = s.openBrace := rfl

theorem step_close : s.step (.punct '}') = s.closeBrace := rfl

/-- A declaration may start here. -/
def AtStart (s : DeclScan) : Prop := s.inBody = false ∧ s.current = []

theorem atStart_iff : s.AtStart ↔ !s.inBody ∧ s.current.isEmpty := by
  simp [AtStart]

/-- A wrapper is opened where a declaration may start. -/
theorem run_wrapper (h : s.AtStart) (ts : List CToken) :
    s.run (.word "extern" :: .str :: .punct '{' :: ts) =
      run { s with braces := true :: s.braces } ts := by
  rw [run, if_pos ⟨rfl, atStart_iff.mp h⟩]

theorem run_str (ts : List CToken) : s.run (.str :: ts) = (s.step .str).run ts :=
  run_cons nofun

theorem run_punct (c : Char) (ts : List CToken) :
    s.run (.punct c :: ts) = (s.step (.punct c)).run ts :=
  run_cons nofun

theorem run_cons_of_not_wrapper (h : t = .word "extern" → ¬ s.AtStart) (ts : List CToken) :
    s.run (t :: ts) = (s.step t).run ts := by
  by_cases hwrapper : ∃ w more, t = .word w ∧ ts = .str :: .punct '{' :: more
  · obtain ⟨w, more, rfl, rfl⟩ := hwrapper
    have hno : ¬ (w = "extern" ∧ !s.inBody ∧ s.current.isEmpty) := by
      rintro ⟨rfl, hstart⟩
      exact h rfl (atStart_iff.mpr hstart)
    rw [run, if_neg hno, run_str, run_punct]
  · exact run_cons fun w more ht hts => hwrapper ⟨w, more, ht, hts⟩

theorem not_atStart_of_inBody (hbody : s.inBody) : ¬ s.AtStart :=
  fun hstart => Bool.false_ne_true (hstart.1.symm.trans hbody)

/-- A declaration goes on after a token that is no brace and no semicolon. -/
theorem not_atStart_step (hopen : t ≠ .punct '{') (hclose : t ≠ .punct '}')
    (hend : t ≠ .punct ';') : ¬ (s.step t).AtStart := by
  rw [step, if_neg hopen, if_neg hclose, if_neg hend]
  split
  · exact not_atStart_of_inBody ‹_›
  · exact fun hstart => List.append_ne_nil_of_right_ne_nil _ (List.cons_ne_nil t []) hstart.2

theorem run_append (s : DeclScan) (h : ¬ Straddles front rest) :
    s.run (front ++ rest) = (s.run front).run rest := by
  fun_induction run s front with
  | case1 s => rfl
  | case2 s w ts hwrapper ih =>
    rw [← ih fun hts => h (hts.prepend [_, _, _])]
    simp only [List.cons_append]
    rw [run, if_pos hwrapper]
  | case3 s w ts hwrapper ih =>
    rw [← ih fun hts => h (hts.prepend [_, _, _])]
    simp only [List.cons_append]
    rw [run, if_neg hwrapper]
  | case4 s t ts hno ih =>
    rw [← ih fun hts => h (hts.prepend [_]), List.cons_append]
    refine run_cons fun w more ht hts => h ?_
    subst ht
    match ts, hts with
    | [], hts => exact .inl ⟨[], w, more, rfl, hts⟩
    | [_], hts =>
      obtain ⟨rfl, rfl⟩ := List.cons.inj hts
      exact .inr ⟨[], w, more, rfl, rfl⟩
    | _ :: _ :: ts, hts =>
      simp only [List.cons_append, List.cons.injEq] at hts
      obtain ⟨rfl, rfl, -⟩ := hts
      exact absurd rfl (hno w ts rfl)

/-! ## Bodies -/

theorem step_of_inBody (hbody : s.inBody) (hopen : t ≠ .punct '{') (hclose : t ≠ .punct '}') :
    s.step t = s := by
  rw [step, if_neg hopen, if_neg hclose, semicolon, if_pos hbody, if_pos hbody,
    ite_self]

theorem closeBrace_openBrace (hbody : s.inBody) : s.openBrace.closeBrace = s := by
  have hopened : s.openBrace = { s with braces := false :: s.braces } := by
    rw [openBrace, hbody]
    simp
  rw [hopened]
  change (if !false && !s.inBody && !s.aggregate then _ else s) = s
  rw [hbody]
  rfl

/-- In a body the scan goes past tokens with matching braces. -/
theorem run_body {body : List CToken} (h : Balanced body) (hbody : s.inBody) (rest : List CToken) :
    s.run (body ++ rest) = s.run rest := by
  induction h generalizing s rest with
  | nil => rfl
  | token hopen hclose _ ih =>
    rw [List.cons_append, run_cons_of_not_wrapper fun _ => not_atStart_of_inBody hbody,
      step_of_inBody hbody hopen hclose, ih hbody]
  | @block inner ts _ _ ihinner ih =>
    have happend : .punct '{' :: inner ++ .punct '}' :: ts ++ rest =
        .punct '{' :: (inner ++ .punct '}' :: (ts ++ rest)) := by simp
    have hopened : s.openBrace.inBody := rfl
    rw [happend, run_cons_of_not_wrapper fun _ => not_atStart_of_inBody hbody, step_open,
      ihinner hopened, run_cons_of_not_wrapper fun _ => not_atStart_of_inBody hopened, step_close,
      closeBrace_openBrace hbody, ih hbody]

/-! ## Wrappers -/

/-- The same state with one more transparent brace, below the braces `top` and above `braces`. -/
def under (top braces : List Bool) (s : DeclScan) : DeclScan :=
  { s with braces := top ++ true :: braces }

theorem inBody_under {top braces : List Bool} (h : s.braces = top ++ braces) :
    (s.under top braces).inBody = s.inBody := by
  simp [inBody, under, h]

theorem current_under {top braces : List Bool} : (s.under top braces).current = s.current := rfl

/-- A scan below a wrapper does what it does without the wrapper, as long as the brace of the
wrapper is not closed. -/
theorem step_under {top braces : List Bool} (h : s.braces = top ++ braces)
    (hcloses : ClosesBraces top.length (t :: ts)) :
    ∃ top', ClosesBraces top'.length ts ∧ (s.step t).braces = top' ++ braces ∧
      (s.under top braces).step t = (s.step t).under top' braces := by
  have hbody := inBody_under h
  unfold ClosesBraces at hcloses
  split_ifs at hcloses with hopen hclose
  · subst hopen
    refine ⟨false :: top, hcloses, by rw [step_open, openBrace, h]; rfl, ?_⟩
    rw [step_open, step_open, openBrace, openBrace, hbody]
    rfl
  · subst hclose
    obtain ⟨hpos, hcloses⟩ := hcloses
    obtain ⟨transparent, top, rfl⟩ := List.exists_cons_of_length_pos hpos
    refine ⟨top, hcloses, ?_, ?_⟩
    · rw [step_close, closeBrace, h]
      dsimp only [List.cons_append]
      split <;> rfl
    · have hclosed := inBody_under (s := { s with braces := top ++ braces }) rfl
      change (if !transparent && !(under top braces { s with braces := top ++ braces }).inBody &&
        !s.aggregate then _ else _) = _
      rw [hclosed, step_close, closeBrace, h]
      dsimp only [List.cons_append]
      split <;> rfl
  · refine ⟨top, hcloses, ?_, ?_⟩
    · rw [step, if_neg hopen, if_neg hclose, semicolon]
      split_ifs <;> exact h
    · rw [step, if_neg hopen, if_neg hclose, semicolon, hbody, step, if_neg hopen, if_neg hclose,
        semicolon]
      change (if _ then if _ then _ else if s.aggregate then _ else _ else _) = _
      split_ifs <;> rfl

/-- Once the braces that are open above a wrapper are closed, the scans with and without it differ
in its brace alone. -/
theorem run_under {top braces : List Bool} (h : s.braces = top ++ braces)
    (hcloses : ClosesBraces top.length ts) :
    (s.run ts).braces = braces ∧ (s.under top braces).run ts = (s.run ts).under [] braces := by
  fun_induction run s ts generalizing top with
  | case1 s =>
    obtain rfl := List.length_eq_zero_iff.mp hcloses
    exact ⟨h, rfl⟩
  | case2 s w ts hwrapper ih =>
    have hopened : ClosesBraces (true :: top).length ts := by simpa [ClosesBraces] using hcloses
    have htop : true :: s.braces = (true :: top) ++ braces := by rw [h]; rfl
    obtain ⟨hbraces, hrun⟩ := ih htop hopened
    refine ⟨hbraces, ?_⟩
    rw [run, inBody_under h, current_under, if_pos hwrapper]
    exact hrun
  | case3 s w ts hwrapper ih =>
    obtain ⟨top₁, hcloses₁, hbraces₁, hstep₁⟩ := step_under h hcloses
    obtain ⟨top₂, hcloses₂, hbraces₂, hstep₂⟩ := step_under hbraces₁ hcloses₁
    obtain ⟨top₃, hcloses₃, hbraces₃, hstep₃⟩ := step_under hbraces₂ hcloses₂
    obtain ⟨hbraces, hrun⟩ := ih hbraces₃ hcloses₃
    refine ⟨hbraces, ?_⟩
    rw [run, inBody_under h, current_under, if_neg hwrapper, hstep₁, hstep₂, hstep₃, hrun]
  | case4 s t ts hno ih =>
    obtain ⟨top₁, hcloses₁, hbraces₁, hstep₁⟩ := step_under h hcloses
    obtain ⟨hbraces, hrun⟩ := ih hbraces₁ hcloses₁
    refine ⟨hbraces, ?_⟩
    rw [run_cons fun w more ht hts => hno w more ht hts, hstep₁, hrun]

/-- The brace of a wrapper ends no declaration. -/
theorem closeBrace_under {braces : List Bool} (h : s.braces = braces) :
    (s.under [] braces).closeBrace = s := by
  subst h
  rfl

/-! ## Ends of declarations -/

theorem braces_run (h : Balanced ts) (s : DeclScan) : (s.run ts).braces = s.braces :=
  (run_under (List.nil_append s.braces).symm h.closesBraces).1

theorem inBody_run (h : Balanced ts) (s : DeclScan) : (s.run ts).inBody = s.inBody := by
  rw [inBody, inBody, braces_run h]

/-- A semicolon outside of bodies ends the declaration, whatever it was. -/
theorem semicolon_ends (hbody : s.inBody = false) :
    s.semicolon.AtStart ∧ s.semicolon.aggregate = false := by
  rw [semicolon, if_neg (Bool.eq_false_iff.mp hbody)]
  split_ifs with haggregate
  · exact ⟨⟨hbody, rfl⟩, rfl⟩
  · exact ⟨⟨hbody, rfl⟩, Bool.eq_false_iff.mpr haggregate⟩

/-- The body of a function ends its declaration, and any other body does not. -/
theorem closeBrace_openBrace_outside (hbody : s.inBody = false) :
    s.openBrace.closeBrace =
      if s.aggregate || s.current.getLast? != some (.punct ')') then { s with aggregate := true }
      else s.finish := by
  have hopened : s.openBrace = { s with
      braces := false :: s.braces
      aggregate := s.aggregate || s.current.getLast? != some (.punct ')') } := by
    rw [openBrace, hbody]
    rfl
  rw [hopened]
  cases haggregate : s.aggregate || s.current.getLast? != some (.punct ')')
  · have hsame : ({ s with aggregate := false } : DeclScan) = s := by
      rw [← (Bool.or_eq_false_iff.mp haggregate).1]
    change (if !false && !s.inBody && !false then finish { s with aggregate := false } else _) = _
    rw [hbody, hsame, if_neg Bool.false_ne_true]
    rfl
  · change (if !false && !s.inBody && !true then _ else _) = _
    rw [hbody]
    rfl

/-- A body after a closing parenthesis ends a declaration that has no other body. -/
theorem function_ends (hbody : s.inBody = false) (haggregate : s.aggregate = false) :
    (s.step (.punct ')')).openBrace.closeBrace.AtStart ∧
      (s.step (.punct ')')).openBrace.closeBrace.aggregate = false := by
  have hstep : s.step (.punct ')') = { s with current := s.current ++ [.punct ')'] } := by
    rw [step, if_neg (by decide), if_neg (by decide), if_neg (by decide),
      if_neg (Bool.eq_false_iff.mp hbody)]
  rw [hstep,
    closeBrace_openBrace_outside (s := { s with current := s.current ++ [.punct ')'] }) hbody,
    haggregate, List.getLast?_concat, bne_self_eq_false, if_neg (by decide)]
  exact ⟨⟨hbody, rfl⟩, rfl⟩

/-- Tokens without braces are no body, so the scan does not come to take them for an aggregate. -/
theorem aggregate_run (hplain : ∀ t ∈ ts, t ≠ .punct '{' ∧ t ≠ .punct '}')
    (haggregate : s.aggregate = false) : (s.run ts).aggregate = false := by
  induction ts generalizing s with
  | nil => exact haggregate
  | cons t ts ih =>
    obtain ⟨⟨hopen, hclose⟩, hmore⟩ := List.forall_mem_cons.mp hplain
    have hnext : ∀ w more, t = .word w → ts ≠ .str :: .punct '{' :: more := by
      rintro w more - rfl
      exact (hmore _ (List.mem_cons_of_mem _ List.mem_cons_self)).1 rfl
    rw [run_cons hnext]
    refine ih hmore ?_
    rw [step, if_neg hopen, if_neg hclose, semicolon]
    split_ifs <;> first | exact haggregate | rfl

/-- Outside of bodies a declaration takes in all tokens that do not end it. -/
theorem run_words (hwords : ∀ t ∈ ts, t ≠ .punct '{' ∧ t ≠ .punct '}' ∧ t ≠ .punct ';')
    (hbody : s.inBody = false) : s.run ts = { s with current := s.current ++ ts } := by
  induction ts generalizing s with
  | nil => rw [List.append_nil]; rfl
  | cons t ts ih =>
    obtain ⟨⟨hopen, hclose, hend⟩, hmore⟩ := List.forall_mem_cons.mp hwords
    have hnext : ∀ w more, t = .word w → ts ≠ .str :: .punct '{' :: more := by
      rintro w more - rfl
      exact (hmore _ (List.mem_cons_of_mem _ List.mem_cons_self)).1 rfl
    have hstep : s.step t = { s with current := s.current ++ [t] } := by
      rw [step, if_neg hopen, if_neg hclose, if_neg hend, if_neg (Bool.eq_false_iff.mp hbody)]
    rw [run_cons hnext, hstep, ih (s := { s with current := s.current ++ [t] }) hmore hbody,
      List.append_assoc]
    rfl

/-- Tokens with matching braces and without a semicolon outside of them. -/
inductive GoesOn : List CToken → Prop
  | nil : GoesOn []
  | token {t : CToken} {ts : List CToken} (hopen : t ≠ .punct '{') (hclose : t ≠ .punct '}')
    (hend : t ≠ .punct ';') (h : GoesOn ts) : GoesOn (t :: ts)
  | block {inner ts : List CToken} (hinner : Balanced inner) (h : GoesOn ts) :
    GoesOn (.punct '{' :: inner ++ .punct '}' :: ts)

/-- In the declaration of an aggregate neither tokens nor bodies change more than its tokens. -/
theorem run_goesOn (h : GoesOn ts) (hbody : s.inBody = false) (haggregate : s.aggregate = true)
    (hcurrent : s.current ≠ []) (rest : List CToken) :
    ∃ current, s.run (ts ++ rest) = run { s with current } rest := by
  induction h generalizing s rest with
  | nil => exact ⟨s.current, rfl⟩
  | @token t ts hopen hclose hend _ ih =>
    have hstep : s.step t = { s with current := s.current ++ [t] } := by
      rw [step, if_neg hopen, if_neg hclose, if_neg hend, if_neg (Bool.eq_false_iff.mp hbody)]
    obtain ⟨current, hrun⟩ := ih (s := { s with current := s.current ++ [t] }) hbody haggregate
      (by simp) rest
    refine ⟨current, ?_⟩
    rw [List.cons_append, run_cons_of_not_wrapper fun _ hstart => hcurrent hstart.2, hstep, hrun]
  | @block inner ts hinner _ ih =>
    have happend : .punct '{' :: inner ++ .punct '}' :: ts ++ rest =
        .punct '{' :: (inner ++ .punct '}' :: (ts ++ rest)) := by simp
    have hclosed : s.openBrace.closeBrace = s := by
      rw [closeBrace_openBrace_outside hbody, haggregate, Bool.true_or, if_pos rfl, ← haggregate]
    obtain ⟨current, hrun⟩ := ih hbody haggregate hcurrent rest
    refine ⟨current, ?_⟩
    rw [happend, run_punct, step_open, run_body hinner rfl, run_punct, step_close, hclosed, hrun]

/-- After a body that is not one of a function nothing is kept up to the next semicolon outside of
bodies. -/
theorem run_aggregate (hstart : s.AtStart) (haggregate : s.aggregate = false)
    (hwords : ∀ u ∈ front ++ [t], u ≠ .punct '{' ∧ u ≠ .punct '}' ∧ u ≠ .punct ';')
    (hparams : t ≠ .punct ')') (h : GoesOn ts) (rest : List CToken) :
    (s.run (front ++ [t])).openBrace.closeBrace.run (ts ++ .punct ';' :: rest) = s.run rest := by
  obtain ⟨hbody, hcurrent⟩ := hstart
  have hclosed : (s.run (front ++ [t])).openBrace.closeBrace =
      { s with current := front ++ [t], aggregate := true } := by
    rw [run_words hwords hbody, hcurrent, List.nil_append,
      closeBrace_openBrace_outside (s := { s with current := front ++ [t] }) hbody]
    exact if_pos (by simp [hparams])
  obtain ⟨current, hrun⟩ := run_goesOn
    (s := { s with current := front ++ [t], aggregate := true }) h hbody rfl (by simp)
    (.punct ';' :: rest)
  -- The semicolon leaves the state before the declaration, which had nothing open.
  have hend : step { s with current, aggregate := true } (.punct ';') = s := by
    change (if s.inBody then _ else if true then _ else _) = _
    rw [hbody, if_neg Bool.false_ne_true, if_pos rfl, ← hcurrent, ← haggregate]
  rw [hclosed, hrun, run_punct, hend]

end DeclScan

/-! ## Headers -/

/-- The state of a scan after the first tokens of a header. -/
def scanned (known : KnownTypes) (ts : List CToken) : DeclScan :=
  DeclScan.run ⟨[], [], false, known, []⟩ ts

/-- The symbols that the tokens of a header declare, and the types known after them. -/
def declaredBy (known : KnownTypes) (ts : List CToken) : List HeaderSymbol × KnownTypes :=
  ((scanned known ts).symbols, (scanned known ts).known)

theorem declarations_eq_declaredBy (known : KnownTypes) (text : List Char) :
    declarations known text = declaredBy known (CToken.tokenize text) := rfl

/-- After these tokens a brace may open a wrapper: they end with `extern "C"`, and no token before
shows that a declaration goes on there. -/
def OpensWrapper (pre : List CToken) : Prop :=
  ∃ init, pre = init ++ [.word "extern", .str] ∧
    ∀ t ∈ init.getLast?, t = .punct ';' ∨ t = .punct '{' ∨ t = .punct '}'

/-- The tokens before the body of a function: none of them is a brace, and the last one closes the
parameters. -/
structure IsHeading (ts : List CToken) : Prop where
  plain : ∀ t ∈ ts, t ≠ .punct '{' ∧ t ≠ .punct '}'
  last : ts.getLast? = some (.punct ')')

/-- A declaration that is in no body starts after these tokens: at the start of a header, after a
semicolon, after the body of a function, in a wrapper, and after a wrapper that leaves no
declaration open. A body may also stand alone, for a function whose parameters are declared after
their list; `skips` says that one does, and no semicolon follows, so that the scan will skip a
declaration. -/
inductive Starts : Bool → List CToken → Prop
  | first : Starts false []
  | declared {skips pre decl} (h : Starts skips pre) (hdecl : Balanced decl) :
    Starts false (pre ++ decl ++ [.punct ';'])
  | defined {pre heading body} (h : Starts false pre) (hheading : IsHeading heading)
    (hbody : Balanced body) : Starts false (pre ++ heading ++ .punct '{' :: body ++ [.punct '}'])
  | alone {skips pre body} (h : Starts skips pre) (hbody : Balanced body) :
    Starts true (pre ++ .punct '{' :: body ++ [.punct '}'])
  | opened {skips pre} (h : Starts skips pre) :
    Starts skips (pre ++ [.word "extern", .str, .punct '{'])
  | closed {skips skips' pre content} (h : Starts skips pre) (hcontent : Balanced content)
    (hend : Starts skips' (pre ++ [.word "extern", .str, .punct '{'] ++ content)) :
    Starts skips' (pre ++ [.word "extern", .str, .punct '{'] ++ content ++ [.punct '}'])

/-- No declaration is left open at the end of the tokens. -/
def EndsDeclaration (content : List CToken) : Prop :=
  content = [] ∨ content.getLast? = some (.punct ';') ∨ content.getLast? = some (.punct '}')

section Scan

variable {known : KnownTypes} {pre content post : List CToken}

theorem scanned_append (h : ¬ DeclScan.Straddles pre post) :
    scanned known (pre ++ post) = (scanned known pre).run post :=
  DeclScan.run_append _ h

theorem scanned_concat {t : CToken} (hopen : t ≠ .punct '{') (pre : List CToken) :
    scanned known (pre ++ [t]) = (scanned known pre).step t := by
  have hcut : ¬ DeclScan.Straddles pre [t] := by
    rintro (⟨_, _, _, -, heq⟩ | ⟨_, _, _, -, heq⟩)
    · exact nomatch (List.cons.inj heq).2
    · exact hopen (List.cons.inj heq).1
  rw [scanned_append hcut, DeclScan.run_cons fun _ _ _ => (List.cons_ne_nil _ _).symm]
  rfl

/-- A declaration goes on after a last token that is no brace and no semicolon. -/
theorem not_atStart_concat {t : CToken} (hopen : t ≠ .punct '{') (hclose : t ≠ .punct '}')
    (hend : t ≠ .punct ';') (pre : List CToken) : ¬ (scanned known (pre ++ [t])).AtStart := by
  rw [scanned_concat hopen]
  exact DeclScan.not_atStart_step hopen hclose hend

theorem not_atStart_str (init : List CToken) :
    ¬ (scanned known (init ++ [.word "extern", .str])).AtStart := by
  rw [show init ++ [CToken.word "extern", .str] = init ++ [.word "extern"] ++ [.str] by simp]
  exact not_atStart_concat (t := .str) nofun nofun nofun _

/-- A brace opens a body if it does not come after `extern "C"` where a declaration may start. -/
theorem scanned_body
    (h : ∀ init, pre = init ++ [.word "extern", .str] → ¬ (scanned known init).AtStart)
    (post : List CToken) :
    scanned known (pre ++ .punct '{' :: post) = (scanned known pre).openBrace.run post := by
  by_cases hstr : ∃ init w, pre = init ++ [.word w, .str]
  · obtain ⟨init, w, rfl⟩ := hstr
    have hno : CToken.word w = .word "extern" → ¬ (scanned known init).AtStart := by
      intro hw
      exact h init (by rw [hw])
    have hscan (rest : List CToken) : scanned known (init ++ .word w :: .str :: rest) =
        ((scanned known init).step (.word w)).run (.str :: rest) := by
      rw [scanned_append (DeclScan.not_straddles_of_head (t := .word w) nofun nofun),
        DeclScan.run_cons_of_not_wrapper hno]
    rw [List.append_assoc, List.cons_append, List.cons_append, List.nil_append, hscan, hscan,
      DeclScan.run_str, DeclScan.run_punct, DeclScan.run_str]
    rfl
  · have hcut : ¬ DeclScan.Straddles pre (.punct '{' :: post) := by
      rintro (⟨_, _, _, -, heq⟩ | ⟨init, w, _, heq, -⟩)
      · exact nomatch heq
      · exact hstr ⟨init, w, heq⟩
    rw [scanned_append hcut, DeclScan.run_punct]
    rfl

/-- What follows a body does not depend on the tokens in it. -/
theorem scanned_block
    (h : ∀ init, pre = init ++ [.word "extern", .str] → ¬ (scanned known init).AtStart)
    (hcontent : Balanced content) (post : List CToken) :
    scanned known (pre ++ .punct '{' :: content ++ .punct '}' :: post) =
      (scanned known pre).openBrace.closeBrace.run post := by
  rw [List.append_assoc, List.cons_append, scanned_body h, DeclScan.run_body hcontent rfl,
    DeclScan.run_punct]
  rfl

/-- Where a declaration may start the scan did not come to half of a wrapper. -/
theorem not_straddles_of_atStart (h : (scanned known pre).AtStart) (post : List CToken) :
    ¬ DeclScan.Straddles pre post := by
  rintro (⟨init, w, _, rfl, -⟩ | ⟨init, w, _, rfl, -⟩)
  · exact not_atStart_concat (t := .word w) nofun nofun nofun init h
  · rw [show init ++ [CToken.word w, .str] = init ++ [.word w] ++ [.str] by simp] at h
    exact not_atStart_concat (t := .str) nofun nofun nofun _ h

theorem scanned_append_of_atStart (h : (scanned known pre).AtStart) (post : List CToken) :
    scanned known (pre ++ post) = (scanned known pre).run post :=
  scanned_append (not_straddles_of_atStart h post)

/-- Where a declaration starts the scan has none open. -/
theorem atStart_of_starts {skips : Bool} (h : Starts skips pre) :
    (scanned known pre).AtStart ∧ (scanned known pre).aggregate = skips := by
  induction h with
  | first => exact ⟨⟨rfl, rfl⟩, rfl⟩
  | @declared _ pre decl _ hdecl ih =>
    rw [scanned_concat (by decide), scanned_append_of_atStart ih.1]
    refine DeclScan.semicolon_ends ?_
    rw [DeclScan.inBody_run hdecl]
    exact ih.1.1
  | @defined pre heading body _ hheading hbody ih =>
    obtain ⟨init, rfl⟩ := List.getLast?_eq_some_iff.mp hheading.last
    have hinit : ∀ t ∈ init, t ≠ .punct '{' ∧ t ≠ .punct '}' :=
      fun t ht => hheading.plain t (List.mem_append_left _ ht)
    have hno : ∀ init', pre ++ (init ++ [.punct ')']) = init' ++ [.word "extern", .str] →
        ¬ (scanned known init').AtStart := by
      intro init' heq
      simpa using congrArg List.getLast? heq
    -- The tokens before the last one may end declarations, but they open no body.
    have hbody' : ((scanned known pre).run init).inBody = false := by
      rw [DeclScan.inBody_run (.of_plain hinit)]
      exact ih.1.1
    rw [scanned_block hno hbody, ← List.append_assoc, scanned_concat (by decide),
      scanned_append_of_atStart ih.1]
    exact DeclScan.function_ends hbody' (DeclScan.aggregate_run hinit ih.2)
  | @alone _ pre body _ hbody ih =>
    have hno : ∀ init, pre = init ++ [.word "extern", .str] → ¬ (scanned known init).AtStart := by
      rintro init rfl
      exact absurd ih.1 (not_atStart_str init)
    rw [scanned_block hno hbody, DeclScan.closeBrace_openBrace_outside ih.1.1, if_pos]
    · exact ⟨ih.1, rfl⟩
    · rw [ih.1.2]
      simp
  | opened _ ih =>
    rw [scanned_append_of_atStart ih.1, DeclScan.run_wrapper ih.1]
    exact ⟨⟨ih.1.1, ih.1.2⟩, ih.2⟩
  | @closed _ _ pre content _ hcontent _ ih ihend =>
    -- The brace that is closed is the one of the wrapper, because those of the content match.
    have hbraces : (scanned known (pre ++ [.word "extern", .str, .punct '{'] ++ content)).braces =
        true :: (scanned known pre).braces := by
      rw [List.append_assoc, scanned_append_of_atStart ih.1]
      rw [List.cons_append, List.cons_append, List.cons_append, List.nil_append,
        DeclScan.run_wrapper ih.1, DeclScan.braces_run hcontent]
    rw [scanned_concat (by decide), DeclScan.step_close, DeclScan.closeBrace, hbraces]
    exact ⟨⟨ih.1.1, ihend.1.2⟩, ihend.2⟩

/-- **What a scan loses.** After a body that is not one of a function the scan passes over all
tokens up to the next semicolon outside of bodies. If the declaration is a function with another
body, and so over before, the declarations and the wrappers after it are lost. -/
theorem scanned_skips {before inner after : List CToken} {t : CToken} (hstart : Starts false pre)
    (hwords : ∀ u ∈ before ++ [t], u ≠ .punct '{' ∧ u ≠ .punct '}' ∧ u ≠ .punct ';')
    (hstr : t ≠ .str) (hparams : t ≠ .punct ')') (hinner : Balanced inner)
    (hafter : DeclScan.GoesOn after) (post : List CToken) :
    scanned known (pre ++ (before ++ [t]) ++ .punct '{' :: inner ++
      .punct '}' :: (after ++ .punct ';' :: post)) = scanned known (pre ++ post) := by
  obtain ⟨hat, haggregate⟩ : (scanned known pre).AtStart ∧ (scanned known pre).aggregate = _ :=
    atStart_of_starts hstart
  have hno : ∀ init, pre ++ (before ++ [t]) = init ++ [.word "extern", .str] →
      ¬ (scanned known init).AtStart := by
    intro init heq
    have hlast := congrArg List.getLast? heq
    rw [← List.append_assoc, List.getLast?_concat] at hlast
    simp only [List.getLast?_append, List.getLast?_cons_cons, List.getLast?_singleton,
      Option.some_or, Option.some.injEq] at hlast
    exact absurd hlast hstr
  rw [scanned_block hno hinner, scanned_append_of_atStart hat, scanned_append_of_atStart hat,
    DeclScan.run_aggregate hat haggregate hwords hparams hafter]

/-- A content that ends its declarations may be cut off from what stands after the wrapper. -/
theorem EndsDeclaration.not_straddles (h : EndsDeclaration content) (hcontent : content ≠ []) :
    ¬ DeclScan.Straddles content post := by
  rcases h with rfl | hlast | hlast
  · exact absurd rfl hcontent
  · obtain ⟨init, rfl⟩ := List.getLast?_eq_some_iff.mp hlast
    exact DeclScan.not_straddles_of_last nofun nofun
  · obtain ⟨init, rfl⟩ := List.getLast?_eq_some_iff.mp hlast
    exact DeclScan.not_straddles_of_last nofun nofun

theorem run_content (s : DeclScan) (hend : EndsDeclaration content) (post : List CToken) :
    s.run (content ++ post) = (s.run content).run post := by
  by_cases hcontent : content = []
  · rw [hcontent]
    rfl
  · exact DeclScan.run_append s (hend.not_straddles hcontent)

/-- The scan is in the same state after a wrapper as after its content alone. -/
theorem scanned_wrapper (hstart : (scanned known pre).AtStart) (hcontent : Balanced content)
    (hend : EndsDeclaration content) (post : List CToken) :
    scanned known (pre ++ .word "extern" :: .str :: .punct '{' :: content ++ .punct '}' :: post) =
      scanned known (pre ++ content ++ post) := by
  have hcut (ts : List CToken) : ¬ DeclScan.Straddles ts (.punct '}' :: post) :=
    DeclScan.not_straddles_of_head nofun nofun
  have htop : (scanned known pre).braces = [] ++ (scanned known pre).braces := rfl
  obtain ⟨hbraces, hunder⟩ := DeclScan.run_under htop hcontent.closesBraces
  rw [List.append_assoc, List.append_assoc, scanned_append_of_atStart hstart,
    scanned_append_of_atStart hstart, run_content _ hend]
  simp only [List.cons_append]
  rw [DeclScan.run_wrapper hstart, DeclScan.run_append _ (hcut _), DeclScan.run_punct]
  change ((((scanned known pre).under [] _).run content).step _).run post = _
  rw [hunder, DeclScan.step_close, DeclScan.closeBrace_under hbraces]

/-- A brace that may not open a wrapper opens a body. -/
theorem scanned_block_of_not_opensWrapper (hopen : ¬ OpensWrapper pre) (hcontent : Balanced content)
    (post : List CToken) :
    scanned known (pre ++ .punct '{' :: content ++ .punct '}' :: post) =
      (scanned known pre).openBrace.closeBrace.run post := by
  refine scanned_block (fun init hpre hstart => hopen ⟨init, hpre, fun t ht => ?_⟩) hcontent post
  obtain ⟨before, rfl⟩ := List.getLast?_eq_some_iff.mp ht
  by_contra hno
  obtain ⟨hend, hbrace, hclose⟩ : t ≠ .punct ';' ∧ t ≠ .punct '{' ∧ t ≠ .punct '}' := by
    simpa only [not_or] using hno
  exact not_atStart_concat hbrace hclose hend before hstart

end Scan

/-- The tokens of a body are exchanged, or the braces of a wrapper that stands where a declaration
starts are taken away. Each brace is one of a body or comes after `extern "C"`; where the token
before that is a word, say, a declaration goes on, and the brace is one of a body too. What is
after `extern "C"` in a body goes with the tokens of the body. -/
inductive Rewrites : List CToken → List CToken → Prop
  | body {pre inner inner' post : List CToken} (hopen : ¬ OpensWrapper pre)
    (hinner : Balanced inner) (hinner' : Balanced inner') :
    Rewrites (pre ++ .punct '{' :: inner ++ .punct '}' :: post)
      (pre ++ .punct '{' :: inner' ++ .punct '}' :: post)
  | wrapper {skips : Bool} {pre content post : List CToken} (hstart : Starts skips pre)
    (hcontent : Balanced content) (hend : EndsDeclaration content) :
    Rewrites (pre ++ .word "extern" :: .str :: .punct '{' :: content ++ .punct '}' :: post)
      (pre ++ content ++ post)

/-- A scan finds the same declarations, and knows the same types after them, however many bodies are
exchanged and wrappers taken away. -/
theorem declared_through_bodies_and_wrappers {known : KnownTypes} {ts ts' : List CToken}
    (h : Relation.ReflTransGen Rewrites ts ts') :
    declaredBy known ts = declaredBy known ts' := by
  induction h with
  | refl => rfl
  | tail _ hstep ih =>
    rw [ih]
    cases hstep with
    | body hopen hinner hinner' =>
      rw [declaredBy, declaredBy, scanned_block_of_not_opensWrapper hopen hinner,
        scanned_block_of_not_opensWrapper hopen hinner']
    | wrapper hstart hcontent hend =>
      rw [declaredBy, declaredBy, scanned_wrapper (atStart_of_starts hstart).1 hcontent hend]

/-- A prototype in two wrappers, after a function whose body has braces of its own. -/
theorem nested_wrappers_taken_away :
    let signature : List CToken := [.word "int", .word "f", .punct '(', .word "void", .punct ')']
    let body : List CToken :=
      [.word "while", .punct '(', .number "1", .punct ')', .punct '{', .punct '}']
    let prototype : List CToken :=
      [.word "int", .word "g", .punct '(', .word "void", .punct ')', .punct ';']
    let inner : List CToken := .word "extern" :: .str :: .punct '{' :: prototype ++ [.punct '}']
    let outer : List CToken := .word "extern" :: .str :: .punct '{' :: inner ++ [.punct '}']
    declaredBy [] (signature ++ .punct '{' :: body ++ .punct '}' :: outer) =
      declaredBy [] (signature ++ [.punct '{', .punct '}'] ++ prototype ++ []) := by
  intro signature body prototype inner outer
  have hopen : ¬ OpensWrapper signature := by
    rintro ⟨init, heq, -⟩
    simpa [signature] using congrArg List.getLast? heq
  have hbody : Balanced body := by
    repeat refine .token (by decide) (by decide) ?_
    exact .block .nil .nil
  have hprototype : Balanced prototype := by
    repeat refine .token (by decide) (by decide) ?_
    exact .nil
  have hinner : Balanced inner :=
    .token (by decide) (by decide) (.token (by decide) (by decide) (.block hprototype .nil))
  -- After its body has been emptied, the function is what the wrappers follow.
  let function := signature ++ [.punct '{', .punct '}']
  have hheading : IsHeading signature := ⟨by decide, by decide⟩
  have hstart : Starts false function := .defined .first hheading .nil
  have hbodies : Rewrites (signature ++ .punct '{' :: body ++ .punct '}' :: outer)
      (signature ++ .punct '{' :: [] ++ .punct '}' :: outer) :=
    .body hopen hbody .nil
  have houter : Rewrites
      (function ++ .word "extern" :: .str :: .punct '{' :: inner ++ .punct '}' :: [])
      (function ++ inner ++ []) :=
    .wrapper hstart hinner (.inr (.inr rfl))
  have hlast : Rewrites
      (function ++ .word "extern" :: .str :: .punct '{' :: prototype ++ .punct '}' :: [])
      (function ++ prototype ++ []) :=
    .wrapper hstart hprototype (.inr (.inl rfl))
  exact declared_through_bodies_and_wrappers (.head hbodies (.head houter (.single hlast)))

/-- A function that returns a structure with its members swallows the wrapper after it. Without the
wrapper it would only swallow the first prototype. -/
theorem wrapper_after_struct_function_lost :
    let function : List CToken := [.word "struct", .word "s", .punct '{', .word "int", .word "a",
      .punct ';', .punct '}', .word "f", .punct '(', .word "void", .punct ')', .punct '{',
      .word "return", .punct ';', .punct '}']
    let prototype (name : String) : List CToken :=
      [.word "int", .word name, .punct '(', .word "void", .punct ')', .punct ';']
    declaredBy [] (function ++ .word "extern" :: .str :: .punct '{' ::
        (prototype "g" ++ prototype "h") ++ .punct '}' :: prototype "k") = ([], []) ∧
      declaredBy [] (function ++ (prototype "g" ++ prototype "h") ++ prototype "k") =
        ([.function "h" ⟨.int, [], .none⟩, .function "k" ⟨.int, [], .none⟩], []) := by
  decide +kernel

end KilnLang.Header
