import KilnLang.Proofs.Header.Caching
import KilnLang.Proofs.Semantic.SpanlessResolution
import KilnLang.Proofs.Syntax.Layout
import KilnLang.Proofs.Target.SpanlessEmission

/-!
# Layout and output

**Theorem (`compile_sameLayout`).** Two texts with the same layout are compiled to the same output, or
neither is compiled.

**Theorem (`compile_insert_comma`).** A comma that is inserted before the parenthesis which closes a
list changes neither the output of a compilation nor the kinds, the messages and the order of its
errors.

In both cases the two texts are the same unit up to spans. Every pass over a unit commutes with
taking the spans away, so the whole compilation does (`Compiler.compileUnit_unspanned`), and what it
writes has no spans.
-/

namespace KilnLang

/-! ## Errors -/

/-- The error without its span. -/
def MissingHeader.unspanned (e : MissingHeader) : MissingHeader := { e with span := default }

/-- The error without spans. -/
def CompileError.unspanned : CompileError → CompileError
  | .lex e => .lex { e with span := default }
  | .parse e => .parse { e with span := default }
  | .missingHeader e => .missingHeader e.unspanned
  | .semantic errors => .semantic (errors.map (·.unspanned))
  | .sourceIo path e => .sourceIo path e
  | .unsupportedFormat name => .unsupportedFormat name
  | .unknownDataModel name => .unknownDataModel name

/-- The codes and messages for an error, in order. -/
def CompileError.findings (e : CompileError) : List (Option String × String) :=
  e.diagnostics.map fun d => (d.code, d.message)

theorem SemanticError.message_unspanned (e : SemanticError) : e.unspanned.message = e.message := by
  cases e with
  | «alias» error => cases error <;> rfl
  | _ => rfl

/-- Codes and messages do not depend on spans. -/
theorem CompileError.findings_unspanned (e : CompileError) : e.unspanned.findings = e.findings := by
  cases e with
  | semantic errors =>
    simp only [unspanned, findings, diagnostics, List.map_map]
    refine List.map_congr_left fun e _ => ?_
    simp only [Function.comp_apply, SemanticError.diagnostic, Diagnostic.errorAt,
      SemanticError.code_unspanned, SemanticError.message_unspanned]
  | _ => rfl

/-! ## Headers -/

namespace Node

theorem bridgeEach_unspanned (l : Locator) (nodes : List Node) (cache : HeaderCache) :
    (bridgeEach l (nodes.map (·.unspanned))).run cache =
      Prod.map (fun r => (r.map (List.map (·.unspanned))).mapError (·.unspanned)) id
        ((bridgeEach l nodes).run cache) := by
  induction nodes generalizing cache with
  | nil => rfl
  | cons n nodes ih =>
    have hrest : ∀ (n n' : Node) (cache : HeaderCache), n' = n.unspanned →
        (bridgeEach l (nodes.map (·.unspanned)) >>= fun r => pure (r.map (n' :: ·))).run cache =
        Prod.map (fun r => (r.map (List.map (·.unspanned))).mapError (·.unspanned)) id
          ((bridgeEach l nodes >>= fun r => pure (r.map (n :: ·))).run cache) := by
      rintro n _ cache rfl
      rw [Caching.run_bind, Caching.run_bind, ih]
      rcases (bridgeEach l nodes).run cache with ⟨_ | more, cache⟩ <;> rfl
    cases n with
    | header item =>
      have hname : Include.headerName { item with
          span := default, path := item.path.map (·.unspanned) } = item.headerName := by
        simp only [Include.headerName, Include.pathText, List.map_map]
        rfl
      rw [List.map_cons, unspanned, bridgeEach, bridgeEach, hname, Caching.run_bind,
        Caching.run_bind]
      rcases (Header.load l item.headerName).run cache with ⟨_ | table, cache⟩
      · rfl
      · exact hrest _ _ cache rfl
    | _ => exact hrest _ _ cache rfl

end Node

/-! ## Units -/

/-- What is known about a unit that went through all passes, without spans. -/
def Analyzed.unspanned (a : Analyzed) : Analyzed := ⟨a.unit.unspanned, a.context.unspanned⟩

theorem SourceUnit.analyzeBridged_unspanned (unit : SourceUnit) :
    unit.unspanned.analyzeBridged.mapError (·.error) =
      (unit.analyzeBridged.map (·.unspanned)).mapError (·.error.unspanned) := by
  unfold SourceUnit.analyzeBridged
  rw [SourceUnit.resolve_unspanned]
  rcases unit.resolve with ⟨resolved, errors | context⟩
  · rfl
  · dsimp only [Except.map, Except.mapError]
    rw [SourceUnit.check_unspanned, Report.errors_map]
    rcases resolved.check context with ⟨checked, _ | ⟨e, errors⟩⟩ <;> rfl

theorem Analyzed.emit_unspanned (a : Analyzed) (format : EmitFormat) (m : DataModel) :
    a.unspanned.emit format m = a.emit format m := by
  cases format with
  | c => exact congrArg CUnit.render (a.unit.toC_unspanned m a.context.decls)
  | ast => exact a.unit.dump_unspanned

theorem Analyzed.warnings_unspanned (a : Analyzed) : a.unspanned.warnings = a.warnings := by
  unfold Analyzed.warnings Analyzed.unspanned SourceUnit.unspanned
  rw [List.flatMap_map]
  refine List.flatMap_congr fun n _ => ?_
  cases n with
  | header item => rcases item with ⟨_, _, _ | _⟩ <;> rfl
  | _ => rfl

namespace Compiler

variable (c : Compiler)

/-- What a compiler makes of a unit: its output, or why there is none. -/
def compileUnit (unit : SourceUnit) : Except CompileError CompileOutput :=
  match ((Node.bridgeEach c.locator unit.nodes).run c.cache).1 with
  | .error e => .error (.missingHeader e)
  | .ok nodes => (SourceUnit.analyzeBridged { unit with nodes }).mapError (·.error) |>.map
    fun a => ⟨a.emit c.emit c.dataModel, a.warnings⟩

/-- Compiling a text is compiling the unit that it is. -/
theorem compileSource_of_parse {text : String} {unit : SourceUnit}
    (h : SourceUnit.parse 0 text = .ok unit) (name : String) :
    (c.compileSource name text).1.mapError (·.error) = c.compileUnit unit := by
  unfold compileSource perform compilation SourceUnit.analysis SourceUnit.bridge compileUnit
  simp only [h, Caching.run_bind, Caching.pure_eq, Caching.run]
  rcases (Node.bridgeEach c.locator unit.nodes).run c.cache with ⟨e | nodes, cache⟩
  · rfl
  · dsimp only [Except.map]
    simp only [Caching.run]
    cases SourceUnit.analyzeBridged ⟨unit.file, nodes⟩ <;> rfl

theorem compileSource_of_parse_error {text : String} {e : SyntaxError}
    (h : SourceUnit.parse 0 text = .error e) (name : String) :
    (c.compileSource name text).1.toOption = none := by
  unfold compileSource perform compilation SourceUnit.analysis
  rw [h]
  rfl

/-- **Compilation does not depend on spans.** -/
theorem compileUnit_unspanned (unit : SourceUnit) :
    c.compileUnit unit.unspanned = (c.compileUnit unit).mapError (·.unspanned) := by
  have hnodes : unit.unspanned.nodes = unit.nodes.map (·.unspanned) := rfl
  unfold compileUnit
  rw [hnodes, Node.bridgeEach_unspanned]
  rcases (Node.bridgeEach c.locator unit.nodes).run c.cache with ⟨e | nodes, cache⟩
  · rfl
  · change Except.map _ ((SourceUnit.unspanned ⟨unit.file, nodes⟩).analyzeBridged.mapError _) = _
    rw [SourceUnit.analyzeBridged_unspanned]
    dsimp only
    cases SourceUnit.analyzeBridged ⟨unit.file, nodes⟩ with
    | error failure => rfl
    | ok a =>
      simp only [Except.map, Except.mapError, a.emit_unspanned, a.warnings_unspanned]

end Compiler

/-- Both compilations give the same output, or they fail with errors that are the same up to spans,
with the same codes and messages in the same order. -/
inductive SameOutcome :
    Except CompileFailure CompileOutput → Except CompileFailure CompileOutput → Prop
  | ok (output : CompileOutput) : SameOutcome (.ok output) (.ok output)
  | error {f f' : CompileFailure} (errors : f'.error.unspanned = f.error.unspanned)
      (findings : f'.error.findings = f.error.findings) : SameOutcome (.error f) (.error f')

theorem SameOutcome.toOption {r r' : Except CompileFailure CompileOutput} (h : SameOutcome r r') :
    r'.toOption = r.toOption := by
  cases h <;> rfl

/-- Texts that are the same unit up to spans have the same outcome. -/
theorem Compiler.sameOutcome (c : Compiler) {text text' : String} {unit unit' : SourceUnit}
    (h : SourceUnit.parse 0 text = .ok unit) (h' : SourceUnit.parse 0 text' = .ok unit')
    (hsame : unit'.unspanned = unit.unspanned) (name name' : String) :
    SameOutcome (c.compileSource name text).1 (c.compileSource name' text').1 := by
  have houtcome : ((c.compileSource name' text').1.mapError (·.error)).mapError (·.unspanned) =
      ((c.compileSource name text).1.mapError (·.error)).mapError (·.unspanned) := by
    rw [c.compileSource_of_parse h', c.compileSource_of_parse h, ← c.compileUnit_unspanned,
      ← c.compileUnit_unspanned, hsame]
  generalize (c.compileSource name text).1 = r, (c.compileSource name' text').1 = r' at houtcome
  cases r with
  | ok output =>
    cases r' with
    | ok output' =>
      cases houtcome
      exact .ok output
    | error f' => cases houtcome
  | error f =>
    cases r' with
    | ok output' => cases houtcome
    | error f' =>
      have herrors : f'.error.unspanned = f.error.unspanned := Except.error.inj houtcome
      refine .error herrors ?_
      rw [← f'.error.findings_unspanned, ← f.error.findings_unspanned, herrors]

/-! ## Layout -/

/-- **Output does not depend on layout.** If the tokens of two texts agree in kinds and texts, in the
line breaks between neighbours and in which closing angle brackets are adjacent, then both texts are
units or none is, the units are equal up to spans, and every compiler gives the same output for both
or for none. -/
theorem compile_sameLayout {file : Nat} {text text' : String} {ts us : List Token}
    (hlex : Token.lex file text = .ok ts) (hlex' : Token.lex file text' = .ok us)
    (h : SameLayout ts us) :
    (∀ file, (SourceUnit.parse file text').toOption.map (·.unspanned) =
      (SourceUnit.parse file text).toOption.map (·.unspanned)) ∧
    ∀ (c : Compiler) (name name' : String),
      (c.compileSource name' text').1.toOption = (c.compileSource name text).1.toOption := by
  have hparse : ∀ file, (SourceUnit.parse file text').toOption.map (·.unspanned) =
      (SourceUnit.parse file text).toOption.map (·.unspanned) := by
    intro file
    refine SourceUnit.parse_sameLayout (Token.lex_moved hlex file) (Token.lex_moved hlex' file) ?_
    -- The numbers of the files differ, but not where the tokens stand to each other.
    exact ((SameLayout.moved file 0 ts).symm.trans h).trans (SameLayout.moved file 0 us)
  refine ⟨hparse, fun c name name' => ?_⟩
  have hboth := hparse 0
  cases hunit : SourceUnit.parse 0 text with
  | ok unit =>
    cases hunit' : SourceUnit.parse 0 text' with
    | ok unit' =>
      rw [hunit, hunit'] at hboth
      exact (c.sameOutcome hunit hunit' (Option.some.inj hboth) name name').toOption
    | error e' =>
      rw [hunit, hunit'] at hboth
      cases hboth
  | error e =>
    cases hunit' : SourceUnit.parse 0 text' with
    | ok unit' =>
      rw [hunit, hunit'] at hboth
      cases hboth
    | error e' =>
      rw [c.compileSource_of_parse_error hunit, c.compileSource_of_parse_error hunit']

/-- Blanks, comments and line breaks at other places: a shift stays a shift, and a name that starts a
line still starts one. -/
theorem compile_sameLayout_of_comments : ∃ ts us,
    Token.lex 0 "int a = 4 >> 1;int f()\nint b" = .ok ts ∧
    Token.lex 0 "/* a */ int a=4 >>1; int f ( )// f\n\n  int b\n" = .ok us ∧
    SameLayout ts us ∧
    (∀ file, (SourceUnit.parse file
        "/* a */ int a=4 >>1; int f ( )// f\n\n  int b\n").toOption.map (·.unspanned) =
      (SourceUnit.parse file "int a = 4 >> 1;int f()\nint b").toOption.map (·.unspanned)) ∧
    ∀ (c : Compiler) (name name' : String),
      (c.compileSource name' "/* a */ int a=4 >>1; int f ( )// f\n\n  int b\n").1.toOption =
        (c.compileSource name "int a = 4 >> 1;int f()\nint b").1.toOption := by
  have hlayout : ((Token.lex 0 "int a = 4 >> 1;int f()\nint b").toOption.bind fun ts =>
      (Token.lex 0 "/* a */ int a=4 >>1; int f ( )// f\n\n  int b\n").toOption.map fun us =>
        decide (SameLayout ts us)) = some true := by
    rw [Token.lex_ofList, Token.lex_ofList]
    decide +kernel
  cases hlex : Token.lex 0 "int a = 4 >> 1;int f()\nint b" with
  | error e => simp [hlex, Except.toOption] at hlayout
  | ok ts =>
    cases hlex' : Token.lex 0 "/* a */ int a=4 >>1; int f ( )// f\n\n  int b\n" with
    | error e => simp [hlex, hlex', Except.toOption] at hlayout
    | ok us =>
      have hsame : SameLayout ts us := by simpa [hlex, hlex', Except.toOption] using hlayout
      exact ⟨ts, us, rfl, rfl, hsame, compile_sameLayout hlex hlex' hsame⟩

/-! ## Closing commas -/

/-- **Closing commas have no effect.** Take a text that is a unit, and a parenthesis in it that closes
a list which is not empty and has no comma before it. If a comma is inserted right before the
parenthesis, the text is the same unit up to spans, and every compiler gives the same output for it,
or fails with errors of the same kinds and messages in the same order. -/
theorem compile_insert_comma {file : Nat} {front back : String} {unit : SourceUnit}
    {before after : List Token} {close : Token}
    (h : SourceUnit.parse file (front ++ back) = .ok unit)
    (hlex : Token.lex file (front ++ back) = .ok (before ++ close :: after))
    (hstart : close.span.start = utf8Width front.toList)
    (hcloses : unit.ClosesList before close after)
    (hcomma : ∀ t ∈ before.getLast?, t.kind ≠ .comma) :
    (∃ unit', SourceUnit.parse file (front ++ "," ++ back) = .ok unit' ∧
      unit'.unspanned = unit.unspanned) ∧
    ∀ (c : Compiler) (name name' : String),
      SameOutcome (c.compileSource name (front ++ back)).1
        (c.compileSource name' (front ++ "," ++ back)).1 := by
  obtain ⟨unit', hunit', hsame⟩ := SourceUnit.parse_insert_comma h hlex hstart hcloses hcomma
  refine ⟨⟨unit', hunit', hsame⟩, fun c name name' => ?_⟩
  obtain ⟨first, hfirst, hmoved⟩ := SourceUnit.parse_moved h 0
  obtain ⟨second, hsecond, hmoved'⟩ := SourceUnit.parse_moved hunit' 0
  refine c.sameOutcome hfirst hsecond ?_ name name'
  rw [hmoved', hmoved]
  exact congrArg (SourceUnit.mk 0) (congrArg SourceUnit.nodes hsame)

/-- A comma after the marker for further arguments in the type of a global. -/
theorem compile_insert_comma_in_type : ∃ unit before close after,
    SourceUnit.parse 0 ("func<int(int..." ++ ")> g") = .ok unit ∧
    Token.lex 0 ("func<int(int..." ++ ")> g") = .ok (before ++ close :: after) ∧
    unit.ClosesList before close after ∧
    (∃ unit', SourceUnit.parse 0 ("func<int(int..." ++ "," ++ ")> g") = .ok unit' ∧
      unit'.unspanned = unit.unspanned) ∧
    ∀ (c : Compiler) (name name' : String),
      SameOutcome (c.compileSource name ("func<int(int..." ++ ")> g")).1
        (c.compileSource name' ("func<int(int..." ++ "," ++ ")> g")).1 := by
  -- The place of the comma is read off the pieces, so that the unit need not be written out.
  have hpieces : (SourceUnit.parse 0 ("func<int(int..." ++ ")> g")).toOption.map (·.pieces) =
      some ([.mark .kwFunc, .mark .less, .word .ident "int", .mark .lparen, .word .ident "int",
        .mark .ellipsis] ++ .optional .comma :: .mark .rparen ::
        [.mark .greater, .word .ident "g", .optional .semi]) := by decide +kernel
  have hlexed : ((Token.lex 0 ("func<int(int..." ++ ")> g")).toOption.map fun ts => decide
      (∀ t ∈ ts, (t.kind = .rparen → t.span.start = utf8Width "func<int(int...".toList) ∧
        t.kind ≠ .comma)) = some true := by decide +kernel
  cases hparse : SourceUnit.parse 0 ("func<int(int..." ++ ")> g") with
  | error e =>
    rw [hparse] at hpieces
    cases hpieces
  | ok unit =>
    rw [hparse] at hpieces
    obtain ⟨before, close, after, hlex, hcloses⟩ :=
      SourceUnit.exists_closesList hparse (Option.some.inj hpieces)
    rw [hlex] at hlexed
    have htokens := of_decide_eq_true (Option.some.inj hlexed)
    have hstart := (htokens close (by simp)).1 hcloses.kind
    have hcomma : ∀ t ∈ before.getLast?, t.kind ≠ .comma := fun t ht =>
      (htokens t (List.mem_append_left _ (List.mem_of_getLast? ht))).2
    exact ⟨unit, before, close, after, rfl, hlex, hcloses,
      compile_insert_comma hparse hlex hstart hcloses hcomma⟩

end KilnLang
