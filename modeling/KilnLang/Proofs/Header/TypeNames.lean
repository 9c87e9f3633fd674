import Mathlib.Data.List.Induction
import KilnLang.Proofs.Header.Completeness

/-!
# What type names mean in a header table

**First and latest.** The table of a header has the first symbol of each name. But a declaration
reads a type name as the latest type definition before it, in the tables of the includes or in the
header itself. The two differ where a header defines a name twice, which happens where two branches
of a conditional define it, because all branches are visible.

**Theorem (`declarations_typed_by_table_iff`).** The declarations of a header that start with a type
name are typed with what its table says of the name exactly if that is the latest definition before
each of them.

A scan ends one declaration after another (`DeclScan.readings`), and knows the types that those
before it define (`DeclScan.run_readings`).
-/

namespace KilnLang

/-! ## First and latest definitions -/

/-- The first of the symbols with the name is a type name for `target`. -/
def FirstTypedef (name : String) (target : Ty) (symbols : List HeaderSymbol) : Prop :=
  ∃ before after, symbols = before ++ .typedef name target :: after ∧ ∀ s ∈ before, s.name ≠ name

/-- The last of the type definitions with the name is one for `target`. -/
def LatestTypedef (name : String) (target : Ty) (symbols : List HeaderSymbol) : Prop :=
  ∃ before after, symbols = before ++ .typedef name target :: after ∧
    ∀ other, .typedef name other ∉ after

section Definitions

variable {name : String} {target : Ty} {symbols : List HeaderSymbol}

theorem firstTypedef_iff :
    symbols.find? (·.name == name) = some (.typedef name target) ↔
      FirstTypedef name target symbols := by
  rw [List.find?_eq_some_iff_append]
  constructor
  · rintro ⟨-, before, after, hsplit, hbefore⟩
    exact ⟨before, after, hsplit, by simpa using hbefore⟩
  · rintro ⟨before, after, hsplit, hbefore⟩
    exact ⟨beq_self_eq_true name, before, after, hsplit, by simpa using hbefore⟩

theorem latestTypedef_concat {s : HeaderSymbol} : LatestTypedef name target (symbols ++ [s]) ↔
    s = .typedef name target ∨
      (∀ other, s ≠ .typedef name other) ∧ LatestTypedef name target symbols := by
  constructor
  · rintro ⟨before, after, hsplit, hafter⟩
    rcases List.eq_nil_or_concat' after with rfl | ⟨after, t, rfl⟩
    · obtain ⟨-, hlast⟩ := List.append_inj' hsplit rfl
      exact .inl (List.singleton_inj.mp hlast)
    · rw [← List.cons_append, ← List.append_assoc] at hsplit
      obtain ⟨hinit, hlast⟩ := List.append_inj' hsplit rfl
      obtain rfl := List.singleton_inj.mp hlast
      refine .inr ⟨fun other heq => hafter other (by simp [heq]), before, after, hinit, ?_⟩
      exact fun other hmem => hafter other (List.mem_append_left _ hmem)
  · rintro (rfl | ⟨hs, before, after, rfl, hafter⟩)
    · exact ⟨symbols, [], rfl, fun _ => List.not_mem_nil⟩
    · refine ⟨before, after ++ [s], by simp, fun other hmem => ?_⟩
      rcases List.mem_append.mp hmem with hmem | hmem
      · exact hafter other hmem
      · exact hs other (List.mem_singleton.mp hmem).symm

namespace Merge

theorem find?_foldl_addSymbol (name : String) (new symbols : List HeaderSymbol) :
    (new.foldl addSymbol symbols).find? (·.name == name) =
      (symbols ++ new).find? (·.name == name) := by
  induction new generalizing symbols with
  | nil => rw [List.foldl_nil, List.append_nil]
  | cons s new ih =>
    rw [List.foldl_cons, ih, addSymbol]
    split_ifs with htaken
    · rw [List.find?_append, List.find?_append, List.find?_cons]
      split
      · rename_i hname
        obtain ⟨t, ht, htname⟩ := List.any_eq_true.mp htaken
        have hsome : (symbols.find? (·.name == name)).isSome := by
          rw [List.find?_isSome]
          exact ⟨t, ht, by rw [eq_of_beq htname, hname]⟩
        rw [Option.or_of_isSome hsome, Option.or_of_isSome hsome]
      · rfl
    · rw [List.append_assoc]
      rfl

/-- A type name is known as its latest definition. -/
theorem lookup_foldl_addKnown (symbols : List HeaderSymbol) :
    (symbols.foldl addKnown []).lookup name = some target ↔ LatestTypedef name target symbols := by
  induction symbols using List.reverseRecOn with
  | nil =>
    constructor
    · exact nofun
    · rintro ⟨before, after, hsplit, -⟩
      simp at hsplit
  | append_singleton symbols s ih =>
    rw [List.foldl_append, List.foldl_cons, List.foldl_nil, latestTypedef_concat, ← ih]
    cases s with
    | typedef t other =>
      rw [addKnown, List.lookup_cons]
      by_cases ht : name = t
      · simp [ht]
      · have hne : (name == t) = false := beq_eq_false_iff_ne.mpr ht
        simp [hne, Ne.symm ht]
    | _ => simp [addKnown]

/-- Symbols that define no type names make no types known. -/
theorem foldl_addKnown_of_none {known : Header.KnownTypes}
    (h : ∀ s ∈ symbols, ∀ name target, s ≠ .typedef name target) :
    symbols.foldl addKnown known = known := by
  induction symbols with
  | nil => rfl
  | cons s symbols ih =>
    obtain ⟨hs, hsymbols⟩ := List.forall_mem_cons.mp h
    have hknown : addKnown known s = known := by
      cases s with
      | typedef name target => exact absurd rfl (hs name target)
      | _ => rfl
    rw [List.foldl_cons, hknown, ih hsymbols]

end Merge

end Definitions

namespace Header

/-! ## What a declaration is built on -/

/-- The type is one of arrays of pointers to the base type, or fewer of them. -/
def BaseType.Builds (base : BaseType) (ty : Ty) : Prop :=
  ∃ (count : Nat) (target : Ty) (lengths : List (Option Nat)),
    pointerTo? base count = some target ∧
      ty = lengths.foldr (fun length elem => .array elem length) target

/-- The symbol is declared with the base type. -/
def BaseType.Declares (base : BaseType) : HeaderSymbol → Prop
  | .constant _ _ => False
  | .macroFn _ _ _ _ => False
  | .function _ sig => base.Builds sig.ret
  | .variable _ ty => base.Builds ty
  | .typedef _ ty => base.Builds ty

theorem declarator?_builds {base : BaseType} {ts rest : List CToken} {ty : Ty} {name : String}
    (h : declarator? base ts = some (ty, name, rest)) : base.Builds ty := by
  unfold declarator? at h
  split at h
  · split at h
    · exact nomatch h
    · split at h
      · exact nomatch h
      · rename_i target htarget
        dsimp only at h
        split at h
        · exact nomatch h
        · cases h
          exact ⟨_, target, _, htarget, rfl⟩
  · exact nomatch h

theorem mem_variableList {base : BaseType} {ts : List CToken} {s : HeaderSymbol}
    (h : s ∈ variableList base ts) : ∃ name ty, s = .variable name ty ∧ base.Builds ty := by
  induction hlength : ts.length using Nat.strongRecOn generalizing ts with
  | ind n ih =>
    subst hlength
    rw [variableList] at h
    split at h
    · exact absurd h List.not_mem_nil
    · rename_i ty name rest hdecl
      have hty := declarator?_builds hdecl
      have hone : ∀ {t : HeaderSymbol}, t = .variable name ty →
          ∃ name ty, t = .variable name ty ∧ base.Builds ty := fun h => ⟨name, ty, h, hty⟩
      dsimp only at h
      split_ifs at h with hmore hend
      · exact hone (List.mem_singleton.mp h)
      · rcases List.mem_cons.mp h with h | h
        · exact hone h
        · have hrest := declarator?_length hdecl
          have hafter := (List.dropWhile_suffix (· != CToken.punct ',') (l := rest)).length_le
          exact ih _ (by rw [List.length_tail]; omega) h rfl
      · exact hone (List.mem_singleton.mp h)

/-! ## Declarations one by one -/

/-- A declaration where it ends: the types that are known before it, and its tokens. -/
structure Reading where
  known : KnownTypes
  tokens : List CToken

/-- The tokens after the word `typedef`, if they start with it. -/
def afterTypedef : List CToken → List CToken
  | .word "typedef" :: ts => ts
  | ts => ts

theorem afterTypedef_of_ne {ts : List CToken} (h : ∀ rest, ts ≠ .word "typedef" :: rest) :
    afterTypedef ts = ts := by
  rw [afterTypedef]
  exact fun rest heq => h rest heq

namespace Reading

/-- The symbols that the declaration introduces. -/
def symbols (r : Reading) : List HeaderSymbol := (declaration r.known r.tokens).1

/-- The tokens from the base type on. -/
def typeTokens (r : Reading) : List CToken :=
  afterTypedef ((stripAttributes r.tokens).filter (!isOneOf storageWords ·))

/-- The base type. -/
def base? (r : Reading) : Option BaseType := (baseType r.known [] none r.typeTokens).map (·.1)

end Reading

/-- The type name that the tokens start with, qualifiers aside. -/
def startingName? : List CToken → Option String
  | .word w :: ts =>
    if qualifierWords.contains w then startingName? ts
    else if basicWords.contains w || tagWords.contains w then none
    else some w
  | _ => none

/-- A declaration introduces nothing, or a type name that is known from then on, or a prototype, or
variables, all with its base type. -/
theorem declaration_cases (known : KnownTypes) (ts : List CToken) :
    declaration known ts = ([], known) ∨
    ∃ base, (Reading.mk known ts).base? = some base ∧
      ((∃ name ty, base.Builds ty ∧
          declaration known ts = ([.typedef name ty], (name, ty) :: known)) ∨
        (∃ name sig, base.Builds sig.ret ∧ declaration known ts = ([.function name sig], known)) ∨
        ∃ rest, declaration known ts = (variableList base rest, known)) := by
  unfold declaration Reading.base? Reading.typeTokens
  generalize (stripAttributes ts).filter (!isOneOf storageWords ·) = own
  dsimp only
  split
  · rename_i ts
    rw [afterTypedef]
    cases hbase : baseType known [] none ts with
    | none => exact .inl rfl
    | some p =>
      dsimp only
      split
      · rename_i ty name hdecl
        exact .inr ⟨p.1, rfl, .inl ⟨name, ty, declarator?_builds hdecl, rfl⟩⟩
      · exact .inl rfl
  · rename_i hown
    rw [afterTypedef_of_ne hown]
    cases hbase : baseType known [] none own with
    | none => exact .inl rfl
    | some p =>
      dsimp only
      split
      · split
        · rename_i ret params rest hret hparams
          refine .inr ⟨p.1, rfl, .inr (.inl ⟨_, ⟨ret, params, rest⟩, ⟨_, ret, [], hret, rfl⟩, rfl⟩)⟩
        · exact .inl rfl
      · exact .inr ⟨p.1, rfl, .inr (.inr ⟨p.2, rfl⟩)⟩

/-- A declaration makes its type definitions known, and no other types. -/
theorem declaration_known (known : KnownTypes) (ts : List CToken) :
    (declaration known ts).2 = (declaration known ts).1.foldl Merge.addKnown known := by
  rcases declaration_cases known ts with h | ⟨base, -, ⟨name, ty, -, h⟩ | ⟨name, sig, -, h⟩ |
    ⟨rest, h⟩⟩
  · rw [h]
    rfl
  · rw [h]
    rfl
  · rw [h]
    rfl
  · rw [h]
    refine (Merge.foldl_addKnown_of_none fun s hs name target heq => ?_).symm
    obtain ⟨_, _, rfl, -⟩ := mem_variableList hs
    exact nomatch heq

/-- The symbols of a declaration are declared with its base type. -/
theorem Reading.declares {r : Reading} {s : HeaderSymbol} (hs : s ∈ r.symbols) :
    ∃ base, r.base? = some base ∧ base.Declares s := by
  rw [Reading.symbols] at hs
  rcases declaration_cases r.known r.tokens with h | ⟨base, hbase, ⟨name, ty, hty, h⟩ |
    ⟨name, sig, hsig, h⟩ | ⟨rest, h⟩⟩
  · rw [h] at hs
    exact nomatch hs
  · rw [h, List.mem_singleton] at hs
    exact ⟨base, hbase, hs ▸ hty⟩
  · rw [h, List.mem_singleton] at hs
    exact ⟨base, hbase, hs ▸ hsig⟩
  · rw [h] at hs
    obtain ⟨name, ty, rfl, hty⟩ := mem_variableList hs
    exact ⟨base, hbase, hty⟩

namespace DeclScan

/-- The declaration that a token ends, if it ends one. -/
def ended? (s : DeclScan) (t : CToken) : Option Reading :=
  if t = .punct '}' then
    match s.braces with
    | [] => none
    | transparent :: braces =>
      if !transparent && !inBody { s with braces } && !s.aggregate then some ⟨s.known, s.current⟩
      else none
  else if t = .punct ';' then
    if s.inBody || s.aggregate then none else some ⟨s.known, s.current⟩
  else none

/-- The declarations that end one after the other. -/
def readings (s : DeclScan) : List CToken → List Reading
  | [] => []
  | .word w :: .str :: .punct '{' :: ts =>
    if w = "extern" ∧ !s.inBody ∧ s.current.isEmpty then
      readings { s with braces := true :: s.braces } ts
    else readings (((s.step (.word w)).step .str).step (.punct '{')) ts
  | t :: ts => (s.ended? t).toList ++ readings (s.step t) ts

/-- A step ends no declaration and finds nothing, or ends the current one. -/
theorem step_cases (s : DeclScan) (t : CToken) :
    (s.ended? t = none ∧ (s.step t).symbols = s.symbols ∧ (s.step t).known = s.known) ∨
    (s.ended? t = some ⟨s.known, s.current⟩ ∧
      (s.step t).symbols = s.symbols ++ (declaration s.known s.current).1 ∧
      (s.step t).known = (declaration s.known s.current).2) := by
  unfold step ended?
  by_cases hopen : t = .punct '{'
  · subst hopen
    exact .inl ⟨rfl, rfl, rfl⟩
  rw [if_neg hopen]
  by_cases hclose : t = .punct '}'
  · rw [if_pos hclose, if_pos hclose, closeBrace]
    cases s.braces with
    | nil => exact .inl ⟨rfl, rfl, rfl⟩
    | cons transparent braces =>
      dsimp only
      split
      · exact .inr ⟨rfl, rfl, rfl⟩
      · exact .inl ⟨rfl, rfl, rfl⟩
  rw [if_neg hclose, if_neg hclose]
  by_cases hend : t = .punct ';'
  · rw [if_pos hend, if_pos hend, semicolon]
    cases s.inBody with
    | true => exact .inl ⟨rfl, rfl, rfl⟩
    | false =>
      cases s.aggregate with
      | true => exact .inl ⟨rfl, rfl, rfl⟩
      | false => exact .inr ⟨rfl, rfl, rfl⟩
  · rw [if_neg hend, if_neg hend]
    split
    · exact .inl ⟨rfl, rfl, rfl⟩
    · exact .inl ⟨rfl, rfl, rfl⟩

theorem step_of_not_ended {s : DeclScan} {t : CToken} (h : s.ended? t = none) :
    (s.step t).symbols = s.symbols ∧ (s.step t).known = s.known := by
  rcases s.step_cases t with ⟨-, hkeeps⟩ | ⟨hended, -⟩
  · exact hkeeps
  · exact nomatch h.symm.trans hended

/-- The scan has the symbols of the declarations that end, each of which knows the types that those
before it define. -/
theorem run_readings (s : DeclScan) (ts : List CToken) :
    (s.run ts).symbols = s.symbols ++ (s.readings ts).flatMap Reading.symbols ∧
      ∀ before r after, s.readings ts = before ++ r :: after →
        r.known = (before.flatMap Reading.symbols).foldl Merge.addKnown s.known := by
  fun_induction readings s ts with
  | case1 s => exact ⟨(List.append_nil _).symm, fun before r after h => by simp at h⟩
  | case2 s w ts hextern ih =>
    rw [run, if_pos hextern]
    exact ih
  | case3 s w ts hextern ih =>
    obtain ⟨hsymbols, hknown⟩ := step_of_not_ended (s := s) (t := .word w) rfl
    obtain ⟨hsymbols', hknown'⟩ := step_of_not_ended (s := s.step (.word w)) (t := .str) rfl
    obtain ⟨hsymbols'', hknown''⟩ :=
      step_of_not_ended (s := (s.step (.word w)).step .str) (t := .punct '{') rfl
    rw [hsymbols'', hsymbols', hsymbols, hknown'', hknown', hknown] at ih
    rw [run, if_neg hextern]
    exact ih
  | case4 s t ts hbrace ih =>
    have hrun : s.run (t :: ts) = (s.step t).run ts := by
      rw [run]
      exact hbrace
    rw [hrun]
    -- A step reads a declaration if it ends one, and keeps symbols and types otherwise.
    rcases s.step_cases t with ⟨hended, hsymbols, hknown⟩ | ⟨hended, hsymbols, hknown⟩
    · rw [hsymbols, hknown] at ih
      rw [hended]
      exact ih
    · rw [hsymbols, hknown, declaration_known] at ih
      rw [hended]
      refine ⟨ih.1.trans (List.append_assoc ..), fun before r after hsplit => ?_⟩
      cases before with
      | nil =>
        cases hsplit
        rfl
      | cons first before =>
        obtain ⟨rfl, hrest⟩ := List.cons.inj hsplit
        rw [List.flatMap_cons, List.foldl_append]
        exact ih.2 before r after hrest

end DeclScan

/-! ## Type names that start a declaration -/

/-- After a type name only qualifiers are read. -/
theorem baseType_named {known : KnownTypes} {base base' : BaseType} {ts rest : List CToken}
    (h : baseType known [] (some base) ts = some (base', rest)) : base' = base := by
  have hdone : ∀ ts : List CToken, some (base, ts) = some (base', rest) → base' = base := by
    intro ts h
    cases h
    rfl
  induction ts with
  | nil => exact hdone [] h
  | cons t ts ih =>
    cases t with
    | word w =>
      rw [baseType.eq_def] at h
      dsimp only at h
      split at h
      · exact ih h
      · split at h
        · exact nomatch h
        · exact hdone _ h
    | _ => exact hdone _ h

/-- A declaration that starts with a type name has the type that the name stands for. -/
theorem baseType_startingName {known : KnownTypes} {name : String} {base : BaseType}
    {ts rest : List CToken} (hname : startingName? ts = some name)
    (h : baseType known [] none ts = some (base, rest)) : base = ofTypeName known name := by
  induction ts with
  | nil => exact nomatch hname
  | cons t ts ih =>
    cases t with
    | word w =>
      rw [startingName?] at hname
      rw [baseType.eq_def] at h
      dsimp only at h
      split at hname
      · rename_i hqualifier
        rw [if_pos hqualifier] at h
        exact ih hname h
      · rename_i hqualifier
        split at hname
        · exact nomatch hname
        · rename_i hword
          obtain ⟨hbasic, htag⟩ := not_or.mp (mt Bool.or_eq_true_iff.mpr hword)
          have hfirst : ¬ (!([] : List String).isEmpty || (none : Option BaseType).isSome) = true :=
            Bool.false_ne_true
          cases hname
          rw [if_neg hqualifier, if_neg hbasic, if_neg hfirst, if_neg htag] at h
          exact baseType_named h
    | _ => exact nomatch hname

/-- The declaration has a base type, which is the type name, known there. -/
structure Reading.Uses (r : Reading) (name : String) : Prop where
  starts : startingName? r.typeTokens = some name
  reads : r.base?.isSome = true
  known : (r.known.lookup name).isSome = true

theorem Reading.Uses.base?_iff {r : Reading} {name : String} (h : r.Uses name) (target : Ty) :
    r.base? = some (.known target) ↔ r.known.lookup name = some target := by
  obtain ⟨other, hother⟩ := Option.isSome_iff_exists.mp h.known
  obtain ⟨base, hbase⟩ := Option.isSome_iff_exists.mp h.reads
  obtain ⟨p, hp, rfl⟩ := Option.map_eq_some_iff.mp hbase
  have htype : p.1 = .known other := by
    rw [baseType_startingName h.starts hp, ofTypeName, hother]
  rw [hbase, hother, htype, Option.some_inj, Option.some_inj, BaseType.known.injEq]

end Header

/-! ## Tables -/

/-- The declarations of a header where some types are known. -/
def HeaderFile.readings (f : HeaderFile) (known : Header.KnownTypes) : List Header.Reading :=
  Header.DeclScan.readings ⟨[], [], false, known, []⟩
    (Header.CToken.tokenize (Header.directives f.contents).declarations)

theorem HeaderFile.symbols_eq (f : HeaderFile) (known : Header.KnownTypes) :
    f.symbols known = (Header.directives f.contents).macros ++
      (f.readings known).flatMap Header.Reading.symbols :=
  congrArg (_ ++ ·) (Header.DeclScan.run_readings _ _).1

/-- The symbols of some tables one after the other. -/
def seenIn (tables : List HeaderTable) : List HeaderSymbol := tables.flatMap (·.symbols)

/-- The types that the symbols define, latest first. -/
def typesOf (symbols : List HeaderSymbol) : Header.KnownTypes := symbols.foldl Merge.addKnown []

/-- The table is that of the text of the header after the tables of headers that it includes. -/
structure BuiltFrom (l : Locator) (f : HeaderFile) (included : List HeaderTable)
    (table : HeaderTable) : Prop where
  path : table.path = f.path
  includes : ∀ t ∈ included, ∃ g, l.Includes f g ∧ Path.key t.path = Path.key g.path
  symbols : table.symbols =
    (seenIn included ++ f.symbols (typesOf (seenIn included))).foldl Merge.addSymbol []

namespace Header

open Caching

variable {l : Locator} {keys stack : List Path.Key} {f g : HeaderFile} {depth : Nat}

/-- What the cache promises for the table of a path: it is built from a text of the path. -/
def BuiltAt (l : Locator) (key : Path.Key) (table : HeaderTable) : Prop :=
  ∃ f included, l.Finds f ∧ Path.key f.path = key ∧ BuiltFrom l f included table

/-- What has been merged is what the tables of headers that `f` includes have. -/
def MergedFrom (l : Locator) (f : HeaderFile) (m : Merge) : Prop :=
  ∃ included, (∀ t ∈ included, ∃ g, l.Includes f g ∧ Path.key t.path = Path.key g.path) ∧
    m.symbols = (seenIn included).foldl Merge.addSymbol [] ∧ m.known = typesOf (seenIn included)

theorem MergedFrom.addTable {m : Merge} {loaded : Loaded} (h : MergedFrom l f m)
    (hg : l.Includes f g) (hloaded : BuiltAt l (Path.key g.path) loaded.table) :
    MergedFrom l f (m.addTable loaded) := by
  obtain ⟨included, hincluded, hsymbols, hknown⟩ := h
  obtain ⟨g', included', -, hkey, hbuilt⟩ := hloaded
  have hseen : seenIn (included ++ [loaded.table]) = seenIn included ++ loaded.table.symbols := by
    simp [seenIn]
  refine ⟨included ++ [loaded.table], ?_, ?_, ?_⟩
  · intro t ht
    rcases List.mem_append.mp ht with ht | ht
    · exact hincluded t ht
    · rw [List.mem_singleton.mp ht]
      exact ⟨g, hg, by rw [hbuilt.path, hkey]⟩
  · rw [hseen, List.foldl_append, ← hsymbols]
    rfl
  · rw [hseen, typesOf, List.foldl_append, ← typesOf, ← hknown]
    rfl

/-- The includes of a header, each of which is cut or loaded. -/
theorem includes_mergedFrom (h : Pending l keys stack f (depth + 1))
    {load : HeaderFile → Caching Loaded}
    (hload : ∀ g, Pending l keys (Path.key f.path :: stack) g depth →
      (load g).Safe (BuiltAt l) fun loaded => BuiltAt l (Path.key g.path) loaded.table) :
    ((directives f.contents).includes.foldlM
        (Merge.addInclude l load (Path.key f.path :: stack)) Merge.empty).Safe (BuiltAt l)
      (MergedFrom l f) := by
  let P (rest : List String) (m : Merge) : Prop :=
    rest ⊆ (directives f.contents).includes ∧ MergedFrom l f m
  have hstep : ∀ name rest m, P (name :: rest) m →
      (Merge.addInclude l load (Path.key f.path :: stack) m name).Safe (BuiltAt l) (P rest) := by
    rintro name rest m ⟨hsub, hm⟩
    obtain ⟨hname, hrest⟩ := List.cons_subset.mp hsub
    unfold Merge.addInclude
    cases hlocate : l.locate name with
    | none => exact ⟨hrest, hm⟩
    | some g =>
      have hg : l.Includes f g := ⟨name, hname, hlocate⟩
      simp only [List.contains_iff_mem]
      split_ifs with hmem
      · exact ⟨hrest, hm⟩
      · exact (hload g (h.child hg hmem)).bind fun loaded hloaded =>
          ⟨hrest, hm.addTable hg hloaded⟩
  have hempty : MergedFrom l f .empty := ⟨[], nofun, rfl, rfl⟩
  exact (Safe.foldlM hstep ⟨List.Subset.refl _, hempty⟩).mono fun m hm => hm.2

/-- A load gives a table that is built from a text of the path. -/
theorem loadFile_builtAt (h : Pending l keys stack f depth) :
    (loadFile l depth stack f).Safe (BuiltAt l) fun loaded =>
      BuiltAt l (Path.key f.path) loaded.table := by
  induction depth generalizing stack f with
  | zero => exact absurd rfl h.depth_ne_zero
  | succ depth ih =>
    intro found hfound
    cases found with
    | some table => exact hfound table rfl
    | none =>
      refine (includes_mergedFrom h fun g hg => ih hg).bind fun m hm => ?_
      obtain ⟨included, hincluded, hsymbols, hknown⟩ := hm
      have hbuilt : BuiltAt l (Path.key f.path) (m.table f) := by
        refine ⟨f, included, h.found, rfl, rfl, hincluded, ?_⟩
        rw [List.foldl_append, ← hsymbols, ← hknown]
        rfl
      dsimp only
      split_ifs with hcut
      · exact ⟨hbuilt, fun kept hkept => hkept⟩
      · exact hbuilt

theorem load_builtAt (l : Locator) (name : String) :
    (load l name).Safe (BuiltAt l) fun found => ∀ f, l.locate name = some f →
      ∃ table, found = some table ∧ BuiltAt l (Path.key f.path) table := by
  unfold load
  cases hf : l.locate name with
  | none => exact fun _ h => nomatch h
  | some f =>
    refine (loadFile_builtAt (.root ⟨name, hf⟩)).bind fun loaded hloaded f' hf' => ?_
    obtain rfl := Option.some.inj hf'
    exact ⟨loaded.table, rfl, hloaded⟩

end Header

/-! ## What names stand for -/

open Header Caching

/-- **Declarations are typed with the latest definition of a name, and the table has the first.**
After any loads, a load of a header that can be found gives a table that is built from a text of its
path, after the tables of headers that the text includes. Where the table says that a name is a
type, that is the first definition of the name; and the declarations that start with the name, where
it is known, are all typed with it exactly if it is the latest definition before each of them. -/
theorem declarations_typed_by_table_iff (l : Locator) (history : List String) (name : String)
    (f : HeaderFile) (hf : l.locate name = some f) :
    ∃ table g included,
      ((history.foldl (fun c n => (c.load l n).2) HeaderCache.empty).load l name).1 = some table ∧
      l.Finds g ∧ Path.key g.path = Path.key f.path ∧ BuiltFrom l g included table ∧
      ∀ t target, table.get? t = some (.typedef t target) →
        FirstTypedef t target (seenIn included ++ g.symbols (typesOf (seenIn included))) ∧
        ((∀ r ∈ g.readings (typesOf (seenIn included)), r.Uses t →
            r.base? = some (.known target) ∧ ∀ s ∈ r.symbols, (BaseType.known target).Declares s) ↔
          ∀ before r after, g.readings (typesOf (seenIn included)) = before ++ r :: after →
            r.Uses t →
            LatestTypedef t target (seenIn included ++ before.flatMap Reading.symbols)) := by
  have hbefore : Sound (BuiltAt l) (history.foldl (fun c n => (c.load l n).2) HeaderCache.empty) :=
    sound_empty.foldl_load (load_builtAt l) history
  obtain ⟨hfound, -⟩ := (load_builtAt l name).run hbefore
  obtain ⟨table, htable, g, included, hg, hkey, hbuilt⟩ := hfound f hf
  refine ⟨table, g, included, htable, hg, hkey, hbuilt, fun t target hget => ⟨?_, ?_⟩⟩
  · rw [HeaderTable.get?, hbuilt.symbols, Merge.find?_foldl_addSymbol, List.nil_append] at hget
    exact firstTypedef_iff.mp hget
  -- A reading knows the types that are defined before it, and the last definition of each.
  · have htyped : ∀ before r after,
        g.readings (typesOf (seenIn included)) = before ++ r :: after → r.Uses t →
        (r.base? = some (.known target) ↔
          LatestTypedef t target (seenIn included ++ before.flatMap Reading.symbols)) := by
      intro before r after hsplit huses
      have hknown := (DeclScan.run_readings _ _).2 before r after hsplit
      rw [huses.base?_iff, hknown, ← Merge.lookup_foldl_addKnown, List.foldl_append, ← typesOf]
    constructor
    · intro h before r after hsplit huses
      exact (htyped before r after hsplit huses).mp (h r (by rw [hsplit]; simp) huses).1
    · intro h r hr huses
      obtain ⟨before, after, hsplit⟩ := List.append_of_mem hr
      have hbase := (htyped before r after hsplit huses).mpr (h before r after hsplit huses)
      refine ⟨hbase, fun s hs => ?_⟩
      obtain ⟨base, hbase', hdeclares⟩ := Reading.declares hs
      rw [hbase] at hbase'
      exact Option.some.inj hbase' ▸ hdeclares

/-- The symbol that makes a name one for `long`. -/
def longName (name : String) : HeaderSymbol := .typedef name (.prim (.int (.platform .long)))

/-- A header that uses a type name of a header that it includes, and defines it again. -/
def definedTwice : Locator := .memory
  [("a.h", "#include \"b.h\"\nt before;\ntypedef int t;\n"), ("b.h", "typedef long t;\n")]

/-- The table has the definition of the included header, which is the first. -/
theorem included_definition_is_first :
    ∃ table g included, (HeaderCache.empty.load definedTwice "a.h").1 = some table ∧
      BuiltFrom definedTwice g included table ∧
      table.symbols = [longName "t", .variable "before" (.prim (.int (.platform .long)))] ∧
      FirstTypedef "t" (.prim (.int (.platform .long)))
        (seenIn included ++ g.symbols (typesOf (seenIn included))) := by
  obtain ⟨table, g, included, hload, -, -, hbuilt, htypes⟩ :=
    declarations_typed_by_table_iff definedTwice [] "a.h" _ rfl
  have hsymbols :
      table.symbols = [longName "t", .variable "before" (.prim (.int (.platform .long)))] := by
    have hloaded : (HeaderCache.empty.load definedTwice "a.h").1.map (·.symbols) =
        some [longName "t", .variable "before" (.prim (.int (.platform .long)))] := by
      decide +kernel
    have hload : (HeaderCache.empty.load definedTwice "a.h").1 = some table := hload
    rw [hload] at hloaded
    exact Option.some.inj hloaded
  refine ⟨table, g, included, hload, hbuilt, hsymbols, (htypes _ _ ?_).1⟩
  rw [HeaderTable.get?, hsymbols]
  decide +kernel

/-- A header that defines a type name in two branches of a conditional. -/
def definedInBranches : Locator := .memory
  [("a.h", "#ifdef WIDE\ntypedef long t;\n#else\ntypedef int t;\n#endif\nt f(void);\n")]

/-- The table has the first definition of the name, but the function returns the second one. -/
theorem function_typed_by_other_branch :
    ∃ table, (HeaderCache.empty.load definedInBranches "a.h").1 = some table ∧
      table.get? "t" = some (longName "t") ∧
      table.get? "f" = some (.function "f" ⟨.int, [], .none⟩) := by
  decide +kernel

end KilnLang
