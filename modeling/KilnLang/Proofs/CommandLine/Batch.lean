import KilnLang.CommandLine.Run
import KilnLang.Proofs.Files.Growth

/-!
# Outputs of a batch

A batch compiles each source to a file in the output directory, one after the other.

**Theorem (`batch_outputs_kept`).** If a batch succeeds, every source has been compiled, to a file of
the output directory with the extension of the format. If the stem of the source has no extension of
its own, it is the name of that file. At the end of the run, the file holds the text of the source,
unless a later source is compiled to the same place. Two sources are not, if what comes before the
last points of their stems differs. All this holds for every way to walk directories, and for every
way to read arguments that takes no empty output path.

Sources with the same stem in different directories share their output file, which holds the text of
the last one (`equal_stems_share_output`). So do sources whose stems differ only in what follows the
last point, because the extension of the output replaces that (`outputPath_eq_of_base`).

Each step of the batch only adds to the files, but for the file that it writes
(`FileSystem.Grows`). So paths that have a location keep it, and what was written stays until it is
written over (`finishBatch_kept`).
-/

namespace KilnLang.CommandLine

/-! ## Options -/

/-- The format of the outputs. -/
def Options.format (o : Options) : EmitFormat := o.emit.getD .c

/-- The compiler that the options ask for. -/
def Options.compiler (o : Options) (fs : FileSystem) : Compiler :=
  .new o.format (o.dataModel.getD .lp64) (.withSystemDirs fs o.includeDirs)

/-- The sources that the options ask to compile, none if they cannot be collected. -/
def Options.sources (o : Options) (walk : Walk) (fs : FileSystem) : List String :=
  (SourceSet.collect walk fs o.inputs).toOption.getD []

/-- The sources and what compiling them as a batch gives. -/
def Options.results (o : Options) (walk : Walk) (fs : FileSystem) :
    List (String × Except CompileFailure CompileOutput) :=
  ((o.compiler fs).compileBatch fs (o.sources walk fs)).1

/-- The output has a name, if there is one. -/
def Options.OutputNamed (o : Options) : Prop := o.output ≠ some ""

section Reading

variable {o o' : Options} {flag : Flag}

/-- A computation with a result has a first step with a result. -/
theorem exists_of_bind {ε α β : Type} {x : Except ε α} {f : α → Except ε β} {b : β}
    (h : (x >>= f) = .ok b) : ∃ a, x = .ok a ∧ f a = .ok b := by
  cases x with
  | error e => cases h
  | ok a => exact ⟨a, rfl, h⟩

theorem Options.OutputNamed.addInput {input : String} (h : o.OutputNamed)
    (hadd : o.addInput input = .ok o') : o'.OutputNamed := by
  rw [Options.addInput] at hadd
  split at hadd
  · cases hadd
  · cases hadd
    exact h

theorem Options.OutputNamed.raise (h : o.OutputNamed) (hraise : o.raise flag = .ok o') :
    o'.OutputNamed := by
  cases flag <;> cases hraise
  exact h

theorem Options.OutputNamed.set {value : String} (h : o.OutputNamed)
    (hset : o.set flag value = .ok o') : o'.OutputNamed := by
  cases flag <;> rw [Options.set] at hset
  case output =>
    split at hset
    · cases hset
    · rename_i hvalue
      obtain ⟨new, honce, hnew⟩ := exists_of_bind hset
      cases hnew
      rw [Options.once] at honce
      split at honce
      · cases honce
      · cases honce
        simpa [OutputNamed] using hvalue
  case emit =>
    split at hset
    · cases hset
    · obtain ⟨new, -, hnew⟩ := exists_of_bind hset
      cases hnew
      exact h
  case includeDir =>
    split at hset
    · cases hset
    · cases hset
      exact h
  case dataModel =>
    split at hset
    · cases hset
    · obtain ⟨new, -, hnew⟩ := exists_of_bind hset
      cases hnew
      exact h
  all_goals cases hset

theorem Options.OutputNamed.readItems {items : List Item} {pending : Option Flag}
    (h : o.OutputNamed) (hread : readItems o items = .ok (o', pending)) : o'.OutputNamed := by
  induction items generalizing o with
  | nil =>
    cases hread
    exact h
  | cons item items ih =>
    cases item with
    | unknown text => cases hread
    | input value =>
      obtain ⟨next, hadd, hmore⟩ := exists_of_bind hread
      exact ih (h.addInput hadd) hmore
    | flag flag value =>
      cases value with
      | some value =>
        obtain ⟨next, hset, hmore⟩ := exists_of_bind hread
        exact ih (h.set hset) hmore
      | none =>
        rw [CommandLine.readItems] at hread
        split at hread
        · cases hread
          exact h
        · obtain ⟨next, hraise, hmore⟩ := exists_of_bind hread
          exact ih (h.raise hraise) hmore

theorem Options.OutputNamed.readInputs {args : List String} (h : o.OutputNamed)
    (hread : readInputs o args = .ok o') : o'.OutputNamed := by
  induction args generalizing o with
  | nil =>
    cases hread
    exact h
  | cons arg args ih =>
    obtain ⟨next, hadd, hmore⟩ := exists_of_bind hread
    exact ih (h.addInput hadd) hmore

theorem Options.OutputNamed.readArgs {args : List String} {pending : Option Flag}
    (h : o.OutputNamed) (hread : readArgs o pending args = .ok o') : o'.OutputNamed := by
  induction args generalizing o pending with
  | nil =>
    cases pending with
    | none =>
      cases hread
      exact h
    | some flag => cases hread
  | cons arg args ih =>
    cases pending with
    | some flag =>
      rw [CommandLine.readArgs] at hread
      split at hread
      · cases hread
      · obtain ⟨next, hset, hmore⟩ := exists_of_bind hread
        exact ih (h.set hset) hmore
    | none =>
      rw [CommandLine.readArgs] at hread
      split at hread
      · exact h.readInputs hread
      · obtain ⟨⟨next, pending⟩, hitems, hmore⟩ := exists_of_bind hread
        exact ih (h.readItems hitems) hmore

/-- The reader that the program runs with takes no empty output path. -/
theorem documented_read : ArgReader.Documented Options.read where
  output_ne_empty args o h := by
    rw [Options.read] at h
    cases hargs : Options.ofArgs args with
    | error e => rw [hargs] at h; cases h
    | ok o' =>
      rw [hargs] at h
      cases h
      exact Options.OutputNamed.readArgs (o := {}) nofun hargs

end Reading

/-! ## Writing -/

section Writing

variable {format : EmitFormat} {dir : String}

/-- The place of the file that a source is compiled to. -/
def targetLocation (fs : FileSystem) (dir source : String) (format : EmitFormat) :
    Except FileError Location :=
  fs.locate (outputPath dir source format)

theorem mapError_eq_ok {ε ε' α : Type} {f : ε → ε'} {x : Except ε α} {a : α}
    (h : x.mapError f = .ok a) : x = .ok a := by
  cases x with
  | error e => cases h
  | ok b => exact congrArg _ (Except.ok.inj h)

/-- An output file is at the location of its path, and everything else stays. -/
theorem exists_writeOutput {fs fs' : FileSystem} {path text : String}
    (h : writeOutput fs path text = .ok fs') :
    ∃ loc, fs'.locate path = .ok loc ∧ fs'.at? loc = some (.file (Utf8.encode text)) ∧
      fs.Grows fs' (· = loc) := by
  have hmade : ∃ made, (fs.Grows made fun _ => False) ∧ made.write path text = .ok fs' := by
    rw [writeOutput] at h
    split at h
    · exact ⟨fs, .refl fs _, mapError_eq_ok h⟩
    · obtain ⟨made, hmade, hwrite⟩ := exists_of_bind h
      exact ⟨made, FileSystem.grows_createDirs (mapError_eq_ok hmade), mapError_eq_ok hwrite⟩
  obtain ⟨made, hgrows, hwrite⟩ := hmade
  obtain ⟨loc, hloc, hfile, hgrows'⟩ := FileSystem.exists_write hwrite
  exact ⟨loc, hgrows'.locate hloc, hfile, (hgrows.mono nofun).trans hgrows'⟩

section Steps

variable (output : Option String) (total failed : Nat) (p : Progress) (text source dir : String)
  (more : List (String × Except CompileFailure CompileOutput))

-- Comparing the two sides of an equation must not evaluate what is written to a path.
seal writeOutput

theorem finishBatch_nil : finishBatch format output total p failed text [] =
    (p.print text, if failed = 0 then none else some (.failedUnits failed total)) :=
  rfl

theorem finishBatch_error (failure : CompileFailure) :
    finishBatch format output total p failed text ((source, .error failure) :: more) =
      finishBatch format output total (p.report failure.render) (failed + 1) text more :=
  rfl

theorem finishBatch_ok (out : CompileOutput) :
    finishBatch format (some dir) total p failed text ((source, .ok out) :: more) =
      match writeOutput (p.warn out.warnings).files (outputPath dir source format) out.text with
      | .ok files => finishBatch format (some dir) total { p.warn out.warnings with files } failed
        text more
      | .error e => (p.warn out.warnings, some e) :=
  rfl

end Steps

/-- The step of a batch: a source that could be compiled is written, and the batch goes on. -/
theorem exists_of_finishBatch_ok {total failed : Nat} {p q : Progress} {text source : String}
    {out : CompileOutput} {more : List (String × Except CompileFailure CompileOutput)}
    (h : finishBatch format (some dir) total p failed text ((source, .ok out) :: more) =
      (q, none)) :
    ∃ files p' loc, p'.files = files ∧
      finishBatch format (some dir) total p' failed text more = (q, none) ∧
      targetLocation files dir source format = .ok loc ∧
      files.at? loc = some (.file (Utf8.encode out.text)) ∧ p.files.Grows files (· = loc) := by
  rw [finishBatch_ok] at h
  split at h
  · rename_i files hwrite
    obtain ⟨loc, hloc, hfile, hgrows⟩ := exists_writeOutput hwrite
    exact ⟨files, _, loc, rfl, h, hloc, hfile, hgrows⟩
  · cases h

/-- What is left of the results of a batch when it has succeeded: all were compiled, and each output
file is the one that was last written at its place. -/
theorem finishBatch_kept {total failed : Nat} {p q : Progress} {text : String}
    {results : List (String × Except CompileFailure CompileOutput)}
    (h : finishBatch format (some dir) total p failed text results = (q, none)) :
    failed = 0 ∧
    p.files.Grows q.files (fun l => ∃ r ∈ results, targetLocation q.files dir r.1 format = .ok l) ∧
    ∀ (i : Nat) (source : String) (result : Except CompileFailure CompileOutput),
      results[i]? = some (source, result) → ∃ out loc, result = .ok out ∧
        targetLocation q.files dir source format = .ok loc ∧
        ((∀ (j : Nat) later, i < j → results[j]? = some later →
          targetLocation q.files dir later.1 format ≠ .ok loc) →
          q.files.at? loc = some (.file (Utf8.encode out.text))) := by
  induction results generalizing p failed text with
  | nil =>
    rw [finishBatch_nil] at h
    obtain ⟨rfl, hfailed⟩ := Prod.mk.inj h
    refine ⟨by simpa using hfailed, .refl p.files _, fun i source result hi => ?_⟩
    cases hi
  | cons r results ih =>
    obtain ⟨source, result⟩ := r
    cases result with
    | error failure =>
      rw [finishBatch_error] at h
      -- A source that fails is counted, and then the batch ends with an error.
      exact absurd (ih h).1 (Nat.succ_ne_zero failed)
    | ok out =>
      obtain ⟨files, p', loc, rfl, hmore, hloc, hfile, hstep⟩ := exists_of_finishBatch_ok h
      obtain ⟨hfailed, hgrows, hkept⟩ := ih hmore
      -- The target keeps its location, because later steps only add to the files.
      have hlast : targetLocation q.files dir source format = .ok loc := hgrows.locate hloc
      refine ⟨hfailed, ?_, fun i source' result' hi => ?_⟩
      · refine (hstep.mono ?_).trans (hgrows.mono ?_)
        · rintro l rfl
          exact ⟨_, List.mem_cons_self, hlast⟩
        · rintro l ⟨r, hr, hl⟩
          exact ⟨r, List.mem_cons_of_mem _ hr, hl⟩
      · cases i with
        | zero =>
          cases hi
          refine ⟨out, loc, rfl, hlast, fun hlater => hgrows.kept loc _ ?_ hfile⟩
          rintro ⟨r, hr, hl⟩
          obtain ⟨j, hj⟩ := List.mem_iff_getElem?.mp hr
          exact hlater (j + 1) r (Nat.succ_pos j) hj hl
        | succ i =>
          obtain ⟨out', loc', hresult, hloc', hfile'⟩ := hkept i source' result' hi
          exact ⟨out', loc', hresult, hloc', fun hlater =>
            hfile' fun j later hj hr => hlater (j + 1) later (Nat.succ_lt_succ hj) hr⟩

end Writing

/-! ## Batches -/

section Batches

variable {o : Options} {walk : Walk} {fs : FileSystem} {dir : String}

theorem compileBatch_sources (c : Compiler) (fs : FileSystem) (files : List String) :
    (c.compileBatch fs files).1.map (·.1) = files := by
  induction files generalizing c with
  | nil => rfl
  | cons file files ih =>
    rw [Compiler.compileBatch, List.map_cons, ih]

/-- Only files that can be read are compiled. -/
theorem exists_readText {c : Compiler} {path : String} {out : CompileOutput}
    (h : (c.compileFile fs path).1 = .ok out) : ∃ text, fs.readText path = .ok text := by
  cases hread : fs.readText path with
  | error e =>
    rw [Compiler.compileFile, Compiler.fileCompilation, hread] at h
    cases h
  | ok text => exact ⟨text, rfl⟩

theorem exists_readText_of_mem {c : Compiler} {files : List String} {source : String}
    {out : CompileOutput} (h : (source, .ok out) ∈ (c.compileBatch fs files).1) :
    ∃ text, fs.readText source = .ok text := by
  induction files generalizing c with
  | nil => cases h
  | cons file files ih =>
    rcases List.mem_cons.mp h with heq | h
    · obtain ⟨rfl, hout⟩ := Prod.mk.inj heq
      exact exists_readText hout.symm
    · exact ih h

/-- A source that has been compiled has a stem. -/
theorem exists_stem {source : String} {out : CompileOutput}
    (h : (source, .ok out) ∈ o.results walk fs) : ∃ stem, Path.stem? source = some stem := by
  obtain ⟨text, htext⟩ := exists_readText_of_mem h
  rw [FileSystem.readText] at htext
  cases hbytes : fs.readBytes source with
  | error e => rw [hbytes] at htext; cases htext
  | ok bytes =>
    obtain ⟨name, hname⟩ := FileSystem.fileName_of_readBytes hbytes
    exact ⟨_, by rw [Path.stem?, hname, Option.map_some]⟩

/-- The results are those of the sources, in their order. -/
theorem exists_result {i : Nat} {source : String} (h : (o.sources walk fs)[i]? = some source) :
    ∃ result, (o.results walk fs)[i]? = some (source, result) := by
  have hmap : ((o.results walk fs).map (·.1))[i]? = some source := by
    rw [Options.results, compileBatch_sources, h]
  rw [List.getElem?_map] at hmap
  obtain ⟨⟨_, result⟩, hresult, rfl⟩ := Option.map_eq_some_iff.mp hmap
  exact ⟨result, hresult⟩

/-- Several sources, or the sources of directories, are compiled as a batch, if there are any. -/
theorem execute_batch (stdin : List UInt8)
    (hbatch : 1 < (o.sources walk fs).length ∨ o.inputs.any fs.isDir = true) :
    (∃ e, execute walk o stdin fs = (⟨"", "", fs⟩, some e)) ∨
      execute walk o stdin fs = finishBatch o.format o.output (o.sources walk fs).length
        ⟨"", "", fs⟩ 0 "" (o.results walk fs) := by
  have hinputs : o.inputs.isEmpty = false := by
    cases hinputs : o.inputs with
    | nil => simp [Options.sources, SourceSet.collect, hinputs, Except.toOption] at hbatch
    | cons input inputs => rfl
  rw [execute, hinputs, if_neg Bool.false_ne_true]
  cases hfiles : SourceSet.collect walk fs o.inputs with
  | error e => exact .inl ⟨_, rfl⟩
  | ok files =>
    have hsources : o.sources walk fs = files := by
      rw [Options.sources, hfiles]
      rfl
    rw [hsources] at hbatch
    rw [Options.results, hsources]
    match files with
    | [] => exact .inl ⟨_, rfl⟩
    | [file] =>
      have hdir : o.inputs.any fs.isDir = true := hbatch.resolve_left (Nat.lt_irrefl 1)
      dsimp only
      rw [if_pos hdir]
      exact .inr rfl
    | file :: next :: files => exact .inr rfl

theorem extension_isExtension (format : EmitFormat) : format.extension ≠ "" ∧
    '/' ∉ format.extension.toList ∧ ∃ c ∈ format.extension.toList, c ≠ '.' := by
  cases format <;> simp [EmitFormat.extension]

/-- What comes before the last point of a stem: the stem, if it has no extension. -/
def baseOf (stem : String) : String := (Path.splitExtension stem).1

/-- A stem that is the name of an entry of a directory. -/
structure IsStem (source stem : String) : Prop where
  eq : Path.stem? source = some stem
  not_here : stem ≠ "."
  not_up : stem ≠ ".."

namespace IsStem

variable {source stem : String}

theorem isName (h : IsStem source stem) : Path.IsName stem :=
  Path.isName_of_stem h.eq h.not_here h.not_up

theorem isName_output (h : IsStem source stem) (format : EmitFormat) :
    Path.IsName (baseOf stem ++ "." ++ format.extension) := by
  obtain ⟨-, hslash, hchar⟩ := extension_isExtension format
  exact h.isName.withExtension hslash hchar

/-- The name of the output is what comes before the last point of the stem, with the extension. -/
theorem outputPath_eq (h : IsStem source stem) (hdir : dir ≠ "") (format : EmitFormat) :
    outputPath dir source format = Path.join dir (baseOf stem ++ "." ++ format.extension) := by
  rw [outputPath, h.eq, Option.getD_some]
  exact Path.withExtension_join hdir h.isName (extension_isExtension format).1
    (h.isName_output format)

/-- The output of a source is in the output directory. -/
theorem targetLocation_eq {format : EmitFormat} {loc : Location} (h : IsStem source stem)
    (hdir : dir ≠ "") (hloc : targetLocation fs dir source format = .ok loc) :
    ∃ d, fs.stat dir = .ok (d, .directory) ∧ loc = d ++ [baseOf stem ++ "." ++ format.extension] := by
  rw [targetLocation, h.outputPath_eq hdir] at hloc
  exact FileSystem.locate_join hdir (h.isName_output format) hloc

end IsStem

/-- Sources have one target if their stems are the same up to the last points, although the stems
may differ. -/
theorem outputPath_eq_of_base {source source' stem stem' : String} (h : IsStem source stem)
    (h' : IsStem source' stem') (hbase : baseOf stem = baseOf stem') (hdir : dir ≠ "")
    (format : EmitFormat) : outputPath dir source format = outputPath dir source' format := by
  rw [h.outputPath_eq hdir, h'.outputPath_eq hdir, hbase]

theorem base_eq_of_targetLocation {source source' stem stem' : String} {format : EmitFormat}
    {loc : Location} (hdir : dir ≠ "") (h : IsStem source stem) (h' : IsStem source' stem')
    (hloc : targetLocation fs dir source format = .ok loc)
    (hloc' : targetLocation fs dir source' format = .ok loc) : baseOf stem = baseOf stem' := by
  obtain ⟨d, hd, rfl⟩ := h.targetLocation_eq hdir hloc
  obtain ⟨d', hd', heq⟩ := h'.targetLocation_eq hdir hloc'
  have hlast := congrArg List.getLast? heq
  rw [List.getLast?_concat, List.getLast?_concat] at hlast
  have hname := congrArg String.toList (Option.some.inj hlast)
  rw [String.toList_append, String.toList_append, String.toList_append, String.toList_append,
    List.append_assoc, List.append_assoc] at hname
  exact String.toList_inj.mp (List.append_cancel_right hname)

/-- A run that succeeds leaves the files of its last step. -/
theorem exists_of_exitCode {lib : Libraries} {args : List String} {stdin : List UInt8}
    (hargs : lib.read args = .ok o) (hexit : (runWith lib args stdin fs).exitCode = 0) :
    ∃ q, execute lib.walk o stdin fs = (q, none) ∧ (runWith lib args stdin fs).files = q.files := by
  rw [runWith, hargs] at hexit ⊢
  dsimp only at hexit ⊢
  split at hexit
  · rename_i q hq
    rw [hq]
    exact ⟨q, rfl, rfl⟩
  · exact absurd hexit Nat.one_ne_zero

/-- The runs of a batch that succeed are those in which each source is compiled and written. -/
theorem results_kept {lib : Libraries} {args : List String} {stdin : List UInt8}
    (hargs : lib.read args = .ok o) (houtput : o.output = some dir)
    (hbatch : 1 < (o.sources lib.walk fs).length ∨ o.inputs.any fs.isDir = true)
    (hexit : (runWith lib args stdin fs).exitCode = 0) (i : Nat) (source : String)
    (hi : (o.sources lib.walk fs)[i]? = some source) :
    ∃ out loc, (o.results lib.walk fs)[i]? = some (source, .ok out) ∧
      targetLocation (runWith lib args stdin fs).files dir source o.format = .ok loc ∧
      ((∀ (j : Nat) later, i < j → (o.sources lib.walk fs)[j]? = some later →
        targetLocation (runWith lib args stdin fs).files dir later o.format ≠ .ok loc) →
        (runWith lib args stdin fs).files.at? loc = some (.file (Utf8.encode out.text))) := by
  obtain ⟨q, hexecute, hfiles⟩ := exists_of_exitCode hargs hexit
  rw [hfiles]
  rcases execute_batch stdin hbatch with ⟨e, hfailed⟩ | hrun
  · rw [hexecute] at hfailed
    cases hfailed
  · rw [hexecute, houtput] at hrun
    obtain ⟨-, -, hkept⟩ := finishBatch_kept hrun.symm
    obtain ⟨result, hresult⟩ := exists_result hi
    obtain ⟨out, loc, rfl, hloc, hfile⟩ := hkept i source result hresult
    refine ⟨out, loc, hresult, hloc, fun hlater => hfile fun j later hj hr => ?_⟩
    refine hlater j later.1 hj ?_
    have hsources : (o.sources lib.walk fs)[j]? = ((o.results lib.walk fs)[j]?).map (·.1) := by
      rw [← List.getElem?_map, Options.results, compileBatch_sources]
    rw [hsources, hr, Option.map_some]

end Batches

/-- **No output of a batch is lost** unless a later one takes its place. If a batch succeeds, every
source has a stem and has been compiled. Its output is in the output directory and has the extension
of the format; if the stem has no extension of its own, it is the stem of the output. At the end,
the file has the text of the source, unless a later source is compiled to the same place. Sources
are compiled to different places if their stems differ before the last points. -/
theorem batch_outputs_kept {lib : Libraries} (hread : lib.read.Documented) {args : List String}
    {stdin : List UInt8} {fs : FileSystem} {o : Options} {dir : String}
    (hargs : lib.read args = .ok o) (houtput : o.output = some dir)
    (hbatch : 1 < (o.sources lib.walk fs).length ∨ o.inputs.any fs.isDir = true)
    (hexit : (runWith lib args stdin fs).exitCode = 0) :
    (∀ (i : Nat) source, (o.sources lib.walk fs)[i]? = some source → ∃ stem out loc,
      Path.stem? source = some stem ∧ (o.results lib.walk fs)[i]? = some (source, .ok out) ∧
      targetLocation (runWith lib args stdin fs).files dir source o.format = .ok loc ∧
      (IsStem source stem → ∃ d name,
        (runWith lib args stdin fs).files.stat dir = .ok (d, .directory) ∧
        loc = d ++ [name ++ "." ++ o.format.extension] ∧
        ((Path.splitExtension stem).2 = none → name = stem ∧
          outputPath dir source o.format = Path.join dir (stem ++ "." ++ o.format.extension))) ∧
      ((∀ (j : Nat) later, i < j → (o.sources lib.walk fs)[j]? = some later →
          targetLocation (runWith lib args stdin fs).files dir later o.format ≠ .ok loc) →
        (runWith lib args stdin fs).files.readBytes (outputPath dir source o.format) =
          .ok (Utf8.encode out.text))) ∧
    ∀ source ∈ o.sources lib.walk fs, ∀ source' ∈ o.sources lib.walk fs, ∀ stem stem',
      IsStem source stem → IsStem source' stem' → baseOf stem ≠ baseOf stem' →
      targetLocation (runWith lib args stdin fs).files dir source o.format ≠
        targetLocation (runWith lib args stdin fs).files dir source' o.format := by
  have hdir : dir ≠ "" := by
    rintro rfl
    exact hread.output_ne_empty args o hargs houtput
  refine ⟨fun i source hi => ?_, ?_⟩
  · obtain ⟨out, loc, hresult, hloc, hfile⟩ := results_kept hargs houtput hbatch hexit i source hi
    obtain ⟨stem, hstem⟩ := exists_stem (List.mem_of_getElem? hresult)
    refine ⟨stem, out, loc, hstem, hresult, hloc, fun h => ?_, fun hlater => ?_⟩
    -- The name of the target is the stem up to its last point, with the extension of the format.
    · obtain ⟨d, hd, hname⟩ := h.targetLocation_eq hdir hloc
      refine ⟨d, baseOf stem, hd, hname, fun hnone => ?_⟩
      have hbase : baseOf stem = stem := Path.splitExtension_of_none hnone
      exact ⟨hbase, by rw [h.outputPath_eq hdir, hbase]⟩
    · rw [FileSystem.readBytes, FileSystem.stat, show FileSystem.locate _ _ = _ from hloc]
      dsimp only
      rw [hfile hlater]
  · intro source hsource source' hsource' stem stem' h h' hne heq
    obtain ⟨i, hi⟩ := List.mem_iff_getElem?.mp hsource
    obtain ⟨out, loc, -, hloc, -⟩ := results_kept hargs houtput hbatch hexit i source hi
    exact hne (base_eq_of_targetLocation hdir h h' hloc (heq ▸ hloc))

/-- Files with two sources of the same stem in different directories, and one more. -/
def twoDirectories : FileSystem :=
  ⟨[(["work", "a"], .directory), (["work", "a", "x.kn"], .file (Utf8.encode "int a\n")),
    (["work", "b"], .directory), (["work", "b", "x.kn"], .file (Utf8.encode "int b\n")),
    (["work", "y.kn"], .file (Utf8.encode "int y\n"))], ["work"]⟩

/-- A file and the only source of a directory are compiled to two files in a new directory. -/
theorem batch_of_two_kept :
    (runWith .standard ["y.kn", "a", "-o", "out"] [] twoDirectories).exitCode = 0 ∧
    ∃ out loc, (Options.results ⟨["y.kn", "a"], some "out", none, [], none, 0⟩ .sorted
        twoDirectories)[0]? = some ("y.kn", .ok out) ∧
      targetLocation (runWith .standard ["y.kn", "a", "-o", "out"] [] twoDirectories).files "out"
        "y.kn" .c = .ok loc ∧
      (runWith .standard ["y.kn", "a", "-o", "out"] [] twoDirectories).files.readBytes "out/y.c" =
        .ok (Utf8.encode out.text) := by
  have hexit : (runWith .standard ["y.kn", "a", "-o", "out"] [] twoDirectories).exitCode = 0 := by
    decide +kernel
  have hsources : Options.sources ⟨["y.kn", "a"], some "out", none, [], none, 0⟩
      Libraries.standard.walk twoDirectories = ["y.kn", "a/x.kn"] := by
    decide +kernel
  have hread : Libraries.standard.read.Documented := documented_read
  have hargs : Libraries.standard.read ["y.kn", "a", "-o", "out"] =
      .ok ⟨["y.kn", "a"], some "out", none, [], none, 0⟩ :=
    rfl
  have hkept := batch_outputs_kept hread hargs rfl (.inl (by rw [hsources]; decide)) hexit
  obtain ⟨stem, out, loc, hstem, hresult, hloc, -, hfile⟩ :=
    hkept.1 0 "y.kn" (by rw [hsources]; rfl)
  refine ⟨hexit, out, loc, hresult, hloc, hfile fun j later hj hlater heq => ?_⟩
  have hx : later = "a/x.kn" := by
    rw [hsources] at hlater
    match j, hj with
    | 1, _ => exact (Option.some.inj hlater).symm
  subst hx
  have hy : IsStem "y.kn" "y" := ⟨by decide +kernel, by decide, by decide⟩
  have hx : IsStem "a/x.kn" "x" := ⟨by decide +kernel, by decide, by decide⟩
  exact hkept.2 "y.kn" (by rw [hsources]; decide) "a/x.kn" (by rw [hsources]; decide) "y" "x" hy hx
    (by decide +kernel) (hloc.trans heq.symm)

/-- Two sources with the same stem have one output, which holds the text of the second: the text of
the first is in no file, and yet the run succeeds. -/
theorem equal_stems_share_output :
    (run ["a/x.kn", "b/x.kn", "-o", "out"] [] twoDirectories).exitCode = 0 ∧
    ∃ out, (Options.results ⟨["a/x.kn", "b/x.kn"], some "out", none, [], none, 0⟩ .sorted
        twoDirectories)[0]? = some ("a/x.kn", .ok out) ∧
      ∀ e ∈ (run ["a/x.kn", "b/x.kn", "-o", "out"] [] twoDirectories).files.entries,
        e.2 ≠ .file (Utf8.encode out.text) := by
  have hok : ((Options.results ⟨["a/x.kn", "b/x.kn"], some "out", none, [], none, 0⟩ .sorted
      twoDirectories)[0]?.any fun r => r.1 = "a/x.kn" ∧ r.2.toOption.any fun out =>
        (run ["a/x.kn", "b/x.kn", "-o", "out"] [] twoDirectories).files.entries.all fun e =>
          e.2 ≠ .file (Utf8.encode out.text)) = true := by
    decide +kernel
  obtain ⟨⟨source, result⟩, hresult, hok⟩ := (Option.any_eq_true ..).mp hok
  obtain ⟨rfl, hok⟩ := of_decide_eq_true hok
  obtain ⟨out, hout, hok⟩ := (Option.any_eq_true ..).mp hok
  cases result with
  | error e => cases hout
  | ok out' =>
    cases hout
    exact ⟨by decide +kernel, out, hresult, fun e he =>
      of_decide_eq_true (List.all_eq_true.mp hok e he)⟩

end KilnLang.CommandLine
