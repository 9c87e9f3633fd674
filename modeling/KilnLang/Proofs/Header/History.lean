import KilnLang.Compiler
import KilnLang.Proofs.Header.Caching
import KilnLang.Proofs.Header.Inclusion

/-!
# Results do not depend on what was loaded before

Loads and compilations share one cache, one after the other or step by step in any interleaving.

**Theorem (`settled_results_independent_of_history`).** The table of a settled header, and the
result of a unit whose headers are settled, are those of an empty cache, whatever was loaded or
compiled before or is loaded or compiled at the same time.

The proof relies on what others do to the cache. A cache is *sound* if every settled header that it
holds has the table that it has without a cache (`tableOf`). A computation is *safe* if, as long as
it is shown tables of sound caches, it keeps only such tables; its result is then judged by the
same rule, step by step (`Safe`). Loads of settled headers are safe and determined: they never meet
a header that is being loaded above them, so nothing but a self-include is cut. Loads of headers
that are not settled are safe as well, because a settled header below them is loaded like any
other.

**Rings and spellings.** Both conditions are needed (`unsettled_depends_on_history`). Two headers
that include each other give different tables in the two orders of loading, and so do two spellings
of one path.
-/

namespace KilnLang

/-! ## Tables without a cache -/

/-- Adds the header that an include of `f` names, whose table is given; `f` itself is cut. -/
def Merge.addPlain (l : Locator) (table : HeaderFile → HeaderTable) (f : HeaderFile) (m : Merge)
    (name : String) : Merge :=
  match l.locate name with
  | none => m
  | some g =>
    if Path.key g.path = Path.key f.path then m.addCut (Path.key g.path)
    else m.addTable ⟨table g, []⟩

namespace Header

variable {l : Locator}

/-- What the includes of a header give, whose tables are given. -/
def mergeOf (l : Locator) (table : HeaderFile → HeaderTable) (f : HeaderFile) : Merge :=
  (directives f.contents).includes.foldl (Merge.addPlain l table f) .empty

/-- The table of a header without a cache, with at most `depth` headers below each other. -/
def plain (l : Locator) : (depth : Nat) → HeaderFile → HeaderTable
  | 0, f => ⟨f.path, [], []⟩
  | depth + 1, f => (mergeOf l (plain l depth) f).table f

/-- The table of a header without a cache. -/
def tableOf (l : Locator) (f : HeaderFile) : HeaderTable := plain l (l.nestingBound + 1) f

theorem addPlain_congr {f : HeaderFile} {t t' : HeaderFile → HeaderTable} {name : String}
    (h : ∀ g, l.locate name = some g → Path.key g.path ≠ Path.key f.path → t g = t' g)
    (m : Merge) : Merge.addPlain l t f m name = Merge.addPlain l t' f m name := by
  unfold Merge.addPlain
  split
  · rfl
  · rename_i g hg
    split_ifs with hk
    · rfl
    · rw [h g hg hk]

theorem mergeOf_congr {f : HeaderFile} {t t' : HeaderFile → HeaderTable}
    (h : ∀ g, l.Includes f g → Path.key g.path ≠ Path.key f.path → t g = t' g) :
    mergeOf l t f = mergeOf l t' f :=
  List.foldl_ext _ _ _ fun m name hname => addPlain_congr (fun g hg => h g ⟨name, hname, hg⟩) m

theorem plain_congr {d d' : Nat} {f : HeaderFile} (h : Fits l d f) (h' : Fits l d' f) :
    plain l d f = plain l d' f := by
  induction h generalizing d' with
  | @intro d f _ ih =>
    cases h' with
    | intro below' =>
      simp only [plain]
      rw [mergeOf_congr fun g hg hk => ih g hg hk (below' g hg hk)]

theorem Fits.mono {d : Nat} {f : HeaderFile} (h : Fits l d f) : Fits l (d + 1) f := by
  induction h with
  | intro _ ih => exact .intro ih

/-- The table of a settled header is assembled from those of the headers that it includes. -/
theorem tableOf_eq {f : HeaderFile} (hfind : l.Finds f) (hf : l.Settled f) :
    tableOf l f = (mergeOf l (tableOf l) f).table f := by
  have hfit : Fits l (l.nestingBound + 1) f := (Pending.root hfind).fits hf
  cases hfit with
  | intro below =>
    show (mergeOf l (plain l l.nestingBound) f).table f = _
    rw [mergeOf_congr fun g hg hk => plain_congr (below g hg hk) (below g hg hk).mono]
    rfl

theorem cut_foldl_addPlain {t : HeaderFile → HeaderTable} {f : HeaderFile} (names : List String)
    {m : Merge} (hm : ∀ k ∈ m.cut, k = Path.key f.path) :
    ∀ k ∈ (names.foldl (Merge.addPlain l t f) m).cut, k = Path.key f.path := by
  induction names generalizing m with
  | nil => exact hm
  | cons name names ih =>
    refine ih fun k hk => ?_
    unfold Merge.addPlain at hk
    split at hk
    · exact hm k hk
    · rename_i g hg
      split_ifs at hk with hkey
      · rcases List.mem_append.mp hk with hk | hk
        · exact hm k hk
        · rw [List.mem_singleton.mp hk, hkey]
      · exact hm k (by simpa [Merge.addTable] using hk)

/-- Without a cache, only the header itself is cut. -/
theorem cut_mergeOf (t : HeaderFile → HeaderTable) (f : HeaderFile) :
    (mergeOf l t f).cut.filter (· != Path.key f.path) = [] := by
  refine List.filter_eq_nil_iff.mpr fun k hk => ?_
  have := cut_foldl_addPlain (directives f.contents).includes (m := Merge.empty)
    (by simp [Merge.empty]) k hk
  simp [this]

end Header

/-! ## Right tables -/

/-- Every settled header of that path has that table. -/
def Caching.Right (l : Locator) (key : Path.Key) (table : HeaderTable) : Prop :=
  ∀ f, l.Finds f → l.Settled f → Path.key f.path = key → table = Header.tableOf l f

/-! ## Loads -/

namespace Header

open Caching

variable {l : Locator} {keys stack : List Path.Key} {f : HeaderFile} {depth : Nat}

/-- The includes of a header, each of which is cut or loaded by a safe load, leave what they leave
without a cache. -/
theorem safe_includes (h : Pending l keys stack f (depth + 1)) {load : HeaderFile → Caching Loaded}
    (hload : ∀ g, Pending l keys (Path.key f.path :: stack) g depth →
      (load g).Safe (Right l) fun loaded => l.Settled g → loaded = ⟨tableOf l g, []⟩) :
    ((directives f.contents).includes.foldlM
        (Merge.addInclude l load (Path.key f.path :: stack)) Merge.empty).Safe (Right l)
      fun m => l.Settled f → m = mergeOf l (tableOf l) f := by
  -- Folding the rest without a cache leads to the merge as a whole.
  let P (rest : List String) (m : Merge) : Prop :=
    rest ⊆ (directives f.contents).includes ∧
      (l.Settled f → rest.foldl (Merge.addPlain l (tableOf l) f) m = mergeOf l (tableOf l) f)
  have hstep : ∀ name rest m, P (name :: rest) m →
      (Merge.addInclude l load (Path.key f.path :: stack) m name).Safe (Right l) (P rest) := by
    intro name rest m ⟨hsub, hfold⟩
    obtain ⟨hname, hrest⟩ := List.cons_subset.mp hsub
    rw [List.foldl_cons, Merge.addPlain] at hfold
    unfold Merge.addInclude
    cases hg : l.locate name with
    | none =>
      simp only [hg] at hfold ⊢
      exact ⟨hrest, hfold⟩
    | some g =>
      have hfg : l.Includes f g := ⟨name, hname, hg⟩
      simp only [hg, List.contains_iff_mem] at hfold ⊢
      split_ifs with hmem
      · refine ⟨hrest, fun hf => ?_⟩
        rw [← hfold hf, if_pos (h.eq_or_fresh hf hfg hmem)]
      · refine (hload g (h.child hfg hmem)).bind fun loaded hloaded => ⟨hrest, fun hf => ?_⟩
        have hne : Path.key g.path ≠ Path.key f.path := fun hk => hmem (hk ▸ List.mem_cons_self)
        rw [← hfold hf, if_neg hne, hloaded (hf.of_reaches hfg.reaches)]
  exact (Safe.foldlM hstep ⟨List.Subset.refl _, fun _ => rfl⟩).mono fun m hm hf => hm.2 hf

/-- A load is safe, and that of a settled header gives its table and cuts nothing. -/
theorem safe_loadFile (h : Pending l keys stack f depth) :
    (loadFile l depth stack f).Safe (Right l) fun loaded => l.Settled f → loaded = ⟨tableOf l f, []⟩ := by
  induction depth generalizing stack f with
  | zero => exact fun hf => nomatch h.fits hf
  | succ depth ih =>
    intro found hfound
    cases found with
    | some table => exact fun hf => by rw [hfound table rfl f h.found hf rfl]
    | none =>
      refine (safe_includes h fun g hg => ih hg).bind fun m hm => ?_
      have htable : l.Settled f → m.table f = tableOf l f := fun hf => by
        rw [hm hf, ← tableOf_eq h.found hf]
      dsimp only
      split_ifs with hcut
      · refine ⟨fun g hg hsettled hk => ?_, fun kept hkept hf => ?_⟩
        · obtain rfl := hsettled.eq_of_key h.found hk.symm
          exact htable hsettled
        · rw [hkept f h.found hf rfl]
      · intro hf
        rw [hm hf, cut_mergeOf] at hcut
        exact absurd rfl hcut

/-- The name leads to a settled header, or nowhere. -/
def SettledName (l : Locator) (name : String) : Prop := ∀ f, l.locate name = some f → l.Settled f

theorem safe_load (name : String) :
    (load l name).Safe (Right l) fun r => SettledName l name → r = (l.locate name).map (tableOf l) := by
  unfold load
  cases hf : l.locate name with
  | none => exact fun _ => rfl
  | some f =>
    refine (safe_loadFile (Pending.root ⟨name, hf⟩)).bind fun loaded hloaded hname => ?_
    rw [hloaded (hname f hf)]
    rfl

theorem determined_load {name : String} (h : SettledName l name) : (load l name).Determined (Right l) :=
  ⟨_, (safe_load name).mono fun _ hr => hr h⟩

end Header

/-! ## Units -/

section Units

open Caching

variable {l : Locator}

/-- Every header that the parts include is settled. -/
def SettledNodes (l : Locator) (nodes : List Node) : Prop :=
  ∀ item, Node.header item ∈ nodes → Header.SettledName l item.headerName

theorem safe_bridgeEach (nodes : List Node) : (Node.bridgeEach l nodes).Safe (Right l) fun _ => True := by
  induction nodes with
  | nil => trivial
  | cons node nodes ih =>
    cases node with
    | header item =>
      refine (Header.safe_load item.headerName).bind fun table _ => ?_
      cases table with
      | none => trivial
      | some table => exact ih.bind fun _ _ => trivial
    | _ => exact ih.bind fun _ _ => trivial

theorem determined_bridgeEach {nodes : List Node} (h : SettledNodes l nodes) :
    (Node.bridgeEach l nodes).Determined (Right l) := by
  induction nodes with
  | nil => exact determined_done _
  | cons node nodes ih =>
    have ih := ih fun item hitem => h item (List.mem_cons_of_mem _ hitem)
    cases node with
    | header item =>
      refine (Header.determined_load (h item List.mem_cons_self)).bind fun table => ?_
      cases table with
      | none => exact determined_done _
      | some table => exact ih.bind fun _ => determined_done _
    | _ => exact ih.bind fun _ => determined_done _

/-- Every header that the text of a unit includes is settled. -/
def SettledText (l : Locator) (text : String) : Prop :=
  ∀ unit, SourceUnit.parse 0 text = .ok unit → SettledNodes l unit.nodes

theorem safe_analysis (text : String) : (SourceUnit.analysis l text).Safe (Right l) fun _ => True := by
  unfold SourceUnit.analysis
  cases SourceUnit.parse 0 text with
  | error e => trivial
  | ok unit =>
    refine Safe.bind (Q := fun _ => True) ((safe_bridgeEach unit.nodes).bind ?_) ?_
    · exact fun _ _ => trivial
    · intro bridged _
      cases bridged <;> trivial

theorem determined_analysis {text : String} (h : SettledText l text) :
    (SourceUnit.analysis l text).Determined (Right l) := by
  unfold SourceUnit.analysis
  cases hparse : SourceUnit.parse 0 text with
  | error e => exact determined_done _
  | ok unit =>
    refine Determined.bind ((determined_bridgeEach (h unit hparse)).bind ?_) ?_
    · exact fun _ => determined_done _
    · intro bridged
      cases bridged <;> exact determined_done _

/-- What a compiler can be asked for: the text of a unit under a name, or a file. -/
inductive Job where
  | source (name text : String)
  | file (fs : FileSystem) (path : String)

namespace Job

/-- The computation of a job. -/
def work (c : Compiler) : Job → Caching (Except CompileFailure CompileOutput)
  | .source name text => c.compilation name text
  | .file fs path => c.fileCompilation fs path

/-- What a compiler gives for a job. -/
def result (c : Compiler) (job : Job) : Except CompileFailure CompileOutput :=
  (c.perform (job.work c)).1

/-- Every header that the unit of a job includes is settled. -/
def Settled (l : Locator) : Job → Prop
  | .source _ text => SettledText l text
  | .file fs path => ∀ text, fs.readText path = .ok text → SettledText l text

end Job

theorem safe_compilation (c : Compiler) (name text : String) :
    (c.compilation name text).Safe (Right c.locator) fun _ => True := by
  refine (safe_analysis text).bind fun analyzed _ => ?_
  cases analyzed <;> trivial

theorem determined_compilation {c : Compiler} (name : String) {text : String}
    (h : SettledText c.locator text) : (c.compilation name text).Determined (Right c.locator) := by
  refine (determined_analysis h).bind fun analyzed => ?_
  cases analyzed <;> exact determined_done _

theorem safe_job (c : Compiler) (job : Job) : (job.work c).Safe (Right c.locator) fun _ => True := by
  cases job with
  | source name text => exact safe_compilation c name text
  | file fs path =>
    show (c.fileCompilation fs path).Safe (Right c.locator) _
    unfold Compiler.fileCompilation
    cases fs.readText path with
    | error e => trivial
    | ok text => exact safe_compilation c path text

theorem determined_job {c : Compiler} {job : Job} (h : job.Settled c.locator) :
    (job.work c).Determined (Right c.locator) := by
  cases job with
  | source name text => exact determined_compilation name h
  | file fs path =>
    show (c.fileCompilation fs path).Determined (Right c.locator)
    unfold Compiler.fileCompilation
    cases htext : fs.readText path with
    | error e => exact determined_done _
    | ok text => exact determined_compilation path (h text htext)

end Units

/-! ## Interleavings -/

/-- Computations that share a cache. -/
structure Shared (α : Type) where
  cache : HeaderCache
  tasks : List (Caching α)

namespace Shared

open Caching

variable {l : Locator} {α : Type}

/-- Any number of steps, each of any of the computations. -/
inductive Steps : Shared α → Shared α → Prop
  | refl (s : Shared α) : Steps s s
  | step {c : HeaderCache} {tasks : List (Caching α)} {i : Nat} {p : Caching α} {s : Shared α}
      (task : tasks[i]? = some p)
      (rest : Steps ⟨(p.step c).2, tasks.set i (p.step c).1⟩ s) : Steps ⟨c, tasks⟩ s

/-- Safe computations stay safe in any interleaving. -/
theorem Steps.safe {s s' : Shared α} (h : Steps s s') {Q : Nat → α → Prop}
    (hcache : Sound (Right l) s.cache)
    (htasks : ∀ (i : Nat) (p : Caching α), s.tasks[i]? = some p → p.Safe (Right l) (Q i)) :
    Sound (Right l) s'.cache ∧
      ∀ (i : Nat) (p : Caching α), s'.tasks[i]? = some p → p.Safe (Right l) (Q i) := by
  induction h with
  | refl => exact ⟨hcache, htasks⟩
  | @step c tasks i p s htask _ ih =>
    obtain ⟨hp, hc⟩ := (htasks i p htask).step hcache
    refine ih hc fun j q hq => ?_
    rw [List.getElem?_set] at hq
    split_ifs at hq with hij hlen
    · cases hq
      exact hij ▸ hp
    · exact htasks j q hq

/-- A task that is determined gives in any interleaving with safe ones the result that it has
alone. -/
theorem Steps.eq_run {tasks : List (Caching α)} {s : Shared α} (h : Steps ⟨.empty, tasks⟩ s)
    (hsafe : ∀ p ∈ tasks, p.Safe (Right l) fun _ => True) {i : Nat} {p : Caching α} {r : α}
    (hp : tasks[i]? = some p) (hdet : p.Determined (Right l)) (hr : s.tasks[i]? = some (.done r)) :
    r = (p.run .empty).1 := by
  obtain ⟨r₀, hr₀⟩ := hdet
  let Q (j : Nat) (a : α) : Prop := j = i → a = r₀
  have htasks : ∀ (j : Nat) (q : Caching α), tasks[j]? = some q → q.Safe (Right l) (Q j) := by
    intro j q hq
    by_cases hij : j = i
    · subst hij
      obtain rfl : p = q := Option.some.inj (hp.symm.trans hq)
      exact hr₀.mono fun a ha _ => ha
    · exact (hsafe q (List.mem_of_getElem? hq)).mono fun a _ hji => absurd hji hij
  have hdone : Q i r := (h.safe sound_empty htasks).2 i _ hr
  rw [hdone rfl, (hr₀.run sound_empty).1]

end Shared

/-! ## Independence of history -/

section Independence

open Caching

variable {l : Locator}

theorem sound_foldl_load (history : List String) {c : HeaderCache} (hc : Sound (Right l) c) :
    Sound (Right l) (history.foldl (fun c name => (c.load l name).2) c) :=
  hc.foldl_load Header.safe_load history

/-- A compiler after jobs, one after the other. -/
def Compiler.after (c : Compiler) (history : List Job) : Compiler :=
  history.foldl (fun c job => (c.perform (job.work c)).2) c

theorem Compiler.after_spec (c : Compiler) (history : List Job) (hc : Sound (Right c.locator) c.cache) :
    ∃ cache, c.after history = { c with cache } ∧ Sound (Right c.locator) cache := by
  induction history generalizing c with
  | nil => exact ⟨c.cache, rfl, hc⟩
  | cons job history ih => exact ih (c.perform (job.work c)).2 ((safe_job c job).run hc).2

/-- **Results do not depend on history.** A load of a settled header gives the table of an empty
cache: after any loads, and in any interleaving with other loads. A job whose headers are settled
gives the result of a compiler that has loaded nothing: after any jobs of the same compiler, and in
any interleaving with other jobs. -/
theorem settled_results_independent_of_history (l : Locator) :
    (∀ (history : List String) (name : String), Header.SettledName l name →
      ((history.foldl (fun c n => (c.load l n).2) HeaderCache.empty).load l name).1 =
        (HeaderCache.empty.load l name).1) ∧
    (∀ (names : List String) (s : Shared (Option HeaderTable)) (i : Nat) (name : String)
      (r : Option HeaderTable), Shared.Steps ⟨.empty, names.map (Header.load l)⟩ s →
      names[i]? = some name → Header.SettledName l name → s.tasks[i]? = some (.done r) →
      r = (HeaderCache.empty.load l name).1) ∧
    (∀ (emit : EmitFormat) (model : DataModel) (history : List Job) (job : Job), job.Settled l →
      job.result ((Compiler.new emit model l).after history) =
        job.result (Compiler.new emit model l)) ∧
    ∀ (emit : EmitFormat) (model : DataModel) (jobs : List Job)
      (s : Shared (Except CompileFailure CompileOutput)) (i : Nat) (job : Job)
      (r : Except CompileFailure CompileOutput),
      Shared.Steps ⟨.empty, jobs.map (Job.work (Compiler.new emit model l))⟩ s →
      jobs[i]? = some job → job.Settled l → s.tasks[i]? = some (.done r) →
      r = job.result (Compiler.new emit model l) := by
  refine ⟨fun history name hname => ?_, fun names s i name r hsteps hi hname hr => ?_,
    fun emit model history job hjob => ?_,
    fun emit model jobs s i job r hsteps hi hjob hr => ?_⟩
  · obtain ⟨r, hr⟩ := Header.determined_load hname
    exact (hr.run (sound_foldl_load history sound_empty)).1.trans (hr.run sound_empty).1.symm
  · refine hsteps.eq_run (l := l) ?_ (by simp [hi]) (Header.determined_load hname) hr
    simp only [List.mem_map, forall_exists_index, and_imp, forall_apply_eq_imp_iff₂]
    exact fun n _ => (Header.safe_load n).mono fun _ _ => trivial
  · obtain ⟨cache, hafter, hcache⟩ :=
      (Compiler.new emit model l).after_spec history sound_empty
    obtain ⟨r, hr⟩ := determined_job (c := Compiler.new emit model l) hjob
    -- The tables that were loaded do not change which steps the job takes.
    have hwork : job.work { Compiler.new emit model l with cache } =
        job.work (Compiler.new emit model l) := by
      cases job <;> rfl
    rw [hafter]
    show ((job.work { Compiler.new emit model l with cache }).run cache).1 =
      ((job.work (Compiler.new emit model l)).run .empty).1
    rw [hwork]
    exact (hr.run hcache).1.trans (hr.run sound_empty).1.symm
  · refine hsteps.eq_run (l := l) ?_ (by simp [hi])
      (determined_job (c := Compiler.new emit model l) hjob) hr
    simp only [List.mem_map, forall_exists_index, and_imp, forall_apply_eq_imp_iff₂]
    exact fun job _ => safe_job (Compiler.new emit model l) job

/-! ## Two headers in a row, and what the conditions rule out -/

/-- A header that includes itself and another one. -/
def outerHeader : HeaderFile := ⟨"a.h", "#include \"a.h\"\n#include \"b.h\"\n#define A 1\n"⟩

/-- A header without includes. -/
def innerHeader : HeaderFile := ⟨"b.h", "#define B 2\n"⟩

/-- The two headers in memory. -/
def nestedPair : Locator := .memory
  [(outerHeader.path, outerHeader.contents), (innerHeader.path, innerHeader.contents)]

theorem nestedPair_finds {f : HeaderFile} (h : nestedPair.Finds f) :
    f = outerHeader ∨ f = innerHeader := by
  obtain ⟨name, hname⟩ := h
  obtain ⟨contents, hlook, rfl⟩ := Option.map_eq_some_iff.mp hname
  rw [List.lookup_cons, List.lookup_cons] at hlook
  split at hlook
  · rename_i ha
    obtain rfl := eq_of_beq ha
    exact .inl (congrArg _ (Option.some.inj hlook).symm)
  · split at hlook
    · rename_i hb
      obtain rfl := eq_of_beq hb
      exact .inr (congrArg _ (Option.some.inj hlook).symm)
    · simp at hlook

theorem nestedPair_reaches_inner {f : HeaderFile} (h : nestedPair.Reaches innerHeader f) :
    f = innerHeader := by
  rcases Relation.ReflTransGen.cases_head h with rfl | ⟨g, ⟨name, hname, -⟩, -⟩
  · rfl
  · rw [show (Header.directives innerHeader.contents).includes = [] by decide] at hname
    exact absurd hname List.not_mem_nil

theorem nestedPair_settled : nestedPair.Settled outerHeader := by
  have hne : Path.key outerHeader.path ≠ Path.key innerHeader.path := by decide
  have hfound : ∀ g, nestedPair.Reaches outerHeader g → g = outerHeader ∨ g = innerHeader := by
    intro g hg
    rcases Relation.ReflTransGen.cases_tail hg with rfl | ⟨_, -, hlast⟩
    · exact .inl rfl
    · exact nestedPair_finds hlast.finds
  refine ⟨fun g h hg hh hk => ?_, fun g h hg hgh hhg => ?_⟩
  · rcases hfound g hg with rfl | rfl <;> rcases nestedPair_finds hh with rfl | rfl
    · rfl
    · exact absurd hk.symm hne
    · exact absurd hk hne
    · rfl
  · rcases hfound g hg with rfl | rfl
    · rcases hfound h hgh with rfl | rfl
      · rfl
      · exact nestedPair_reaches_inner hhg
    · exact (nestedPair_reaches_inner hgh).symm

theorem settledName_outer : Header.SettledName nestedPair "a.h" :=
  fun _ h => Option.some.inj h ▸ nestedPair_settled

/-- Loading the inner header first does not change the table of the outer one. -/
theorem outer_after_inner :
    Header.SettledName nestedPair "a.h" ∧
      ((["b.h"].foldl (fun c n => (c.load nestedPair n).2) HeaderCache.empty).load
          nestedPair "a.h").1 = (HeaderCache.empty.load nestedPair "a.h").1 :=
  ⟨settledName_outer,
    (settled_results_independent_of_history nestedPair).1 ["b.h"] "a.h" settledName_outer⟩

/-- Two headers that include each other and disagree on a macro. -/
def mutualPair : Locator := .memory
  [("a.h", "#include \"b.h\"\n#define X 1\n"), ("b.h", "#include \"a.h\"\n#define X \"s\"\n")]

/-- Two spellings of one path that lead to different texts. -/
def twoSpellings : Locator := .memory [("a/b.h", "#define X 1\n"), ("a//b.h", "#define X \"s\"\n")]

/-- After the first of two headers that include each other, the second offers another macro than
alone: it finds the table of the first, in which its own definition came first. After one spelling
of a path, the other one gives the table of the first. -/
theorem unsettled_depends_on_history :
    (((HeaderCache.empty.load mutualPair "a.h").2.load mutualPair "b.h").1 =
        some ⟨"b.h", [.constant "X" .str], []⟩ ∧
      (HeaderCache.empty.load mutualPair "b.h").1 = some ⟨"b.h", [.constant "X" .int], []⟩) ∧
    ((HeaderCache.empty.load twoSpellings "a/b.h").2.load twoSpellings "a//b.h").1 =
        some ⟨"a/b.h", [.constant "X" .int], []⟩ ∧
      (HeaderCache.empty.load twoSpellings "a//b.h").1 =
        some ⟨"a//b.h", [.constant "X" .str], []⟩ :=
  ⟨⟨by decide +kernel, by decide +kernel⟩, by decide +kernel, by decide +kernel⟩

end Independence

end KilnLang
