import Mathlib.Data.List.Nodup
import Mathlib.Data.Set.Insert
import Mathlib.Tactic.Choose
import KilnLang.Proofs.Header.Caching
import KilnLang.Proofs.Header.Inclusion

/-!
# Header tables are complete

**Theorem (`tables_complete_and_distinct`).** Whatever was loaded before, a load of a header that can
be found ends with a table, and the table is in the cache afterwards. No name occurs twice in it. It
has a symbol for every macro of every header that includes lead to, and nothing else than what
scanning those headers gives, in rings of includes as well.

The second half needs that each path below the header has one spelling, because the cache knows
headers by their paths (`other_spelling_hides_symbols`).

**Visited headers.** A load that is cut at headers above it visits a set of headers whose macros are
all in its table, and the includes of a visited header are visited or cut (`Covered`). A header stays
in the set that its own load visits, so it can be struck off the list of what was cut. When nothing
is left on the list, the set is closed under includes, and the table is complete.

**Depth.** A load of any larger depth takes the same steps (`loadFile_deeper`): the bound on the depth
never ends a load.
-/

namespace KilnLang

/-! ## Merging -/

namespace Merge

variable {symbols new : List HeaderSymbol}

theorem nodup_foldl_addSymbol (h : (symbols.map (·.name)).Nodup) :
    ((new.foldl addSymbol symbols).map (·.name)).Nodup := by
  induction new generalizing symbols with
  | nil => exact h
  | cons s new ih =>
    refine ih ?_
    unfold addSymbol
    split_ifs with htaken
    · exact h
    · rw [List.map_append, List.map_singleton]
      refine List.nodup_append.mpr ⟨h, List.pairwise_singleton .., fun a ha b hb heq => htaken ?_⟩
      obtain ⟨t, ht, rfl⟩ := List.mem_map.mp ha
      exact List.any_eq_true.mpr ⟨t, ht, beq_iff_eq.mpr (heq.trans (List.mem_singleton.mp hb))⟩

theorem mem_of_mem_foldl_addSymbol {s : HeaderSymbol} (h : s ∈ new.foldl addSymbol symbols) :
    s ∈ symbols ∨ s ∈ new := by
  induction new generalizing symbols with
  | nil => exact .inl h
  | cons t new ih =>
    rcases ih h with h | h
    · unfold addSymbol at h
      split_ifs at h
      · exact .inl h
      · rcases List.mem_append.mp h with h | h
        · exact .inl h
        · exact .inr (List.mem_singleton.mp h ▸ List.mem_cons_self)
    · exact .inr (List.mem_cons_of_mem _ h)

theorem mem_names_foldl_addSymbol {name : String}
    (h : name ∈ symbols.map (·.name) ∨ name ∈ new.map (·.name)) :
    name ∈ (new.foldl addSymbol symbols).map (·.name) := by
  induction new generalizing symbols with
  | nil => exact h.resolve_right List.not_mem_nil
  | cons t new ih =>
    refine ih ?_
    rw [List.map_cons, List.mem_cons] at h
    unfold addSymbol
    split_ifs with htaken
    · rcases h with h | rfl | h
      · exact .inl h
      · obtain ⟨s, hs, hname⟩ := List.any_eq_true.mp htaken
        exact .inl (List.mem_map.mpr ⟨s, hs, eq_of_beq hname⟩)
      · exact .inr h
    · rw [List.map_append, List.mem_append, List.map_singleton, List.mem_singleton]
      rcases h with h | h | h
      · exact .inl (.inl h)
      · exact .inl (.inr h)
      · exact .inr h

theorem mem_of_mem_foldl_addKnown {known : Header.KnownTypes} {p : String × Ty}
    (h : p ∈ new.foldl addKnown known) : p ∈ known ∨ .typedef p.1 p.2 ∈ new := by
  induction new generalizing known with
  | nil => exact .inl h
  | cons s new ih =>
    rcases ih h with h | h
    · cases s with
      | typedef name target =>
        rcases List.mem_cons.mp h with rfl | h
        · exact .inr List.mem_cons_self
        · exact .inl h
      | _ => exact .inl h
    · exact .inr (List.mem_cons_of_mem _ h)

end Merge

/-! ## What a table should hold -/

/-- What scanning a header gives where some types are known. -/
def HeaderFile.symbols (f : HeaderFile) (known : Header.KnownTypes) : List HeaderSymbol :=
  (Header.directives f.contents).macros ++
    (Header.declarations known (Header.directives f.contents).declarations).1

namespace Locator

/-- Below the file, each path has one spelling. -/
def OneSpelling (l : Locator) (f : HeaderFile) : Prop :=
  ∀ g h, l.Reaches f g → l.Finds h → Path.key h.path = Path.key g.path → h = g

/-- Scanning the file gives the symbol, where the types that are known come from headers that
includes lead to. -/
inductive Scans (l : Locator) : HeaderFile → HeaderSymbol → Prop
  | intro {f : HeaderFile} {s : HeaderSymbol} (known : Header.KnownTypes)
      (source : String × Ty → HeaderFile) (below : ∀ p ∈ known, l.Reaches f (source p))
      (typedefs : ∀ p ∈ known, Scans l (source p) (.typedef p.1 p.2)) (found : s ∈ f.symbols known) :
      Scans l f s

/-- Scanning the file or one that includes lead to gives the symbol. -/
def Offers (l : Locator) (f : HeaderFile) (s : HeaderSymbol) : Prop :=
  ∃ g, l.Reaches f g ∧ l.Scans g s

variable {l : Locator} {f g : HeaderFile}

theorem OneSpelling.of_reaches (hf : l.OneSpelling f) (h : l.Reaches f g) : l.OneSpelling g :=
  fun _ _ hg => hf _ _ (h.trans hg)

theorem OneSpelling.eq_of_key (hf : l.OneSpelling f) (hg : l.Finds g)
    (hk : Path.key g.path = Path.key f.path) : g = f :=
  hf f g .refl hg hk

theorem Offers.of_includes {s : HeaderSymbol} (hfg : l.Includes f g) (h : l.Offers g s) :
    l.Offers f s := by
  obtain ⟨h', hreach, hscans⟩ := h
  exact ⟨h', .head hfg hreach, hscans⟩

theorem Offers.of_symbols {known : Header.KnownTypes} {s : HeaderSymbol}
    (hknown : ∀ p ∈ known, l.Offers f (.typedef p.1 p.2)) (hs : s ∈ f.symbols known) :
    l.Offers f s := by
  have : Nonempty HeaderFile := ⟨f⟩
  choose! source hbelow htypedefs using hknown
  exact ⟨f, .refl, .intro known source hbelow htypedefs hs⟩

end Locator

namespace HeaderTable

/-- No name occurs twice. -/
def Distinct (t : HeaderTable) : Prop := (t.symbols.map (·.name)).Nodup

/-- The table has a symbol for every macro of the headers that includes of the file lead to, and
only symbols of those headers. -/
structure Complete (l : Locator) (f : HeaderFile) (t : HeaderTable) : Prop where
  macros : ∀ g, l.Reaches f g → ∀ m ∈ (Header.directives g.contents).macros,
    ∃ s ∈ t.symbols, s.name = m.name
  sources : ∀ s ∈ t.symbols, l.Offers f s

end HeaderTable

/-! ## Visited headers -/

/-- The macros of all headers in `V` are among the symbols, and their includes lead to headers in
`V` or to headers that were cut. -/
structure Covered (l : Locator) (V : Set HeaderFile) (symbols : List HeaderSymbol)
    (cut : List Path.Key) : Prop where
  macros : ∀ g ∈ V, ∀ m ∈ (Header.directives g.contents).macros, m.name ∈ symbols.map (·.name)
  closed : ∀ g ∈ V, ∀ h, l.Includes g h → h ∈ V ∨ Path.key h.path ∈ cut

namespace Covered

variable {l : Locator} {V W : Set HeaderFile} {symbols symbols' : List HeaderSymbol}
  {cut cut' : List Path.Key} {f : HeaderFile}

theorem mono (h : Covered l V symbols cut)
    (hsymbols : ∀ name ∈ symbols.map (·.name), name ∈ symbols'.map (·.name)) (hcut : cut ⊆ cut') :
    Covered l V symbols' cut' :=
  ⟨fun g hg m hm => hsymbols _ (h.macros g hg m hm),
    fun g hg h' hh' => (h.closed g hg h' hh').imp_right (hcut ·)⟩

theorem union (hV : Covered l V symbols cut) (hW : Covered l W symbols cut) :
    Covered l (V ∪ W) symbols cut where
  macros g hg := hg.elim (hV.macros g) (hW.macros g)
  closed g hg h hh := by
    rcases hg with hg | hg
    · exact (hV.closed g hg h hh).imp_left .inl
    · exact (hW.closed g hg h hh).imp_left .inr

/-- Without cuts, everything that includes lead to is visited. -/
theorem of_reaches (h : Covered l V symbols []) (hf : f ∈ V) {g : HeaderFile}
    (hg : l.Reaches f g) : g ∈ V := by
  induction hg with
  | refl => exact hf
  | tail _ hstep ih => exact (h.closed _ ih _ hstep).resolve_right List.not_mem_nil

/-- A complete table covers all that includes lead to. -/
theorem of_complete {t : HeaderTable} (h : t.Complete l f) :
    Covered l {g | l.Reaches f g} t.symbols [] where
  macros g hg m hm := by
    obtain ⟨s, hs, hname⟩ := h.macros g hg m hm
    exact List.mem_map.mpr ⟨s, hs, hname⟩
  closed _ hg _ hh := .inl (hg.tail hh)

end Covered

namespace Header

open Caching

variable {l : Locator} {keys stack : List Path.Key} {f g : HeaderFile} {depth : Nat}

/-- What holds of the result of a load below those of `stack`. -/
structure Partial (l : Locator) (stack : List Path.Key) (f : HeaderFile) (loaded : Loaded) :
    Prop where
  distinct : loaded.table.Distinct
  cut : loaded.cut ⊆ stack
  sources : l.OneSpelling f → ∀ s ∈ loaded.table.symbols, l.Offers f s
  covered : l.OneSpelling f → ∃ V, f ∈ V ∧ Covered l V loaded.table.symbols loaded.cut

/-- What holds after the includes `done` of `f`. -/
structure Merged (l : Locator) (stack : List Path.Key) (f : HeaderFile) (done : List String)
    (m : Merge) : Prop where
  distinct : (m.symbols.map (·.name)).Nodup
  cut : m.cut ⊆ stack
  sources : l.OneSpelling f → ∀ s ∈ m.symbols, l.Offers f s
  known : l.OneSpelling f → ∀ p ∈ m.known, l.Offers f (.typedef p.1 p.2)
  covered : l.OneSpelling f → ∃ V, Covered l V m.symbols m.cut ∧
    ∀ name ∈ done, ∀ g, l.locate name = some g → g ∈ V ∨ Path.key g.path ∈ m.cut

/-- What the cache promises for the table of a path. -/
structure Promise (l : Locator) (key : Path.Key) (t : HeaderTable) : Prop where
  source : ∃ f, l.Finds f ∧ Path.key f.path = key
  distinct : t.Distinct
  complete : ∀ f, l.Finds f → Path.key f.path = key → l.OneSpelling f → t.Complete l f

namespace Partial

/-- The result of a load that misses nothing is complete. -/
theorem complete {table : HeaderTable} (h : Partial l stack f ⟨table, []⟩)
    (hf : l.OneSpelling f) : table.Complete l f where
  macros g hg m hm := by
    obtain ⟨V, hfV, hV⟩ := h.covered hf
    exact List.mem_map.mp (hV.macros g (hV.of_reaches hfV hg) m hm)
  sources := h.sources hf

/-- A table that keeps the promise is the result of a load. -/
theorem of_promise (hfind : l.Finds f) {table : HeaderTable}
    (h : Promise l (Path.key f.path) table) : Partial l stack f ⟨table, []⟩ where
  distinct := h.distinct
  cut := List.nil_subset _
  sources hf := (h.complete f hfind rfl hf).sources
  covered hf := ⟨_, .refl, .of_complete (h.complete f hfind rfl hf)⟩

/-- The result of a load that misses nothing keeps the promise. -/
theorem promise (hfind : l.Finds f) {table : HeaderTable} (h : Partial l stack f ⟨table, []⟩) :
    Promise l (Path.key f.path) table where
  source := ⟨f, hfind, rfl⟩
  distinct := h.distinct
  complete g _ hk hg := by
    obtain rfl := hg.eq_of_key hfind hk.symm
    exact h.complete hg

end Partial

namespace Merged

variable {done : List String} {m : Merge} {name : String}

theorem empty : Merged l stack f [] .empty where
  distinct := .nil
  cut := List.nil_subset _
  sources _ _ hs := absurd hs List.not_mem_nil
  known _ _ hp := absurd hp List.not_mem_nil
  covered _ := ⟨∅, ⟨fun _ hg => hg.elim, fun _ hg => hg.elim⟩, fun _ h => absurd h List.not_mem_nil⟩

/-- An include that is not found changes nothing. -/
theorem skip (h : Merged l stack f done m) (hname : l.locate name = none) :
    Merged l stack f (done ++ [name]) m where
  distinct := h.distinct
  cut := h.cut
  sources := h.sources
  known := h.known
  covered hf := by
    obtain ⟨V, hV, hdone⟩ := h.covered hf
    refine ⟨V, hV, fun n hn g hg => ?_⟩
    rcases List.mem_append.mp hn with hn | hn
    · exact hdone n hn g hg
    · rw [List.mem_singleton.mp hn, hname] at hg
      exact nomatch hg

theorem addCut (h : Merged l stack f done m) (hname : l.locate name = some g)
    (hg : Path.key g.path ∈ stack) :
    Merged l stack f (done ++ [name]) (m.addCut (Path.key g.path)) where
  distinct := h.distinct
  cut := List.append_subset.mpr ⟨h.cut, List.cons_subset.mpr ⟨hg, List.nil_subset _⟩⟩
  sources := h.sources
  known := h.known
  covered hf := by
    obtain ⟨V, hV, hdone⟩ := h.covered hf
    have hcut : m.cut ⊆ (m.addCut (Path.key g.path)).cut := List.subset_append_left _ _
    refine ⟨V, hV.mono (fun _ hn => hn) hcut, fun n hn g' hg' => ?_⟩
    rcases List.mem_append.mp hn with hn | hn
    · exact (hdone n hn g' hg').imp_right (hcut ·)
    · rw [List.mem_singleton.mp hn, hname] at hg'
      obtain rfl := Option.some.inj hg'
      exact .inr (List.mem_append_right _ (List.mem_singleton_self _))

theorem addTable (h : Merged l stack f done m) (hname : l.locate name = some g)
    (hfg : l.Includes f g) {loaded : Loaded} (hloaded : Partial l stack g loaded) :
    Merged l stack f (done ++ [name]) (m.addTable loaded) where
  distinct := Merge.nodup_foldl_addSymbol h.distinct
  cut := List.append_subset.mpr ⟨h.cut, hloaded.cut⟩
  sources hf s hs := by
    rcases Merge.mem_of_mem_foldl_addSymbol hs with hs | hs
    · exact h.sources hf s hs
    · exact .of_includes hfg (hloaded.sources (hf.of_reaches hfg.reaches) s hs)
  known hf p hp := by
    rcases Merge.mem_of_mem_foldl_addKnown hp with hp | hp
    · exact h.known hf p hp
    · exact .of_includes hfg (hloaded.sources (hf.of_reaches hfg.reaches) _ hp)
  covered hf := by
    obtain ⟨V, hV, hdone⟩ := h.covered hf
    obtain ⟨W, hgW, hW⟩ := hloaded.covered (hf.of_reaches hfg.reaches)
    have hcut : m.cut ⊆ (m.addTable loaded).cut := List.subset_append_left _ _
    refine ⟨V ∪ W, (hV.mono ?_ hcut).union (hW.mono ?_ (List.subset_append_right _ _)),
      fun n hn g' hg' => ?_⟩
    · exact fun _ hn => Merge.mem_names_foldl_addSymbol (.inl hn)
    · exact fun _ hn => Merge.mem_names_foldl_addSymbol (.inr hn)
    · rcases List.mem_append.mp hn with hn | hn
      · exact (hdone n hn g' hg').imp .inl (hcut ·)
      · rw [List.mem_singleton.mp hn, hname] at hg'
        obtain rfl := Option.some.inj hg'
        exact .inl (.inr hgW)

/-- After all includes, the table of the header visits the header itself, which is no longer cut. -/
theorem partial_table (h : Merged l (Path.key f.path :: stack) f (directives f.contents).includes m) :
    Partial l stack f ⟨m.table f, m.cut.filter (· != Path.key f.path)⟩ where
  distinct := Merge.nodup_foldl_addSymbol h.distinct
  cut k hk := by
    obtain ⟨hk, hne⟩ := List.mem_filter.mp hk
    exact (List.mem_cons.mp (h.cut hk)).resolve_left (bne_iff_ne.mp hne)
  sources hf s hs := by
    rcases Merge.mem_of_mem_foldl_addSymbol hs with hs | hs
    · exact h.sources hf s hs
    · exact .of_symbols (h.known hf) hs
  covered hf := by
    obtain ⟨V, hV, hdone⟩ := h.covered hf
    refine ⟨insert f V, Set.mem_insert _ _, ⟨fun g hg s hs => ?_, fun g hg g' hg' => ?_⟩⟩
    · refine Merge.mem_names_foldl_addSymbol ?_
      rcases hg with rfl | hg
      · exact .inr (List.mem_map_of_mem (List.mem_append_left _ hs))
      · exact .inl (hV.macros g hg s hs)
    · have hseen : g' ∈ V ∨ Path.key g'.path ∈ m.cut := by
        rcases hg with rfl | hg
        · obtain ⟨name, hname, hlocate⟩ := hg'
          exact hdone name hname g' hlocate
        · exact hV.closed g hg g' hg'
      rcases hseen with hseen | hseen
      · exact .inl (.inr hseen)
      · by_cases hk : Path.key g'.path = Path.key f.path
        · exact .inl (.inl (hf.eq_of_key hg'.finds hk))
        · exact .inr (List.mem_filter.mpr ⟨hseen, bne_iff_ne.mpr hk⟩)

end Merged

/-! ## Loads -/

/-- The includes of a header, each of which is cut or loaded. -/
theorem includes_merged (h : Pending l keys stack f (depth + 1))
    {load : HeaderFile → Caching Loaded}
    (hload : ∀ g, Pending l keys (Path.key f.path :: stack) g depth →
      (load g).Safe (Promise l) (Partial l (Path.key f.path :: stack) g)) :
    ((directives f.contents).includes.foldlM
        (Merge.addInclude l load (Path.key f.path :: stack)) Merge.empty).Safe (Promise l)
      (Merged l (Path.key f.path :: stack) f (directives f.contents).includes) := by
  -- The invariant of the fold: what is merged so far is the merge of the includes before `rest`.
  let P (rest : List String) (m : Merge) : Prop :=
    ∃ done, (directives f.contents).includes = done ++ rest ∧
      Merged l (Path.key f.path :: stack) f done m
  have hstep : ∀ name rest m, P (name :: rest) m →
      (Merge.addInclude l load (Path.key f.path :: stack) m name).Safe (Promise l) (P rest) := by
    rintro name rest m ⟨done, hsplit, hm⟩
    have hsplit' : (directives f.contents).includes = (done ++ [name]) ++ rest := by
      rw [hsplit, List.append_assoc]
      rfl
    unfold Merge.addInclude
    cases hlocate : l.locate name with
    | none => exact ⟨_, hsplit', hm.skip hlocate⟩
    | some g =>
      have hfg : l.Includes f g := ⟨name, by rw [hsplit]; simp, hlocate⟩
      simp only [List.contains_iff_mem]
      split_ifs with hmem
      · exact ⟨_, hsplit', hm.addCut hlocate hmem⟩
      · exact (hload g (h.child hfg hmem)).bind fun loaded hloaded =>
          ⟨_, hsplit', hm.addTable hlocate hfg hloaded⟩
  refine (Safe.foldlM hstep ⟨[], rfl, .empty⟩).mono fun m => ?_
  rintro ⟨done, hsplit, hm⟩
  rw [List.append_nil] at hsplit
  exact hsplit ▸ hm

/-- A load visits headers, keeps tables as promised, and says what it misses. -/
theorem loadFile_partial (h : Pending l keys stack f depth) :
    (loadFile l depth stack f).Safe (Promise l) (Partial l stack f) := by
  induction depth generalizing stack f with
  | zero => exact absurd rfl h.depth_ne_zero
  | succ depth ih =>
    intro found hfound
    cases found with
    | some table => exact .of_promise h.found (hfound table rfl)
    | none =>
      refine (includes_merged h fun g hg => ih hg).bind fun m hm => ?_
      have hpartial := hm.partial_table
      dsimp only
      split_ifs with hcut
      · rw [List.isEmpty_iff.mp hcut] at hpartial
        exact ⟨hpartial.promise h.found, fun kept hkept => .of_promise h.found hkept⟩
      · exact hpartial

/-- After a load that starts at a header, the cache has its table. -/
theorem loadFile_cached (h : Pending l keys [] f depth) {c : HeaderCache}
    (hc : Sound (Promise l) c) : ((loadFile l depth [] f).run c).2.get? (Path.key f.path) =
      some ((loadFile l depth [] f).run c).1.table := by
  cases depth with
  | zero => exact absurd rfl h.depth_ne_zero
  | succ depth =>
    rw [loadFile, run]
    cases hfind : c.get? (Path.key f.path) with
    | some table => exact hfind
    | none =>
      simp only [run_bind]
      have hmerged := ((includes_merged h fun g hg => loadFile_partial hg).run hc).1
      generalize hrun : (List.foldlM _ _ _ : Caching Merge).run c = result at hmerged ⊢
      -- Above the header there is nothing that could be cut.
      have hcut : (result.1.cut.filter (· != Path.key f.path)).isEmpty = true :=
        List.isEmpty_iff.mpr (List.subset_nil.mp hmerged.partial_table.cut)
      rw [if_pos hcut, run, pure_eq, run, HeaderCache.get?_insert, if_pos rfl]

/-- A load never runs out of depth: with more depth it takes the same steps. -/
theorem loadFile_deeper (h : Pending l keys stack f depth) (extra : Nat) :
    loadFile l (depth + extra) stack f = loadFile l depth stack f := by
  induction depth generalizing stack f with
  | zero => exact absurd rfl h.depth_ne_zero
  | succ depth ih =>
    have hfold : ∀ names ⊆ (directives f.contents).includes, ∀ m,
        names.foldlM (Merge.addInclude l (loadFile l (depth + extra) (Path.key f.path :: stack))
          (Path.key f.path :: stack)) m =
        names.foldlM (Merge.addInclude l (loadFile l depth (Path.key f.path :: stack))
          (Path.key f.path :: stack)) m := by
      intro names
      induction names with
      | nil => exact fun _ _ => rfl
      | cons name names ihnames =>
        intro hsub m
        obtain ⟨hname, hrest⟩ := List.cons_subset.mp hsub
        -- An include on the stack is cut off, and all others are still pending one level down.
        have hhead : Merge.addInclude l (loadFile l (depth + extra) (Path.key f.path :: stack))
              (Path.key f.path :: stack) m name =
            Merge.addInclude l (loadFile l depth (Path.key f.path :: stack))
              (Path.key f.path :: stack) m name := by
          unfold Merge.addInclude
          cases hlocate : l.locate name with
          | none => rfl
          | some g =>
            simp only [List.contains_iff_mem]
            split_ifs with hmem
            · rfl
            · rw [ih (h.child ⟨name, hname, hlocate⟩ hmem)]
        rw [List.foldlM_cons, List.foldlM_cons, hhead]
        exact bind_congr fun m' => ihnames hrest m'
    rw [Nat.succ_add, loadFile, loadFile]
    simp only [hfold _ (List.Subset.refl _)]

theorem load_promised (l : Locator) (name : String) :
    (load l name).Safe (Promise l) fun found => ∀ f, l.locate name = some f →
      ∃ table, found = some table ∧ Promise l (Path.key f.path) table := by
  unfold load
  cases hf : l.locate name with
  | none => exact fun _ h => nomatch h
  | some f =>
    have hroot := Pending.root ⟨name, hf⟩
    refine (loadFile_partial hroot).bind fun loaded hloaded f' hf' => ⟨loaded.table, rfl, ?_⟩
    obtain rfl := Option.some.inj hf'
    obtain ⟨table, cut⟩ := loaded
    obtain rfl : cut = [] := List.subset_nil.mp hloaded.cut
    exact hloaded.promise hroot.found

end Header

/-! ## Complete tables -/

section Complete

open Caching Header

/-- **Header tables are complete.** After any loads, a load of a header that can be found ends, with
a table that the cache has afterwards; its depth never bounds it. That table, and every table in the
cache, has no name twice, and if each path below its header has one spelling, it has a symbol for
every macro of the headers that includes lead to and only symbols of those headers. -/
theorem tables_complete_and_distinct (l : Locator) (history : List String) (name : String)
    (f : HeaderFile) (hf : l.locate name = some f) :
    (∀ extra, loadFile l (l.nestingBound + 1 + extra) [] f =
      loadFile l (l.nestingBound + 1) [] f) ∧
    ∃ table c, (history.foldl (fun c n => (c.load l n).2) HeaderCache.empty).load l name =
        (some table, c) ∧
      c.get? (Path.key f.path) = some table ∧
      table.Distinct ∧ (l.OneSpelling f → table.Complete l f) ∧
      ∀ key t, c.get? key = some t → t.Distinct ∧ (∃ g, l.Finds g ∧ Path.key g.path = key) ∧
        ∀ g, l.Finds g → Path.key g.path = key → l.OneSpelling g → t.Complete l g := by
  have hroot := Pending.root ⟨name, hf⟩
  refine ⟨loadFile_deeper hroot, ?_⟩
  have hbefore : Sound (Promise l) (history.foldl (fun c n => (c.load l n).2) HeaderCache.empty) :=
    sound_empty.foldl_load (load_promised l) history
  generalize history.foldl (fun c n => (c.load l n).2) HeaderCache.empty = c at hbefore ⊢
  obtain ⟨hfound, hafter⟩ := (load_promised l name).run hbefore
  obtain ⟨table, htable, hpromise⟩ := hfound f hf
  refine ⟨table, ((load l name).run c).2, Prod.ext htable rfl, ?_, hpromise.distinct,
    hpromise.complete f ⟨name, hf⟩ rfl, fun key t ht => ?_⟩
  · have hcached := loadFile_cached hroot hbefore
    unfold load at htable ⊢
    simp only [hf, run_bind] at htable ⊢
    rw [← htable]
    exact hcached
  · obtain ⟨hsource, hdistinct, hcomplete⟩ := hafter key t ht
    exact ⟨hdistinct, hsource, hcomplete⟩

/-! ## Spellings -/

/-- In memory, every path has one spelling if no two names spell the same path. -/
theorem Locator.oneSpelling_memory {files : List (String × String)}
    (h : (files.map fun file => Path.key file.1).Nodup) {f : HeaderFile}
    (hf : (Locator.memory files).Finds f) : (Locator.memory files).OneSpelling f := by
  have hfinds : ∀ {g}, (Locator.memory files).Finds g → (g.path, g.contents) ∈ files := by
    rintro g ⟨name, hname⟩
    obtain ⟨contents, hlook, rfl⟩ := Option.map_eq_some_iff.mp hname
    obtain ⟨before, after, hsplit, -⟩ := List.lookup_eq_some_iff.mp hlook
    rw [hsplit]
    simp
  intro g h' hg hh hk
  have hfind : (Locator.memory files).Finds g := by
    rcases Relation.ReflTransGen.cases_tail hg with rfl | ⟨_, -, hlast⟩
    · exact hf
    · exact hlast.finds
  have hpair := List.inj_on_of_nodup_map h (hfinds hh) (hfinds hfind) hk
  rw [Prod.mk.injEq] at hpair
  cases g
  cases h'
  obtain ⟨rfl, rfl⟩ := hpair
  rfl

/-- Two headers that include each other, one of which also includes a header that is missing. -/
def ring : Locator := .memory
  [("left.h", "#include \"right.h\"\n#define L 1\n"),
    ("right.h", "#include <none.h>\n#include \"left.h\"\n#define R \"s\"\n")]

/-- After the one header of the ring, the other one offers the macros of both. -/
theorem right_of_ring_complete :
    ∃ table c, (["left.h"].foldl (fun c n => (c.load ring n).2) HeaderCache.empty).load ring
        "right.h" = (some table, c) ∧
      table.symbols.map (·.name) = ["R", "L"] ∧
      table.Complete ring
        ⟨"right.h", "#include <none.h>\n#include \"left.h\"\n#define R \"s\"\n"⟩ := by
  obtain ⟨-, table, c, hload, -, -, hcomplete, -⟩ :=
    tables_complete_and_distinct ring ["left.h"] "right.h" _ rfl
  refine ⟨table, c, hload, ?_,
    hcomplete (Locator.oneSpelling_memory (by decide +kernel) ⟨"right.h", rfl⟩)⟩
  have hnames : ((["left.h"].foldl (fun c n => (c.load ring n).2) HeaderCache.empty).load ring
      "right.h").1.map (fun t => t.symbols.map (·.name)) = some ["R", "L"] := by
    decide +kernel
  rw [hload] at hnames
  exact Option.some.inj hnames

/-- Two spellings of one path, of texts that share no macro. -/
def spelledTwice : Locator := .memory [("a/b.h", "#define X 1\n"), ("a//b.h", "#define Y 2\n")]

/-- After one spelling of a path, the other one gives the table of the first, without its own
macro. -/
theorem other_spelling_hides_symbols :
    ∃ table, ((HeaderCache.empty.load spelledTwice "a/b.h").2.load spelledTwice "a//b.h").1 =
        some table ∧
      ¬ table.Complete spelledTwice ⟨"a//b.h", "#define Y 2\n"⟩ := by
  refine ⟨⟨"a/b.h", [.constant "X" .int], []⟩, by decide +kernel, fun h => ?_⟩
  obtain ⟨s, hs, hname⟩ := h.macros _ .refl (.constant "Y" .int) (by decide +kernel)
  rw [List.mem_singleton.mp hs] at hname
  exact absurd hname (by decide)

end Complete

end KilnLang
