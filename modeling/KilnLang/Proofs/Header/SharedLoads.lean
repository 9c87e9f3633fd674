import KilnLang.Proofs.Header.Completeness
import Mathlib.Logic.Relation

/-!
# Loads that share a cache while files change

Any number of loads run at the same time over one cache. Each of them takes its steps one by one:
it asks for a file, looks a path up in the cache, or closes a header whose includes are all read,
which builds its table and keeps it unless the path has one by then. In between, other loads take
theirs, new loads begin, and the files change in any way.

**Theorem (`cached_tables_are_final`).** A path that has a table in the cache has the very same table
ever after. All loads that have found a file of one path end with the very same table, which is the
first that the cache was given for the path.

Tables are told apart by numbers (`SharedTable`), since two loads may build tables that look alike,
and a table that lost the race for its path is not the one that is kept.

**Open headers.** A load carries the headers whose includes it is reading, innermost first, so that
no bound on their depth is needed: files that change can lead to ever new ones. What has been cut
from an open header is open itself (`OpenHeader.Within`). Hence nothing is left on the list of what
was cut from the outermost one, whose table is always offered to the cache; only tables of headers
below it bypass the cache.

**Agreement.** Where the files stay as they are, a load without others gives what
`HeaderCache.load` gives (`Load.alone_eq_load`).
-/

namespace KilnLang

/-! ## The cache -/

/-- A table in memory. Each table that is built has a number of its own. -/
structure SharedTable where
  number : Nat
  table : HeaderTable
  deriving DecidableEq, Repr

/-- A cache of tables in memory, and how many tables have been built. -/
structure SharedCache where
  entries : List (Path.Key × SharedTable)
  built : Nat
  deriving DecidableEq, Repr

namespace SharedCache

/-- No tables. -/
def empty : SharedCache := ⟨[], 0⟩

/-- The table of a path. -/
def get? (c : SharedCache) (key : Path.Key) : Option SharedTable := c.entries.lookup key

/-- The next table that is built. -/
def next (c : SharedCache) (table : HeaderTable) : SharedTable := ⟨c.built, table⟩

/-- A table has been built. -/
def build (c : SharedCache) : SharedCache := { c with built := c.built + 1 }

/-- Keeps a table, unless the path has one. -/
def insert (c : SharedCache) (key : Path.Key) (t : SharedTable) : SharedCache :=
  match c.get? key with
  | some _ => c
  | none => { c with entries := (key, t) :: c.entries }

/-- The tables without their numbers. -/
def tables (c : SharedCache) : HeaderCache := ⟨c.entries.map fun (key, t) => (key, t.table)⟩

/-- Every path that has a table in `c` has the same one in `c'`. -/
def Keeps (c c' : SharedCache) : Prop :=
  ∀ key t, c.get? key = some t → c'.get? key = some t

/-- Each table of the cache has been built, and has another number than those of other paths. -/
structure Numbered (c : SharedCache) : Prop where
  old : ∀ key t, c.get? key = some t → t.number < c.built
  own : ∀ key key' t t', c.get? key = some t → c.get? key' = some t' → t.number = t'.number →
    key = key'

@[simp] theorem get?_empty (key : Path.Key) : empty.get? key = none := rfl

@[simp] theorem get?_build (c : SharedCache) (key : Path.Key) : c.build.get? key = c.get? key := rfl

@[simp] theorem tables_build (c : SharedCache) : c.build.tables = c.tables := rfl

theorem get?_insert (c : SharedCache) (key k : Path.Key) (t : SharedTable) :
    (c.insert key t).get? k = if k = key then some ((c.get? key).getD t) else c.get? k := by
  unfold insert
  cases h : c.get? key with
  | some t' =>
    by_cases hk : k = key
    · rw [if_pos hk, hk, h]
      rfl
    · rw [if_neg hk]
  | none =>
    by_cases hk : k = key
    · subst hk
      simp [get?]
    · have hne : (k == key) = false := by simpa using hk
      simp [get?, List.lookup_cons, hk, hne]

theorem get?_tables (c : SharedCache) (key : Path.Key) :
    c.tables.get? key = (c.get? key).map (·.table) := by
  unfold HeaderCache.get? tables get?
  induction c.entries with
  | nil => rfl
  | cons entry entries ih =>
    rw [List.map_cons, List.lookup_cons, List.lookup_cons]
    split
    · rfl
    · exact ih

theorem tables_insert (c : SharedCache) (key : Path.Key) (t : SharedTable) :
    (c.insert key t).tables = c.tables.insert key t.table := by
  unfold insert HeaderCache.insert
  rw [get?_tables]
  cases c.get? key <;> rfl

theorem keeps_insert (c : SharedCache) (key : Path.Key) (t : SharedTable) :
    c.Keeps (c.insert key t) := by
  intro k kept hk
  rw [get?_insert]
  by_cases heq : k = key
  · rw [if_pos heq, ← heq, hk]
    rfl
  · rwa [if_neg heq]

theorem Numbered.insert {c : SharedCache} (h : c.Numbered) (key : Path.Key) (table : HeaderTable) :
    (c.build.insert key (c.next table)).Numbered := by
  unfold SharedCache.insert
  rw [get?_build]
  cases hkey : c.get? key with
  | some t => exact ⟨fun k t hk => Nat.lt_succ_of_lt (h.old k t hk), h.own⟩
  | none =>
    have hget : ∀ k t, SharedCache.get? ⟨(key, c.next table) :: c.entries, c.built + 1⟩ k = some t →
        k = key ∧ t = c.next table ∨ c.get? k = some t := by
      intro k t hk
      rw [get?, List.lookup_cons] at hk
      split at hk
      · exact .inl ⟨eq_of_beq ‹_›, (Option.some.inj hk).symm⟩
      · exact .inr hk
    constructor
    · intro k t hk
      obtain ⟨-, rfl⟩ | hk := hget k t hk
      · exact Nat.lt_succ_self _
      · exact Nat.lt_succ_of_lt (h.old k t hk)
    · intro k k' t t' hk hk' hnumber
      obtain ⟨rfl, rfl⟩ | hold := hget k t hk <;> obtain ⟨rfl, rfl⟩ | hold' := hget k' t' hk'
      · rfl
      · exact absurd hnumber (Nat.ne_of_gt (h.old k' t' hold'))
      · exact absurd hnumber (Nat.ne_of_lt (h.old k t hold))
      · exact h.own k k' t t' hold hold' hnumber

end SharedCache

/-! ## Loads -/

/-- A header whose includes are being read: those that are left, and what the others have given. -/
structure OpenHeader where
  file : HeaderFile
  left : List String
  merged : Merge

namespace OpenHeader

/-- The path of the header. -/
def key (h : OpenHeader) : Path.Key := Path.key h.file.path

/-- The header at its first include. -/
def start (file : HeaderFile) : OpenHeader :=
  ⟨file, (Header.directives file.contents).includes, .empty⟩

/-- What has been cut, without the header itself. -/
def cut (h : OpenHeader) : List Path.Key := h.merged.cut.filter (· != h.key)

/-- What has been cut from each of the headers is that header or one further out. -/
def Within : List OpenHeader → Prop
  | [] => True
  | h :: above => h.merged.cut ⊆ (h :: above).map key ∧ Within above

end OpenHeader

/-- A load: it has begun with a name, it is about to look a header up in the cache, it reads the
includes of a header, it has ended, or no file was found. `root` is the path of the file that the
name led to, and `above` are the open headers further out. -/
inductive Load where
  | begun (name : String)
  | looking (root : Path.Key) (file : HeaderFile) (above : List OpenHeader)
  | reading (root : Path.Key) (top : OpenHeader) (above : List OpenHeader)
  | ended (root : Path.Key) (result : SharedTable)
  | missing

namespace Load

/-- The path that the name led to and the table, once the load has ended. -/
def result? : Load → Option (Path.Key × SharedTable)
  | .ended root result => some (root, result)
  | _ => none

/-- What the load gives, once it is over. -/
def outcome? : Load → Option (Option HeaderTable)
  | .ended _ result => some (some result.table)
  | .missing => some none
  | _ => none

/-- A header was loaded, and the one that includes it goes on. -/
def give (root : Path.Key) (t : SharedTable) (cut : List Path.Key) : List OpenHeader → Load
  | [] => .ended root t
  | top :: above => .reading root { top with merged := top.merged.addTable ⟨t.table, cut⟩ } above

/-- Goes to the file that an include names, unless there is none or it is open. -/
def enter (files : String → Option HeaderFile) (root : Path.Key) (name : String)
    (top : OpenHeader) (above : List OpenHeader) : Load :=
  match files name with
  | none => .reading root top above
  | some inner =>
    if ((top :: above).map (·.key)).contains (Path.key inner.path) then
      .reading root { top with merged := top.merged.addCut (Path.key inner.path) } above
    else .looking root inner (top :: above)

/-- Builds the table of a header whose includes are read, and offers it to the cache if nothing was
cut but the header itself. -/
def close (c : SharedCache) (root : Path.Key) (top : OpenHeader) (above : List OpenHeader) :
    Load × SharedCache :=
  let t := c.next (top.merged.table top.file)
  if top.cut.isEmpty then
    (give root ((c.get? top.key).getD t) [] above, c.build.insert top.key t)
  else (give root t top.cut above, c.build)

/-- Takes the next step. -/
def step (files : String → Option HeaderFile) (c : SharedCache) : Load → Load × SharedCache
  | .begun name =>
    match files name with
    | none => (.missing, c)
    | some file => (.looking (Path.key file.path) file [], c)
  | .looking root file above =>
    match c.get? (Path.key file.path) with
    | some t => (give root t [] above, c)
    | none => (.reading root (.start file) above, c)
  | .reading root ⟨file, name :: left, m⟩ above => (enter files root name ⟨file, left, m⟩ above, c)
  | .reading root ⟨file, [], m⟩ above => close c root ⟨file, [], m⟩ above
  | .ended root result => (.ended root result, c)
  | .missing => (.missing, c)

/-- What holds of a load over a cache: the outermost open header is the one that the name led to,
what was cut is open, and a load that has ended has the table of the cache. -/
def Holds (c : SharedCache) : Load → Prop
  | .begun _ | .missing => True
  | .looking root file above =>
    (Path.key file.path :: above.map (·.key)).getLast? = some root ∧ OpenHeader.Within above
  | .reading root top above =>
    ((top :: above).map (·.key)).getLast? = some root ∧ OpenHeader.Within (top :: above)
  | .ended root result => c.get? root = some result

variable {files : String → Option HeaderFile} {c c' : SharedCache} {root : Path.Key}
  {above : List OpenHeader}

theorem close_of_complete {top : OpenHeader} (h : top.cut.isEmpty) :
    close c root top above =
      (give root ((c.get? top.key).getD (c.next (top.merged.table top.file))) [] above,
        c.build.insert top.key (c.next (top.merged.table top.file))) :=
  if_pos h

theorem close_of_partial {top : OpenHeader} (h : ¬ top.cut.isEmpty) :
    close c root top above =
      (give root (c.next (top.merged.table top.file)) top.cut above, c.build) :=
  if_neg h

theorem Holds.mono {load : Load} (h : load.Holds c) (hkeeps : c.Keeps c') : load.Holds c' := by
  cases load with
  | ended root result => exact hkeeps root result h
  | _ => exact h

/-- A load goes on with a table that misses only open headers. If it misses nothing, the cache has
it. -/
theorem holds_give {key : Path.Key} {t : SharedTable} {cut : List Path.Key}
    (hroot : (key :: above.map (·.key)).getLast? = some root) (hwithin : OpenHeader.Within above)
    (hcut : cut ⊆ above.map (·.key)) (hcached : cut = [] → c.get? key = some t) :
    (give root t cut above).Holds c := by
  cases above with
  | nil =>
    obtain rfl : key = root := Option.some.inj hroot
    exact hcached (List.subset_nil.mp hcut)
  | cons top above =>
    rw [List.map_cons, List.getLast?_cons_cons] at hroot
    exact ⟨hroot, List.append_subset.mpr ⟨hwithin.1, hcut⟩, hwithin.2⟩

theorem holds_enter {name : String} {top : OpenHeader} (h : (Load.reading root top above).Holds c) :
    (enter files root name top above).Holds c := by
  obtain ⟨hroot, hcut, hwithin⟩ := h
  unfold enter
  cases files name with
  | none => exact ⟨hroot, hcut, hwithin⟩
  | some inner =>
    dsimp only
    by_cases hopen : ((top :: above).map (·.key)).contains (Path.key inner.path)
    · rw [if_pos hopen]
      have hmem := List.contains_iff_mem.mp hopen
      refine ⟨hroot, List.append_subset.mpr ⟨hcut, ?_⟩, hwithin⟩
      exact List.cons_subset.mpr ⟨hmem, List.nil_subset _⟩
    · rw [if_neg hopen]
      refine ⟨?_, hcut, hwithin⟩
      rwa [List.map_cons, List.getLast?_cons_cons]

theorem holds_close {top : OpenHeader} (h : (Load.reading root top above).Holds c) :
    (close c root top above).1.Holds (close c root top above).2 := by
  obtain ⟨hroot, hwithin, habove⟩ := h
  have hcut : top.cut ⊆ above.map (·.key) := by
    intro key hkey
    obtain ⟨hkey, hne⟩ := List.mem_filter.mp hkey
    exact (List.mem_cons.mp (hwithin hkey)).resolve_left (bne_iff_ne.mp hne)
  by_cases hempty : top.cut.isEmpty
  · rw [close_of_complete hempty]
    refine holds_give hroot habove (List.nil_subset _) fun _ => ?_
    rw [SharedCache.get?_insert, if_pos rfl, SharedCache.get?_build]
  · rw [close_of_partial hempty]
    refine holds_give hroot habove hcut fun hnil => ?_
    exact absurd (List.isEmpty_iff.mpr hnil) hempty

/-- A step keeps what holds of the load. -/
theorem holds_step {load : Load} (h : load.Holds c) :
    (load.step files c).1.Holds (load.step files c).2 := by
  unfold step
  split
  · cases files _ with
    | none => trivial
    | some file => exact ⟨rfl, trivial⟩
  · rename_i root file above
    obtain ⟨hroot, hwithin⟩ := h
    cases hfound : c.get? (Path.key file.path) with
    | some t => exact holds_give hroot hwithin (List.nil_subset _) fun _ => hfound
    | none => exact ⟨hroot, List.nil_subset _, hwithin⟩
  · exact holds_enter h
  · exact holds_close h
  · exact h
  · exact h

/-- A step leaves the cache as it is, or builds a table and perhaps offers it. -/
theorem step_cache (files : String → Option HeaderFile) (c : SharedCache) (load : Load) :
    (load.step files c).2 = c ∨ (load.step files c).2 = c.build ∨
      ∃ key table, (load.step files c).2 = c.build.insert key (c.next table) := by
  unfold step
  split
  · cases files _ <;> exact .inl rfl
  · cases c.get? _ <;> exact .inl rfl
  · exact .inl rfl
  · refine .inr ?_
    unfold close
    dsimp only
    split_ifs
    · exact .inr ⟨_, _, rfl⟩
    · exact .inl rfl
  · exact .inl rfl
  · exact .inl rfl

theorem keeps_step (files : String → Option HeaderFile) (c : SharedCache) (load : Load) :
    c.Keeps (load.step files c).2 := by
  obtain h | h | ⟨key, table, h⟩ := step_cache files c load
  · rw [h]
    exact fun _ _ hk => hk
  · rw [h]
    exact fun _ _ hk => hk
  · rw [h]
    exact c.build.keeps_insert key (c.next table)

theorem numbered_step (h : c.Numbered) (load : Load) : (load.step files c).2.Numbered := by
  obtain heq | heq | ⟨key, table, heq⟩ := step_cache files c load
  · rwa [heq]
  · rw [heq]
    exact ⟨fun k t hk => Nat.lt_succ_of_lt (h.old k t hk), h.own⟩
  · rw [heq]
    exact h.insert key table

end Load

/-! ## A load without others -/

namespace Load

open Header Caching

/-- The load takes its steps in a row, and the files stay as they are. -/
def Alone (files : String → Option HeaderFile) : Load × SharedCache → Load × SharedCache → Prop :=
  Relation.ReflTransGen fun s t => t = s.1.step files s.2

variable {l : Locator} {keys : List Path.Key} {f : HeaderFile} {depth : Nat} {root : Path.Key}
  {above : List OpenHeader} {c : SharedCache}

/-- A load that is about to look up `f` comes to the header that includes it with what `loadFile`
gives. -/
def LooksUp (l : Locator) (depth : Nat) (root : Path.Key) (f : HeaderFile)
    (above : List OpenHeader) (c : SharedCache) : Prop :=
  ∃ t cut c', Alone l.locate (.looking root f above, c) (give root t cut above, c') ∧
    (loadFile l depth (above.map (·.key)) f).run c.tables = (⟨t.table, cut⟩, c'.tables)

/-- The includes of an open header are read like those of `loadFile`. -/
theorem alone_includes (h : Pending l keys (above.map (·.key)) f (depth + 1))
    (hlook : ∀ g above' c', Pending l keys (above'.map (·.key)) g depth →
      LooksUp l depth root g above' c')
    {names : List String} (hnames : names ⊆ (directives f.contents).includes) (m : Merge) :
    ∃ m' c', Alone l.locate (.reading root ⟨f, names, m⟩ above, c)
        (.reading root ⟨f, [], m'⟩ above, c') ∧
      (names.foldlM (Merge.addInclude l
          (loadFile l depth (Path.key f.path :: above.map (·.key)))
          (Path.key f.path :: above.map (·.key))) m).run c.tables = (m', c'.tables) := by
  induction names generalizing m c with
  | nil => exact ⟨m, c, .refl, rfl⟩
  | cons name names ih =>
    obtain ⟨hname, hrest⟩ := List.cons_subset.mp hnames
    -- The first include is done when the load is back at the header, with `m₁` and `c₁`.
    have hfirst : ∃ m₁ c₁, Alone l.locate (.reading root ⟨f, name :: names, m⟩ above, c)
          (.reading root ⟨f, names, m₁⟩ above, c₁) ∧
        (Merge.addInclude l (loadFile l depth (Path.key f.path :: above.map (·.key)))
          (Path.key f.path :: above.map (·.key)) m name).run c.tables = (m₁, c₁.tables) := by
      have hstep : (Load.reading root ⟨f, name :: names, m⟩ above).step l.locate c =
          (enter l.locate root name ⟨f, names, m⟩ above, c) := rfl
      unfold Merge.addInclude
      unfold enter at hstep
      cases hlocate : l.locate name with
      | none =>
        rw [hlocate] at hstep
        exact ⟨m, c, .single hstep.symm, rfl⟩
      | some g =>
        rw [hlocate] at hstep
        dsimp only at hstep ⊢
        by_cases hopen : (Path.key f.path :: above.map (·.key)).contains (Path.key g.path)
        · rw [if_pos hopen]
          rw [if_pos (show (List.map _ _).contains _ = true from hopen)] at hstep
          exact ⟨m.addCut (Path.key g.path), c, .single hstep.symm, rfl⟩
        · rw [if_neg hopen]
          rw [if_neg (show ¬ (List.map _ _).contains _ = true from hopen)] at hstep
          have hpending := h.child ⟨name, hname, hlocate⟩ fun hmem =>
            hopen (List.contains_iff_mem.mpr hmem)
          obtain ⟨t, cut, c₁, halone, hrun⟩ := hlook g (⟨f, names, m⟩ :: above) c hpending
          refine ⟨m.addTable ⟨t.table, cut⟩, c₁, .head hstep.symm halone, ?_⟩
          rw [List.map_cons, show OpenHeader.key ⟨f, names, m⟩ = Path.key f.path from rfl] at hrun
          rw [run_bind, hrun]
          rfl
    obtain ⟨m₁, c₁, halone₁, hrun₁⟩ := hfirst
    obtain ⟨m', c', halone, hrun⟩ := ih (c := c₁) hrest m₁
    refine ⟨m', c', halone₁.trans halone, ?_⟩
    rw [List.foldlM_cons, run_bind, hrun₁]
    exact hrun

theorem alone_looksUp (h : Pending l keys (above.map (·.key)) f depth) :
    LooksUp l depth root f above c := by
  induction depth generalizing f above c with
  | zero => exact absurd rfl h.depth_ne_zero
  | succ depth ih =>
    have hstep : (Load.looking root f above).step l.locate c =
        match c.get? (Path.key f.path) with
        | some t => (give root t [] above, c)
        | none => (.reading root (.start f) above, c) := rfl
    unfold LooksUp
    rw [loadFile, run, SharedCache.get?_tables]
    cases hfound : c.get? (Path.key f.path) with
    | some t =>
      rw [hfound] at hstep
      exact ⟨t, [], c, .single hstep.symm, rfl⟩
    | none =>
      rw [hfound] at hstep
      obtain ⟨m, c₁, halone, hrun⟩ := alone_includes (c := c) h
        (fun g above' c' hg => ih hg) (List.Subset.refl _) .empty
      have hclose : (Load.reading root ⟨f, [], m⟩ above).step l.locate c₁ =
          close c₁ root ⟨f, [], m⟩ above := rfl
      have hbefore : Alone l.locate (.looking root f above, c)
          (.reading root ⟨f, [], m⟩ above, c₁) := .head hstep.symm halone
      simp only [Option.map_none, run_bind, hrun]
      -- Only a header without cut includes goes into the cache, unless it got there meanwhile.
      by_cases hcut : (OpenHeader.cut ⟨f, [], m⟩).isEmpty
      · rw [close_of_complete hcut] at hclose
        rw [if_pos (show (m.cut.filter (· != Path.key f.path)).isEmpty = true from hcut)]
        refine ⟨_, _, _, hbefore.tail hclose.symm, ?_⟩
        rw [run, SharedCache.get?_tables, SharedCache.tables_insert]
        cases hlate : c₁.get? (Path.key f.path) <;>
          simp [hlate, OpenHeader.key, run, SharedCache.next]
      · rw [close_of_partial hcut] at hclose
        rw [if_neg (show ¬ (m.cut.filter (· != Path.key f.path)).isEmpty = true from hcut)]
        exact ⟨_, _, _, hbefore.tail hclose.symm, rfl⟩

/-- **Agreement.** A load without others, over files that stay as they are, ends and gives what
`HeaderCache.load` gives, and leaves the same tables in the cache. -/
theorem alone_eq_load (l : Locator) (name : String) (c : SharedCache) :
    ∃ load c', Alone l.locate (.begun name, c) (load, c') ∧
      load.outcome? = some (c.tables.load l name).1 ∧ c'.tables = (c.tables.load l name).2 := by
  have hstep : (Load.begun name).step l.locate c =
      match l.locate name with
      | none => (.missing, c)
      | some file => (.looking (Path.key file.path) file [], c) := rfl
  unfold HeaderCache.load Header.load
  cases hlocate : l.locate name with
  | none =>
    rw [hlocate] at hstep
    exact ⟨.missing, c, .single hstep.symm, rfl, rfl⟩
  | some f =>
    rw [hlocate] at hstep
    have hlook : LooksUp l (l.nestingBound + 1) (Path.key f.path) f [] c :=
      alone_looksUp (Pending.root ⟨name, hlocate⟩)
    obtain ⟨t, cut, c', halone, hrun⟩ := hlook
    refine ⟨.ended (Path.key f.path) t, c', .head hstep.symm halone, ?_⟩
    rw [List.map_nil] at hrun
    simp only [run_bind, hrun]
    exact ⟨rfl, rfl⟩

end Load

/-! ## Interleavings -/

/-- Loads that share a cache, and the files at present. -/
structure SharedLoads where
  files : String → Option HeaderFile
  cache : SharedCache
  loads : List Load

namespace SharedLoads

/-- No loads yet. -/
def start (files : String → Option HeaderFile) : SharedLoads := ⟨files, .empty, []⟩

/-- A load begins. -/
def begin (s : SharedLoads) (name : String) : SharedLoads :=
  { s with loads := s.loads ++ [.begun name] }

/-- The files change. -/
def change (s : SharedLoads) (files : String → Option HeaderFile) : SharedLoads := { s with files }

/-- One of the loads takes its next step. -/
def turn (s : SharedLoads) (i : Nat) : SharedLoads :=
  match s.loads[i]? with
  | none => s
  | some load =>
    { s with
      cache := (load.step s.files s.cache).2
      loads := s.loads.set i (load.step s.files s.cache).1 }

/-- What can happen next. -/
inductive Step (s : SharedLoads) : SharedLoads → Prop
  | begin (name : String) : Step s (s.begin name)
  | change (files : String → Option HeaderFile) : Step s (s.change files)
  | turn (i : Nat) : Step s (s.turn i)

/-- What can happen. -/
def Steps : SharedLoads → SharedLoads → Prop := Relation.ReflTransGen Step

/-- What can happen from the start. -/
def Reachable (s : SharedLoads) : Prop := ∃ files, Steps (start files) s

/-- The first table that the cache was given for the path on the way to `t` is `kept`. -/
def FirstKept (t : SharedLoads) (key : Path.Key) (kept : SharedTable) : Prop :=
  ∃ u v, Reachable u ∧ Step u v ∧ Steps v t ∧
    u.cache.get? key = none ∧ v.cache.get? key = some kept

/-- What holds of all loads over the shared cache. -/
structure Holds (s : SharedLoads) : Prop where
  loads : ∀ load ∈ s.loads, load.Holds s.cache
  numbered : s.cache.Numbered

variable {s t : SharedLoads}

theorem Step.keeps (h : Step s t) : s.cache.Keeps t.cache := by
  cases h with
  | begin name => exact fun _ _ hk => hk
  | change files => exact fun _ _ hk => hk
  | turn i =>
    unfold SharedLoads.turn
    cases s.loads[i]? with
    | none => exact fun _ _ hk => hk
    | some load => exact load.keeps_step s.files s.cache

theorem Steps.keeps (h : Steps s t) : s.cache.Keeps t.cache := by
  induction h with
  | refl => exact fun _ _ hk => hk
  | tail _ hstep ih => exact fun key kept hk => hstep.keeps key kept (ih key kept hk)

theorem Holds.step (h : s.Holds) (hstep : Step s t) : t.Holds := by
  cases hstep with
  | begin name =>
    refine ⟨?_, h.numbered⟩
    intro load hload
    rcases List.mem_append.mp hload with hload | hload
    · exact h.loads load hload
    · rw [List.mem_singleton.mp hload]
      trivial
  | change files => exact ⟨h.loads, h.numbered⟩
  | turn i =>
    unfold SharedLoads.turn
    cases hi : s.loads[i]? with
    | none => exact h
    | some load =>
      refine ⟨?_, Load.numbered_step h.numbered load⟩
      intro other hother
      rcases List.mem_or_eq_of_mem_set hother with hother | rfl
      · exact (h.loads other hother).mono (load.keeps_step s.files s.cache)
      · exact Load.holds_step (h.loads load (List.mem_of_getElem? hi))

theorem Reachable.holds (h : s.Reachable) : s.Holds := by
  obtain ⟨files, h⟩ := h
  induction h with
  | refl =>
    refine ⟨List.forall_mem_nil _, ?_, ?_⟩
    · intro key t hkey
      cases hkey
    · intro key key' t t' hkey
      cases hkey
  | tail _ hstep ih => exact ih.step hstep

theorem Reachable.steps (h : s.Reachable) (hst : Steps s t) : t.Reachable := by
  obtain ⟨files, h⟩ := h
  exact ⟨files, h.trans hst⟩

/-- Any loads take their turns in any order. -/
theorem steps_turns (s : SharedLoads) (order : List Nat) : Steps s (order.foldl turn s) := by
  induction order generalizing s with
  | nil => exact .refl
  | cons i order ih => exact .head (.turn i) (ih (s.turn i))

/-- Every table of the cache came into it first for its path. -/
theorem Reachable.firstKept (h : t.Reachable) {key : Path.Key} {kept : SharedTable}
    (hkept : t.cache.get? key = some kept) : t.FirstKept key kept := by
  obtain ⟨files, h⟩ := h
  induction h with
  | refl => cases hkept
  | @tail u v hu hstep ih =>
    cases hold : u.cache.get? key with
    | none => exact ⟨u, v, ⟨files, hu⟩, hstep, .refl, hold, hkept⟩
    | some old =>
      obtain rfl : old = kept := Option.some.inj ((hstep.keeps key old hold).symm.trans hkept)
      obtain ⟨u', v', hu', hstep', hsteps, hnone, hsome⟩ := ih hold
      exact ⟨u', v', hu', hstep', hsteps.tail hstep, hnone, hsome⟩

end SharedLoads

/-- **Cached tables are final.** However loads of one cache are interleaved, and whatever happens to
the files in between: a path that has a table keeps the very same one; a load that has ended has the
table of the path that its name led to, which is the first that the cache was given for this path;
and the tables of different paths are different ones. -/
theorem cached_tables_are_final {s t : SharedLoads} (hs : s.Reachable) (hst : SharedLoads.Steps s t) :
    (∀ key kept, s.cache.get? key = some kept → t.cache.get? key = some kept) ∧
    (∀ load ∈ t.loads, ∀ root result, load.result? = some (root, result) →
      t.cache.get? root = some result ∧ t.FirstKept root result) ∧
    (∀ load ∈ t.loads, ∀ load' ∈ t.loads, ∀ root result result',
      load.result? = some (root, result) → load'.result? = some (root, result') →
      result = result') ∧
    ∀ key key' kept kept', t.cache.get? key = some kept → t.cache.get? key' = some kept' →
      kept.number = kept'.number → key = key' := by
  have ht := hs.steps hst
  have hended : ∀ load ∈ t.loads, ∀ root result, load.result? = some (root, result) →
      t.cache.get? root = some result := by
    intro load hload root result hresult
    have hholds := ht.holds.loads load hload
    cases load with
    | ended root' result' =>
      cases hresult
      exact hholds
    | _ => cases hresult
  refine ⟨hst.keeps, ?_, ?_, ht.holds.numbered.own⟩
  · intro load hload root result hresult
    have hkept := hended load hload root result hresult
    exact ⟨hkept, ht.firstKept hkept⟩
  · intro load hload load' hload' root result result' hresult hresult'
    have hkept := hended load hload root result hresult
    -- Two loads of one root end with what the cache keeps for it, and the cache keeps one table.
    have hkept' := hended load' hload' root result' hresult'
    exact Option.some.inj (hkept.symm.trans hkept')

/-- A header that includes another one, which has the given text. -/
def nestedFiles (inner : String) : String → Option HeaderFile
  | "a.h" => some ⟨"a.h", "#include \"b.h\"\n#define A 1\n"⟩
  | "b.h" => some ⟨"b.h", inner⟩
  | _ => none

/-- Two loads of a header have both missed it in the cache, and the first one has kept a table of
the inner header. -/
def racingLoads : SharedLoads :=
  [0, 1, 0, 1, 0, 0, 0].foldl SharedLoads.turn
    (((SharedLoads.start (nestedFiles "#define B 1\n")).begin "a.h").begin "a.h")

/-- Then the inner header changes. The second load finds the table of the inner header and keeps its
own table of the outer one, so that the first load builds one in vain. -/
def racedLoads : SharedLoads :=
  [1, 1, 1, 0].foldl SharedLoads.turn (racingLoads.change (nestedFiles "#define B \"s\"\n"))

/-- Both loads end with the table that the second one built, which has the inner header as it was
before it changed. -/
theorem racing_loads_share_one_table :
    racingLoads.Reachable ∧ SharedLoads.Steps racingLoads racedLoads ∧
    racedLoads.cache.built = 3 ∧ ∃ kept : SharedTable,
      kept.number = 1 ∧ kept.table.get? "B" = some (.constant "B" .int) ∧
      racedLoads.loads.map Load.result? =
        [some (Path.key "a.h", kept), some (Path.key "a.h", kept)] ∧
      racedLoads.FirstKept (Path.key "a.h") kept := by
  have hreach : racingLoads.Reachable :=
    ⟨_, .head (.begin "a.h") (.head (.begin "a.h") (SharedLoads.steps_turns _ _))⟩
  have hsteps : SharedLoads.Steps racingLoads racedLoads :=
    .head (.change _) (SharedLoads.steps_turns _ _)
  let kept : SharedTable := ⟨1, ⟨"a.h", [.constant "B" .int, .constant "A" .int], []⟩⟩
  have hresults : racedLoads.loads.map Load.result? =
      [some (Path.key "a.h", kept), some (Path.key "a.h", kept)] := by decide +kernel
  have hbuilt : racedLoads.cache.built = 3 := by decide +kernel
  refine ⟨hreach, hsteps, hbuilt, kept, rfl, by decide +kernel, hresults, ?_⟩
  have hmem : some (Path.key "a.h", kept) ∈ racedLoads.loads.map Load.result? := by
    rw [hresults]
    exact List.mem_cons_self
  obtain ⟨load, hload, hresult⟩ := List.mem_map.mp hmem
  exact ((cached_tables_are_final hreach hsteps).2.1 load hload _ _ hresult).2

end KilnLang
