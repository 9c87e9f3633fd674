import KilnLang.FileSystem
import KilnLang.Proofs.Text.Cutting

/-!
# Growing file systems

Making directories and writing files only adds to a file system, but for the files that are written
over: the file system **grows** (`FileSystem.Grows`). Directories stay directories, so a path that
has a location keeps it, and a file stays what it is until a file is written at its location.

**Names in directories.** The path of a name in a directory leads to that name below the location of
the directory (`FileSystem.locate_join`), and giving the name an extension only changes the name
(`Path.withExtension_join`).
-/

namespace KilnLang

/-! ## Names in directories -/

namespace Path

/-- The name is a segment of its own that leads to an entry of a directory. -/
structure IsName (name : String) : Prop where
  no_slash : '/' ∉ name.toList
  not_idle : isIdle name = false
  not_up : name ≠ ".."

theorem isAbsolute_eq_false {name : String} (h : '/' ∉ name.toList) : isAbsolute name = false := by
  rw [isAbsolute, beq_eq_false_iff_ne]
  intro hfirst
  exact h (List.mem_of_mem_head? hfirst)

/-- Joining puts a slash between a directory and a name, if there is none. -/
theorem exists_join {dir : String} (hdir : dir ≠ "") :
    ∃ front, (dir.toList = front ∨ dir.toList = front ++ ['/']) ∧
      ∀ name : String, '/' ∉ name.toList →
        (join dir name).toList = front ++ '/' :: name.toList := by
  by_cases hlast : (dir.toList.getLast? == some '/') = true
  · obtain ⟨front, hfront⟩ := List.getLast?_eq_some_iff.mp (beq_iff_eq.mp hlast)
    refine ⟨front, .inr hfront, fun name hname => ?_⟩
    rw [join, isAbsolute_eq_false hname, Bool.false_or, if_neg (by simpa using hdir), if_pos hlast,
      String.toList_append, hfront, List.append_assoc]
    rfl
  · refine ⟨dir.toList, .inl rfl, fun name hname => ?_⟩
    rw [join, isAbsolute_eq_false hname, Bool.false_or, if_neg (by simpa using hdir), if_neg hlast]
    simp

/-- The segments of a text, whether or not it starts at the root. -/
def cut (cs : List Char) : List String := (Text.splitAt '/' cs).map String.ofList

theorem cut_ne_nil (cs : List Char) : cut cs ≠ [] := by
  simp [cut, Text.splitAt_ne_nil]

theorem cut_append (front name : List Char) (h : '/' ∉ name) :
    cut (front ++ '/' :: name) = cut front ++ [String.ofList name] := by
  rw [cut, Text.splitAt_append_append, List.map_append, Text.splitAt_of_not_mem h]
  rfl

theorem toList_intercalate_cut (cs : List Char) : ("/".intercalate (cut cs)).toList = cs := by
  obtain hslash | ⟨part, more, hpart, hcs⟩ := Text.splitAt_cases '/' cs
  · rw [cut, Text.splitAt_of_not_mem hslash, List.map_singleton, String.intercalate_singleton,
      String.toList_ofList]
  · have hmore := toList_intercalate_cut more
    obtain ⟨first, rest, hfirst⟩ := List.exists_cons_of_ne_nil (cut_ne_nil more)
    have hcut : cut cs = String.ofList part :: cut more := by
      rw [hcs, cut, Text.splitAt_append hpart]
      rfl
    rw [hcut, hfirst, String.intercalate_cons_cons, ← hfirst, String.toList_append,
      String.toList_append, hmore, String.toList_ofList, hcs, List.append_assoc]
    rfl
termination_by cs.length
decreasing_by
  rw [hcs, List.length_append, List.length_cons]
  omega

/-- The segments of a path that starts at the root come after an empty one. -/
theorem cut_eq_cons {cs : List Char} (h : cs.head? = some '/') : ∃ more, cut cs = "" :: more := by
  obtain ⟨cs, rfl⟩ := List.head?_eq_some_iff.mp h
  exact ⟨cut cs, by rw [cut, Text.splitAt, if_pos rfl]; rfl⟩

theorem segments_eq (path : String) :
    segments path = if isAbsolute path then (cut path.toList).tail else cut path.toList := rfl

theorem segments_ne_nil (path : String) : segments path ≠ [] := by
  rw [segments_eq]
  split
  · rename_i habsolute
    obtain ⟨cs, hcs⟩ := List.head?_eq_some_iff.mp (beq_iff_eq.mp habsolute)
    have hcut : cut ('/' :: cs) = "" :: cut cs := by
      rw [cut, Text.splitAt, if_pos rfl]
      rfl
    rw [hcs, hcut]
    exact cut_ne_nil cs
  · exact cut_ne_nil _

theorem ofSegments_segments (path : String) :
    ofSegments (isAbsolute path) (segments path) = path := by
  have h := segments_ne_nil path
  rw [← String.toList_inj, ofSegments, segments_eq]
  by_cases habsolute : isAbsolute path = true
  · obtain ⟨more, hmore⟩ := cut_eq_cons (beq_iff_eq.mp habsolute)
    rw [segments_eq, if_pos habsolute, hmore] at h
    obtain ⟨next, rest, rfl⟩ := List.exists_cons_of_ne_nil h
    have htext := toList_intercalate_cut path.toList
    rw [hmore, String.intercalate_cons_cons] at htext
    rw [if_pos habsolute, if_pos habsolute, hmore]
    simpa using htext
  · rw [if_neg habsolute, if_neg habsolute, String.toList_append, toList_intercalate_cut]
    rfl

/-- The path of a name in a directory has the segments of the directory and then the name. -/
theorem exists_segments_join {dir : String} (hdir : dir ≠ "") :
    ∃ above, (segments dir = above ∨ segments dir = above ++ [""]) ∧
      ∀ name : String, '/' ∉ name.toList →
        segments (join dir name) = above ++ [name] ∧
          isAbsolute (join dir name) = isAbsolute dir := by
  obtain ⟨front, hfront, hjoin⟩ := exists_join hdir
  have habsolute : ∀ name : String, '/' ∉ name.toList →
      isAbsolute (join dir name) = isAbsolute dir := by
    intro name hname
    rw [isAbsolute, isAbsolute, hjoin name hname]
    cases front with
    | cons c front => rcases hfront with h | h <;> rw [h] <;> rfl
    | nil =>
      rcases hfront with h | h
      · exact absurd (String.toList_eq_nil_iff.mp h) hdir
      · rw [h]
        rfl
  refine ⟨if isAbsolute dir then (cut front).tail else cut front, ?_, fun name hname =>
    ⟨?_, habsolute name hname⟩⟩
  · rcases hfront with h | h
    · exact .inl (by rw [segments_eq, h])
    · refine .inr ?_
      rw [segments_eq, h, cut_append front [] List.not_mem_nil]
      split
      · rw [List.tail_append_of_ne_nil (cut_ne_nil front)]
      · rfl
  · rw [segments_eq, habsolute name hname, hjoin name hname, cut_append front _ hname,
      String.ofList_toList]
    split
    · rw [List.tail_append_of_ne_nil (cut_ne_nil front)]
    · rfl

theorem fileName_of_segments {path name : String} {above : List String}
    (h : segments path = above ++ [name]) (hidle : isIdle name = false) (hup : name ≠ "..") :
    fileName? path = some name := by
  have hpoint : name ≠ "." := by
    rintro rfl
    exact absurd hidle (by decide)
  have hlast : (parts path).getLast? = some name := by
    rw [parts, h]
    cases above with
    | nil => simp [hidle]
    | cons first above =>
      simp only [List.cons_append, List.filter_append, List.filter_cons, hidle, Bool.not_false,
        if_true, List.filter_nil]
      split
      · rw [List.getLast?_concat]
      · rw [← List.cons_append, List.getLast?_concat]
  rw [fileName?, hlast]
  simp [hpoint, hup]

/-- A name without an extension is its own stem. -/
theorem splitExtension_of_none {name : String} (h : (splitExtension name).2 = none) :
    (splitExtension name).1 = name := by
  rw [splitExtension] at h ⊢
  split at h
  · rename_i hstem
    rw [if_pos hstem]
  · have hpieces : (Text.splitAt '.' name.toList).map String.ofList ≠ [] := by
      simp [Text.splitAt_ne_nil]
    exact absurd (List.getLast?_eq_none_iff.mp h) hpieces

theorem trimIdle_of_name (absolute : Bool) {above : List String} {name : String}
    (h : isIdle name = false) : trimIdle absolute (above ++ [name]) = above ++ [name] := by
  cases above with
  | nil => simp [trimIdle, h]
  | cons first above => simp [trimIdle, h]

/-- A file name is a segment that is not empty. -/
theorem mem_segments_of_fileName {path name : String} (h : fileName? path = some name) :
    name ∈ segments path ∧ name ≠ "" := by
  have hparts : name ∈ parts path := by
    rw [fileName?] at h
    split at h
    · rename_i last hlast
      split at h
      · cases h
      · cases h
        exact List.mem_of_getLast? hlast
    · cases h
  rw [parts] at hparts
  split at hparts
  · cases hparts
  · rename_i first more hsegments
    rw [hsegments]
    have hmore : name ∈ more.filter (!isIdle ·) → name ∈ first :: more ∧ name ≠ "" := by
      intro hmem
      obtain ⟨hmem, hidle⟩ := List.mem_filter.mp hmem
      refine ⟨List.mem_cons_of_mem _ hmem, ?_⟩
      rintro rfl
      exact absurd hidle (by decide)
    dsimp only at hparts
    split at hparts
    · exact hmore hparts
    · rename_i hfirst
      rcases List.mem_cons.mp hparts with rfl | hmem
      · refine ⟨List.mem_cons_self, ?_⟩
        rintro rfl
        exact hfirst (by simp [isIdle])
      · exact hmore hmem

theorem no_slash_of_mem_segments {path name : String} (h : name ∈ segments path) :
    '/' ∉ name.toList := by
  have hcut : name ∈ cut path.toList := by
    rw [segments_eq] at h
    split at h
    · exact List.mem_of_mem_tail h
    · exact h
  obtain ⟨piece, hpiece, rfl⟩ := List.mem_map.mp hcut
  rw [String.toList_ofList]
  exact Text.not_mem_piece hpiece

/-- A character of joined texts is the one between them or in one of them. -/
theorem mem_intercalate_point {c : Char} {texts : List String}
    (h : c ∈ (".".intercalate texts).toList) : c = '.' ∨ ∃ text ∈ texts, c ∈ text.toList := by
  induction texts with
  | nil => exact absurd h (by simp)
  | cons text texts ih =>
    cases texts with
    | nil =>
      rw [String.intercalate_singleton] at h
      exact .inr ⟨text, List.mem_cons_self, h⟩
    | cons next texts =>
      rw [String.intercalate_cons_cons, String.toList_append, String.toList_append,
        List.mem_append, List.mem_append] at h
      rcases h with (h | h) | h
      · exact .inr ⟨text, List.mem_cons_self, h⟩
      · exact .inl (List.mem_singleton.mp h)
      · rcases ih h with h | ⟨other, hother, hc⟩
        · exact .inl h
        · exact .inr ⟨other, List.mem_cons_of_mem _ hother, hc⟩

theorem splitExtension_stem {name : String} (hname : name ≠ "") :
    (splitExtension name).1 ≠ "" ∧
      ∀ c ∈ (splitExtension name).1.toList, c = '.' ∨ c ∈ name.toList := by
  rw [splitExtension]
  split
  · exact ⟨hname, fun c hc => .inr hc⟩
  · rename_i hstem
    refine ⟨by simpa using hstem, fun c hc => ?_⟩
    rcases mem_intercalate_point hc with h | ⟨text, htext, hc⟩
    · exact .inl h
    · obtain ⟨piece, hpiece, rfl⟩ := List.mem_map.mp (List.dropLast_subset _ htext)
      exact .inr (Text.mem_of_mem_piece hpiece (by simpa using hc))

/-- A stem is a name, unless it leads to the directory or to the one above. -/
theorem isName_of_stem {path stem : String} (h : stem? path = some stem) (hhere : stem ≠ ".")
    (hup : stem ≠ "..") : IsName stem := by
  obtain ⟨name, hname, rfl⟩ := Option.map_eq_some_iff.mp h
  obtain ⟨hmem, hne⟩ := mem_segments_of_fileName hname
  obtain ⟨hstem, hchars⟩ := splitExtension_stem hne
  refine ⟨fun hslash => ?_, ?_, hup⟩
  · rcases hchars _ hslash with h | h
    · exact absurd h (by decide)
    · exact no_slash_of_mem_segments hmem h
  · rw [isIdle, Bool.or_eq_false_iff, beq_eq_false_iff_ne, beq_eq_false_iff_ne]
    exact ⟨hstem, hhere⟩

theorem IsName.ne_empty {name : String} (h : IsName name) : name ≠ "" := by
  rintro rfl
  exact absurd h.not_idle (by decide)

/-- What comes before the last point of a name is a name with an extension after it. -/
theorem IsName.withExtension {name extension : String} (h : IsName name)
    (hslash : '/' ∉ extension.toList) (hchar : ∃ c ∈ extension.toList, c ≠ '.') :
    IsName ((splitExtension name).1 ++ "." ++ extension) := by
  obtain ⟨c, hc, hpoint⟩ := hchar
  obtain ⟨-, hchars⟩ := splitExtension_stem h.ne_empty
  have hstem : '/' ∉ (splitExtension name).1.toList := by
    intro hslash
    rcases hchars _ hslash with heq | hmem
    · exact absurd heq (by decide)
    · exact h.no_slash hmem
  have hmem : c ∈ ((splitExtension name).1 ++ "." ++ extension).toList := by simp [hc]
  refine ⟨by simp [hstem, hslash], ?_, ?_⟩
  · rw [isIdle, Bool.or_eq_false_iff, beq_eq_false_iff_ne, beq_eq_false_iff_ne]
    constructor
    all_goals
      intro heq
      rw [heq] at hmem
      simp [hpoint] at hmem
  · intro heq
    rw [heq] at hmem
    simp [hpoint] at hmem

/-- Giving a name in a directory an extension replaces what follows its last point, and nothing
before the name. -/
theorem withExtension_join {dir name extension : String} (hdir : dir ≠ "") (hname : IsName name)
    (hextension : extension ≠ "") (hfull : IsName ((splitExtension name).1 ++ "." ++ extension)) :
    withExtension (join dir name) extension =
      join dir ((splitExtension name).1 ++ "." ++ extension) := by
  obtain ⟨above, -, hsegments⟩ := exists_segments_join hdir
  obtain ⟨hcut, habsolute⟩ := hsegments name hname.no_slash
  obtain ⟨hcut', habsolute'⟩ := hsegments _ hfull.no_slash
  have hstem : stem? (join dir name) = some (splitExtension name).1 := by
    rw [stem?, fileName_of_segments hcut hname.not_idle hname.not_up, Option.map_some]
  have hjoined := ofSegments_segments (join dir ((splitExtension name).1 ++ "." ++ extension))
  rw [withExtension, hstem, hcut, ← hjoined, hcut', habsolute, habsolute']
  simp [trimIdle_of_name _ hname.not_idle, hextension, String.append_assoc]

end Path

namespace FileSystem

/-! ## Growth -/

variable {fs fs' fs'' : FileSystem} {loc : Location} {written written' : Location → Prop}

/-- The second file system has all that the first has, but for files that have been written over. -/
structure Grows (fs fs' : FileSystem) (written : Location → Prop) : Prop where
  workDir : fs'.workDir = fs.workDir
  directory : ∀ l, fs.at? l = some .directory → fs'.at? l = some .directory
  kept : ∀ l entry, ¬ written l → fs.at? l = some entry → fs'.at? l = some entry

theorem Grows.refl (fs : FileSystem) (written : Location → Prop) : fs.Grows fs written :=
  ⟨rfl, fun _ h => h, fun _ _ _ h => h⟩

theorem Grows.trans (h : fs.Grows fs' written) (h' : fs'.Grows fs'' written) :
    fs.Grows fs'' written :=
  ⟨h'.workDir.trans h.workDir, fun l hl => h'.directory l (h.directory l hl),
    fun l e hne hl => h'.kept l e hne (h.kept l e hne hl)⟩

theorem Grows.mono (h : fs.Grows fs' written) (hle : ∀ l, written l → written' l) :
    fs.Grows fs' written' :=
  ⟨h.workDir, h.directory, fun l e hne => h.kept l e fun hl => hne (hle l hl)⟩

/-- Walking only looks at directories, so it leads to the same place later. -/
theorem Grows.walk (h : fs.Grows fs' written) {segments : List String} {start : Location}
    (hwalk : fs.walk start segments = .ok loc) : fs'.walk start segments = .ok loc := by
  induction segments generalizing start with
  | nil => exact hwalk
  | cons segment segments ih =>
    rw [FileSystem.walk] at hwalk ⊢
    cases hstart : fs.at? start with
    | none => rw [hstart] at hwalk; cases hwalk
    | some entry =>
      rw [hstart] at hwalk
      cases entry with
      | file bytes => cases hwalk
      | directory =>
        rw [h.directory start hstart]
        exact ih hwalk

theorem Grows.locate (h : fs.Grows fs' written) {path : String} (hloc : fs.locate path = .ok loc) :
    fs'.locate path = .ok loc := by
  rw [FileSystem.locate, h.workDir]
  rw [FileSystem.locate] at hloc
  split at hloc
  · cases hloc
  · rename_i hne
    rw [if_neg hne]
    exact h.walk hloc

theorem at?_put_of_ne {l : Location} (entry : FileEntry) (hne : l ≠ loc) :
    (fs.put loc entry).at? l = fs.at? l := by
  have hfilter : (fs.entries.filter (·.1 != loc)).lookup l = fs.entries.lookup l := by
    induction fs.entries with
    | nil => rfl
    | cons e entries ih =>
      by_cases he : e.1 = loc
      · rw [List.filter_cons_of_neg (by simp [he]), ih, List.lookup_cons,
          beq_eq_false_iff_ne.mpr (he ▸ hne)]
      · rw [List.filter_cons_of_pos (by simp [he]), List.lookup_cons, List.lookup_cons, ih]
  rw [at?, at?, put, List.lookup_cons, beq_eq_false_iff_ne.mpr hne, hfilter]

theorem at?_put (entry : FileEntry) (h : fs.at? loc ≠ some .directory) :
    (fs.put loc entry).at? loc = some entry := by
  rw [at?] at h
  split at h
  · exact absurd rfl h
  · rename_i hworkDir
    rw [at?, put, if_neg hworkDir, List.lookup_cons_self]

/-- Putting something where no directory is changes nothing elsewhere. -/
theorem grows_put (entry : FileEntry) (h : fs.at? loc ≠ some .directory) :
    fs.Grows (fs.put loc entry) (· = loc) := by
  refine ⟨rfl, fun l hl => ?_, fun l e hne hl => ?_⟩
  · have hne : l ≠ loc := by
      rintro rfl
      exact h hl
    rw [at?_put_of_ne entry hne, hl]
  · rw [at?_put_of_ne entry hne, hl]

theorem grows_makeDir {path : String} (h : fs.makeDir path = .ok fs') :
    fs.Grows fs' fun _ => False := by
  rw [makeDir] at h
  split at h
  · cases h
  · split at h
    · cases h
    · rename_i loc _ _ _ hnone _
      cases h
      have hnoDir : fs.at? loc ≠ some .directory := by simp [hnone]
      have hgrows := grows_put .directory hnoDir
      refine ⟨hgrows.workDir, hgrows.directory, fun l e _ hl => hgrows.kept l e ?_ hl⟩
      rintro rfl
      rw [hnone] at hl
      cases hl
    · cases h
    · cases h

/-- A directory that could not be made may be there already. -/
theorem grows_of_isDir {path : String} {e : FileError}
    (h : (if fs.isDir path then .ok fs else .error e) = Except.ok fs') :
    fs.Grows fs' fun _ => False := by
  split at h
  · cases h
    exact .refl fs _
  · cases h

theorem grows_makeDirs {path : String} {depth : Nat} (h : fs.makeDirs path depth = .ok fs') :
    fs.Grows fs' fun _ => False := by
  induction depth generalizing fs fs' path with
  | zero => cases h
  | succ depth ih =>
    rw [makeDirs] at h
    split at h
    · cases h
      exact .refl fs _
    · split at h
      · rename_i made hmake
        cases h
        exact grows_makeDir hmake
      · split at h
        · cases h
        · split at h
          · cases h
          · rename_i above habove
            split at h
            · rename_i made hmake
              cases h
              exact (ih habove).trans (grows_makeDir hmake)
            · exact (ih habove).trans (grows_of_isDir h)
      · exact grows_of_isDir h

theorem grows_createDirs {path : String} (h : fs.createDirs path = .ok fs') :
    fs.Grows fs' fun _ => False :=
  grows_makeDirs h

theorem dropSlashes_of_not_endsInSlash {path : String} (h : endsInSlash path = false) :
    dropSlashes path = path := by
  have hkeep : path.toList.reverse.dropWhile (· == '/') = path.toList.reverse := by
    cases hcs : path.toList.reverse with
    | nil => rfl
    | cons c cs =>
      have hlast : path.toList.getLast? = some c := by
        rw [← List.head?_reverse, hcs, List.head?_cons]
      rw [endsInSlash, hlast] at h
      exact List.dropWhile_cons_of_neg (by simpa using h)
  rw [dropSlashes, hkeep, List.reverse_reverse]
  split
  · rename_i hnil
    rw [h, String.toList_eq_nil_iff.mp hnil]
    rfl
  · exact String.ofList_toList

/-- A file that is written is at the location of its path, and everything else stays. -/
theorem exists_write {path text : String} (h : fs.write path text = .ok fs') :
    ∃ loc, fs.locate path = .ok loc ∧ fs'.at? loc = some (.file (Utf8.encode text)) ∧
      fs.Grows fs' (· = loc) := by
  rw [write] at h
  split at h
  · cases h
  · rename_i loc hloc
    split at h
    · cases h
    · rename_i hparent hnoDir
      split at h
      · cases h
      · rename_i hslash
        cases h
        rw [dropSlashes_of_not_endsInSlash (by simpa using hslash)] at hloc
        exact ⟨loc, hloc, at?_put _ hnoDir, grows_put _ hnoDir⟩
    · cases h
    · cases h

/-! ## Names in directories -/

theorem walk_append (fs : FileSystem) (start : Location) (above more : List String) :
    fs.walk start (above ++ more) = (fs.walk start above).bind (fs.walk · more) := by
  induction above generalizing start with
  | nil => rfl
  | cons segment above ih =>
    rw [List.cons_append, walk, walk]
    cases fs.at? start with
    | none => rfl
    | some entry =>
      cases entry with
      | file bytes => rfl
      | directory => exact ih _

/-- The path of a name in a directory leads to that name below the directory. -/
theorem locate_join {dir name : String} (hdir : dir ≠ "") (hname : Path.IsName name)
    (h : fs.locate (Path.join dir name) = .ok loc) :
    ∃ d, fs.stat dir = .ok (d, .directory) ∧ loc = d ++ [name] := by
  obtain ⟨above, habove, hsegments⟩ := Path.exists_segments_join hdir
  obtain ⟨hcut, habsolute⟩ := hsegments name hname.no_slash
  rw [locate, hcut, habsolute, walk_append] at h
  split at h
  · cases h
  · cases hwalk : fs.walk (if Path.isAbsolute dir then [] else fs.workDir) above with
    | error e => rw [hwalk] at h; cases h
    | ok d =>
      have hstep : fs.walk d [name] = .ok loc := by rwa [hwalk] at h
      rw [walk] at hstep
      cases hd : fs.at? d with
      | none => rw [hd] at hstep; cases hstep
      | some entry =>
        cases entry with
        | file bytes => rw [hd] at hstep; cases hstep
        | directory =>
          rw [hd] at hstep
          refine ⟨d, ?_, ?_⟩
          · have hlocate : fs.locate dir = .ok d := by
              rw [locate, if_neg (by simpa using hdir)]
              -- A directory whose text ends in a slash has one more, empty part, which stays in
              -- place.
              rcases habove with hsame | hslash
              · rw [hsame, hwalk]
              · rw [hslash, walk_append, hwalk]
                show fs.walk d [""] = .ok d
                rw [walk, hd]
                rfl
            rw [stat, hlocate]
            dsimp only
            rw [hd]
          · simpa [walk, hname.not_idle, hname.not_up] using hstep.symm

/-! ## Paths of files -/

/-- Whatever a location is in is a directory. -/
def InDirectories (fs : FileSystem) (loc : Location) : Prop :=
  ∀ above, above <+: loc → above ≠ loc → fs.at? above = some .directory

theorem inDirectories_of_prefix (hloc : loc <+: fs.workDir) : fs.InDirectories loc := by
  intro above habove _
  rw [at?, if_pos (List.isPrefixOf_iff_prefix.mpr (habove.trans hloc))]

/-- A walk goes from directories to their entries and back. -/
theorem InDirectories.walk {start : Location} {segments : List String} (h : fs.InDirectories start)
    (hwalk : fs.walk start segments = .ok loc) : fs.InDirectories loc := by
  induction segments generalizing start with
  | nil =>
    cases hwalk
    exact h
  | cons segment segments ih =>
    rw [FileSystem.walk] at hwalk
    cases hstart : fs.at? start with
    | none => rw [hstart] at hwalk; cases hwalk
    | some entry =>
      rw [hstart] at hwalk
      cases entry with
      | file bytes => cases hwalk
      | directory =>
        refine ih ?_ hwalk
        split_ifs
        · exact h
        · intro above habove hne
          -- What is above a parent was above the start; the start itself was just seen to be a
          -- directory.
          by_cases heq : above = start
          · rw [heq, hstart]
          · exact h above (habove.trans (List.dropLast_prefix start)) heq
        · intro above habove hne
          rcases List.prefix_concat_iff.mp habove with heq | habove
          · exact absurd heq hne
          · by_cases heq : above = start
            · rw [heq, hstart]
            · exact h above habove heq

/-- A path that leads to a file has a name at its end: after `.`, `..` and slashes there is a
directory. -/
theorem fileName_of_readBytes {path : String} {bytes : List UInt8}
    (h : fs.readBytes path = .ok bytes) : ∃ name, Path.fileName? path = some name := by
  obtain ⟨loc, hloc, hfile⟩ : ∃ loc, fs.locate path = .ok loc ∧ fs.at? loc = some (.file bytes) := by
    rw [readBytes, stat] at h
    cases hloc : fs.locate path with
    | error e => rw [hloc] at h; cases h
    | ok loc =>
      refine ⟨loc, rfl, ?_⟩
      rw [hloc] at h
      dsimp only at h
      cases hentry : fs.at? loc with
      | none => rw [hentry] at h; cases h
      | some entry =>
        rw [hentry] at h
        cases entry with
        | file bytes' =>
          cases h
          rfl
        | directory => cases h
  rw [locate] at hloc
  split at hloc
  · cases hloc
  -- Walking starts in a directory, whose parents are directories too.
  · have hstart : fs.InDirectories (if Path.isAbsolute path then [] else fs.workDir) := by
      split
      · exact inDirectories_of_prefix List.nil_prefix
      · exact inDirectories_of_prefix List.prefix_rfl
    rcases List.eq_nil_or_concat (Path.segments path) with hnil | ⟨above, last, hsegments⟩
    · exact absurd hnil (Path.segments_ne_nil path)
    · rw [List.concat_eq_append] at hsegments
      rw [hsegments, walk_append] at hloc
      cases habove : fs.walk (if Path.isAbsolute path then [] else fs.workDir) above with
      | error e => rw [habove] at hloc; cases hloc
      | ok d =>
        have hstep : fs.walk d [last] = .ok loc := by rwa [habove] at hloc
        rw [FileSystem.walk] at hstep
        cases hd : fs.at? d with
        | none => rw [hd] at hstep; cases hstep
        | some entry =>
          rw [hd] at hstep
          cases entry with
          | file bytes => cases hstep
          | directory =>
            simp only [FileSystem.walk] at hstep
            -- A step that stays or goes up ends in a directory, not in a file.
            split_ifs at hstep with hidle hup
            · cases hstep
              rw [hd] at hfile
              cases hfile
            · cases hstep
              by_cases heq : d.dropLast = d
              · rw [heq, hd] at hfile
                cases hfile
              · rw [hstart.walk habove _ (List.dropLast_prefix d) heq] at hfile
                cases hfile
            · exact ⟨last, Path.fileName_of_segments hsegments (by simpa using hidle)
                (by simpa using hup)⟩

end FileSystem

end KilnLang
