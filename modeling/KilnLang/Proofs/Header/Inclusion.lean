import KilnLang.Header.Table
import KilnLang.Proofs.Header.LineReading
import Mathlib.Algebra.Order.BigOperators.Group.List
import Mathlib.Algebra.Order.Group.Nat
import Mathlib.Data.List.Perm.Subperm
import Mathlib.Logic.Relation

/-!
# Headers that include headers

The include graph of a locator, and how deep a load goes.

**Settled headers.** Below a settled header no two distinct headers include each other, and each
path has one spelling: no other file that can be found has a path with the same key. A header may
include itself, and many headers may share what they include.

**Depth.** A load visits a chain of headers with pairwise distinct paths. All but the first of them
are named by an include, and there are no more such paths than `Locator.nestingBound`, because no
text has more includes than characters. So a load that starts with one more than that as its depth
never runs out of it (`Pending.fits`).
-/

namespace KilnLang

namespace Locator

variable (l : Locator)

/-! ## The include graph -/

/-- Some name leads to the file. -/
def Finds (f : HeaderFile) : Prop := ∃ name, l.locate name = some f

/-- An include of `f` leads to `g`. -/
def Includes (f g : HeaderFile) : Prop :=
  ∃ name ∈ (Header.directives f.contents).includes, l.locate name = some g

/-- Includes lead from `f` to `g`, in any number of steps. -/
def Reaches : HeaderFile → HeaderFile → Prop := Relation.ReflTransGen l.Includes

/-- Below the file, no two headers include each other and each path has one spelling. -/
structure Settled (f : HeaderFile) : Prop where
  one_spelling : ∀ g h, l.Reaches f g → l.Finds h → Path.key h.path = Path.key g.path → h = g
  no_ring : ∀ g h, l.Reaches f g → l.Reaches g h → l.Reaches h g → g = h

variable {l}

theorem Includes.finds {f g : HeaderFile} (h : l.Includes f g) : l.Finds g :=
  h.imp fun _ hn => hn.2

theorem Includes.reaches {f g : HeaderFile} (h : l.Includes f g) : l.Reaches f g := .single h

theorem Settled.of_reaches {f g : HeaderFile} (hf : l.Settled f) (h : l.Reaches f g) :
    l.Settled g where
  one_spelling _ _ hg := hf.one_spelling _ _ (h.trans hg)
  no_ring _ _ hg := hf.no_ring _ _ (h.trans hg)

theorem Settled.eq_of_key {f g : HeaderFile} (hf : l.Settled f) (hg : l.Finds g)
    (hk : Path.key g.path = Path.key f.path) : g = f :=
  hf.one_spelling f g .refl hg hk

end Locator

/-! ## Counting includes -/

namespace Header

theorem dropFinal?_length {c : Char} {line rest : List Char} (h : dropFinal? c line = some rest) :
    rest.length + 1 = line.length := by
  unfold dropFinal? at h
  split at h
  · cases line with
    | nil => simp_all
    | cons => simp at h; subst h; simp
  · simp at h

/-- The number of characters in logical lines. -/
def textWidth (lines : List LogicalLine) : Nat := (lines.flatMap (·.text)).length

@[simp] theorem textWidth_nil : textWidth [] = 0 := rfl

@[simp] theorem textWidth_cons (line : LogicalLine) (lines : List LogicalLine) :
    textWidth (line :: lines) = line.text.length + textWidth lines := by
  simp [textWidth]

theorem joinLines_width (number : Nat) (open? : Option LogicalLine) (raws : List (List Char)) :
    textWidth (joinLines number open? raws) ≤
      textWidth open?.toList + raws.flatten.length := by
  induction raws generalizing number open? with
  | nil => simp [joinLines]
  | cons raw more ih =>
    have hline : ((dropFinal? '\r' raw).getD raw).length ≤ raw.length := by
      cases h : dropFinal? '\r' raw with
      | none => simp
      | some line => have := dropFinal?_length h; simp; omega
    have hstart : (open?.getD ⟨number, []⟩).text.length = textWidth open?.toList := by
      cases open? <;> simp
    simp only [joinLines, List.flatten_cons, List.length_append]
    cases h : dropFinal? '\\' ((dropFinal? '\r' raw).getD raw) with
    | some joined =>
      have hj := dropFinal?_length h
      refine Nat.le_trans (ih _ _) ?_
      simp
      omega
    | none =>
      have := ih (number + 1) none
      simp at this ⊢
      omega

theorem splitAt_width (sep : Char) (cs : List Char) :
    (Text.splitAt sep cs).flatten.length ≤ cs.length := by
  fun_induction Text.splitAt sep cs <;> simp_all
  omega

theorem logicalLines_width (cs : List Char) : textWidth (logicalLines cs) ≤ cs.length := by
  refine Nat.le_trans (joinLines_width 1 none _) ?_
  simpa using splitAt_width '\n' cs

/-- A line adds an include only if it is not empty. -/
theorem addLine_includes (d : Directives) (depth : Nat) (line : LogicalLine) :
    (d.addLine depth line).1.includes.length ≤ d.includes.length + line.text.length := by
  unfold Directives.addLine
  cases hd : directive? line.text with
  | none => simp
  | some p =>
    have hpos : 1 ≤ line.text.length := by
      cases ht : line.text with
      | nil => rw [ht] at hd; simp [directive?, Text.trimStart] at hd
      | cons => simp
    have htarget : (includeTarget? p.2).toList.length ≤ 1 := by
      cases includeTarget? p.2 <;> simp
    dsimp only
    split_ifs <;> first | (split <;> simp) | (simp; omega) | simp

theorem addLines_includes (d : Directives) (depth last : Nat) (lines : List LogicalLine) :
    (d.addLines depth last lines).includes.length ≤ d.includes.length + textWidth lines := by
  induction lines generalizing d depth last with
  | nil => unfold Directives.addLines; split_ifs <;> simp
  | cons line more ih =>
    have hline := addLine_includes d depth line
    have hmore := ih (d.addLine depth line).1 (d.addLine depth line).2 line.number
    simp only [Directives.addLines, textWidth_cons]
    omega

/-- No text has more includes than characters. -/
theorem directives_includes (contents : String) :
    (directives contents).includes.length ≤ contents.toList.length := by
  refine Nat.le_trans (addLines_includes _ _ _ _) ?_
  have hlines := logicalLines_width (stripComments .plain contents.toList)
  have hstrip := stripComments_length .plain contents.toList
  simp at hstrip ⊢
  omega

end Header

/-! ## Paths that includes lead to -/

theorem Utf8.decodeEach_length (bs : List UInt8) : (Utf8.decodeEach bs).length ≤ bs.length := by
  fun_induction Utf8.decodeEach bs with
  | case1 => simp
  | case2 b bs hnext ih => simp; omega

theorem FileSystem.mem_entries_of_readBytes {fs : FileSystem} {path : String} {bytes : List UInt8}
    (h : fs.readBytes path = .ok bytes) : ∃ loc, (loc, FileEntry.file bytes) ∈ fs.entries := by
  unfold FileSystem.readBytes FileSystem.stat at h
  cases hloc : fs.locate path with
  | error => simp [hloc] at h
  | ok loc =>
    have hat : fs.at? loc = some (.file bytes) := by
      simp only [hloc] at h
      cases hat : fs.at? loc with
      | none => simp [hat] at h
      | some entry => cases entry <;> simp_all
    unfold FileSystem.at? at hat
    split at hat
    · simp at hat
    · obtain ⟨before, after, hsplit, -⟩ := List.lookup_eq_some_iff.mp hat
      exact ⟨loc, by rw [hsplit]; simp⟩

namespace Locator

/-- The paths that the includes of a text lead to. -/
def includedKeys (l : Locator) (contents : String) : List Path.Key :=
  (Header.directives contents).includes.filterMap fun name =>
    (l.locate name).map fun file => Path.key file.path

theorem includedKeys_length (l : Locator) (contents : String) :
    (l.includedKeys contents).length ≤ contents.toList.length :=
  Nat.le_trans (List.length_filterMap_le _ _) (Header.directives_includes contents)

theorem Includes.mem_includedKeys {l : Locator} {f g : HeaderFile} (h : l.Includes f g) :
    Path.key g.path ∈ l.includedKeys f.contents := by
  obtain ⟨name, hname, hg⟩ := h
  exact List.mem_filterMap.mpr ⟨name, hname, by simp [hg]⟩

/-- The paths that includes of an entry of a file system lead to. -/
def entryKeys (l : Locator) : Location × FileEntry → List Path.Key
  | (_, .file bytes) => l.includedKeys (Utf8.decodeLossy bytes)
  | (_, .directory) => []

/-- The paths that includes lead to. -/
def nestedKeys : Locator → List Path.Key
  | .memory files => files.map fun (name, _) => Path.key name
  | .search fs dirs => fs.entries.flatMap (entryKeys (.search fs dirs))

theorem nestedKeys_length (l : Locator) : l.nestedKeys.length ≤ l.nestingBound := by
  cases l with
  | memory files => simp [nestedKeys, nestingBound]
  | search fs dirs =>
    simp only [nestedKeys, nestingBound, List.length_flatMap]
    refine Nat.le_trans (List.sum_le_sum fun entry _ => ?_) (Nat.le_add_left _ _)
    obtain ⟨loc, entry⟩ := entry
    cases entry with
    | directory => simp [entryKeys]
    | file bytes =>
      refine Nat.le_trans (includedKeys_length _ _) ?_
      simpa [Utf8.decodeLossy] using Utf8.decodeEach_length bytes

theorem Includes.mem_nestedKeys {l : Locator} {f g : HeaderFile} (hf : l.Finds f)
    (h : l.Includes f g) : Path.key g.path ∈ l.nestedKeys := by
  cases l with
  | memory files =>
    obtain ⟨name, -, hg⟩ := h
    obtain ⟨contents, hlook, rfl⟩ := Option.map_eq_some_iff.mp hg
    obtain ⟨before, after, hsplit, -⟩ := List.lookup_eq_some_iff.mp hlook
    exact List.mem_map.mpr ⟨(name, contents), by rw [hsplit]; simp, rfl⟩
  | search fs dirs =>
    obtain ⟨name, hname⟩ := hf
    obtain ⟨dir, -, hdir⟩ := List.exists_of_findSome?_eq_some hname
    unfold inDir? at hdir
    split at hdir
    · rename_i bytes hread
      obtain ⟨loc, hmem⟩ := FileSystem.mem_entries_of_readBytes hread
      have hcontents : f.contents = Utf8.decodeLossy bytes := by
        rw [← Option.some.inj hdir]
      refine List.mem_flatMap.mpr ⟨_, hmem, ?_⟩
      simpa [entryKeys, hcontents] using h.mem_includedKeys
    · simp at hdir

end Locator

/-! ## Depth -/

namespace Header

variable {l : Locator}

/-- A load of the file with the given depth does not run out of it. -/
inductive Fits (l : Locator) : Nat → HeaderFile → Prop
  | intro {depth : Nat} {f : HeaderFile}
      (below : ∀ g, l.Includes f g → Path.key g.path ≠ Path.key f.path → Fits l depth g) :
      Fits l (depth + 1) f

/-- A load of `f` is about to start below those of `stack`, and `depth` is left. `keys` are all
paths that can come up in the load as a whole. -/
structure Pending (l : Locator) (keys stack : List Path.Key) (f : HeaderFile) (depth : Nat) :
    Prop where
  found : l.Finds f
  fresh : Path.key f.path ∉ stack
  nodup : stack.Nodup
  above : ∀ k ∈ stack, ∃ a, l.Finds a ∧ Path.key a.path = k ∧ l.Reaches a f
  listed : Path.key f.path :: stack ⊆ keys
  closed : l.nestedKeys ⊆ keys
  room : keys.length ≤ depth + stack.length

namespace Pending

variable {keys stack : List Path.Key} {f g : HeaderFile} {depth : Nat}

theorem root (hf : l.Finds f) :
    Pending l (Path.key f.path :: l.nestedKeys) [] f (l.nestingBound + 1) where
  found := hf
  fresh := List.not_mem_nil
  nodup := .nil
  above := by simp
  listed := by simp
  closed := List.subset_cons_self _ _
  room := by simpa using l.nestedKeys_length

theorem child (h : Pending l keys stack f (depth + 1)) (hg : l.Includes f g)
    (hfresh : Path.key g.path ∉ Path.key f.path :: stack) :
    Pending l keys (Path.key f.path :: stack) g depth where
  found := hg.finds
  fresh := hfresh
  nodup := List.nodup_cons.mpr ⟨h.fresh, h.nodup⟩
  above k hk := by
    rcases List.mem_cons.mp hk with rfl | hk
    · exact ⟨f, h.found, rfl, hg.reaches⟩
    · obtain ⟨a, ha, hka, haf⟩ := h.above k hk
      exact ⟨a, ha, hka, haf.tail hg⟩
  listed := List.cons_subset.mpr ⟨h.closed (hg.mem_nestedKeys h.found), h.listed⟩
  closed := h.closed
  room := by have := h.room; simp; omega

/-- Nothing below a settled header is being loaded above it. -/
theorem disjoint (h : Pending l keys stack f depth) (hf : l.Settled f) (hg : l.Reaches f g) :
    Path.key g.path ∉ stack := by
  intro hmem
  obtain ⟨a, ha, hka, haf⟩ := h.above _ hmem
  have hag : a = g := hf.one_spelling g a hg ha hka
  subst hag
  have hfa : f = a := hf.no_ring f a .refl hg haf
  exact h.fresh (hfa ▸ hmem)

/-- A header that a settled one includes is the settled one, or can be loaded next. -/
theorem eq_or_fresh (h : Pending l keys stack f depth) (hf : l.Settled f) (hg : l.Includes f g)
    (hk : Path.key g.path ∈ Path.key f.path :: stack) : Path.key g.path = Path.key f.path :=
  (List.mem_cons.mp hk).resolve_right (h.disjoint hf hg.reaches)

/-- A load that is about to start has depth left: not all paths are on the stack, since that of `f`
is not. -/
theorem depth_ne_zero (h : Pending l keys stack f depth) : depth ≠ 0 := by
  have hnodup : (Path.key f.path :: stack).Nodup := List.nodup_cons.mpr ⟨h.fresh, h.nodup⟩
  have hle := (hnodup.subperm h.listed).length_le
  have := h.room
  simp at hle
  omega

theorem fits (h : Pending l keys stack f depth) (hf : l.Settled f) : Fits l depth f := by
  induction depth generalizing stack f with
  | zero => exact absurd rfl h.depth_ne_zero
  | succ depth ih =>
    refine .intro fun g hg hne => ih (h.child hg fun hk => hne (h.eq_or_fresh hf hg hk)) ?_
    exact hf.of_reaches hg.reaches

end Pending

end Header

end KilnLang
