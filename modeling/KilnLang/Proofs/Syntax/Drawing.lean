import KilnLang.Tree
import Mathlib.Data.List.Basic
import Mathlib.Data.List.TakeWhile
import Mathlib.Data.String.Basic

/-!
# Drawings tell trees apart

**Theorem (`Tree.render_inj`).** Two lists of trees whose labels have no line break have the same
drawing only if they are the same.

The labels may hold anything else, the characters of the guides too. The drawing determines its
lines, because no line has a break inside. The lines determine the trees from the left. The first
three characters of the first line say whether more trees follow, and what comes after them is the
first label. All lines below it start with `│` if more trees follow, and the first line of the next
tree does not, so that the lines of the first tree end there.
-/

namespace KilnLang

/-- A list is cut where the first element without a property stands. -/
theorem append_inj_of_boundary {α : Type} {p : α → Bool} {as as' bs bs' : List α}
    (has : ∀ a ∈ as, p a) (has' : ∀ a ∈ as', p a) (hbs : ∀ b ∈ bs.head?, p b = false)
    (hbs' : ∀ b ∈ bs'.head?, p b = false) (h : as ++ bs = as' ++ bs') : as = as' ∧ bs = bs' := by
  have htake : ∀ {xs ys : List α}, (∀ x ∈ xs, p x) → (∀ y ∈ ys.head?, p y = false) →
      (xs ++ ys).takeWhile p = xs := by
    intro xs ys hxs hys
    rw [List.takeWhile_append_of_pos hxs]
    cases ys with
    | nil => rw [List.takeWhile_nil, List.append_nil]
    | cons y ys => rw [List.takeWhile_cons_of_neg (by simp [hys y rfl]), List.append_nil]
  have heq : as = as' := by
    rw [← htake has hbs, h, htake has' hbs']
  exact ⟨heq, List.append_cancel_left (heq ▸ h)⟩

namespace Tree

/-- No label of the trees has a line break. -/
def Clean (trees : List (Tree String)) : Prop :=
  ∀ label ∈ preorderEach trees, '\n' ∉ label.toList

/-- No label of the tree has a line break. -/
def OneLine (t : Tree String) : Prop := ∀ label ∈ t.preorder, '\n' ∉ label.toList

@[simp] theorem oneLine_node {label : String} {children : List (Tree String)} :
    (node label children).OneLine ↔ '\n' ∉ label.toList ∧ Clean children := by
  simp only [OneLine, Clean, preorder, List.forall_mem_cons]

@[simp] theorem clean_nil : Clean [] := List.forall_mem_nil _

@[simp] theorem clean_cons {t : Tree String} {ts : List (Tree String)} :
    Clean (t :: ts) ↔ t.OneLine ∧ Clean ts := by
  simp only [Clean, OneLine, preorderEach, List.forall_mem_append]

@[simp] theorem clean_append {ts us : List (Tree String)} :
    Clean (ts ++ us) ↔ Clean ts ∧ Clean us := by
  induction ts with
  | nil => simp
  | cons t ts ih => rw [List.cons_append, clean_cons, clean_cons, ih, and_assoc]

/-! ## Guides -/

mutual

/-- A guide stands before each line. -/
theorem lines_append (g guide mark below : String) : ∀ t : Tree String,
    lines (g ++ guide) mark below t = (lines guide mark below t).map (g ++ ·)
  | .node label children => by
    simp only [lines, List.map_cons, String.append_assoc, linesEach_append g (guide ++ below)]

theorem linesEach_append (g guide : String) : ∀ ts : List (Tree String),
    linesEach (g ++ guide) ts = (linesEach guide ts).map (g ++ ·)
  | [] => rfl
  | [t] => lines_append g guide "└─ " "   " t
  | t :: u :: ts => by
    rw [linesEach, linesEach, List.map_append, lines_append, linesEach_append g guide (u :: ts)]

end

theorem linesEach_eq_map (guide : String) (ts : List (Tree String)) :
    linesEach guide ts = (linesEach "" ts).map (guide ++ ·) := by
  rw [← linesEach_append, String.append_empty]

/-- How the first line of a tree starts that `rest` follows. -/
def rootGuide (rest : List (Tree String)) : String := if rest.isEmpty then "└─ " else "├─ "

/-- How the other lines of a tree start that `rest` follows. -/
def innerGuide (rest : List (Tree String)) : String := if rest.isEmpty then "   " else "│  "

/-- The lines of the first tree, and those of the trees that follow. -/
theorem linesEach_cons (label : String) (children rest : List (Tree String)) :
    linesEach "" (.node label children :: rest) =
      (rootGuide rest ++ label) :: ((linesEach "" children).map (innerGuide rest ++ ·) ++
        linesEach "" rest) := by
  rw [← linesEach_eq_map]
  cases rest with
  | nil => simp [linesEach, lines, rootGuide, innerGuide]
  | cons u rest => simp [linesEach, lines, rootGuide, innerGuide]

/-! ## Lines determine trees -/

/-- The line goes on with a tree that others follow. -/
def isInner (line : String) : Bool := line.toList.head? == some '│'

theorem isInner_innerGuide {rest : List (Tree String)} (h : rest ≠ []) (line : String) :
    isInner (innerGuide rest ++ line) := by
  simp [isInner, innerGuide, h]

/-- No tree starts with such a line. -/
theorem not_isInner_head (ts : List (Tree String)) :
    ∀ line ∈ (linesEach "" ts).head?, isInner line = false := by
  intro line hline
  cases ts with
  | nil => cases hline
  | cons t rest =>
    obtain ⟨label, children⟩ := t
    rw [linesEach_cons] at hline
    cases hline
    by_cases h : rest.isEmpty <;> simp [isInner, rootGuide, h]

/-- What follows the guide of a root is its label, and the guide says whether it is the last one. -/
theorem rootGuide_inj {rest rest' : List (Tree String)} {label label' : String}
    (h : rootGuide rest ++ label = rootGuide rest' ++ label') :
    (rest = [] ↔ rest' = []) ∧ label = label' := by
  have hlist := congrArg String.toList h
  simp only [String.toList_append, rootGuide] at hlist
  by_cases hrest : rest.isEmpty <;> by_cases hrest' : rest'.isEmpty <;>
    simp [hrest, hrest', String.toList_inj] at hlist <;>
    simp_all

theorem map_append_inj {guide : String} {ls ls' : List String}
    (h : ls.map (guide ++ ·) = ls'.map (guide ++ ·)) : ls = ls' := by
  refine List.map_injective_iff.mpr ?_ h
  intro line line' hline
  have hlist := congrArg String.toList hline
  simp only [String.toList_append, List.append_cancel_left_eq] at hlist
  exact String.toList_inj.mp hlist

/-- The lines of trees determine them. -/
theorem linesEach_inj : ∀ {ts us : List (Tree String)}, linesEach "" ts = linesEach "" us → ts = us
  | [], [], _ => rfl
  | [], .node label children :: rest, h => by
    rw [linesEach_cons] at h
    cases h
  | .node label children :: rest, [], h => by
    rw [linesEach_cons] at h
    cases h
  | .node label children :: rest, .node label' children' :: rest', h => by
    rw [linesEach_cons, linesEach_cons] at h
    obtain ⟨hfirst, hmore⟩ := List.cons.inj h
    obtain ⟨hlast, rfl⟩ := rootGuide_inj hfirst
    have hsplit : (linesEach "" children).map (innerGuide rest ++ ·) =
        (linesEach "" children').map (innerGuide rest' ++ ·) ∧
        linesEach "" rest = linesEach "" rest' := by
      by_cases hrest : rest = []
      · obtain rfl := hlast.mp hrest
        subst hrest
        exact ⟨by simpa [linesEach] using hmore, rfl⟩
      · refine append_inj_of_boundary ?_ ?_ (not_isInner_head rest) (not_isInner_head rest') hmore
        · intro line hline
          obtain ⟨l, -, rfl⟩ := List.mem_map.mp hline
          exact isInner_innerGuide hrest l
        · intro line hline
          obtain ⟨l, -, rfl⟩ := List.mem_map.mp hline
          exact isInner_innerGuide (mt hlast.mpr hrest) l
    obtain ⟨hchildren, hrest⟩ := hsplit
    obtain rfl := linesEach_inj hrest
    rw [linesEach_inj (map_append_inj hchildren)]

/-! ## Drawings determine lines -/

/-- Lines without breaks, each ended by one, are determined by the text. -/
theorem join_inj : ∀ {ls ls' : List String}, (∀ line ∈ ls, '\n' ∉ line.toList) →
    (∀ line ∈ ls', '\n' ∉ line.toList) →
    String.join (ls.map (· ++ "\n")) = String.join (ls'.map (· ++ "\n")) → ls = ls'
  | [], [], _, _, _ => rfl
  | [], line :: ls, _, _, h => by
    have hlist := congrArg String.toList h
    simp at hlist
  | line :: ls, [], _, _, h => by
    have hlist := congrArg String.toList h
    simp at hlist
  | line :: ls, line' :: ls', hls, hls', h => by
    rw [List.forall_mem_cons] at hls hls'
    have hlist := congrArg String.toList h
    simp only [List.map_cons, String.join_cons, String.toList_append, List.append_assoc] at hlist
    have hbreak : ∀ more : List Char, ∀ c ∈ ("\n".toList ++ more).head?, (c != '\n') = false := by
      intro more c hc
      cases hc
      rfl
    obtain ⟨hline, hmore⟩ := append_inj_of_boundary (p := (· != '\n'))
      (fun c hc => bne_iff_ne.mpr fun heq => hls.1 (heq ▸ hc))
      (fun c hc => bne_iff_ne.mpr fun heq => hls'.1 (heq ▸ hc)) (hbreak _) (hbreak _) hlist
    have hmore := String.toList_inj.mp (List.append_cancel_left hmore)
    rw [String.toList_inj.mp hline, join_inj hls.2 hls'.2 hmore]

/-- If the labels have no line break, the lines have none. -/
theorem clean_lines : ∀ {ts : List (Tree String)}, Clean ts →
    ∀ line ∈ linesEach "" ts, '\n' ∉ line.toList
  | [], _ => List.forall_mem_nil _
  | .node label children :: rest, h => by
    intro line hline
    obtain ⟨hfirst, hrest⟩ := clean_cons.mp h
    obtain ⟨hlabel, hchildren⟩ := oneLine_node.mp hfirst
    rw [linesEach_cons, List.mem_cons, List.mem_append] at hline
    obtain rfl | hline | hline := hline
    · by_cases hempty : rest.isEmpty <;> simp [rootGuide, hempty, hlabel]
    · obtain ⟨l, hl, rfl⟩ := List.mem_map.mp hline
      have hclean := clean_lines hchildren l hl
      by_cases hempty : rest.isEmpty <;> simp [innerGuide, hempty, hclean]
    · exact clean_lines hrest line hline

/-- **Drawings tell trees apart**, if no label has a line break. -/
theorem render_inj {ts us : List (Tree String)} (hts : Clean ts) (hus : Clean us)
    (h : render ts = render us) : ts = us :=
  linesEach_inj (join_inj (clean_lines hts) (clean_lines hus) h)

end Tree

end KilnLang
