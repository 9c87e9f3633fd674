/-!
# Labelled trees

Trees whose nodes carry a label and any number of children. **`preorder`** lists the labels, each
before those below it. **`render`** draws a list of trees with guides, one label a line:

```text
├─ first
│  └─ below first
└─ last
```
-/

namespace KilnLang

/-- A label and the trees below it. -/
inductive Tree (α : Type) where
  | node (label : α) (children : List (Tree α))
  deriving Repr, Inhabited

namespace Tree

variable {α : Type}

/-- A tree without children. -/
def leaf (label : α) : Tree α := .node label []

/-- The label at the root. -/
def label : Tree α → α
  | .node label _ => label

/-- The trees below the root. -/
def children : Tree α → List (Tree α)
  | .node _ children => children

mutual

/-- The labels of a tree, each before those below it. -/
def preorder : Tree α → List α
  | .node label children => label :: preorderEach children

/-- The labels of the trees of a list. -/
def preorderEach : List (Tree α) → List α
  | [] => []
  | t :: ts => t.preorder ++ preorderEach ts

end

mutual

/-- The lines of a tree whose root line starts with `guide ++ mark` and whose other lines start
with `guide ++ below`. -/
def lines (guide mark below : String) : Tree String → List String
  | .node label children => (guide ++ mark ++ label) :: linesEach (guide ++ below) children

/-- The lines of the trees of a list; the last one closes the guide. -/
def linesEach (guide : String) : List (Tree String) → List String
  | [] => []
  | [t] => lines guide "└─ " "   " t
  | t :: u :: ts => lines guide "├─ " "│  " t ++ linesEach guide (u :: ts)

end

/-- The drawing of a list of trees, each line ended by a line break. -/
def render (trees : List (Tree String)) : String :=
  String.join ((linesEach "" trees).map (· ++ "\n"))

end Tree

end KilnLang
