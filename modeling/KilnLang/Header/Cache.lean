import KilnLang.Header.Symbol
import KilnLang.Path

/-!
# The cache of header tables

**The cache** holds tables by the key of their path. A table that was kept is never replaced.

**Computations over the cache.** Units that are compiled at the same time share one cache, so a
computation that needs tables is a sequence of steps, each of which looks one table up or keeps
one. Between two steps of one computation, others may take theirs. `Caching.run` takes all steps
of one computation in a row.
-/

namespace KilnLang

/-- The tables of the headers loaded so far, by the key of their path. -/
structure HeaderCache where
  tables : List (Path.Key × HeaderTable)
  deriving Repr, Inhabited

namespace HeaderCache

/-- No tables. -/
def empty : HeaderCache := ⟨[]⟩

/-- The number of tables. -/
def size (c : HeaderCache) : Nat := c.tables.length

/-- The table of a path. -/
def get? (c : HeaderCache) (key : Path.Key) : Option HeaderTable := c.tables.lookup key

/-- Keeps a table, unless the path has one. -/
def insert (c : HeaderCache) (key : Path.Key) (table : HeaderTable) : HeaderCache :=
  match c.get? key with
  | some _ => c
  | none => ⟨(key, table) :: c.tables⟩

@[simp] theorem get?_empty (key : Path.Key) : empty.get? key = none := rfl

/-- A path that has a table keeps it; the path of the insertion has one afterwards. -/
theorem get?_insert (c : HeaderCache) (key k : Path.Key) (table : HeaderTable) :
    (c.insert key table).get? k =
      if k = key then some ((c.get? key).getD table) else c.get? k := by
  unfold insert
  cases h : c.get? key with
  | some t =>
    by_cases hk : k = key
    · subst hk; simp [h]
    · simp [hk]
  | none =>
    by_cases hk : k = key
    · subst hk; simp [get?]
    · have : (k == key) = false := by simpa using hk
      simp [get?, List.lookup_cons, hk, this]

end HeaderCache

/-- A computation that looks tables up in the cache and keeps tables there. The next step of a
lookup takes the table that was found, and that of an insertion the table that the path has after
it, which is an older one if there was one. -/
inductive Caching (α : Type) where
  | done (value : α)
  | find (key : Path.Key) (next : Option HeaderTable → Caching α)
  | keep (key : Path.Key) (table : HeaderTable) (next : HeaderTable → Caching α)

namespace Caching

variable {α β : Type}

/-- One computation after another. -/
def bind : Caching α → (α → Caching β) → Caching β
  | .done a, f => f a
  | .find key next, f => .find key fun found => (next found).bind f
  | .keep key table next, f => .keep key table fun kept => (next kept).bind f

instance : Monad Caching where
  pure := .done
  bind := bind

/-- Takes the next step, if one is left. -/
def step (c : HeaderCache) : Caching α → Caching α × HeaderCache
  | .done a => (.done a, c)
  | .find key next => (next (c.get? key), c)
  | .keep key table next => (next ((c.get? key).getD table), c.insert key table)

/-- Takes all steps in a row. -/
def run : Caching α → HeaderCache → α × HeaderCache
  | .done a, c => (a, c)
  | .find key next, c => (next (c.get? key)).run c
  | .keep key table next, c => (next ((c.get? key).getD table)).run (c.insert key table)

@[simp] theorem pure_eq (a : α) : (pure a : Caching α) = .done a := rfl

@[simp] theorem done_bind (a : α) (f : α → Caching β) : (Caching.done a >>= f) = f a := rfl

@[simp] theorem find_bind (key : Path.Key) (next : Option HeaderTable → Caching α)
    (f : α → Caching β) : (find key next >>= f) = find key fun found => next found >>= f := rfl

@[simp] theorem keep_bind (key : Path.Key) (table : HeaderTable) (next : HeaderTable → Caching α)
    (f : α → Caching β) :
    (keep key table next >>= f) = keep key table fun kept => next kept >>= f := rfl

end Caching

end KilnLang
