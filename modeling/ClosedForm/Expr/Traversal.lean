import ClosedForm.Expr.Basic
import Std.Data.HashMap

/-!
# Traversals

Two ways to compute a value for an expression from the values of its children.

* `Expr.recurse` follows the tree. Its only law is `recurse_eq`.
* `Expr.foldM` runs a step in a monad, children first and from left to right, and keeps the
  values in a table, so that a subexpression with several occurrences is visited once.
-/

namespace ClosedForm

namespace Expr

/-! ## Hashing -/

mutual

/-- A hash that depends on the structure only. -/
def hash : Expr → UInt64
  | constant value => mixHash 11 (Hashable.hash value)
  | symbol name => mixHash 13 (Hashable.hash name)
  | add terms => mixHash 17 (hashList terms)
  | mul factors => mixHash 19 (hashList factors)
  | pow base exponent => mixHash 23 (mixHash (hash base) (hash exponent))
  | function head arguments =>
    mixHash 29 (mixHash (Hashable.hash head) (hashList arguments))

/-- The hashes of the elements combined from left to right. -/
def hashList : List Expr → UInt64
  | [] => 7
  | e :: es => mixHash (hash e) (hashList es)

end

instance : Hashable Expr := ⟨hash⟩

/-! ## Recursion on the tree -/

section Recurse

variable {α : Type u} (step : Expr → List α → α)

mutual

/-- The value that `step` gives the expression over the values of its children. -/
def recurse : Expr → α
  | constant value => step (constant value) []
  | symbol name => step (symbol name) []
  | add terms => step (add terms) (recurseList terms)
  | mul factors => step (mul factors) (recurseList factors)
  | pow base exponent => step (pow base exponent) [recurse base, recurse exponent]
  | function head arguments => step (function head arguments) (recurseList arguments)

/-- The values of the elements. -/
def recurseList : List Expr → List α
  | [] => []
  | e :: es => recurse e :: recurseList es

end

theorem recurseList_eq_map (es : List Expr) :
    recurseList step es = es.map (recurse step) := by
  induction es with
  | nil => rfl
  | cons e es ih => simp [recurseList, ih]

theorem recurse_eq (e : Expr) :
    recurse step e = step e (e.children.map (recurse step)) := by
  cases e <;> simp [recurse, children, recurseList_eq_map]

end Recurse

/-! ## Recursion that visits each subexpression once -/

/-- The values of the subexpressions finished so far. -/
abbrev Table (α : Type u) := Std.HashMap Expr α

section Fold

variable {m : Type u → Type v} [Monad m] {α : Type u} (step : Expr → List α → m α)

/-- The value of `e`: from the table if it is there, otherwise by `step` over the values
that `below` finds for the children, and then entered into the table. -/
def visitNode (e : Expr) (below : StateT (Table α) m (List α)) : StateT (Table α) m α := do
  match (← get)[e]? with
  | some value => return value
  | none =>
    let values ← below
    let value ← step e values
    modify fun table => table.insert e value
    return value

mutual

/-- Visits an expression, its children first. -/
def visit : Expr → StateT (Table α) m α
  | constant value => visitNode step (constant value) (pure [])
  | symbol name => visitNode step (symbol name) (pure [])
  | add terms => visitNode step (add terms) (visitList terms)
  | mul factors => visitNode step (mul factors) (visitList factors)
  | pow base exponent => visitNode step (pow base exponent) do
    let b ← visit base
    let x ← visit exponent
    return [b, x]
  | function head arguments => visitNode step (function head arguments) (visitList arguments)

/-- Visits the elements from left to right. -/
def visitList : List Expr → StateT (Table α) m (List α)
  | [] => return []
  | e :: es => do
    let value ← visit e
    let values ← visitList es
    return value :: values

end

/-- A visit is the same for all kinds of nodes: the children from left to right, then the
node. -/
theorem visit_eq [LawfulMonad m] (e : Expr) :
    visit step e = visitNode step e (visitList step e.children) := by
  cases e with
  | pow base exponent => simp [visit, visitList, children]
  | _ => rfl

/-- Folds an expression from the leaves up, with one call of `step` for each distinct
subexpression. -/
def foldM (e : Expr) : m α := do
  let (value, _) ← (visit step e).run ∅
  return value

end Fold

/-! ## Measures and queries -/

/-- The number of nodes of the tree. -/
def size : Expr → Nat :=
  recurse fun _ sizes => sizes.foldl (· + ·) 1

/-- `1` for a leaf, one more than the deepest child otherwise. -/
def depth : Expr → Nat :=
  recurse fun _ depths => 1 + depths.foldl max 0

/-- The number of distinct subexpressions, which is how often `foldM` calls its step. -/
def visits (e : Expr) : Nat :=
  let count : StateM Nat PUnit := foldM (fun _ _ => modify (· + 1)) e
  (count.run 0).2

/-- The symbol occurs in the expression. -/
def contains (name : String) : Expr → Bool :=
  recurse fun e found =>
    match e with
    | symbol other => other == name
    | _ => found.any id

/-- Adds a name to an ascending list of distinct names. -/
def insertName (name : String) : List String → List String
  | [] => [name]
  | other :: rest =>
    match Ord.compare name other with
    | .lt => name :: other :: rest
    | .eq => other :: rest
    | .gt => other :: insertName name rest

/-- The names of the symbols that occur, ascending and without repetition. -/
def symbols : Expr → List String :=
  recurse fun e names =>
    match e with
    | symbol name => [name]
    | _ => names.foldl (fun all more => more.foldl (fun acc name => insertName name acc) all) []

end Expr

end ClosedForm
