import ClosedForm.Error
import ClosedForm.Expr.Traversal

/-!
# The pool of shared nodes

A pool stores each distinct node once. A node refers to its children by handle, and a
handle is the position of a node in the order of storing, so a node's children stand before
it. Storing a node that is already there gives the handle it has (`Pool.intern`), hence two
handles are equal exactly when they stand for the same expression.

`Pool.expr` reads an expression back from a handle and `Pool.share` stores an expression
node by node. Everything that computes with expressions works on the expressions
themselves, and stores the nodes that it makes on the way (`Storing.make`); the pool is what a
session keeps between requests.
-/

namespace ClosedForm

/-- A reference to a node of a pool. -/
abbrev Handle := Nat

/-- An expression node whose children are handles. -/
inductive Node
  | constant (value : Rat)
  | symbol (name : String)
  | add (terms : List Handle)
  | mul (factors : List Handle)
  | pow (base exponent : Handle)
  | function (head : Func) (arguments : List Handle)
  deriving DecidableEq, Hashable, Repr, Inhabited

/-- The handles a node refers to, in order. -/
def Node.children : Node → List Handle
  | constant _ => []
  | symbol _ => []
  | add terms => terms
  | mul factors => factors
  | pow base exponent => [base, exponent]
  | function _ arguments => arguments

/-- The expression with the node's head over the expressions that its handles stand for. -/
def Node.toExpr (expr : Handle → Expr) : Node → Expr
  | constant value => .constant value
  | symbol name => .symbol name
  | add terms => .add (terms.map expr)
  | mul factors => .mul (factors.map expr)
  | pow base exponent => .pow (expr base) (expr exponent)
  | function head arguments => .function head (arguments.map expr)

/-- Stored nodes, and where each of them is. -/
structure Pool where
  /-- The nodes in the order of storing. -/
  nodes : Array Node
  /-- The position of each stored node. -/
  index : Std.HashMap Node Handle

namespace Pool

/-- A pool without any node. -/
def empty : Pool := ⟨#[], ∅⟩

/-- The number of stored nodes. -/
def size (pool : Pool) : Nat :=
  pool.nodes.size

/-- The handle of a node; a node that is not there yet is stored at the end. -/
def intern (node : Node) : StateM Pool Handle := fun pool =>
  match pool.index[node]? with
  | some handle => (handle, pool)
  | none =>
    let handle := pool.nodes.size
    (handle, ⟨pool.nodes.push node, pool.index.insert node handle⟩)

/-- The pool that every session starts from: it holds `0` and `1`. -/
def initial : Pool :=
  (intern (.constant 1) (intern (.constant 0) empty).2).2

/-! ## Reading expressions back -/

/-- The expression behind a handle, followed through at most `depth` levels of children.
Whatever lies deeper, or outside the pool, is read as `0`. -/
def exprWithin (pool : Pool) : Nat → Handle → Expr
  | 0, _ => .zero
  | depth + 1, handle =>
    match pool.nodes[handle]? with
    | some node => node.toExpr (pool.exprWithin depth)
    | none => .zero

/-- The expression behind a handle. Children stand before their parents, so no path from
`handle` has more than `handle + 1` nodes. -/
def expr (pool : Pool) (handle : Handle) : Expr :=
  pool.exprWithin (handle + 1) handle

/-! ## Storing expressions -/

mutual

/-- Stores an expression, its children first, and gives its handle. -/
def share : Expr → StateM Pool Handle
  | .constant value => intern (.constant value)
  | .symbol name => intern (.symbol name)
  | .add terms => do
    let handles ← shareList terms
    intern (.add handles)
  | .mul factors => do
    let handles ← shareList factors
    intern (.mul handles)
  | .pow base exponent => do
    let b ← share base
    let x ← share exponent
    intern (.pow b x)
  | .function head arguments => do
    let handles ← shareList arguments
    intern (.function head handles)

/-- Stores the expressions from left to right. -/
def shareList : List Expr → StateM Pool (List Handle)
  | [] => return []
  | e :: es => do
    let handle ← share e
    let handles ← shareList es
    return handle :: handles

end

/-! ## Builders on handles

They collapse degenerate sums and products in the way of `Expr.sum` and `Expr.product`. -/

/-- Stores a constant. -/
def constant (value : Rat) : StateM Pool Handle :=
  intern (.constant value)

/-- Stores a symbol. -/
def symbol (name : String) : StateM Pool Handle :=
  intern (.symbol name)

/-- Stores a sum: `0` without terms, a single term as it is. -/
def sum : List Handle → StateM Pool Handle
  | [] => constant 0
  | [term] => return term
  | terms => intern (.add terms)

/-- Stores a product: `1` without factors, a single factor as it is. -/
def product : List Handle → StateM Pool Handle
  | [] => constant 1
  | [factor] => return factor
  | factors => intern (.mul factors)

/-- Stores a power. -/
def pow (base exponent : Handle) : StateM Pool Handle :=
  intern (.pow base exponent)

/-- Stores `-e` as `(-1)*e`. -/
def neg (e : Handle) : StateM Pool Handle := do
  let minusOne ← constant (-1)
  product [minusOne, e]

/-- Stores `1/e` as `e^(-1)`. -/
def inverse (e : Handle) : StateM Pool Handle := do
  let minusOne ← constant (-1)
  pow e minusOne

/-- Stores `a - b` as `a + (-1)*b`. -/
def sub (a b : Handle) : StateM Pool Handle := do
  let negated ← neg b
  sum [a, negated]

/-- Stores `a/b` as `a * b^(-1)`. -/
def div (a b : Handle) : StateM Pool Handle := do
  let divisor ← inverse b
  product [a, divisor]

/-- Stores the constant `i`. -/
def imaginaryUnit : StateM Pool Handle :=
  intern (.function .imaginaryUnit [])

end Pool

/-! ## Computations that store what they make -/

/-- A computation that stores nodes and may fail; what was stored before a failure stays. -/
abbrev Storing := ExceptT Error (StateM Pool)

namespace Storing

/-- A value on the way to which expressions were made: their nodes are stored, from left to
right, as far as they are not there yet. -/
def making {α : Type} (made : List Expr) (value : α) : Storing α := do
  let _ ← Pool.shareList made
  return value

/-- An expression that is made. -/
def make (e : Expr) : Storing Expr :=
  making [e] e

end Storing

end ClosedForm
