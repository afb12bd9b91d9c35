import ClosedForm.Pool
import ClosedForm.Text.Formula

/-!
# From source text to pooled expressions

`Formula.store` puts the expression that a formula states into a pool, operands first and
from left to right. Nothing is simplified, except that a minus sign in front of a number
makes a negative constant. Only here does a wrong number of arguments show, so the operands
stored before the fault stay in the pool.

`Pool.parse` reads an expression, and `Pool.parseEquation` an equation `a = b` as the
difference `a - b`.
-/

namespace ClosedForm

namespace Formula

/-- The function that a name applied to `arguments` stands for, stored over them. -/
def storeCall (offset : Nat) (name : String) (arguments : List Handle) : Storing Handle :=
  if name == squareRootName then
    match arguments with
    | [radicand] => do
      let half ← Pool.constant (mkRat 1 2)
      Pool.pow radicand half
    | _ => throw (.parse offset (.wrongArity squareRootName 1 arguments.length))
  else
    match Func.ofName? name with
    | some head =>
      if arguments.length = head.arity then Pool.intern (.function head arguments)
      else throw (.parse offset (.wrongArity head.name head.arity arguments.length))
    | none => throw (.parse offset .expectedOperand)

mutual

/-- Stores the expression that a formula states. -/
def store : Formula → Storing Handle
  | number value => Pool.constant value
  | name text => if text == imaginaryUnitName then Pool.imaginaryUnit else Pool.symbol text
  | negative (number value) => Pool.constant (-value)
  | negative operand => do
    let e ← store operand
    Pool.neg e
  | sum terms => do
    let handles ← storeList terms
    Pool.sum handles
  | subtracted term => do
    let e ← store term
    Pool.neg e
  | product factors => do
    let handles ← storeList factors
    Pool.product handles
  | divisor factor => do
    let e ← store factor
    Pool.inverse e
  | power base exponent => do
    let b ← store base
    let x ← store exponent
    Pool.pow b x
  | call offset function arguments => do
    let handles ← storeList arguments
    storeCall offset function handles

/-- Stores the formulas from left to right. -/
def storeList : List Formula → Storing (List Handle)
  | [] => return []
  | f :: fs => do
    let handle ← store f
    let handles ← storeList fs
    return handle :: handles

end

end Formula

namespace Pool

/-- Reads an expression. -/
def parse (text : String) : Storing Handle := do
  let formula ← Formula.parse text
  formula.store

/-- Moves the offset of a parse error to the right. -/
def shiftOffset (distance : Nat) : Error → Error
  | .parse offset fault => .parse (distance + offset) fault
  | e => e

/-- Reads `a = b` as `a - b`; a text without an equality sign is an expression equal to
zero. A second equality sign is a fault at its own place. -/
def parseEquation (text : String) : Storing Handle := do
  let left := text.toList.takeWhile (· ≠ '=')
  match text.toList.dropWhile (· ≠ '=') with
  | [] => parse text
  | _ :: right =>
    let start := Token.byteLength left + 1
    if right.contains '=' then
      throw (.parse (start + Token.byteLength (right.takeWhile (· ≠ '='))) .repeatedEquals)
    else
      let a ← parse (String.ofList left)
      let b ← tryCatch (parse (String.ofList right)) fun e => throw (shiftOffset start e)
      sub a b

end Pool

end ClosedForm
