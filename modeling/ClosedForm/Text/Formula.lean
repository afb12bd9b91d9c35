import ClosedForm.Error
import ClosedForm.Text.Token

/-!
# Formulas

A formula is what source text says, before any part of it becomes an expression. From the
loosest to the tightest the operators are `+` and `-`; `*`, `/` and juxtaposition, as in
`2x` or `3(x + 1)`; the signs; and `^`, which groups to the right:

* a sum is a product followed by any number of `+` or `-` and a product;
* a product is a signed factor followed by any number of `*` or `/` and a signed factor, or
  of powers that start with a name or a bracket;
* a signed factor is a sign and a signed factor, or a power;
* a power is an atom, alone or followed by `^` and a signed factor;
* an atom is a number, a name, a function's name with its arguments in brackets, or a sum in
  brackets.

`Formula.parse` reads a whole text. An error carries the byte offset of the token that
cannot stand where it is, or the length of the text if more should have followed.
-/

namespace ClosedForm

/-- The structure of a source text. -/
inductive Formula
  | number (value : Rat)
  | name (text : String)
  /-- An operand behind a sign. -/
  | negative (operand : Formula)
  /-- A chain of two or more terms. -/
  | sum (terms : List Formula)
  /-- A term of a chain that is subtracted. -/
  | subtracted (term : Formula)
  /-- A chain of two or more factors. -/
  | product (factors : List Formula)
  /-- A factor of a chain that divides. -/
  | divisor (factor : Formula)
  | power (base exponent : Formula)
  /-- A function's name, the offset where it stands, and the arguments. -/
  | call (offset : Nat) (function : String) (arguments : List Formula)
  deriving Repr, Inhabited

namespace Formula

/-- The name of the square root, which is a power and not a function of its own. -/
def squareRootName : String := "sqrt"

/-- The name of the imaginary unit. -/
def imaginaryUnitName : String := "i"

/-- The name has to be followed by arguments. -/
def isFunctionName (name : String) : Bool :=
  name == squareRootName || (Func.ofName? name).isSome

/-! ## The grammar -/

/-- What a rule of the grammar reads from the front of the tokens, and the tokens it leaves. -/
abbrev Parsed (α : Type) := α × List Lexeme

/-- Wraps two or more operands of a chain; a lone operand stays as it is. -/
def chain (wrap : List Formula → Formula) (first : Formula) : List Formula → Formula
  | [] => first
  | rest => wrap (first :: rest)

/-- An operand can start with this token. -/
def startsOperand : List Lexeme → Bool
  | ⟨_, .number _⟩ :: _ => true
  | ⟨_, .name _⟩ :: _ => true
  | ⟨_, .mark c⟩ :: _ => c == '(' || c == '+' || c == '-'
  | [] => false

/-- The token starts a factor that is multiplied without a sign. -/
def startsJuxtaposed : List Lexeme → Bool
  | ⟨_, .name _⟩ :: _ => true
  | ⟨_, .mark c⟩ :: _ => c == '('
  | _ => false

section Grammar

/- The offset of the end of the text. -/
variable (finish : Nat)

/-- A fault at the next token. -/
def faultAt {α : Type} (fault : ParseFault) : List Lexeme → Except Error α
  | lexeme :: _ => .error (.parse lexeme.offset fault)
  | [] => .error (.parse finish fault)

/-- Reads one given mark. -/
def expectMark (c : Char) (fault : ParseFault) : List Lexeme → Except Error (List Lexeme)
  | ⟨offset, .mark d⟩ :: rest =>
    if d = c then .ok rest else .error (.parse offset fault)
  | tokens => faultAt finish fault tokens

mutual

/-- Reads a sum. The first argument of this and the following rules is fuel, which goes down
by one from rule to rule; `fuelFor` says how much is enough. -/
def readSum : Nat → List Lexeme → Except Error (Parsed Formula)
  | 0, tokens => faultAt finish .expectedOperand tokens
  | fuel + 1, tokens => do
    let (first, tokens) ← readProduct fuel tokens
    let (rest, tokens) ← readTerms fuel tokens
    return (chain .sum first rest, tokens)

/-- Reads the terms after the first one. -/
def readTerms : Nat → List Lexeme → Except Error (Parsed (List Formula))
  | fuel + 1, ⟨_, .mark '+'⟩ :: tokens => do
    let (term, tokens) ← readProduct fuel tokens
    let (rest, tokens) ← readTerms fuel tokens
    return (term :: rest, tokens)
  | fuel + 1, ⟨_, .mark '-'⟩ :: tokens => do
    let (term, tokens) ← readProduct fuel tokens
    let (rest, tokens) ← readTerms fuel tokens
    return (.subtracted term :: rest, tokens)
  | _, tokens => .ok ([], tokens)

/-- Reads a product. -/
def readProduct : Nat → List Lexeme → Except Error (Parsed Formula)
  | 0, tokens => faultAt finish .expectedOperand tokens
  | fuel + 1, tokens => do
    let (first, tokens) ← readSigned fuel tokens
    let (rest, tokens) ← readFactors fuel tokens
    return (chain .product first rest, tokens)

/-- Reads the factors after the first one. -/
def readFactors : Nat → List Lexeme → Except Error (Parsed (List Formula))
  | fuel + 1, ⟨_, .mark '*'⟩ :: tokens => do
    let (factor, tokens) ← readSigned fuel tokens
    let (rest, tokens) ← readFactors fuel tokens
    return (factor :: rest, tokens)
  | fuel + 1, ⟨_, .mark '/'⟩ :: tokens => do
    let (factor, tokens) ← readSigned fuel tokens
    let (rest, tokens) ← readFactors fuel tokens
    return (.divisor factor :: rest, tokens)
  | fuel + 1, tokens =>
    if startsJuxtaposed tokens then do
      let (factor, tokens) ← readPower fuel tokens
      let (rest, tokens) ← readFactors fuel tokens
      return (factor :: rest, tokens)
    else .ok ([], tokens)
  | 0, tokens => .ok ([], tokens)

/-- Reads a power with any number of signs in front. -/
def readSigned : Nat → List Lexeme → Except Error (Parsed Formula)
  | fuel + 1, ⟨_, .mark '-'⟩ :: tokens => do
    let (operand, tokens) ← readSigned fuel tokens
    return (.negative operand, tokens)
  | fuel + 1, ⟨_, .mark '+'⟩ :: tokens => readSigned fuel tokens
  | fuel + 1, tokens => readPower fuel tokens
  | 0, tokens => faultAt finish .expectedOperand tokens

/-- Reads an atom and the exponent behind it. -/
def readPower : Nat → List Lexeme → Except Error (Parsed Formula)
  | 0, tokens => faultAt finish .expectedOperand tokens
  | fuel + 1, tokens => do
    match ← readAtom fuel tokens with
    | (base, ⟨_, .mark '^'⟩ :: tokens) =>
      let (exponent, tokens) ← readSigned fuel tokens
      return (.power base exponent, tokens)
    | (base, tokens) => return (base, tokens)

/-- Reads a number, a name, a function with its arguments or a sum in brackets. -/
def readAtom : Nat → List Lexeme → Except Error (Parsed Formula)
  | _ + 1, ⟨_, .number value⟩ :: tokens => .ok (.number value, tokens)
  | fuel + 1, ⟨offset, .name text⟩ :: tokens =>
    if isFunctionName text then do
      let tokens ← expectMark finish '(' .expectedOpenParen tokens
      let (arguments, tokens) ← readArguments fuel tokens
      let tokens ← expectMark finish ')' .expectedCloseParen tokens
      return (.call offset text arguments, tokens)
    else .ok (.name text, tokens)
  | fuel + 1, ⟨_, .mark '('⟩ :: tokens => do
    let (inner, tokens) ← readSum fuel tokens
    let tokens ← expectMark finish ')' .expectedCloseParen tokens
    return (inner, tokens)
  | _, tokens => faultAt finish .expectedOperand tokens

/-- Reads sums separated by commas, possibly none. A comma without an operand behind it is
left where it is. -/
def readArguments : Nat → List Lexeme → Except Error (Parsed (List Formula))
  | 0, tokens => .ok ([], tokens)
  | fuel + 1, tokens =>
    if startsOperand tokens then do
      let (argument, tokens) ← readSum fuel tokens
      let (rest, tokens) ← readMoreArguments fuel tokens
      return (argument :: rest, tokens)
    else .ok ([], tokens)

/-- Reads the arguments after the first one. -/
def readMoreArguments : Nat → List Lexeme → Except Error (Parsed (List Formula))
  | fuel + 1, ⟨offset, .mark ','⟩ :: tokens =>
    if startsOperand tokens then do
      let (argument, tokens) ← readSum fuel tokens
      let (rest, tokens) ← readMoreArguments fuel tokens
      return (argument :: rest, tokens)
    else .ok ([], ⟨offset, .mark ','⟩ :: tokens)
  | _, tokens => .ok ([], tokens)

end

end Grammar

/-- Fuel for reading a sum from `count` tokens: at most seven rules follow each other before a
token is taken. -/
def fuelFor (count : Nat) : Nat :=
  8 * (count + 1)

/-- The formula that a text states. -/
def parse (text : String) : Except Error Formula := do
  let tokens := Token.scan text.toList
  let finish := text.utf8ByteSize
  let (formula, rest) ← readSum finish (fuelFor tokens.length) tokens
  match rest with
  | [] => return formula
  | _ => faultAt finish .expectedOperator rest

end Formula

end ClosedForm
