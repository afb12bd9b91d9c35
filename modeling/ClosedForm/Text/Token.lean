import ClosedForm.Rational.Decimal

/-!
# Tokens of source text

Source text is a sequence of numbers, names and single-character marks, each with the byte
offset where it starts. Blanks separate tokens and mean nothing else. A token is always the
longest one that starts at its place. A character that starts no token is a mark of its
own, which no rule of the grammar accepts.
-/

namespace ClosedForm

/-- The smallest unit of source text. -/
inductive Token
  | number (value : Rat)
  | name (text : String)
  | mark (character : Char)
  deriving DecidableEq, Repr, Inhabited

/-- A token and the byte offset of its first character. -/
structure Lexeme where
  offset : Nat
  token : Token
  deriving DecidableEq, Repr, Inhabited

namespace Token

/-- Space, tab, carriage return and line feed. -/
def isBlank (c : Char) : Bool :=
  c == ' ' || c == '\t' || c == '\r' || c == '\n'

/-- The decimal digits. -/
def isDigit (c : Char) : Bool :=
  '0' ≤ c && c ≤ '9'

/-- ASCII letters and the underscore. -/
def startsName (c : Char) : Bool :=
  ('a' ≤ c && c ≤ 'z') || ('A' ≤ c && c ≤ 'Z') || c == '_'

/-- The characters that carry a name on. -/
def continuesName (c : Char) : Bool :=
  startsName c || isDigit c

/-- The length of the number at the front of the text: digits with an optional point and
more digits, or a point and digits. There is no number if the length is zero. -/
def numberLength (text : List Char) : Nat :=
  let whole := (text.takeWhile isDigit).length
  match text.drop whole with
  | '.' :: rest =>
    let fraction := (rest.takeWhile isDigit).length
    if whole = 0 && fraction = 0 then 0 else whole + 1 + fraction
  | _ => whole

/-- The token at the front of a text that starts with `c`, which is no blank, and how many
characters it has. -/
def first (c : Char) (rest : List Char) : Token × Nat :=
  let length := numberLength (c :: rest)
  if 0 < length then
    (.number ((Rational.ofDecimal? ((c :: rest).take length)).getD 0), length)
  else if startsName c then
    let tail := rest.takeWhile continuesName
    (.name (String.ofList (c :: tail)), 1 + tail.length)
  else (.mark c, 1)

/-- The number of bytes of a text. -/
def byteLength (text : List Char) : Nat :=
  text.foldl (fun bytes c => bytes + c.utf8Size) 0

/-- The tokens of a text that starts at `offset`. Each step takes at least one character, so
the text's length is enough fuel. -/
def scanFrom : Nat → Nat → List Char → List Lexeme
  | 0, _, _ => []
  | _, _, [] => []
  | fuel + 1, offset, c :: rest =>
    if isBlank c then scanFrom fuel (offset + 1) rest
    else
      let (token, length) := first c rest
      ⟨offset, token⟩ ::
        scanFrom fuel (offset + byteLength ((c :: rest).take length)) ((c :: rest).drop length)

/-- The tokens of a text. -/
def scan (text : List Char) : List Lexeme :=
  scanFrom text.length 0 text

end Token

end ClosedForm
