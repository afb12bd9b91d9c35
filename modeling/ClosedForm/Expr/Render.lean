import ClosedForm.Expr.Traversal
import ClosedForm.Rational.Text

/-!
# Infix text of expressions

`Expr.render` writes an expression with as few brackets as the grammar allows. Terms of a
sum come in descending degree, negative powers move below a fraction line, the exponent
`1/2` is written as a square root, and a negative coefficient becomes a minus sign.

What a parent needs to know of a child is collected in a `Layout`: the text itself, the
text without the leading minus sign, and the text below a fraction line.
-/

namespace ClosedForm

/-! ## Binding levels -/

/-- How tightly a text holds together, loosest first. -/
inductive Level
  | sum
  | product
  | negation
  | power
  | atom
  deriving DecidableEq, Repr, Inhabited

/-- Position of the level, counted from the loosest. -/
def Level.rank : Level → Nat
  | sum => 1
  | product => 2
  | negation => 3
  | power => 4
  | atom => 5

/-- A text and its binding level. -/
structure Phrase where
  text : String
  level : Level
  deriving DecidableEq, Repr, Inhabited

namespace Phrase

/-- A text in brackets. -/
def parenthesize (text : String) : String :=
  "(" ++ text ++ ")"

/-- The text for a place that demands the given level: bracketed if it binds less. -/
def bracket (demanded : Level) (phrase : Phrase) : String :=
  if phrase.level.rank < demanded.rank then parenthesize phrase.text else phrase.text

/-- A rational in written form. A minus sign and a fraction line bind less than an atom. -/
def ofRat (q : Rat) : Phrase :=
  ⟨Rational.text q,
    if q < 0 then .negation else if Rational.isInteger q then .atom else .product⟩

/-- Puts a minus sign in front. The sign binds tighter than `*`, so a product that opens
with a bracket is wrapped whole: `-((x + 1)*y)` rather than `-(x + 1)*y`. -/
def negated (phrase : Phrase) : String :=
  let body := phrase.bracket .product
  if phrase.level = .product && body.front? == some '(' then "-" ++ parenthesize body
  else "-" ++ body

end Phrase

/-! ## Layouts -/

/-- What the text of an expression looks like to the expression around it. -/
structure Layout where
  /-- The expression itself. -/
  phrase : Phrase
  /-- The expression with the sign of its negative coefficient dropped, if it has one. -/
  unsigned : Option Phrase
  /-- The reciprocal of a power with a negative constant exponent, for use as a divisor. -/
  divisor : Option String
  deriving Inhabited

namespace Layout

/-- A layout with nothing to drop and nothing to divide by. -/
def ofPhrase (phrase : Phrase) : Layout :=
  ⟨phrase, none, none⟩

/-- One half. -/
def half : Rat := mkRat 1 2

/-- A square root. -/
def squareRoot (radicand : Phrase) : String :=
  "sqrt(" ++ radicand.text ++ ")"

/-- The power of a base to a positive rational exponent, for use as a divisor. -/
def divisorText (base : Phrase) (exponent : Rat) : String :=
  if exponent = 1 then base.bracket .power
  else if exponent = half then squareRoot base
  else base.bracket .atom ++ "^" ++ (Phrase.ofRat exponent).bracket .power

/-- A factor that divides by a bare sum. -/
def isReciprocalSum : Expr → Bool
  | .pow base (.constant exponent) => base.isAdd && exponent == -1
  | _ => false

/-- A product with a non-negative coefficient, as a numerator over a denominator.

`1/(2*(x + 1))` would read back as `1/(2*x + 2)`, so a fractional coefficient stays whole
in the numerator when a bare sum is below the line. -/
def productPhrase (coefficient : Rat) (factors : List (Expr × Layout)) : Phrase :=
  let wholeCoefficient := coefficient.den ≠ 1 && factors.any fun f => isReciprocalSum f.1
  let above :=
    (if wholeCoefficient then [Phrase.parenthesize (Rational.text coefficient)]
      else if coefficient.num = 1 then [] else [toString coefficient.num]) ++
    factors.filterMap fun f =>
      if f.2.divisor.isSome then none else some (f.2.phrase.bracket .negation)
  let below :=
    (if wholeCoefficient || coefficient.den = 1 then [] else [toString coefficient.den]) ++
    factors.filterMap fun f => f.2.divisor
  let numerator := if above.isEmpty then "1" else "*".intercalate above
  match below, factors with
  | [], [factor] =>
    if above.length = 1 && coefficient = 1 then factor.2.phrase else ⟨numerator, .product⟩
  | [], _ => ⟨numerator, .product⟩
  | [divisor], _ => ⟨numerator ++ "/" ++ divisor, .product⟩
  | divisors, _ => ⟨numerator ++ "/" ++ Phrase.parenthesize ("*".intercalate divisors), .product⟩

/-- A non-negative coefficient times factors, of which there may be none. -/
def scaledPhrase (coefficient : Rat) (factors : List (Expr × Layout)) : Phrase :=
  if factors.isEmpty then Phrase.ofRat coefficient else productPhrase coefficient factors

/-- A coefficient times factors. -/
def ofProduct (coefficient : Rat) (factors : List (Expr × Layout)) : Layout :=
  if coefficient < 0 then
    let unsigned := scaledPhrase (-coefficient) factors
    ⟨⟨unsigned.negated, .product⟩, some unsigned, none⟩
  else ofPhrase (scaledPhrase coefficient factors)

/-- The terms of a sum joined by their signs. -/
def joinTerms : List Layout → String
  | [] => ""
  | first :: rest =>
    let opening := match first.unsigned with
      | some unsigned => unsigned.negated
      | none => first.phrase.bracket .product
    rest.foldl (fun text term =>
      match term.unsigned with
      | some unsigned => text ++ " - " ++ unsigned.bracket .product
      | none => text ++ " + " ++ term.phrase.bracket .product) opening

end Layout

namespace Expr

/-- The degree by which the terms of a sum are put in order. -/
def displayDegree : Expr → Rat :=
  recurse fun e degrees =>
    match e, degrees with
    | constant _, _ => 0
    | symbol _, _ => 1
    | function _ _, _ => 1
    | pow _ (constant exponent), base :: _ => base * exponent
    | pow _ _, _ => 1
    | mul _, _ => degrees.foldl (· + ·) 0
    | add _, [] => 0
    | add _, first :: rest => rest.foldl (fun top d => if top < d then d else top) first

/-- The layout of an expression from the layouts of its children. -/
def layoutStep (e : Expr) (children : List Layout) : Layout :=
  match e, children with
  | constant value, _ =>
    ⟨Phrase.ofRat value, if value < 0 then some (Phrase.ofRat (-value)) else none, none⟩
  | symbol name, _ => .ofPhrase ⟨name, .atom⟩
  | add terms, _ =>
    let byDegree := (terms.map displayDegree).zip children
    let ordered := byDegree.mergeSort fun a b => decide (b.1 ≤ a.1)
    .ofPhrase ⟨Layout.joinTerms (ordered.map (·.2)), .sum⟩
  | mul (constant coefficient :: factors), _ :: layouts =>
    .ofProduct coefficient (factors.zip layouts)
  | mul factors, _ => .ofProduct 1 (factors.zip children)
  | pow base exponent, b :: x :: _ =>
    match exponent with
    | constant value =>
      if value < 0 then
        let divisor := Layout.divisorText b.phrase (-value)
        let layout : Layout := ⟨default, none, some divisor⟩
        { layout with phrase := Layout.productPhrase 1 [(pow base exponent, layout)] }
      else if value = Layout.half then .ofPhrase ⟨Layout.squareRoot b.phrase, .atom⟩
      else .ofPhrase ⟨b.phrase.bracket .atom ++ "^" ++ x.phrase.bracket .power, .power⟩
    | _ => .ofPhrase ⟨b.phrase.bracket .atom ++ "^" ++ x.phrase.bracket .power, .power⟩
  | pow _ _, _ => default
  | function .imaginaryUnit _, _ => .ofPhrase ⟨"i", .atom⟩
  | function head _, _ =>
    .ofPhrase ⟨head.name ++ Phrase.parenthesize (", ".intercalate (children.map (·.phrase.text))),
      .atom⟩

/-- The layout of an expression. -/
def layout : Expr → Layout :=
  recurse layoutStep

/-- The expression in infix notation. -/
def render (e : Expr) : String :=
  e.layout.phrase.text

end Expr

end ClosedForm
