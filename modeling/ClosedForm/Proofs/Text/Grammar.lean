import ClosedForm.Proofs.Reading

/-!
# The grammar

`Derivation` has the derivation trees of the grammar, one constructor for each production. The
tokens of a derivation (`Derivation.lexemes`) stand at the offsets that the derivation says, and
`Derivation.value` is the formula it has: brackets and plus signs leave no trace in it.

The grammar is unambiguous (`Derivation.lexemes_injective`). A derivation can be told from its
tokens even if others follow, as long as the first of those does not carry the rule on
(`Derivation.told`).
-/

namespace ClosedForm

/-- A sign in front of a term or of an operand. -/
inductive Sign
  | plus
  | minus

namespace Sign

def mark : Sign → Token
  | plus => .mark '+'
  | minus => .mark '-'

/-- A term of a sum behind the sign. -/
def term : Sign → Formula → Formula
  | plus, f => f
  | minus, f => .subtracted f

/-- An operand behind the sign. -/
def operand : Sign → Formula → Formula
  | plus, f => f
  | minus, f => .negative f

theorem mark_injective : Function.Injective mark := by
  rintro (_ | _) (_ | _) h <;> first | rfl | simp [mark] at h

end Sign

/-- The mark between two factors. -/
inductive Join
  | times
  | dividedBy

namespace Join

def mark : Join → Token
  | times => .mark '*'
  | dividedBy => .mark '/'

/-- A factor of a product behind the mark. -/
def factor : Join → Formula → Formula
  | times, f => f
  | dividedBy, f => .divisor f

theorem mark_injective : Function.Injective mark := by
  rintro (_ | _) (_ | _) h <;> first | rfl | simp [mark] at h

end Join

/-- What a power starts with: a number, or anything else that an atom can start with. Only the
latter can stand behind another factor without a mark. -/
inductive Lead
  | number
  | other

/-- The rules of the grammar. -/
inductive Rule
  | sum
  /-- The terms of a sum after the first one. -/
  | terms
  | product
  /-- The factors of a product after the first one. -/
  | factors
  | signed
  | power (lead : Lead)
  | atom (lead : Lead)
  | arguments
  /-- The arguments of a call after the first one. -/
  | moreArguments

/-- A chain of operands has a list of formulas, any other rule has a single one. -/
@[reducible] def Rule.Value : Rule → Type
  | terms | factors | arguments | moreArguments => List Formula
  | _ => Formula

/-- The derivations by each rule. The numbers are the offsets of the marks and of the first
characters of names and numbers. -/
inductive Derivation : Rule → Type
  | sum (first : Derivation .product) (rest : Derivation .terms) : Derivation .sum
  | noTerms : Derivation .terms
  | term (offset : Nat) (sign : Sign) (first : Derivation .product) (rest : Derivation .terms) :
    Derivation .terms
  | product (first : Derivation .signed) (rest : Derivation .factors) : Derivation .product
  | noFactors : Derivation .factors
  | factor (offset : Nat) (join : Join) (first : Derivation .signed)
    (rest : Derivation .factors) : Derivation .factors
  | juxtaposed (first : Derivation (.power .other)) (rest : Derivation .factors) :
    Derivation .factors
  | signed (offset : Nat) (sign : Sign) (operand : Derivation .signed) : Derivation .signed
  | unsigned {lead : Lead} (operand : Derivation (.power lead)) : Derivation .signed
  | power {lead : Lead} (base : Derivation (.atom lead)) : Derivation (.power lead)
  | raised {lead : Lead} (base : Derivation (.atom lead)) (offset : Nat)
    (exponent : Derivation .signed) : Derivation (.power lead)
  | number (offset : Nat) (value : Rat) : Derivation (.atom .number)
  | name (offset : Nat) (text : String) (h : Formula.isFunctionName text = false) :
    Derivation (.atom .other)
  | call (offset : Nat) (function : String) (h : Formula.isFunctionName function = true)
    (opening : Nat) (args : Derivation .arguments) (closing : Nat) : Derivation (.atom .other)
  | bracketed (opening : Nat) (inner : Derivation .sum) (closing : Nat) : Derivation (.atom .other)
  | noArguments : Derivation .arguments
  | arguments (first : Derivation .sum) (rest : Derivation .moreArguments) : Derivation .arguments
  | noMoreArguments : Derivation .moreArguments
  | moreArguments (offset : Nat) (first : Derivation .sum) (rest : Derivation .moreArguments) :
    Derivation .moreArguments

namespace Derivation

/-- The tokens from left to right. -/
def lexemes : {rule : Rule} → Derivation rule → List Lexeme
  | _, sum first rest => first.lexemes ++ rest.lexemes
  | _, noTerms => []
  | _, term offset sign first rest => ⟨offset, sign.mark⟩ :: (first.lexemes ++ rest.lexemes)
  | _, product first rest => first.lexemes ++ rest.lexemes
  | _, noFactors => []
  | _, factor offset join first rest => ⟨offset, join.mark⟩ :: (first.lexemes ++ rest.lexemes)
  | _, juxtaposed first rest => first.lexemes ++ rest.lexemes
  | _, signed offset sign operand => ⟨offset, sign.mark⟩ :: operand.lexemes
  | _, unsigned operand => operand.lexemes
  | _, power base => base.lexemes
  | _, raised base offset exponent => base.lexemes ++ ⟨offset, .mark '^'⟩ :: exponent.lexemes
  | _, number offset value => [⟨offset, .number value⟩]
  | _, name offset text _ => [⟨offset, .name text⟩]
  | _, call offset function _ opening args closing =>
    ⟨offset, .name function⟩ :: ⟨opening, .mark '('⟩ :: (args.lexemes ++ [⟨closing, .mark ')'⟩])
  | _, bracketed opening inner closing =>
    ⟨opening, .mark '('⟩ :: (inner.lexemes ++ [⟨closing, .mark ')'⟩])
  | _, noArguments => []
  | _, arguments first rest => first.lexemes ++ rest.lexemes
  | _, noMoreArguments => []
  | _, moreArguments offset first rest =>
    ⟨offset, .mark ','⟩ :: (first.lexemes ++ rest.lexemes)

/-- The formula, or the formulas of a chain. -/
def value : {rule : Rule} → Derivation rule → rule.Value
  | _, sum first rest => Formula.chain .sum first.value rest.value
  | _, noTerms => ([] : List Formula)
  | _, term _ sign first rest => (sign.term first.value :: rest.value : List Formula)
  | _, product first rest => Formula.chain .product first.value rest.value
  | _, noFactors => ([] : List Formula)
  | _, factor _ join first rest => (join.factor first.value :: rest.value : List Formula)
  | _, juxtaposed first rest => (first.value :: rest.value : List Formula)
  | _, signed _ sign operand => sign.operand operand.value
  | _, unsigned operand => operand.value
  | _, power base => base.value
  | _, raised base _ exponent => Formula.power base.value exponent.value
  | _, number _ value => Formula.number value
  | _, name _ text _ => Formula.name text
  | _, call offset function _ _ args _ => Formula.call offset function args.value
  | _, bracketed _ inner _ => inner.value
  | _, noArguments => ([] : List Formula)
  | _, arguments first rest => (first.value :: rest.value : List Formula)
  | _, noMoreArguments => ([] : List Formula)
  | _, moreArguments _ first rest => (first.value :: rest.value : List Formula)

end Derivation

/-! ## First tokens and tokens behind -/

/-- A power with this lead can start with the token. -/
def Lead.Starts : Lead → Token → Prop
  | number, t => ∃ value, t = .number value
  | other, t => t = .mark '(' ∨ ∃ text, t = .name text

/-- An operand can start with the token. -/
def Token.StartsOperand (t : Token) : Prop :=
  (∃ sign : Sign, t = sign.mark) ∨ ∃ lead : Lead, lead.Starts t

/-- Right behind the tokens of a derivation by the rule, the token would belong to it too. -/
def Rule.Carries : Rule → Token → Prop
  | .atom _, _ => False
  | .power _, t | .signed, t => t = .mark '^'
  | .product, t | .factors, t => t = .mark '^' ∨ (∃ join : Join, t = join.mark) ∨ Lead.other.Starts t
  | .sum, t | .terms, t =>
    (t = .mark '^' ∨ (∃ join : Join, t = join.mark) ∨ Lead.other.Starts t) ∨
      ∃ sign : Sign, t = sign.mark
  | .arguments, t | .moreArguments, t => t ≠ .mark ')'

/-- The tokens can follow a derivation by the rule: there are none, or the first one does not
carry it on. -/
def Rule.Ends (rule : Rule) (after : List Lexeme) : Prop :=
  ∀ lexeme ∈ after.head?, ¬ rule.Carries lexeme.token

namespace Rule

variable {after : List Lexeme}

@[simp] theorem ends_nil (rule : Rule) : rule.Ends [] := by
  simp [Ends]

@[simp] theorem ends_cons (rule : Rule) (lexeme : Lexeme) :
    rule.Ends (lexeme :: after) ↔ ¬ rule.Carries lexeme.token := by
  simp [Ends]

@[simp] theorem ends_atom (lead : Lead) : (Rule.atom lead).Ends after := by
  simp [Ends, Carries]

theorem Ends.mono {weak strong : Rule} (h : strong.Ends after)
    (hcarries : ∀ t, weak.Carries t → strong.Carries t) : weak.Ends after :=
  fun lexeme hmem hcarried => h lexeme hmem (hcarries _ hcarried)

/-- A closing bracket ends everything within it. -/
@[simp] theorem not_carries_closing (rule : Rule) : ¬ rule.Carries (.mark ')') := by
  have hjoin : ¬ ∃ join : Join, Token.mark ')' = join.mark := by
    rintro ⟨_ | _, h⟩ <;> simp [Join.mark] at h
  have hsign : ¬ ∃ sign : Sign, Token.mark ')' = sign.mark := by
    rintro ⟨_ | _, h⟩ <;> simp [Sign.mark] at h
  cases rule <;> simp [Carries, Lead.Starts, hjoin, hsign]

end Rule

namespace Derivation

variable {after after' : List Lexeme}

attribute [local simp] lexemes

theorem atom_starts {lead : Lead} (d : Derivation (.atom lead)) :
    ∃ first rest, d.lexemes = first :: rest ∧ lead.Starts first.token := by
  cases d with
  | number offset value => exact ⟨_, _, rfl, value, rfl⟩
  | name offset text h => exact ⟨_, _, rfl, .inr ⟨text, rfl⟩⟩
  | call offset function h opening args closing => exact ⟨_, _, rfl, .inr ⟨function, rfl⟩⟩
  | bracketed opening inner closing => exact ⟨_, _, rfl, .inl rfl⟩

theorem power_starts {lead : Lead} (d : Derivation (.power lead)) :
    ∃ first rest, d.lexemes = first :: rest ∧ lead.Starts first.token := by
  cases d with
  | power base => exact base.atom_starts
  | raised base offset exponent =>
    obtain ⟨first, rest, hbase, hstarts⟩ := base.atom_starts
    exact ⟨first, rest ++ ⟨offset, .mark '^'⟩ :: exponent.lexemes, by simp [hbase],
      hstarts⟩

theorem signed_starts (d : Derivation .signed) :
    ∃ first rest, d.lexemes = first :: rest ∧ first.token.StartsOperand := by
  cases d with
  | signed offset sign operand => exact ⟨_, _, rfl, .inl ⟨sign, rfl⟩⟩
  | @unsigned lead operand =>
    obtain ⟨first, rest, hoperand, hstarts⟩ := operand.power_starts
    exact ⟨first, rest, hoperand, .inr ⟨lead, hstarts⟩⟩

theorem sum_starts (d : Derivation .sum) :
    ∃ first rest, d.lexemes = first :: rest ∧ first.token.StartsOperand := by
  obtain ⟨product, terms⟩ := d
  cases product with
  | product first factors =>
    obtain ⟨head, tail, hfirst, hstarts⟩ := first.signed_starts
    exact ⟨head, tail ++ (factors.lexemes ++ terms.lexemes), by simp [hfirst], hstarts⟩

/-- Powers that start with the same token have the same lead. -/
theorem lead_eq {lead lead' : Lead} (d : Derivation (.power lead)) (e : Derivation (.power lead'))
    (heq : d.lexemes ++ after = e.lexemes ++ after') : lead = lead' := by
  obtain ⟨first, rest, hd, hstarts⟩ := d.power_starts
  obtain ⟨first', rest', he, hstarts'⟩ := e.power_starts
  rw [hd, he] at heq
  obtain rfl : first = first' := (List.cons.inj heq).1
  match lead, lead', hstarts, hstarts' with
  | .number, .number, _, _ => rfl
  | .other, .other, _, _ => rfl
  | .number, .other, ⟨value, hvalue⟩, h => simp [Lead.Starts, hvalue] at h
  | .other, .number, h, ⟨value, hvalue⟩ => simp [Lead.Starts, hvalue] at h

/-- A power does not start with a sign. -/
theorem power_ne_sign {lead : Lead} (d : Derivation (.power lead)) {offset : Nat} {sign : Sign}
    {rest : List Lexeme} : d.lexemes ++ after ≠ ⟨offset, sign.mark⟩ :: rest := by
  obtain ⟨first, others, hd, hstarts⟩ := d.power_starts
  rw [hd]
  intro heq
  obtain rfl := (List.cons.inj heq).1
  cases lead <;> cases sign <;> simp [Lead.Starts, Sign.mark] at hstarts

/-- A power does not start with a mark between factors. -/
theorem power_ne_join {lead : Lead} (d : Derivation (.power lead)) {offset : Nat} {join : Join}
    {rest : List Lexeme} : d.lexemes ++ after ≠ ⟨offset, join.mark⟩ :: rest := by
  obtain ⟨first, others, hd, hstarts⟩ := d.power_starts
  rw [hd]
  intro heq
  obtain rfl := (List.cons.inj heq).1
  cases lead <;> cases join <;> simp [Lead.Starts, Join.mark] at hstarts

/-- The terms behind a product do not carry it on. -/
theorem ends_terms (d : Derivation .terms) (h : Rule.terms.Ends after) :
    Rule.product.Ends (d.lexemes ++ after) := by
  cases d with
  | noTerms => exact h.mono fun t ht => .inl ht
  | term offset sign =>
    cases sign <;> simp [Rule.Carries, Lead.Starts, Sign.mark] <;>
      rintro (_ | _) <;> simp [Join.mark]

/-- The factors behind a signed factor do not carry it on. -/
theorem ends_factors (d : Derivation .factors) (h : Rule.factors.Ends after) :
    Rule.signed.Ends (d.lexemes ++ after) := by
  cases d with
  | noFactors => exact h.mono fun t ht => .inl ht
  | factor offset join => cases join <;> simp [Rule.Carries, Join.mark]
  | juxtaposed first rest =>
    obtain ⟨head, others, hfirst, hbracket | ⟨text, hname⟩⟩ := first.power_starts
    · simp [hfirst, Rule.Carries, hbracket]
    · simp [hfirst, Rule.Carries, hname]

/-- The arguments behind a sum do not carry it on. -/
theorem ends_moreArguments (d : Derivation .moreArguments) (h : Rule.moreArguments.Ends after) :
    Rule.sum.Ends (d.lexemes ++ after) := by
  cases d with
  | noMoreArguments => exact h.mono fun t ht heq => by simp [heq] at ht
  | moreArguments offset =>
    simp [Rule.Carries, Lead.Starts]
    constructor <;> rintro (_ | _) <;> simp [Join.mark, Sign.mark]

/-- Where no term can start there is none. -/
theorem eq_noTerms (d : Derivation .terms) (heq : d.lexemes ++ after = after')
    (h : Rule.terms.Ends after') : d = noTerms := by
  subst heq
  cases d with
  | noTerms => rfl
  | term offset sign => exact absurd (.inr ⟨sign, rfl⟩) (h _ rfl)

/-- Where no factor can start there is none. -/
theorem eq_noFactors (d : Derivation .factors) (heq : d.lexemes ++ after = after')
    (h : Rule.factors.Ends after') : d = noFactors := by
  subst heq
  cases d with
  | noFactors => rfl
  | factor offset join => exact absurd (.inr (.inl ⟨join, rfl⟩)) (h _ rfl)
  | juxtaposed first rest =>
    obtain ⟨head, others, hfirst, hstarts⟩ := first.power_starts
    exact absurd (.inr (.inr hstarts)) (h head (by simp [hfirst]))

/-- Where a call is closed there are no arguments. -/
theorem eq_noArguments (d : Derivation .arguments) (heq : d.lexemes ++ after = after')
    (h : Rule.arguments.Ends after') : d = noArguments := by
  subst heq
  cases d with
  | noArguments => rfl
  | arguments first rest =>
    obtain ⟨head, tail, hfirst, hstarts⟩ := first.sum_starts
    have hclosing := h head (by simp [hfirst])
    simp only [Rule.Carries, not_not] at hclosing
    rw [hclosing] at hstarts
    obtain ⟨_ | _, hsign⟩ | ⟨_ | _, hlead⟩ := hstarts
    · simp [Sign.mark] at hsign
    · simp [Sign.mark] at hsign
    · simp [Lead.Starts] at hlead
    · simp [Lead.Starts] at hlead

theorem eq_noMoreArguments (d : Derivation .moreArguments) (heq : d.lexemes ++ after = after')
    (h : Rule.moreArguments.Ends after') : d = noMoreArguments := by
  subst heq
  cases d with
  | noMoreArguments => rfl
  | moreArguments => simp [Rule.Carries] at h

/-! ## The grammar is unambiguous -/

/-- The tokens tell the derivation, and where they end, whatever can follow them. -/
def Told {rule : Rule} (d : Derivation rule) : Prop :=
  ∀ ⦃e : Derivation rule⦄ ⦃after after' : List Lexeme⦄, rule.Ends after → rule.Ends after' →
    d.lexemes ++ after = e.lexemes ++ after' → d = e ∧ after = after'

namespace Told

/-- Two derivations, one behind the other. -/
theorem pair {r s : Rule} {first first' : Derivation r} {rest rest' : Derivation s}
    (hfirst : first.Told) (hrest : rest.Told) (hends : r.Ends (rest.lexemes ++ after))
    (hends' : r.Ends (rest'.lexemes ++ after')) (h : s.Ends after) (h' : s.Ends after')
    (heq : first.lexemes ++ rest.lexemes ++ after = first'.lexemes ++ rest'.lexemes ++ after') :
    first = first' ∧ rest = rest' ∧ after = after' := by
  rw [List.append_assoc, List.append_assoc] at heq
  obtain ⟨rfl, htail⟩ := hfirst hends hends' heq
  obtain ⟨rfl, rfl⟩ := hrest h h' htail
  exact ⟨rfl, rfl, rfl⟩

/-- A derivation in front of a closing bracket. -/
theorem closed {r : Rule} {inner inner' : Derivation r} {closing closing' : Nat} (hinner : inner.Told)
    (heq : inner.lexemes ++ [⟨closing, .mark ')'⟩] ++ after =
      inner'.lexemes ++ [⟨closing', .mark ')'⟩] ++ after') :
    inner = inner' ∧ closing = closing' ∧ after = after' := by
  rw [List.append_assoc, List.append_assoc] at heq
  obtain ⟨rfl, htail⟩ := hinner (by simp) (by simp) heq
  cases htail
  exact ⟨rfl, rfl, rfl⟩

theorem sum {first : Derivation .product} {rest : Derivation .terms} (hfirst : first.Told)
    (hrest : rest.Told) : (sum first rest).Told := by
  intro e after after' h h' heq
  cases e with
  | sum first' rest' =>
    obtain ⟨rfl, rfl, rfl⟩ := pair hfirst hrest (rest.ends_terms h) (rest'.ends_terms h') h h' heq
    exact ⟨rfl, rfl⟩

theorem noTerms : noTerms.Told := by
  intro e after after' h h' heq
  obtain rfl := e.eq_noTerms heq.symm h
  exact ⟨rfl, heq⟩

theorem term {first : Derivation .product} {rest : Derivation .terms} (offset : Nat) (sign : Sign)
    (hfirst : first.Told) (hrest : rest.Told) : (term offset sign first rest).Told := by
  intro e after after' h h' heq
  cases e with
  | noTerms => cases eq_noTerms _ heq h'
  | term offset' sign' first' rest' =>
    obtain ⟨hmark, htail⟩ := List.cons.inj heq
    obtain ⟨rfl, hsign⟩ := Lexeme.mk.inj hmark
    obtain rfl := Sign.mark_injective hsign
    obtain ⟨rfl, rfl, rfl⟩ := pair hfirst hrest (rest.ends_terms h) (rest'.ends_terms h') h h' htail
    exact ⟨rfl, rfl⟩

theorem product {first : Derivation .signed} {rest : Derivation .factors} (hfirst : first.Told)
    (hrest : rest.Told) : (product first rest).Told := by
  intro e after after' h h' heq
  cases e with
  | product first' rest' =>
    obtain ⟨rfl, rfl, rfl⟩ := pair hfirst hrest (rest.ends_factors h) (rest'.ends_factors h') h h' heq
    exact ⟨rfl, rfl⟩

theorem noFactors : noFactors.Told := by
  intro e after after' h h' heq
  obtain rfl := e.eq_noFactors heq.symm h
  exact ⟨rfl, heq⟩

theorem factor {first : Derivation .signed} {rest : Derivation .factors} (offset : Nat) (join : Join)
    (hfirst : first.Told) (hrest : rest.Told) : (factor offset join first rest).Told := by
  intro e after after' h h' heq
  cases e with
  | noFactors => cases eq_noFactors _ heq h'
  | factor offset' join' first' rest' =>
    obtain ⟨hmark, htail⟩ := List.cons.inj heq
    obtain ⟨rfl, hjoin⟩ := Lexeme.mk.inj hmark
    obtain rfl := Join.mark_injective hjoin
    obtain ⟨rfl, rfl, rfl⟩ := pair hfirst hrest (rest.ends_factors h) (rest'.ends_factors h') h h' htail
    exact ⟨rfl, rfl⟩
  | juxtaposed first' rest' =>
    have hassoc := List.append_assoc first'.lexemes rest'.lexemes after'
    exact absurd (hassoc.symm.trans heq.symm) first'.power_ne_join

theorem juxtaposed {first : Derivation (.power .other)} {rest : Derivation .factors}
    (hfirst : first.Told) (hrest : rest.Told) : (juxtaposed first rest).Told := by
  intro e after after' h h' heq
  cases e with
  | noFactors => cases eq_noFactors _ heq h'
  | factor offset' join' first' rest' =>
    have hassoc := List.append_assoc first.lexemes rest.lexemes after
    exact absurd (hassoc.symm.trans heq) first.power_ne_join
  | juxtaposed first' rest' =>
    obtain ⟨rfl, rfl, rfl⟩ := pair hfirst hrest (rest.ends_factors h) (rest'.ends_factors h') h h' heq
    exact ⟨rfl, rfl⟩

theorem signed {operand : Derivation .signed} (offset : Nat) (sign : Sign) (hoperand : operand.Told) :
    (signed offset sign operand).Told := by
  intro e after after' h h' heq
  cases e with
  | signed offset' sign' operand' =>
    obtain ⟨hmark, htail⟩ := List.cons.inj heq
    obtain ⟨rfl, hsign⟩ := Lexeme.mk.inj hmark
    obtain rfl := Sign.mark_injective hsign
    obtain ⟨rfl, rfl⟩ := hoperand h h' htail
    exact ⟨rfl, rfl⟩
  | unsigned operand' => exact absurd heq.symm operand'.power_ne_sign

theorem unsigned {lead : Lead} {operand : Derivation (.power lead)} (hoperand : operand.Told) :
    (unsigned operand).Told := by
  intro e after after' h h' heq
  cases e with
  | signed offset sign operand' => exact absurd heq operand.power_ne_sign
  | unsigned operand' =>
    obtain rfl := lead_eq operand operand' heq
    obtain ⟨rfl, rfl⟩ := hoperand h h' heq
    exact ⟨rfl, rfl⟩

theorem power {lead : Lead} {base : Derivation (.atom lead)} (hbase : base.Told) :
    (power base).Told := by
  intro e after after' h h' heq
  cases e with
  | power base' =>
    obtain ⟨rfl, rfl⟩ := hbase (Rule.ends_atom _) (Rule.ends_atom _) heq
    exact ⟨rfl, rfl⟩
  | raised base' offset exponent =>
    have hassoc := List.append_assoc base'.lexemes (⟨offset, .mark '^'⟩ :: exponent.lexemes) after'
    obtain ⟨-, rfl⟩ := hbase (Rule.ends_atom _) (Rule.ends_atom _) (heq.trans hassoc)
    exact absurd rfl (h _ rfl)

theorem raised {lead : Lead} {base : Derivation (.atom lead)} {exponent : Derivation .signed}
    (offset : Nat) (hbase : base.Told) (hexponent : exponent.Told) :
    (raised base offset exponent).Told := by
  intro e after after' h h' heq
  replace heq := (List.append_assoc ..).symm.trans heq
  cases e with
  | power base' =>
    obtain ⟨-, rfl⟩ := hbase (Rule.ends_atom _) (Rule.ends_atom _) heq
    exact absurd rfl (h' _ rfl)
  | raised base' offset' exponent' =>
    have hassoc := List.append_assoc base'.lexemes (⟨offset', .mark '^'⟩ :: exponent'.lexemes) after'
    obtain ⟨rfl, htail⟩ := hbase (Rule.ends_atom _) (Rule.ends_atom _) (heq.trans hassoc)
    obtain ⟨hmark, hbehind⟩ := List.cons.inj htail
    obtain ⟨rfl, -⟩ := Lexeme.mk.inj hmark
    obtain ⟨rfl, rfl⟩ := hexponent h h' hbehind
    exact ⟨rfl, rfl⟩

theorem number (offset : Nat) (value : Rat) : (number offset value).Told := by
  intro e after after' h h' heq
  cases e with
  | number offset' value' =>
    cases heq
    exact ⟨rfl, rfl⟩

theorem name (offset : Nat) (text : String) (hname : Formula.isFunctionName text = false) :
    (name offset text hname).Told := by
  intro e after after' h h' heq
  cases e with
  | name offset' text' hname' =>
    cases heq
    exact ⟨rfl, rfl⟩
  | call offset' function hcall opening args closing =>
    obtain ⟨hfirst, -⟩ := List.cons.inj heq
    cases hfirst
    rw [hcall] at hname
    cases hname
  | bracketed => cases (List.cons.inj heq).1

theorem call {args : Derivation .arguments} (offset : Nat) (function : String)
    (hcall : Formula.isFunctionName function = true) (opening : Nat) (hargs : args.Told)
    (closing : Nat) : (call offset function hcall opening args closing).Told := by
  intro e after after' h h' heq
  cases e with
  | name offset' text hname =>
    obtain ⟨hfirst, -⟩ := List.cons.inj heq
    cases hfirst
    rw [hcall] at hname
    cases hname
  | call offset' function' hcall' opening' args' closing' =>
    obtain ⟨hfirst, htail⟩ := List.cons.inj heq
    cases hfirst
    obtain ⟨hbracket, hbehind⟩ := List.cons.inj htail
    obtain ⟨rfl, -⟩ := Lexeme.mk.inj hbracket
    obtain ⟨rfl, rfl, rfl⟩ := closed hargs hbehind
    exact ⟨rfl, rfl⟩
  | bracketed => cases (List.cons.inj heq).1

theorem bracketed {inner : Derivation .sum} (opening : Nat) (hinner : inner.Told) (closing : Nat) :
    (bracketed opening inner closing).Told := by
  intro e after after' h h' heq
  cases e with
  | name | call => cases (List.cons.inj heq).1
  | bracketed opening' inner' closing' =>
    obtain ⟨hbracket, htail⟩ := List.cons.inj heq
    obtain ⟨rfl, -⟩ := Lexeme.mk.inj hbracket
    obtain ⟨rfl, rfl, rfl⟩ := closed hinner htail
    exact ⟨rfl, rfl⟩

theorem noArguments : noArguments.Told := by
  intro e after after' h h' heq
  obtain rfl := e.eq_noArguments heq.symm h
  exact ⟨rfl, heq⟩

theorem arguments {first : Derivation .sum} {rest : Derivation .moreArguments} (hfirst : first.Told)
    (hrest : rest.Told) : (arguments first rest).Told := by
  intro e after after' h h' heq
  cases e with
  | noArguments => cases eq_noArguments _ heq h'
  | arguments first' rest' =>
    obtain ⟨rfl, rfl, rfl⟩ :=
      pair hfirst hrest (rest.ends_moreArguments h) (rest'.ends_moreArguments h') h h' heq
    exact ⟨rfl, rfl⟩

theorem noMoreArguments : noMoreArguments.Told := by
  intro e after after' h h' heq
  obtain rfl := e.eq_noMoreArguments heq.symm h
  exact ⟨rfl, heq⟩

theorem moreArguments {first : Derivation .sum} {rest : Derivation .moreArguments} (offset : Nat)
    (hfirst : first.Told) (hrest : rest.Told) : (moreArguments offset first rest).Told := by
  intro e after after' h h' heq
  cases e with
  | noMoreArguments => cases eq_noMoreArguments _ heq h'
  | moreArguments offset' first' rest' =>
    obtain ⟨hcomma, htail⟩ := List.cons.inj heq
    obtain ⟨rfl, -⟩ := Lexeme.mk.inj hcomma
    obtain ⟨rfl, rfl, rfl⟩ :=
      pair hfirst hrest (rest.ends_moreArguments h) (rest'.ends_moreArguments h') h h' htail
    exact ⟨rfl, rfl⟩

end Told

/-- Every derivation can be told from its tokens. -/
theorem told {rule : Rule} (d : Derivation rule) : d.Told := by
  induction d with
  | sum _ _ hfirst hrest => exact .sum hfirst hrest
  | noTerms => exact .noTerms
  | term offset sign _ _ hfirst hrest => exact .term offset sign hfirst hrest
  | product _ _ hfirst hrest => exact .product hfirst hrest
  | noFactors => exact .noFactors
  | factor offset join _ _ hfirst hrest => exact .factor offset join hfirst hrest
  | juxtaposed _ _ hfirst hrest => exact .juxtaposed hfirst hrest
  | signed offset sign _ hoperand => exact .signed offset sign hoperand
  | unsigned _ hoperand => exact .unsigned hoperand
  | power _ hbase => exact .power hbase
  | raised _ offset _ hbase hexponent => exact .raised offset hbase hexponent
  | number offset value => exact .number offset value
  | name offset text hname => exact .name offset text hname
  | call offset function hcall opening _ closing hargs =>
    exact .call offset function hcall opening hargs closing
  | bracketed opening _ closing hinner => exact .bracketed opening hinner closing
  | noArguments => exact .noArguments
  | arguments _ _ hfirst hrest => exact .arguments hfirst hrest
  | noMoreArguments => exact .noMoreArguments
  | moreArguments offset _ _ hfirst hrest => exact .moreArguments offset hfirst hrest

/-- No two derivations have the same tokens. -/
theorem lexemes_injective : Function.Injective (lexemes : Derivation .sum → List Lexeme) :=
  fun d e heq => (d.told (Rule.ends_nil _) (Rule.ends_nil _) (by simpa using heq)).1

end Derivation

end ClosedForm
