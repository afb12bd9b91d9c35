import ClosedForm.Proofs.Results
import ClosedForm.Proofs.Text.Grammar

/-!
# Reading derivations

Each rule of the grammar has a function that reads it (`Rule.read`). From the tokens of a derivation
the function reads the formula of the derivation and leaves the tokens behind
(`Derivation.read_lexemes`), and whatever it reads is the formula of a derivation of the tokens that
it takes (`sound`). So a text states a formula exactly if a derivation of its tokens has it
(`Formula.parse_eq_ok`).
-/

namespace ClosedForm

open Formula

variable {finish fuel : Nat} {after : List Lexeme}

/-- Reads a derivation by the rule. -/
def Rule.read (finish : Nat) : (rule : Rule) → Nat → List Lexeme → Except Error (Parsed rule.Value)
  | .sum => readSum finish
  | .terms => readTerms finish
  | .product => readProduct finish
  | .factors => readFactors finish
  | .signed => readSigned finish
  | .power _ => readPower finish
  | .atom _ => readAtom finish
  | .arguments => readArguments finish
  | .moreArguments => readMoreArguments finish

/-- How much less than eight for each token is fuel enough: each rule takes one more than the next
one that starts at the same token. -/
def Rule.slack : Rule → Nat
  | .atom _ => 7
  | .power _ => 6
  | .signed => 5
  | .product => 4
  | .sum => 3
  | .arguments => 2
  | .terms | .factors | .moreArguments => 0

/-! ## Where a chain ends -/

namespace Formula

theorem readTerms_of_ends (h : Rule.terms.Ends after) :
    readTerms finish fuel after = .ok ([], after) := by
  unfold readTerms
  split
  · exact absurd (.inr ⟨.plus, rfl⟩) (h _ rfl)
  · exact absurd (.inr ⟨.minus, rfl⟩) (h _ rfl)
  · rfl

theorem readFactors_of_ends (h : Rule.factors.Ends after) :
    readFactors finish fuel after = .ok ([], after) := by
  unfold readFactors
  split
  · exact absurd (.inr (.inl ⟨.times, rfl⟩)) (h _ rfl)
  · exact absurd (.inr (.inl ⟨.dividedBy, rfl⟩)) (h _ rfl)
  · next fuel _ _ =>
    have hjuxtaposed : ¬ startsJuxtaposed after := by
      intro hstarts
      match after, hstarts with
      | ⟨_, .name text⟩ :: _, _ => exact h _ rfl (.inr (.inr (.inr ⟨text, rfl⟩)))
      | ⟨_, .mark c⟩ :: _, hstarts =>
        obtain rfl : c = '(' := by simpa [startsJuxtaposed] using hstarts
        exact h _ rfl (.inr (.inr (.inl rfl)))
    exact if_neg hjuxtaposed
  · rfl

theorem readMoreArguments_of_ends (h : Rule.moreArguments.Ends after) :
    readMoreArguments finish fuel after = .ok ([], after) := by
  unfold readMoreArguments
  split
  · exact absurd (by simp [Rule.Carries]) (h _ rfl)
  · rfl

theorem readArguments_of_ends (h : Rule.arguments.Ends after) :
    readArguments finish fuel after = .ok ([], after) := by
  cases fuel with
  | zero => rfl
  | succ fuel =>
    have hclosed : ¬ startsOperand after := by
      match after, h with
      | [], _ => simp [startsOperand]
      | lexeme :: rest, h =>
        obtain ⟨offset, token⟩ := lexeme
        obtain rfl : token = .mark ')' := by simpa [Rule.Carries] using h
        simp [startsOperand]
    rw [readArguments, if_neg hclosed]

theorem startsOperand_of_starts {first : Lexeme} (rest : List Lexeme)
    (h : first.token.StartsOperand) : startsOperand (first :: rest) = true := by
  obtain ⟨offset, token⟩ := first
  obtain ⟨_ | _, rfl⟩ | ⟨_ | _, hlead⟩ := h
  · rfl
  · rfl
  · obtain ⟨value, rfl⟩ := hlead
    rfl
  · obtain rfl | ⟨text, rfl⟩ := hlead <;> rfl

/-- A factor is juxtaposed if its first token says so. -/
theorem readFactors_juxtaposed {tokens : List Lexeme} (h : ∃ first rest, tokens = first :: rest ∧
    Lead.other.Starts first.token) :
    readFactors finish (fuel + 1) (tokens ++ after) = (do
      let (factor, tokens) ← readPower finish fuel (tokens ++ after)
      let (rest, tokens) ← readFactors finish fuel tokens
      return (factor :: rest, tokens)) := by
  obtain ⟨⟨offset, token⟩, rest, rfl, hstarts⟩ := h
  obtain rfl | ⟨text, rfl⟩ := hstarts <;> rfl

/-- Tokens that do not start with a sign are read as a power. -/
theorem readSigned_unsigned {tokens : List Lexeme} {lead : Lead}
    (h : ∃ first rest, tokens = first :: rest ∧ lead.Starts first.token) :
    readSigned finish (fuel + 1) (tokens ++ after) = readPower finish fuel (tokens ++ after) := by
  obtain ⟨⟨offset, token⟩, rest, rfl, hstarts⟩ := h
  cases lead with
  | number =>
    obtain ⟨value, rfl⟩ := hstarts
    rfl
  | other => obtain rfl | ⟨text, rfl⟩ := hstarts <;> rfl

/-- An atom without an exponent behind it is a power. -/
theorem readPower_of_ends {tokens : List Lexeme} {base : Formula} {lead : Lead}
    (hbase : readAtom finish fuel tokens = .ok (base, after)) (h : (Rule.power lead).Ends after) :
    readPower finish (fuel + 1) tokens = .ok (base, after) := by
  refine bind_eq_ok.mpr ⟨_, hbase, ?_⟩
  split
  · next heq =>
    cases heq
    exact absurd rfl (h _ rfl)
  · next heq =>
    cases heq
    rfl

end Formula

/-! ## Completeness -/

namespace Derivation

theorem startsOperand_lexemes (d : Derivation .sum) (after : List Lexeme) :
    startsOperand (d.lexemes ++ after) = true := by
  obtain ⟨first, rest, hd, hstarts⟩ := d.sum_starts
  rw [hd]
  exact startsOperand_of_starts _ hstarts

theorem length_pos {rule : Rule} {d : Derivation rule} {p : Token → Prop}
    (h : ∃ first rest, d.lexemes = first :: rest ∧ p first.token) : 1 ≤ d.lexemes.length := by
  obtain ⟨first, rest, hd, -⟩ := h
  simp [hd]

theorem length_pos_product (d : Derivation .product) : 1 ≤ d.lexemes.length := by
  cases d with
  | product first rest =>
    have := length_pos first.signed_starts
    simp only [lexemes, List.length_append]
    omega

/-- With this fuel the formula of the derivation is read from its tokens, whatever can follow. -/
def Read (finish fuel : Nat) {rule : Rule} (d : Derivation rule) : Prop :=
  ∀ ⦃after : List Lexeme⦄, rule.Ends after →
    rule.read finish fuel (d.lexemes ++ after) = .ok (d.value, after)

namespace Read

theorem sum {first : Derivation .product} {rest : Derivation .terms} (hfirst : first.Read finish fuel)
    (hrest : rest.Read finish fuel) : (sum first rest).Read finish (fuel + 1) := by
  intro after h
  simp only [lexemes, List.append_assoc]
  exact bind_eq_ok.mpr ⟨_, hfirst (rest.ends_terms h), bind_eq_ok.mpr ⟨_, hrest h, rfl⟩⟩

theorem noTerms : noTerms.Read finish fuel :=
  fun _ h => readTerms_of_ends h

theorem term {first : Derivation .product} {rest : Derivation .terms} (offset : Nat) (sign : Sign)
    (hfirst : first.Read finish fuel) (hrest : rest.Read finish fuel) :
    (term offset sign first rest).Read finish (fuel + 1) := by
  intro after h
  simp only [lexemes, List.cons_append, List.append_assoc]
  cases sign <;>
    exact bind_eq_ok.mpr ⟨_, hfirst (rest.ends_terms h), bind_eq_ok.mpr ⟨_, hrest h, rfl⟩⟩

theorem product {first : Derivation .signed} {rest : Derivation .factors}
    (hfirst : first.Read finish fuel) (hrest : rest.Read finish fuel) :
    (product first rest).Read finish (fuel + 1) := by
  intro after h
  simp only [lexemes, List.append_assoc]
  exact bind_eq_ok.mpr ⟨_, hfirst (rest.ends_factors h), bind_eq_ok.mpr ⟨_, hrest h, rfl⟩⟩

theorem noFactors : noFactors.Read finish fuel :=
  fun _ h => readFactors_of_ends h

theorem factor {first : Derivation .signed} {rest : Derivation .factors} (offset : Nat) (join : Join)
    (hfirst : first.Read finish fuel) (hrest : rest.Read finish fuel) :
    (factor offset join first rest).Read finish (fuel + 1) := by
  intro after h
  simp only [lexemes, List.cons_append, List.append_assoc]
  cases join <;>
    exact bind_eq_ok.mpr ⟨_, hfirst (rest.ends_factors h), bind_eq_ok.mpr ⟨_, hrest h, rfl⟩⟩

theorem juxtaposed {first : Derivation (.power .other)} {rest : Derivation .factors}
    (hfirst : first.Read finish fuel) (hrest : rest.Read finish fuel) :
    (juxtaposed first rest).Read finish (fuel + 1) := by
  intro after h
  have hends : (Rule.power .other).Ends (rest.lexemes ++ after) := rest.ends_factors h
  simp only [lexemes, List.append_assoc]
  refine (readFactors_juxtaposed first.power_starts).trans ?_
  exact bind_eq_ok.mpr ⟨_, hfirst hends, bind_eq_ok.mpr ⟨_, hrest h, rfl⟩⟩

theorem signed {operand : Derivation .signed} (offset : Nat) (sign : Sign)
    (hoperand : operand.Read finish fuel) : (signed offset sign operand).Read finish (fuel + 1) := by
  intro after h
  cases sign with
  | plus => exact hoperand h
  | minus => exact bind_eq_ok.mpr ⟨_, hoperand h, rfl⟩

theorem unsigned {lead : Lead} {operand : Derivation (.power lead)}
    (hoperand : operand.Read finish fuel) : (unsigned operand).Read finish (fuel + 1) :=
  fun _ h => (readSigned_unsigned operand.power_starts).trans (hoperand h)

theorem power {lead : Lead} {base : Derivation (.atom lead)} (hbase : base.Read finish fuel) :
    (power base).Read finish (fuel + 1) :=
  fun _ h => readPower_of_ends (hbase (Rule.ends_atom _)) h

theorem raised {lead : Lead} {base : Derivation (.atom lead)} {exponent : Derivation .signed}
    (offset : Nat) (hbase : base.Read finish fuel) (hexponent : exponent.Read finish fuel) :
    (raised base offset exponent).Read finish (fuel + 1) := by
  intro after h
  simp only [lexemes, List.append_assoc, List.cons_append]
  exact bind_eq_ok.mpr ⟨_, hbase (Rule.ends_atom _), bind_eq_ok.mpr ⟨_, hexponent h, rfl⟩⟩

theorem number (offset : Nat) (value : Rat) : (number offset value).Read finish (fuel + 1) :=
  fun _ _ => rfl

theorem name (offset : Nat) (text : String) (hname : Formula.isFunctionName text = false) :
    (name offset text hname).Read finish (fuel + 1) :=
  fun _ _ => if_neg (by simp [hname])

theorem call {args : Derivation .arguments} (offset : Nat) (function : String)
    (hcall : Formula.isFunctionName function = true) (opening : Nat)
    (hargs : args.Read finish fuel) (closing : Nat) :
    (call offset function hcall opening args closing).Read finish (fuel + 1) := by
  intro after _
  simp only [lexemes, List.append_assoc, List.cons_append]
  refine (if_pos hcall).trans ?_
  have hclosed := @hargs (⟨closing, .mark ')'⟩ :: after) (by simp)
  exact bind_eq_ok.mpr ⟨_, rfl, bind_eq_ok.mpr ⟨_, hclosed, bind_eq_ok.mpr ⟨_, rfl, rfl⟩⟩⟩

theorem bracketed {inner : Derivation .sum} (opening : Nat) (hinner : inner.Read finish fuel)
    (closing : Nat) : (bracketed opening inner closing).Read finish (fuel + 1) := by
  intro after _
  simp only [lexemes, List.append_assoc, List.cons_append]
  have hclosed := @hinner (⟨closing, .mark ')'⟩ :: after) (by simp)
  exact bind_eq_ok.mpr ⟨_, hclosed, bind_eq_ok.mpr ⟨_, rfl, rfl⟩⟩

theorem noArguments : noArguments.Read finish fuel :=
  fun _ h => readArguments_of_ends h

theorem arguments {first : Derivation .sum} {rest : Derivation .moreArguments}
    (hfirst : first.Read finish fuel) (hrest : rest.Read finish fuel) :
    (arguments first rest).Read finish (fuel + 1) := by
  intro after h
  simp only [lexemes, List.append_assoc]
  refine (if_pos (first.startsOperand_lexemes _)).trans ?_
  exact bind_eq_ok.mpr ⟨_, hfirst (rest.ends_moreArguments h), bind_eq_ok.mpr ⟨_, hrest h, rfl⟩⟩

theorem noMoreArguments : noMoreArguments.Read finish fuel :=
  fun _ h => readMoreArguments_of_ends h

theorem moreArguments {first : Derivation .sum} {rest : Derivation .moreArguments} (offset : Nat)
    (hfirst : first.Read finish fuel) (hrest : rest.Read finish fuel) :
    (moreArguments offset first rest).Read finish (fuel + 1) := by
  intro after h
  simp only [lexemes, List.cons_append, List.append_assoc]
  refine (if_pos (first.startsOperand_lexemes _)).trans ?_
  exact bind_eq_ok.mpr ⟨_, hfirst (rest.ends_moreArguments h), bind_eq_ok.mpr ⟨_, hrest h, rfl⟩⟩

end Read

/-- From the tokens of a derivation its formula is read, whatever can follow. -/
theorem read_lexemes {rule : Rule} (d : Derivation rule)
    (hfuel : 8 * d.lexemes.length ≤ fuel + rule.slack) : d.Read finish fuel := by
  -- Every node takes one of the fuel, and leaves enough for its parts.
  induction d generalizing fuel with
  | sum first rest ihFirst ihRest =>
    have hpos := first.length_pos_product
    simp only [lexemes, List.length_append, Rule.slack] at hfuel
    obtain ⟨fuel, rfl⟩ : ∃ n, fuel = n + 1 := ⟨fuel - 1, by omega⟩
    have hfirst := @ihFirst fuel (by simp only [Rule.slack]; omega)
    have hrest := @ihRest fuel (by simp only [Rule.slack]; omega)
    exact .sum hfirst hrest
  | noTerms => exact .noTerms
  | term offset sign first rest ihFirst ihRest =>
    simp only [lexemes, List.length_cons, List.length_append, Rule.slack] at hfuel
    obtain ⟨fuel, rfl⟩ : ∃ n, fuel = n + 1 := ⟨fuel - 1, by omega⟩
    have hfirst := @ihFirst fuel (by simp only [Rule.slack]; omega)
    have hrest := @ihRest fuel (by simp only [Rule.slack]; omega)
    exact .term offset sign hfirst hrest
  | product first rest ihFirst ihRest =>
    have hpos := length_pos first.signed_starts
    simp only [lexemes, List.length_append, Rule.slack] at hfuel
    obtain ⟨fuel, rfl⟩ : ∃ n, fuel = n + 1 := ⟨fuel - 1, by omega⟩
    have hfirst := @ihFirst fuel (by simp only [Rule.slack]; omega)
    have hrest := @ihRest fuel (by simp only [Rule.slack]; omega)
    exact .product hfirst hrest
  | noFactors => exact .noFactors
  | factor offset join first rest ihFirst ihRest =>
    simp only [lexemes, List.length_cons, List.length_append, Rule.slack] at hfuel
    obtain ⟨fuel, rfl⟩ : ∃ n, fuel = n + 1 := ⟨fuel - 1, by omega⟩
    have hfirst := @ihFirst fuel (by simp only [Rule.slack]; omega)
    have hrest := @ihRest fuel (by simp only [Rule.slack]; omega)
    exact .factor offset join hfirst hrest
  | juxtaposed first rest ihFirst ihRest =>
    have hpos := length_pos first.power_starts
    simp only [lexemes, List.length_append, Rule.slack] at hfuel
    obtain ⟨fuel, rfl⟩ : ∃ n, fuel = n + 1 := ⟨fuel - 1, by omega⟩
    have hfirst := @ihFirst fuel (by simp only [Rule.slack]; omega)
    have hrest := @ihRest fuel (by simp only [Rule.slack]; omega)
    exact .juxtaposed hfirst hrest
  | signed offset sign operand ih =>
    simp only [lexemes, List.length_cons, Rule.slack] at hfuel
    obtain ⟨fuel, rfl⟩ : ∃ n, fuel = n + 1 := ⟨fuel - 1, by omega⟩
    have hoperand := @ih fuel (by simp only [Rule.slack]; omega)
    exact .signed offset sign hoperand
  | unsigned operand ih =>
    have hpos := length_pos operand.power_starts
    simp only [lexemes, Rule.slack] at hfuel
    obtain ⟨fuel, rfl⟩ : ∃ n, fuel = n + 1 := ⟨fuel - 1, by omega⟩
    have hoperand := @ih fuel (by simp only [Rule.slack]; omega)
    exact .unsigned hoperand
  | power base ih =>
    have hpos := length_pos base.atom_starts
    simp only [lexemes, Rule.slack] at hfuel
    obtain ⟨fuel, rfl⟩ : ∃ n, fuel = n + 1 := ⟨fuel - 1, by omega⟩
    have hbase := @ih fuel (by simp only [Rule.slack]; omega)
    exact .power hbase
  | raised base offset exponent ihBase ihExponent =>
    have hpos := length_pos base.atom_starts
    simp only [lexemes, List.length_append, List.length_cons, Rule.slack] at hfuel
    obtain ⟨fuel, rfl⟩ : ∃ n, fuel = n + 1 := ⟨fuel - 1, by omega⟩
    have hbase := @ihBase fuel (by simp only [Rule.slack]; omega)
    have hexponent := @ihExponent fuel (by simp only [Rule.slack]; omega)
    exact .raised offset hbase hexponent
  | number offset value =>
    simp only [lexemes, List.length_cons, List.length_nil, Rule.slack] at hfuel
    obtain ⟨fuel, rfl⟩ : ∃ n, fuel = n + 1 := ⟨fuel - 1, by omega⟩
    exact .number offset value
  | name offset text hname =>
    simp only [lexemes, List.length_cons, List.length_nil, Rule.slack] at hfuel
    obtain ⟨fuel, rfl⟩ : ∃ n, fuel = n + 1 := ⟨fuel - 1, by omega⟩
    exact .name offset text hname
  | call offset function hcall opening args closing ih =>
    simp only [lexemes, List.length_cons, List.length_append, List.length_nil, Rule.slack] at hfuel
    obtain ⟨fuel, rfl⟩ : ∃ n, fuel = n + 1 := ⟨fuel - 1, by omega⟩
    have hargs := @ih fuel (by simp only [Rule.slack]; omega)
    exact .call offset function hcall opening hargs closing
  | bracketed opening inner closing ih =>
    simp only [lexemes, List.length_cons, List.length_append, List.length_nil, Rule.slack] at hfuel
    obtain ⟨fuel, rfl⟩ : ∃ n, fuel = n + 1 := ⟨fuel - 1, by omega⟩
    have hinner := @ih fuel (by simp only [Rule.slack]; omega)
    exact .bracketed opening hinner closing
  | noArguments => exact .noArguments
  | arguments first rest ihFirst ihRest =>
    have hpos := length_pos first.sum_starts
    simp only [lexemes, List.length_append, Rule.slack] at hfuel
    obtain ⟨fuel, rfl⟩ : ∃ n, fuel = n + 1 := ⟨fuel - 1, by omega⟩
    have hfirst := @ihFirst fuel (by simp only [Rule.slack]; omega)
    have hrest := @ihRest fuel (by simp only [Rule.slack]; omega)
    exact .arguments hfirst hrest
  | noMoreArguments => exact .noMoreArguments
  | moreArguments offset first rest ihFirst ihRest =>
    simp only [lexemes, List.length_cons, List.length_append, Rule.slack] at hfuel
    obtain ⟨fuel, rfl⟩ : ∃ n, fuel = n + 1 := ⟨fuel - 1, by omega⟩
    have hfirst := @ihFirst fuel (by simp only [Rule.slack]; omega)
    have hrest := @ihRest fuel (by simp only [Rule.slack]; omega)
    exact .moreArguments offset hfirst hrest

end Derivation

/-! ## Soundness -/

/-- The tokens are those of a derivation with the value, and the ones behind. -/
def Rule.Derives (rule : Rule) (tokens : List Lexeme) (value : rule.Value)
    (after : List Lexeme) : Prop :=
  ∃ d : Derivation rule, tokens = d.lexemes ++ after ∧ d.value = value

/-- With this fuel every function reads what a derivation by its rule has. -/
structure Sound (finish fuel : Nat) : Prop where
  sum {tokens after : List Lexeme} {f : Formula} :
    readSum finish fuel tokens = .ok (f, after) → Rule.sum.Derives tokens f after
  terms {tokens after : List Lexeme} {fs : List Formula} :
    readTerms finish fuel tokens = .ok (fs, after) → Rule.terms.Derives tokens fs after
  product {tokens after : List Lexeme} {f : Formula} :
    readProduct finish fuel tokens = .ok (f, after) → Rule.product.Derives tokens f after
  factors {tokens after : List Lexeme} {fs : List Formula} :
    readFactors finish fuel tokens = .ok (fs, after) → Rule.factors.Derives tokens fs after
  signed {tokens after : List Lexeme} {f : Formula} :
    readSigned finish fuel tokens = .ok (f, after) → Rule.signed.Derives tokens f after
  power {tokens after : List Lexeme} {f : Formula} :
    readPower finish fuel tokens = .ok (f, after) → ∃ lead, (Rule.power lead).Derives tokens f after
  atom {tokens after : List Lexeme} {f : Formula} :
    readAtom finish fuel tokens = .ok (f, after) → ∃ lead, (Rule.atom lead).Derives tokens f after
  arguments {tokens after : List Lexeme} {fs : List Formula} :
    readArguments finish fuel tokens = .ok (fs, after) → Rule.arguments.Derives tokens fs after
  moreArguments {tokens after : List Lexeme} {fs : List Formula} :
    readMoreArguments finish fuel tokens = .ok (fs, after) →
      Rule.moreArguments.Derives tokens fs after

theorem faultAt_ne_ok {α : Type} {fault : ParseFault} {value : α} (tokens : List Lexeme) :
    faultAt finish fault tokens ≠ .ok value := by
  cases tokens <;> simp [faultAt]

namespace Sound

variable {tokens : List Lexeme} {f : Formula} {fs : List Formula}

theorem readSum_succ (h : Sound finish fuel)
    (hread : readSum finish (fuel + 1) tokens = .ok (f, after)) :
    Rule.sum.Derives tokens f after := by
  rw [readSum, bind_eq_ok] at hread
  obtain ⟨⟨first, tokens'⟩, hfirst, hread⟩ := hread
  obtain ⟨⟨rest, tokens''⟩, hrest, hread⟩ := bind_eq_ok.mp hread
  cases hread
  obtain ⟨d, rfl, rfl⟩ := h.product hfirst
  obtain ⟨e, rfl, rfl⟩ := h.terms hrest
  exact ⟨.sum d e, by simp [Derivation.lexemes], rfl⟩

/-- The terms behind a sign, once the sign has been read. -/
theorem terms_of_sign (h : Sound finish fuel) (offset : Nat) (sign : Sign)
    (hread : (do
      let (term, tokens) ← readProduct finish fuel tokens
      let (rest, tokens) ← readTerms finish fuel tokens
      return (sign.term term :: rest, tokens) : Except Error (Parsed (List Formula))) =
        .ok (fs, after)) :
    Rule.terms.Derives (⟨offset, sign.mark⟩ :: tokens) fs after := by
  obtain ⟨⟨term, next⟩, hterm, hread⟩ := bind_eq_ok.mp hread
  obtain ⟨⟨rest, last⟩, hrest, hread⟩ := bind_eq_ok.mp hread
  cases hread
  obtain ⟨d, rfl, rfl⟩ := h.product hterm
  obtain ⟨e, rfl, rfl⟩ := h.terms hrest
  exact ⟨.term offset sign d e, by simp [Derivation.lexemes], rfl⟩

theorem readTerms_succ (h : Sound finish fuel)
    (hread : readTerms finish (fuel + 1) tokens = .ok (fs, after)) :
    Rule.terms.Derives tokens fs after := by
  unfold readTerms at hread
  split at hread
  · next offset tokens heq =>
    cases heq
    exact h.terms_of_sign offset .plus hread
  · next offset tokens heq =>
    cases heq
    exact h.terms_of_sign offset .minus hread
  · cases hread
    exact ⟨.noTerms, rfl, rfl⟩

theorem readProduct_succ (h : Sound finish fuel)
    (hread : readProduct finish (fuel + 1) tokens = .ok (f, after)) :
    Rule.product.Derives tokens f after := by
  rw [readProduct, bind_eq_ok] at hread
  obtain ⟨⟨first, next⟩, hfirst, hread⟩ := hread
  obtain ⟨⟨rest, last⟩, hrest, hread⟩ := bind_eq_ok.mp hread
  cases hread
  obtain ⟨d, rfl, rfl⟩ := h.signed hfirst
  obtain ⟨e, rfl, rfl⟩ := h.factors hrest
  exact ⟨.product d e, by simp [Derivation.lexemes], rfl⟩

/-- The factors behind a mark, once the mark has been read. -/
theorem factors_of_join (h : Sound finish fuel) (offset : Nat) (join : Join)
    (hread : (do
      let (factor, tokens) ← readSigned finish fuel tokens
      let (rest, tokens) ← readFactors finish fuel tokens
      return (join.factor factor :: rest, tokens) : Except Error (Parsed (List Formula))) =
        .ok (fs, after)) :
    Rule.factors.Derives (⟨offset, join.mark⟩ :: tokens) fs after := by
  obtain ⟨⟨factor, next⟩, hfactor, hread⟩ := bind_eq_ok.mp hread
  obtain ⟨⟨rest, last⟩, hrest, hread⟩ := bind_eq_ok.mp hread
  cases hread
  obtain ⟨d, rfl, rfl⟩ := h.signed hfactor
  obtain ⟨e, rfl, rfl⟩ := h.factors hrest
  exact ⟨.factor offset join d e, by simp [Derivation.lexemes], rfl⟩

/-- A power that can stand behind a factor without a mark does not start with a number. -/
theorem lead_eq_other {lead : Lead} (d : Derivation (.power lead))
    (h : startsJuxtaposed (d.lexemes ++ after) = true) : lead = .other := by
  obtain ⟨⟨offset, token⟩, rest, hd, hstarts⟩ := d.power_starts
  cases lead with
  | other => rfl
  | number =>
    obtain ⟨value, rfl⟩ := hstarts
    rw [hd] at h
    cases h

theorem readFactors_succ (h : Sound finish fuel)
    (hread : readFactors finish (fuel + 1) tokens = .ok (fs, after)) :
    Rule.factors.Derives tokens fs after := by
  unfold readFactors at hread
  split at hread
  · next offset tokens heq =>
    cases heq
    exact h.factors_of_join offset .times hread
  · next offset tokens heq =>
    cases heq
    exact h.factors_of_join offset .dividedBy hread
  · next heq _ _ =>
    cases heq
    split at hread
    · next hstarts =>
      obtain ⟨⟨factor, next⟩, hfactor, hread⟩ := bind_eq_ok.mp hread
      obtain ⟨⟨rest, last⟩, hrest, hread⟩ := bind_eq_ok.mp hread
      cases hread
      obtain ⟨lead, d, rfl, rfl⟩ := h.power hfactor
      obtain ⟨e, rfl, rfl⟩ := h.factors hrest
      obtain rfl := lead_eq_other d hstarts
      exact ⟨.juxtaposed d e, by simp [Derivation.lexemes], rfl⟩
    · cases hread
      exact ⟨.noFactors, rfl, rfl⟩
  · cases hread
    exact ⟨.noFactors, rfl, rfl⟩

theorem readSigned_succ (h : Sound finish fuel)
    (hread : readSigned finish (fuel + 1) tokens = .ok (f, after)) :
    Rule.signed.Derives tokens f after := by
  unfold readSigned at hread
  split at hread
  · next offset tokens heq =>
    cases heq
    obtain ⟨⟨operand, next⟩, hoperand, hread⟩ := bind_eq_ok.mp hread
    cases hread
    obtain ⟨d, rfl, rfl⟩ := h.signed hoperand
    exact ⟨.signed offset .minus d, rfl, rfl⟩
  · next offset tokens heq =>
    cases heq
    obtain ⟨d, rfl, rfl⟩ := h.signed hread
    exact ⟨.signed offset .plus d, rfl, rfl⟩
  · next heq _ _ =>
    cases heq
    obtain ⟨lead, d, rfl, rfl⟩ := h.power hread
    exact ⟨.unsigned d, rfl, rfl⟩
  · exact absurd hread (faultAt_ne_ok _)

theorem readPower_succ (h : Sound finish fuel)
    (hread : readPower finish (fuel + 1) tokens = .ok (f, after)) :
    ∃ lead, (Rule.power lead).Derives tokens f after := by
  rw [readPower, bind_eq_ok] at hread
  obtain ⟨⟨base, behind⟩, hbase, hread⟩ := hread
  obtain ⟨lead, d, rfl, rfl⟩ := h.atom hbase
  refine ⟨lead, ?_⟩
  split at hread
  · next offset tokens heq =>
    cases heq
    obtain ⟨⟨exponent, last⟩, hexponent, hread⟩ := bind_eq_ok.mp hread
    cases hread
    obtain ⟨e, rfl, rfl⟩ := h.signed hexponent
    exact ⟨.raised d offset e, by simp [Derivation.lexemes], rfl⟩
  · next heq =>
    cases heq
    cases hread
    exact ⟨.power d, rfl, rfl⟩

theorem eq_of_expectMark {c : Char} {fault : ParseFault}
    (h : expectMark finish c fault tokens = .ok after) :
    ∃ offset, tokens = ⟨offset, .mark c⟩ :: after := by
  unfold expectMark at h
  split at h
  · next offset d rest =>
    split at h
    · next heq =>
      cases h
      exact ⟨offset, by rw [heq]⟩
    · cases h
  · exact absurd h (faultAt_ne_ok _)

theorem readAtom_succ (h : Sound finish fuel)
    (hread : readAtom finish (fuel + 1) tokens = .ok (f, after)) :
    ∃ lead, (Rule.atom lead).Derives tokens f after := by
  unfold readAtom at hread
  split at hread
  · next offset value tokens heq =>
    cases heq
    cases hread
    exact ⟨.number, .number offset value, rfl, rfl⟩
  · next offset text tokens heq =>
    cases heq
    refine ⟨.other, ?_⟩
    split at hread
    · next hfunction =>
      obtain ⟨inside, hopening, hread⟩ := bind_eq_ok.mp hread
      obtain ⟨⟨args, behind⟩, hargs, hread⟩ := bind_eq_ok.mp hread
      obtain ⟨last, hclosing, hread⟩ := bind_eq_ok.mp hread
      cases hread
      obtain ⟨opening, rfl⟩ := eq_of_expectMark hopening
      obtain ⟨closing, rfl⟩ := eq_of_expectMark hclosing
      obtain ⟨d, rfl, rfl⟩ := h.arguments hargs
      exact ⟨.call offset text hfunction opening d closing, by simp [Derivation.lexemes], rfl⟩
    · next hname =>
      cases hread
      exact ⟨.name offset text (by simpa using hname), rfl, rfl⟩
  · next opening tokens heq =>
    cases heq
    obtain ⟨⟨inner, behind⟩, hinner, hread⟩ := bind_eq_ok.mp hread
    obtain ⟨last, hclosing, hread⟩ := bind_eq_ok.mp hread
    cases hread
    obtain ⟨closing, rfl⟩ := eq_of_expectMark hclosing
    obtain ⟨d, rfl, rfl⟩ := h.sum hinner
    exact ⟨.other, .bracketed opening d closing, by simp [Derivation.lexemes], rfl⟩
  · exact absurd hread (faultAt_ne_ok _)

theorem readArguments_succ (h : Sound finish fuel)
    (hread : readArguments finish (fuel + 1) tokens = .ok (fs, after)) :
    Rule.arguments.Derives tokens fs after := by
  rw [readArguments] at hread
  split at hread
  · obtain ⟨⟨argument, next⟩, hargument, hread⟩ := bind_eq_ok.mp hread
    obtain ⟨⟨rest, last⟩, hrest, hread⟩ := bind_eq_ok.mp hread
    cases hread
    obtain ⟨d, rfl, rfl⟩ := h.sum hargument
    obtain ⟨e, rfl, rfl⟩ := h.moreArguments hrest
    exact ⟨.arguments d e, by simp [Derivation.lexemes], rfl⟩
  · cases hread
    exact ⟨.noArguments, rfl, rfl⟩

theorem readMoreArguments_succ (h : Sound finish fuel)
    (hread : readMoreArguments finish (fuel + 1) tokens = .ok (fs, after)) :
    Rule.moreArguments.Derives tokens fs after := by
  unfold readMoreArguments at hread
  split at hread
  · next offset tokens heq =>
    cases heq
    split at hread
    · obtain ⟨⟨argument, next⟩, hargument, hread⟩ := bind_eq_ok.mp hread
      obtain ⟨⟨rest, last⟩, hrest, hread⟩ := bind_eq_ok.mp hread
      cases hread
      obtain ⟨d, rfl, rfl⟩ := h.sum hargument
      obtain ⟨e, rfl, rfl⟩ := h.moreArguments hrest
      exact ⟨.moreArguments offset d e, by simp [Derivation.lexemes], rfl⟩
    · cases hread
      exact ⟨.noMoreArguments, rfl, rfl⟩
  · cases hread
    exact ⟨.noMoreArguments, rfl, rfl⟩

end Sound

/-- Without fuel no operand is read, and every chain is empty. -/
theorem sound_zero (finish : Nat) : Sound finish 0 where
  sum h := absurd h (faultAt_ne_ok _)
  terms h := by
    cases h
    exact ⟨.noTerms, rfl, rfl⟩
  product h := absurd h (faultAt_ne_ok _)
  factors h := by
    cases h
    exact ⟨.noFactors, rfl, rfl⟩
  signed h := absurd h (faultAt_ne_ok _)
  power h := absurd h (faultAt_ne_ok _)
  atom h := absurd h (faultAt_ne_ok _)
  arguments h := by
    cases h
    exact ⟨.noArguments, rfl, rfl⟩
  moreArguments h := by
    cases h
    exact ⟨.noMoreArguments, rfl, rfl⟩

/-- Whatever is read is what a derivation has, with any fuel. -/
theorem sound (finish fuel : Nat) : Sound finish fuel := by
  induction fuel with
  | zero => exact sound_zero finish
  | succ fuel ih => exact
    { sum := ih.readSum_succ
      terms := ih.readTerms_succ
      product := ih.readProduct_succ
      factors := ih.readFactors_succ
      signed := ih.readSigned_succ
      power := ih.readPower_succ
      atom := ih.readAtom_succ
      arguments := ih.readArguments_succ
      moreArguments := ih.readMoreArguments_succ }

/-- A text states a formula exactly if its tokens are those of a derivation that has it. -/
theorem Formula.parse_eq_ok {text : String} {f : Formula} :
    Formula.parse text = .ok f ↔
      ∃ d : Derivation .sum, Token.scan text.toList = d.lexemes ∧ d.value = f := by
  unfold Formula.parse
  rw [bind_eq_ok]
  constructor
  · rintro ⟨⟨formula, rest⟩, hread, hrest⟩
    obtain ⟨d, htokens, rfl⟩ := (sound _ _).sum hread
    cases rest with
    | nil =>
      cases hrest
      exact ⟨d, by simpa using htokens, rfl⟩
    | cons lexeme rest => cases hrest
  · rintro ⟨d, htokens, rfl⟩
    have hread : Rule.sum.read text.utf8ByteSize (fuelFor (Token.scan text.toList).length)
        (d.lexemes ++ []) = .ok (d.value, []) :=
      d.read_lexemes (by rw [htokens]; simp only [fuelFor]; omega) (Rule.ends_nil _)
    rw [List.append_nil, ← htokens] at hread
    exact ⟨_, hread, rfl⟩

end ClosedForm
