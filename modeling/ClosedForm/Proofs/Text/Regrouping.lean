import ClosedForm.Proofs.Text.Layouts
import ClosedForm.Proofs.Text.Semantics

/-!
# Texts of unsimplified expressions

Where an expression is no canonical form, its text may be read with other groups: a product in the middle
of a product dissolves, and a minus sign in front of a product goes to the first factor. Neither changes
a value. So a product is read as a `Chain`, a first factor and others behind it that multiply to the
value, and chains can be joined by `*`, put behind a minus sign, or followed by a divisor.

`M.Says σ phrase e` says that a phrase is read at its level as something that matches `e`. The lemmas
follow the layout of numbers, products and sums.
-/

namespace ClosedForm

namespace Semantics

open ClosedForm.Expr Token

variable {K : Type*} [Field K] [CharZero K] (M : Semantics K) (σ : String → K)

/-! ## Texts and chains of factors -/

/-- Where a text of this level can stand, the text is read as a formula that states `e`. -/
def Reads (level : Level) (text : List Char) (e : Expr) : Prop :=
  Stands level text fun f => M.States σ f e

/-- The text is read as factors behind another one. -/
def ReadsFactors (text : List Char) (es : List Expr) : Prop :=
  Writes .factors text fun fs => List.Forall₂ (M.States σ) fs es

/-- The text is read as terms behind another one. -/
def ReadsTerms (text : List Char) (es : List Expr) : Prop :=
  Writes .terms text fun fs => List.Forall₂ (M.States σ) fs es

/-- The text adds factors in front of others. -/
def Continues (text : List Char) (es : List Expr) : Prop :=
  ∀ rest fs, M.ReadsFactors σ rest fs → Apart rest →
    M.ReadsFactors σ (text ++ rest) (es ++ fs) ∧ Apart (text ++ rest)

/-- The text is a first factor and others behind it, which multiply to `e`. -/
inductive Chain : List Char → Expr → Prop
  | intro {first tail : List Char} {a e : Expr} {as : List Expr}
    (hfirst : M.Reads σ .negation first a) (htail : M.Continues σ tail as)
    (hproduct : M.Matches σ (.mul (a :: as)) e) : Chain (first ++ tail) e

variable {M σ} {text rest : List Char} {a b d e : Expr} {as bs : List Expr}

theorem Reads.of_matches {level : Level} (h : M.Reads σ level text e) (hd : M.Matches σ e d) :
    M.Reads σ level text d :=
  h.imp fun _ hf => hf.of_matches hd

theorem Reads.mono {level demanded : Level} (h : M.Reads σ level text e)
    (hle : demanded.rank ≤ level.rank) : M.Reads σ demanded text e :=
  Stands.mono h hle

theorem Reads.sum {level : Level} (h : M.Reads σ level text e) : M.Reads σ .sum text e :=
  Stands.sum h

theorem Reads.negative (h : M.Reads σ .negation text e) :
    M.Reads σ .negation ('-' :: text) e.neg := by
  refine (Stands.negative h).imp ?_
  rintro _ ⟨f, hf, rfl⟩
  exact hf.negative

theorem Reads.raised (h : M.Reads σ .atom text b) (h' : M.Reads σ .power rest e) :
    M.Reads σ .power (text ++ '^' :: rest) (.pow b e) := by
  refine (Stands.raised h h').imp ?_
  rintro _ ⟨f, g, hf, hg, rfl⟩
  exact hf.power hg

theorem Reads.squareRoot (h : M.Reads σ .sum text e) :
    M.Reads σ .atom ("sqrt".toList ++ '(' :: (text ++ [')'])) (.pow e (.constant Layout.half)) := by
  refine (Stands.squareRoot h).imp ?_
  rintro _ ⟨offset, f, hf, rfl⟩
  exact hf.squareRoot offset

theorem Reads.call {f : Func} (hunit : f ≠ .imaginaryUnit) (h : M.Reads σ .sum text e) :
    M.Reads σ .atom (f.name.toList ++ '(' :: (text ++ [')'])) (.call f e) := by
  refine (Stands.call hunit h).imp ?_
  rintro _ ⟨offset, function, g, hg, hroot, hhead, rfl⟩
  exact hg.call offset hroot hhead

theorem readsFactors_nil : M.ReadsFactors σ [] [] := by
  refine Writes.noFactors.mono ?_
  rintro _ rfl
  exact .nil

theorem continues_nil : M.Continues σ [] [] :=
  fun _ _ h hapart => ⟨h, hapart⟩

theorem Continues.append (h : M.Continues σ text as) (h' : M.Continues σ rest bs) :
    M.Continues σ (text ++ rest) (as ++ bs) := by
  intro after fs hafter hapart
  obtain ⟨hrest, hapart'⟩ := h' after fs hafter hapart
  rw [List.append_assoc, List.append_assoc]
  exact h _ _ hrest hapart'

theorem continues_times (h : M.Reads σ .negation text a) : M.Continues σ ('*' :: text) [a] := by
  intro rest fs hrest hapart
  refine ⟨?_, apart_of_mem_marks (by decide) _⟩
  refine (Writes.factor .times (p := fun f => M.States σ f a) h hrest hapart).mono ?_
  rintro _ ⟨f, gs, hf, hgs, rfl⟩
  exact .cons hf hgs

theorem continues_dividedBy (h : M.Reads σ .negation text d) (hd : M.Divides σ d a) :
    M.Continues σ ('/' :: text) [a] := by
  intro rest fs hrest hapart
  refine ⟨?_, apart_of_mem_marks (by decide) _⟩
  refine (Writes.factor .dividedBy (p := fun f => M.States σ f d) h hrest hapart).mono ?_
  rintro _ ⟨f, gs, hf, hgs, rfl⟩
  exact .cons (hf.divisor hd) hgs

theorem chain_of_negation (h : M.Reads σ .negation text e) : M.Chain σ text e := by
  have hchain := Chain.intro h continues_nil (matches_singleton e)
  rwa [List.append_nil] at hchain

namespace Chain

theorem of_matches (h : M.Chain σ text e) (hd : M.Matches σ e d) : M.Chain σ text d := by
  cases h with
  | intro hfirst htail hproduct => exact .intro hfirst htail (hproduct.trans hd)

/-- A chain is a product. -/
theorem reads (h : M.Chain σ text e) : M.Reads σ .product text e := by
  cases h with
  | @intro first tail a _ as hfirst htail hproduct =>
    obtain ⟨htail, hapart⟩ := htail [] [] readsFactors_nil apart_nil
    rw [List.append_nil] at htail hapart
    rw [List.append_nil] at htail
    show Writes .product (first ++ tail) fun f => M.States σ f e
    refine (Writes.product (p := fun f => M.States σ f a) hfirst htail hapart).mono ?_
    rintro _ ⟨f, fs, hf, hfs, rfl⟩
    cases hfs with
    | nil => exact hf.of_matches ((matches_of_singleton a).trans hproduct)
    | cons hg hfs => exact (states_product (.cons hf (.cons hg hfs))).of_matches hproduct

/-- A minus sign in front goes to the first factor. -/
theorem negative (h : M.Chain σ text e) : M.Chain σ ('-' :: text) e.neg := by
  cases h with
  | @intro first tail a _ as hfirst htail hproduct =>
    rw [← List.cons_append]
    exact .intro hfirst.negative htail ((matches_neg_mul a as).trans (matches_neg hproduct))

/-- Factors behind a chain make it longer. -/
theorem append (h : M.Chain σ text a) (hrest : M.Continues σ rest as) :
    M.Chain σ (text ++ rest) (.mul (a :: as)) := by
  cases h with
  | @intro first tail b _ bs hfirst htail hproduct =>
    rw [List.append_assoc]
    exact .intro hfirst (htail.append hrest) (matches_mul_flatten hproduct)

/-- A chain behind `*` dissolves into its factors. -/
theorem exists_continues (h : M.Chain σ text e) :
    ∃ as, M.Continues σ ('*' :: text) as ∧ M.Matches σ (.mul as) e := by
  cases h with
  | @intro first tail a _ as hfirst htail hproduct =>
    exact ⟨[a] ++ as, (continues_times hfirst).append htail, hproduct⟩

/-- Chains joined by `*`. -/
theorem intercalate {t : String} {texts : List String} {es : List Expr}
    (h : List.Forall₂ (fun (t : String) e => M.Chain σ t.toList e) (t :: texts) es) :
    M.Chain σ ("*".intercalate (t :: texts)).toList (.mul es) := by
  obtain ⟨e, es, hfirst, hrest, rfl⟩ := List.forall₂_cons_left_iff.mp h
  have htail : ∃ as, M.Continues σ (texts.flatMap fun t => '*' :: t.toList) as ∧
      M.Matches σ (.mul as) (.mul es) := by
    clear h hfirst
    induction hrest with
    | nil => exact ⟨[], continues_nil, .refl _⟩
    | cons hchain _ ih =>
      obtain ⟨as, has, hproduct⟩ := hchain.exists_continues
      obtain ⟨bs, hbs, hproduct'⟩ := ih
      exact ⟨as ++ bs, has.append hbs,
        (matches_mul_flatten hproduct).trans (matches_mul_cons hproduct')⟩
  obtain ⟨as, has, hproduct⟩ := htail
  rw [toList_intercalate_cons]
  exact (hfirst.append has).of_matches (matches_mul_cons hproduct)

end Chain

/-! ## Phrases -/

variable (M σ) in
/-- Read at its level, the phrase matches `e`. A minus sign in front of a fraction does not reach below
the line, so negative numbers are chains as well. -/
def Says (phrase : Phrase) (e : Expr) : Prop :=
  match phrase.level with
  | .product | .negation => M.Chain σ phrase.text.toList e
  | level => M.Reads σ level phrase.text.toList e

namespace Says

variable {phrase : Phrase}

theorem of_matches (h : M.Says σ phrase e) (hd : M.Matches σ e d) : M.Says σ phrase d := by
  obtain ⟨text, level⟩ := phrase
  cases level with
  | product | negation => exact Chain.of_matches h hd
  | sum | power | atom => exact Reads.of_matches h hd

theorem sum (h : M.Says σ phrase e) : M.Reads σ .sum phrase.text.toList e := by
  obtain ⟨text, level⟩ := phrase
  cases level with
  | product | negation => exact (Chain.reads h).sum
  | sum | power | atom => exact Reads.sum h

theorem parenthesized (h : M.Says σ phrase e) :
    M.Reads σ .atom (Phrase.parenthesize phrase.text).toList e := by
  rw [Phrase.toList_parenthesize]
  exact Stands.bracketed h.sum

theorem chain_parenthesized (h : M.Says σ phrase e) :
    M.Chain σ (Phrase.parenthesize phrase.text).toList e :=
  chain_of_negation (h.parenthesized.mono (by decide))

/-- Where the grammar wants a base, an exponent or a divisor, the phrase stands alone or in brackets. -/
theorem tight (h : M.Says σ phrase e) {demanded : Level} (hdemanded : 4 ≤ demanded.rank) :
    M.Reads σ demanded (phrase.bracket demanded).toList e := by
  unfold Phrase.bracket
  split
  · exact h.parenthesized.mono (by cases demanded <;> decide)
  · next hrank =>
    obtain ⟨text, level⟩ := phrase
    dsimp only at hrank
    cases level with
    | power | atom => exact Reads.mono h (not_lt.mp hrank)
    | sum | product | negation => exact absurd (lt_of_lt_of_le (by decide) hdemanded) hrank

/-- Among factors and terms the phrase is a chain, unless it is a sum that needs brackets. -/
theorem chain (h : M.Says σ phrase e) {demanded : Level} (hdemanded : 2 ≤ demanded.rank) :
    M.Chain σ (phrase.bracket demanded).toList e := by
  unfold Phrase.bracket
  split
  · exact h.chain_parenthesized
  · next hrank =>
    obtain ⟨text, level⟩ := phrase
    cases level with
    | product | negation => exact h
    | power =>
      have hreads : M.Reads σ .power text.toList e := h
      exact chain_of_negation (hreads.mono (by decide))
    | atom =>
      have hreads : M.Reads σ .atom text.toList e := h
      exact chain_of_negation (hreads.mono (by decide))
    | sum =>
      have hsum : Level.sum.rank < 2 := by decide
      exact absurd (hsum.trans_le hdemanded) hrank

/-- A minus sign in front of the phrase. -/
theorem negated (h : M.Says σ phrase e) : M.Chain σ phrase.negated.toList e.neg := by
  have hbody : M.Chain σ (phrase.bracket .product).toList e := h.chain (by decide)
  unfold Phrase.negated
  dsimp only
  split
  · have hphrase : M.Says σ ⟨phrase.bracket .product, .product⟩ e := hbody
    simpa using hphrase.chain_parenthesized.negative
  · simpa using hbody.negative

end Says

/-! ## Numbers -/

theorem reads_nat (n : Nat) : M.Reads σ .atom n.repr.toList (.constant n) := by
  refine (Stands.number n).imp ?_
  rintro _ rfl
  exact states_number n

theorem reads_num {q : Rat} (hq : 0 ≤ q) :
    M.Reads σ .atom (toString q.num).toList (.constant q.num) := by
  have hvalue : ((q.num.toNat : Nat) : Rat) = (q.num : Rat) := by
    rw [← Int.cast_natCast, Int.toNat_of_nonneg (Rat.num_nonneg.mpr hq)]
  rw [toString_num hq, ← hvalue]
  exact reads_nat _

/-- A quotient of numbers is their value. -/
theorem matches_quotient {c : Rat} {ks ms : List Rat} (h : ks.prod / ms.prod = c) :
    M.Matches σ (.mul (ks.map .constant ++ ms.map fun m => .constant (1 / m))) (.constant c) := by
  have hvalue (qs : List Rat) : M.value σ (.mul (qs.map .constant)) = some ((qs.prod : Rat) : K) := by
    induction qs with
    | nil => exact value_mul_eq_some.mpr ⟨[], .nil, by simp⟩
    | cons q qs ih =>
      rw [List.map_cons, value_mul_cons_eq_some]
      exact ⟨q, _, value_constant q, ih, by rw [List.prod_cons, Rat.cast_mul]⟩
  intro x hx
  cases hx
  have hinverse : (ms.map fun m => Expr.constant (1 / m)) = (ms.map fun m => 1 / m).map .constant := by
    rw [List.map_map]
    rfl
  have hprod : (ms.map fun m => 1 / m).prod = 1 / ms.prod := by
    simp [← List.prod_inv]
  rw [hinverse]
  refine value_mul_append_eq_some.mpr ⟨_, _, hvalue ks, hvalue _, ?_⟩
  rw [hprod, ← Rat.cast_mul, mul_one_div, h]

theorem says_ofRat_of_nonneg {q : Rat} (hq : 0 ≤ q) : M.Says σ (Phrase.ofRat q) (.constant q) := by
  have hnum : M.Reads σ .atom (toString q.num).toList (.constant q.num) := reads_num hq
  cases hint : Rational.isInteger q with
  | true =>
    have hden : q.den = 1 := by simpa [Rational.isInteger] using hint
    rw [Phrase.ofRat_of_isInteger hq hint]
    show M.Reads σ .atom (Rational.text q).toList _
    rw [Rational.text, if_pos hint]
    rwa [Rat.den_eq_one_iff q |>.mp hden] at hnum
  | false =>
    have hden : (q.den : Rat) ≠ 0 := by exact_mod_cast q.den_nz
    rw [Phrase.ofRat_of_not_isInteger hq hint]
    show M.Chain σ (Rational.text q).toList _
    have htext : (Rational.text q).toList = (toString q.num).toList ++ '/' :: q.den.repr.toList := by
      simp [Rational.text, hint]
    rw [htext]
    have hline := continues_dividedBy ((reads_nat q.den).mono (by decide))
      (divides_constant (σ := σ) (M := M) hden)
    have hquotient : [(q.num : Rat)].prod / [(q.den : Rat)].prod = q := by simp [Rat.num_div_den]
    exact ((chain_of_negation (hnum.mono (by decide))).append hline).of_matches
      (matches_quotient hquotient)

theorem says_ofRat (q : Rat) : M.Says σ (Phrase.ofRat q) (.constant q) := by
  rcases le_or_gt 0 q with hq | hq
  · exact says_ofRat_of_nonneg hq
  · obtain ⟨p, rfl⟩ : ∃ p, q = -p := ⟨-q, (neg_neg q).symm⟩
    have hp : 0 < p := neg_lt_zero.mp hq
    have hchain := (says_ofRat_of_nonneg (M := M) (σ := σ) hp.le).negated
    rw [Phrase.negated_ofRat hp] at hchain
    rw [Phrase.ofRat_of_neg hp] at hchain ⊢
    exact hchain.of_matches (matches_neg_constant p)

/-! ## Products -/

variable (M σ) in
/-- What the layout of a factor has to say to a product: the factor itself, or what it divides by. -/
def Fits (e : Expr) (layout : Layout) : Prop :=
  match layout.divisor with
  | none => M.Says σ layout.phrase e
  | some text => ∃ d, M.Reads σ .power text.toList d ∧ M.Divides σ d e

variable (M σ) in
/-- The texts above the line are read as the factors `gs`, and those below it as the divisors `ds`
that stand for the factors `hs`. -/
structure Parts (tops bottoms : List String) (gs ds hs : List Expr) : Prop where
  above : List.Forall₂ (fun (t : String) e => M.Chain σ t.toList e) tops gs
  below : List.Forall₂ (fun (t : String) e => M.Reads σ .power t.toList e) bottoms ds
  divides : List.Forall₂ (M.Divides σ) ds hs

theorem exists_parts {factors : List (Expr × Layout)} (h : ∀ f ∈ factors, M.Fits σ f.1 f.2) :
    ∃ gs ds hs, M.Parts σ (Layout.above factors) (Layout.below factors) gs ds hs ∧
      (gs ++ hs).Perm (factors.map Prod.fst) := by
  induction factors with
  | nil => exact ⟨[], [], [], ⟨.nil, .nil, .nil⟩, .refl _⟩
  | cons f factors ih =>
    obtain ⟨gs, ds, hs, hparts, hperm⟩ := ih fun f' hf' => h f' (by simp [hf'])
    obtain ⟨e, phrase, unsigned, divisor⟩ := f
    have hfits : M.Fits σ e ⟨phrase, unsigned, divisor⟩ := h (e, ⟨phrase, unsigned, divisor⟩) (by simp)
    cases divisor with
    | none =>
      have hphrase : M.Says σ phrase e := hfits
      exact ⟨e :: gs, ds, hs,
        ⟨.cons (hphrase.chain (by decide)) hparts.above, hparts.below, hparts.divides⟩,
        hperm.cons e⟩
    | some text =>
      obtain ⟨d, hreads, hdivides⟩ := hfits
      exact ⟨gs, d :: ds, e :: hs,
        ⟨hparts.above, .cons hreads hparts.below, .cons hdivides hparts.divides⟩,
        List.perm_middle.trans (hperm.cons e)⟩

/-- The coefficient is the quotient of the numbers above and below the line. -/
theorem exists_numbers {c : Rat} (hc : 0 ≤ c) (factors : List (Expr × Layout)) :
    ∃ ks ms : List Rat, ks.prod / ms.prod = c ∧
      M.Parts σ (Layout.numberAbove c factors) (Layout.numberBelow c factors) (ks.map .constant)
        (ms.map .constant) (ms.map fun m => .constant (1 / m)) := by
  have hden : (c.den : Rat) ≠ 0 := by exact_mod_cast c.den_nz
  cases hwhole : Layout.keepsWhole c factors with
  | true =>
    refine ⟨[c], [], by simp, ?_, ?_, .nil⟩
    · have hnumber := (says_ofRat (M := M) (σ := σ) c).chain_parenthesized
      rw [Layout.numberAbove, if_pos hwhole]
      exact .cons hnumber .nil
    · simp [Layout.numberBelow, hwhole]
  | false =>
    refine ⟨if c.num = 1 then [] else [(c.num : Rat)], if c.den = 1 then [] else [(c.den : Rat)],
      ?_, ?_, ?_, ?_⟩
    · have hnum : (if c.num = 1 then [] else [(c.num : Rat)]).prod = c.num := by
        split <;> simp_all
      have hden : (if c.den = 1 then [] else [(c.den : Rat)]).prod = c.den := by
        split <;> simp_all
      rw [hnum, hden, Rat.num_div_den]
    · rw [Layout.numberAbove, if_neg (by simp [hwhole])]
      split
      · exact .nil
      · exact .cons (chain_of_negation ((reads_num hc).mono (by decide))) .nil
    · by_cases hone : c.den = 1
      · simp [Layout.numberBelow, hwhole, hone]
      · simp only [Layout.numberBelow, hwhole, hone, Bool.false_or, decide_false, Bool.false_eq_true,
          if_false]
        exact .cons ((reads_nat c.den).mono (by decide)) .nil
    · split
      · exact .nil
      · exact .cons (divides_constant hden) .nil

theorem Parts.append {tops bottoms tops' bottoms' : List String} {gs ds hs gs' ds' hs' : List Expr}
    (h : M.Parts σ tops bottoms gs ds hs) (h' : M.Parts σ tops' bottoms' gs' ds' hs') :
    M.Parts σ (tops ++ tops') (bottoms ++ bottoms') (gs ++ gs') (ds ++ ds') (hs ++ hs') :=
  ⟨List.rel_append h.above h'.above, List.rel_append h.below h'.below,
    List.rel_append h.divides h'.divides⟩

variable {tops bottoms : List String} {gs ds hs : List Expr}

/-- The texts above the line are a chain, which is `1` if there are none. -/
theorem Parts.numerator (h : M.Parts σ tops bottoms gs ds hs) :
    M.Chain σ (Layout.numerator tops).toList (.mul gs) := by
  cases habove : h.above with
  | nil =>
    have hone : M.Chain σ "1".toList (.constant 1) :=
      chain_of_negation ((reads_nat 1).mono (by decide))
    refine hone.of_matches fun x hx => ?_
    obtain ⟨_, ⟨⟩, rfl⟩ := value_mul_eq_some.mp hx
    simp
  | cons => exact Chain.intercalate h.above

/-- What stands below the line divides. -/
theorem Parts.denominator (h : M.Parts σ tops bottoms gs ds hs) (hnil : bottoms ≠ []) :
    ∃ d, M.Reads σ .negation (Layout.denominator bottoms).toList d ∧ M.Divides σ d (.mul hs) := by
  have hbelow := h.below
  have hdivides := divides_mul h.divides
  match bottoms, hnil with
  | [t], _ =>
    match ds, hbelow with
    | [d], .cons hreads _ =>
      refine ⟨d, hreads.mono (by decide), fun x hx => ?_⟩
      obtain ⟨y, hy, hne⟩ := hdivides x hx
      exact ⟨y, matches_of_singleton d y hy, hne⟩
  | t :: u :: texts, _ =>
    have hchain := Chain.intercalate (hbelow.imp fun _ _ hreads =>
      chain_of_negation (hreads.mono (by decide)))
    have hphrase : M.Says σ ⟨"*".intercalate (t :: u :: texts), .product⟩ (.mul ds) := hchain
    exact ⟨.mul ds, hphrase.parenthesized.mono (by decide), hdivides⟩

/-- What a product with a coefficient that is not negative says. -/
theorem says_productPhrase {c : Rat} (hc : 0 ≤ c) {factors : List (Expr × Layout)}
    (hfits : ∀ f ∈ factors, M.Fits σ f.1 f.2) :
    M.Says σ (Layout.productPhrase c factors) (.mul (.constant c :: factors.map Prod.fst)) := by
  obtain ⟨gs, ds, hs, hparts, hperm⟩ := exists_parts hfits
  obtain ⟨ks, ms, hquotient, hnumbers⟩ := exists_numbers (M := M) (σ := σ) hc factors
  have hall := hnumbers.append hparts
  -- The numbers stand in front of the factors on both sides of the line.
  have hgroup : M.Matches σ (.mul ((ks.map .constant ++ gs) ++ ((ms.map fun m => .constant (1 / m)) ++ hs)))
      (.mul (.constant c :: factors.map Prod.fst)) := by
    refine (matches_mul_of_perm ?_).trans ((matches_mul_flatten (matches_quotient hquotient)).trans
      (matches_mul_of_perm (hperm.cons _)))
    simp only [List.append_assoc]
    exact List.Perm.append_left _ (List.perm_append_comm_assoc _ _ _)
  by_cases hline : Layout.numberBelow c factors ++ Layout.below factors = []
  · have hnone : (ms.map fun m => Expr.constant (1 / m)) ++ hs = [] := by
      have hlength := hall.below.length_eq
      have hlength' := hall.divides.length_eq
      rw [hline, List.length_nil] at hlength
      exact List.length_eq_zero_iff.mp (hlength'.symm.trans hlength.symm)
    rcases Layout.productPhrase_of_not_below hline with htext | ⟨f, rfl, rfl, hphrase⟩
    · rw [htext]
      rw [hnone, List.append_nil] at hgroup
      exact hall.numerator.of_matches hgroup
    · rw [hphrase]
      obtain ⟨e, phrase, unsigned, divisor⟩ := f
      have hfit := hfits _ (List.mem_singleton.mpr rfl)
      cases divisor with
      | none =>
        have hsays : M.Says σ phrase e := hfit
        refine hsays.of_matches fun x hx => ?_
        obtain ⟨y, z, hy, hz, rfl⟩ := value_mul_cons_eq_some.mp hx
        cases hy
        rw [List.map_cons, List.map_nil, value_mul_singleton] at hz
        simpa using hz
      | some text => cases (List.append_eq_nil_iff.mp hline).2
  · obtain ⟨d, hreads, hdivides⟩ := hall.denominator hline
    rw [Layout.productPhrase_of_below hline]
    have hchain := hall.numerator.append (continues_dividedBy hreads hdivides)
    refine Chain.of_matches ?_ ((matches_mul_append (.refl _) (.refl _)).trans hgroup)
    simpa [String.toList_append] using hchain

/-! ## Sums -/

variable (M σ) in
/-- The layout of an expression keeps its value wherever its text is used. -/
structure Keeps (e : Expr) (layout : Layout) : Prop where
  phrase : M.Says σ layout.phrase e
  /-- Behind a minus sign, the phrase without sign matches the expression. -/
  unsigned : ∀ phrase, layout.unsigned = some phrase →
    ∃ d, M.Says σ phrase d ∧ M.Matches σ d.neg e
  fits : M.Fits σ e layout

theorem Keeps.opening {layout : Layout} (h : M.Keeps σ e layout) :
    M.Reads σ .product (Layout.openingText layout).toList e := by
  unfold Layout.openingText
  cases hunsigned : layout.unsigned with
  | some phrase =>
    obtain ⟨d, hphrase, hd⟩ := h.unsigned phrase hunsigned
    exact (hphrase.negated.of_matches hd).reads
  | none => exact (h.phrase.chain (by decide)).reads

theorem readsTerms_flatMap {es : List Expr} {layouts : List Layout}
    (h : List.Forall₂ (M.Keeps σ) es layouts) :
    M.ReadsTerms σ (layouts.flatMap Layout.signedText) es ∧
      Apart (layouts.flatMap Layout.signedText) := by
  induction h with
  | nil =>
    refine ⟨Writes.noTerms.mono ?_, apart_nil⟩
    rintro _ rfl
    exact .nil
  | @cons e layout es layouts hfirst _ ih =>
    obtain ⟨hrest, hapart⟩ := ih
    rw [List.flatMap_cons]
    cases hunsigned : layout.unsigned with
    | some phrase =>
      obtain ⟨d, hphrase, hd⟩ := hfirst.unsigned phrase hunsigned
      have hchain : M.Chain σ (phrase.bracket .product).toList d := hphrase.chain (by decide)
      have hreads := hchain.reads
      have htext : Layout.signedText layout =
          ' ' :: '-' :: ' ' :: (phrase.bracket .product).toList := by
        simp [Layout.signedText, hunsigned]
      rw [htext]
      refine ⟨?_, apart_cons.mpr ⟨by decide, by decide⟩⟩
      refine (Writes.term .minus (p := fun f => M.States σ f d) hreads hrest hapart).mono ?_
      rintro _ ⟨f, fs, hf, hfs, rfl⟩
      exact .cons (hf.subtracted.of_matches hd) hfs
    | none =>
      have hchain : M.Chain σ (layout.phrase.bracket .product).toList e :=
        hfirst.phrase.chain (by decide)
      have hreads := hchain.reads
      have htext : Layout.signedText layout =
          ' ' :: '+' :: ' ' :: (layout.phrase.bracket .product).toList := by
        simp [Layout.signedText, hunsigned]
      rw [htext]
      refine ⟨?_, apart_cons.mpr ⟨by decide, by decide⟩⟩
      refine (Writes.term .plus (p := fun f => M.States σ f e) hreads hrest hapart).mono ?_
      rintro _ ⟨f, fs, hf, hfs, rfl⟩
      exact .cons hf hfs

/-- Two or more terms joined by their signs are read as their sum. -/
theorem reads_joinTerms {es : List Expr} {layouts : List Layout} (hlength : 2 ≤ es.length)
    (h : List.Forall₂ (M.Keeps σ) es layouts) :
    M.Reads σ .sum (Layout.joinTerms layouts).toList (.add es) := by
  match es, layouts, h, hlength with
  | e :: f :: es, layout :: layouts, .cons hfirst hrest, _ =>
    obtain ⟨hterms, hapart⟩ := readsTerms_flatMap hrest
    rw [Layout.toList_joinTerms]
    show Writes .sum _ fun g => M.States σ g (.add (e :: f :: es))
    refine (Writes.sum (p := fun f => M.States σ f e) hfirst.opening hterms hapart).mono ?_
    rintro _ ⟨g, gs, hg, hgs, rfl⟩
    match gs, hgs with
    | _ :: _, hgs => exact states_sum (.cons hg hgs)

end Semantics

end ClosedForm
