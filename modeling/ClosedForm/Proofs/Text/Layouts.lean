import ClosedForm.Proofs.Text.Meaning

/-!
# What the text of an expression says

The phrases that a layout is made of say what the expression means: read at its level, the text of a
phrase is taken back to the expression (`Phrase.Says`), in brackets where it binds too little
(`Phrase.Says.bracket`), and behind a minus sign.
-/

namespace ClosedForm

open ClosedForm.Expr Canonical Token

variable {bounds : Bounds}

/-! ## Phrases -/

/-- The level at which the grammar reads a text of this level: a minus sign in front of a fraction
does not reach below the line. -/
def Level.reading : Level → Level
  | .negation => .product
  | level => level

namespace Phrase

/-- Read at its level, the phrase means `c`. -/
def Says (bounds : Bounds) (phrase : Phrase) (c : Expr) : Prop :=
  Reads bounds phrase.level.reading phrase.text.toList c

theorem toList_parenthesize (text : String) :
    (parenthesize text).toList = '(' :: (text.toList ++ [')']) := by
  simp [parenthesize]

namespace Says

variable {phrase : Phrase} {c d : Expr}

theorem sum (h : phrase.Says bounds c) : Reads bounds .sum phrase.text.toList c :=
  Reads.sum h

theorem parenthesized (h : phrase.Says bounds c) :
    Reads bounds .atom (parenthesize phrase.text).toList c := by
  rw [toList_parenthesize]
  exact h.sum.bracketed

/-- Where a phrase stands in brackets or binds enough, it says the same. -/
theorem bracket (h : phrase.Says bounds c) {demanded : Level}
    (hdemanded : demanded = .negation → phrase.level ≠ .negation) :
    Reads bounds demanded (phrase.bracket demanded).toList c := by
  unfold Phrase.bracket
  split
  · exact h.parenthesized.mono (by cases demanded <;> decide)
  · next hrank =>
    unfold Says at h
    cases hlevel : phrase.level with
    | negation =>
      rw [hlevel] at h hrank hdemanded
      cases demanded with
      | sum => exact h.sum_of_product
      | product => exact h
      | negation => exact absurd rfl (hdemanded rfl)
      | power => exact absurd (by decide) hrank
      | atom => exact absurd (by decide) hrank
    | _ =>
      rw [hlevel] at h hrank
      exact h.mono (not_lt.mp hrank)

/-- A minus sign in front of a phrase that is neither a product nor a negative number. -/
theorem negated (h : phrase.Says bounds c) (hproduct : phrase.level ≠ .product)
    (hnegation : phrase.level ≠ .negation)
    (hrule : multiply bounds [.integer (-1), c] = .ok d) (hd : Normal bounds d) :
    Reads bounds .product phrase.negated.toList d := by
  have hbody : Reads bounds .negation (phrase.bracket .product).toList c := by
    unfold Phrase.bracket
    split
    · exact h.parenthesized.mono (by decide)
    · unfold Says at h
      cases hlevel : phrase.level <;> simp_all [Level.reading, Level.rank]
      · exact h.negation_of_power
      · exact h.mono (by decide)
  have hminus : phrase.negated.toList = '-' :: (phrase.bracket .product).toList := by
    simp [Phrase.negated, hproduct]
  rw [hminus]
  exact (hbody.negative hrule hd).product_of_negation

end Says

/-- A minus sign in front of a product, which stands in brackets if it starts with one. -/
theorem negated_of_factored {text : String} {c : Rat} {gs : List Expr}
    (h : Factored bounds text.toList c gs) (hterm : IsTerm bounds c gs) :
    Reads bounds .product (negated ⟨text, .product⟩).toList (Expr.product (withFactor (-c) gs)) := by
  have hneg : IsTerm bounds (-c) gs := hterm.of_ne (neg_ne_zero.mpr hterm.ne_zero)
  have hbody : bracket .product ⟨text, .product⟩ = text := by
    simp [bracket, Level.rank]
  unfold negated
  rw [hbody]
  dsimp only
  split
  · have hmeans : Says bounds ⟨text, .product⟩ (Expr.product (withFactor c gs)) := h.reads hterm
    have hwrapped := hmeans.parenthesized.mono (show Level.negation.rank ≤ Level.atom.rank by decide)
    simpa using (hwrapped.negative hterm.multiply_neg_one hneg.normal).product_of_negation
  · next hopen =>
    have hhead : text.toList.head? ≠ some '(' := by
      simpa [String.front?_eq] using hopen
    simpa using (h.negative hhead).reads hneg

end Phrase

/-! ## Rational numbers -/

theorem Reads.nat (n : Nat) : Reads bounds .atom n.repr.toList (.constant n) := by
  refine ⟨.number, (Writes.number n).mono ?_⟩
  rintro _ rfl
  exact Formula.means_number n

theorem toString_num {q : Rat} (hq : 0 ≤ q) : toString q.num = q.num.toNat.repr := by
  show q.num.repr = _
  rw [Int.repr_eq_if, if_pos (Rat.num_nonneg.mpr hq)]

theorem Reads.num {q : Rat} (hq : 0 ≤ q) :
    Reads bounds .atom (toString q.num).toList (.constant q.num) := by
  have hvalue : ((q.num.toNat : Nat) : Rat) = (q.num : Rat) := by
    rw [← Int.cast_natCast, Int.toNat_of_nonneg (Rat.num_nonneg.mpr hq)]
  rw [toString_num hq, ← hvalue]
  exact .nat _

theorem Reads.integer {q : Rat} (hq : 0 ≤ q) (hint : Rational.isInteger q = true) :
    Reads bounds .atom (Rational.text q).toList (.constant q) := by
  have hnum : Reads bounds _ _ _ := Reads.num hq
  have hden : q.den = 1 := by simpa [Rational.isInteger] using hint
  rw [Rational.text, if_pos hint]
  rwa [Rat.den_eq_one_iff q |>.mp hden] at hnum

/-- A positive fraction is a numerator over a denominator. -/
theorem factored_fraction (hlimit : 1 ≤ bounds.maxExactExponent) {q : Rat} (hq : 0 < q)
    (hint : Rational.isInteger q = false) : Factored bounds (Rational.text q).toList q [] := by
  have hden : (q.den : Rat) ≠ 0 := by exact_mod_cast q.den_nz
  have hunder : Reads bounds .negation (toString q.den).toList (.constant q.den) :=
    (Reads.nat q.den).mono (by decide)
  have hrest := readsFactors_nil.dividedBy apart_nil hunder (power_constant_neg_one hlimit hden)
    (.constant _)
  have hcollects : Collects [.constant q.num, .constant (1 / (q.den : Rat))] q [] := by
    have hpair := (collects_constant q.num).append (collects_constant (1 / (q.den : Rat)))
    rwa [mul_one_div, Rat.num_div_den] at hpair
  have htext : (Rational.text q).toList =
      (toString q.num).toList ++ '/' :: (q.den.repr.toList ++ []) := by
    simp [Rational.text, hint]
  rw [htext]
  exact .intro ((Reads.num hq.le).mono (by decide)) hrest (apart_of_mem_marks (by decide) _)
    hcollects (by simp [isAdd])

theorem text_neg {q : Rat} (hq : 0 < q) :
    (Rational.text (-q)).toList = '-' :: (Rational.text q).toList := by
  have hnum : (toString (-q).num).toList = '-' :: (toString q.num).toList := by
    have hpos := Rat.num_pos.mpr hq
    show (-q).num.repr.toList = '-' :: q.num.repr.toList
    rw [Rat.neg_num, Int.repr_eq_if, if_neg (by omega), Int.repr_eq_if, if_pos (by omega), neg_neg]
    simp
  unfold Rational.text
  rw [isInteger_neg, Rat.neg_den]
  split
  · exact hnum
  · rw [String.toList_append, String.toList_append, hnum]
    simp

/-- A number starts with a digit. -/
theorem head_text {q : Rat} (hq : 0 ≤ q) : (Rational.text q).toList.head? ≠ some '(' := by
  have hnum : (toString q.num).toList.head? ≠ some '(' ∧ (toString q.num).toList ≠ [] := by
    rw [toString_num hq]
    refine ⟨fun hhead => ?_, repr_ne_nil _⟩
    have hdigit := isDigit_of_mem_repr (List.mem_of_mem_head? hhead)
    exact absurd hdigit (by decide)
  unfold Rational.text
  split
  · exact hnum.1
  · rw [String.toList_append, String.toList_append, List.append_assoc,
      List.head?_append_of_ne_nil _ hnum.2]
    exact hnum.1

namespace Phrase

theorem ofRat_of_neg {q : Rat} (hq : 0 < q) : ofRat (-q) = ⟨Rational.text (-q), .negation⟩ := by
  simp [ofRat, hq]

theorem ofRat_of_isInteger {q : Rat} (hq : 0 ≤ q) (hint : Rational.isInteger q = true) :
    ofRat q = ⟨Rational.text q, .atom⟩ := by
  simp [ofRat, hq.not_gt, hint]

theorem ofRat_of_not_isInteger {q : Rat} (hq : 0 ≤ q) (hint : Rational.isInteger q = false) :
    ofRat q = ⟨Rational.text q, .product⟩ := by
  simp [ofRat, hq.not_gt, hint]

theorem means_ofRat_of_nonneg (hlimit : 1 ≤ bounds.maxExactExponent) {q : Rat} (hq : 0 ≤ q) :
    (ofRat q).Says bounds (.constant q) := by
  cases hint : Rational.isInteger q with
  | true =>
    rw [ofRat_of_isInteger hq hint]
    exact Reads.integer hq hint
  | false =>
    have hpos : 0 < q := by
      refine lt_of_le_of_ne hq ?_
      rintro rfl
      cases hint
    have hreads := (factored_fraction hlimit hpos hint).reads (.constant hpos.ne')
    rw [product_withFactor_nil] at hreads
    rw [ofRat_of_not_isInteger hq hint]
    exact hreads

/-- A minus sign in front of a positive number. -/
theorem reads_negated_ofRat (hlimit : 1 ≤ bounds.maxExactExponent) {q : Rat} (hq : 0 < q) :
    Reads bounds .product (ofRat q).negated.toList (.constant (-q)) := by
  have hterm : IsTerm bounds q [] := .constant hq.ne'
  cases hint : Rational.isInteger q with
  | true =>
    have hmeans := means_ofRat_of_nonneg hlimit hq.le
    have hrule := hterm.multiply_neg_one
    rw [product_withFactor_nil, product_withFactor_nil] at hrule
    rw [ofRat_of_isInteger hq.le hint] at hmeans ⊢
    exact hmeans.negated (by simp) (by simp) hrule (.constant _)
  | false =>
    have hreads := negated_of_factored (factored_fraction hlimit hq hint) hterm
    rwa [product_withFactor_nil, ← ofRat_of_not_isInteger hq.le hint] at hreads

/-- A minus sign in front of a positive number is the negative number. -/
theorem negated_ofRat {q : Rat} (hq : 0 < q) :
    (ofRat q).negated.toList = (ofRat (-q)).text.toList := by
  have hhead := head_text hq.le
  rw [ofRat_of_neg hq, text_neg hq]
  cases hint : Rational.isInteger q with
  | true =>
    rw [ofRat_of_isInteger hq.le hint]
    simp [negated, bracket, Level.rank]
  | false =>
    rw [ofRat_of_not_isInteger hq.le hint]
    simp [negated, bracket, Level.rank, String.front?_eq, hhead]

theorem means_ofRat (hlimit : 1 ≤ bounds.maxExactExponent) (q : Rat) :
    (ofRat q).Says bounds (.constant q) := by
  rcases le_or_gt 0 q with hq | hq
  · exact means_ofRat_of_nonneg hlimit hq
  · obtain ⟨p, rfl⟩ : ∃ p, q = -p := ⟨-q, (neg_neg q).symm⟩
    have hp : 0 < p := neg_lt_zero.mp hq
    have hreads := reads_negated_ofRat hlimit hp
    rw [negated_ofRat hp] at hreads
    unfold Says
    rw [ofRat_of_neg hp] at hreads ⊢
    exact hreads

end Phrase

/-! ## Factors joined by `*` -/

/-- The text of a factor. A sum stands in brackets. -/
structure FactorText (bounds : Bounds) (text : String) (e : Expr) : Prop where
  reads : Reads bounds .negation text.toList e
  sum : e.isAdd = true → text.toList.head? = some '('

theorem toList_intercalate_cons (text : String) (texts : List String) :
    ("*".intercalate (text :: texts)).toList =
      text.toList ++ texts.flatMap fun t => '*' :: t.toList := by
  rw [String.toList_intercalate]
  induction texts generalizing text with
  | nil => simp
  | cons t texts ih =>
    simp only [List.map_cons] at ih ⊢
    rw [List.intercalate_cons_cons, ih]
    simp

theorem readsFactors_flatMap {texts : List String} {es as : List Expr} {rest : List Char}
    (h : List.Forall₂ (fun (t : String) e => Reads bounds .negation t.toList e) texts es)
    (hrest : ReadsFactors bounds rest as) (hapart : Apart rest) :
    ReadsFactors bounds (texts.flatMap (fun t => '*' :: t.toList) ++ rest) (es ++ as) ∧
      Apart (texts.flatMap (fun t => '*' :: t.toList) ++ rest) := by
  induction h with
  | nil => exact ⟨hrest, hapart⟩
  | cons hfirst _ ih =>
    have htimes := ih.1.times ih.2 hfirst
    simp only [List.flatMap_cons, List.cons_append, List.append_assoc]
    exact ⟨htimes, apart_of_mem_marks (by decide) _⟩

/-- Factors joined by `*`, with others behind. -/
theorem factored_intercalate {text : String} {texts : List String} {e : Expr} {es as gs : List Expr}
    {rest : List Char} {c : Rat} (h : List.Forall₂ (FactorText bounds) (text :: texts) (e :: es))
    (hrest : ReadsFactors bounds rest as) (hapart : Apart rest)
    (hcollects : Collects (e :: es ++ as) c gs) :
    Factored bounds (("*".intercalate (text :: texts)).toList ++ rest) c gs := by
  obtain ⟨hfirst, htexts⟩ := List.forall₂_cons.mp h
  obtain ⟨hreads, hapart'⟩ :=
    readsFactors_flatMap (htexts.imp fun _ _ htext => htext.reads) hrest hapart
  rw [toList_intercalate_cons, List.append_assoc]
  exact .intro hfirst.reads hreads hapart' hcollects hfirst.sum

/-- Two or more factors joined by `*` are read as their product. -/
theorem reads_intercalate {text : String} {texts : List String} {a b c : Expr} {es : List Expr}
    (h : List.Forall₂ (fun (t : String) e => Reads bounds .negation t.toList e) (text :: texts)
      (a :: b :: es))
    (hrule : multiply bounds (a :: b :: es) = .ok c) (hc : Normal bounds c) :
    Reads bounds .product ("*".intercalate (text :: texts)).toList c := by
  obtain ⟨hfirst, htexts⟩ := List.forall₂_cons.mp h
  obtain ⟨hreads, hapart⟩ := readsFactors_flatMap htexts readsFactors_nil apart_nil
  rw [List.append_nil, List.append_nil] at hreads
  rw [List.append_nil] at hapart
  rw [toList_intercalate_cons]
  exact hreads.product hapart hfirst hrule hc

/-! ## Products -/

namespace Layout

/-- What the layout of a factor has to say to a product: the factor itself, or what it divides by. -/
inductive Fits (bounds : Bounds) (e : Expr) : Layout → Prop
  | above {phrase : Phrase} {unsigned : Option Phrase} (hphrase : phrase.Says bounds e)
    (hproduct : phrase.level ≠ .product) (hnegation : phrase.level ≠ .negation)
    (hsum : e.isAdd = true → phrase.level = .sum) : Fits bounds e ⟨phrase, unsigned, none⟩
  | below {phrase : Phrase} {unsigned : Option Phrase} {text : String} {d : Expr}
    (hdivides : Divides bounds d e) (hreads : Reads bounds .power text.toList d)
    (hsum : d.isAdd = true → isReciprocalSum e = true) : Fits bounds e ⟨phrase, unsigned, some text⟩

/-- The texts of the factors above the fraction line. -/
def above (factors : List (Expr × Layout)) : List String :=
  factors.filterMap fun f => if f.2.divisor.isSome then none else some (f.2.phrase.bracket .negation)

/-- The texts below the fraction line. -/
def below (factors : List (Expr × Layout)) : List String :=
  factors.filterMap fun f => f.2.divisor

/-- The texts above the line are read as the factors `gs`, and those below it as the divisors `ds`
that stand for the factors `hs`. -/
structure Parts (bounds : Bounds) (factors : List (Expr × Layout)) (gs ds hs : List Expr) :
    Prop where
  above : List.Forall₂ (FactorText bounds) (above factors) gs
  below : List.Forall₂ (fun (t : String) e => Reads bounds .power t.toList e) (below factors) ds
  divides : List.Forall₂ (Divides bounds) ds hs
  sums : ∀ d ∈ ds, d.isAdd = true → factors.any (fun f => isReciprocalSum f.1) = true
  perm : (gs ++ hs).Perm (factors.map Prod.fst)

theorem exists_parts {factors : List (Expr × Layout)} (h : ∀ f ∈ factors, Fits bounds f.1 f.2) :
    ∃ gs ds hs, Parts bounds factors gs ds hs := by
  induction factors with
  | nil => exact ⟨[], [], [], .nil, .nil, .nil, by simp, .refl _⟩
  | cons f factors ih =>
    obtain ⟨gs, ds, hs, hparts⟩ := ih fun f' hf' => h f' (by simp [hf'])
    obtain ⟨e, layout⟩ := f
    have hfits : Fits bounds e layout := h (e, layout) (by simp)
    have hsums : ∀ d ∈ ds, d.isAdd = true →
        ((e, layout) :: factors).any (fun f => isReciprocalSum f.1) = true := by
      intro d hd hadd
      rw [List.any_cons, hparts.sums d hd hadd, Bool.or_true]
    cases hfits with
    | @above phrase unsigned hphrase hproduct hnegation hsum =>
      have htext : FactorText bounds (phrase.bracket .negation) e := by
        refine ⟨hphrase.bracket fun _ => hnegation, fun hadd => ?_⟩
        simp [Phrase.bracket, hsum hadd, Level.rank, Phrase.toList_parenthesize]
      exact ⟨e :: gs, ds, hs, .cons htext hparts.above, hparts.below, hparts.divides, hsums,
        hparts.perm.cons e⟩
    | @below phrase unsigned text d hdivides hreads hsum =>
      refine ⟨gs, d :: ds, e :: hs, hparts.above, .cons hreads hparts.below,
        .cons hdivides hparts.divides, fun d' hd' hadd => ?_,
        List.perm_middle.trans (hparts.perm.cons e)⟩
      rcases List.mem_cons.mp hd' with rfl | hd'
      · rw [List.any_cons, hsum hadd, Bool.true_or]
      · exact hsums d' hd' hadd

/-- The coefficient is written whole above the line. -/
def keepsWhole (coefficient : Rat) (factors : List (Expr × Layout)) : Bool :=
  coefficient.den ≠ 1 && factors.any fun f => isReciprocalSum f.1

/-- The number above the line. -/
def numberAbove (coefficient : Rat) (factors : List (Expr × Layout)) : List String :=
  if keepsWhole coefficient factors then [Phrase.parenthesize (Rational.text coefficient)]
  else if coefficient.num = 1 then [] else [toString coefficient.num]

/-- The number below the line. -/
def numberBelow (coefficient : Rat) (factors : List (Expr × Layout)) : List String :=
  if keepsWhole coefficient factors || coefficient.den = 1 then [] else [toString coefficient.den]

/-- The coefficient is the number above the line over the number below it, which is `1` where a bare
sum is there. -/
theorem exists_numbers (hlimit : 1 ≤ bounds.maxExactExponent) {c : Rat} (hc : 0 < c)
    (factors : List (Expr × Layout)) :
    ∃ k m : Rat, k * (1 / m) = c ∧ m ≠ 0 ∧
      (∀ texts gs, List.Forall₂ (FactorText bounds) texts gs →
        List.Forall₂ (FactorText bounds) (numberAbove c factors ++ texts) (withFactor k gs)) ∧
      (∀ texts ds, List.Forall₂ (fun (t : String) e => Reads bounds .power t.toList e) texts ds →
        List.Forall₂ (fun (t : String) e => Reads bounds .power t.toList e)
          (numberBelow c factors ++ texts) (withFactor m ds)) ∧
      (factors.any (fun f => isReciprocalSum f.1) = true → m = 1) := by
  cases hwhole : keepsWhole c factors with
  | true =>
    have hden : c.den ≠ 1 := by
      simp only [keepsWhole, Bool.and_eq_true, decide_eq_true_eq] at hwhole
      exact hwhole.1
    have hone : c ≠ 1 := by
      rintro rfl
      exact hden rfl
    have hmeans : Phrase.Says bounds _ _ := Phrase.means_ofRat_of_nonneg hlimit hc.le
    have hfraction : Rational.isInteger c = false := by simpa [Rational.isInteger] using hden
    rw [Phrase.ofRat_of_not_isInteger hc.le hfraction] at hmeans
    have hnumber : FactorText bounds (Phrase.parenthesize (Rational.text c)) (.constant c) :=
      ⟨hmeans.parenthesized.mono (by decide), by simp [isAdd]⟩
    refine ⟨c, 1, by rw [one_div_one, mul_one], one_ne_zero, ?_, ?_, fun _ => rfl⟩
    · intro texts gs htexts
      rw [numberAbove, if_pos hwhole, withFactor_of_ne hone]
      exact .cons hnumber htexts
    · intro texts ds htexts
      simpa [numberBelow, hwhole] using htexts
  | false =>
    have hden : (c.den : Rat) ≠ 0 := by exact_mod_cast c.den_nz
    refine ⟨c.num, c.den, by rw [mul_one_div, Rat.num_div_den], hden, ?_, ?_, fun hany => ?_⟩
    · intro texts gs htexts
      rw [numberAbove, if_neg (by simp [hwhole])]
      by_cases hone : c.num = 1
      · simpa [hone] using htexts
      · have hone' : (c.num : Rat) ≠ 1 := by exact_mod_cast hone
        rw [if_neg hone, withFactor_of_ne hone']
        exact .cons ⟨(Reads.num hc.le).mono (by decide), by simp [isAdd]⟩ htexts
    · intro texts ds htexts
      by_cases hone : c.den = 1
      · simpa [numberBelow, hwhole, hone] using htexts
      · have hone' : (c.den : Rat) ≠ 1 := by exact_mod_cast hone
        have hnumber : numberBelow c factors = [toString c.den] := by
          simp [numberBelow, hwhole, hone]
        rw [hnumber, withFactor_of_ne hone']
        exact .cons ((Reads.nat c.den).mono (by decide)) htexts
    · have hone : c.den = 1 := by simpa [keepsWhole, hany] using hwhole
      rw [hone, Nat.cast_one]

/-- What stands below the line, in brackets if it is more than one factor. -/
def denominator : List String → String
  | [text] => text
  | texts => Phrase.parenthesize ("*".intercalate texts)

variable {factors : List (Expr × Layout)} {gs ds hs : List Expr}

/-- What stands below the line is read as a divisor that stands for the factors below it. -/
theorem Parts.denominator (hlimit : 1 ≤ bounds.maxExactExponent)
    (h : Parts bounds factors gs ds hs) {m : Rat} (hm : m ≠ 0)
    (hbases : (hs.map factorBase).Nodup)
    (hsums : factors.any (fun f => isReciprocalSum f.1) = true → m = 1) {texts : List String}
    (htexts : List.Forall₂ (fun (t : String) e => Reads bounds .power t.toList e) texts
      (withFactor m ds)) (hnil : texts ≠ []) :
    ∃ x q, Reads bounds .negation (denominator texts).toList x ∧
      power bounds x (.constant (-1)) = .ok q ∧ Normal bounds q ∧ Collects [q] (1 / m) hs := by
  have hdivides := h.divides
  rcases texts with - | ⟨text, - | ⟨other, texts⟩⟩
  · exact absurd rfl hnil
  · by_cases hone : m = 1
    · rw [hone, withFactor_one] at htexts
      obtain - | ⟨hreads, - | -⟩ := htexts
      obtain - | ⟨hd, - | -⟩ := hdivides
      refine ⟨_, _, hreads.negation_of_power, hd.power, hd.normal_factor, ?_⟩
      rw [hone, div_one]
      obtain ⟨b, x, rfl⟩ := hd.isPow
      exact collects_of_not_mul (by simp [isConstant, constant?]) (by simp [isMul])
    · rw [withFactor_of_ne hone] at htexts
      obtain - | ⟨hreads, - | -⟩ := htexts
      obtain - | - := hdivides
      exact ⟨_, _, hreads.negation_of_power, power_constant_neg_one hlimit hm, .constant _,
        collects_constant _⟩
  · have hlength := htexts.length_eq
    have hds : ds ≠ [] := by
      rintro rfl
      unfold withFactor at hlength
      split at hlength <;> simp at hlength
    have hsum : ∀ ts, ds ≠ [.add ts] := by
      rintro ts rfl
      rw [hsums (h.sums (.add ts) (by simp) rfl), withFactor_one] at hlength
      simp at hlength
    obtain ⟨p, q, hrule, hp, hpower, hq, hcollects⟩ :=
      exists_reciprocal hlimit hm hdivides hds hbases hsum (by rw [← hlength]; simp)
    refine ⟨p, q, ?_, hpower, hq, hcollects⟩
    have hnegation := htexts.imp fun _ _ hreads => hreads.negation_of_power
    generalize withFactor m ds = es at hnegation hrule
    obtain - | ⟨-, - | ⟨-, -⟩⟩ := id hnegation
    have hproduct := reads_intercalate hnegation hrule hp
    have hwrapped := hproduct.sum_of_product.bracketed.mono
      (show Level.negation.rank ≤ Level.atom.rank by decide)
    rwa [← Phrase.toList_parenthesize] at hwrapped

/-- The texts above the line, `1` if there are none. -/
def numerator (texts : List String) : String :=
  if texts.isEmpty then "1" else "*".intercalate texts

theorem productPhrase_eq (c : Rat) (factors : List (Expr × Layout)) :
    productPhrase c factors = match numberBelow c factors ++ below factors, factors with
      | [], [factor] =>
        if (numberAbove c factors ++ above factors).length = 1 && c = 1 then factor.2.phrase
        else ⟨numerator (numberAbove c factors ++ above factors), .product⟩
      | [], _ => ⟨numerator (numberAbove c factors ++ above factors), .product⟩
      | [text], _ => ⟨numerator (numberAbove c factors ++ above factors) ++ "/" ++ text, .product⟩
      | texts, _ => ⟨numerator (numberAbove c factors ++ above factors) ++ "/" ++
          Phrase.parenthesize ("*".intercalate texts), .product⟩ := rfl

theorem productPhrase_of_below {c : Rat} (h : numberBelow c factors ++ below factors ≠ []) :
    productPhrase c factors = ⟨numerator (numberAbove c factors ++ above factors) ++ "/" ++
      denominator (numberBelow c factors ++ below factors), .product⟩ := by
  rw [productPhrase_eq]
  match numberBelow c factors ++ below factors, h with
  | [_], _ => rfl
  | _ :: _ :: _, _ => rfl

theorem productPhrase_of_not_below {c : Rat} (h : numberBelow c factors ++ below factors = []) :
    productPhrase c factors = ⟨numerator (numberAbove c factors ++ above factors), .product⟩ ∨
      ∃ f, factors = [f] ∧ c = 1 ∧ productPhrase c factors = f.2.phrase := by
  rw [productPhrase_eq, h]
  match factors with
  | [] => exact .inl rfl
  | [f] =>
    dsimp only
    split
    · next hsingle =>
      simp only [Bool.and_eq_true, decide_eq_true_eq] at hsingle
      exact .inr ⟨f, rfl, hsingle.2, rfl⟩
    · exact .inl rfl
  | _ :: _ :: _ => exact .inl rfl

/-- The texts above the line and what stands behind them are factors that collect to a term. -/
theorem factored_numerator {texts : List String} {es as : List Expr} {rest : List Char} {c : Rat}
    {all : List Expr} (h : List.Forall₂ (FactorText bounds) texts es)
    (hrest : ReadsFactors bounds rest as) (hapart : Apart rest)
    (hcollects : Collects (es ++ as) c all) :
    Factored bounds ((numerator texts).toList ++ rest) c all := by
  cases h with
  | nil =>
    have hone : FactorText bounds "1" (.constant 1) :=
      ⟨(Reads.nat 1).mono (by decide), by simp [isAdd]⟩
    have hcollects' : Collects (.constant 1 :: [] ++ as) c all := by
      simpa using (collects_constant 1).append hcollects
    exact factored_intercalate (.cons hone .nil) hrest hapart hcollects'
  | cons hfirst htexts => exact factored_intercalate (.cons hfirst htexts) hrest hapart hcollects

/-- The factors above the line and a number before them collect as they stand. -/
theorem Parts.collects_above (h : Parts bounds factors gs ds hs) {c : Rat}
    (hterm : IsTerm bounds c (factors.map Prod.fst)) (k : Rat) : Collects (withFactor k gs) k gs := by
  have hmem (g : Expr) (hg : g ∈ gs) : g.isConstant = false ∧ g.isMul = false := by
    have hg' := h.perm.mem_iff.mp (List.mem_append_left hs hg)
    rcases hterm.shape with hnil | hshape
    · rw [hnil] at hg'
      cases hg'
    · exact ⟨hshape.not_constant g hg', hshape.not_mul g hg'⟩
  exact collects_withFactor (fun g hg => (hmem g hg).1) (fun g hg => (hmem g hg).2) k

/-- The factors below the line have different bases. -/
theorem Parts.nodup_below (h : Parts bounds factors gs ds hs) {c : Rat}
    (hterm : IsTerm bounds c (factors.map Prod.fst)) : (hs.map factorBase).Nodup := by
  have hall : ((gs ++ hs).map factorBase).Nodup := by
    rw [(h.perm.map _).nodup_iff]
    rcases hterm.shape with hnil | hshape
    · simp [hnil]
    · exact hshape.bases
  rw [List.map_append] at hall
  exact hall.of_append_right

/-- Where no text stands below the line, neither a number nor a factor does. -/
theorem Parts.nothing_below (h : Parts bounds factors gs ds hs) {m : Rat} (hnone : withFactor m ds = []) :
    m = 1 ∧ hs = [] := by
  obtain ⟨hds, hm⟩ : ds = [] ∧ m = 1 := by
    unfold withFactor at hnone
    split at hnone
    · next hone => exact ⟨hnone, hone⟩
    · cases hnone
  have hdivides := h.divides
  rw [hds] at hdivides
  cases hdivides
  exact ⟨hm, rfl⟩

/-- A product with a positive coefficient is written as factors that collect to it, unless it is a
single factor. -/
theorem productPhrase_cases (hlimit : 1 ≤ bounds.maxExactExponent) {c : Rat} (hc : 0 < c)
    (hfits : ∀ f ∈ factors, Fits bounds f.1 f.2) (hterm : IsTerm bounds c (factors.map Prod.fst)) :
    (∃ text, productPhrase c factors = ⟨text, .product⟩ ∧
        Factored bounds text.toList c (factors.map Prod.fst)) ∨
      ∃ f, factors = [f] ∧ c = 1 ∧ below factors = [] ∧ productPhrase c factors = f.2.phrase := by
  obtain ⟨gs, ds, hs, hparts⟩ := exists_parts hfits
  obtain ⟨k, m, hkm, hm, habove, hbelow, hsums⟩ := exists_numbers hlimit hc factors
  have htop := habove _ _ hparts.above
  have hbottom := hbelow _ _ hparts.below
  have hcollects := hparts.collects_above hterm k
  by_cases hline : numberBelow c factors ++ below factors = []
  · have hnone : withFactor m ds = [] := by
      rw [hline] at hbottom
      exact List.forall₂_nil_left_iff.mp hbottom
    obtain ⟨rfl, rfl⟩ := hparts.nothing_below hnone
    rcases productPhrase_of_not_below hline with htext | ⟨f, hf, hone, hphrase⟩
    · refine .inl ⟨_, htext, ?_⟩
      have hk : k = c := by rw [← hkm, one_div_one, mul_one]
      have hperm := hparts.perm
      rw [List.append_nil] at hperm
      have hfactored := factored_numerator htop readsFactors_nil apart_nil
        (by simpa using hcollects.perm hperm)
      rwa [List.append_nil, hk] at hfactored
    · exact .inr ⟨f, hf, hone, (List.append_eq_nil_iff.mp hline).2, hphrase⟩
  · obtain ⟨x, q, hx, hpower, hq, hcollects'⟩ :=
      hparts.denominator hlimit hm (hparts.nodup_below hterm) hsums hbottom hline
    have hrest := readsFactors_nil.dividedBy apart_nil hx hpower hq
    have hall : Collects (withFactor k gs ++ [q]) c (factors.map Prod.fst) := by
      rw [← hkm]
      exact (hcollects.append hcollects').perm hparts.perm
    refine .inl ⟨_, productPhrase_of_below hline, ?_⟩
    have hfactored := factored_numerator htop hrest (apart_of_mem_marks (by decide) _) hall
    simpa [String.toList_append] using hfactored

/-- What a product with a positive coefficient means, and what it means behind a minus sign. -/
theorem productPhrase_spec (hlimit : 1 ≤ bounds.maxExactExponent) {c : Rat} (hc : 0 < c)
    (hfits : ∀ f ∈ factors, Fits bounds f.1 f.2) (hterm : IsTerm bounds c (factors.map Prod.fst)) :
    (productPhrase c factors).Says bounds (Expr.product (withFactor c (factors.map Prod.fst))) ∧
      Reads bounds .product (productPhrase c factors).negated.toList
        (Expr.product (withFactor (-c) (factors.map Prod.fst))) := by
  rcases productPhrase_cases hlimit hc hfits hterm with ⟨text, htext, h⟩ | ⟨f, rfl, rfl, hnone, hphrase⟩
  · rw [htext]
    exact ⟨h.reads hterm, Phrase.negated_of_factored h hterm⟩
  · rw [hphrase]
    obtain ⟨e, layout⟩ := f
    have hfits' : Fits bounds e layout := hfits (e, layout) (by simp)
    cases hfits' with
    | above hmeans hproduct hnegation =>
      exact ⟨hmeans, hmeans.negated hproduct hnegation hterm.multiply_neg_one
        (hterm.of_ne (by norm_num)).normal⟩
    | below => cases hnone

/-! ## Sums -/

/-- The layout of an expression lets it be read back wherever its text is used. -/
structure Spec (bounds : Bounds) (e : Expr) (layout : Layout) : Prop where
  phrase : layout.phrase.Says bounds e
  /-- Behind a minus sign, the phrase without sign means the expression. -/
  unsigned : ∀ phrase, layout.unsigned = some phrase →
    Reads bounds .product phrase.negated.toList e ∧
      ∃ c, Reads bounds .product (phrase.bracket .product).toList c ∧
        multiply bounds [.integer (-1), c] = .ok e
  fits : e.isConstant = false → e.isMul = false → Fits bounds e layout

/-- A term of a sum behind its sign. -/
def signedText (layout : Layout) : List Char :=
  match layout.unsigned with
  | some phrase => ' ' :: '-' :: ' ' :: (phrase.bracket .product).toList
  | none => ' ' :: '+' :: ' ' :: (layout.phrase.bracket .product).toList

/-- The first term of a sum. -/
def openingText (layout : Layout) : String :=
  match layout.unsigned with
  | some phrase => phrase.negated
  | none => layout.phrase.bracket .product

theorem toList_joinTerms (first : Layout) (rest : List Layout) :
    (joinTerms (first :: rest)).toList = (openingText first).toList ++ rest.flatMap signedText := by
  have hfold (text : String) : (rest.foldl (fun text term =>
      match term.unsigned with
      | some unsigned => text ++ " - " ++ unsigned.bracket .product
      | none => text ++ " + " ++ term.phrase.bracket .product) text).toList =
        text.toList ++ rest.flatMap signedText := by
    induction rest generalizing text with
    | nil => simp
    | cons term rest ih =>
      rw [List.foldl_cons, ih]
      cases hunsigned : term.unsigned <;> simp [signedText, hunsigned]
  exact hfold _

theorem Spec.opening {e : Expr} {layout : Layout} (h : Spec bounds e layout) :
    Reads bounds .product (openingText layout).toList e := by
  unfold openingText
  cases hunsigned : layout.unsigned with
  | some phrase => exact (h.unsigned phrase hunsigned).1
  | none => exact h.phrase.bracket (by simp)

theorem readsTerms_flatMap {terms : List Expr} {layouts : List Layout}
    (h : List.Forall₂ (Spec bounds) terms layouts) :
    ReadsTerms bounds (layouts.flatMap signedText) terms ∧ Apart (layouts.flatMap signedText) := by
  induction h with
  | nil => exact ⟨readsTerms_nil, apart_nil⟩
  | @cons e layout _ _ hfirst _ ih =>
    rw [List.flatMap_cons]
    cases hunsigned : layout.unsigned with
    | some phrase =>
      obtain ⟨c, hreads, hrule⟩ := (hfirst.unsigned phrase hunsigned).2
      have htext : signedText layout = ' ' :: '-' :: ' ' :: (phrase.bracket .product).toList := by
        simp [signedText, hunsigned]
      rw [htext]
      exact ⟨ih.1.minus ih.2 hreads hrule hfirst.phrase.sum.normal,
        apart_cons.mpr ⟨by decide, by decide⟩⟩
    | none =>
      have htext : signedText layout =
          ' ' :: '+' :: ' ' :: (layout.phrase.bracket .product).toList := by
        simp [signedText, hunsigned]
      rw [htext]
      exact ⟨ih.1.plus ih.2 (hfirst.phrase.bracket (by simp)),
        apart_cons.mpr ⟨by decide, by decide⟩⟩

/-- Terms in any order are read as the sum that they make. -/
theorem reads_joinTerms {ts : List Expr} {layouts : List Layout} (hts : ∀ t ∈ ts, Normal bounds t)
    (hshape : SumShape ts) (h : ∃ terms, List.Forall₂ (Spec bounds) terms layouts ∧ terms.Perm ts) :
    Reads bounds .sum (joinTerms layouts).toList (.add ts) := by
  obtain ⟨terms, hspecs, hperm⟩ := h
  have hlength := hperm.length_eq ▸ hshape.two_le
  have hadd := add_of_perm hts hshape hperm
  match terms, layouts, hspecs, hlength with
  | first :: second :: terms, layout :: layouts, .cons hfirst hspecs, _ =>
    obtain ⟨hreads, hapart⟩ := readsTerms_flatMap hspecs
    rw [toList_joinTerms, ← hadd]
    exact hreads.sum hapart hfirst.opening

end Layout

end ClosedForm
