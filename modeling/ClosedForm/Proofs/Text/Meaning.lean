import ClosedForm.Proofs.Normal.Divisors
import ClosedForm.Proofs.Reduction
import ClosedForm.Proofs.Text.Places

/-!
# What a text means

A formula `Means` a normal expression if it states something that one pass takes to it. Formulas mean
what the rules make of the meanings of their operands, so meanings are put together like texts:
`Reads level text c` says that the text, where one of the binding level can stand, is read as a formula
that means `c`.

A product is read factor by factor, and the factors only have to collect to what it means
(`Factored`). A minus sign in front of it goes to the first factor, which makes no difference unless
that factor is a sum (`Factored.negative`).
-/

namespace ClosedForm

open ClosedForm.Expr Canonical Formula Token

variable {bounds : Bounds}

/-! ## Meanings of formulas -/

namespace Formula

/-- The formula states an expression that one pass takes to `c`. -/
def Means (bounds : Bounds) (f : Formula) (c : Expr) : Prop :=
  ∃ e, f.lower = .ok e ∧ Reduces bounds e c

theorem Means.normal {f : Formula} {c : Expr} (h : f.Means bounds c) : Normal bounds c := by
  obtain ⟨e, -, he⟩ := h
  exact he.normal

theorem means_number (q : Rat) : (number q).Means bounds (.constant q) :=
  ⟨_, by rw [lower], (Normal.constant q).reduces⟩

theorem means_name {text : String} (h : text ≠ imaginaryUnitName) :
    (name text).Means bounds (.symbol text) :=
  ⟨_, by rw [lower, if_neg (by simpa using h)], (Normal.symbol text).reduces⟩

theorem means_imaginaryUnit : (name imaginaryUnitName).Means bounds .imaginaryUnit :=
  ⟨_, by rw [lower, if_pos (by simp)], Normal.imaginaryUnit.reduces⟩

theorem reduces_neg {e c d : Expr} (h : Reduces bounds e c)
    (hrule : multiply bounds [.integer (-1), c] = .ok d) (hd : Normal bounds d) :
    Reduces bounds e.neg d :=
  .mul (.cons (Normal.constant _).reduces (.cons h .nil)) hrule hd

/-- A minus sign in front of a number belongs to it, in front of anything else it multiplies. -/
theorem Means.negative {f : Formula} {c d : Expr} (h : f.Means bounds c)
    (hrule : multiply bounds [.integer (-1), c] = .ok d) (hd : Normal bounds d) :
    (negative f).Means bounds d := by
  obtain ⟨e, hlower, he⟩ := h
  cases f with
  | number q =>
    rw [lower] at hlower
    cases hlower
    have hc : c = .constant q := by
      have hnormal : Normal bounds (.constant q) := .constant q
      have hpass := pass_empty_normal hnormal
      exact Except.ok.inj (he.pass.symm.trans hpass)
    rw [hc, integer, multiply_constants] at hrule
    cases hrule
    refine ⟨_, rfl, ?_⟩
    rw [Int.cast_neg, Int.cast_one, neg_one_mul]
    exact (Normal.constant (-q)).reduces
  | _ => exact ⟨e.neg, lower_negative (by simp) hlower, reduces_neg he hrule hd⟩

theorem Means.subtracted {f : Formula} {c d : Expr} (h : f.Means bounds c)
    (hrule : multiply bounds [.integer (-1), c] = .ok d) (hd : Normal bounds d) :
    (subtracted f).Means bounds d := by
  obtain ⟨e, hlower, he⟩ := h
  exact ⟨e.neg, by rw [lower, hlower]; rfl, reduces_neg he hrule hd⟩

theorem Means.divisor {f : Formula} {c d : Expr} (h : f.Means bounds d)
    (hrule : Canonical.power bounds d (.constant (-1)) = .ok c) (hc : Normal bounds c) :
    (Formula.divisor f).Means bounds c := by
  obtain ⟨e, hlower, he⟩ := h
  have hminus : Expr.integer (-1) = .constant (-1) := by simp [integer]
  refine ⟨e.inverse, by rw [lower, hlower]; rfl, ?_⟩
  rw [inverse, hminus]
  exact .pow he (Normal.constant _).reduces hrule hc

theorem Means.power {f g : Formula} {b x c : Expr} (h : f.Means bounds b) (h' : g.Means bounds x)
    (hrule : Canonical.power bounds b x = .ok c) (hc : Normal bounds c) :
    (Formula.power f g).Means bounds c := by
  obtain ⟨e, hlower, he⟩ := h
  obtain ⟨e', hlower', he'⟩ := h'
  exact ⟨.pow e e', by rw [lower, hlower, hlower']; rfl, .pow he he' hrule hc⟩

theorem Means.squareRoot {f : Formula} {a c : Expr} (h : f.Means bounds a) (offset : Nat)
    (hrule : Canonical.power bounds a (.constant Layout.half) = .ok c) (hc : Normal bounds c) :
    (call offset squareRootName [f]).Means bounds c := by
  obtain ⟨e, hlower, he⟩ := h
  exact ⟨_, lower_squareRoot offset hlower, .pow he (Normal.constant _).reduces hrule hc⟩

theorem Means.call {f : Formula} {function : String} {head : Func} {a c : Expr}
    (h : f.Means bounds a) (offset : Nat) (hroot : function ≠ squareRootName)
    (hhead : Func.ofName? function = some head) (hrule : apply bounds head [a] = .ok c)
    (hc : Normal bounds c) : (call offset function [f]).Means bounds c := by
  obtain ⟨e, hlower, he⟩ := h
  exact ⟨_, lower_call offset hroot hhead hlower, .call he hrule hc⟩

/-- A chain of two or more factors. -/
theorem means_product {f g : Formula} {fs : List Formula} {a b c : Expr} {cs : List Expr}
    (h : List.Forall₂ (Means bounds) (f :: g :: fs) (a :: b :: cs))
    (hrule : multiply bounds (a :: b :: cs) = .ok c) (hc : Normal bounds c) :
    (product (f :: g :: fs)).Means bounds c := by
  obtain ⟨es, hlower, hes⟩ := exists_lowerList h
  refine ⟨.product es, by rw [lower, hlower]; rfl, ?_⟩
  match es, hes with
  | _ :: _ :: _, hes => exact .mul hes hrule hc

/-- A chain of two or more terms. -/
theorem means_sum {f g : Formula} {fs : List Formula} {a b : Expr} {cs : List Expr}
    (h : List.Forall₂ (Means bounds) (f :: g :: fs) (a :: b :: cs)) :
    (sum (f :: g :: fs)).Means bounds (Canonical.add (a :: b :: cs)) := by
  obtain ⟨es, hlower, hes⟩ := exists_lowerList h
  refine ⟨.sum es, by rw [lower, hlower]; rfl, ?_⟩
  match es, hes with
  | _ :: _ :: _, hes => exact .add hes

end Formula

/-! ## Texts at their level -/

/-- Where a text of this level can stand, the text is read as a formula that means `c`. -/
def Reads (bounds : Bounds) (level : Level) (text : List Char) (c : Expr) : Prop :=
  match level with
  | .sum => Writes .sum text fun f => Means bounds f c
  | .product => Writes .product text fun f => Means bounds f c
  | .negation => Writes .signed text fun f => Means bounds f c
  | .power => ∃ lead, Writes (.power lead) text fun f => Means bounds f c
  | .atom => ∃ lead, Writes (.atom lead) text fun f => Means bounds f c

namespace Reads

variable {text rest : List Char} {a b c d : Expr}

theorem iff_stands {level : Level} :
    Reads bounds level text c ↔ Stands level text fun f => Means bounds f c := by
  cases level <;> exact Iff.rfl

theorem power_of_atom (h : Reads bounds .atom text c) : Reads bounds .power text c :=
  iff_stands.mpr (iff_stands.mp h).power_of_atom

theorem negation_of_power (h : Reads bounds .power text c) : Reads bounds .negation text c :=
  iff_stands.mpr (iff_stands.mp h).negation_of_power

theorem product_of_negation (h : Reads bounds .negation text c) : Reads bounds .product text c :=
  iff_stands.mpr (iff_stands.mp h).product_of_negation

theorem sum_of_product (h : Reads bounds .product text c) : Reads bounds .sum text c :=
  iff_stands.mpr (iff_stands.mp h).sum_of_product

/-- A text can stand where one that binds less is demanded. -/
theorem mono {level demanded : Level} (h : Reads bounds level text c)
    (hle : demanded.rank ≤ level.rank) : Reads bounds demanded text c :=
  iff_stands.mpr ((iff_stands.mp h).mono hle)

theorem sum {level : Level} (h : Reads bounds level text c) : Reads bounds .sum text c :=
  (iff_stands.mp h).sum

/-- What is read has a meaning, already in front of nothing. -/
theorem normal {level : Level} (h : Reads bounds level text c) : Normal bounds c := by
  obtain ⟨f, -, hf⟩ := h.sum 0 [] [] apart_nil (.nil _)
  exact hf.normal

theorem bracketed (h : Reads bounds .sum text c) : Reads bounds .atom ('(' :: (text ++ [')'])) c :=
  iff_stands.mpr (iff_stands.mp h).bracketed

theorem negative (h : Reads bounds .negation text c)
    (hrule : multiply bounds [.integer (-1), c] = .ok d) (hd : Normal bounds d) :
    Reads bounds .negation ('-' :: text) d := by
  refine iff_stands.mpr ((iff_stands.mp h).negative.imp ?_)
  rintro _ ⟨f, hf, rfl⟩
  exact hf.negative hrule hd

theorem raised (h : Reads bounds .atom text b) (h' : Reads bounds .power rest a)
    (hrule : Canonical.power bounds b a = .ok c) (hc : Normal bounds c) :
    Reads bounds .power (text ++ '^' :: rest) c := by
  refine iff_stands.mpr (((iff_stands.mp h).raised (iff_stands.mp h')).imp ?_)
  rintro _ ⟨f, g, hf, hg, rfl⟩
  exact hf.power hg hrule hc

theorem squareRoot (h : Reads bounds .sum text a)
    (hrule : Canonical.power bounds a (.constant Layout.half) = .ok c) (hc : Normal bounds c) :
    Reads bounds .atom ("sqrt".toList ++ '(' :: (text ++ [')'])) c := by
  refine iff_stands.mpr ((iff_stands.mp h).squareRoot.imp ?_)
  rintro _ ⟨offset, f, hf, rfl⟩
  exact hf.squareRoot offset hrule hc

theorem call {f : Func} (hunit : f ≠ .imaginaryUnit) (h : Reads bounds .sum text a)
    (hrule : apply bounds f [a] = .ok c) (hc : Normal bounds c) :
    Reads bounds .atom (f.name.toList ++ '(' :: (text ++ [')'])) c := by
  refine iff_stands.mpr (((iff_stands.mp h).call hunit).imp ?_)
  rintro _ ⟨offset, function, g, hg, hroot, hhead, rfl⟩
  exact hg.call offset hroot hhead hrule hc

end Reads

/-! ## Products and sums -/

/-- The text is read as factors behind another one, which mean these expressions. -/
def ReadsFactors (bounds : Bounds) (text : List Char) (cs : List Expr) : Prop :=
  Writes .factors text fun fs => List.Forall₂ (Means bounds) fs cs

/-- The text is read as terms behind another one, which mean these expressions. -/
def ReadsTerms (bounds : Bounds) (text : List Char) (cs : List Expr) : Prop :=
  Writes .terms text fun fs => List.Forall₂ (Means bounds) fs cs

section

variable {text rest : List Char} {a b c d : Expr} {as : List Expr}

theorem readsFactors_nil : ReadsFactors bounds [] [] := by
  refine Writes.noFactors.mono ?_
  rintro _ rfl
  exact .nil

theorem ReadsFactors.times (h' : ReadsFactors bounds rest as) (hrest : Apart rest)
    (h : Reads bounds .negation text a) : ReadsFactors bounds ('*' :: (text ++ rest)) (a :: as) := by
  have hsigned : Writes .signed text fun f => Means bounds f a := h
  refine (hsigned.factor .times h' hrest).mono ?_
  rintro _ ⟨f, fs, hf, hfs, rfl⟩
  exact .cons hf hfs

theorem ReadsFactors.dividedBy (h' : ReadsFactors bounds rest as) (hrest : Apart rest)
    (h : Reads bounds .negation text d) (hrule : power bounds d (.constant (-1)) = .ok a)
    (ha : Normal bounds a) : ReadsFactors bounds ('/' :: (text ++ rest)) (a :: as) := by
  have hsigned : Writes .signed text fun f => Means bounds f d := h
  refine (hsigned.factor .dividedBy h' hrest).mono ?_
  rintro _ ⟨f, fs, hf, hfs, rfl⟩
  exact .cons (hf.divisor hrule ha) hfs

theorem readsTerms_nil : ReadsTerms bounds [] [] := by
  refine Writes.noTerms.mono ?_
  rintro _ rfl
  exact .nil

theorem ReadsTerms.plus (h' : ReadsTerms bounds rest as) (hrest : Apart rest)
    (h : Reads bounds .product text a) :
    ReadsTerms bounds (' ' :: '+' :: ' ' :: (text ++ rest)) (a :: as) := by
  have hproduct : Writes .product text fun f => Means bounds f a := h
  refine (hproduct.term .plus h' hrest).mono ?_
  rintro _ ⟨f, fs, hf, hfs, rfl⟩
  exact .cons hf hfs

theorem ReadsTerms.minus (h' : ReadsTerms bounds rest as) (hrest : Apart rest)
    (h : Reads bounds .product text d) (hrule : multiply bounds [.integer (-1), d] = .ok a)
    (ha : Normal bounds a) :
    ReadsTerms bounds (' ' :: '-' :: ' ' :: (text ++ rest)) (a :: as) := by
  have hproduct : Writes .product text fun f => Means bounds f d := h
  refine (hproduct.term .minus h' hrest).mono ?_
  rintro _ ⟨f, fs, hf, hfs, rfl⟩
  exact .cons (hf.subtracted hrule ha) hfs

/-- Two or more terms are read as their sum. -/
theorem ReadsTerms.sum (h' : ReadsTerms bounds rest (b :: as)) (hrest : Apart rest)
    (h : Reads bounds .product text a) :
    Reads bounds .sum (text ++ rest) (Canonical.add (a :: b :: as)) := by
  have hproduct : Writes .product text fun f => Means bounds f a := h
  show Writes .sum (text ++ rest) fun f => Means bounds f (Canonical.add (a :: b :: as))
  refine (hproduct.sum h' hrest).mono ?_
  rintro _ ⟨f, fs, hf, hfs, rfl⟩
  match fs, hfs with
  | _ :: _, hfs => exact means_sum (.cons hf hfs)

/-- Two or more factors are read as their product. -/
theorem ReadsFactors.product (h' : ReadsFactors bounds rest (b :: as)) (hrest : Apart rest)
    (h : Reads bounds .negation text a) (hrule : multiply bounds (a :: b :: as) = .ok c)
    (hc : Normal bounds c) : Reads bounds .product (text ++ rest) c := by
  have hsigned : Writes .signed text fun f => Means bounds f a := h
  show Writes .product (text ++ rest) fun f => Means bounds f c
  refine (hsigned.product h' hrest).mono ?_
  rintro _ ⟨f, fs, hf, hfs, rfl⟩
  match fs, hfs with
  | _ :: _, hfs => exact means_product (.cons hf hfs) hrule hc

end

/-- The text is a first factor and others behind it, which collect to the coefficient and the factors.
The first one is no sum, unless the text starts with a bracket. -/
inductive Factored (bounds : Bounds) : List Char → Rat → List Expr → Prop
  | intro {first rest : List Char} {a : Expr} {as gs : List Expr} {c : Rat}
    (hfirst : Reads bounds .negation first a) (hrest : ReadsFactors bounds rest as)
    (hapart : Apart rest) (hcollects : Collects (a :: as) c gs)
    (hsum : a.isAdd = true → first.head? = some '(') : Factored bounds (first ++ rest) c gs

namespace Factored

variable {text : List Char} {c : Rat} {gs : List Expr}

theorem reads (h : Factored bounds text c gs) (hterm : IsTerm bounds c gs) :
    Reads bounds .product text (Expr.product (withFactor c gs)) := by
  cases h with
  | @intro first rest a as _ _ hfirst hrest hapart hcollects hsum =>
    cases as with
    | nil =>
      rw [← hterm.eq_of_collects hfirst.normal hcollects]
      have hsigned : Writes .signed first fun f => Means bounds f a := hfirst
      show Writes .product (first ++ rest) fun f => Means bounds f a
      refine (hsigned.product hrest hapart).mono ?_
      rintro _ ⟨f, _, hf, hfs, rfl⟩
      cases hfs
      exact hf
    | cons b as => exact hrest.product hapart hfirst (hterm.multiply hcollects) hterm.normal

/-- A minus sign in front goes to the first factor. -/
theorem negative (h : Factored bounds text c gs) (hopen : text.head? ≠ some '(') :
    Factored bounds ('-' :: text) (-c) gs := by
  cases h with
  | @intro first rest a as _ _ hfirst hrest hapart hcollects hsum =>
    have hadd : a.isAdd = false := by
      by_contra hadd
      have hhead := hsum (by simpa using hadd)
      exact hopen (by rw [List.head?_append, hhead]; rfl)
    obtain ⟨d, hrule, hd, hnot, hcollects'⟩ := exists_negative hfirst.normal hadd
    rw [← List.cons_append]
    refine .intro (hfirst.negative hrule hd) hrest hapart (hcollects' as c gs hcollects) fun hsum => ?_
    rw [hnot] at hsum
    cases hsum

end Factored

end ClosedForm
