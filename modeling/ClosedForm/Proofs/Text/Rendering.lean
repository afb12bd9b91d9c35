import ClosedForm.Proofs.Text.Layouts
import ClosedForm.Proofs.Text.Names
import Mathlib

/-!
# Rendered expressions are read back

The layout of every normal expression whose symbols are names of the grammar lets it be read back
(`Layout.spec`): by induction over the expression, one lemma for each kind of node. So its text states
something that one pass takes to the expression (`exists_read_render`).

A canonical form is normal, and its symbols stem from the text that was read. So its text is accepted,
and the canonical form of the text is the same handle again (`Session.parseCanonical_render`).
-/

namespace ClosedForm

open ClosedForm.Expr Canonical Token Formula

variable {bounds : Bounds}

namespace Layout

/-! ## One node -/

theorem layout_eq (e : Expr) : e.layout = layoutStep e (e.children.map layout) :=
  recurse_eq _ _

theorem Spec.ofPhrase {e : Expr} {phrase : Phrase} (h : phrase.Says bounds e)
    (hfits : e.isConstant = false → e.isMul = false → phrase.level ≠ .product ∧
      phrase.level ≠ .negation ∧ (e.isAdd = true → phrase.level = .sum)) :
    Spec bounds e (.ofPhrase phrase) where
  phrase := h
  unsigned := by simp [Layout.ofPhrase]
  fits hconstant hmul :=
    .above h (hfits hconstant hmul).1 (hfits hconstant hmul).2.1 (hfits hconstant hmul).2.2

theorem layout_constant (q : Rat) : (Expr.constant q).layout =
    ⟨Phrase.ofRat q, if q < 0 then some (Phrase.ofRat (-q)) else none, none⟩ :=
  layout_eq _

theorem spec_constant (hlimit : 1 ≤ bounds.maxExactExponent) (q : Rat) :
    Spec bounds (.constant q) (Expr.constant q).layout := by
  rw [layout_constant]
  refine ⟨Phrase.means_ofRat hlimit q, fun phrase hphrase => ?_, fun hconstant => by cases hconstant⟩
  dsimp only at hphrase
  split at hphrase
  · next hq =>
    cases hphrase
    have hpos : 0 < -q := neg_pos.mpr hq
    have hterm : IsTerm bounds (-q) [] := .constant hpos.ne'
    have hrule := hterm.multiply_neg_one
    rw [product_withFactor_nil, product_withFactor_nil, neg_neg] at hrule
    have hreads : Reads bounds _ _ _ := Phrase.reads_negated_ofRat hlimit hpos
    rw [neg_neg] at hreads
    exact ⟨hreads, _, (Phrase.means_ofRat hlimit (-q)).bracket (by simp), hrule⟩
  · cases hphrase

theorem spec_symbol {name : String} (h : Legible name) :
    Spec bounds (.symbol name) (Expr.symbol name).layout := by
  obtain ⟨c, rest, hname, hc, hrest⟩ := h.isName
  have htext : String.ofList (c :: rest) = name := by rw [← hname, String.ofList_toList]
  have hfunction := h.not_function
  rw [← htext] at hfunction
  have hreads : Reads bounds .atom name.toList (.symbol name) := by
    rw [hname]
    refine ⟨.other, (Writes.name hc hrest hfunction).mono ?_⟩
    rintro _ rfl
    rw [htext]
    exact means_name h.not_unit
  exact .ofPhrase hreads fun _ _ => by simp [isAdd]

theorem spec_imaginaryUnit : Spec bounds .imaginaryUnit Expr.imaginaryUnit.layout := by
  have hreads : Reads bounds .atom "i".toList .imaginaryUnit := by
    have hfirst : startsName 'i' = true := by decide
    have htail : ∀ d ∈ ([] : List Char), continuesName d = true := by simp
    refine ⟨.other, (Writes.name hfirst htail (by decide)).mono ?_⟩
    rintro _ rfl
    exact means_imaginaryUnit
  exact .ofPhrase hreads fun _ _ => by simp [isAdd, Expr.imaginaryUnit]

theorem layout_call {f : Func} (hunit : f ≠ .imaginaryUnit) (argument : Expr) :
    (Expr.call f argument).layout =
      .ofPhrase ⟨f.name ++ Phrase.parenthesize argument.layout.phrase.text, .atom⟩ := by
  rw [layout_eq]
  cases f <;> first | rfl | exact absurd rfl hunit

theorem spec_call {f : Func} {argument : Expr} (hshape : CallShape f argument)
    (h : Spec bounds argument argument.layout) :
    Spec bounds (.call f argument) (Expr.call f argument).layout := by
  have hnormal : Normal bounds (.call f argument) := .call h.phrase.sum.normal hshape
  rw [layout_call hshape.not_unit]
  refine .ofPhrase ?_ fun _ _ => by simp [isAdd, Expr.call]
  show Reads bounds .atom (f.name ++ Phrase.parenthesize argument.layout.phrase.text).toList _
  rw [String.toList_append, Phrase.toList_parenthesize]
  exact h.phrase.sum.call hshape.not_unit (apply_of_shape hshape) hnormal

/-- The layouts in the order of the degrees are those of the terms in some order. -/
theorem exists_layout_add (ts : List Expr) :
    ∃ layouts, (Expr.add ts).layout = .ofPhrase ⟨joinTerms layouts, .sum⟩ ∧
      layouts.Perm (ts.map layout) := by
  refine ⟨_, layout_eq _, ((List.mergeSort_perm _ _).map _).trans ?_⟩
  rw [List.map_snd_zip (by simp [children])]
  exact .refl _

theorem spec_add {ts : List Expr} (hts : ∀ t ∈ ts, Normal bounds t) (hshape : SumShape ts)
    (h : ∀ t ∈ ts, Spec bounds t t.layout) : Spec bounds (.add ts) (Expr.add ts).layout := by
  obtain ⟨layouts, hlayout, hperm⟩ := exists_layout_add ts
  rw [hlayout]
  have hspecs : List.Forall₂ (fun l t => Spec bounds t l) (ts.map layout) ts := by
    rw [List.forall₂_map_left_iff, List.forall₂_same]
    exact h
  obtain ⟨terms, hterms, hperm'⟩ := List.perm_comp_forall₂ hperm hspecs
  have hreads := reads_joinTerms hts hshape ⟨terms, hterms.flip, hperm'⟩
  exact .ofPhrase hreads fun _ _ => by simp

theorem product_of_two_le {fs : List Expr} (h : 2 ≤ fs.length) : Expr.product fs = .mul fs := by
  match fs, h with
  | _ :: _ :: _, _ => rfl

theorem layout_mul {c : Rat} {gs : List Expr} (hconstant : ∀ g ∈ gs, g.isConstant = false)
    (hlength : 2 ≤ (withFactor c gs).length) :
    (Expr.mul (withFactor c gs)).layout = ofProduct c (gs.map fun g => (g, g.layout)) := by
  rw [layout_eq, List.map_prod_left_eq_zip]
  by_cases hone : c = 1
  · rw [hone, withFactor_one] at hlength ⊢
    match gs, hlength with
    | g :: h :: gs, _ =>
      have hg := hconstant g (by simp)
      cases g <;> first | rfl | cases hg
  · rw [withFactor_of_ne hone]
    rfl

theorem spec_mul (hlimit : 1 ≤ bounds.maxExactExponent) {c : Rat} {gs : List Expr} (hc : c ≠ 0)
    (hshape : FactorShape gs) (hlength : 2 ≤ (withFactor c gs).length)
    (h : ∀ g ∈ gs, Spec bounds g g.layout) :
    Spec bounds (.mul (withFactor c gs)) (Expr.mul (withFactor c gs)).layout := by
  let factors := gs.map fun g => (g, g.layout)
  have hfactors : factors.map Prod.fst = gs := by simp [factors, Function.comp_def]
  have hfits : ∀ f ∈ factors, Fits bounds f.1 f.2 := by
    intro f hf
    obtain ⟨g, hg, rfl⟩ := List.mem_map.mp hf
    exact (h g hg).fits (hshape.not_constant g hg) (hshape.not_mul g hg)
  have hterm : IsTerm bounds c gs :=
    ⟨hc, fun g hg => (h g hg).phrase.sum.normal, .inr hshape⟩
  have hempty : factors.isEmpty = false := by
    have hnil := hshape.ne_nil
    cases gs with
    | nil => exact absurd rfl hnil
    | cons => rfl
  have hnotMul {p : Prop} (hmul : (Expr.mul (withFactor c gs)).isMul = false) : p := by cases hmul
  rw [layout_mul hshape.not_constant hlength, ← product_of_two_le hlength]
  show Spec bounds _ (ofProduct c factors)
  unfold ofProduct scaledPhrase
  rw [product_of_two_le hlength] at *
  rw [hempty]
  split
  · next hneg =>
    have hpos : 0 < -c := neg_pos.mpr hneg
    obtain ⟨hphrase, hnegated⟩ := productPhrase_spec hlimit hpos hfits
      (by rw [hfactors]; exact hterm.of_ne hpos.ne')
    rw [hfactors] at hphrase hnegated
    have hrule := (hterm.of_ne hpos.ne').multiply_neg_one
    rw [neg_neg, product_of_two_le hlength] at hnegated hrule
    refine ⟨hnegated, fun phrase heq => ?_, fun _ hmul => hnotMul hmul⟩
    cases heq
    exact ⟨hnegated, _, hphrase.bracket (by simp), hrule⟩
  · next hneg =>
    have hpos : 0 < c := lt_of_le_of_ne (not_lt.mp hneg) hc.symm
    obtain ⟨hphrase, -⟩ := productPhrase_spec hlimit hpos hfits (by rw [hfactors]; exact hterm)
    rw [hfactors, product_of_two_le hlength] at hphrase
    exact .ofPhrase hphrase fun _ hmul => hnotMul hmul

theorem toList_squareRoot (base : Phrase) :
    (squareRoot base).toList = "sqrt".toList ++ '(' :: (base.text.toList ++ [')']) := by
  simp [squareRoot]

/-- A square root is the power to one half. -/
theorem reads_squareRoot {base : Phrase} {b : Expr} (hbase : base.Says bounds b)
    (h : PowerShape bounds b (.constant half)) :
    Reads bounds .atom (squareRoot base).toList (.pow b (.constant half)) := by
  rw [toList_squareRoot]
  exact hbase.sum.squareRoot (power_of_shape h)
    (.pow hbase.sum.normal (.constant _) h)

/-- Any other power is a base in front of an exponent. -/
theorem reads_power {base exponent : Phrase} {b x : Expr} (hbase : base.Says bounds b)
    (hexponent : exponent.Says bounds x) (h : PowerShape bounds b x) :
    Reads bounds .power (base.bracket .atom ++ "^" ++ exponent.bracket .power).toList (.pow b x) := by
  have hpower := (hbase.bracket (by simp)).raised (hexponent.bracket (by simp)) (power_of_shape h)
    (.pow hbase.sum.normal hexponent.sum.normal h)
  simpa using hpower

/-- What is written below a fraction line for a power is read as its divisor. -/
theorem reads_divisorText (hlimit : 1 ≤ bounds.maxExactExponent) {base : Phrase} {b : Expr} {q : Rat}
    (hq : 0 < q) (hbase : base.Says bounds b) (h : PowerShape bounds b (.constant (-q))) :
    Reads bounds .power (divisorText base q).toList (Canonical.divisor b q) := by
  unfold divisorText Canonical.divisor
  by_cases hone : q = 1
  · rw [if_pos hone, if_pos hone]
    exact hbase.bracket (by simp)
  rw [if_neg hone, if_neg hone]
  have hshape := h.neg hq hone
  split
  · next hhalf =>
    rw [hhalf] at hshape ⊢
    exact (reads_squareRoot hbase hshape).power_of_atom
  · exact reads_power hbase (Phrase.means_ofRat hlimit q) hshape

theorem isAdd_divisor {b : Expr} {q : Rat} (h : (Canonical.divisor b q).isAdd = true) :
    isReciprocalSum (.pow b (.constant (-q))) = true := by
  unfold Canonical.divisor at h
  split at h
  · next hone => simp [isReciprocalSum, h, hone]
  · cases h

theorem spec_pow (hlimit : 1 ≤ bounds.maxExactExponent) {b x : Expr} (hshape : PowerShape bounds b x)
    (hb : Spec bounds b b.layout) (hx : Spec bounds x x.layout) :
    Spec bounds (.pow b x) (Expr.pow b x).layout := by
  have hnormal : Normal bounds (.pow b x) := .pow hb.phrase.sum.normal hx.phrase.sum.normal hshape
  have hplain : Spec bounds (.pow b x) (.ofPhrase ⟨b.layout.phrase.bracket .atom ++ "^" ++
      x.layout.phrase.bracket .power, .power⟩) :=
    .ofPhrase (reads_power hb.phrase hx.phrase hshape) fun _ _ => by simp [isAdd]
  rw [layout_eq]
  cases x with
  | constant value =>
    show Spec bounds _ (if value < 0 then _ else if value = half then _ else _)
    split
    · next hneg =>
      obtain ⟨q, rfl⟩ : ∃ q, value = -q := ⟨-value, (neg_neg value).symm⟩
      have hq : 0 < q := neg_lt_zero.mp hneg
      have hdivides := divides_divisor hlimit hq hb.phrase.sum.normal hshape
      have hreads : Reads bounds .power (divisorText b.layout.phrase (- -q)).toList
          (Canonical.divisor b q) := by
        rw [neg_neg]
        exact reads_divisorText hlimit hq hb.phrase hshape
      let factors : List (Expr × Layout) := [(.pow b (.constant (-q)),
        ⟨default, none, some (divisorText b.layout.phrase (- -q))⟩)]
      have hfits : ∀ f ∈ factors, Fits bounds f.1 f.2 := by
        simpa [factors] using Fits.below hdivides hreads isAdd_divisor
      have hterm : IsTerm bounds 1 (factors.map Prod.fst) :=
        ⟨one_ne_zero, by simpa [factors] using hnormal, .inr (factorShape_singleton rfl rfl rfl)⟩
      exact ⟨(productPhrase_spec hlimit one_pos hfits hterm).1, by simp,
        fun _ _ => .below hdivides hreads isAdd_divisor⟩
    · split
      · next hhalf =>
        rw [hhalf] at hshape ⊢
        exact .ofPhrase (reads_squareRoot hb.phrase hshape) fun _ _ => by
          simp [isAdd]
      · exact hplain
  | _ => exact hplain

/-! ## All nodes -/

/-- Normal expressions over legible symbols have layouts that let them be read back. -/
theorem spec (hlimit : 1 ≤ bounds.maxExactExponent) {e : Expr} (h : Normal bounds e)
    (hover : e.Over Legible) : Spec bounds e e.layout := by
  induction h with
  | constant c => exact spec_constant hlimit c
  | symbol name => exact spec_symbol (over_symbol.mp hover)
  | add hts hshape ih =>
    rw [over_add] at hover
    exact spec_add hts hshape fun t ht => ih t ht (hover t ht)
  | @mul c gs hc _ hshape hlength ih =>
    rw [over_mul] at hover
    exact spec_mul hlimit hc hshape hlength fun g hg =>
      ih g hg (hover g (mem_withFactor_of_mem hg c))
  | pow _ _ hshape ihBase ihExponent =>
    rw [over_pow] at hover
    exact spec_pow hlimit hshape (ihBase hover.1) (ihExponent hover.2)
  | imaginaryUnit => exact spec_imaginaryUnit
  | call _ hshape ih =>
    rw [over_call] at hover
    exact spec_call hshape (ih hover)

end Layout

/-- The text of a normal expression over legible symbols states something that one pass takes to the
expression. -/
theorem exists_read_render (hlimit : 1 ≤ bounds.maxExactExponent) {e : Expr} (h : Normal bounds e)
    (hover : e.Over Legible) :
    ∃ raw, Formula.read e.render = .ok raw ∧ Reduces bounds raw e := by
  obtain ⟨d, hd, raw, hlower, hraw⟩ :=
    (Layout.spec hlimit h hover).phrase.sum 0 [] [] apart_nil (.nil _)
  rw [List.append_nil, List.append_nil] at hd
  exact ⟨raw, Formula.read_eq_ok.mpr ⟨d, hd, hlower⟩, hraw⟩

namespace Session

/-- A text that is read in canonical form states an expression. -/
theorem exists_read {session : Session} (h : session.Consistent bounds) {text : String}
    {result : Handle} (hanswer : (session.answer (parseCanonical text)).1 = .ok result) :
    ∃ raw, Formula.read text = .ok raw := by
  have hspec := (Pool.parse_spec text session.pool h.pool).2.2
  cases hread : Formula.read text with
  | ok raw => exact ⟨raw, rfl⟩
  | error x =>
    rw [hread] at hspec
    have hparse : session.answer (parse text) = (.error x, session.after (.parse text)) :=
      Prod.ext hspec rfl
    unfold parseCanonical at hanswer
    rw [answer_bind, hparse] at hanswer
    cases hanswer

/-- The handle that a text is read to in canonical form stands for a normal expression with legible
symbols. -/
theorem standsFor_of_parseCanonical {session later : Session} (hsession : session.Reachable bounds)
    {text : String} {result : Handle}
    (h : session.answer (parseCanonical text) = (.ok result, later)) :
    ∃ c, Pool.StandsFor c result later.pool ∧ Normal bounds c ∧ c.Over Legible := by
  have hconsistent := hsession.consistent
  obtain ⟨raw, hread⟩ := exists_read hconsistent (congrArg Prod.fst h)
  obtain ⟨handle, stored, hanswer, hstored, -, hhandle⟩ := answer_parseCanonical hconsistent hread
  have hspec := canonicalize_spec hstored.consistent handle
  have hmemo := hstored.consistent.memo
  rw [hhandle.2, ← hanswer, h] at hspec
  cases hrun : (ClosedForm.canonicalize bounds raw).run.run stored.memo with
  | mk outcome memo =>
    rw [hrun] at hspec
    cases outcome with
    | error x => cases hspec
    | ok c =>
      obtain ⟨other, hother, hstands⟩ := hspec
      cases hother
      exact ⟨c, hstands, normal_of_canonicalize hmemo hrun,
        hmemo.over_run (congrArg Prod.fst hrun) (over_of_read hread)⟩

/-- A canonical form is rendered to a text that is accepted, and the canonical form of that text is
the same handle. -/
theorem parseCanonical_render (hpasses : 2 ≤ bounds.maxPasses)
    (hlimit : 1 ≤ bounds.maxExactExponent) {session later : Session}
    (hsession : session.Reachable bounds) {text : String} {result : Handle}
    (h : session.answer (parseCanonical text) = (.ok result, later)) :
    ∃ rendered, later.answer (render result) = (.ok rendered, later) ∧
      (∃ raw, (later.answer (parse rendered)).1 = .ok raw) ∧
      (later.answer (parseCanonical rendered)).1 = .ok result := by
  obtain ⟨c, hstands, hc, hover⟩ := standsFor_of_parseCanonical hsession h
  have hlater : later.Consistent bounds := by
    have hafter := hsession.consistent.after (.parseCanonical text) (by simp [Operation.handles, Pool.Has])
    have hsame : session.after (.parseCanonical text) = later := congrArg Prod.snd h
    exact hsame ▸ hafter.consistent
  obtain ⟨raw, hread, hreduces⟩ := exists_read_render hlimit hc hover
  refine ⟨c.render, ?_, ?_, ?_⟩
  · show (Except.ok (later.pool.expr result).render, later) = _
    rw [hstands.2]
  · obtain ⟨handle, hhandle, -⟩ := parse_spec hlater hread
    exact ⟨handle, hhandle⟩
  · obtain ⟨handle, stored, hanswer, hstored, hmemo, hhandle⟩ := answer_parseCanonical hlater hread
    rw [hanswer]
    refine canonicalize_eq hstored.consistent
      (hstands.mono hlater.pool hstored.consistent.pool hstored.pool) ?_
    rw [hhandle.2]
    exact hreduces.canonicalize hpasses hstored.consistent.memo

/-- The canonical form of `-x/2/(1 + y)`. -/
def halfQuotient : Expr :=
  .mul [.constant (-1 / 2), .symbol "x",
    .pow (.add [.constant 1, .symbol "y"]) (.constant (-1))]

/-- In a new session `-x/2/(1 + y)` is rendered with the fraction in front, since `2*(1 + y)` would be
multiplied out, and behind the minus sign in brackets. The text is read to the same handle. -/
theorem parseCanonical_render_fraction :
    ∃ (result : Handle) (later : Session),
      (new {}).answer (parseCanonical "-x/2/(1 + y)") = (.ok result, later) ∧
      later.pool.expr result = halfQuotient ∧
      later.answer (render result) = (.ok "-((1/2)*x/(y + 1))", later) ∧
      (later.answer (parseCanonical "-((1/2)*x/(y + 1))")).1 = .ok result := by
  have hread : Formula.read "-x/2/(1 + y)" = .ok (.mul [.mul [.constant (-1), .symbol "x"],
      .pow (.constant 2) (.constant (-1)),
      .pow (.add [.constant 1, .symbol "y"]) (.constant (-1))]) := by
    cbv
  have hform : Normal {} halfQuotient := normal_of_pass_empty (by cbv)
  have hopposite : Normal {} (.mul [.constant (-1), .symbol "x"]) := by
    have hshape : FactorShape [.symbol "x"] := factorShape_singleton rfl rfl rfl
    have hminus : (-1 : Rat) ≠ 0 := by norm_num
    have hfactors : ∀ f ∈ [Expr.symbol "x"], Normal {} f := by simpa using Normal.symbol "x"
    have hterm := hshape.normal_term hminus hfactors
    rwa [withFactor_of_ne (by norm_num)] at hterm
  have hhalf : Reduces {} (.pow (.constant 2) (.constant (-1))) (.constant (1 / 2)) :=
    .pow (Normal.constant 2).reduces (Normal.constant (-1)).reduces (by cbv) (.constant _)
  have hinverse : Normal {} (.pow (.add [.constant 1, .symbol "y"]) (.constant (-1))) :=
    hform.of_mem_children (by simp [halfQuotient, children])
  have hreduces : Reduces {} (.mul [.mul [.constant (-1), .symbol "x"],
      .pow (.constant 2) (.constant (-1)),
      .pow (.add [.constant 1, .symbol "y"]) (.constant (-1))]) halfQuotient :=
    .mul (.cons hopposite.reduces (.cons hhalf (.cons hinverse.reduces .nil))) (by cbv) hform
  obtain ⟨handle, stored, hanswer, hstored, hmemo, hhandle⟩ :=
    answer_parseCanonical (new_consistent {}) hread
  obtain ⟨result, later, hresult, hstands⟩ := canonicalize_ok hstored.consistent (c := halfQuotient) (by
    rw [hhandle.2]
    exact hreduces.canonicalize (by decide) hstored.consistent.memo)
  have hparsed := hanswer.trans hresult
  obtain ⟨rendered, hrendered, -, hagain⟩ :=
    parseCanonical_render (by decide) (by decide) .new hparsed
  have htext : rendered = "-((1/2)*x/(y + 1))" := by
    have hrender : later.answer (render result) = (.ok halfQuotient.render, later) := by
      show (Except.ok (later.pool.expr result).render, later) = _
      rw [hstands.2]
    rw [hrendered] at hrender
    have hvalue : halfQuotient.render = "-((1/2)*x/(y + 1))" := by cbv
    cases hrender
    exact hvalue
  subst htext
  exact ⟨result, later, hparsed, hstands.2, hrendered, hagain⟩

end Session

end ClosedForm
