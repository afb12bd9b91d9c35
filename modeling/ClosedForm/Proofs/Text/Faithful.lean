import ClosedForm.Proofs.Text.Regrouping
import ClosedForm.Proofs.Text.Rendering
import ClosedForm.Proofs.Value.Complex

/-!
# Texts keep values

The layout of every `Writable` expression keeps its value (`Semantics.keeps`), by induction over the
expression with one lemma for each kind of node. So its text is accepted, and what the text states has
the value of the expression wherever the expression has one, simplified or not
(`Session.value_parse_render`).
-/

namespace ClosedForm

open ClosedForm.Expr Token

/-- Sums and products have two children or more, functions as many as they take, and symbols are names
of the grammar. -/
inductive Expr.Writable : Expr → Prop
  | constant (value : Rat) : Writable (.constant value)
  | symbol {name : String} (h : Legible name) : Writable (.symbol name)
  | add {terms : List Expr} (hlength : 2 ≤ terms.length) (h : ∀ t ∈ terms, Writable t) :
      Writable (.add terms)
  | mul {factors : List Expr} (hlength : 2 ≤ factors.length) (h : ∀ f ∈ factors, Writable f) :
      Writable (.mul factors)
  | pow {base exponent : Expr} (hbase : Writable base) (hexponent : Writable exponent) :
      Writable (.pow base exponent)
  | function {head : Func} {arguments : List Expr} (hlength : arguments.length = head.arity)
      (h : ∀ a ∈ arguments, Writable a) : Writable (.function head arguments)

namespace Semantics

variable {K : Type*} [Field K] [CharZero K] {M : Semantics K} {σ : String → K}

theorem Keeps.ofPhrase {e : Expr} {phrase : Phrase} (h : M.Says σ phrase e) :
    M.Keeps σ e (.ofPhrase phrase) where
  phrase := h
  unsigned := by simp [Layout.ofPhrase]
  fits := h

/-! ## Leaves and functions -/

theorem keeps_constant (q : Rat) : M.Keeps σ (.constant q) (Expr.constant q).layout := by
  rw [Layout.layout_constant]
  refine ⟨says_ofRat q, fun phrase hphrase => ?_, says_ofRat q⟩
  dsimp only at hphrase
  split at hphrase
  · cases hphrase
    have hvalue := matches_neg_constant (M := M) (σ := σ) (-q)
    rw [neg_neg] at hvalue
    exact ⟨_, says_ofRat (-q), hvalue⟩
  · cases hphrase

theorem keeps_symbol {name : String} (h : Legible name) :
    M.Keeps σ (.symbol name) (Expr.symbol name).layout := by
  obtain ⟨c, rest, hname, hc, hrest⟩ := h.isName
  have htext : String.ofList (c :: rest) = name := by rw [← hname, String.ofList_toList]
  have hfunction := h.not_function
  rw [← htext] at hfunction
  have hreads : M.Reads σ .atom name.toList (.symbol name) := by
    rw [hname]
    refine (Stands.name hc hrest hfunction).imp ?_
    rintro _ rfl
    rw [htext]
    exact states_name h.not_unit
  exact .ofPhrase hreads

theorem keeps_imaginaryUnit : M.Keeps σ .imaginaryUnit Expr.imaginaryUnit.layout := by
  have hreads : M.Reads σ .atom "i".toList .imaginaryUnit := by
    have hfirst : startsName 'i' = true := by decide
    have htail : ∀ d ∈ ([] : List Char), continuesName d = true := by simp
    refine (Stands.name hfirst htail (by decide)).imp ?_
    rintro _ rfl
    exact states_imaginaryUnit
  exact .ofPhrase hreads

theorem keeps_call {f : Func} (hunit : f ≠ .imaginaryUnit) {argument : Expr}
    (h : M.Keeps σ argument argument.layout) :
    M.Keeps σ (.call f argument) (Expr.call f argument).layout := by
  rw [Layout.layout_call hunit]
  refine .ofPhrase ?_
  show M.Reads σ .atom (f.name ++ Phrase.parenthesize argument.layout.phrase.text).toList _
  rw [String.toList_append, Phrase.toList_parenthesize]
  exact h.phrase.sum.call hunit

theorem keeps_function {f : Func} {arguments : List Expr} (hlength : arguments.length = f.arity)
    (h : ∀ a ∈ arguments, M.Keeps σ a a.layout) :
    M.Keeps σ (.function f arguments) (Expr.function f arguments).layout := by
  by_cases hunit : f = .imaginaryUnit
  · subst hunit
    have hnil : arguments = [] := List.length_eq_zero_iff.mp hlength
    subst hnil
    exact keeps_imaginaryUnit
  · have hone : f.arity = 1 := by cases f <;> first | rfl | exact absurd rfl hunit
    obtain ⟨argument, rfl⟩ := List.length_eq_one_iff.mp (hlength.trans hone)
    exact keeps_call hunit (h argument (by simp))

/-! ## Sums and products -/

theorem keeps_add {ts : List Expr} (hlength : 2 ≤ ts.length)
    (h : ∀ t ∈ ts, M.Keeps σ t t.layout) : M.Keeps σ (.add ts) (Expr.add ts).layout := by
  -- The layouts in the order of the degrees are those of the terms in some order.
  obtain ⟨layouts, hlayout, hperm⟩ := Layout.exists_layout_add ts
  rw [hlayout]
  have hkeeps : List.Forall₂ (fun l t => M.Keeps σ t l) (ts.map Expr.layout) ts := by
    rw [List.forall₂_map_left_iff, List.forall₂_same]
    exact h
  obtain ⟨terms, hterms, hperm'⟩ := List.perm_comp_forall₂ hperm hkeeps
  have hreads := reads_joinTerms (hperm'.length_eq ▸ hlength) hterms.flip
  exact .ofPhrase (hreads.of_matches (matches_add_of_perm hperm'))

theorem matches_one_mul (es : List Expr) :
    M.Matches σ (.mul (.constant 1 :: es)) (.mul es) := by
  intro x hx
  exact value_mul_cons_eq_some.mpr ⟨1, x, by simp, hx, (one_mul x).symm⟩

/-- The sign of the coefficient may stand in front of the product. -/
theorem matches_neg_coefficient (c : Rat) (es : List Expr) :
    M.Matches σ (.neg (.mul (.constant (-c) :: es))) (.mul (.constant c :: es)) := by
  intro x hx
  obtain ⟨y, z, hy, hz, rfl⟩ := value_mul_cons_eq_some.mp hx
  cases hy
  refine value_neg_eq_some.mpr ⟨_, value_mul_cons_eq_some.mpr ⟨_, z, value_constant (-c), hz, rfl⟩, ?_⟩
  rw [Rat.cast_neg]
  ring

/-- The layout of a coefficient and one factor or more. -/
theorem keeps_ofProduct {c : Rat} {gs : List Expr} (hnil : gs ≠ [])
    (h : ∀ g ∈ gs, M.Keeps σ g g.layout) : M.Keeps σ (.mul (.constant c :: gs))
      (Layout.ofProduct c (gs.map fun g => (g, g.layout))) := by
  have hfits : ∀ f ∈ gs.map fun g => (g, g.layout), M.Fits σ f.1 f.2 := by
    intro f hf
    obtain ⟨g, hg, rfl⟩ := List.mem_map.mp hf
    exact (h g hg).fits
  have hscaled {k : Rat} (hk : 0 ≤ k) : M.Says σ
      (Layout.scaledPhrase k (gs.map fun g => (g, g.layout))) (.mul (.constant k :: gs)) := by
    have hphrase := says_productPhrase hk hfits
    rw [List.map_map, Function.comp_def, List.map_id'] at hphrase
    rwa [Layout.scaledPhrase, if_neg (by simpa using hnil)]
  unfold Layout.ofProduct
  split
  · next hneg =>
    have hunsigned := hscaled (neg_pos.mpr hneg).le
    have hsigned : M.Says σ ⟨(Layout.scaledPhrase (-c) (gs.map fun g => (g, g.layout))).negated,
        .product⟩ (.mul (.constant c :: gs)) :=
      Chain.of_matches hunsigned.negated (matches_neg_coefficient c gs)
    refine ⟨hsigned, fun phrase hphrase => ?_, hsigned⟩
    cases hphrase
    exact ⟨_, hunsigned, matches_neg_coefficient c gs⟩
  · next hneg => exact .ofPhrase (hscaled (not_lt.mp hneg))

theorem Keeps.of_matches {d e : Expr} {layout : Layout} (h : M.Keeps σ d layout)
    (hnone : layout.divisor = none) (hd : M.Matches σ d e) : M.Keeps σ e layout where
  phrase := h.phrase.of_matches hd
  unsigned phrase hphrase := by
    obtain ⟨d', hsays, hd'⟩ := h.unsigned phrase hphrase
    exact ⟨d', hsays, hd'.trans hd⟩
  fits := by
    have hfits := h.fits
    unfold Fits at hfits ⊢
    rw [hnone] at hfits ⊢
    exact Says.of_matches hfits hd

/-- A constant in front is the coefficient, and without one the coefficient is `1`. -/
theorem keeps_mul {fs : List Expr} (hlength : 2 ≤ fs.length)
    (h : ∀ f ∈ fs, M.Keeps σ f f.layout) : M.Keeps σ (.mul fs) (Expr.mul fs).layout := by
  match fs, hlength with
  | first :: second :: rest, _ =>
    rw [Layout.layout_eq]
    by_cases hconstant : ∃ c, first = .constant c
    · obtain ⟨c, rfl⟩ := hconstant
      have hkeeps := keeps_ofProduct (M := M) (σ := σ) (c := c) (List.cons_ne_nil second rest)
        fun g hg => h g (List.mem_cons_of_mem _ hg)
      rwa [List.map_prod_left_eq_zip] at hkeeps
    · have hkeeps := keeps_ofProduct (M := M) (σ := σ) (c := 1) (by simp) h
      rw [List.map_prod_left_eq_zip] at hkeeps
      cases first with
      | constant c => exact absurd ⟨c, rfl⟩ hconstant
      | _ => exact hkeeps.of_matches rfl (matches_one_mul _)

/-! ## Powers -/

theorem reads_squareRoot {base : Phrase} {b : Expr} (h : M.Says σ base b) :
    M.Reads σ .atom (Layout.squareRoot base).toList (.pow b (.constant Layout.half)) := by
  rw [Layout.toList_squareRoot]
  exact h.sum.squareRoot

theorem reads_power {base exponent : Phrase} {b x : Expr} (hbase : M.Says σ base b)
    (hexponent : M.Says σ exponent x) :
    M.Reads σ .power (base.bracket .atom ++ "^" ++ exponent.bracket .power).toList (.pow b x) := by
  simpa using (hbase.tight (by decide)).raised (hexponent.tight (by decide))

/-- What is written below a fraction line for a power divides. -/
theorem exists_divisor {base : Phrase} {b : Expr} {q : Rat} (hq : 0 < q) (h : M.Says σ base b) :
    ∃ d, M.Reads σ .power (Layout.divisorText base q).toList d ∧
      M.Divides σ d (.pow b (.constant (-q))) := by
  have hdivides := divides_pow (M := M) (σ := σ) (b := b) hq
  unfold Layout.divisorText
  split
  · next hone =>
    rw [hone] at hdivides ⊢
    exact ⟨b, h.tight (by decide), hdivides.of_eq_one⟩
  · split
    · next hhalf =>
      rw [hhalf] at hdivides ⊢
      exact ⟨_, (reads_squareRoot h).mono (by decide), hdivides⟩
    · exact ⟨_, reads_power h (says_ofRat q), hdivides⟩

theorem keeps_pow {b x : Expr} (hb : M.Keeps σ b b.layout) (hx : M.Keeps σ x x.layout) :
    M.Keeps σ (.pow b x) (Expr.pow b x).layout := by
  have hplain : M.Keeps σ (.pow b x) (.ofPhrase ⟨b.layout.phrase.bracket .atom ++ "^" ++
      x.layout.phrase.bracket .power, .power⟩) :=
    .ofPhrase (reads_power hb.phrase hx.phrase)
  rw [Layout.layout_eq]
  cases x with
  | constant value =>
    show M.Keeps σ _ (if value < 0 then _ else if value = Layout.half then _ else _)
    split
    · next hneg =>
      obtain ⟨q, rfl⟩ : ∃ q, value = -q := ⟨-value, (neg_neg value).symm⟩
      have hdivisor := exists_divisor (neg_lt_zero.mp hneg) hb.phrase
      let factors : List (Expr × Layout) := [(.pow b (.constant (-q)),
        ⟨default, none, some (Layout.divisorText b.layout.phrase q)⟩)]
      rw [neg_neg]
      have hfits : ∀ f ∈ factors, M.Fits σ f.1 f.2 := by
        intro f hf
        obtain rfl := List.mem_singleton.mp hf
        exact hdivisor
      have hphrase := says_productPhrase (M := M) (σ := σ) zero_le_one hfits
      exact ⟨hphrase.of_matches ((matches_one_mul _).trans (matches_singleton _)), by simp,
        hfits _ (List.mem_singleton.mpr rfl)⟩
    · split
      · next hhalf =>
        rw [hhalf]
        exact .ofPhrase (reads_squareRoot hb.phrase)
      · exact hplain
  | _ => exact hplain

/-! ## All nodes -/

/-- The layout of a writable expression keeps its value. -/
theorem keeps {e : Expr} (h : e.Writable) : M.Keeps σ e e.layout := by
  induction h with
  | constant value => exact keeps_constant value
  | symbol h => exact keeps_symbol h
  | add hlength _ ih => exact keeps_add hlength ih
  | mul hlength _ ih => exact keeps_mul hlength ih
  | pow _ _ ihBase ihExponent => exact keeps_pow ihBase ihExponent
  | function hlength _ ih => exact keeps_function hlength ih

end Semantics

/-! ## Interpretations -/

namespace Interpretation

variable {K : Type*} [Field K] [CharZero K]

theorem ne_zero_of_pow_neg (M : Interpretation K) {b x : K} {q : ℚ} (hq : 0 < q)
    (h : M.pow b (-q) = some x) : x ≠ 0 := by
  -- Otherwise a negative power of `b` would be `0`: the one to the numerator of the exponent.
  rintro rfl
  have hcast : (-(q : K)) * ((q.den : ℤ) : K) = ((-q.num : ℤ) : K) := by
    have hnum : q * q.den = q.num := Rat.mul_den_eq_num q
    push_cast
    rw [neg_mul]
    exact_mod_cast congrArg (fun p : ℚ => -(p : K)) hnum
  have hden : (q.den : ℤ) ≠ 0 := by exact_mod_cast q.den_nz
  have hpow := M.pow_pow b (-q) q.den 0 0 h (by
    rw [M.pow_int 0 _ (.inr (Int.natCast_nonneg _)), zero_zpow _ hden])
  rw [hcast] at hpow
  have hnegative : -q.num < 0 := neg_lt_zero.mpr (Rat.num_pos.mpr hq)
  by_cases hb : b = 0
  · rw [hb, M.zero_pow_neg _ hnegative] at hpow
    cases hpow
  · rw [M.pow_int _ _ (.inl hb)] at hpow
    exact zpow_ne_zero _ hb (Option.some.inj hpow)

/-- In every interpretation negative exponents divide. -/
def semantics (M : Interpretation K) : Semantics K where
  i := M.i
  apply := M.apply
  pow := M.pow
  pow_one b := by simpa using M.pow_int b 1 (.inr zero_le_one)
  pow_neg_one b hb := by simpa using M.pow_int b (-1) (.inl hb)
  pow_neg b q x hq h := by
    have hx := M.ne_zero_of_pow_neg hq h
    have hinverse : M.pow x ((-1 : ℤ) : K) = some x⁻¹ := by
      rw [M.pow_int _ _ (.inl hx), zpow_neg_one]
    have hpow := M.pow_pow b (-q) (-1) x x⁻¹ h hinverse
    refine ⟨x⁻¹, by simpa using hpow, inv_ne_zero hx, by simp⟩

end Interpretation

/-! ## Texts -/

universe u

/-- The text of a writable expression is accepted, and what it states has the value of the expression. -/
theorem Semantics.exists_read {K : Type u} [Field K] [CharZero K] (M : Semantics K) (σ : String → K)
    {e : Expr} (h : e.Writable) :
    ∃ raw, Formula.read e.render = .ok raw ∧ M.Matches σ raw e := by
  obtain ⟨d, hd, raw, hlower, hraw⟩ :=
    (keeps h (M := M) (σ := σ)).phrase.sum 0 [] [] apart_nil (.nil _)
  rw [List.append_nil, List.append_nil] at hd
  exact ⟨raw, Formula.read_eq_ok.mpr ⟨d, hd, hlower⟩, hraw⟩

/-- What the text of a writable expression states does not depend on what it is to mean. -/
theorem Expr.Writable.exists_read {e : Expr} (h : e.Writable) :
    ∃ raw, Formula.read e.render = .ok raw ∧
      ∀ (K : Type u) [Field K] [CharZero K] (M : Semantics K) (σ : String → K),
        M.Matches σ raw e := by
  obtain ⟨raw, hread, -⟩ := Interpretation.complex.semantics.exists_read (fun _ => 0) h
  refine ⟨raw, hread, fun K _ _ M σ => ?_⟩
  obtain ⟨other, hother, hmatches⟩ := M.exists_read σ h
  rw [hread] at hother
  cases hother
  exact hmatches

namespace Session

variable {bounds : Bounds}

/-- The text of a writable expression is accepted, and what it is parsed to has the value of the
expression wherever the expression has one, whatever functions and powers mean. -/
theorem value_parse_render {session : Session} (hsession : session.Reachable bounds) {handle : Handle}
    (h : (session.pool.expr handle).Writable) :
    ∃ text parsed later, session.answer (render handle) = (.ok text, session) ∧
      session.answer (parse text) = (.ok parsed, later) ∧
      ∀ (K : Type u) [Field K] [CharZero K] (M : Semantics K) (σ : String → K) (x : K),
        M.value σ (session.pool.expr handle) = some x →
          M.value σ (later.pool.expr parsed) = some x := by
  obtain ⟨raw, hread, hmatches⟩ := h.exists_read
  obtain ⟨parsed, hparsed, hstands⟩ := parse_spec hsession.consistent hread
  refine ⟨_, parsed, _, rfl, Prod.ext hparsed rfl, fun K _ _ M σ x hx => ?_⟩
  show M.value σ ((session.after (.parse _)).pool.expr parsed) = some x
  rw [hstands.2]
  exact hmatches K M σ x hx

/-- `x*-(y*2)/z` is rendered with the minus sign in brackets and `z` below the line, and parsed to another
tree. -/
theorem value_parse_render_text :
    ∃ (session : Session) (handle : Handle), session.Reachable {} ∧
      session.pool.expr handle = .mul [.symbol "x",
        .mul [.constant (-1), .mul [.symbol "y", .constant 2]],
        .pow (.symbol "z") (.constant (-1))] ∧
      ∃ parsed later, session.answer (render handle) = (.ok "x*(-y*2)/z", session) ∧
        session.answer (parse "x*(-y*2)/z") = (.ok parsed, later) ∧
        ∀ (K : Type u) [Field K] [CharZero K] (M : Semantics K) (σ : String → K) (x : K),
          M.value σ (session.pool.expr handle) = some x →
            M.value σ (later.pool.expr parsed) = some x := by
  have hread : Formula.read "x*(-(y*2))/z" = .ok (.mul [.symbol "x",
      .mul [.constant (-1), .mul [.symbol "y", .constant 2]],
      .pow (.symbol "z") (.constant (-1))]) := by
    cbv
  obtain ⟨handle, -, -, hexpr⟩ := parse_spec (new_consistent {}) hread
  have hreachable : ((new {}).after (.parse "x*(-(y*2))/z")).Reachable {} :=
    .after _ .new (by simp [Operation.handles, Pool.Has])
  generalize (new {}).after (.parse "x*(-(y*2))/z") = session at hexpr hreachable
  have hx : Legible "x" := ⟨⟨'x', [], rfl, by decide, by simp⟩, by decide, by decide⟩
  have hy : Legible "y" := ⟨⟨'y', [], rfl, by decide, by simp⟩, by decide, by decide⟩
  have hz : Legible "z" := ⟨⟨'z', [], rfl, by decide, by simp⟩, by decide, by decide⟩
  have hdouble : (Expr.mul [.symbol "y", .constant 2]).Writable :=
    .mul (by decide) (by simpa using ⟨.symbol hy, .constant 2⟩)
  have hminus : (Expr.mul [.constant (-1), .mul [.symbol "y", .constant 2]]).Writable :=
    .mul (by decide) (by simpa using ⟨.constant (-1), hdouble⟩)
  have hinverse : (Expr.pow (.symbol "z") (.constant (-1))).Writable :=
    .pow (.symbol hz) (.constant (-1))
  have hwritable : (session.pool.expr handle).Writable := by
    rw [hexpr]
    exact .mul (by decide) (by simpa using ⟨.symbol hx, hminus, hinverse⟩)
  obtain ⟨text, parsed, later, htext, hparsed, hvalue⟩ := value_parse_render hreachable hwritable
  have hrender : session.answer (render handle) = (.ok "x*(-y*2)/z", session) := by
    show (Except.ok (session.pool.expr handle).render, session) = _
    rw [hexpr]
    have hsame : (Expr.mul [.symbol "x", .mul [.constant (-1), .mul [.symbol "y", .constant 2]],
        .pow (.symbol "z") (.constant (-1))]).render = "x*(-y*2)/z" := by
      cbv
    rw [hsame]
  rw [hrender] at htext
  cases htext
  exact ⟨session, handle, hreachable, hexpr, parsed, later, hrender, hparsed, hvalue⟩

end Session

end ClosedForm
