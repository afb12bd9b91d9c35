import ClosedForm.Proofs.Ring.RoundTrip

/-!
# Two ways to multiply out

An expression in one symbol can be multiplied out term by term (`expand`), or its coefficients can be
extracted and their sum written down (`Polynomial.ofExpr` and `Polynomial.toExpr`). Both end with an expanded
expression for the polynomial that the expression denotes, and there is one such expression. So wherever
there are coefficients, the two ways lead to the same handle (`Session.expand_eq_ofPolynomial`).

Extraction gives no coefficients where it does not open a power. In every other canonical form expansion
multiplies out all sums.
-/

open Polynomial (aeval)
open scoped Polynomial

namespace ClosedForm

open ClosedForm.Expr Canonical Expand

namespace Session

variable {bounds : Bounds} {name : String} {p : Polynomial} {handle : Handle}

/-- From the session on the request is answered with handles of expanded expressions for the polynomial. -/
def Expands (bounds : Bounds) (session : Session) (request : Request Handle)
    (f : MvPolynomial String ℚ) : Prop :=
  ∀ later, session.Leads later → ∃ result next r, later.answer request = (.ok result, next) ∧
    later.Leads next ∧ Pool.StandsFor r result next.pool ∧ Expanded bounds f r

/-- There is one expanded expression for a polynomial, and one handle for an expression. -/
theorem Expands.eq {session first : Session} {f : MvPolynomial String ℚ} {request other : Request Handle}
    (h : session.Expands bounds request f) (h' : session.Expands bounds other f)
    (hsession : session.Reachable bounds) (hfirst : session.Leads first) :
    ∃ result next, first.answer request = (.ok result, next) ∧
      ∀ second, next.Leads second → (second.answer other).1 = .ok result := by
  obtain ⟨result, next, r, hresult, hnext, hstands, hr⟩ := h first hfirst
  refine ⟨result, next, hresult, fun second hsecond => ?_⟩
  have hreachable := hsession.leads (hfirst.trans hnext)
  obtain ⟨copy, last, s, hcopy, hlast, hstands', hs⟩ := h' second ((hfirst.trans hnext).trans hsecond)
  have hlater := hsecond.trans hlast
  have hconsistent := (hreachable.leads hlater).consistent
  have hkept := hstands.mono hreachable.consistent.pool hconsistent.pool (hlater.extends hreachable)
  have hsame : result = copy := Pool.expr_injective hconsistent.pool hkept.1 hstands'.1
    (hkept.2.trans ((hr.eq hs).trans hstands'.2.symm))
  rw [hcopy, hsame]

/-- Where there are coefficients, they are those of the polynomial that the expression denotes, and the
expansion is an expanded expression for it. -/
theorem polynomial_spec (hrange : bounds.InRange) (hpasses : 2 ≤ bounds.maxPasses)
    (hlimits : bounds.maxExpandExponent ≤ bounds.maxExactExponent) {session later : Session}
    (h : session.Consistent bounds) (hover : Over (· = name) (session.pool.expr handle))
    (hpowers : (session.pool.expr handle).PowersSatisfy fun _ n => n ≤ bounds.maxExactExponent)
    (hanswer : session.answer (polynomial handle name) = (.ok p, later)) :
    Polynomial.Numeric p.coefficients ∧
      Ensures bounds (fun _ => False) (Expanded bounds (aeval (MvPolynomial.X name) p.toRing))
        (ClosedForm.expand bounds (session.pool.expr handle)) := by
  have hrun := (polynomial_performs h handle name).run_eq hanswer
  obtain ⟨c, hc⟩ := exists_becomes hrange hpowers
  have hin : c.PolynomialIn name :=
    (Expr.PolynomialIn.canonicalize h.memo (Prod.ext (hc.reduces.canonicalize hpasses h.memo) rfl)
      ⟨hpowers.isPolynomial, hover⟩).1
  have hends := Polynomial.ensures_ofExpr_ofRing hpasses hc.reduces hc.form hin.2 session.memo h.memo
  rw [hrun] at hends
  obtain ⟨hopens, rfl⟩ := hends
  refine ⟨Polynomial.numeric_ofRing _, ?_⟩
  rw [Polynomial.toRing_ofRing, ← hin.polynomial_eq]
  exact ensures_expand_of_reduces hrange hpasses hlimits hc.reduces hc.form
    (hopens.mono fun _ _ hopen => hopen.2)

/-- In every session with the bounds of the configuration, let an expression be made of rational constants and
one symbol by sums, products and natural powers that are moderate. If it has coefficients in the symbol,
then these are numbers, and from then on expanding the expression and writing down the sum of its
monomials succeed and give the same handle, whichever of the two comes first and whatever happens in
between. -/
theorem expand_eq_ofPolynomial {session later : Session} (hsession : session.Reachable {})
    (hhandle : handle < session.pool.size) (hover : Over (· = name) (session.pool.expr handle))
    (hpowers : (session.pool.expr handle).PowersSatisfy fun _ n => n ≤ ({} : Bounds).maxExactExponent)
    (hanswer : session.answer (polynomial handle name) = (.ok p, later)) :
    Polynomial.Numeric p.coefficients ∧ ∀ first, session.Leads first →
      (∃ result next, first.answer (expand handle) = (.ok result, next) ∧
        ∀ second, next.Leads second → (second.answer (ofPolynomial p name)).1 = .ok result) ∧
      ∃ result next, first.answer (ofPolynomial p name) = (.ok result, next) ∧
        ∀ second, next.Leads second → (second.answer (expand handle)).1 = .ok result := by
  obtain ⟨hnumeric, hensures⟩ := polynomial_spec (by unfold Bounds.InRange; decide) (by decide) (by decide)
    hsession.consistent hover hpowers hanswer
  have hexpand : session.Expands {} (expand handle) (aeval (MvPolynomial.X name) p.toRing) := by
    intro first hfirst
    have hextends := hfirst.extends hsession
    have hconsistent := (hsession.leads hfirst).consistent
    rw [← hextends.expr_eq hsession.consistent.pool hconsistent.pool hhandle] at hensures
    obtain ⟨result, next, r, hresult, -, hr⟩ := expand_of_ensures hconsistent hensures
    have hleads : first.Leads (first.after (.expand handle)) :=
      Leads.refl.after _ (by simpa [Operation.handles, Pool.Has] using hextends.lt_size hhandle)
    have hnext : first.after (.expand handle) = next := congrArg Prod.snd hresult
    exact ⟨result, next, r, hresult, hnext ▸ hleads, hr⟩
  have hwrite : session.Expands {} (ofPolynomial p name) (aeval (MvPolynomial.X name) p.toRing) := by
    intro first hfirst
    obtain ⟨result, next, r, hresult, -, hstands, hr, -⟩ :=
      exists_ofPolynomial (hsession.leads hfirst).consistent (by decide) hnumeric name
    exact ⟨result, next, r, hresult, leads_ofPolynomial hresult, hstands, hr⟩
  exact ⟨hnumeric, fun first hfirst =>
    ⟨hexpand.eq hwrite hsession hfirst, hwrite.eq hexpand hsession hfirst⟩⟩

/-- In a session that read `(x + 1)^2 - x^2` the coefficients are `1` and `2`, and the expansion and the sum of the
monomials are the same handle. -/
theorem expand_eq_ofPolynomial_squares :
    ∃ (session later next : Session) (handle result : Handle), session.Reachable {} ∧
      session.pool.expr handle = .add [.pow (.add [.symbol "x", .constant 1]) (.constant 2),
        .mul [.constant (-1), .pow (.symbol "x") (.constant 2)]] ∧
      session.answer (polynomial handle "x") = (.ok ⟨[(0, .constant 1), (1, .constant 2)]⟩, later) ∧
      session.answer (expand handle) = (.ok result, next) ∧
      (next.answer (ofPolynomial ⟨[(0, .constant 1), (1, .constant 2)]⟩ "x")).1 = .ok result := by
  have hread : Formula.read "(x + 1)^2 - x^2" =
      .ok (.add [.pow (.add [.symbol "x", .constant 1]) (.constant 2),
        .mul [.constant (-1), .pow (.symbol "x") (.constant 2)]]) := by
    cbv
  obtain ⟨session, _, hsession, hmemo, - | @⟨_, handle, _, _, ⟨hhandle, hexpr⟩, -⟩⟩ :=
    exists_parsed_all {} (.cons hread .nil)
  have hanswer : (session.answer (polynomial handle "x")).1 =
      .ok ⟨[(0, .constant 1), (1, .constant 2)]⟩ := by
    rw [(polynomial_performs hsession.consistent handle "x").outcome_eq, hexpr, hmemo]
    cbv
  have hsquare {base : Expr} (h : base.PowersSatisfy fun _ n => n ≤ ({} : Bounds).maxExactExponent) :
      (Expr.pow base (.constant 2)).PowersSatisfy fun _ n => n ≤ ({} : Bounds).maxExactExponent :=
    .pow (n := 2) (by decide) h
  have hover : Over (· = "x") (session.pool.expr handle) := by
    rw [hexpr]
    simp [over_symbol]
  have hpowers : (session.pool.expr handle).PowersSatisfy fun _ n => n ≤ ({} : Bounds).maxExactExponent := by
    rw [hexpr]
    refine .add ?_
    simp only [List.forall_mem_cons]
    refine ⟨hsquare (.add (by simpa using ⟨.symbol "x", .constant 1⟩)), .mul ?_, by simp⟩
    simpa using ⟨.constant (-1), hsquare (.symbol "x")⟩
  obtain ⟨-, hfirst⟩ := expand_eq_ofPolynomial hsession hhandle hover hpowers (Prod.ext hanswer rfl)
  obtain ⟨⟨result, next, hresult, hsecond⟩, -⟩ := hfirst session .refl
  exact ⟨session, _, next, handle, result, hsession, hexpr, Prod.ext hanswer rfl, hresult,
    hsecond next .refl⟩

end Session

end ClosedForm
