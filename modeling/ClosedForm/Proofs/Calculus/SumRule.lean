import ClosedForm.Proofs.Calculus.Linearity
import ClosedForm.Proofs.Retention
import ClosedForm.Proofs.Sharing

/-!
# The sum rule in a session

The derivative of a sum is the sum of the derivatives, as handles: the session answers
`Session.sumRule` with the same handle twice. This holds where the derivatives of both expressions and
of their sum are direct (`Session.sumRule_eq_of_direct`).

It does not hold of all canonical forms (`Session.exists_sumRule_ne`). The derivative of
`g = i*sqrt(2*i)*(1 + x*sqrt(2*i))^2` needs two passes: the first one leaves a product, and only the
second one distributes its coefficient over the sum `1 + x*sqrt(2*i)`. Inside the derivative of
`x + sin(g)` there is time for one pass. Once the derivative of `g` has been computed by itself the memo
has the sum for it, and the cosine in the derivative of `x + sin(g) + g` meets the sum instead of the
product.
-/

namespace ClosedForm

open ClosedForm.Expr Canonical

variable {bounds : Bounds} {name : String}

namespace Session

/-! ## Handles of canonical forms -/

/-- The handle was the answer to a canonicalization. -/
def Canonicalized (bounds : Bounds) (session : Session) (f : Handle) : Prop :=
  ∃ (before next : Session) (handle : Handle), before.Reachable bounds ∧ before.pool.Has [handle] ∧
    before.answer (canonicalize handle) = (.ok f, next) ∧ next.Leads session

theorem Canonicalized.leads {session later : Session} {f : Handle}
    (h : session.Canonicalized bounds f) (hleads : session.Leads later) :
    later.Canonicalized bounds f := by
  obtain ⟨before, next, handle, hbefore, hhandle, hanswer, hnext⟩ := h
  exact ⟨before, next, handle, hbefore, hhandle, hanswer, hnext.trans hleads⟩

/-- The handle is in the pool and stands for a normal expression. -/
theorem Canonicalized.normal {session : Session} {f : Handle} (h : session.Canonicalized bounds f) :
    f < session.pool.size ∧ Normal bounds (session.pool.expr f) := by
  obtain ⟨before, next, handle, hbefore, hhandle, hanswer, hleads⟩ := h
  obtain ⟨c, hrun, hfollows, hstands⟩ := (canonicalize_performs hbefore.consistent handle).of_answer hanswer
  have hnext : next.Reachable bounds := by
    have hafter : (before.after (.canonicalize handle)).Reachable bounds :=
      .after (.canonicalize handle) hbefore hhandle
    rwa [after, hanswer] at hafter
  have hlater := hstands.mono hfollows.consistent.pool (hnext.leads hleads).consistent.pool
    (hleads.extends hnext)
  exact ⟨hlater.1, hlater.2 ▸ normal_of_canonicalize hbefore.consistent.memo hrun⟩

/-- Canonicalizing a text in canonical form gives a handle of what it states, and the memo knows this
expression from then on. -/
theorem Reachable.exists_canonicalized {session : Session} (h : session.Reachable bounds)
    (hpasses : 1 ≤ bounds.maxPasses) {text : String} {e : Expr}
    (hread : Formula.read text = .ok e) (hfind : session.memo.find? e = none)
    (hpass : pass bounds session.memo e = .ok e) :
    ∃ f later, session.Leads later ∧ later.Canonicalized bounds f ∧ later.pool.expr f = e ∧
      later.memo = session.memo.record [e] e := by
  obtain ⟨n, hn⟩ : ∃ n, bounds.maxPasses = n + 1 := ⟨bounds.maxPasses - 1, by omega⟩
  obtain ⟨raw, -, hraw⟩ := parse_spec h.consistent hread
  have hleads : session.Leads (session.after (.parse text)) := .after (.parse text) .refl (has_nil _)
  have hmemo := memo_after_parse session text
  generalize session.after (.parse text) = stored at hleads hraw hmemo
  have hstored := h.leads hleads
  have hrun : (ClosedForm.canonicalize bounds (stored.pool.expr raw)).run.run stored.memo =
      (.ok e, session.memo.record [e] e) := by
    rw [hraw.2, hmemo]
    exact run_of_settle hfind (by rw [hn, settle_of_fixed hpass])
  obtain ⟨f, later, hanswer, -, hlater, hstands⟩ :=
    (canonicalize_performs hstored.consistent raw).of_run hrun
  have hafter : stored.Leads (stored.after (.canonicalize raw)) :=
    .after (.canonicalize raw) .refl (has_cons hraw.1 (has_nil _))
  rw [Session.after, show stored.answer (canonicalize raw) = (.ok f, later) from hanswer] at hafter
  exact ⟨f, later, hleads.trans hafter, ⟨stored, later, raw, hstored,
    has_cons hraw.1 (has_nil _), hanswer, .refl⟩, hstands.2, hlater⟩

/-- A session that has canonicalized two texts. -/
theorem exists_canonicalized_pair (hpasses : 1 ≤ bounds.maxPasses) {text text' : String} {e d : Expr}
    (hread : Formula.read text = .ok e) (hpass : pass bounds .empty e = .ok e)
    (hread' : Formula.read text' = .ok d) (hfind : (Memo.empty.record [e] e).find? d = none)
    (hpass' : pass bounds (Memo.empty.record [e] e) d = .ok d) :
    ∃ (session : Session) (f g : Handle), session.Reachable bounds ∧
      session.Canonicalized bounds f ∧ session.Canonicalized bounds g ∧
      session.pool.expr f = e ∧ session.pool.expr g = d ∧
      session.memo = (Memo.empty.record [e] e).record [d] d := by
  obtain ⟨f, middle, hmiddle, hf, hfexpr, hmemo⟩ :=
    Reachable.new.exists_canonicalized hpasses hread rfl hpass
  have hreachable := Reachable.new.leads hmiddle
  rw [show (new bounds).memo = .empty from rfl] at hmemo
  obtain ⟨g, session, hsession, hg, hgexpr, hmemo'⟩ :=
    hreachable.exists_canonicalized hpasses hread' (hmemo ▸ hfind) (hmemo ▸ hpass')
  have hfexpr' : session.pool.expr f = e := by
    rw [(hsession.extends hreachable).expr_eq hreachable.consistent.pool
      (hreachable.leads hsession).consistent.pool hf.normal.1, hfexpr]
  exact ⟨session, f, g, hreachable.leads hsession, hf.leads hsession, hg, hfexpr', hgexpr,
    hmemo ▸ hmemo'⟩

/-! ## The sum rule -/

/-- The derivative of the sum of two expressions, and the canonical sum of their derivatives. -/
def sumRule (f g : Handle) (name : String) : Request (Handle × Handle) := do
  let df ← differentiate f name
  let dg ← differentiate g name
  let sum ← storing (Pool.intern (.add [f, g]))
  let whole ← differentiate sum name
  let parts ← storing (Pool.intern (.add [df, dg]))
  let added ← canonicalize parts
  return (whole, added)

theorem sumRule_performs {session : Session} (h : session.Consistent bounds) {f g : Handle}
    (hhandles : session.pool.Has [f, g]) (name : String) :
    session.Performs bounds (sumRule f g name)
      (Derivative.sumRule bounds (session.pool.expr f) (session.pool.expr g) name)
      fun es hs pool => Pool.StandsFor es.1 hs.1 pool ∧ Pool.StandsFor es.2 hs.2 pool := by
  have hf := hhandles f (by simp)
  have hg := hhandles g (by simp)
  refine (differentiate_performs h f name).bind fun df d s₁ h₁ hdf => ?_
  have hg₁ : s₁.pool.expr g = session.pool.expr g := h₁.pool.expr_eq h.pool h₁.consistent.pool hg
  rw [← hg₁]
  refine (differentiate_performs h₁.consistent g name).bind
    fun dg d' s₂ h₂ hdg => ?_
  have hdf₂ := hdf.mono h₁.consistent.pool h₂.consistent.pool h₂.pool
  have hf₂ : s₂.pool.expr f = session.pool.expr f :=
    (h₁.trans h₂).pool.expr_eq h.pool h₂.consistent.pool hf
  have hg₂ : s₂.pool.expr g = s₁.pool.expr g :=
    h₂.pool.expr_eq h₁.consistent.pool h₂.consistent.pool (h₁.pool.lt_size hg)
  have hterms : s₂.pool.Has (Node.add [f, g]).children := hhandles.mono (h₁.trans h₂).pool
  refine Performs.intern_bind h₂.consistent hterms fun sum s₃ h₃ hsum => ?_
  have hsum₃ : s₃.pool.expr sum = .add [session.pool.expr f, s₁.pool.expr g] := by
    rw [hsum.2, ← hf₂, ← hg₂]
    rfl
  rw [← hsum₃]
  refine (differentiate_performs h₃.consistent sum name).bind
    fun whole w s₄ h₄ hwhole => ?_
  have hdf₄ := hdf₂.mono h₂.consistent.pool h₄.consistent.pool (h₃.trans h₄).pool
  have hdg₄ := hdg.mono h₂.consistent.pool h₄.consistent.pool (h₃.trans h₄).pool
  have hterms' : s₄.pool.Has (Node.add [df, dg]).children := by
    simp [Pool.Has, Node.children, hdf₄.1, hdg₄.1]
  refine Performs.intern_bind h₄.consistent hterms' fun parts s₅ h₅ hparts => ?_
  have hparts₅ : s₅.pool.expr parts = .add [d, d'] := by
    rw [hparts.2, ← hdf₄.2, ← hdg₄.2]
    rfl
  rw [← hparts₅]
  refine (canonicalize_performs h₅.consistent parts).bind
    fun added a s₆ h₆ hadded => ?_
  exact .pure h₆.consistent ⟨hwhole.mono h₄.consistent.pool h₆.consistent.pool (h₅.trans h₆).pool,
    hadded⟩

/-- Where the derivatives of two canonical expressions and of their sum are direct, the derivative of
the sum and the canonical sum of the derivatives are the same handle, whatever the session was asked
before. -/
theorem sumRule_eq_of_direct (hpasses : 2 ≤ bounds.maxPasses) {session later : Session}
    (hsession : session.Reachable bounds) {f g whole added : Handle}
    (hf : session.Canonicalized bounds f) (hg : session.Canonicalized bounds g)
    (hdf : Derivative.IsDirect bounds name (session.pool.expr f))
    (hdg : Derivative.IsDirect bounds name (session.pool.expr g))
    (hsum : Derivative.IsDirect bounds name
      (Canonical.add [session.pool.expr f, session.pool.expr g]))
    (hanswer : session.answer (sumRule f g name) = (.ok (whole, added), later)) :
    whole = added := by
  obtain ⟨⟨w, a⟩, hrun, hfollows, hwhole, hadded⟩ := (sumRule_performs hsession.consistent
    (has_pair hf.normal.1 hg.normal.1) name).of_answer hanswer
  obtain rfl := Derivative.eq_of_sumRule hpasses hsession.consistent.memo hf.normal.2 hg.normal.2
    hdf hdg hsum hrun
  exact Pool.expr_injective hfollows.consistent.pool hwhole.1 hadded.1
    (hwhole.2.trans hadded.2.symm)

/-- A session that has canonicalized `sin(x) + x^2` and `-sin(x) + 3*x*y`, where the sines cancel in the
sum. -/
theorem sumRule_eq_of_direct_text :
    ∃ (session later : Session) (f g whole added : Handle), session.Reachable {} ∧
      session.Canonicalized {} f ∧ session.Canonicalized {} g ∧
      Derivative.IsDirect {} "x" (session.pool.expr f) ∧
      Derivative.IsDirect {} "x" (session.pool.expr g) ∧
      Derivative.IsDirect {} "x" (Canonical.add [session.pool.expr f, session.pool.expr g]) ∧
      session.answer (sumRule f g "x") = (.ok (whole, added), later) ∧
      later.pool.expr whole =
        .add [.mul [.constant 2, .symbol "x"], .mul [.constant 3, .symbol "y"]] ∧
      whole = added := by
  let e : Expr := .add [.call .sin (.symbol "x"), .pow (.symbol "x") (.constant 2)]
  let d : Expr :=
    .add [.mul [.constant (-1), .call .sin (.symbol "x")], .mul [.constant 3, .symbol "x", .symbol "y"]]
  let c : Expr := .add [.mul [.constant 2, .symbol "x"], .mul [.constant 3, .symbol "y"]]
  obtain ⟨session, f, g, hsession, hf, hg, hfexpr, hgexpr, hmemo⟩ :=
    exists_canonicalized_pair (show 1 ≤ Bounds.maxPasses {} by decide)
      (show Formula.read "sin(x) + x^2" = .ok e by cbv) (by cbv)
      (show Formula.read "-sin(x) + 3*x*y" = .ok d by cbv) (by cbv) (by cbv)
  have hrun : ((Derivative.sumRule {} (session.pool.expr f) (session.pool.expr g) "x").run.run
      session.memo).1 = .ok (c, c) := by
    rw [hfexpr, hgexpr, hmemo]
    cbv
  obtain ⟨⟨whole, added⟩, later, hanswer, -, -, hwhole, -⟩ := (sumRule_performs hsession.consistent
    (has_pair hf.normal.1 hg.normal.1) "x").of_run (Prod.ext hrun rfl)
  have hdf : Derivative.IsDirect {} "x" (session.pool.expr f) := by
    rw [hfexpr]
    exact Derivative.isDirect_iff.mp (by cbv)
  have hdg : Derivative.IsDirect {} "x" (session.pool.expr g) := by
    rw [hgexpr]
    exact Derivative.isDirect_iff.mp (by cbv)
  have hsum : Derivative.IsDirect {} "x"
      (Canonical.add [session.pool.expr f, session.pool.expr g]) := by
    rw [hfexpr, hgexpr]
    exact Derivative.isDirect_iff.mp (by cbv)
  exact ⟨session, later, f, g, whole, added, hsession, hf, hg, hdf, hdg, hsum, hanswer, hwhole.2,
    sumRule_eq_of_direct (by decide) hsession hf hg hdf hdg hsum hanswer⟩

end Session

/-! ## A derivative that needs two passes -/

namespace Derivative.Slow

/-- `sqrt(2*i)` -/
def root : Expr :=
  .pow (.mul [.constant 2, .imaginaryUnit]) (.constant (1 / 2))

/-- `1 + x*sqrt(2*i)` -/
def linear : Expr :=
  .add [.one, .mul [.symbol "x", root]]

/-- `g = i*sqrt(2*i)*(1 + x*sqrt(2*i))^2` -/
def square : Expr :=
  .mul [.imaginaryUnit, root, .pow linear (.constant 2)]

/-- `f = x + sin(g)` -/
def sine : Expr :=
  .add [.symbol "x", .call .sin square]

/-- `f + g` -/
def both : Expr :=
  .add [.symbol "x", .call .sin square, square]

/-- The derivative of `g`, before it is canonicalized. -/
def squareRaw : Expr :=
  .mul [.mul [.constant 2, .pow linear (.add [.constant 2, .constant (-1)]),
    .add [.zero, .mul [.one, root]]], .imaginaryUnit, root]

/-- What one pass makes of it. -/
def squareOnce : Expr :=
  .mul [.constant 2, .imaginaryUnit, .mul [.constant 2, .imaginaryUnit], linear]

/-- What two passes make of it, `-4 - 4*x*sqrt(2*i)`. -/
def squareSlope : Expr :=
  .add [.constant (-4), .mul [.constant (-4), .symbol "x", root]]

/-- The derivative of `f`, before it is canonicalized. -/
def sineRaw : Expr :=
  .add [.one, .mul [.call .cos square, squareRaw]]

/-- `1 - 4*cos(g)*(1 + x*sqrt(2*i))` -/
def sineSlope : Expr :=
  .add [.one, .mul [.constant (-4), .call .cos square, linear]]

/-- The derivative of `f + g`, before it is canonicalized. -/
def bothRaw : Expr :=
  .add [.one, .mul [.call .cos square, squareRaw], squareRaw]

/-- `-3 - 4*x*sqrt(2*i) + cos(g)*(-4 - 4*x*sqrt(2*i))` -/
def bothSlope : Expr :=
  .add [.constant (-3), .mul [.constant (-4), .symbol "x", root],
    .mul [.call .cos square, squareSlope]]

/-- `-3 - 4*x*sqrt(2*i) - 4*cos(g)*(1 + x*sqrt(2*i))` -/
def addedSlopes : Expr :=
  .add [.constant (-3), .mul [.constant (-4), .symbol "x", root],
    .mul [.constant (-4), .call .cos square, linear]]

/-- The memo of a session that has canonicalized `f` and `g`. -/
def memoOfBoth : Memo :=
  (Memo.empty.record [sine] sine).record [square] square

/-- The memo after the derivatives of `f` and of `g`. -/
def memoOfSlopes : Memo :=
  (memoOfBoth.record [sineSlope, sineRaw] sineSlope).record
    [squareSlope, squareOnce, squareRaw] squareSlope

theorem run_sineRaw : (canonicalize {} sineRaw).run.run memoOfBoth =
    (.ok sineSlope, memoOfBoth.record [sineSlope, sineRaw] sineSlope) :=
  run_of_pass (by decide) (by cbv) (by cbv) (by simp [sineSlope, sineRaw]) (by cbv) (by cbv)

theorem run_squareRaw : (canonicalize {} squareRaw).run.run
    (memoOfBoth.record [sineSlope, sineRaw] sineSlope) = (.ok squareSlope, memoOfSlopes) :=
  run_of_two_passes (by decide) (by cbv) (by cbv) (by simp [squareOnce, squareRaw]) (by cbv)
    (by cbv) (by simp [squareSlope, squareOnce]) (by cbv) (by cbv)

theorem run_both : (canonicalize {} (.add [sine, square])).run.run memoOfSlopes =
    (.ok both, memoOfSlopes.record [both, .add [sine, square]] both) :=
  run_of_pass (by decide) (by cbv) (by cbv) (by simp [both, sine]) (by cbv) (by cbv)

theorem run_bothRaw : (canonicalize {} bothRaw).run.run
    (memoOfSlopes.record [both, .add [sine, square]] both) = (.ok bothSlope,
      (memoOfSlopes.record [both, .add [sine, square]] both).record [bothSlope, bothRaw]
        bothSlope) :=
  run_of_pass (by decide) (by cbv) (by cbv) (by simp [bothSlope, bothRaw, Expr.one]) (by cbv)
    (by cbv)

theorem run_added : ((canonicalize {} (.add [sineSlope, squareSlope])).run.run
    ((memoOfSlopes.record [both, .add [sine, square]] both).record [bothSlope, bothRaw]
      bothSlope)).1 = .ok addedSlopes :=
  congrArg Prod.fst (run_of_pass (by decide) (by cbv) (by cbv)
    (by simp [addedSlopes, sineSlope]) (by cbv) (by cbv))

theorem bothSlope_ne : bothSlope ≠ addedSlopes := by
  simp [bothSlope, addedSlopes]

theorem run_sumRule : ((sumRule {} sine square "x").run.run memoOfBoth).1 =
    .ok (bothSlope, addedSlopes) := by
  have hsineFind : memoOfBoth.find? sine = some sine := by cbv
  have hsquareFind : (memoOfBoth.record [sineSlope, sineRaw] sineSlope).find? square = some square := by
    cbv
  have hsine := run_differentiate.mpr ⟨sine, _, sineRaw, canonicalizeWithin_of_find? hsineFind _,
    show ofCanonical "x" sine = .ok sineRaw by cbv, run_sineRaw⟩
  have hsquare := run_differentiate.mpr ⟨square, _, squareRaw,
    canonicalizeWithin_of_find? hsquareFind _,
    show ofCanonical "x" square = .ok squareRaw by cbv, run_squareRaw⟩
  have hboth := run_differentiate.mpr ⟨both, _, bothRaw, run_both,
    show ofCanonical "x" both = .ok bothRaw by cbv, run_bothRaw⟩
  exact congrArg Prod.fst (run_bind_eq_ok.mpr ⟨_, _, hsine, run_bind_eq_ok.mpr ⟨_, _, hsquare,
    run_bind_eq_ok.mpr ⟨_, _, hboth, run_bind_eq_ok.mpr ⟨_, _, Prod.ext run_added rfl, rfl⟩⟩⟩⟩)

end Derivative.Slow

namespace Session

open Derivative.Slow

/-- The derivative of `f + g` is `-3 - 4*x*sqrt(2*i) + cos(g)*(-4 - 4*x*sqrt(2*i))`, and the canonical
sum of the derivatives `-3 - 4*x*sqrt(2*i) - 4*cos(g)*(1 + x*sqrt(2*i))`. -/
theorem exists_sumRule_ne :
    ∃ (session later : Session) (f g whole added : Handle), session.Reachable {} ∧
      session.Canonicalized {} f ∧ session.Canonicalized {} g ∧
      session.pool.expr f = sine ∧ session.pool.expr g = square ∧
      session.answer (sumRule f g "x") = (.ok (whole, added), later) ∧
      later.pool.expr whole = bothSlope ∧ later.pool.expr added = addedSlopes ∧ whole ≠ added := by
  obtain ⟨session, f, g, hsession, hf, hg, hfexpr, hgexpr, hmemo⟩ :=
    exists_canonicalized_pair (show 1 ≤ Bounds.maxPasses {} by decide)
      (show Formula.read "x + sin(i*sqrt(2*i)*(1 + x*sqrt(2*i))^2)" = .ok sine by cbv) (by cbv)
      (show Formula.read "i*sqrt(2*i)*(1 + x*sqrt(2*i))^2" = .ok square by cbv) (by cbv) (by cbv)
  have hrun : ((Derivative.sumRule {} (session.pool.expr f) (session.pool.expr g) "x").run.run
      session.memo).1 = .ok (bothSlope, addedSlopes) := by
    rw [hfexpr, hgexpr, hmemo]
    exact run_sumRule
  obtain ⟨⟨whole, added⟩, later, hanswer, -, -, hwhole, hadded⟩ :=
    (sumRule_performs hsession.consistent (has_pair hf.normal.1 hg.normal.1) "x").of_run
      (Prod.ext hrun rfl)
  refine ⟨session, later, f, g, whole, added, hsession, hf, hg, hfexpr, hgexpr, hanswer, hwhole.2,
    hadded.2, ?_⟩
  rintro rfl
  exact bothSlope_ne (hwhole.2.symm.trans hadded.2)

end Session

end ClosedForm
