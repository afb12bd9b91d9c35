import ClosedForm.Proofs.Retention

/-!
# What computations leave behind

`Leaves bounds property action` says of the results of a computation what holds of them and of every
memo that comes later. It follows the structure of a computation like `Recording` and
`Ensures` do.

A canonicalization leaves a memo that knows the form (`Leaves.canonicalize`). So a computation that
looks at the memo through canonicalizations only leaves a memo with which it gives the same result
again, and records nothing any more. It is `Repeatable`, as is reading coefficients
(`Repeatable.polynomialOfExpr`).
-/

namespace ClosedForm

variable {α β : Type} {bounds : Bounds}

/-- A computation that ends well adds to the memo what canonicalizations record, and its result has the
property with every memo that comes later. -/
def Leaves (bounds : Bounds) (property : α → Memo → Prop) (action : Memoizing α) : Prop :=
  ∀ memo : Memo, memo.Reachable bounds → ∀ a later, action.run.run memo = (.ok a, later) →
    memo.Grows bounds later ∧ ∀ last, later.Grows bounds last → property a last

namespace Leaves

variable {P : α → Memo → Prop} {Q : β → Memo → Prop} {action : Memoizing α}
  {next : α → Memoizing β}

theorem imp {P' : α → Memo → Prop} (h : Leaves bounds P action) (himp : ∀ a memo, P a memo → P' a memo) :
    Leaves bounds P' action :=
  fun memo hmemo a later hrun => (h memo hmemo a later hrun).imp_right
    fun hP last hlast => himp a last (hP last hlast)

theorem of_recording (h : Recording bounds action) : Leaves bounds (fun _ _ => True) action :=
  fun _ _ _ _ hrun => ⟨h.grows hrun, fun _ _ => trivial⟩

theorem pure {a : α} (h : ∀ memo, P a memo) : Leaves bounds P (Pure.pure a) := by
  intro memo _ b later hrun
  cases hrun
  exact ⟨.refl, fun last _ => h last⟩

theorem throw (e : Error) : Leaves bounds P (MonadExcept.throw e) :=
  fun _ _ _ _ hrun => (by cases hrun)

/-- What comes behind a failure does not run. -/
theorem throw_bind (e : Error) :
    Leaves bounds Q ((MonadExcept.throw e : Memoizing α) >>= next) :=
  fun _ _ _ _ hrun => (by cases hrun)

theorem lift {outcome : Except Error α} (h : ∀ a, outcome = .ok a → ∀ memo, P a memo) :
    Leaves bounds P (liftM outcome) := by
  intro memo _ a later hrun
  rw [run_lift] at hrun
  cases hrun
  exact ⟨.refl, fun last _ => h a rfl last⟩

/-- The second stage leaves a memo of which the first one said something. -/
theorem bind (h : Leaves bounds P action)
    (hnext : ∀ a, Leaves bounds (fun b memo => P a memo → Q b memo) (next a)) :
    Leaves bounds Q (action >>= next) := by
  intro memo hmemo b later hrun
  obtain ⟨a, middle, hfirst, hsecond⟩ := run_bind_eq_ok.mp hrun
  obtain ⟨hmiddle, hP⟩ := h memo hmemo a middle hfirst
  obtain ⟨hlater, hQ⟩ := hnext a middle (hmemo.grows hmiddle) b later hsecond
  exact ⟨hmiddle.trans hlater, fun last hlast => hQ last hlast (hP last (hlater.trans hlast))⟩

theorem mapM {R : α → β → Memo → Prop} {f : α → Memoizing β} {as : List α}
    (h : ∀ a ∈ as, Leaves bounds (R a) (f a)) :
    Leaves bounds (fun bs memo => List.Forall₂ (fun a b => R a b memo) as bs) (as.mapM f) := by
  induction as with
  | nil => exact pure fun _ => .nil
  | cons a as ih =>
    rw [List.mapM_cons]
    refine bind (h a (by simp)) fun b => bind (ih fun c hc => h c (by simp [hc])) fun bs => ?_
    exact pure fun memo hbs hb => .cons hb hbs

/-- The memo knows the canonical form, and that it is canonical. -/
theorem canonicalize (e : Expr) :
    Leaves bounds (fun c memo => memo.find? e = some c ∧ memo.find? c = some c)
      (canonicalize bounds e) := by
  intro memo hmemo c later hrun
  obtain ⟨he, hc⟩ := find?_of_canonicalizeWithin hmemo hrun
  have hlater := (Recording.canonicalize e).reachable hmemo hrun
  exact ⟨(Recording.canonicalize e).grows hrun,
    fun last hlast => ⟨hlast.find?_eq hlater he, hlast.find?_eq hlater hc⟩⟩

end Leaves

/-- With every later memo the computation gives the same result, and records nothing. -/
def Repeatable (bounds : Bounds) (action : Memoizing α) : Prop :=
  Leaves bounds (fun a memo => action.run.run memo = (.ok a, memo)) action

namespace Repeatable

theorem pure (a : α) : Repeatable bounds (Pure.pure a : Memoizing α) :=
  Leaves.pure fun _ => rfl

theorem lift (outcome : Except Error α) : Repeatable bounds (liftM outcome : Memoizing α) :=
  Leaves.lift fun a ha memo => by rw [run_lift, ha]

theorem bind {action : Memoizing α} {next : α → Memoizing β} (h : Repeatable bounds action)
    (hnext : ∀ a, Repeatable bounds (next a)) : Repeatable bounds (action >>= next) := by
  refine Leaves.bind h fun a memo hmemo b later hrun => ?_
  obtain ⟨hgrows, hsecond⟩ := hnext a memo hmemo b later hrun
  exact ⟨hgrows, fun last hlast hfirst => run_bind_eq_ok.mpr ⟨a, last, hfirst, hsecond last hlast⟩⟩

theorem canonicalize (e : Expr) : Repeatable bounds (ClosedForm.canonicalize bounds e) := by
  intro memo hmemo c later hrun
  obtain ⟨hgrows, hfind⟩ := Leaves.canonicalize e memo hmemo c later hrun
  exact ⟨hgrows, fun last hlast => canonicalizeWithin_of_find? (hfind last hlast).1 _⟩

theorem canonicalizeAll (coefficients : List (Nat × Expr)) :
    Repeatable bounds (Polynomial.canonicalizeAll bounds coefficients) := by
  induction coefficients with
  | nil => exact pure []
  | cons t rest ih => exact (canonicalize t.2).bind fun c => ih.bind fun rest => pure _

/-- Coefficients once read are read again at any later time. -/
theorem polynomialOfExpr (e : Expr) (name : String) :
    Repeatable bounds (Polynomial.ofExpr bounds e name) :=
  (canonicalize e).bind fun _ => (lift _).bind fun raw =>
    (canonicalizeAll raw.coefficients).bind fun _ => pure _

end Repeatable

/-- The coefficients of an expression are those of its canonical form. -/
theorem Polynomial.run_ofExpr_of_find? {memo : Memo} {e c : Expr} (he : memo.find? e = some c)
    (hc : memo.find? c = some c) (name : String) :
    (ofExpr bounds e name).run.run memo = (ofExpr bounds c name).run.run memo := by
  have hrun {d : Expr} (hd : memo.find? d = some c) :
      (canonicalize bounds d).run.run memo = (.ok c, memo) := canonicalizeWithin_of_find? hd _
  unfold ofExpr
  rw [ExceptT.run_bind, ExceptT.run_bind, StateT.run_bind, StateT.run_bind, hrun he, hrun hc]

end ClosedForm
