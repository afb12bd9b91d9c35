import ClosedForm.Proofs.Reachable
import ClosedForm.Proofs.Weight.Rules
import Mathlib

/-!
# Canonical forms are normal

A pass that changes nothing keeps the weight of every subexpression, whatever it takes from the
memo, as long as the forms in the memo are normal and lighter (`pass_lighter`). So what it is
left with is normal, and by induction over the canonicalizations that filled it, every reachable
memo holds normal forms (`Memo.Reachable.settled`). Hence canonical forms are fixed by the bare
rules, with all their subexpressions, and canonicalizing them again gives them back in any other
session (`Session.canonicalize_idempotent`).
-/

namespace ClosedForm

open ClosedForm.Expr Canonical

variable {bounds : Bounds}

/-- `s` occurs in `e`. -/
inductive Expr.Subexpr : Expr → Expr → Prop
  | refl (e : Expr) : Subexpr e e
  | child {s c e : Expr} : Subexpr s c → c ∈ e.children → Subexpr s e

theorem Canonical.Normal.of_subexpr {s e : Expr} (h : Normal bounds e) (hs : Subexpr s e) :
    Normal bounds s := by
  induction hs with
  | refl => exact h
  | child _ hc ih => exact ih (h.of_mem_children hc)

/-- The memo has normal forms, which are lighter than what they are forms of. -/
def Memo.Settled (bounds : Bounds) (memo : Memo) : Prop :=
  ∀ e d, memo.find? e = some d → Lighter bounds e d ∧ Normal bounds d

namespace Canonical

variable {memo : Memo}

/-- A pass makes an expression lighter, or it is normal afterwards. -/
theorem pass_lighter (hmemo : memo.Settled bounds) {e r : Expr} (h : pass bounds memo e = .ok r) :
    Lighter bounds e r ∧ (Keeps bounds e r → Normal bounds r) := by
  induction e using Expr.induction generalizing r with
  | node e ih =>
    rw [pass_eq, bind_eq_ok] at h
    obtain ⟨ds, hds, hr⟩ := h
    cases hfind : memo.find? e with
    | some d =>
      rw [passStep_of_find hfind] at hr
      cases hr
      obtain ⟨hlighter, hnormal⟩ := hmemo e _ hfind
      exact ⟨hlighter, fun _ => hnormal⟩
    | none =>
      rw [passStep_of_not_find hfind] at hr
      have hall := mapM_eq_ok.mp hds
      have hchildren : List.Forall₂ (Lighter bounds) e.children ds :=
        forall₂_imp_of_mem hall fun c hc d hd => (ih c hc hd).1
      obtain ⟨hnode, hkeeps⟩ := withChildren_lighter hchildren
      obtain ⟨hweight, hterm⟩ := weight_simplifyNode bounds hr
      have hrule : Lighter bounds e r := by
        refine ⟨hweight.trans hnode.weight_le, hterm.trans hnode.termWeight_le, fun hconstant => ?_⟩
        have heq := hnode.constant hconstant
        obtain ⟨c, rfl⟩ := isConstant_iff.mp hconstant
        rw [heq] at hr
        exact (Except.ok.inj hr).symm
      refine ⟨hrule, fun hkeep => ?_⟩
      -- Neither the rule nor any of the children has lost weight.
      have hnodeKeeps : Keeps bounds e (e.withChildren ds) :=
        hkeep.imp (fun hkeep => hkeep.trans hweight) fun hkeep => hkeep.trans hterm
      have hruleKeeps : Keeps bounds (e.withChildren ds) r :=
        hkeep.imp hnode.weight_le.trans hnode.termWeight_le.trans
      refine normal_of_weight_simplifyNode bounds (fun d hd => ?_) hr hruleKeeps
      rw [children_withChildren hchildren.length_eq.symm] at hd
      have hboth := forall₂_and hall (hkeeps hnodeKeeps)
      obtain ⟨c, hc, hcd⟩ := exists_of_forall₂_right
        (forall₂_imp_of_mem hboth fun c hc d hcd => (ih c hc hcd.1).2 hcd.2) hd
      exact hcd

/-- What a pass leaves unchanged is normal. -/
theorem normal_of_pass (hmemo : memo.Settled bounds) {e : Expr} (h : pass bounds memo e = .ok e) :
    Normal bounds e :=
  (pass_lighter hmemo h).2 (.inl (Nat.le_refl _))

/-- The form at which passes settle is normal. -/
theorem normal_of_settle (hmemo : memo.Settled bounds) {maxPasses passes : Nat}
    {seen seen' : List Expr} {current canonical : Expr}
    (h : settle bounds memo maxPasses passes seen current = .ok (canonical, seen')) :
    Normal bounds canonical := by
  rcases settle_ends h with hpass | ⟨e, hknown⟩
  · exact normal_of_pass hmemo hpass
  · exact (hmemo e _ hknown).2

end Canonical

/-- Every reachable memo has normal forms. -/
theorem Memo.Reachable.settled {memo : Memo} (h : memo.Reachable bounds) :
    memo.Settled bounds := by
  induction h with
  | empty => exact fun e d hfind => by cases hfind
  | @record memo start canonical seen maxPasses _ hsettle ih =>
    have hnormal := normal_of_settle ih hsettle
    have hlighter := settle_related (R := Lighter bounds) (fun e => .refl e)
      (fun hab hbc => hab.trans hbc) (fun hpass => (pass_lighter ih hpass).1)
      (fun hfind => (ih _ _ hfind).1) (by simpa using Lighter.refl start) hsettle
    intro e d hfind
    rcases Memo.find?_record_cases hfind with ⟨rfl, hseen | rfl⟩ | hfind
    · exact ⟨hlighter.2 e hseen, hnormal⟩
    · exact ⟨.refl e, hnormal⟩
    · exact ih e d hfind

/-! ## Canonical forms -/

/-- Canonical forms are normal. -/
theorem normal_of_canonicalize {memo later : Memo} (hmemo : memo.Reachable bounds) {e c : Expr}
    (h : (canonicalize bounds e).run.run memo = (.ok c, later)) : Normal bounds c := by
  rcases run_canonicalizeWithin_eq_ok.mp h with ⟨hfind, -⟩ | ⟨-, seen, hsettle, -⟩
  · exact (hmemo.settled e c hfind).2
  · exact normal_of_settle hmemo.settled hsettle

/-- A normal expression is its own canonical form where the memo has nothing else for it. -/
theorem canonicalize_normal {e : Expr} (h : Normal bounds e) (hpasses : 1 ≤ bounds.maxPasses) :
    ((canonicalize bounds e).run.run .empty).1 = .ok e := by
  obtain ⟨n, hn⟩ : ∃ n, bounds.maxPasses = n + 1 := ⟨bounds.maxPasses - 1, by omega⟩
  have hpass : pass bounds .empty e = .ok e := pass_normal h fun s _ d hfind => by cases hfind
  have hsettle := settle_of_fixed hpass bounds.maxPasses n [e]
  exact congrArg Prod.fst (run_of_settle rfl (by rw [hn] at hsettle ⊢; exact hsettle))

/-- In a new memo two passes are enough if the first one ends at a form that passes leave as it
is. -/
theorem canonicalize_of_pass {e c : Expr} (hpasses : 2 ≤ bounds.maxPasses)
    (hpass : pass bounds .empty e = .ok c) (hfixed : pass bounds .empty c = .ok c) :
    ((canonicalize bounds e).run.run .empty).1 = .ok c := by
  obtain ⟨n, hn⟩ : ∃ n, bounds.maxPasses = n + 2 := ⟨bounds.maxPasses - 2, by omega⟩
  obtain ⟨seen, hseen⟩ := settle_of_pass hpass hfixed (fun d hfind => by cases hfind) (n + 2) n [e]
  exact congrArg Prod.fst (run_of_settle rfl (by rw [hn, hseen]))

namespace Session

/-- The expression behind the answer to a canonicalization in a reachable session is normal. -/
theorem normal_of_answer {session later : Session} (hsession : session.Reachable bounds)
    {handle result : Handle} (h : session.answer (canonicalize handle) = (.ok result, later)) :
    Normal bounds (later.pool.expr result) := by
  have hspec := canonicalize_spec hsession.consistent handle
  cases hrun : (ClosedForm.canonicalize bounds (session.pool.expr handle)).run.run session.memo with
  | mk outcome memo =>
    rw [hrun, h] at hspec
    cases outcome with
    | ok c =>
      obtain ⟨other, hother, hstands⟩ := hspec
      cases hother
      rw [hstands.2]
      exact normal_of_canonicalize hsession.consistent.memo hrun
    | error x => cases hspec

/-- A canonical form that is built in a new session is left as it is by one pass there, with all
its subexpressions, and it is its own canonical form. -/
theorem canonicalize_idempotent (hpasses : 1 ≤ bounds.maxPasses) {session : Session}
    (hsession : session.Reachable bounds) {handle result : Handle} {later : Session}
    (h : session.answer (canonicalize handle) = (.ok result, later)) :
    ∃ copy fresh, (new bounds).answer (store (later.pool.expr result)) = (.ok copy, fresh) ∧
      fresh.pool.expr copy = later.pool.expr result ∧
      (∀ s, Subexpr s (fresh.pool.expr copy) → pass fresh.bounds fresh.memo s = .ok s) ∧
      (fresh.answer (canonicalize copy)).1 = .ok copy := by
  have hnormal := normal_of_answer hsession h
  generalize later.pool.expr result = c at *
  obtain ⟨copy, fresh, hanswer, hfresh, hmemo, hcopy⟩ := store_spec (new_consistent bounds) c
  have hempty : fresh.memo = .empty := hmemo
  refine ⟨copy, fresh, hanswer, hcopy.2, fun s hs => ?_, canonicalize_eq hfresh hcopy ?_⟩
  · rw [hcopy.2] at hs
    rw [hfresh.bounds_eq, hempty]
    exact pass_normal (hnormal.of_subexpr hs) fun t _ d hfind => by cases hfind
  · rw [hcopy.2, hempty]
    exact canonicalize_normal hnormal hpasses

/-- The canonical form of `x + x + sqrt(8)`, read in a new session, is `2*x + 2*2^(1/2)`, and it
is left as it is in another one. -/
theorem canonicalize_idempotent_text :
    ∃ (session later : Session) (handle result : Handle), session.Reachable {} ∧
      session.answer (canonicalize handle) = (.ok result, later) ∧
      later.pool.expr result = .add [.mul [.constant 2, .symbol "x"],
        .mul [.constant 2, .pow (.constant 2) (.constant (1 / 2))]] ∧
      ∃ copy fresh, (new {}).answer (store (later.pool.expr result)) = (.ok copy, fresh) ∧
        fresh.pool.expr copy = later.pool.expr result ∧
        (∀ s, Subexpr s (fresh.pool.expr copy) → pass fresh.bounds fresh.memo s = .ok s) ∧
        (fresh.answer (canonicalize copy)).1 = .ok copy := by
  have hread : Formula.read "x + x + sqrt(8)" =
      .ok (.add [.symbol "x", .symbol "x", .pow (.constant 8) (.constant (1 / 2))]) := by
    cbv
  have hrun : ((ClosedForm.canonicalize {} (.add [.symbol "x", .symbol "x",
      .pow (.constant 8) (.constant (1 / 2))])).run.run .empty).1 =
      .ok (.add [.mul [.constant 2, .symbol "x"],
        .mul [.constant 2, .pow (.constant 2) (.constant (1 / 2))]]) := by
    cbv
  obtain ⟨handle, -, -, hexpr⟩ := parse_spec (new_consistent {}) hread
  have hreachable : ((new {}).after (.parse "x + x + sqrt(8)")).Reachable {} :=
    .after _ .new (by simp [Operation.handles, Pool.Has])
  have hmemo := memo_after_parse (new {}) "x + x + sqrt(8)"
  generalize (new {}).after (.parse "x + x + sqrt(8)") = session at hexpr hreachable hmemo
  rw [← hexpr, show Memo.empty = session.memo from hmemo.symm] at hrun
  obtain ⟨result, later, hanswer, hresult⟩ := canonicalize_ok hreachable.consistent hrun
  exact ⟨session, later, handle, result, hreachable, hanswer, hresult.2,
    canonicalize_idempotent (by decide) hreachable hanswer⟩

end Session

end ClosedForm
