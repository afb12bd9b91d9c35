import ClosedForm.Proofs.Observation
import ClosedForm.Proofs.Retention
import Mathlib

/-!
# What a session recalls

The memo of a session is never contradicted later (`Session.Leads.find?_eq`). A canonicalization that
ended well is therefore answered with the same handle at any later time, whatever number of passes is
allowed then, and so is the one of its result. One that fails leaves a session that differs in stored
nodes at most, so that it answers alike ever after (`Session.Parallel.reply_eq`).
`Session.Reachable.recalls` puts this together.
-/

namespace ClosedForm

namespace Stored

variable {bounds : Bounds} {memo : Memo}

/-- Passes that settle store the same nodes if more of them are allowed. -/
theorem settle_mono {maxPasses morePasses passes more : Nat} {seen : List Expr} {current : Expr}
    {reached : Expr × List Expr} {pool later : Pool}
    (h : (settle bounds memo maxPasses passes seen current).run.run pool = (.ok reached, later))
    (hle : passes ≤ more) :
    (settle bounds memo morePasses more seen current).run.run pool = (.ok reached, later) := by
  induction passes generalizing more seen current pool with
  | zero => cases h
  | succ passes ih =>
    obtain ⟨more, rfl⟩ : ∃ k, more = k + 1 := ⟨more - 1, by omega⟩
    unfold settle at h ⊢
    rw [run_bind] at h ⊢
    generalize (pass bounds memo current).run.run pool = ran at h ⊢
    obtain ⟨x | next, after⟩ := ran
    · cases h
    · dsimp only at h ⊢
      by_cases heq : next = current
      · rw [if_pos heq] at h ⊢
        exact h
      · rw [if_neg heq] at h ⊢
        cases hfind : memo.find? next with
        | some canonical =>
          rw [hfind] at h
          exact h
        | none =>
          rw [hfind] at h
          exact ih h (by omega)

/-- A canonicalization that ends well leaves the same session if more passes are allowed. -/
theorem canonicalizeWithin_mono {session next : Session} {k more : Nat} {e c : Expr}
    (h : session.answer (canonicalizeWithin bounds k e) = (.ok c, next)) (hle : k ≤ more) :
    session.answer (canonicalizeWithin bounds more e) = (.ok c, next) := by
  rw [answer_canonicalizeWithin] at h ⊢
  cases hfind : session.memo.find? e with
  | some canonical =>
    rw [hfind] at h
    exact h
  | none =>
    rw [hfind] at h
    dsimp only at h ⊢
    rcases hrun : (settle bounds session.memo k k [e] e).run.run session.pool with ⟨x | reached, pool⟩
    · rw [hrun] at h
      cases h
    · rw [hrun] at h
      rw [settle_mono hrun hle]
      exact h

end Stored

namespace Session

variable {bounds : Bounds} {session later next : Session} {handle result : Handle} {k : Nat}

/-- Operations add to the memo what canonicalizations record. -/
theorem Leads.grows (h : session.Reachable bounds) (hleads : session.Leads later) :
    session.memo.Grows bounds later.memo := by
  induction hleads with
  | refl => exact .refl
  | after operation hleads hhandles ih =>
    exact ih.trans ((h.leads hleads).consistent.after operation hhandles).memo

/-- No operation changes an entry of the memo. -/
theorem Leads.find?_eq (h : session.Reachable bounds) (hleads : session.Leads later) {e c : Expr}
    (hfind : session.memo.find? e = some c) : later.memo.find? e = some c :=
  (hleads.grows h).find?_eq h.consistent.memo hfind

/-- What the memo knows is answered with the handle of its form, without a pass. -/
theorem canonicalizeWithin_of_find? (h : session.Consistent bounds) {c : Expr}
    (hresult : Pool.StandsFor c result session.pool)
    (hfind : session.memo.find? (session.pool.expr handle) = some c) (k : Nat) :
    (session.answer (canonicalizeWithin handle k)).1 = .ok result := by
  have hrun : (ClosedForm.canonicalizeWithin bounds k (session.pool.expr handle)).run.run session.memo =
      (.ok c, session.memo) := ClosedForm.canonicalizeWithin_of_find? hfind k
  exact (canonicalizeWithin_performs h handle k).answer_eq h hresult (congrArg Prod.fst hrun)

/-- A canonicalization that ends well gives a handle of the form that the memo has from then on. -/
theorem canonicalizeWithin_ok (h : session.Consistent bounds)
    (hanswer : session.answer (canonicalizeWithin handle k) = (.ok result, next)) :
    ∃ c, (ClosedForm.canonicalizeWithin bounds k (session.pool.expr handle)).run.run session.memo =
        (.ok c, next.memo) ∧ Pool.StandsFor c result next.pool := by
  obtain ⟨c, hrun, -, hstands⟩ := (canonicalizeWithin_performs h handle k).of_answer hanswer
  exact ⟨c, hrun, hstands⟩

/-- A canonicalization that ends well ends in the same way if more passes are allowed. -/
theorem answer_canonicalizeWithin_mono
    (hanswer : session.answer (canonicalizeWithin handle k) = (.ok result, next)) {more : Nat}
    (hle : k ≤ more) : session.answer (canonicalizeWithin handle more) = (.ok result, next) := by
  unfold canonicalizeWithin at hanswer ⊢
  rw [answer_transform, answer_bind] at hanswer ⊢
  rcases hrun : session.answer
    (Stored.canonicalizeWithin session.bounds k (session.pool.expr handle)) with ⟨x | c, later⟩
  · rw [hrun] at hanswer
    cases hanswer
  · rw [hrun] at hanswer
    rw [Stored.canonicalizeWithin_mono hrun hle]
    exact hanswer

/-- A canonicalization that fails leaves the memo as it is. -/
theorem memo_of_answer_error (h : session.Consistent bounds) {x : Error}
    (hanswer : session.answer (canonicalizeWithin handle k) = (.error x, next)) :
    next.memo = session.memo := by
  obtain ⟨last, -, hmemo, houtcome⟩ := canonicalizeWithin_performs h handle k
  rcases hrun : (ClosedForm.canonicalizeWithin bounds k (session.pool.expr handle)).run.run
    session.memo with ⟨y | c, memo⟩
  · rw [hrun] at hmemo houtcome
    cases hanswer.symm.trans houtcome
    exact hmemo.trans (memo_of_canonicalizeWithin_error hrun)
  · rw [hrun] at houtcome
    obtain ⟨handle, hends, -⟩ := houtcome
    cases hanswer.symm.trans hends

/-- Canonical forms are recalled, and failures forgotten:
a canonicalization that ended well is answered with the same handle in every later session, as is
the one of its result, with any number of passes, and ends in the same way at once with more passes;
after one that failed, the memo is as before, all nodes are in place, and whatever nodes were left
over, the same is answered about the same expressions ever after; entries of the memo persist, with
forms that are forms of themselves. -/
theorem Reachable.recalls (h : session.Reachable bounds) (hhandle : handle < session.pool.size)
    (k : Nat) :
    (∀ result next, session.answer (canonicalizeWithin handle k) = (.ok result, next) →
      (∀ later, next.Leads later → ∀ passes,
        (later.answer (canonicalizeWithin handle passes)).1 = .ok result ∧
        (later.answer (canonicalizeWithin result passes)).1 = .ok result) ∧
      ∀ more ≥ k, session.answer (canonicalizeWithin handle more) = (.ok result, next)) ∧
    (∀ x next, session.answer (canonicalizeWithin handle k) = (.error x, next) →
      next.memo = session.memo ∧ session.pool.Extends next.pool ∧
      ∀ spoiled, next.Leads spoiled → spoiled.memo = session.memo →
        ∀ left right, session.Parallel spoiled left right →
          ∀ operation f, left.Carries right operation f →
            right.reply (operation.rename f) = left.reply operation) ∧
    ∀ later, session.Leads later → ∀ e c, session.memo.find? e = some c →
      later.memo.find? e = some c ∧ later.memo.find? c = some c := by
  have hnext : session.Leads (session.answer (canonicalizeWithin handle k)).2 :=
    .after (.canonicalizeWithin handle k) .refl (has_cons hhandle (has_nil _))
  refine ⟨?success, ?failure, ?entries⟩
  case success =>
    intro result next hanswer
    rw [hanswer] at hnext
    refine ⟨fun later hlater passes => ?_, fun more hle =>
      answer_canonicalizeWithin_mono hanswer hle⟩
    have hreachable := h.leads hnext
    obtain ⟨c, hrun, hstands⟩ := canonicalizeWithin_ok h.consistent hanswer
    obtain ⟨hfind, hfindc⟩ := find?_of_canonicalizeWithin h.consistent.memo hrun
    have hconsistent := (hreachable.leads hlater).consistent
    have hstands' := hstands.mono hreachable.consistent.pool hconsistent.pool
      (hlater.extends hreachable)
    have hexpr : later.pool.expr handle = session.pool.expr handle :=
      ((hnext.trans hlater).extends h).expr_eq h.consistent.pool hconsistent.pool hhandle
    constructor
    · exact canonicalizeWithin_of_find? hconsistent hstands'
        (by rw [hexpr]; exact hlater.find?_eq hreachable hfind) passes
    · exact canonicalizeWithin_of_find? hconsistent hstands'
        (by rw [hstands'.2]; exact hlater.find?_eq hreachable hfindc) passes
  case failure =>
    intro x next hanswer
    rw [hanswer] at hnext
    refine ⟨memo_of_answer_error h.consistent hanswer, hnext.extends h, ?_⟩
    intro spoiled hspoiled hmemo left right hparallel operation f hcarries
    exact hparallel.reply_eq h.consistent ((h.leads hnext).leads hspoiled).consistent hmemo hcarries
  case entries =>
    intro later hlater e c hfind
    exact ⟨hlater.find?_eq h hfind,
      hlater.find?_eq h (h.consistent.memo.stable e c hfind)⟩

/-- A session that read `x + x` forgets that one pass was not enough for it, and recalls the answer of
two passes without any. -/
theorem recalls_text :
    ∃ (session : Session) (handle result : Handle), session.Reachable {} ∧
      session.pool.expr handle = .add [.symbol "x", .symbol "x"] ∧
      (session.answer (canonicalizeWithin handle 1)).1 = .error (.divergence 1) ∧
      (session.after (.canonicalizeWithin handle 1)).memo = session.memo ∧
      (session.answer (canonicalizeWithin handle 2)).1 = .ok result ∧
      ((session.after (.canonicalizeWithin handle 2)).answer (canonicalizeWithin handle 0)).1 =
        .ok result := by
  have hread : Formula.read "x + x" = .ok (.add [.symbol "x", .symbol "x"]) := by cbv
  obtain ⟨handle, -, hlt, hexpr⟩ := parse_spec (new_consistent {}) hread
  have hreachable : ((new {}).after (.parse "x + x")).Reachable {} := .after _ .new (has_nil _)
  have hmemo := memo_after_parse (new {}) "x + x"
  generalize (new {}).after (.parse "x + x") = session at hlt hexpr hreachable hmemo
  have hone : (session.answer (canonicalizeWithin handle 1)).1 = .error (.divergence 1) := by
    refine (canonicalizeWithin_performs hreachable.consistent handle 1).of_run_error ?_
    rw [hexpr, hmemo, run_canonicalizeWithin]
    cbv
  have hrun : ((ClosedForm.canonicalizeWithin {} 2 (session.pool.expr handle)).run.run
      session.memo).1 = .ok (.mul [.constant 2, .symbol "x"]) := by
    rw [hexpr, hmemo, run_canonicalizeWithin]
    cbv
  obtain ⟨result, later, htwo, -, -⟩ :=
    (canonicalizeWithin_performs hreachable.consistent handle 2).of_ok hrun
  obtain ⟨-, hforgets, -⟩ := hreachable.recalls hlt 1
  obtain ⟨hrecalls, -, -⟩ := hreachable.recalls hlt 2
  refine ⟨session, handle, result, hreachable, hexpr, hone, ?_, congrArg Prod.fst htwo, ?_⟩
  · exact (hforgets _ _ (Prod.ext hone rfl)).1
  · have hafter : session.after (.canonicalizeWithin handle 2) = later := congrArg Prod.snd htwo
    rw [hafter]
    exact ((hrecalls result later htwo).1 later .refl 0).1

end Session

end ClosedForm
