import ClosedForm.Proofs.Idempotence

/-!
# What a canonical form owes to earlier ones

A pass takes the form of a subexpression from the memo where it has one, and otherwise what one
application of the rules makes of it. Where the rules need a second pass these are different
expressions, and the node above can end at different forms: `x*i*i*i + x*i` becomes `0` in two
passes, and dividing `0` by it gives `0` in a new session, but fails where the memo knows that it is
`0` (`Session.canonicalForm_depends_on_history`).

An expression is `Direct` if every subexpression reaches its canonical form within one pass. For
direct expressions a reachable memo says nothing that the rules do not say (`Memo.Reachable.faithful`),
a pass is the same with it and without it (`pass_eq_of_direct`), and the outcome of a canonicalization
is the same in all reachable sessions (`Session.canonicalForm_direct`).
-/

namespace ClosedForm

open ClosedForm.Expr Canonical

variable {bounds : Bounds} {memo : Memo}

namespace Canonical

/-- The rules alone take every subexpression in one pass to a form that they leave as it is, unless
they fail. -/
def Direct (bounds : Bounds) (e : Expr) : Prop :=
  ∀ s, Subexpr s e → ∀ r, pass bounds .empty s = .ok r → pass bounds .empty r = .ok r

theorem Direct.of_mem_children {c e : Expr} (h : Direct bounds e) (hc : c ∈ e.children) :
    Direct bounds c :=
  fun s hs => h s (.child hs hc)

theorem Direct.of_children {e : Expr} (hchildren : ∀ c ∈ e.children, Direct bounds c)
    (h : ∀ r, pass bounds .empty e = .ok r → pass bounds .empty r = .ok r) : Direct bounds e := by
  intro s hs
  cases hs with
  | refl => exact h
  | child hs hc => exact hchildren _ hc s hs

theorem direct_iff {e : Expr} : Direct bounds e ↔ (∀ c ∈ e.children, Direct bounds c) ∧
    ∀ r, pass bounds .empty e = .ok r → pass bounds .empty r = .ok r :=
  ⟨fun h => ⟨fun _ hc => h.of_mem_children hc, h e (.refl e)⟩, fun h => .of_children h.1 h.2⟩

/-- The computation that decides whether an expression is direct. -/
def isDirect (bounds : Bounds) : Expr → Bool :=
  Expr.recurse fun e checks => checks.all id &&
    match pass bounds .empty e with
    | .error _ => true
    | .ok r =>
      match pass bounds .empty r with
      | .error _ => false
      | .ok s => s == r

theorem isDirect_iff {e : Expr} : isDirect bounds e = true ↔ Direct bounds e := by
  induction e using Expr.induction with
  | node e ih =>
    have hnode : (match pass bounds .empty e with
        | .error _ => true
        | .ok r =>
          match pass bounds .empty r with
          | .error _ => false
          | .ok s => s == r) = true ↔
        ∀ r, pass bounds .empty e = .ok r → pass bounds .empty r = .ok r := by
      cases pass bounds .empty e with
      | error x => simp
      | ok r => cases hr : pass bounds .empty r <;> simp [hr]
    have hchildren : (e.children.map (isDirect bounds)).all id = true ↔
        ∀ c ∈ e.children, Direct bounds c := by
      simp only [List.all_map, List.all_eq_true, Function.comp_apply, id_eq]
      exact forall₂_congr ih
    rw [direct_iff, ← hchildren, ← hnode, isDirect, recurse_eq, Bool.and_eq_true]

/-- What the rules leave as it is in an empty memo is normal. -/
theorem normal_of_pass_empty {e : Expr} (h : pass bounds .empty e = .ok e) : Normal bounds e :=
  normal_of_pass Memo.Reachable.empty.settled h

theorem pass_empty_normal {e : Expr} (h : Normal bounds e) : pass bounds .empty e = .ok e :=
  pass_normal h fun s _ d hfind => by cases hfind

theorem Direct.normal {e r : Expr} (h : Direct bounds e) (hpass : pass bounds .empty e = .ok r) :
    Normal bounds r :=
  normal_of_pass_empty (h e (.refl e) r hpass)

theorem Normal.direct {e : Expr} (h : Normal bounds e) : Direct bounds e := by
  intro s hs r hr
  have hs' := pass_empty_normal (h.of_subexpr hs)
  cases hs'.symm.trans hr
  exact hs'

end Canonical

/-- For direct expressions the memo has what the rules make of them. -/
def Memo.Faithful (bounds : Bounds) (memo : Memo) : Prop :=
  ∀ e d, memo.find? e = some d → Direct bounds e → pass bounds .empty e = .ok d

namespace Canonical

/-- A faithful memo makes no difference to a pass of a direct expression. -/
theorem pass_eq_of_direct (hmemo : memo.Faithful bounds) {e : Expr} (h : Direct bounds e) :
    pass bounds memo e = pass bounds .empty e := by
  induction e using Expr.induction with
  | node e ih =>
    have hchildren : e.children.mapM (pass bounds memo) = e.children.mapM (pass bounds .empty) :=
      mapM_congr fun c hc => ih c hc (h.of_mem_children hc)
    cases hfind : memo.find? e with
    | none =>
      rw [pass_eq, pass_eq, hchildren]
      congr 1
      funext ds
      rw [passStep_of_not_find hfind, passStep_of_not_find (Memo.find?_empty e)]
    | some d =>
      -- The rules get as far as the node, since they give the form that the memo has.
      have hd := hmemo e d hfind h
      rw [hd, pass_eq, hchildren]
      rw [pass_eq, bind_eq_ok] at hd
      obtain ⟨ds, hds, -⟩ := hd
      rw [hds]
      exact passStep_of_find hfind ds

theorem find?_normal (hmemo : memo.Faithful bounds) {e d : Expr} (h : Normal bounds e)
    (hfind : memo.find? e = some d) : d = e :=
  Except.ok.inj ((hmemo e d hfind h.direct).symm.trans (pass_empty_normal h))

/-- The same expression, or a direct one and what the rules make of it. -/
private def Leads (bounds : Bounds) (e d : Expr) : Prop :=
  Direct bounds e → e = d ∨ pass bounds .empty e = .ok d

private theorem Leads.refl (e : Expr) : Leads bounds e e :=
  fun _ => .inl rfl

private theorem Leads.trans {a b c : Expr} (hab : Leads bounds a b) (hbc : Leads bounds b c) :
    Leads bounds a c := by
  intro ha
  rcases hab ha with rfl | hpass
  · exact hbc ha
  · have hb := ha.normal hpass
    rcases hbc hb.direct with rfl | hpass'
    · exact .inr hpass
    · cases (pass_empty_normal hb).symm.trans hpass'
      exact .inr hpass

end Canonical

/-- Every reachable memo is faithful. -/
theorem Memo.Reachable.faithful (h : memo.Reachable bounds) : memo.Faithful bounds := by
  induction h with
  | empty => exact fun e d hfind => by cases hfind
  | @record memo start canonical seen maxPasses hmemo hsettle ih =>
    have hcanonical := pass_empty_normal (normal_of_settle hmemo.settled hsettle)
    have hleads := settle_related (R := Leads bounds) Leads.refl
      (fun hab hbc => hab.trans hbc)
      (fun hpass hdirect => .inr ((pass_eq_of_direct ih hdirect).symm.trans hpass))
      (fun hfind hdirect => .inr (ih _ _ hfind hdirect)) (by simpa using Leads.refl start) hsettle
    intro e d hfind hdirect
    rcases Memo.find?_record_cases hfind with ⟨rfl, hseen | rfl⟩ | hfind
    · rcases hleads.2 e hseen hdirect with rfl | hpass
      · exact hcanonical
      · exact hpass
    · exact hcanonical
    · exact ih e d hfind hdirect

/-- A normal expression is its own canonical form. -/
theorem Memo.Reachable.eq_of_normal (hmemo : memo.Reachable bounds) {e c : Expr}
    (he : Normal bounds e) (hrun : ((canonicalize bounds e).run.run memo).1 = .ok c) : c = e := by
  refine hmemo.related_run (R := fun e c => Normal bounds e → c = e) (fun _ _ => rfl)
    (fun hab hbc ha => ?_) (fun memo _ hentries e c hpass he => ?_) hrun he
  · obtain rfl := hab ha
    exact hbc ha
  · rw [pass_normal he fun s hs d hfind => hentries s d hfind hs] at hpass
    cases hpass
    rfl

/-- Two passes suffice for a direct expression: its canonical form is what the first one makes of it,
whatever the memo holds, and its canonicalization fails only where that pass does. -/
theorem canonicalize_direct (hpasses : 2 ≤ bounds.maxPasses) (hmemo : memo.Reachable bounds)
    {e : Expr} (h : Direct bounds e) :
    ((canonicalize bounds e).run.run memo).1 = pass bounds .empty e := by
  obtain ⟨n, hn⟩ : ∃ n, bounds.maxPasses = n + 2 := ⟨bounds.maxPasses - 2, by omega⟩
  have hfaithful := hmemo.faithful
  unfold canonicalize
  rw [run_canonicalizeWithin]
  cases hfind : memo.find? e with
  | some d => exact (hfaithful e d hfind h).symm
  | none =>
    dsimp only
    have hsame := pass_eq_of_direct hfaithful h
    cases hpass : pass bounds .empty e with
    | error x =>
      rw [hn, settle_of_pass_error (hsame.trans hpass)]
    | ok c =>
      have hc := h.normal hpass
      obtain ⟨seen, hseen⟩ := settle_of_pass (hsame.trans hpass)
        ((pass_eq_of_direct hfaithful hc.direct).trans (pass_empty_normal hc))
        (fun d => find?_normal hfaithful hc) (n + 2) n [e]
      rw [hn, hseen]

namespace Session

/-- The expression that a session answers with when `e` is stored in it and canonicalized. -/
def canonicalForm (session : Session) (e : Expr) : Except Error Expr :=
  let (outcome, later) := session.answer (store e >>= canonicalize)
  outcome.map later.pool.expr

/-- The memo is all that the canonical form takes from the session. -/
theorem canonicalForm_eq {session : Session} (h : session.Consistent bounds) (e : Expr) :
    session.canonicalForm e = ((ClosedForm.canonicalize bounds e).run.run session.memo).1 := by
  obtain ⟨copy, stored, hstore, hstored, hmemo, hcopy⟩ := store_spec h e
  have hanswer : session.answer (store e >>= canonicalize) = stored.answer (canonicalize copy) := by
    rw [answer_bind, hstore]
  have hspec := canonicalize_spec hstored copy
  rw [hcopy.2, hmemo, ← hanswer] at hspec
  unfold canonicalForm
  generalize session.answer (store e >>= canonicalize) = answered at hspec ⊢
  cases hrun : ((ClosedForm.canonicalize bounds e).run.run session.memo).1 with
  | error x =>
    rw [hrun] at hspec
    obtain ⟨outcome, later⟩ := answered
    cases hspec
    rfl
  | ok c =>
    rw [hrun] at hspec
    obtain ⟨outcome, later⟩ := answered
    obtain ⟨result, hresult, hstands⟩ := hspec
    cases hresult
    exact congrArg Except.ok hstands.2

/-- `x*i*i*i + x*i`, which two passes make `0` and one does not. -/
def slowZero : Expr :=
  .add [.mul [.symbol "x", .imaginaryUnit, .imaginaryUnit, .imaginaryUnit],
    .mul [.symbol "x", .imaginaryUnit]]

/-- What one pass makes of it. -/
def almostZero : Expr :=
  .add [.mul [.symbol "x", .imaginaryUnit],
    .mul [.symbol "x", .mul [.constant (-1), .imaginaryUnit]]]

private theorem memo_after_slowZero :
    ((new {}).after (.parseCanonical "x*i*i*i + x*i")).memo =
      Memo.empty.record [.zero, almostZero, slowZero] .zero := by
  have hread : Formula.read "x*i*i*i + x*i" = .ok slowZero := by cbv
  rw [memo_after_parseCanonical (new_consistent {}) hread]
  exact congrArg Prod.snd (run_of_two_passes (by decide) rfl (by cbv) (by decide +kernel) rfl
    (by cbv) (by decide +kernel) rfl (by cbv))

/-- `0/(x*i*i*i + x*i)` is `0` in a new session, where a pass multiplies `0` by a power of something
that it does not know to be `0`. Once the divisor has been read by itself, it is a division by
zero. -/
theorem canonicalForm_depends_on_history :
    (new {}).canonicalForm (.mul [.zero, .pow slowZero (.constant (-1))]) = .ok .zero ∧
      ((new {}).after (.parseCanonical "x*i*i*i + x*i")).canonicalForm
        (.mul [.zero, .pow slowZero (.constant (-1))]) = .error .divisionByZero := by
  have hafter : ((new {}).after (.parseCanonical "x*i*i*i + x*i")).Reachable {} :=
    .after _ .new (by simp [Operation.handles, Pool.Has])
  constructor
  · rw [canonicalForm_eq (new_consistent {})]
    exact canonicalize_of_pass (by decide) (by cbv) (by cbv)
  · rw [canonicalForm_eq hafter.consistent, memo_after_slowZero]
    unfold ClosedForm.canonicalize
    rw [run_canonicalizeWithin, show (Memo.empty.record [.zero, almostZero, slowZero] .zero).find?
      (.mul [.zero, .pow slowZero (.constant (-1))]) = none by decide +kernel]
    dsimp only
    rw [settle_of_pass_error (x := .divisionByZero) (by cbv)]

/-- Direct expressions have the same canonical form, or fail in the same way, in all sessions,
whatever these were asked before. -/
theorem canonicalForm_direct (hpasses : 2 ≤ bounds.maxPasses) {first second : Session}
    (hfirst : first.Reachable bounds) (hsecond : second.Reachable bounds) {e : Expr}
    (h : Direct bounds e) : first.canonicalForm e = second.canonicalForm e := by
  rw [canonicalForm_eq hfirst.consistent, canonicalForm_eq hsecond.consistent,
    canonicalize_direct hpasses hfirst.consistent.memo h,
    canonicalize_direct hpasses hsecond.consistent.memo h]

/-- `x/(y*y)` is direct: a new session and one that has read `y*y` before agree about it. -/
theorem canonicalForm_direct_quotient :
    Direct {} (.mul [.symbol "x", .pow (.mul [.symbol "y", .symbol "y"]) (.constant (-1))]) ∧
      (new {}).canonicalForm
          (.mul [.symbol "x", .pow (.mul [.symbol "y", .symbol "y"]) (.constant (-1))]) =
        ((new {}).after (.parseCanonical "y*y")).canonicalForm
          (.mul [.symbol "x", .pow (.mul [.symbol "y", .symbol "y"]) (.constant (-1))]) := by
  have hleaf (e : Expr) (h : Normal {} e) : Direct {} e := h.direct
  have hproduct : Direct {} (.mul [.symbol "y", .symbol "y"]) := by
    refine .of_children (by simpa [children] using hleaf _ (.symbol "y")) fun r hr => ?_
    cases (show pass {} .empty (.mul [.symbol "y", .symbol "y"]) =
      .ok (.pow (.symbol "y") (.constant 2)) by cbv).symm.trans hr
    cbv
  have hpower : Direct {} (.pow (.mul [.symbol "y", .symbol "y"]) (.constant (-1))) := by
    refine .of_children (by simpa [children] using ⟨hproduct, hleaf _ (.constant (-1))⟩) fun r hr => ?_
    cases (show pass {} .empty (.pow (.mul [.symbol "y", .symbol "y"]) (.constant (-1))) =
      .ok (.pow (.symbol "y") (.constant (-2))) by cbv).symm.trans hr
    cbv
  have hquotient : Direct {}
      (.mul [.symbol "x", .pow (.mul [.symbol "y", .symbol "y"]) (.constant (-1))]) := by
    refine .of_children (by simpa [children] using ⟨hleaf _ (.symbol "x"), hpower⟩) fun r hr => ?_
    cases (show pass {} .empty
        (.mul [.symbol "x", .pow (.mul [.symbol "y", .symbol "y"]) (.constant (-1))]) =
      .ok (.mul [.symbol "x", .pow (.symbol "y") (.constant (-2))]) by cbv).symm.trans hr
    cbv
  exact ⟨hquotient, canonicalForm_direct (by decide) .new
    (.after _ .new (by simp [Operation.handles, Pool.Has])) hquotient⟩

end Session

end ClosedForm
