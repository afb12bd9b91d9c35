import ClosedForm.Proofs.Recording
import ClosedForm.Proofs.Results
import ClosedForm.Proofs.Traversal

/-!
# Passes, settling and the memo

`Canonical.pass_eq` says what one pass makes of an expression from what it makes of the
children. Whatever relates every expression to what a pass makes of it, transitively, relates it
to the form it settles at (`Canonical.settle_related`), and hence relates the entries of every
reachable memo (`Memo.Reachable.related`), and every expression to its canonical form
(`Memo.Reachable.related_run`).
-/

namespace ClosedForm

namespace Canonical

variable {bounds : Bounds} {memo : Memo}

/-- A pass takes the form of an expression from the memo, or simplifies the node over what it
makes of the children. -/
theorem pass_eq (e : Expr) :
    pass bounds memo e =
      e.children.mapM (pass bounds memo) >>= passStep bounds memo e :=
  Expr.foldM_eq e

/-- A pass of an expression that the memo knows cannot fail at the node, only below it. -/
theorem passStep_of_find {e canonical : Expr} (h : memo.find? e = some canonical)
    (children : List Expr) : passStep bounds memo e children = .ok canonical := by
  simp only [passStep, h]
  rfl

theorem passStep_of_not_find {e : Expr} (h : memo.find? e = none) (children : List Expr) :
    passStep bounds memo e children = simplifyNode bounds (e.withChildren children) := by
  simp only [passStep, h]

theorem pass_empty_eq (e : Expr) : pass bounds .empty e =
    e.children.mapM (pass bounds .empty) >>= fun cs => simplifyNode bounds (e.withChildren cs) :=
  pass_eq e

/-- Without a memo a pass ends well where it does so on the children and the rule for the node does
so on what they became. -/
theorem pass_empty_eq_ok {e r : Expr} : pass bounds .empty e = .ok r ↔
    ∃ cs, List.Forall₂ (fun c d => pass bounds .empty c = .ok d) e.children cs ∧
      simplifyNode bounds (e.withChildren cs) = .ok r := by
  rw [pass_empty_eq, bind_eq_ok]
  simp only [mapM_eq_ok]

end Canonical

namespace Canonical

variable {bounds : Bounds} {memo : Memo} {R : Expr → Expr → Prop}

/-! ## Settling -/

/-- Passes settle at once where one of them changes nothing or ends at a form that the memo knows, and
otherwise where they settle from what it made. -/
theorem settle_succ_eq_ok {maxPasses passes : Nat} {seen seen' : List Expr} {current canonical : Expr} :
    settle bounds memo maxPasses (passes + 1) seen current = .ok (canonical, seen') ↔
      ∃ next, pass bounds memo current = .ok next ∧
        (next = current ∧ canonical = next ∧ seen' = seen ∨
          next ≠ current ∧ memo.find? next = some canonical ∧ seen' = seen ∨
          next ≠ current ∧ memo.find? next = none ∧
            settle bounds memo maxPasses passes (next :: seen) next = .ok (canonical, seen')) := by
  rw [settle, bind_eq_ok]
  refine exists_congr fun next => and_congr_right fun _ => ?_
  by_cases heq : next = current
  · rw [if_pos heq]
    simp [heq, pure, Except.pure, eq_comm]
  · rw [if_neg heq]
    cases memo.find? next <;> simp [heq, pure, Except.pure, eq_comm]

/-- Passes settle at a form that they leave as it is, or that the memo has for some expression. -/
theorem settle_ends {maxPasses passes : Nat} {seen seen' : List Expr} {current canonical : Expr}
    (h : settle bounds memo maxPasses passes seen current = .ok (canonical, seen')) :
    pass bounds memo canonical = .ok canonical ∨ ∃ e, memo.find? e = some canonical := by
  induction passes generalizing seen current with
  | zero => cases h
  | succ passes ih =>
    obtain ⟨next, hnext, ⟨rfl, rfl, -⟩ | ⟨-, hknown, -⟩ | ⟨-, -, h⟩⟩ := settle_succ_eq_ok.mp h
    · exact .inl hnext
    · exact .inr ⟨next, hknown⟩
    · exact ih h

/-- Settling went through passes that all succeeded: `R` relates the forms gone through to the
form reached, if it is transitive and relates every expression to what a pass makes of it and
to what the memo has for it. -/
theorem settle_related (hrefl : ∀ e, R e e) (htrans : ∀ {a b c}, R a b → R b c → R a c)
    (hpass : ∀ {e next}, pass bounds memo e = .ok next → R e next)
    (hmemo : ∀ {e canonical}, memo.find? e = some canonical → R e canonical)
    {maxPasses passes : Nat} {seen seen' : List Expr} {current canonical : Expr}
    (hseen : ∀ s ∈ seen, R s current)
    (h : settle bounds memo maxPasses passes seen current = .ok (canonical, seen')) :
    R current canonical ∧ ∀ s ∈ seen', R s canonical := by
  induction passes generalizing seen current with
  | zero => cases h
  | succ passes ih =>
    obtain ⟨next, hnext, hlast⟩ := settle_succ_eq_ok.mp h
    have hstep := hpass hnext
    rcases hlast with ⟨-, rfl, rfl⟩ | ⟨-, hknown, rfl⟩ | ⟨-, -, h⟩
    · exact ⟨hstep, fun s hs => htrans (hseen s hs) hstep⟩
    · have hcurrent := htrans hstep (hmemo hknown)
      exact ⟨hcurrent, fun s hs => htrans (hseen s hs) hcurrent⟩
    · have hseen' : ∀ s ∈ next :: seen, R s next :=
        List.forall_mem_cons.mpr ⟨hrefl next, fun s hs => htrans (hseen s hs) hstep⟩
      obtain ⟨hcanonical, hall⟩ := ih hseen' h
      exact ⟨htrans hstep hcanonical, hall⟩

/-- Settling fails when the passes are used up, or where a pass fails. -/
theorem settle_error (hrefl : ∀ e, R e e) (htrans : ∀ {a b c}, R a b → R b c → R a c)
    (hpass : ∀ {e next}, pass bounds memo e = .ok next → R e next)
    {maxPasses passes : Nat} {seen : List Expr} {current : Expr} {x : Error}
    (h : settle bounds memo maxPasses passes seen current = .error x) :
    x = .divergence maxPasses ∨ ∃ e, R current e ∧ pass bounds memo e = .error x := by
  induction passes generalizing seen current with
  | zero =>
    cases h
    exact .inl rfl
  | succ passes ih =>
    rw [settle, bind_eq_error] at h
    rcases h with h | ⟨next, hnext, h⟩
    · exact .inr ⟨current, hrefl current, h⟩
    · split at h
      · cases h
      · split at h
        · cases h
        · rcases ih h with hdivergence | ⟨e, he, hfails⟩
          · exact .inl hdivergence
          · exact .inr ⟨e, htrans (hpass hnext) he, hfails⟩

theorem settle_of_pass_error {e : Expr} {x : Error} (h : pass bounds memo e = .error x)
    (maxPasses passes : Nat) (seen : List Expr) :
    settle bounds memo maxPasses (passes + 1) seen e = .error x := by
  rw [settle, h]
  rfl

/-- A pass that changes nothing is the last one. -/
theorem settle_of_fixed {e : Expr} (h : pass bounds memo e = .ok e) (maxPasses passes : Nat)
    (seen : List Expr) : settle bounds memo maxPasses (passes + 1) seen e = .ok (e, seen) := by
  rw [settle, h]
  exact if_pos rfl

/-- A pass to another form that the memo does not know is followed by the next one. -/
theorem settle_of_change {e next : Expr} (h : pass bounds memo e = .ok next) (hne : next ≠ e)
    (hfind : memo.find? next = none) (maxPasses passes : Nat) (seen : List Expr) :
    settle bounds memo maxPasses (passes + 1) seen e =
      settle bounds memo maxPasses passes (next :: seen) next := by
  rw [settle, h]
  refine (if_neg hne).trans ?_
  rw [hfind]

/-- Two passes are enough if the first one ends at a form that passes leave as it is, and the memo
has nothing else for that form. -/
theorem settle_of_pass {e c : Expr} (hpass : pass bounds memo e = .ok c)
    (hfixed : pass bounds memo c = .ok c) (hfind : ∀ d, memo.find? c = some d → d = c)
    (maxPasses passes : Nat) (seen : List Expr) :
    ∃ seen', settle bounds memo maxPasses (passes + 2) seen e = .ok (c, seen') := by
  by_cases heq : c = e
  · exact ⟨seen, heq ▸ settle_of_fixed hfixed _ _ _⟩
  cases hknown : memo.find? c with
  | some d =>
    obtain rfl := hfind d hknown
    rw [settle, hpass]
    refine ⟨seen, (if_neg heq).trans ?_⟩
    rw [hknown]
    rfl
  | none =>
    exact ⟨c :: seen, (settle_of_change hpass heq hknown _ _ _).trans (settle_of_fixed hfixed _ _ _)⟩

/-- Where the expression settles, the memo records all forms gone through. -/
theorem run_of_settle {e c : Expr} {seen : List Expr} (hfind : memo.find? e = none)
    (h : settle bounds memo bounds.maxPasses bounds.maxPasses [e] e = .ok (c, seen)) :
    (canonicalize bounds e).run.run memo = (.ok c, memo.record seen c) := by
  unfold canonicalize
  rw [run_canonicalizeWithin, hfind]
  dsimp only
  rw [h]

/-- An expression that one pass brings to a form that passes leave as it is. -/
theorem run_of_pass (hpasses : 2 ≤ bounds.maxPasses) {e c : Expr} (hfind : memo.find? e = none)
    (hpass : pass bounds memo e = .ok c) (hne : c ≠ e) (hnew : memo.find? c = none)
    (hfixed : pass bounds memo c = .ok c) :
    (canonicalize bounds e).run.run memo = (.ok c, memo.record [c, e] c) := by
  obtain ⟨n, hn⟩ : ∃ n, bounds.maxPasses = n + 2 := ⟨bounds.maxPasses - 2, by omega⟩
  exact run_of_settle hfind
    (by rw [hn, settle_of_change hpass hne hnew, settle_of_fixed hfixed])

/-- An expression that two passes bring to a form that passes leave as it is. -/
theorem run_of_two_passes (hpasses : 3 ≤ bounds.maxPasses) {e middle c : Expr}
    (hfind : memo.find? e = none) (hfirst : pass bounds memo e = .ok middle) (hmiddle : middle ≠ e)
    (hnewmiddle : memo.find? middle = none) (hsecond : pass bounds memo middle = .ok c)
    (hc : c ≠ middle) (hnew : memo.find? c = none) (hfixed : pass bounds memo c = .ok c) :
    (canonicalize bounds e).run.run memo = (.ok c, memo.record [c, middle, e] c) := by
  obtain ⟨n, hn⟩ : ∃ n, bounds.maxPasses = n + 3 := ⟨bounds.maxPasses - 3, by omega⟩
  exact run_of_settle hfind (by rw [hn, settle_of_change hfirst hmiddle hnewmiddle,
    settle_of_change hsecond hc hnew, settle_of_fixed hfixed])

end Canonical

/-! ## Reachable memos -/

section Related

variable {bounds : Bounds} {R : Expr → Expr → Prop} (hrefl : ∀ e, R e e)
  (htrans : ∀ {a b c}, R a b → R b c → R a c)
  (hpass : ∀ memo : Memo, memo.Reachable bounds →
    (∀ e canonical, memo.find? e = some canonical → R e canonical) →
      ∀ e next, Canonical.pass bounds memo e = .ok next → R e next)

include hrefl htrans hpass

/-- What relates expressions to their passes, whenever it relates the entries of the memo,
relates the entries of every reachable memo. -/
theorem Memo.Reachable.related {memo : Memo} (h : memo.Reachable bounds) {e canonical : Expr}
    (hfind : memo.find? e = some canonical) : R e canonical := by
  induction h generalizing e canonical with
  | empty => cases hfind
  | @record memo start reached seen maxPasses hmemo hsettle ih =>
    have hstart : ∀ s ∈ [start], R s start := by
      simpa using hrefl start
    have hrelated := Canonical.settle_related hrefl htrans
      (fun {e next} h => hpass memo hmemo (fun e c he => ih he) e next h) (fun h => ih h) hstart
      hsettle
    rcases Memo.find?_record_cases hfind with ⟨rfl, hseen | rfl⟩ | hfind
    · exact hrelated.2 e hseen
    · exact hrefl e
    · exact ih hfind

/-- It relates expressions to their canonical forms. -/
theorem Memo.Reachable.related_run {memo : Memo} (h : memo.Reachable bounds) {e c : Expr}
    (hrun : ((canonicalize bounds e).run.run memo).1 = .ok c) : R e c := by
  have hentries : ∀ {e c}, memo.find? e = some c → R e c := fun hfind =>
    h.related hrefl htrans hpass hfind
  rcases run_canonicalizeWithin_eq_ok.mp (Prod.ext hrun rfl) with ⟨hfind, -⟩ | ⟨-, seen, hsettle, -⟩
  · exact hentries hfind
  · exact (Canonical.settle_related hrefl htrans
      (hpass memo h (fun _ _ hfind => hentries hfind) _ _) hentries (by simpa using hrefl e)
      hsettle).1

/-- A canonicalization fails when the passes are used up, or where a pass fails of an expression that
comes from the given one. -/
theorem Memo.Reachable.error_of_run {memo : Memo} (h : memo.Reachable bounds) {e : Expr} {x : Error}
    (hrun : ((canonicalize bounds e).run.run memo).1 = .error x) :
    x = .divergence bounds.maxPasses ∨ ∃ d, R e d ∧ Canonical.pass bounds memo d = .error x := by
  unfold canonicalize at hrun
  rw [run_canonicalizeWithin] at hrun
  split at hrun
  · cases hrun
  · split at hrun
    · cases hrun
    · next hsettle =>
      cases hrun
      exact Canonical.settle_error hrefl htrans
        (hpass memo h (fun _ _ hfind => h.related hrefl htrans hpass hfind) _ _) hsettle

end Related

end ClosedForm
