import ClosedForm.Calculus.Limit
import ClosedForm.Calculus.Taylor
import ClosedForm.Evaluate
import ClosedForm.Expand
import ClosedForm.Proofs.Results
import ClosedForm.Solve.System
import ClosedForm.Solve.Univariate

/-!
# What a memo can hold

A memo comes about from the empty one by completed canonicalizations, each of which took the
memo so far into account (`Memo.Reachable`). Every computation on expressions only adds to the
memo in this way (`Memo.Grows`), whether it succeeds or fails: it is `Recording`. Hence what holds
of every reachable memo holds of the memo of every session.
-/

namespace ClosedForm

/-- The memo was filled by completed canonicalizations, one after another. -/
inductive Memo.Reachable (bounds : Bounds) : Memo → Prop
  | empty : Reachable bounds .empty
  | record {memo : Memo} {e canonical : Expr} {seen : List Expr} {maxPasses : Nat} :
      Reachable bounds memo →
      Canonical.settle bounds memo maxPasses maxPasses [e] e = .ok (canonical, seen) →
      Reachable bounds (memo.record seen canonical)

/-- Completed canonicalizations, one after another, lead from a memo to a later one. -/
inductive Memo.Grows (bounds : Bounds) (memo : Memo) : Memo → Prop
  | refl : Grows bounds memo memo
  | record {later : Memo} {e canonical : Expr} {seen : List Expr} {maxPasses : Nat} :
      Grows bounds memo later →
      Canonical.settle bounds later maxPasses maxPasses [e] e = .ok (canonical, seen) →
      Grows bounds memo (later.record seen canonical)

theorem Memo.Grows.trans {bounds : Bounds} {memo later last : Memo} (h : memo.Grows bounds later)
    (hlast : later.Grows bounds last) : memo.Grows bounds last := by
  induction hlast with
  | refl => exact h
  | record _ hsettle ih => exact ih.record hsettle

theorem Memo.Reachable.grows {bounds : Bounds} {memo later : Memo} (h : memo.Reachable bounds)
    (hgrows : memo.Grows bounds later) : later.Reachable bounds := by
  induction hgrows with
  | refl => exact h
  | record _ hsettle ih => exact ih.record hsettle

/-- A canonicalization answers from the memo, or it settles and records what it went through. -/
theorem run_canonicalizeWithin (bounds : Bounds) (maxPasses : Nat) (e : Expr) (memo : Memo) :
    (canonicalizeWithin bounds maxPasses e).run.run memo =
      match memo.find? e with
      | some canonical => (.ok canonical, memo)
      | none =>
        match Canonical.settle bounds memo maxPasses maxPasses [e] e with
        | .ok (canonical, seen) => (.ok canonical, memo.record seen canonical)
        | .error x => (.error x, memo) := by
  have hget {α : Type} (next : Memo → Memoizing α) :
      ((get : Memoizing Memo) >>= next).run.run memo = (next memo).run.run memo := rfl
  unfold canonicalizeWithin
  rw [hget]
  cases memo.find? e with
  | some canonical => rfl
  | none =>
    cases Canonical.settle bounds memo maxPasses maxPasses [e] e with
    | ok reached => rfl
    | error x => rfl

/-- A canonicalization ends well where the memo knows the expression, or where passes settle. -/
theorem run_canonicalizeWithin_eq_ok {bounds : Bounds} {maxPasses : Nat} {e c : Expr}
    {memo later : Memo} :
    (canonicalizeWithin bounds maxPasses e).run.run memo = (.ok c, later) ↔
      memo.find? e = some c ∧ later = memo ∨
        memo.find? e = none ∧ ∃ seen,
          Canonical.settle bounds memo maxPasses maxPasses [e] e = .ok (c, seen) ∧
            later = memo.record seen c := by
  rw [run_canonicalizeWithin]
  cases memo.find? e with
  | some canonical =>
    constructor
    · intro h
      cases h
      exact .inl ⟨rfl, rfl⟩
    · rintro (⟨h, rfl⟩ | ⟨h, -⟩) <;> cases h
      rfl
  | none =>
    cases Canonical.settle bounds memo maxPasses maxPasses [e] e with
    | ok reached =>
      constructor
      · intro h
        cases h
        exact .inr ⟨rfl, reached.2, rfl, rfl⟩
      · rintro (⟨h, -⟩ | ⟨-, seen, h, rfl⟩) <;> cases h
        rfl
    | error x =>
      constructor
      · intro h
        cases h
      · rintro (⟨h, -⟩ | ⟨-, seen, h, -⟩) <;> cases h

/-- After recording, the memo has the new form for what was gone through and for the form itself, and
otherwise what it had. -/
theorem Memo.find?_record_cases {memo : Memo} {seen : List Expr} {canonical e c : Expr}
    (h : (memo.record seen canonical).find? e = some c) :
    c = canonical ∧ (e ∈ seen ∨ e = canonical) ∨ memo.find? e = some c := by
  rw [Memo.find?_record] at h
  split at h
  · next hrecorded => exact .inl ⟨(Option.some.inj h).symm, hrecorded⟩
  · exact .inr h

/-- What is made of a result has no effect on the memo. -/
theorem run_map {α β : Type} (f : α → β) (action : Memoizing α) (memo : Memo) :
    (f <$> action).run.run memo =
      ((action.run.run memo).1.map f, (action.run.run memo).2) := by
  rw [ExceptT.run_map, StateT.run_map]
  rfl

/-- A computation in two stages ends well if both do, the second one with the memo that the first one
left. -/
theorem run_bind_eq_ok {α β : Type} {action : Memoizing α} {next : α → Memoizing β}
    {memo later : Memo} {b : β} :
    (action >>= next).run.run memo = (.ok b, later) ↔
      ∃ a middle, action.run.run memo = (.ok a, middle) ∧
        (next a).run.run middle = (.ok b, later) := by
  rw [ExceptT.run_bind, StateT.run_bind]
  generalize action.run.run memo = ran
  obtain ⟨x | a, middle⟩ := ran
  · constructor
    · intro h
      cases h
    · rintro ⟨_, _, h, -⟩
      cases h
  · constructor
    · exact fun h => ⟨a, middle, rfl, h⟩
    · rintro ⟨_, _, h, hnext⟩
      cases h
      exact hnext

/-- A computation that does not look at the memo leaves it as it is. -/
theorem run_lift {α : Type} (outcome : Except Error α) (memo : Memo) :
    (liftM outcome : Memoizing α).run.run memo = (outcome, memo) := by
  cases outcome <;> rfl

/-- The computation adds to the memo what canonicalizations record, also if it fails. -/
def Recording {α : Type} (bounds : Bounds) (action : Memoizing α) : Prop :=
  ∀ memo : Memo, memo.Grows bounds (action.run.run memo).2

namespace Recording

variable {bounds : Bounds} {α β : Type}

theorem grows {action : Memoizing α} (h : Recording bounds action) {memo later : Memo}
    {outcome : Except Error α} (hrun : action.run.run memo = (outcome, later)) :
    memo.Grows bounds later := by
  simpa [hrun] using h memo

theorem reachable {action : Memoizing α} (h : Recording bounds action) {memo later : Memo}
    {outcome : Except Error α} (hmemo : memo.Reachable bounds)
    (hrun : action.run.run memo = (outcome, later)) : later.Reachable bounds :=
  hmemo.grows (h.grows hrun)

/-! ## Combinations -/

theorem pure (value : α) : Recording bounds (pure value : Memoizing α) :=
  fun _ => .refl

theorem throw (e : Error) : Recording bounds (throw e : Memoizing α) :=
  fun _ => .refl

theorem lift (result : Except Error α) : Recording bounds (liftM result : Memoizing α) :=
  fun _ => .refl

theorem bind {action : Memoizing α} {next : α → Memoizing β} (h : Recording bounds action)
    (hnext : ∀ value, Recording bounds (next value)) : Recording bounds (action >>= next) := by
  intro memo
  have hafter := h memo
  rw [ExceptT.run_bind, StateT.run_bind]
  generalize action.run.run memo = ran at *
  obtain ⟨_ | value, after⟩ := ran
  · exact hafter
  · exact hafter.trans (hnext value after)

/-- What comes behind a failure does not run. -/
theorem throw_bind (e : Error) (next : α → Memoizing β) :
    Recording bounds ((MonadExcept.throw e : Memoizing α) >>= next) :=
  fun _ => .refl

theorem tryCatch {action : Memoizing α} {handler : Error → Memoizing α}
    (h : Recording bounds action) (hhandler : ∀ e, Recording bounds (handler e)) :
    Recording bounds (tryCatch action handler) := by
  intro memo
  have hafter := h memo
  rcases hran : action.run.run memo with ⟨x | value, after⟩
  · rw [run_tryCatch_of_error hran]
    rw [hran] at hafter
    exact hafter.trans (hhandler x after)
  · rwa [run_tryCatch_of_ok hran, ← hran]

theorem mapM {es : List α} {f : α → Memoizing β} (h : ∀ a, Recording bounds (f a)) :
    Recording bounds (es.mapM f) := by
  induction es with
  | nil => exact Recording.pure []
  | cons e es ih =>
    rw [List.mapM_cons]
    exact (h e).bind fun value => ih.bind fun values => Recording.pure (value :: values)

/-! ## Canonical forms -/

theorem canonicalizeWithin (maxPasses : Nat) (e : Expr) :
    Recording bounds (canonicalizeWithin bounds maxPasses e) := by
  intro memo
  rw [run_canonicalizeWithin]
  split
  · exact .refl
  · split
    · next hsettle => exact Memo.Grows.refl.record hsettle
    · exact .refl

theorem canonicalize (e : Expr) : Recording bounds (canonicalize bounds e) :=
  canonicalizeWithin _ e

theorem expand (e : Expr) : Recording bounds (expand bounds e) :=
  (canonicalize e).bind fun _ => (lift _).bind fun _ => canonicalize _

theorem substituteAll (e : Expr) (bindings : List (String × Expr)) :
    Recording bounds (substituteAll bounds e bindings) :=
  canonicalize _

/-! ## Calculus -/

theorem differentiate (e : Expr) (name : String) :
    Recording bounds (differentiate bounds e name) :=
  (canonicalize e).bind fun _ => (lift _).bind fun _ => canonicalize _

theorem differentiateTimes (name : String) (n : Nat) (e : Expr) :
    Recording bounds (differentiateTimes bounds name n e) := by
  induction n generalizing e with
  | zero => exact pure e
  | succ n ih =>
    unfold ClosedForm.differentiateTimes
    split
    · exact pure e
    · exact (differentiate e name).bind fun next => ih next

theorem differentiateN (e : Expr) (name : String) (n : Nat) :
    Recording bounds (differentiateN bounds e name n) :=
  (canonicalize e).bind fun canonical => differentiateTimes name n canonical

theorem limit (e : Expr) (name : String) (point : Expr) :
    Recording bounds (limit bounds e name point) := by
  refine (canonicalize e).bind fun canonical => ?_
  refine (tryCatch (substituteAll canonical [(name, point)]) fun x => ?_).bind fun value => ?_
  · cases x <;> exact throw _
  · split
    · exact throw _
    · exact pure value

theorem taylorTerms (name : String) (point shift : Expr) (k count : Nat) (derivative : Expr) :
    Recording bounds (Taylor.terms bounds name point shift k count derivative) := by
  induction count generalizing k derivative with
  | zero => exact pure []
  | succ count ih =>
    refine (substituteAll derivative [(name, point)]).bind fun value => ?_
    dsimp only
    split
    · exact (pure derivative).bind fun next => (ih (k + 1) next).bind fun rest => pure _
    · exact (differentiate derivative name).bind fun next =>
        (ih (k + 1) next).bind fun rest => pure _

theorem taylor (e : Expr) (name : String) (point : Expr) (order : Nat) :
    Recording bounds (taylor bounds e name point order) :=
  (canonicalize e).bind fun canonical =>
    (taylorTerms name point _ 0 order canonical).bind fun _ => canonicalize _

theorem maclaurin (e : Expr) (name : String) (order : Nat) :
    Recording bounds (maclaurin bounds e name order) :=
  taylor e name .zero order

theorem evaluate (e : Expr) (bindings : List (String × Float)) :
    Recording bounds (evaluate bounds e bindings) := by
  refine (canonicalize e).bind fun canonical => (lift _).bind fun value => ?_
  split
  · exact pure value
  · exact throw _

/-! ## Polynomials -/

theorem canonicalizeAll (coefficients : List (Nat × Expr)) :
    Recording bounds (Polynomial.canonicalizeAll bounds coefficients) := by
  induction coefficients with
  | nil => exact pure []
  | cons t rest ih => exact (canonicalize t.2).bind fun c => ih.bind fun rest => pure _

theorem polynomialOfExpr (e : Expr) (name : String) :
    Recording bounds (Polynomial.ofExpr bounds e name) :=
  (canonicalize e).bind fun _ => (lift _).bind fun raw =>
    (canonicalizeAll raw.coefficients).bind fun _ => pure _

/-! ## Solving -/

theorem squareRoot (d : Expr) : Recording bounds (Solve.squareRoot bounds d) := by
  unfold Solve.squareRoot
  dsimp only
  split
  · split <;> exact canonicalize _
  · exact canonicalize _

theorem symbolicRoots (a b c : Expr) : Recording bounds (Solve.symbolicRoots bounds a b c) := by
  refine (canonicalize _).bind fun discriminant => ?_
  dsimp only
  split
  · exact (canonicalize _).bind fun root => pure _
  · exact (squareRoot discriminant).bind fun radical => (canonicalize _).bind fun first =>
      (canonicalize _).bind fun second => pure _

theorem quadraticRoots (p : Polynomial) : Recording bounds (Solve.quadraticRoots bounds p) := by
  unfold Solve.quadraticRoots
  dsimp only
  split
  · split
    · exact pure _
    · exact symbolicRoots _ _ _
  · exact symbolicRoots _ _ _

theorem solveUpTo (maxDegree : Nat) (e : Expr) (name : String) :
    Recording bounds (Solve.upTo bounds maxDegree e name) := by
  refine (polynomialOfExpr e name).bind fun p => ?_
  dsimp only
  split
  · exact throw _
  · split
    · exact pure _
    · exact (canonicalize _).bind fun root => pure _
    · exact (quadraticRoots p).bind fun roots => pure _

theorem coefficient (unknowns : List String) (number : Nat) (equation : Expr)
    (unknown : String) :
    Recording bounds (LinearSystem.coefficient bounds unknowns number equation unknown) := by
  refine (polynomialOfExpr equation unknown).bind fun p => ?_
  dsimp only
  split
  · exact throw_bind _ _
  · split
    · exact throw_bind _ _
    · split
      · exact pure _
      · exact throw _

theorem linearEquation (unknowns : List String) (number : Nat) (equation : Expr) :
    Recording bounds (LinearSystem.linearEquation bounds unknowns number equation) := by
  refine (mapM fun unknown => coefficient unknowns number equation unknown).bind
    fun coefficients => (substituteAll _ _).bind fun rest => ?_
  split
  · exact pure _
  · exact throw _

theorem linearEquations (unknowns : List String) (equations : List Expr) :
    Recording bounds (LinearSystem.linearEquations bounds unknowns equations) :=
  mapM fun t => (canonicalize t.1).bind fun canonical =>
    (linearEquation unknowns (t.2 + 1) canonical).bind fun _ => pure _

theorem solveSystem (equations : List Expr) (unknowns : List String) :
    Recording bounds (solveSystem bounds equations unknowns) := by
  refine (linearEquations unknowns equations).bind fun linear => ?_
  dsimp only
  split
  · exact throw _
  · exact pure _

theorem general (family : SolutionFamily) : Recording bounds (family.general bounds) :=
  mapM fun _ => canonicalize _

end Recording

end ClosedForm
