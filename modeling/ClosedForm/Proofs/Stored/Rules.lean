import ClosedForm.Proofs.Pool
import ClosedForm.Stored.Form

/-!
# What the rules store

A rule with the nodes that it makes gives what the rule on expressions gives, and does nothing to the
pool but to store nodes over handles that are there, whether it succeeds or fails
(`Stored.Computes`). This goes along with sequences, lists and folds, so it follows for each rule from
the rules that it calls, and for the passes from the rules.
-/

namespace ClosedForm.Stored

open Storing (making make)

/-- An action goes on with the value of another one where that one ended, unless it failed. -/
theorem run_bind {α β : Type} (action : Storing α) (next : α → Storing β) (pool : Pool) :
    (action >>= next).run.run pool =
      match action.run.run pool with
      | (.ok value, later) => (next value).run.run later
      | (.error x, later) => (.error x, later) := by
  rw [ExceptT.run_bind, StateT.run_bind]
  generalize action.run.run pool = ran
  obtain ⟨_ | _, _⟩ := ran <;> rfl

/-- From every well-formed pool the action ends as `result` says, and the pool grows. -/
def Computes {α : Type} (action : Storing α) (result : Except Error α) : Prop :=
  ∀ pool : Pool, pool.WellFormed →
    ∃ later, pool.Grows later ∧ action.run.run pool = (result, later)

/-! ## Combinations -/

section Combinations

variable {α β : Type}

theorem computes_pure (value : α) : Computes (pure value) (.ok value) :=
  fun pool _ => ⟨pool, .refl, rfl⟩

theorem computes_throw (e : Error) : Computes (throw e : Storing α) (.error e) :=
  fun pool _ => ⟨pool, .refl, rfl⟩

/-- A choice that is the same on both sides. -/
theorem computes_ite {p : Prop} [Decidable p] {action other : Storing α}
    {result otherResult : Except Error α} (h : Computes action result)
    (hother : Computes other otherResult) :
    Computes (if p then action else other) (if p then result else otherResult) := by
  split
  · exact h
  · exact hother

theorem computes_lift (result : Except Error α) : Computes (liftM result) result :=
  fun pool _ => ⟨pool, .refl, by cases result <;> rfl⟩

theorem computes_making (made : List Expr) (value : α) : Computes (making made value) (.ok value) :=
  fun _ hpool => ⟨_, (Pool.shareList_spec (fun e _ _ => Pool.share_spec e) hpool).2.1, rfl⟩

theorem computes_make (e : Expr) : Computes (make e) (.ok e) :=
  computes_making [e] e

/-- One after another. Where the first action fails, the second one stores nothing. -/
theorem Computes.bind {action : Storing α} {result : Except Error α} {next : α → Storing β}
    {nextResult : α → Except Error β} (h : Computes action result)
    (hnext : ∀ value, Computes (next value) (nextResult value)) :
    Computes (action >>= next) (result >>= nextResult) := by
  intro pool hpool
  obtain ⟨later, hgrows, hrun⟩ := h pool hpool
  rw [run_bind, hrun]
  cases result with
  | error e => exact ⟨later, hgrows, rfl⟩
  | ok value =>
    obtain ⟨last, hgrows', hrun'⟩ := hnext value later (hgrows.wellFormed hpool)
    exact ⟨last, hgrows.trans hgrows', hrun'⟩

/-- An action on the way whose value is known. -/
theorem Computes.bind_ok {action : Storing α} {value : α} {next : α → Storing β}
    {result : Except Error β} (h : Computes action (.ok value)) (hnext : Computes (next value) result) :
    Computes (action >>= next) result := by
  intro pool hpool
  obtain ⟨later, hgrows, hrun⟩ := h pool hpool
  obtain ⟨last, hgrows', hrun'⟩ := hnext later (hgrows.wellFormed hpool)
  refine ⟨last, hgrows.trans hgrows', ?_⟩
  rw [run_bind, hrun]
  exact hrun'

theorem computes_mapM {f : α → Storing β} {g : α → Except Error β}
    (h : ∀ a, Computes (f a) (g a)) (xs : List α) : Computes (xs.mapM f) (xs.mapM g) := by
  induction xs with
  | nil => exact computes_pure []
  | cons x xs ih =>
    rw [List.mapM_cons, List.mapM_cons]
    exact (h x).bind fun y => ih.bind fun ys => computes_pure (y :: ys)

theorem computes_flatMapM {f : α → Storing (List β)} {g : α → Except Error (List β)}
    (h : ∀ a, Computes (f a) (g a)) (xs : List α) : Computes (xs.flatMapM f) (xs.flatMapM g) := by
  induction xs with
  | nil => exact computes_pure []
  | cons x xs ih =>
    rw [List.flatMapM_cons, List.flatMapM_cons]
    exact (h x).bind fun ys => ih.bind fun zs => computes_pure (ys ++ zs)

theorem computes_foldlM {f : β → α → Storing β} {g : β → α → Except Error β}
    (h : ∀ b a, Computes (f b a) (g b a)) (xs : List α) (start : β) :
    Computes (xs.foldlM f start) (xs.foldlM g start) := by
  induction xs generalizing start with
  | nil => exact computes_pure start
  | cons x xs ih =>
    rw [List.foldlM_cons, List.foldlM_cons]
    exact (h start x).bind fun next => ih next

/-- A fold calls the steps in the same order with the same table. -/
theorem computes_foldM {f : Expr → List α → Storing α} {g : Expr → List α → Except Error α}
    (h : ∀ e values, Computes (f e values) (g e values)) (e : Expr) :
    Computes (e.foldM f) (e.foldM g) := by
  suffices hvisit : ∀ table : Expr.Table α,
      Computes ((Expr.visit f e).run table) ((Expr.visit g e).run table) from
    (hvisit ∅).bind fun reached => computes_pure reached.1
  induction e using Expr.induction with
  | node e ih =>
    intro table
    have hlist : ∀ (es : List Expr), (∀ c ∈ es, c ∈ e.children) → ∀ table : Expr.Table α,
        Computes ((Expr.visitList f es).run table) ((Expr.visitList g es).run table) := by
      intro es hes
      induction es with
      | nil => exact fun table => computes_pure ([], table)
      | cons c es ihs =>
        intro table
        have hc := ih c (hes c (by simp))
        have hrest := ihs fun x hx => hes x (by simp [hx])
        simp only [Expr.visitList, StateT.run_bind]
        exact (hc table).bind fun reached => (hrest reached.2).bind fun values =>
          computes_pure (reached.1 :: values.1, values.2)
    rw [Expr.visit_eq, Expr.visit_eq]
    unfold Expr.visitNode
    simp only [StateT.run_bind, StateT.run_get, pure_bind]
    cases table[e]? with
    | some value => exact computes_pure (value, table)
    | none =>
      simp only [StateT.run_bind]
      refine (hlist e.children (fun _ hc => hc) table).bind fun values => ?_
      exact ((h e values.1).bind fun value => computes_pure (value, values.2)).bind fun reached =>
        computes_pure (reached.1, reached.2.insert e reached.1)

end Combinations

/-! ## Sums and products -/

theorem computes_add (terms : List Expr) : Computes (add terms) (.ok (Canonical.add terms)) :=
  computes_making _ _

theorem computes_addExponents (exponents : List Expr) :
    Computes (addExponents exponents) (.ok (Canonical.addExponents exponents)) := by
  rcases exponents with - | ⟨exponent, - | ⟨other, rest⟩⟩
  · exact computes_add []
  · exact computes_pure exponent
  · exact computes_add (exponent :: other :: rest)

theorem computes_assemble (coefficient : Rat) (powers : List Expr) :
    Computes (assemble coefficient powers) (.ok (Canonical.assemble coefficient powers)) := by
  unfold assemble
  split
  · next hzero =>
    unfold Canonical.assemble
    rw [if_pos hzero]
    exact computes_pure _
  · next hzero =>
    split
    · unfold Canonical.assemble
      rw [if_neg hzero]
      dsimp only
      split
      · exact computes_pure _
      · exact computes_making _ _
    · exact computes_making _ _

section Powers

variable {bounds : Bounds} {storing : Expr → Expr → Storing Expr}
  {power : Expr → Expr → Except Error Expr}

theorem computes_multiplyWith
    (h : ∀ base exponent, Computes (storing base exponent) (power base exponent))
    (factors : List Expr) :
    Computes (multiplyWith storing factors) (Canonical.multiplyWith power factors) := by
  refine computes_ite (computes_pure _) ?_
  refine (computes_mapM (fun p => ?_) _).bind fun powers => computes_assemble _ _
  exact (computes_addExponents p.2).bind_ok (h p.1 _)

theorem computes_constantPower {product : List Expr → Storing Expr}
    {multiply : List Expr → Except Error Expr}
    (h : ∀ factors, Computes (product factors) (multiply factors)) (base exponent : Rat) :
    Computes (constantPower bounds product base exponent)
      (Canonical.constantPower bounds multiply base exponent) := by
  have hvalue (b : Rat) (n : Int) : Computes
      (do
        let value ← Rational.power b n
        make (.constant value))
      (do
        let value ← Rational.power b n
        return .constant value) :=
    (computes_lift (Rational.power b n)).bind fun value => computes_make (.constant value)
  have hunchanged := computes_make (.pow (.constant base) (.constant exponent))
  refine computes_ite (computes_ite (computes_throw _) (computes_ite (hvalue base exponent.num)
    (computes_ite (computes_throw _) hunchanged))) ?_
  refine computes_ite (computes_ite (computes_pure _) (computes_throw _)) ?_
  refine computes_ite hunchanged (computes_ite (computes_throw _) (computes_ite hunchanged ?_))
  cases Rational.root? base exponent.den with
  | some root => exact hvalue root exponent.num
  | none =>
    refine computes_ite hunchanged (computes_ite ?_ (computes_ite (computes_make _) hunchanged))
    refine (computes_lift _).bind fun value => ?_
    exact (computes_make (.constant value)).bind_ok ((computes_make _).bind_ok (h _))

theorem computes_powerWithin (bounds : Bounds) (fuel : Nat) (base exponent : Expr) :
    Computes (powerWithin bounds fuel base exponent)
      (Canonical.powerWithin bounds fuel base exponent) := by
  induction fuel generalizing base exponent with
  | zero => exact computes_make (.pow base exponent)
  | succ fuel ih =>
    have hunchanged := computes_make (.pow base exponent)
    refine computes_ite (computes_pure _) (computes_ite (computes_pure _) ?_)
    cases exponent with
    | constant n =>
      cases base with
      | constant b => exact computes_constantPower (computes_multiplyWith ih) b n
      | pow inner e =>
        exact computes_ite ((computes_multiplyWith ih _).bind fun combined => ih inner combined)
          hunchanged
      | mul factors =>
        exact computes_ite ((computes_mapM (fun f => ih f (.constant n)) factors).bind fun powers =>
          computes_multiplyWith ih powers) hunchanged
      | function head arguments =>
        cases head with
        | imaginaryUnit => exact computes_ite (computes_making _ _) hunchanged
        | _ => exact hunchanged
      | _ => exact hunchanged
    | _ => exact hunchanged

end Powers

variable (bounds : Bounds)

theorem computes_power (base exponent : Expr) :
    Computes (power bounds base exponent) (Canonical.power bounds base exponent) :=
  computes_powerWithin bounds _ base exponent

theorem computes_multiply (factors : List Expr) :
    Computes (multiply bounds factors) (Canonical.multiply bounds factors) :=
  computes_multiplyWith (computes_powerWithin bounds _) factors

/-! ## Functions and nodes -/

theorem computes_opposite (e : Expr) :
    Computes (opposite? bounds e) (Canonical.opposite? bounds e) := by
  refine (computes_making _ e.splitCoefficient).bind_ok (computes_ite ?_ (computes_pure none))
  exact (computes_make _).bind_ok ((computes_multiply bounds _).bind fun opposite =>
    computes_pure (some opposite))

theorem computes_applyBySymmetry (f : Func) (argument : Expr) :
    Computes (applyBySymmetry bounds f argument) (Canonical.applyBySymmetry bounds f argument) := by
  cases f with
  | cos =>
    refine (computes_opposite bounds argument).bind fun positive => ?_
    cases positive <;> exact computes_make _
  | sin | tan =>
    refine (computes_opposite bounds argument).bind fun positive => ?_
    cases positive with
    | some positive =>
      exact (computes_make _).bind_ok ((computes_make _).bind_ok (computes_multiply bounds _))
    | none => exact computes_make _
  | _ => exact computes_make _

theorem computes_apply (f : Func) (arguments : List Expr) :
    Computes (apply bounds f arguments) (Canonical.apply bounds f arguments) := by
  rcases arguments with - | ⟨argument, - | ⟨other, rest⟩⟩
  · cases f with
    | imaginaryUnit => exact computes_make _
    | _ => exact computes_throw _
  · cases f with
    | imaginaryUnit => exact computes_make _
    | _ =>
      unfold apply Canonical.apply
      dsimp only
      generalize Canonical.specialValue? _ argument = special
      cases special with
      | some value => exact computes_pure value
      | none => exact computes_applyBySymmetry bounds _ argument
  · cases f with
    | imaginaryUnit => exact computes_make _
    | _ => exact computes_throw _

theorem computes_simplifyNode (e : Expr) :
    Computes (simplifyNode bounds e) (Canonical.simplifyNode bounds e) := by
  cases e with
  | constant value => exact computes_pure _
  | symbol name => exact computes_pure _
  | add terms => exact computes_add terms
  | mul factors => exact computes_multiply bounds factors
  | pow base exponent => exact computes_power bounds base exponent
  | function f arguments => exact computes_apply bounds f arguments

/-! ## Passes -/

theorem computes_pass (memo : Memo) (e : Expr) :
    Computes (pass bounds memo e) (Canonical.pass bounds memo e) := by
  refine computes_foldM (fun node children => ?_) e
  unfold passStep Canonical.passStep
  cases memo.find? node with
  | some canonical => exact computes_pure canonical
  | none => exact computes_simplifyNode bounds _

theorem computes_settle (memo : Memo) (maxPasses passes : Nat) (seen : List Expr)
    (current : Expr) :
    Computes (settle bounds memo maxPasses passes seen current)
      (Canonical.settle bounds memo maxPasses passes seen current) := by
  induction passes generalizing seen current with
  | zero => exact computes_throw _
  | succ passes ih =>
    refine (computes_pass bounds memo current).bind fun next => ?_
    refine computes_ite (computes_pure (next, seen)) ?_
    cases memo.find? next with
    | some canonical => exact computes_pure (canonical, seen)
    | none => exact ih (next :: seen) next

end ClosedForm.Stored
