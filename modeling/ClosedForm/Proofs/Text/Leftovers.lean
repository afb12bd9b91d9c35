import ClosedForm.Proofs.Outcomes
import ClosedForm.Proofs.Text.Sources
import Mathlib

/-!
# What a text leaves behind when it is not read

A text that is no formula leaves the session as it is. A formula with a wrong number of arguments
shows its fault only while it is being stored, and the operands that come before the fault
(`Formula.before`) are in the pool then. `Session.parse_failure` says that nothing else is left
behind, and that the session is as it was exactly if the pool held these operands already.
-/

namespace ClosedForm

namespace Pool

variable {pool : Pool} {α β : Type}

/-! ## Storing what is there -/

/-- Some handle stands for the expression. -/
def Holds (pool : Pool) (e : Expr) : Prop :=
  ∃ handle, StandsFor e handle pool

theorem Holds.child (hpool : pool.WellFormed) {e c : Expr} (h : pool.Holds e)
    (hc : c ∈ e.children) : pool.Holds c := by
  obtain ⟨handle, hlt, rfl⟩ := h
  obtain ⟨node, hnode⟩ := exists_node hlt
  have hchildren : (pool.expr handle).children = node.children.map pool.expr := by
    rw [expr_eq hpool hnode]
    cases node <;> rfl
  rw [hchildren] at hc
  obtain ⟨child, hchild, rfl⟩ := List.mem_map.mp hc
  exact ⟨child, (hpool.child_lt handle node hnode child hchild).trans hlt, rfl⟩

theorem Holds.of_sum (hpool : pool.WellFormed) {es : List Expr} (h : pool.Holds (.sum es)) :
    ∀ e ∈ es, pool.Holds e := by
  intro e he
  match es with
  | [t] => rwa [List.mem_singleton.mp he]
  | _ :: _ :: _ => exact h.child hpool he

theorem Holds.of_product (hpool : pool.WellFormed) {es : List Expr} (h : pool.Holds (.product es)) :
    ∀ e ∈ es, pool.Holds e := by
  intro e he
  match es with
  | [t] => rwa [List.mem_singleton.mp he]
  | _ :: _ :: _ => exact h.child hpool he

/-- The action leaves the pool as it is if the pool holds the expression. -/
def Rests (pool : Pool) (action : StateM Pool Handle) (e : Expr) : Prop :=
  pool.Holds e → (action.run pool).2 = pool

theorem Rests.bind {action : StateM Pool Handle} {next : Handle → StateM Pool Handle} {c e : Expr}
    (hpool : pool.WellFormed) (h : Rests pool action c) (hc : c ∈ e.children)
    (hspec : Stores pool action (StandsFor c))
    (hnext : ∀ handle, StandsFor c handle pool → Rests pool (next handle) e) :
    Rests pool (action >>= next) e := by
  intro hholds
  have hsame : (action.run pool).2 = pool := h (hholds.child hpool hc)
  have hstands := hspec.2.2
  rw [hsame] at hstands
  have hrun : (action >>= next).run pool = (next (action.run pool).1).run (action.run pool).2 := rfl
  rw [hrun, hsame]
  exact hnext _ hstands hholds

theorem intern_rests (hpool : pool.WellFormed) (node : Node) (hchildren : pool.Has node.children)
    {e : Expr} (he : node.toExpr pool.expr = e) : Rests pool (intern node) e := by
  rintro ⟨handle, hlt, hexpr⟩
  obtain ⟨stored, hstored⟩ := exists_node hlt
  -- The node of the handle has the same head over the same handles.
  have heq : node = stored := by
    refine toExpr_injective (f := pool.expr) (fun x hx y hy => ?_)
      (by rw [he, ← hexpr, expr_eq hpool hstored])
    exact expr_injective hpool (hchildren x hx)
      ((hpool.child_lt handle stored hstored y hy).trans hlt)
  have hfind : pool.index[node]? = some handle := by
    rw [heq]
    exact (hpool.index_iff stored handle).mpr hstored
  simp [intern, StateT.run, hfind]

theorem constant_rests (hpool : pool.WellFormed) (value : Rat) :
    Rests pool (constant value) (.constant value) :=
  intern_rests hpool (.constant value) (by simp [Has, Node.children]) rfl

theorem pow_rests (hpool : pool.WellFormed) {a b : Expr} {x y : Handle} (hx : StandsFor a x pool)
    (hy : StandsFor b y pool) : Rests pool (pow x y) (.pow a b) :=
  intern_rests hpool (.pow x y) (hx.pair hy).1 (by simp [Node.toExpr, hx.2, hy.2])

theorem sum_rests (hpool : pool.WellFormed) {es : List Expr} {handles : List Handle}
    (h : StandFor es handles pool) : Rests pool (sum handles) (.sum es) := by
  obtain ⟨hhas, rfl⟩ := h
  match handles, hhas with
  | [], _ => exact constant_rests hpool 0
  | [handle], _ => exact fun _ => rfl
  | x :: y :: rest, hhas => exact intern_rests hpool (.add (x :: y :: rest)) hhas rfl

theorem product_rests (hpool : pool.WellFormed) {es : List Expr} {handles : List Handle}
    (h : StandFor es handles pool) : Rests pool (product handles) (.product es) := by
  obtain ⟨hhas, rfl⟩ := h
  match handles, hhas with
  | [], _ => exact constant_rests hpool 1
  | [handle], _ => exact fun _ => rfl
  | x :: y :: rest, hhas => exact intern_rests hpool (.mul (x :: y :: rest)) hhas rfl

theorem neg_rests (hpool : pool.WellFormed) {e : Expr} {handle : Handle}
    (h : StandsFor e handle pool) : Rests pool (neg handle) e.neg :=
  (constant_rests hpool (-1)).bind hpool (List.mem_cons_self ..)
    (constant_spec hpool (-1)) fun _ hone => product_rests hpool (hone.pair h)

theorem inverse_rests (hpool : pool.WellFormed) {e : Expr} {handle : Handle}
    (h : StandsFor e handle pool) : Rests pool (inverse handle) e.inverse :=
  (constant_rests hpool (-1)).bind hpool (List.mem_cons_of_mem _ (List.mem_cons_self ..))
    (constant_spec hpool (-1)) fun _ hone => pow_rests hpool h hone

/-- Where the pool holds the expression of the result, the action leaves the pool as it is. -/
def Finds (action : Storing Handle) (result : Except Error Expr) : Prop :=
  ∀ pool : Pool, pool.WellFormed → ∀ e, result = .ok e → pool.Holds e →
    (action.run.run pool).2 = pool

/-- What is stored without a change to the pool gives its result there. -/
theorem StoresAs.run_eq {action : Storing α} {b : β} {post : β → α → Pool → Prop}
    (h : StoresAs pool action (.ok b) post) (hrest : (action.run.run pool).2 = pool) :
    ∃ a, action.run.run pool = (.ok a, pool) ∧ post b a pool := by
  obtain ⟨-, -, a, ha, hpost⟩ := h
  rw [hrest] at hpost
  exact ⟨a, Prod.ext ha hrest, hpost⟩

theorem run_bind_of_ok {later : Pool} {action : Storing α} {next : α → Storing β} {a : α}
    (h : action.run.run pool = (.ok a, later)) :
    (action >>= next).run.run pool = (next a).run.run later := by
  rw [ExceptT.run_bind, StateT.run_bind, h]
  rfl

theorem Finds.run_eq {action : Storing Handle} {result : Except Error Expr} {e : Expr}
    (h : Finds action result) (hmakes : Makes action result) (hpool : pool.WellFormed)
    (hresult : result = .ok e) (hholds : pool.Holds e) :
    ∃ handle, action.run.run pool = (.ok handle, pool) ∧ StandsFor e handle pool := by
  have hspec := hmakes pool hpool
  rw [hresult] at hspec
  exact hspec.run_eq (h pool hpool e hresult hholds)

/-- A builder on one handle after an action that finds an expression. -/
theorem finds_unary {action : Storing Handle} {result : Except Error Expr}
    {build : Handle → StateM Pool Handle} {head : Expr → Expr} (h : Finds action result)
    (hmakes : Makes action result) (hhead : ∀ e, e ∈ (head e).children)
    (hbuild : ∀ (e : Expr) (handle : Handle) (pool : Pool), pool.WellFormed →
      StandsFor e handle pool → Rests pool (build handle) (head e)) :
    Finds (do let handle ← action; build handle) (do let e ← result; .ok (head e)) := by
  intro pool hpool e hresult hholds
  obtain ⟨c, hc, hresult⟩ := bind_eq_ok.mp hresult
  cases hresult
  obtain ⟨handle, hrun, hstands⟩ := h.run_eq hmakes hpool hc (hholds.child hpool (hhead c))
  rw [run_bind_of_ok hrun]
  exact hbuild c handle pool hpool hstands hholds

/-- Where the pool holds the expressions of the result, the action leaves the pool as it is and gives
handles that stand for them. -/
def FindsAll (action : Storing (List Handle)) (result : Except Error (List Expr)) : Prop :=
  ∀ pool : Pool, pool.WellFormed → ∀ es, result = .ok es → (∀ e ∈ es, pool.Holds e) →
    ∃ handles, action.run.run pool = (.ok handles, pool) ∧ StandFor es handles pool

/-- A builder on handles after an action that finds expressions. -/
theorem finds_list {action : Storing (List Handle)} {result : Except Error (List Expr)}
    {build : List Handle → StateM Pool Handle} {head : List Expr → Expr} (h : FindsAll action result)
    (hhead : ∀ {pool : Pool}, pool.WellFormed → ∀ {es}, pool.Holds (head es) → ∀ e ∈ es, pool.Holds e)
    (hbuild : ∀ {pool : Pool}, pool.WellFormed → ∀ {es handles}, StandFor es handles pool →
      Rests pool (build handles) (head es)) :
    Finds (do let handles ← action; build handles) (do let es ← result; .ok (head es)) := by
  intro pool hpool e hresult hholds
  obtain ⟨es, hes, hresult⟩ := bind_eq_ok.mp hresult
  cases hresult
  obtain ⟨handles, hrun, hstand⟩ := h pool hpool es hes (hhead hpool hholds)
  rw [run_bind_of_ok hrun]
  exact hbuild hpool hstand hholds

end Pool

namespace Formula

open Pool

theorem holds_arguments {pool : Pool} (hpool : pool.WellFormed) {offset : Nat} {name : String}
    {es : List Expr} {e : Expr} (hlower : lowerCall offset name es = .ok e)
    (hholds : pool.Holds e) : ∀ a ∈ es, pool.Holds a := by
  intro a ha
  refine hholds.child hpool ?_
  unfold lowerCall at hlower
  split at hlower
  · match es with
    | [radicand] =>
      cases hlower
      rw [List.mem_singleton.mp ha]
      exact List.mem_cons_self ..
  · split at hlower
    · split at hlower
      · cases hlower
        exact ha
      · cases hlower
    · cases hlower

theorem storeCall_rests {pool : Pool} (hpool : pool.WellFormed) {offset : Nat} {name : String}
    {es : List Expr} {handles : List Handle} (h : StandFor es handles pool) {e : Expr}
    (hlower : lowerCall offset name es = .ok e) (hholds : pool.Holds e) :
    ((storeCall offset name handles).run.run pool).2 = pool := by
  have hlength : handles.length = es.length := by rw [← h.2, List.length_map]
  unfold storeCall
  unfold lowerCall at hlower
  split at hlower
  · next hroot =>
    rw [if_pos hroot]
    match handles, es, h with
    | [x], [a], h =>
      cases hlower
      have hx : StandsFor a x pool := ⟨h.1 x (by simp), by simpa using h.2⟩
      have hrests : Rests pool (constant (mkRat 1 2) >>= pow x) (.pow a (.constant (mkRat 1 2))) :=
        (constant_rests hpool _).bind hpool (List.mem_cons_of_mem _ (List.mem_cons_self ..))
          (constant_spec hpool _) fun _ hhalf => pow_rests hpool hx hhalf
      exact hrests hholds
  · next hroot =>
    rw [if_neg hroot]
    cases hname : Func.ofName? name with
    | none => simp [hname] at hlower
    | some head =>
      simp only [hname] at hlower ⊢
      split at hlower
      · next harity =>
        cases hlower
        rw [if_pos (hlength.trans harity)]
        exact intern_rests hpool (.function head handles) h.1 (by rw [Node.toExpr, h.2])
          hholds
      · cases hlower

mutual

/-- Storing a formula changes nothing if its expression is in the pool. -/
theorem store_finds : (f : Formula) → Finds f.store f.lower
  | number value => fun pool hpool e hlower hholds => by
    cases hlower
    rw [store]
    exact constant_rests hpool value hholds
  | name text => fun pool hpool e hlower hholds => by
    cases hlower
    rw [store]
    split at hholds
    · next h =>
      rw [if_pos h]
      exact intern_rests hpool (.function .imaginaryUnit [])
        (by simp [Has, Node.children]) rfl hholds
    · next h =>
      rw [if_neg h]
      exact intern_rests hpool (.symbol text) (by simp [Has, Node.children]) rfl hholds
  | negative operand => by
    have ih := store_finds operand
    have hmakes := store_spec operand
    cases operand with
    | number value =>
      intro pool hpool e hlower hholds
      cases hlower
      rw [store]
      exact constant_rests hpool (-value) hholds
    | _ =>
      rw [store, lower]
      · exact finds_unary ih hmakes (fun _ => List.mem_cons_of_mem _ (List.mem_cons_self ..))
          fun _ _ _ hpool h => neg_rests hpool h
      all_goals simp
  | sum terms => by
    rw [store, lower]
    exact finds_list (storeList_finds terms) Holds.of_sum sum_rests
  | subtracted term => by
    rw [store, lower]
    exact finds_unary (store_finds term) (store_spec term)
      (fun _ => List.mem_cons_of_mem _ (List.mem_cons_self ..)) fun _ _ _ hpool h =>
        neg_rests hpool h
  | product factors => by
    rw [store, lower]
    exact finds_list (storeList_finds factors) Holds.of_product product_rests
  | divisor factor => by
    rw [store, lower]
    exact finds_unary (store_finds factor) (store_spec factor) (fun _ => List.mem_cons_self ..)
      fun _ _ _ hpool h => inverse_rests hpool h
  | power base exponent => fun pool hpool e hlower hholds => by
    rw [lower, bind_eq_ok] at hlower
    obtain ⟨b, hb, hlower⟩ := hlower
    obtain ⟨x, hx, hlower⟩ := bind_eq_ok.mp hlower
    cases hlower
    obtain ⟨_, hbrun, hbstands⟩ := (store_finds base).run_eq (store_spec base) hpool hb
      (hholds.child hpool (List.mem_cons_self ..))
    obtain ⟨_, hxrun, hxstands⟩ := (store_finds exponent).run_eq (store_spec exponent) hpool hx
      (hholds.child hpool (List.mem_cons_of_mem _ (List.mem_cons_self ..)))
    rw [store, run_bind_of_ok hbrun, run_bind_of_ok hxrun]
    exact pow_rests hpool hbstands hxstands hholds
  | call offset function arguments => fun pool hpool e hlower hholds => by
    rw [lower, bind_eq_ok] at hlower
    obtain ⟨es, hes, hlower⟩ := hlower
    obtain ⟨handles, hrun, hstand⟩ :=
      storeList_finds arguments pool hpool es hes (holds_arguments hpool hlower hholds)
    rw [store, run_bind_of_ok hrun]
    exact storeCall_rests hpool hstand hlower hholds

/-- Storing formulas changes nothing if their expressions are in the pool. -/
theorem storeList_finds : (fs : List Formula) → FindsAll (storeList fs) (lowerList fs)
  | [] => fun pool hpool es hlower _ => by
    cases hlower
    exact ⟨[], by rw [storeList]; rfl, by simp [StandFor, Has]⟩
  | f :: fs => fun pool hpool es hlower hholds => by
    rw [lowerList, bind_eq_ok] at hlower
    obtain ⟨e, he, hlower⟩ := hlower
    obtain ⟨rest, hrest, hlower⟩ := bind_eq_ok.mp hlower
    cases hlower
    obtain ⟨handle, hrun, hstands⟩ :=
      (store_finds f).run_eq (store_spec f) hpool he (hholds e (by simp))
    obtain ⟨handles, hruns, hstand⟩ :=
      storeList_finds fs pool hpool rest hrest fun c hc => hholds c (by simp [hc])
    refine ⟨handle :: handles, ?_, ?_, by simp [hstands.2, hstand.2]⟩
    · rw [storeList, run_bind_of_ok hrun, run_bind_of_ok hruns]
      rfl
    · simp only [Has, List.forall_mem_cons]
      exact ⟨hstands.1, hstand.1⟩

end

/-! ## The operands before a fault -/

mutual

/-- The operands of a formula that are stored before its first fault shows. -/
def before : Formula → List Formula
  | number _ | name _ => []
  | negative f | subtracted f | divisor f => before f
  | sum fs | product fs | call _ _ fs => beforeList fs
  | power base exponent =>
    match base.lower with
    | .ok _ => base :: before exponent
    | .error _ => before base

/-- The formulas, or operands of theirs, that are stored before the first fault shows. -/
def beforeList : List Formula → List Formula
  | [] => []
  | f :: fs =>
    match f.lower with
    | .ok _ => f :: beforeList fs
    | .error _ => before f

end

theorem beforeList_of_ok {fs : List Formula} {es : List Expr} (h : lowerList fs = .ok es) :
    beforeList fs = fs := by
  induction fs generalizing es with
  | nil => rw [beforeList]
  | cons f fs ih =>
    rw [lowerList, bind_eq_ok] at h
    obtain ⟨e, he, h⟩ := h
    obtain ⟨rest, hrest, -⟩ := bind_eq_ok.mp h
    rw [beforeList, he]
    dsimp only
    rw [ih hrest]

/-- The action leaves the pool that storing the operands leaves. -/
def Leaves {α : Type} (pool : Pool) (action : Storing α) (operands : List Formula) : Prop :=
  ∃ handles, (storeList operands).run.run pool = (.ok handles, (action.run.run pool).2)

namespace Leaves

variable {α β : Type} {pool : Pool} {action : Storing α} {operands : List Formula}

theorem nil (h : (action.run.run pool).2 = pool) : Leaves pool action [] :=
  ⟨[], by rw [storeList, h]; rfl⟩

/-- What stands behind a fault is not stored. -/
theorem bind_of_error {next : α → Storing β} {x : Error} (h : Leaves pool action operands)
    (herror : (action.run.run pool).1 = .error x) : Leaves pool (action >>= next) operands := by
  obtain ⟨handles, hrun⟩ := h
  refine ⟨handles, hrun.trans (congrArg (Prod.mk _) ?_)⟩
  rw [ExceptT.run_bind, StateT.run_bind]
  generalize action.run.run pool = ran at herror ⊢
  obtain ⟨_, later⟩ := ran
  cases herror
  rfl

theorem cons {f : Formula} {fs : List Formula} {handle : Handle} {later : Pool} {next : Handle → Storing α}
    (hrun : f.store.run.run pool = (.ok handle, later)) (h : Leaves later (next handle) fs) :
    Leaves pool (f.store >>= next) (f :: fs) := by
  obtain ⟨handles, hruns⟩ := h
  refine ⟨handle :: handles, ?_⟩
  rw [run_bind_of_ok hrun, storeList, run_bind_of_ok hrun, run_bind_of_ok hruns]
  rfl

end Leaves

theorem run_error {pool : Pool} (hpool : pool.WellFormed) {f : Formula} {x : Error}
    (h : f.lower = .error x) : (f.store.run.run pool).1 = .error x := by
  have hspec := store_spec f pool hpool
  rw [h] at hspec
  exact hspec.2.2

theorem runList_error {pool : Pool} (hpool : pool.WellFormed) {fs : List Formula} {x : Error}
    (h : lowerList fs = .error x) : ((storeList fs).run.run pool).1 = .error x := by
  have hspec := storeList_spec fs pool hpool
  rw [h] at hspec
  exact hspec.2.2

theorem exists_run {pool : Pool} (hpool : pool.WellFormed) {f : Formula} {e : Expr}
    (h : f.lower = .ok e) :
    ∃ handle later, f.store.run.run pool = (.ok handle, later) ∧ later.WellFormed := by
  have hspec := store_spec f pool hpool
  rw [h] at hspec
  obtain ⟨hlater, -, handle, hrun, -⟩ := hspec
  exact ⟨handle, _, Prod.ext hrun rfl, hlater⟩

/-- A call whose arguments are stored fails without storing anything more. -/
theorem storeCall_of_error {pool : Pool} {offset : Nat} {name : String}
    {es : List Expr} {handles : List Handle} (h : StandFor es handles pool) {x : Error}
    (hlower : lowerCall offset name es = .error x) :
    ((storeCall offset name handles).run.run pool).2 = pool := by
  have hlength : handles.length = es.length := by rw [← h.2, List.length_map]
  unfold storeCall
  unfold lowerCall at hlower
  split at hlower
  · next hroot =>
    rw [if_pos hroot]
    match handles, es, hlower with
    | [], _, _ => rfl
    | _ :: _ :: _, _, _ => rfl
    | [_], [_], hlower => cases hlower
  · next hroot =>
    rw [if_neg hroot]
    cases hname : Func.ofName? name with
    | none => rfl
    | some head =>
      simp only [hname] at hlower ⊢
      split at hlower
      · cases hlower
      · next harity =>
        rw [if_neg (by rwa [hlength])]
        rfl

theorem error_of_bind_ok {α β : Type} {result : Except Error α} {head : α → β} {x : Error}
    (h : (do let a ← result; .ok (head a)) = Except.error x) : result = .error x := by
  rcases bind_eq_error.mp h with h | ⟨_, -, h⟩
  · exact h
  · cases h

/-- What is done with an operand that has a fault leaves what the operand leaves. -/
theorem Leaves.of_operand {pool : Pool} (hpool : pool.WellFormed) {f : Formula} {x : Error}
    {next : Handle → Storing Handle} {head : Expr → Expr}
    (h : ∀ x, f.lower = .error x → Leaves pool f.store f.before)
    (herror : (do let e ← f.lower; .ok (head e)) = Except.error x) :
    Leaves pool (f.store >>= next) f.before :=
  (h x (error_of_bind_ok herror)).bind_of_error (run_error hpool (error_of_bind_ok herror))

theorem Leaves.of_operands {α β : Type} {pool : Pool} (hpool : pool.WellFormed) {fs : List Formula}
    {x : Error} {next : List Handle → Storing α} {head : List Expr → β}
    (h : ∀ x, lowerList fs = .error x → Leaves pool (storeList fs) (beforeList fs))
    (herror : (do let es ← lowerList fs; .ok (head es)) = Except.error x) :
    Leaves pool (storeList fs >>= next) (beforeList fs) :=
  (h x (error_of_bind_ok herror)).bind_of_error (runList_error hpool (error_of_bind_ok herror))

mutual

/-- A formula with a fault leaves what comes before the fault. -/
theorem store_leaves : (f : Formula) → ∀ pool : Pool, pool.WellFormed → ∀ x, f.lower = .error x →
    Leaves pool f.store f.before
  | number value => fun pool hpool x h => by cases h
  | name text => fun pool hpool x h => by cases h
  | negative operand => fun pool hpool x h => by
    have ih := store_leaves operand pool hpool
    cases operand with
    | number value => cases h
    | _ =>
      rw [lower] at h
      · rw [store, before]
        · exact .of_operand hpool ih h
        · simp
      · simp
  | sum terms => fun pool hpool x h => by
    rw [lower] at h
    rw [store, before]
    exact .of_operands hpool (storeList_leaves terms pool hpool) h
  | subtracted term => fun pool hpool x h => by
    rw [lower] at h
    rw [store, before]
    exact .of_operand hpool (store_leaves term pool hpool) h
  | product factors => fun pool hpool x h => by
    rw [lower] at h
    rw [store, before]
    exact .of_operands hpool (storeList_leaves factors pool hpool) h
  | divisor factor => fun pool hpool x h => by
    rw [lower] at h
    rw [store, before]
    exact .of_operand hpool (store_leaves factor pool hpool) h
  | power base exponent => fun pool hpool x h => by
    rw [lower, bind_eq_error] at h
    rw [store, before]
    rcases h with h | ⟨b, hb, h⟩
    · rw [h]
      exact (store_leaves base pool hpool x h).bind_of_error (run_error hpool h)
    · rw [hb]
      obtain ⟨_, later, hrun, hlater⟩ := exists_run hpool hb
      exact .cons hrun (.of_operand hlater (store_leaves exponent later hlater) h)
  | call offset function arguments => fun pool hpool x h => by
    rw [lower, bind_eq_error] at h
    rw [store, before]
    rcases h with h | ⟨es, hes, h⟩
    · exact (storeList_leaves arguments pool hpool x h).bind_of_error (runList_error hpool h)
    · have hspec := storeList_spec arguments pool hpool
      rw [hes] at hspec
      obtain ⟨hlater, -, handles, hrun, hstand⟩ := hspec
      have hrun' : (storeList arguments).run.run pool = (.ok handles, _) := Prod.ext hrun rfl
      refine ⟨handles, ?_⟩
      rw [beforeList_of_ok hes, run_bind_of_ok hrun', storeCall_of_error hstand h]
      exact hrun'

/-- Formulas of which one has a fault leave what comes before the fault. -/
theorem storeList_leaves : (fs : List Formula) → ∀ pool : Pool, pool.WellFormed →
    ∀ x, lowerList fs = .error x → Leaves pool (storeList fs) (beforeList fs)
  | [] => fun _ _ x h => by cases h
  | f :: fs => fun pool hpool x h => by
    rw [lowerList, bind_eq_error] at h
    rw [storeList, beforeList]
    rcases h with h | ⟨e, he, h⟩
    · rw [h]
      exact (store_leaves f pool hpool x h).bind_of_error (run_error hpool h)
    · rw [he]
      obtain ⟨_, later, hrun, hlater⟩ := exists_run hpool he
      exact .cons hrun (.of_operands hlater (storeList_leaves fs later hlater) h)

end

end Formula

/-! ## The faults of formulas -/

/-- A function is applied to some other number of arguments than one. -/
def Error.IsMiscount (x : Error) : Prop :=
  ∃ offset function found, x = .parse offset (.wrongArity function 1 found) ∧ found ≠ 1

namespace Formula

/-- Nothing else can be wrong with the formula than a number of arguments. -/
def Named (f : Formula) : Prop :=
  Ends Error.IsMiscount (fun _ => True) f.lower

/-- Nothing else can be wrong with the formulas than a number of arguments. -/
def AllNamed (fs : List Formula) : Prop :=
  Ends Error.IsMiscount (fun _ => True) (lowerList fs)

theorem ends_ok {α β : Type} {result : Except Error α} {head : α → β}
    (h : Ends Error.IsMiscount (fun _ => True) result) :
    Ends Error.IsMiscount (fun _ => True) (do let a ← result; .ok (head a)) :=
  h.bind fun _ _ => trivial

theorem AllNamed.nil : AllNamed [] :=
  trivial

theorem AllNamed.cons {f : Formula} {fs : List Formula} (hf : f.Named) (hfs : AllNamed fs) :
    AllNamed (f :: fs) :=
  hf.bind fun _ _ => ends_ok hfs

theorem named_negative {f : Formula} (h : f.Named) : (negative f).Named := by
  cases f with
  | number value => trivial
  | _ => exact ends_ok h

theorem named_power {b x : Formula} (hb : b.Named) (hx : x.Named) : (power b x).Named :=
  hb.bind fun _ _ => ends_ok hx

theorem named_call {function : String} (hfunction : isFunctionName function = true) (offset : Nat)
    {fs : List Formula} (h : AllNamed fs) : (call offset function fs).Named := by
  refine h.bind fun es _ => ?_
  unfold lowerCall
  unfold isFunctionName at hfunction
  split
  · match es with
    | [] => exact ⟨offset, squareRootName, 0, rfl, by decide⟩
    | [_] => trivial
    | _ :: _ :: rest => exact ⟨offset, squareRootName, rest.length + 2, rfl, by omega⟩
  · next hroot =>
    obtain ⟨head, hhead⟩ : ∃ head, Func.ofName? function = some head :=
      Option.isSome_iff_exists.mp (by simpa [hroot] using hfunction)
    rw [hhead]
    dsimp only
    rw [arity_of_ofName? hhead]
    split
    · trivial
    · next hlength => exact ⟨offset, head.name, es.length, rfl, hlength⟩

theorem named_chain (wrap : List Formula → Formula)
    (hwrap : ∀ fs, AllNamed fs → (wrap fs).Named) {f : Formula} {fs : List Formula} (hf : f.Named)
    (hfs : AllNamed fs) : (chain wrap f fs).Named := by
  cases fs with
  | nil => exact hf
  | cons g gs => exact hwrap _ (.cons hf hfs)

end Formula

/-- What `Formula.Named` says, for what a rule of the grammar reads. -/
def Rule.Named : (rule : Rule) → rule.Value → Prop
  | .sum, f | .product, f | .signed, f | .power _, f | .atom _, f => Formula.Named f
  | .terms, fs | .factors, fs | .arguments, fs | .moreArguments, fs => Formula.AllNamed fs

open Formula in
/-- In a formula that a text spells only numbers of arguments can be wrong. -/
theorem Derivation.named {rule : Rule} (d : Derivation rule) : rule.Named d.value := by
  induction d with
  | sum first rest ihFirst ihRest =>
    exact named_chain .sum (fun _ h => ends_ok h) ihFirst ihRest
  | product first rest ihFirst ihRest =>
    exact named_chain .product (fun _ h => ends_ok h) ihFirst ihRest
  | term offset sign first rest ihFirst ihRest =>
    cases sign with
    | plus => exact AllNamed.cons ihFirst ihRest
    | minus => exact AllNamed.cons (ends_ok ihFirst) ihRest
  | factor offset join first rest ihFirst ihRest =>
    cases join with
    | times => exact AllNamed.cons ihFirst ihRest
    | dividedBy => exact AllNamed.cons (ends_ok ihFirst) ihRest
  | juxtaposed first rest ihFirst ihRest | arguments first rest ihFirst ihRest
  | moreArguments offset first rest ihFirst ihRest => exact AllNamed.cons ihFirst ihRest
  | signed offset sign operand ih =>
    cases sign with
    | plus => exact ih
    | minus => exact named_negative ih
  | unsigned operand ih | power operand ih | bracketed opening operand closing ih => exact ih
  | raised base offset exponent ihBase ihExponent => exact named_power ihBase ihExponent
  | call offset function h opening args closing ih => exact named_call h offset ih
  | number | name | noTerms | noFactors | noArguments | noMoreArguments => trivial

/-! ## Texts -/

namespace Session

open Formula

variable {bounds : Bounds} {session : Session} {text : String} {x : Error}

theorem read_of_answer_error (hsession : session.Consistent bounds)
    (h : (session.answer (parse text)).1 = .error x) : Formula.read text = .error x := by
  obtain ⟨-, -, hspec⟩ := Pool.parse_spec text session.pool hsession.pool
  cases hread : Formula.read text with
  | error y =>
    rw [hread] at hspec
    cases hspec.symm.trans h
    rfl
  | ok e =>
    rw [hread] at hspec
    obtain ⟨handle, hhandle, -⟩ := hspec
    cases hhandle.symm.trans h

theorem after_parse_of_error (h : Formula.parse text = .error x) :
    session.after (.parse text) = session := by
  have hrun : (Pool.parse text).run.run session.pool = (.error x, session.pool) := by
    rw [Pool.parse, h]
    rfl
  change { session with pool := ((Pool.parse text).run.run session.pool).2 } = session
  rw [hrun]

theorem after_parse_of_ok {f : Formula} (h : Formula.parse text = .ok f) :
    session.after (.parse text) = { session with pool := (f.store.run.run session.pool).2 } := by
  change { session with pool := ((Pool.parse text).run.run session.pool).2 } = _
  rw [Pool.parse, h]
  rfl

/-- If a text is not read, then either it is no formula, and the session stays as it is, or some
function of its formula is applied to a wrong number of arguments. The bounds and the memo stay then,
and the pool is the one after storing the operands before the fault. It is the pool of before exactly
if that one held these operands already. -/
theorem parse_failure (hsession : session.Reachable bounds)
    (h : (session.answer (parse text)).1 = .error x) :
    (session.after (.parse text)).bounds = session.bounds ∧
      (session.after (.parse text)).memo = session.memo ∧
      ((Formula.parse text = .error x ∧ session.after (.parse text) = session) ∨
        ∃ (f : Formula) (operands : List Expr), Formula.parse text = .ok f ∧ x.IsMiscount ∧
          lowerList f.before = .ok operands ∧
          (session.after (.parse text)).pool = ((storeList f.before).run.run session.pool).2 ∧
          (session.after (.parse text) = session ↔ ∀ e ∈ operands, session.pool.Holds e)) := by
  have hpool := hsession.consistent.pool
  refine ⟨rfl, rfl, ?_⟩
  rcases bind_eq_error.mp (read_of_answer_error hsession.consistent h) with hparse | ⟨f, hparse, hlower⟩
  · exact .inl ⟨hparse, after_parse_of_error hparse⟩
  have hmiscount : x.IsMiscount := by
    obtain ⟨d, -, rfl⟩ := Formula.parse_eq_ok.mp hparse
    have hnamed : Formula.Named d.value := d.named
    rwa [Formula.Named, hlower] at hnamed
  rw [after_parse_of_ok hparse]
  obtain ⟨handles, hrun⟩ := store_leaves f session.pool hpool x hlower
  have hspec := storeList_spec f.before session.pool hpool
  cases hoperands : lowerList f.before with
  | error y =>
    rw [hoperands, Pool.StoresAs, hrun] at hspec
    cases hspec.2.2
  | ok operands =>
    rw [hoperands, Pool.StoresAs, hrun] at hspec
    obtain ⟨-, -, stored, hstored, hstand⟩ := hspec
    refine .inr ⟨f, operands, hparse, hmiscount, hoperands, by rw [hrun], fun hsame e he => ?_,
      fun hholds => ?_⟩
    · have hsame : (f.store.run.run session.pool).2 = session.pool := congrArg Session.pool hsame
      rw [hsame] at hstand
      obtain ⟨handle, hhandle, rfl⟩ := List.mem_map.mp (hstand.2 ▸ he)
      exact ⟨handle, hstand.1 handle hhandle, rfl⟩
    · obtain ⟨_, hfound, -⟩ := storeList_finds f.before session.pool hpool operands hoperands hholds
      rw [hrun] at hfound
      rw [(Prod.ext_iff.mp hfound).2]

/-- `1 + sin(x, y)` leaves `1`, `x` and `y`. -/
theorem parse_failure_text :
    ∃ x, ((new {}).answer (parse "1 + sin(x, y)")).1 = .error x ∧ x.IsMiscount ∧
      ((new {}).after (.parse "1 + sin(x, y)")).pool =
        ((storeList [.number 1, .name "x", .name "y"]).run.run Pool.initial).2 := by
  have hanswer : ((new {}).answer (parse "1 + sin(x, y)")).1 =
      .error (.parse 4 (.wrongArity "sin" 1 2)) := by
    cbv
  have hparse : Formula.parse "1 + sin(x, y)" =
      .ok (.sum [.number 1, .call 4 "sin" [.name "x", .name "y"]]) := by
    cbv
  have hbefore : (Formula.sum [.number 1, .call 4 "sin" [.name "x", .name "y"]]).before =
      [.number 1, .name "x", .name "y"] := by
    cbv
  obtain ⟨-, -, ⟨h, -⟩ | ⟨f, operands, h, hmiscount, -, hpool, -⟩⟩ :=
    parse_failure (show Session.Reachable {} _ from .new) hanswer
  · cases hparse.symm.trans h
  · cases hparse.symm.trans h
    rw [hbefore] at hpool
    exact ⟨_, hanswer, hmiscount, hpool⟩

/-- A text that is not read can change the pool: `x` and `y` of `1 + sin(x, y)` stay. -/
theorem exists_parse_failure_leaving_nodes :
    ∃ x, ((new {}).answer (parse "1 + sin(x, y)")).1 = .error x ∧
      (new {}).pool.size = 2 ∧ ((new {}).after (.parse "1 + sin(x, y)")).pool.size = 4 := by
  refine ⟨.parse 4 (.wrongArity "sin" 1 2), ?_, ?_, ?_⟩ <;> cbv

end Session

end ClosedForm
