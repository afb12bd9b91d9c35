import ClosedForm.Proofs.Order
import ClosedForm.Proofs.Sharing

/-!
# The order of handles

Handles are compared without reading expressions back: equal handles are equal at once, then the
kinds of the two nodes decide, then what the nodes hold, then their children from left to right
(`Pool.compare`). Nothing bounds the descent but the order of storing, so a comparison that does not
end, or that meets a handle outside the pool, has no result.

In a well-formed pool it has one, and this is the order of the expressions that the handles stand
for (`Pool.WellFormed.compare_eq`). Since a handle is all there is to an expression in such a pool, the
laws of the order of expressions are laws of the order of handles, and a list of handles has one
ascending rearrangement, which `Pool.sort` finds (`Session.Reachable.ordered`).
-/

namespace ClosedForm

/-- Position of the kind of node in the order. -/
def Node.rank : Node → Nat
  | constant _ => 0
  | symbol _ => 1
  | function _ _ => 2
  | pow _ _ => 3
  | mul _ => 4
  | add _ => 5

theorem Node.rank_toExpr (node : Node) (expr : Handle → Expr) :
    (node.toExpr expr).rank = node.rank := by
  cases node <;> rfl

/-- Expressions of different kinds are compared by their kinds. -/
theorem Expr.compare_of_rank_ne {a b : Expr} (h : a.rank ≠ b.rank) :
    compare a b = Ord.compare a.rank b.rank := by
  cases a <;> cases b <;> first | rfl | exact absurd rfl h

namespace Pool

/-! ## Comparing and sorting handles -/

mutual

/-- Three-way comparison of handles. -/
def compare (pool : Pool) (a b : Handle) : Option Ordering := do
  if a = b then return .eq
  let node ← pool.nodes[a]?
  let other ← pool.nodes[b]?
  if node.rank ≠ other.rank then return Ord.compare node.rank other.rank
  match node, other with
  | .constant p, .constant q => return Rational.compare p q
  | .symbol p, .symbol q => return Ord.compare p q
  | .function f xs, .function g ys =>
    match Ord.compare f.rank g.rank with
    | .eq => pool |>.compareSeq xs ys
    | order => return order
  | .pow b e, .pow c f =>
    match ← pool |>.compare b c with
    | .eq => pool |>.compare e f
    | order => return order
  | .mul xs, .mul ys => pool |>.compareSeq xs ys
  | .add xs, .add ys => pool |>.compareSeq xs ys
  | _, _ => return .eq
partial_fixpoint

/-- Lists are compared element by element as far as both go, then by length. -/
def compareSeq (pool : Pool) (xs ys : List Handle) : Option Ordering :=
  match xs, ys with
  | x :: xs, y :: ys => do
    match ← pool |>.compare x y with
    | .eq => pool |>.compareSeq xs ys
    | order => return order
  | xs, ys => return Ord.compare xs.length ys.length
partial_fixpoint

end

/-- The comparison does not put `b` before `a`. -/
def mayPrecede (pool : Pool) (a b : Handle) : Bool :=
  pool.compare a b != some .gt

/-- The handles in ascending order; equal ones keep their places. -/
def sort (pool : Pool) (handles : List Handle) : List Handle :=
  handles.mergeSort pool.mayPrecede

variable {pool : Pool}

/-! ## Handles compare as what they stand for -/

theorem compareSeq_eq {xs ys : List Handle}
    (h : ∀ x ∈ xs, ∀ y ∈ ys, pool.compare x y = some (Expr.compare (pool.expr x) (pool.expr y))) :
    pool.compareSeq xs ys = some (Expr.compareList (xs.map pool.expr) (ys.map pool.expr)) := by
  induction xs generalizing ys with
  | nil => cases ys <;> simp [compareSeq, Expr.compareList, Nat.compare_eq_ite_lt]
  | cons x xs ih =>
    cases ys with
    | nil => simp [compareSeq, Expr.compareList, Nat.compare_eq_ite_lt]
    | cons y ys =>
      rw [compareSeq, h x (by simp) y (by simp), List.map_cons, List.map_cons, Expr.compareList]
      have hrest : pool.compareSeq xs ys = _ :=
        ih fun x hx y hy => h x (by simp [hx]) y (by simp [hy])
      cases Expr.compare (pool.expr x) (pool.expr y) with
      | eq => exact hrest
      | lt | gt => rfl

theorem WellFormed.compare_eq (hpool : pool.WellFormed) {a b : Handle} (ha : a < pool.size)
    (hb : b < pool.size) :
    pool.compare a b = some (Expr.compare (pool.expr a) (pool.expr b)) := by
  induction a using Nat.strongRecOn generalizing b with
  | ind a ih =>
    rw [compare]
    by_cases hab : a = b
    · rw [if_pos hab, hab, Expr.compare_self]
      rfl
    rw [if_neg hab]
    obtain ⟨node, hnode⟩ := exists_node ha
    obtain ⟨other, hother⟩ := exists_node hb
    have hchild {x y : Handle} (hx : x ∈ node.children) (hy : y ∈ other.children) :
        pool.compare x y = some (Expr.compare (pool.expr x) (pool.expr y)) := by
      have hxa := hpool.child_lt a node hnode x hx
      have hyb := hpool.child_lt b other hother y hy
      exact ih x hxa (Nat.lt_trans hxa ha) (Nat.lt_trans hyb hb)
    rw [expr_eq hpool hnode, expr_eq hpool hother, hnode, hother]
    dsimp only [Option.bind_eq_bind, Option.bind_some]
    split
    · next hrank =>
      rw [Expr.compare_of_rank_ne (by rwa [node.rank_toExpr, other.rank_toExpr]), node.rank_toExpr,
        other.rank_toExpr]
      rfl
    next hrank =>
    rw [not_not] at hrank
    cases node <;> cases other <;> cases hrank
    case constant.constant => rfl
    case symbol.symbol => rfl
    case add.add xs ys => exact compareSeq_eq fun x hx y hy => hchild hx hy
    case mul.mul xs ys => exact compareSeq_eq fun x hx y hy => hchild hx hy
    case pow.pow b e c f =>
      have hbase : pool.compare b c = _ :=
        hchild (by simp [Node.children]) (by simp [Node.children])
      have hexponent : pool.compare e f = _ :=
        hchild (by simp [Node.children]) (by simp [Node.children])
      simp only [hbase, hexponent, Option.bind_some, Node.toExpr, Expr.compare]
      cases Expr.compare (pool.expr b) (pool.expr c) <;> rfl
    case function.function f xs g ys =>
      have harguments : pool.compareSeq xs ys = _ := compareSeq_eq fun x hx y hy => hchild hx hy
      simp only [harguments, Node.toExpr, Expr.compare]
      cases Ord.compare f.rank g.rank <;> rfl

/-! ## Laws of the order of handles -/

/-- The comparison of the handles of a pool is a total order, and sorting finds the ascending
rearrangement of a list. -/
structure Ordered (pool : Pool) : Prop where
  /-- The result depends on the expressions only. -/
  compare_eq : ∀ a b : Handle, a < pool.size → b < pool.size →
    pool.compare a b = some (Expr.compare (pool.expr a) (pool.expr b))
  compare_eq_iff : ∀ a b : Handle, a < pool.size → b < pool.size →
    (pool.compare a b = some .eq ↔ a = b)
  compare_swap : ∀ a b : Handle, a < pool.size → b < pool.size →
    pool.compare b a = (pool.compare a b).map Ordering.swap
  compare_trans : ∀ a b c : Handle, a < pool.size → b < pool.size → c < pool.size →
    pool.compare a b = some .lt → pool.compare b c = some .lt → pool.compare a c = some .lt
  /-- Sorting gives the one ascending rearrangement. -/
  eq_sort_iff : ∀ handles : List Handle, pool.Has handles → ∀ sorted : List Handle,
    sorted = pool.sort handles ↔
      sorted.Perm handles ∧ sorted.Pairwise fun a b => pool.compare a b ≠ some .gt
  /-- How the handles were arranged before does not matter. -/
  sort_congr : ∀ handles others : List Handle, pool.Has handles → others.Perm handles →
    pool.sort others = pool.sort handles
  /-- The sorted handles stand for the sorted expressions. -/
  sort_expr : ∀ handles : List Handle, pool.Has handles →
    (pool.sort handles).map pool.expr = Expr.sort (handles.map pool.expr)

theorem WellFormed.mayPrecede_eq (hpool : pool.WellFormed) {a b : Handle} (ha : a < pool.size)
    (hb : b < pool.size) : pool.mayPrecede a b = Expr.le (pool.expr a) (pool.expr b) := by
  unfold mayPrecede Expr.le
  rw [hpool.compare_eq ha hb]
  cases Expr.compare (pool.expr a) (pool.expr b) <;> rfl

/-- Handles that the comparison may put before each other are equal. -/
theorem WellFormed.mayPrecede_antisymm (hpool : pool.WellFormed) {a b : Handle} (ha : a < pool.size)
    (hb : b < pool.size) (hab : pool.mayPrecede a b) (hba : pool.mayPrecede b a) : a = b := by
  rw [hpool.mayPrecede_eq ha hb] at hab
  rw [hpool.mayPrecede_eq hb ha] at hba
  exact expr_injective hpool ha hb (Expr.le_antisymm hab hba)

theorem sort_perm (pool : Pool) (handles : List Handle) : (pool.sort handles).Perm handles :=
  List.mergeSort_perm handles pool.mayPrecede

theorem WellFormed.map_sort (hpool : pool.WellFormed) {handles : List Handle}
    (h : pool.Has handles) :
    (pool.sort handles).map pool.expr = Expr.sort (handles.map pool.expr) :=
  List.map_mergeSort fun a ha b hb => hpool.mayPrecede_eq (h a ha) (h b hb)

theorem WellFormed.pairwise_sort (hpool : pool.WellFormed) {handles : List Handle}
    (h : pool.Has handles) : (pool.sort handles).Pairwise fun a b => pool.mayPrecede a b := by
  have hascending := Expr.ascending_sort (handles.map pool.expr)
  rw [← hpool.map_sort h, Expr.Ascending, List.pairwise_map] at hascending
  have hmem {a : Handle} (ha : a ∈ pool.sort handles) : a < pool.size :=
    h a ((pool.sort_perm handles).mem_iff.mp ha)
  refine hascending.imp_of_mem fun ha hb hle => ?_
  rwa [hpool.mayPrecede_eq (hmem ha) (hmem hb)]

/-- A list of handles has one ascending rearrangement. -/
theorem WellFormed.eq_sort (hpool : pool.WellFormed) {handles sorted : List Handle}
    (h : pool.Has handles) (hperm : sorted.Perm handles)
    (hsorted : sorted.Pairwise fun a b => pool.mayPrecede a b) : sorted = pool.sort handles := by
  have hmem {a : Handle} (ha : a ∈ sorted) : a < pool.size := h a (hperm.mem_iff.mp ha)
  have hmem' {a : Handle} (ha : a ∈ pool.sort handles) : a < pool.size :=
    h a ((pool.sort_perm handles).mem_iff.mp ha)
  exact (hperm.trans (pool.sort_perm handles).symm).eq_of_pairwise
    (fun a b ha hb hab hba => hpool.mayPrecede_antisymm (hmem ha) (hmem' hb) hab hba)
    hsorted (hpool.pairwise_sort h)

theorem mayPrecede_iff {a b : Handle} : pool.mayPrecede a b ↔ pool.compare a b ≠ some .gt := by
  simp [mayPrecede]

theorem WellFormed.toOrdered (hpool : pool.WellFormed) : pool.Ordered where
  compare_eq _ _ := hpool.compare_eq
  compare_eq_iff a b ha hb := by
    rw [hpool.compare_eq ha hb, Option.some_inj]
    refine ⟨fun h => expr_injective hpool ha hb (Expr.eq_of_compare h), ?_⟩
    rintro rfl
    exact Expr.compare_self _
  compare_swap a b ha hb := by
    rw [hpool.compare_eq ha hb, hpool.compare_eq hb ha, Expr.compare_swap]
    rfl
  compare_trans a b c ha hb hc := by
    rw [hpool.compare_eq ha hb, hpool.compare_eq hb hc, hpool.compare_eq ha hc, Option.some_inj,
      Option.some_inj, Option.some_inj]
    exact Expr.compare_trans
  eq_sort_iff handles h sorted := by
    simp only [← mayPrecede_iff]
    refine ⟨?_, fun ⟨hperm, hsorted⟩ => hpool.eq_sort h hperm hsorted⟩
    rintro rfl
    exact ⟨pool.sort_perm handles, hpool.pairwise_sort h⟩
  sort_congr handles others h hperm := by
    have hothers : pool.Has others := fun a ha => h a (hperm.mem_iff.mp ha)
    exact hpool.eq_sort h ((pool.sort_perm others).trans hperm) (hpool.pairwise_sort hothers)
  sort_expr _ := hpool.map_sort

end Pool

namespace Session

variable {bounds : Bounds} {session : Session}

/-- The comparison of handles in a reachable session is a total order, and the same for the handles
of equal expressions in any other session; sorting finds the one ascending rearrangement. -/
theorem Reachable.ordered (h : session.Reachable bounds) :
    session.pool.Ordered ∧
    ∀ (bounds' : Bounds) (other : Session), other.Reachable bounds' → ∀ a b a' b' : Handle,
      a < session.pool.size → b < session.pool.size →
      a' < other.pool.size → b' < other.pool.size →
      other.pool.expr a' = session.pool.expr a → other.pool.expr b' = session.pool.expr b →
      other.pool.compare a' b' = session.pool.compare a b := by
  have hpool := h.consistent.pool
  refine ⟨hpool.toOrdered, fun _ other hother a b a' b' ha hb ha' hb' haa hbb => ?_⟩
  rw [hother.consistent.pool.compare_eq ha' hb', hpool.compare_eq ha hb, haa, hbb]

/-- A new session that reads two texts has handles of what they state. -/
theorem exists_parsed_pair (bounds : Bounds) {text other : String} {e f : Expr}
    (he : Formula.read text = .ok e) (hf : Formula.read other = .ok f) :
    ∃ (session : Session) (a b : Handle), session.Reachable bounds ∧
      Pool.StandsFor e a session.pool ∧ Pool.StandsFor f b session.pool := by
  obtain ⟨session, _, hsession, -, ha | ⟨ha, hb | ⟨hb, -⟩⟩⟩ :=
    exists_parsed_all bounds (.cons he (.cons hf .nil))
  exact ⟨session, _, _, hsession, ha, hb⟩

/-- Two sessions read `x` and `y^2`, one in this order and one in the other. -/
theorem ordered_text :
    ∃ (session other : Session) (x square x' square' : Handle), session.Reachable {} ∧
      other.Reachable {} ∧ session.pool.compare x square = some .lt ∧
      other.pool.compare x' square' = session.pool.compare x square ∧
      session.pool.sort [square, x] = [x, square] := by
  have hread : Formula.read "x" = .ok (.symbol "x") := by cbv
  have hread' : Formula.read "y^2" = .ok (.pow (.symbol "y") (.constant 2)) := by cbv
  obtain ⟨session, x, square, hsession, hx, hsquare⟩ := exists_parsed_pair {} hread hread'
  obtain ⟨other, square', x', hother, hsquare', hx'⟩ := exists_parsed_pair {} hread' hread
  obtain ⟨hordered, hsame⟩ := hsession.ordered
  have hless : session.pool.compare x square = some .lt := by
    rw [hordered.compare_eq x square hx.1 hsquare.1, hx.2, hsquare.2]
    rfl
  refine ⟨session, other, x, square, x', square', hsession, hother, hless,
    hsame {} other hother x square x' square' hx.1 hsquare.1 hx'.1 hsquare'.1
      (hx'.2.trans hx.2.symm) (hsquare'.2.trans hsquare.2.symm), ?_⟩
  refine ((hordered.eq_sort_iff [square, x] (has_pair hsquare.1 hx.1) _).mpr
    ⟨.swap _ _ _, ?_⟩).symm
  simp [hless]

end Session

end ClosedForm
