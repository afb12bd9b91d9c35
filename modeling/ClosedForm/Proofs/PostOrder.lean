import ClosedForm.Proofs.Results
import ClosedForm.Proofs.Sharing
import ClosedForm.Proofs.Traversal

/-!
# The tree under a handle

A pool is a graph without cycles, and a handle unfolds to a tree of handles. `Pool.postorder` lists
this tree, children before their parents and from left to right, with an entry for every occurrence;
its members are the handles that the root reaches (`WellFormed.mem_postorder`). What is left of it
when only the first entry of each handle is kept is the order in which the nodes are finished by a
traversal that visits none twice (`Pool.firstVisits`).

`Pool.foldTree` is the plain recursion over this tree. For a step that looks at expressions it is
the fold of the expression that the handle stands for (`WellFormed.foldTree_eq_foldM`).
-/

namespace ClosedForm

/-- A computation that may fail, and that nothing bounds. One that does not end has no result. -/
abbrev Unbounded := ExceptT Error Option

namespace Unbounded

variable {α β : Type}

theorem run_bind_of_ok {action : Unbounded α} {value : α}
    (h : action.run = some (.ok value)) (next : α → Unbounded β) :
    (action >>= next).run = (next value).run := by
  rw [ExceptT.run_bind, h]
  rfl

theorem run_bind_of_error {action : Unbounded α} {e : Error}
    (h : action.run = some (.error e)) (next : α → Unbounded β) :
    (action >>= next).run = some (.error e) := by
  rw [ExceptT.run_bind, h]
  rfl

theorem run_bind {action : Unbounded α} {result : Except Error α}
    {next : α → Unbounded β} {nextResult : α → Except Error β}
    (h : action.run = some result) (hnext : ∀ value, (next value).run = some (nextResult value)) :
    (action >>= next).run = some (result >>= nextResult) := by
  cases result with
  | error e => exact run_bind_of_error h next
  | ok value => rw [run_bind_of_ok h, hnext value]; rfl

theorem run_ofExcept (result : Except Error α) :
    (MonadExcept.ofExcept result : Unbounded α).run = some result := by
  cases result <;> rfl

theorem run_mapM {action : α → Unbounded β} {result : α → Except Error β}
    {as : List α} (h : ∀ a ∈ as, (action a).run = some (result a)) :
    (as.mapM action).run = some (as.mapM result) := by
  induction as with
  | nil => rfl
  | cons a as ih =>
    rw [List.mapM_cons, List.mapM_cons]
    exact run_bind (h a (by simp)) fun b =>
      run_bind (ih fun c hc => h c (by simp [hc])) fun bs => rfl

theorem run_of_mapM_singleton {action : α → Unbounded β} {a : α} {e : Error}
    (h : ([a].mapM action).run = some (.error e)) : (action a).run = some (.error e) := by
  rw [List.mapM_cons, ExceptT.run_bind] at h
  cases hrun : (action a).run with
  | none => simp [hrun] at h
  | some result =>
    rw [hrun] at h
    cases result with
    | error _ =>
      cases h
      rfl
    | ok b => cases h

end Unbounded

namespace Pool

/-! ## Handles that are reached -/

/-- The handles that are reached from a handle through children. -/
inductive Reaches (pool : Pool) (root : Handle) : Handle → Prop
  | root : Reaches pool root root
  | child {h c : Handle} {node : Node} (hreach : Reaches pool root h)
    (hnode : pool.nodes[h]? = some node) (hc : c ∈ node.children) : Reaches pool root c

theorem Reaches.trans {pool : Pool} {a b c : Handle} (hab : pool.Reaches a b)
    (hbc : pool.Reaches b c) : pool.Reaches a c := by
  induction hbc with
  | root => exact hab
  | child _ hnode hc ih => exact ih.child hnode hc

/-! ## The tree as a list -/

/-- The handles in the tree under a handle, at most `depth` levels of it. -/
def postorderWithin (pool : Pool) : Nat → Handle → List Handle
  | 0, _ => []
  | depth + 1, h =>
    match pool.nodes[h]? with
    | some node => node.children.flatMap (pool.postorderWithin depth) ++ [h]
    | none => []

/-- The handles in the tree under a handle, the children of a node before the node and from left to
right. -/
def postorder (pool : Pool) (h : Handle) : List Handle :=
  pool.postorderWithin (h + 1) h

/-- The distinct handles under a handle, in the order of their first entries. -/
def firstVisits (pool : Pool) (root : Handle) : List Handle :=
  (pool.postorder root).eraseDups

variable {pool : Pool}

/-- More levels than the handle needs change nothing. -/
theorem WellFormed.postorderWithin_eq (hpool : pool.WellFormed) {h : Handle} {depth : Nat}
    (hlt : h < depth) : pool.postorderWithin depth h = pool.postorder h := by
  induction h using Nat.strongRecOn generalizing depth with
  | ind h ih =>
    obtain ⟨depth, rfl⟩ := Nat.exists_eq_succ_of_ne_zero (Nat.ne_zero_of_lt hlt)
    unfold postorder postorderWithin
    cases hnode : pool.nodes[h]? with
    | none => rfl
    | some node =>
      refine congrArg (· ++ [h]) (List.flatMap_congr fun c hc => ?_)
      have hch := hpool.child_lt h node hnode c hc
      rw [ih c hch (Nat.lt_of_lt_of_le hch (Nat.le_of_lt_succ hlt)), ih c hch hch]

theorem WellFormed.postorder_eq (hpool : pool.WellFormed) {h : Handle} {node : Node}
    (hnode : pool.nodes[h]? = some node) :
    pool.postorder h = node.children.flatMap pool.postorder ++ [h] := by
  conv_lhs => unfold postorder postorderWithin
  rw [hnode]
  refine congrArg (· ++ [h]) (List.flatMap_congr fun c hc => ?_)
  exact hpool.postorderWithin_eq (hpool.child_lt h node hnode c hc)

theorem WellFormed.reaches_of_mem_postorder (hpool : pool.WellFormed) {h c : Handle}
    (hc : c ∈ pool.postorder h) : pool.Reaches h c := by
  induction h using Nat.strongRecOn with
  | ind h ih =>
    cases hnode : pool.nodes[h]? with
    | none => simp [postorder, postorderWithin, hnode] at hc
    | some node =>
      rw [hpool.postorder_eq hnode, List.mem_append, List.mem_flatMap, List.mem_singleton] at hc
      rcases hc with ⟨b, hb, hc⟩ | rfl
      · exact (Reaches.root.child hnode hb).trans (ih b (hpool.child_lt h node hnode b hb) hc)
      · exact .root

theorem WellFormed.self_mem_postorder (hpool : pool.WellFormed) {h : Handle} (hlt : h < pool.size) :
    h ∈ pool.postorder h := by
  obtain ⟨node, hnode⟩ := exists_node hlt
  simp [hpool.postorder_eq hnode]

/-- The tree contains the children of its members. -/
theorem WellFormed.child_mem_postorder (hpool : pool.WellFormed) {root h c : Handle} {node : Node}
    (hh : h ∈ pool.postorder root) (hnode : pool.nodes[h]? = some node) (hc : c ∈ node.children) :
    c ∈ pool.postorder root := by
  induction root using Nat.strongRecOn with
  | ind root ih =>
    cases hroot : pool.nodes[root]? with
    | none => simp [postorder, postorderWithin, hroot] at hh
    | some top =>
      rw [hpool.postorder_eq hroot, List.mem_append, List.mem_flatMap, List.mem_singleton] at hh ⊢
      refine .inl ?_
      rcases hh with ⟨b, hb, hh⟩ | rfl
      · exact ⟨b, hb, ih b (hpool.child_lt root top hroot b hb) hh⟩
      · obtain rfl : node = top := Option.some.inj (hnode.symm.trans hroot)
        have hlt := hpool.child_lt h node hnode c hc
        exact ⟨c, hc, hpool.self_mem_postorder (Nat.lt_trans hlt (lt_size hnode))⟩

theorem WellFormed.mem_postorder (hpool : pool.WellFormed) {root : Handle}
    (hroot : root < pool.size) {h : Handle} : h ∈ pool.postorder root ↔ pool.Reaches root h := by
  refine ⟨hpool.reaches_of_mem_postorder, fun hreach => ?_⟩
  induction hreach with
  | root => exact hpool.self_mem_postorder hroot
  | child _ hnode hc ih => exact hpool.child_mem_postorder ih hnode hc

/-- No member of the tree is stored after the root. -/
theorem WellFormed.le_of_mem_postorder (hpool : pool.WellFormed) {root h : Handle}
    (hh : h ∈ pool.postorder root) : h ≤ root := by
  have hreach := hpool.reaches_of_mem_postorder hh
  clear hh
  induction hreach with
  | root => exact Nat.le_refl root
  | child _ hnode hc ih =>
    exact Nat.le_of_lt (Nat.lt_of_lt_of_le (hpool.child_lt _ _ hnode _ hc) ih)

theorem WellFormed.mem_firstVisits (hpool : pool.WellFormed) {root : Handle}
    (hroot : root < pool.size) {h : Handle} : h ∈ pool.firstVisits root ↔ pool.Reaches root h := by
  rw [firstVisits, List.mem_eraseDups, hpool.mem_postorder hroot]

theorem nodup_eraseDups {α : Type*} [BEq α] [LawfulBEq α] (as : List α) : as.eraseDups.Nodup := by
  cases as with
  | nil => exact List.nodup_nil
  | cons a as =>
    have hrest := nodup_eraseDups (as.filter fun b => !b == a)
    rw [List.eraseDups_cons, List.nodup_cons, List.mem_eraseDups]
    exact ⟨by simp, hrest⟩
termination_by as.length
decreasing_by exact Nat.lt_succ_of_le (List.length_filter_le _ as)

theorem nodup_firstVisits (pool : Pool) (root : Handle) : (pool.firstVisits root).Nodup :=
  nodup_eraseDups _

/-! ## The recursion over the tree -/

/-- The fold of the tree under a handle: the values of the children from left to right, and then the
step, at every occurrence of a node. -/
def foldTree {α : Type} (pool : Pool) (step : Handle → Node → List α → Except Error α)
    (h : Handle) : Unbounded α := do
  let node ← (pool.nodes[h]? : Option Node)
  let values ← node.children.mapM fun c => pool |>.foldTree step c
  MonadExcept.ofExcept (step h node values)
partial_fixpoint

theorem foldTree_eq {α : Type} {step : Handle → Node → List α → Except Error α} {h : Handle}
    {node : Node} (hnode : pool.nodes[h]? = some node) :
    pool.foldTree step h =
      node.children.mapM (pool.foldTree step) >>= fun values =>
        MonadExcept.ofExcept (step h node values) := by
  rw [foldTree, hnode]
  rfl

theorem children_toExpr (node : Node) (expr : Handle → Expr) :
    (node.toExpr expr).children = node.children.map expr := by
  cases node <;> rfl

/-- A step that looks at the expression of a node folds the expression of the root. -/
theorem WellFormed.foldTree_eq_foldM {α : Type} (hpool : pool.WellFormed)
    (step : Expr → List α → Except Error α) {h : Handle} (hlt : h < pool.size) :
    (pool.foldTree (fun h _ values => step (pool.expr h) values) h).run =
      some ((pool.expr h).foldM step) := by
  induction h using Nat.strongRecOn with
  | ind h ih =>
    obtain ⟨node, hnode⟩ := exists_node hlt
    have hchildren : (pool.expr h).children = node.children.map pool.expr := by
      rw [expr_eq hpool hnode, children_toExpr]
    rw [foldTree_eq hnode, Expr.foldM_eq, hchildren, List.mapM_map]
    refine Unbounded.run_bind (Unbounded.run_mapM fun c hc => ?_) fun values =>
      Unbounded.run_ofExcept _
    have hch := hpool.child_lt h node hnode c hc
    exact ih c hch (Nat.lt_trans hch hlt)

end Pool

end ClosedForm
