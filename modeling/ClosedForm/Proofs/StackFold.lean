import ClosedForm.Proofs.PostOrder

/-!
# Folding with a stack

`Pool.Visitor.fold` folds the tree under a handle without recursion: a stack holds the nodes that
are still to be entered and those that are to be finished, and a table holds the values of the nodes
that are finished. A visitor gives the value of a node over the values of its children, and it may
store further nodes while the fold is under way. Nothing bounds the loop; one that does not end has
no result, and every way to get stuck is an ending of its own.

The fold is the recursion that visits the children of a node from left to right, then the node, and
leaves out what has a value (`Visit`): the stack holds what the recursion has still to do
(`Visit.loop_eq`). The recursion in turn calls the visitor on the nodes in the order of their first
visits (`Visit.calls`). `Session.Reachable.folds` puts the two together.
-/

namespace ClosedForm

namespace Pool

/-! ## The fold -/

/-- What gives the value of a node from its handle, the node and the values of its children. It may
change the pool and a state of its own. -/
structure Visitor (σ α : Type) where
  call : Handle → Node → List α → Pool × σ → Except Error α × Pool × σ

/-- The values of the nodes that are finished. -/
abbrev Values (α : Type) : Type :=
  Std.HashMap Handle α

/-- An entry of the stack. -/
inductive Frame
  /-- The node and what is below it are to be visited. -/
  | enter (h : Handle)
  /-- What is below the node has been visited. -/
  | exit (h : Handle)

/-- How a fold ends. -/
inductive Ending (α : Type)
  /-- With the value of the root, or with the error of a call. -/
  | result (result : Except Error α)
  /-- A handle is not in the pool. -/
  | missingNode
  /-- A child has no value when its parent is finished. -/
  | missingChild
  /-- The stack is empty and the root has no value. -/
  | missingRoot

variable {σ α : Type}

/-- The entries for the children that have no value yet, the first child on top. -/
def entries (known : Values α) (children : List Handle) : List Frame :=
  (children.filter (· ∉ known)).map .enter

/-- Works off the stack. -/
def Visitor.loop (f : Visitor σ α) (root : Handle) (stack : List Frame) (known : Values α)
    (state : Pool × σ) : Option (Ending α × Pool × σ) :=
  match stack with
  | [] =>
    match known[root]? with
    | some value => some (.result (.ok value), state)
    | none => some (.missingRoot, state)
  | .enter h :: stack =>
    if h ∈ known then f |>.loop root stack known state
    else
      match state.1.nodes[h]? with
      | none => some (.missingNode, state)
      | some node => f |>.loop root (entries known node.children ++ .exit h :: stack) known state
  | .exit h :: stack =>
    if h ∈ known then f |>.loop root stack known state
    else
      match state.1.nodes[h]? with
      | none => some (.missingNode, state)
      | some node =>
        match node.children.mapM (known[·]?) with
        | none => some (.missingChild, state)
        | some values =>
          match f.call h node values state with
          | (.ok value, state) => f |>.loop root stack (known.insert h value) state
          | (.error e, state) => some (.result (.error e), state)
partial_fixpoint

/-- Folds the tree under the root from the leaves up. -/
def Visitor.fold (f : Visitor σ α) (root : Handle) (state : Pool × σ) :
    Option (Ending α × Pool × σ) :=
  f.loop root [.enter root] ∅ state

/-! ## Calls in order -/

/-- The visitor is called on a node that is stored, over the values of its children. -/
def Call (f : Visitor σ α) (known : Values α) (h : Handle) (state : Pool × σ)
    (result : Except Error α) (final : Pool × σ) : Prop :=
  ∃ (node : Node) (values : List α), state.1.nodes[h]? = some node ∧
    node.children.mapM (known[·]?) = some values ∧ f.call h node values state = (result, final)

/-- The visitor is called on the handles one after another, until a call fails. Each call is over
the values that are known by then, and the value that it gives is known to the calls after it. -/
inductive Calls (f : Visitor σ α) :
    Values α → List Handle → Pool × σ → Except Error (Values α) → Pool × σ → Prop
  | nil (known : Values α) (state : Pool × σ) : Calls f known [] state (.ok known) state
  | cons {known : Values α} {h : Handle} {rest : List Handle} {state next final : Pool × σ}
    {value : α} {result : Except Error (Values α)} (hcall : Call f known h state (.ok value) next)
    (hrest : Calls f (known.insert h value) rest next result final) :
    Calls f known (h :: rest) state result final
  | failed {known : Values α} {h : Handle} {state final : Pool × σ} {e : Error}
    (hcall : Call f known h state (.error e) final) (rest : List Handle) :
    Calls f known (h :: rest) state (.error e) final

/-- The visitor only adds nodes to the pool. -/
def Visitor.OnlyAdds (f : Visitor σ α) : Prop :=
  ∀ (h : Handle) (node : Node) (values : List α) (state : Pool × σ),
    state.1.Extends (f.call h node values state).2.1

/-- The results of the visitor depend on the node and the values of its children alone. -/
def Visitor.Gives (f : Visitor σ α) (pool : Pool)
    (step : Handle → Node → List α → Except Error α) : Prop :=
  ∀ (h : Handle) (node : Node), pool.nodes[h]? = some node → ∀ (values : List α) (state : Pool × σ),
    pool.Extends state.1 → (f.call h node values state).1 = step h node values

variable {pool : Pool} {f : Visitor σ α}

/-- The nodes of a pool are still there, and a node that has a value follows its children. -/
structure Sound (pool : Pool) (known : Values α) (state : Pool × σ) : Prop where
  extends_pool : pool.Extends state.1
  closed : ∀ (h : Handle) (node : Node), h ∈ known → pool.nodes[h]? = some node →
    ∀ c ∈ node.children, c ∈ known

/-- Before the first call. -/
theorem Sound.start (pool : Pool) (state : σ) : Sound pool (∅ : Values α) (pool, state) where
  extends_pool := .refl pool
  closed h node hh := by simp at hh

theorem Call.mem_of_child {known : Values α} {h : Handle} {state final : Pool × σ}
    {result : Except Error α} (hcall : Call f known h state result final) {node : Node}
    (hnode : state.1.nodes[h]? = some node) {c : Handle} (hc : c ∈ node.children) : c ∈ known := by
  obtain ⟨_, values, hnode', hvalues, -⟩ := hcall
  obtain rfl := Option.some.inj (hnode.symm.trans hnode')
  obtain ⟨value, -, hvalue⟩ := exists_of_forall₂_right (option_mapM_eq_some.mp hvalues).flip hc
  exact Std.HashMap.mem_iff_isSome_getElem?.mpr (by simp [hvalue])

theorem Call.unique {known : Values α} {h : Handle} {state final final' : Pool × σ}
    {result result' : Except Error α} (hcall : Call f known h state result final)
    (hcall' : Call f known h state result' final') : result = result' ∧ final = final' := by
  obtain ⟨node, values, hnode, hvalues, heq⟩ := hcall
  obtain ⟨_, _, hnode', hvalues', heq'⟩ := hcall'
  obtain rfl := Option.some.inj (hnode.symm.trans hnode')
  obtain rfl := Option.some.inj (hvalues.symm.trans hvalues')
  rw [heq] at heq'
  exact Prod.mk.inj heq'

theorem exists_values {known : Values α} {children : List Handle}
    (h : ∀ c ∈ children, c ∈ known) : ∃ values, children.mapM (known[·]?) = some values := by
  induction children with
  | nil => exact ⟨[], rfl⟩
  | cons c children ih =>
    obtain ⟨values, hvalues⟩ := ih fun d hd => h d (by simp [hd])
    obtain ⟨value, hvalue⟩ := Option.isSome_iff_exists.mp
      (Std.HashMap.mem_iff_isSome_getElem?.mp (h c (by simp)))
    exact ⟨value :: values, option_mapM_eq_some.mpr (.cons hvalue (option_mapM_eq_some.mp hvalues))⟩

/-- A node whose children have values can be called on. -/
theorem Sound.exists_call {known : Values α} {state : Pool × σ} (hsound : Sound pool known state)
    {h : Handle} {node : Node} (hnode : pool.nodes[h]? = some node)
    (hchildren : ∀ c ∈ node.children, c ∈ known) :
    ∃ result final, Call f known h state result final := by
  obtain ⟨values, hvalues⟩ := exists_values hchildren
  exact ⟨_, _, node, values, hsound.extends_pool h node hnode, hvalues, rfl⟩

/-- A call that succeeds keeps the invariant. -/
theorem Sound.call (hf : f.OnlyAdds) {known : Values α} {h : Handle} {state final : Pool × σ}
    {value : α} (hsound : Sound pool known state)
    (hcall : Call f known h state (.ok value) final) :
    Sound pool (known.insert h value) final := by
  refine ⟨?_, fun k node hk hnode c hc => ?_⟩
  · obtain ⟨node, values, -, -, heq⟩ := hcall
    have hadds := hf h node values state
    rw [heq] at hadds
    exact hsound.extends_pool.trans hadds
  · rw [Std.HashMap.mem_insert, beq_iff_eq] at hk ⊢
    rcases hk with rfl | hk
    · exact .inr (hcall.mem_of_child (hsound.extends_pool h node hnode) hc)
    · exact .inr (hsound.closed k node hk hnode c hc)

namespace Calls

variable {known known' : Values α} {order others : List Handle} {state next final : Pool × σ}
  {result : Except Error (Values α)}

theorem sound (hf : f.OnlyAdds) (h : Calls f known order state result final)
    (hsound : Sound pool known state) (hok : result = .ok known') : Sound pool known' final := by
  induction h with
  | nil =>
    cases hok
    exact hsound
  | cons hcall _ ih => exact ih (hsound.call hf hcall) hok
  | failed => cases hok

/-- Exactly the handles that were called on get values. -/
theorem mem_iff (h : Calls f known order state result final) (hok : result = .ok known')
    {k : Handle} : k ∈ known' ↔ k ∈ known ∨ k ∈ order := by
  induction h with
  | nil =>
    cases hok
    simp
  | @cons _ h _ _ _ _ _ _ _ _ ih =>
    rw [ih hok, Std.HashMap.mem_insert, beq_iff_eq, eq_comm, List.mem_cons, or_assoc, or_left_comm]
  | failed => cases hok

/-- What the calls lead to is determined. -/
theorem unique (h : Calls f known order state result final) {result' : Except Error (Values α)}
    {final' : Pool × σ} (h' : Calls f known order state result' final') :
    result = result' ∧ final = final' := by
  induction h with
  | nil =>
    cases h'
    exact ⟨rfl, rfl⟩
  | cons hcall _ ih =>
    cases h' with
    | cons hcall' hrest' =>
      obtain ⟨hvalue, rfl⟩ := hcall.unique hcall'
      cases hvalue
      exact ih hrest'
    | failed hcall' => cases (hcall.unique hcall').1
  | failed hcall =>
    cases h' with
    | cons hcall' => cases (hcall.unique hcall').1
    | failed hcall' =>
      obtain ⟨he, rfl⟩ := hcall.unique hcall'
      cases he
      exact ⟨rfl, rfl⟩

theorem append (h : Calls f known order state result next) (hok : result = .ok known')
    {result' : Except Error (Values α)} (hothers : Calls f known' others next result' final) :
    Calls f known (order ++ others) state result' final := by
  induction h with
  | nil =>
    cases hok
    exact hothers
  | cons hcall _ ih => exact .cons hcall (ih hok hothers)
  | failed => cases hok

/-- No call follows a call that fails. -/
theorem append_of_error (h : Calls f known order state result final) {e : Error}
    (herror : result = .error e) (others : List Handle) :
    Calls f known (order ++ others) state (.error e) final := by
  induction h with
  | nil => cases herror
  | cons hcall _ ih => exact .cons hcall (ih herror)
  | failed hcall rest =>
    cases herror
    exact .failed hcall (rest ++ others)

end Calls

/-! ## The recursion with a table -/

/-- The handles that have no value yet, in the order of their first entries. -/
def unseen (known : Values α) (hs : List Handle) : List Handle :=
  (hs.filter (· ∉ known)).eraseDups

theorem unseen_append {known known' : Values α} {hs : List Handle}
    (h : ∀ k, k ∈ known' ↔ k ∈ known ∨ k ∈ unseen known hs) (others : List Handle) :
    unseen known (hs ++ others) = unseen known hs ++ unseen known' others := by
  unfold unseen at h ⊢
  rw [List.filter_append, List.eraseDups_append, List.removeAll, List.filter_filter]
  congr 2
  refine List.filter_congr fun k _ => ?_
  simp only [h k, List.mem_eraseDups]
  grind

theorem exists_unseen_append (known : Values α) (hs others : List Handle) :
    ∃ rest, unseen known (hs ++ others) = unseen known hs ++ rest := by
  unfold unseen
  rw [List.filter_append, List.eraseDups_append]
  exact ⟨_, rfl⟩

theorem unseen_append_of_mem {known : Values α} {hs : List Handle} (h : ∀ k ∈ hs, k ∈ known)
    (others : List Handle) : unseen known (hs ++ others) = unseen known others := by
  have hempty : hs.filter (· ∉ known) = [] := by simpa [List.filter_eq_nil_iff] using h
  rw [unseen, List.filter_append, hempty]
  rfl

theorem unseen_cons {known : Values α} {h : Handle} (hh : h ∉ known) (others : List Handle) :
    unseen known (h :: others) = h :: unseen known (others.filter (· ≠ h)) := by
  rw [unseen, List.filter_cons_of_pos (by simpa using hh), List.eraseDups_cons, unseen,
    List.filter_filter, List.filter_filter]
  congr 2
  refine List.filter_congr fun k _ => ?_
  grind

theorem unseen_insert (known : Values α) (h : Handle) (value : α) (others : List Handle) :
    unseen (known.insert h value) others = unseen known (others.filter (· ≠ h)) := by
  unfold unseen
  rw [List.filter_filter]
  congr 1
  refine List.filter_congr fun k _ => ?_
  simp only [Std.HashMap.mem_insert]
  grind

theorem Sound.mem_of_reaches {known : Values α} {state : Pool × σ}
    (hsound : Sound pool known state) {h k : Handle} (hh : h ∈ known) (hreach : pool.Reaches h k) :
    k ∈ known := by
  induction hreach with
  | root => exact hh
  | child _ hnode hc ih => exact hsound.closed _ _ ih hnode _ hc

/-- The calls below a node give no value to the node. -/
theorem Calls.not_mem_of_children (hpool : pool.WellFormed) {known known' : Values α} {h : Handle}
    {node : Node} {state next : Pool × σ} (hknown : h ∉ known) (hnode : pool.nodes[h]? = some node)
    (hcalls : Calls f known (unseen known (node.children.flatMap pool.postorder)) state (.ok known')
      next) : h ∉ known' := by
  intro hh
  have hbelow := ((hcalls.mem_iff rfl).mp hh).resolve_left hknown
  rw [unseen, List.mem_eraseDups] at hbelow
  obtain ⟨c, hc, hmem⟩ := List.mem_flatMap.mp (List.mem_filter.mp hbelow).1
  exact Nat.not_lt_of_le (hpool.le_of_mem_postorder hmem) (hpool.child_lt h node hnode c hc)

/-- After the calls below a node comes the node. -/
theorem Calls.unseen_eq (hpool : pool.WellFormed) {known known' : Values α} {h : Handle}
    {node : Node} {state next : Pool × σ} (hnode : pool.nodes[h]? = some node)
    (hcalls : Calls f known (unseen known (node.children.flatMap pool.postorder)) state (.ok known')
      next) (hs : List Handle) :
    unseen known ((h :: hs).flatMap pool.postorder) =
      unseen known (node.children.flatMap pool.postorder) ++
        unseen known' (h :: hs.flatMap pool.postorder) := by
  rw [List.flatMap_cons, hpool.postorder_eq hnode, List.append_assoc,
    unseen_append fun k => hcalls.mem_iff rfl]
  rfl

/-- The recursion that visits the handles from left to right, the children of a node before the
node, and passes over what has a value. It stops when a call fails. -/
inductive Visit (pool : Pool) (f : Visitor σ α) :
    Values α → List Handle → Pool × σ → Except Error (Values α) → Pool × σ → Prop
  | nil (known : Values α) (state : Pool × σ) : Visit pool f known [] state (.ok known) state
  | seen {known : Values α} {h : Handle} {hs : List Handle} {state final : Pool × σ}
    {result : Except Error (Values α)} (hknown : h ∈ known)
    (hrest : Visit pool f known hs state result final) :
    Visit pool f known (h :: hs) state result final
  | childFailed {known : Values α} {h : Handle} {node : Node} {state final : Pool × σ} {e : Error}
    (hknown : h ∉ known) (hnode : pool.nodes[h]? = some node)
    (hchildren : Visit pool f known node.children state (.error e) final) (hs : List Handle) :
    Visit pool f known (h :: hs) state (.error e) final
  | failed {known known' : Values α} {h : Handle} {node : Node} {state next final : Pool × σ}
    {e : Error} (hknown : h ∉ known) (hnode : pool.nodes[h]? = some node)
    (hchildren : Visit pool f known node.children state (.ok known') next)
    (hcall : Call f known' h next (.error e) final) (hs : List Handle) :
    Visit pool f known (h :: hs) state (.error e) final
  | call {known known' : Values α} {h : Handle} {hs : List Handle} {node : Node}
    {state next after final : Pool × σ} {value : α} {result : Except Error (Values α)}
    (hknown : h ∉ known) (hnode : pool.nodes[h]? = some node)
    (hchildren : Visit pool f known node.children state (.ok known') next)
    (hcall : Call f known' h next (.ok value) after)
    (hrest : Visit pool f (known'.insert h value) hs after result final) :
    Visit pool f known (h :: hs) state result final

namespace Visit

variable {known known' : Values α} {hs : List Handle} {state final : Pool × σ}
  {result : Except Error (Values α)}

/-- The calls of the recursion are those on the handles without a value, in the order of their first
visits. -/
theorem calls (hpool : pool.WellFormed) (hf : f.OnlyAdds)
    (h : Visit pool f known hs state result final) (hsound : Sound pool known state) :
    Calls f known (unseen known (hs.flatMap pool.postorder)) state result final := by
  induction h with
  | nil known state => exact .nil known state
  | @seen known h hs state final result hknown hrest ih =>
    have hbelow (k : Handle) (hk : k ∈ pool.postorder h) : k ∈ known :=
      hsound.mem_of_reaches hknown (hpool.reaches_of_mem_postorder hk)
    rw [List.flatMap_cons, unseen_append_of_mem hbelow]
    exact ih hsound
  | @childFailed known h node state final e hknown hnode hchildren hs ih =>
    rw [List.flatMap_cons, hpool.postorder_eq hnode, List.append_assoc]
    obtain ⟨rest, hrest⟩ := exists_unseen_append known (node.children.flatMap pool.postorder)
      ([h] ++ hs.flatMap pool.postorder)
    rw [hrest]
    exact (ih hsound).append_of_error rfl rest
  | @failed known known' h node state next final e hknown hnode hchildren hcall hs ih =>
    have hbelow := ih hsound
    rw [hbelow.unseen_eq hpool hnode, unseen_cons (hbelow.not_mem_of_children hpool hknown hnode)]
    exact hbelow.append rfl (.failed hcall _)
  | @call known known' h hs node state next after final value result hknown hnode hchildren hcall
      hrest ih ihrest =>
    have hbelow := ih hsound
    have hafter := (hbelow.sound hf hsound rfl).call hf hcall
    rw [hbelow.unseen_eq hpool hnode, unseen_cons (hbelow.not_mem_of_children hpool hknown hnode),
      ← unseen_insert known' h value]
    exact hbelow.append rfl (.cons hcall (ihrest hafter))

theorem sound (hpool : pool.WellFormed) (hf : f.OnlyAdds)
    (h : Visit pool f known hs state (.ok known') final) (hsound : Sound pool known state) :
    Sound pool known' final :=
  (h.calls hpool hf hsound).sound hf hsound rfl

/-- Where the recursion succeeds, every handle that it visits gets a value. -/
theorem mem_of_ok (hpool : pool.WellFormed) (hf : f.OnlyAdds)
    (h : Visit pool f known hs state (.ok known') final) (hsound : Sound pool known state)
    (hhas : pool.Has hs) {c : Handle} (hc : c ∈ hs) : c ∈ known' := by
  rw [(h.calls hpool hf hsound).mem_iff rfl, unseen, List.mem_eraseDups]
  by_cases hknown : c ∈ known
  · exact .inl hknown
  · refine .inr (List.mem_filter.mpr ⟨List.mem_flatMap.mpr ⟨c, hc, ?_⟩, by simpa using hknown⟩)
    exact hpool.self_mem_postorder (hhas c hc)

/-- A node whose children were visited stops the recursion, or the recursion goes on after it. -/
theorem exists_node_visit (hpool : pool.WellFormed) (hf : f.OnlyAdds) {h : Handle} {node : Node}
    (hknown : h ∉ known) (hnode : pool.nodes[h]? = some node)
    (hchildren : Visit pool f known node.children state result final)
    (hsound : Sound pool known state) :
    (∃ e after, ∀ hs, Visit pool f known (h :: hs) state (.error e) after) ∨
    ∃ known' after, Sound pool known' after ∧ ∀ hs result' final',
      Visit pool f known' hs after result' final' →
      Visit pool f known (h :: hs) state result' final' := by
  cases result with
  | error e => exact .inl ⟨e, final, .childFailed hknown hnode hchildren⟩
  | ok known' =>
    have hnext := hchildren.sound hpool hf hsound
    have hhas : pool.Has node.children :=
      fun c hc => Nat.lt_trans (hpool.child_lt h node hnode c hc) (lt_size hnode)
    obtain ⟨result, after, hcall⟩ := hnext.exists_call hnode fun c hc =>
      hchildren.mem_of_ok hpool hf hsound hhas hc
    cases result with
    | error e => exact .inl ⟨e, after, .failed hknown hnode hchildren hcall⟩
    | ok value =>
      exact .inr ⟨known'.insert h value, after, hnext.call hf hcall, fun hs result' final' hrest =>
        .call hknown hnode hchildren hcall hrest⟩

/-- The recursion ends. -/
theorem exists_result (hpool : pool.WellFormed) (hf : f.OnlyAdds) (hsound : Sound pool known state)
    (hhas : pool.Has hs) : ∃ result final, Visit pool f known hs state result final := by
  -- Children stand before their parents, so the bound on the handles decreases with the depth.
  suffices hall : ∀ (n : Nat) (hs : List Handle) (known : Values α) (state : Pool × σ),
      Sound pool known state → pool.Has hs → (∀ h ∈ hs, h < n) →
      ∃ result final, Visit pool f known hs state result final from
    hall pool.size hs known state hsound hhas hhas
  intro n
  induction n with
  | zero =>
    intro hs known state _ _ hlt
    cases hs with
    | nil => exact ⟨_, _, .nil known state⟩
    | cons h hs => exact absurd (hlt h (by simp)) (Nat.not_lt_zero h)
  | succ n ih =>
    intro hs
    induction hs with
    | nil => exact fun known state _ _ _ => ⟨_, _, .nil known state⟩
    | cons h hs ihrest =>
      intro known state hsound hhas hlt
      have hh : h < pool.size := hhas h (by simp)
      have hrest (known' : Values α) (after : Pool × σ) (hafter : Sound pool known' after) :=
        ihrest known' after hafter (fun k hk => hhas k (by simp [hk]))
          fun k hk => hlt k (by simp [hk])
      by_cases hknown : h ∈ known
      · obtain ⟨result, final, hvisit⟩ := hrest known state hsound
        exact ⟨result, final, .seen hknown hvisit⟩
      obtain ⟨node, hnode⟩ := exists_node hh
      have hchild (c : Handle) (hc : c ∈ node.children) : c < h := hpool.child_lt h node hnode c hc
      obtain ⟨result, next, hbelow⟩ := ih node.children known state hsound
        (fun c hc => Nat.lt_trans (hchild c hc) hh)
        fun c hc => Nat.lt_of_lt_of_le (hchild c hc) (Nat.le_of_lt_succ (hlt h (by simp)))
      rcases exists_node_visit hpool hf hknown hnode hbelow hsound with
        ⟨e, after, hstop⟩ | ⟨known', after, hafter, hgo⟩
      · exact ⟨_, _, hstop hs⟩
      · obtain ⟨result, final, hvisit⟩ := hrest known' after hafter
        exact ⟨result, final, hgo hs result final hvisit⟩

end Visit

/-! ## The stack holds what the recursion has still to do -/

/-- The loop goes on with the rest of the stack, if no call has failed. -/
def resume (f : Visitor σ α) (root : Handle) (stack : List Frame) :
    Except Error (Values α) → Pool × σ → Option (Ending α × Pool × σ)
  | .ok known, state => f.loop root stack known state
  | .error e, state => some (.result (.error e), state)

theorem loop_enter_of_mem {root h : Handle} {known : Values α} (hknown : h ∈ known)
    (stack : List Frame) (state : Pool × σ) :
    f.loop root (.enter h :: stack) known state = f.loop root stack known state := by
  rw [Visitor.loop, if_pos hknown]

/-- What is below a node comes to lie on the stack on top of the node. -/
theorem loop_enter {root h : Handle} {known : Values α} {state : Pool × σ} {node : Node}
    (hknown : h ∉ known) (hnode : state.1.nodes[h]? = some node) (hs : List Handle)
    (stack : List Frame) {keep : Handle → Bool} (hkeep : keep h = true) :
    f.loop root (((h :: hs).filter keep).map .enter ++ stack) known state =
      f.loop root ((node.children.filter (· ∉ known)).map .enter ++
        .exit h :: ((hs.filter keep).map .enter ++ stack)) known state := by
  rw [List.filter_cons_of_pos hkeep, List.map_cons, List.cons_append, Visitor.loop, if_neg hknown,
    hnode]
  rfl

theorem loop_exit_ok {root h : Handle} {known : Values α} {state final : Pool × σ} {value : α}
    (hknown : h ∉ known) (hcall : Call f known h state (.ok value) final) (stack : List Frame) :
    f.loop root (.exit h :: stack) known state =
      f.loop root stack (known.insert h value) final := by
  obtain ⟨node, values, hnode, hvalues, heq⟩ := hcall
  rw [Visitor.loop, if_neg hknown]
  simp only [hnode, hvalues, heq]

theorem loop_exit_error {root h : Handle} {known : Values α} {state final : Pool × σ} {e : Error}
    (hknown : h ∉ known) (hcall : Call f known h state (.error e) final) (stack : List Frame) :
    f.loop root (.exit h :: stack) known state = some (.result (.error e), final) := by
  obtain ⟨node, values, hnode, hvalues, heq⟩ := hcall
  rw [Visitor.loop, if_neg hknown]
  simp only [hnode, hvalues, heq]

/-- Handles on the stack are visited as the recursion visits them, whatever is below them on the
stack. Those that have values may be left out. -/
theorem Visit.loop_eq (hpool : pool.WellFormed) (hf : f.OnlyAdds) {known : Values α}
    {hs : List Handle} {state final : Pool × σ} {result : Except Error (Values α)}
    (h : Visit pool f known hs state result final) (hsound : Sound pool known state)
    (root : Handle) (stack : List Frame) (keep : Handle → Bool)
    (hkeep : ∀ c, c ∉ known → keep c = true) :
    f.loop root ((hs.filter keep).map .enter ++ stack) known state =
      resume f root stack result final := by
  induction h generalizing stack keep with
  | nil known state => rfl
  | @seen known h hs state final result hknown hrest ih =>
    have hrest := ih hsound stack keep hkeep
    rw [List.filter_cons]
    split
    · rw [List.map_cons, List.cons_append, loop_enter_of_mem hknown, hrest]
    · exact hrest
  | @childFailed known h node state final e hknown hnode hchildren hs ih =>
    have hstored := hsound.extends_pool h node hnode
    rw [loop_enter hknown hstored hs stack (hkeep h hknown), ih hsound _ _ (by simp)]
    rfl
  | @failed known known' h node state next final e hknown hnode hchildren hcall hs ih =>
    have hnot := (hchildren.calls hpool hf hsound).not_mem_of_children hpool hknown hnode
    have hstored := hsound.extends_pool h node hnode
    rw [loop_enter hknown hstored hs stack (hkeep h hknown), ih hsound _ _ (by simp), resume,
      loop_exit_error hnot hcall]
    rfl
  | @call known known' h hs node state next after final value result hknown hnode hchildren hcall
      hrest ih ihrest =>
    have hbelow := hchildren.calls hpool hf hsound
    have hnot := hbelow.not_mem_of_children hpool hknown hnode
    have hafter := (hchildren.sound hpool hf hsound).call hf hcall
    have hkeep' (c : Handle) (hc : c ∉ known'.insert h value) : keep c = true := by
      refine hkeep c fun hc' => hc ?_
      rw [Std.HashMap.mem_insert, hbelow.mem_iff rfl]
      exact .inr (.inl hc')
    have hstored := hsound.extends_pool h node hnode
    rw [loop_enter hknown hstored hs stack (hkeep h hknown), ih hsound _ _ (by simp), resume,
      loop_exit_ok hnot hcall, ihrest hafter stack keep hkeep']

/-- The fold of a tree ends as the recursion from its root does. -/
theorem Visit.fold_eq (hpool : pool.WellFormed) (hf : f.OnlyAdds) {root : Handle} {state : σ}
    {result : Except Error (Values α)} {final : Pool × σ}
    (h : Visit pool f ∅ [root] (pool, state) result final) :
    f.fold root (pool, state) = resume f root [] result final :=
  h.loop_eq hpool hf (.start pool state) root [] (fun _ => true) fun _ _ => rfl

/-! ## Visitors whose results depend on the node and its children alone -/

/-- The values are those of the plain recursion. -/
def Correct (pool : Pool) (step : Handle → Node → List α → Except Error α)
    (known : Values α) : Prop :=
  ∀ (h : Handle) (value : α), known[h]? = some value →
    (pool.foldTree step h).run = some (.ok value)

section Pure

variable {step : Handle → Node → List α → Except Error α} {known : Values α} {h : Handle}

theorem Correct.insert (hknown : Correct pool step known) {value : α}
    (hvalue : (pool.foldTree step h).run = some (.ok value)) :
    Correct pool step (known.insert h value) := by
  intro k v hv
  rw [Std.HashMap.getElem?_insert] at hv
  split at hv
  · next heq =>
    obtain rfl := beq_iff_eq.mp heq
    cases hv
    exact hvalue
  · exact hknown k v hv

theorem Correct.mapM (hknown : Correct pool step known) {children : List Handle} {values : List α}
    (hvalues : children.mapM (known[·]?) = some values) :
    (children.mapM (pool.foldTree step)).run = some (.ok values) := by
  rw [option_mapM_eq_some] at hvalues
  induction hvalues with
  | nil => rfl
  | @cons c value children values hvalue _ ih =>
    rw [List.mapM_cons, Unbounded.run_bind_of_ok (hknown c value hvalue),
      Unbounded.run_bind_of_ok ih]
    rfl

/-- A call gives what the recursion gives. -/
theorem Call.foldTree_eq (hstep : f.Gives pool step) {state final : Pool × σ}
    {result : Except Error α} {node : Node} (hcall : Call f known h state result final)
    (hnode : pool.nodes[h]? = some node) (hsound : Sound pool known state)
    (hknown : Correct pool step known) : (pool.foldTree step h).run = some result := by
  obtain ⟨_, values, hnode', hvalues, heq⟩ := hcall
  obtain rfl := Option.some.inj (hnode'.symm.trans (hsound.extends_pool h node hnode))
  have hresult := hstep h _ hnode values state hsound.extends_pool
  rw [heq] at hresult
  rw [Pool.foldTree_eq hnode, Unbounded.run_bind_of_ok (hknown.mapM hvalues),
    Unbounded.run_ofExcept, ← hresult]

/-- The values stay correct until a call fails, and then the recursion fails too. -/
theorem Visit.foldTree_eq (hpool : pool.WellFormed) (hf : f.OnlyAdds) (hstep : f.Gives pool step)
    {hs : List Handle} {state final : Pool × σ} {result : Except Error (Values α)}
    (h : Visit pool f known hs state result final) (hsound : Sound pool known state)
    (hknown : Correct pool step known) :
    match result with
    | .ok known' => Correct pool step known'
    | .error e => (hs.mapM (pool.foldTree step)).run = some (.error e) := by
  induction h with
  | nil known state => exact hknown
  | @seen known h hs state final result hmem hrest ih =>
    have hrest := ih hsound hknown
    obtain ⟨value, hvalue⟩ := Option.isSome_iff_exists.mp
      (Std.HashMap.mem_iff_isSome_getElem?.mp hmem)
    cases result with
    | ok known' => exact hrest
    | error e =>
      rw [List.mapM_cons, Unbounded.run_bind_of_ok (hknown h value hvalue)]
      exact Unbounded.run_bind_of_error hrest _
  | @childFailed known h node state final e hmem hnode hchildren hs ih =>
    show ((h :: hs).mapM (pool.foldTree step)).run = _
    rw [List.mapM_cons]
    refine Unbounded.run_bind_of_error ?_ _
    rw [Pool.foldTree_eq hnode]
    exact Unbounded.run_bind_of_error (ih hsound hknown) _
  | @failed known known' h node state next final e hmem hnode hchildren hcall hs ih =>
    have hnext := hchildren.sound hpool hf hsound
    show ((h :: hs).mapM (pool.foldTree step)).run = _
    rw [List.mapM_cons]
    exact Unbounded.run_bind_of_error (hcall.foldTree_eq hstep hnode hnext (ih hsound hknown)) _
  | @call known known' h hs node state next after final value result hmem hnode hchildren hcall
      hrest ih ihrest =>
    have hnext := hchildren.sound hpool hf hsound
    have hbelow : Correct pool step known' := ih hsound hknown
    have hvalue := hcall.foldTree_eq hstep hnode hnext hbelow
    have hrest := ihrest (hnext.call hf hcall) (hbelow.insert hvalue)
    cases result with
    | ok known' => exact hrest
    | error e =>
      rw [List.mapM_cons, Unbounded.run_bind_of_ok hvalue]
      exact Unbounded.run_bind_of_error hrest _

end Pure

/-! ## The fold is the recursion -/

/-- The fold of the tree under a root is structural recursion. -/
structure Folds (pool : Pool) (f : Visitor σ α) (root : Handle) (state : σ) : Prop where
  /-- No node is visited twice, and those under the root are visited. -/
  nodup : (pool.firstVisits root).Nodup
  mem_iff : ∀ h, h ∈ pool.firstVisits root ↔ pool.Reaches root h
  /-- The fold ends, and in no other way than with a result. -/
  ends : ∃ result final, f.fold root (pool, state) = some (.result result, final)
  /-- A value is the value of the root after all calls. -/
  ok_iff : ∀ value final, f.fold root (pool, state) = some (.result (.ok value), final) ↔
    ∃ known, Calls f ∅ (pool.firstVisits root) (pool, state) (.ok known) final ∧
      known[root]? = some value
  /-- An error is the error of the first call that fails. -/
  error_iff : ∀ e final, f.fold root (pool, state) = some (.result (.error e), final) ↔
    Calls f ∅ (pool.firstVisits root) (pool, state) (.error e) final
  /-- Visiting a node once cannot be told from visiting it at each of its occurrences. -/
  foldTree : ∀ step, f.Gives pool step → ∃ result final,
    f.fold root (pool, state) = some (.result result, final) ∧
      (pool.foldTree step root).run = some result
  /-- The same for the expression of the root. -/
  foldM : ∀ step : Expr → List α → Except Error α,
    f.Gives pool (fun h _ values => step (pool.expr h) values) → ∃ final,
      f.fold root (pool, state) = some (.result ((pool.expr root).foldM step), final)

theorem unseen_empty (pool : Pool) (root : Handle) :
    unseen (∅ : Values α) ([root].flatMap pool.postorder) = pool.firstVisits root := by
  simp [unseen, firstVisits]

section Root

variable {root : Handle} {state : σ} {result : Except Error (Values α)} {final : Pool × σ}

theorem Visit.calls_root (hpool : pool.WellFormed) (hf : f.OnlyAdds)
    (h : Visit pool f ∅ [root] (pool, state) result final) :
    Calls f ∅ (pool.firstVisits root) (pool, state) result final := by
  rw [← unseen_empty]
  exact h.calls hpool hf (.start pool state)

theorem WellFormed.exists_visit (hpool : pool.WellFormed) (hf : f.OnlyAdds)
    (hroot : root < pool.size) (state : σ) :
    ∃ result final, Visit pool f ∅ [root] (pool, state) result final :=
  Visit.exists_result hpool hf (.start pool state) (by simpa [Has] using hroot)

/-- Calls in the order of the first visits are those of the recursion. -/
theorem Calls.visit (hpool : pool.WellFormed) (hf : f.OnlyAdds) (hroot : root < pool.size)
    (h : Calls f ∅ (pool.firstVisits root) (pool, state) result final) :
    Visit pool f ∅ [root] (pool, state) result final := by
  obtain ⟨result', final', hvisit⟩ := hpool.exists_visit hf hroot state
  obtain ⟨rfl, rfl⟩ := h.unique (hvisit.calls_root hpool hf)
  exact hvisit

/-- Either all calls succeed, and then the root has a value, or one of them fails. -/
theorem WellFormed.visit_cases (hpool : pool.WellFormed) (hf : f.OnlyAdds)
    (hroot : root < pool.size) (state : σ) :
    (∃ known value final, Visit pool f ∅ [root] (pool, state) (.ok known) final ∧
      known[root]? = some value) ∨
    ∃ e final, Visit pool f ∅ [root] (pool, state) (.error e) final := by
  obtain ⟨result, final, hvisit⟩ := hpool.exists_visit hf hroot state
  cases result with
  | error e => exact .inr ⟨e, final, hvisit⟩
  | ok known =>
    have hmem := hvisit.mem_of_ok hpool hf (.start pool state) (by simpa [Has] using hroot)
      (List.mem_singleton_self root)
    obtain ⟨value, hvalue⟩ := Option.isSome_iff_exists.mp
      (Std.HashMap.mem_iff_isSome_getElem?.mp hmem)
    exact .inl ⟨known, value, final, hvisit, hvalue⟩

theorem Visit.fold_ok (hpool : pool.WellFormed) (hf : f.OnlyAdds) {known : Values α} {value : α}
    (h : Visit pool f ∅ [root] (pool, state) (.ok known) final)
    (hvalue : known[root]? = some value) :
    f.fold root (pool, state) = some (.result (.ok value), final) := by
  rw [h.fold_eq hpool hf, resume, Visitor.loop, hvalue]

theorem Visit.fold_error (hpool : pool.WellFormed) (hf : f.OnlyAdds) {e : Error}
    (h : Visit pool f ∅ [root] (pool, state) (.error e) final) :
    f.fold root (pool, state) = some (.result (.error e), final) := by
  rw [h.fold_eq hpool hf]
  rfl

/-- A visitor whose results depend on the node and its children gives the result of the plain
recursion. -/
theorem WellFormed.exists_foldTree (hpool : pool.WellFormed) (hf : f.OnlyAdds)
    (hroot : root < pool.size) (state : σ) {step : Handle → Node → List α → Except Error α}
    (hstep : f.Gives pool step) :
    ∃ result final, f.fold root (pool, state) = some (.result result, final) ∧
      (pool.foldTree step root).run = some result := by
  have hstart : Correct pool step ∅ := by
    intro h value hvalue
    simp at hvalue
  rcases hpool.visit_cases hf hroot state with
    ⟨known, value, final, hvisit, hvalue⟩ | ⟨e, final, hvisit⟩
  · have hknown := hvisit.foldTree_eq hpool hf hstep (.start pool state) hstart
    exact ⟨_, _, hvisit.fold_ok hpool hf hvalue, hknown root value hvalue⟩
  · have herror := hvisit.foldTree_eq hpool hf hstep (.start pool state) hstart
    exact ⟨_, _, hvisit.fold_error hpool hf, Unbounded.run_of_mapM_singleton herror⟩

end Root

theorem WellFormed.toFolds (hpool : pool.WellFormed) (hf : f.OnlyAdds) {root : Handle}
    (hroot : root < pool.size) (state : σ) : pool.Folds f root state where
  nodup := pool.nodup_firstVisits root
  mem_iff h := hpool.mem_firstVisits hroot
  ends := by
    rcases hpool.visit_cases hf hroot state with ⟨_, _, _, hvisit, hvalue⟩ | ⟨_, _, hvisit⟩
    · exact ⟨_, _, hvisit.fold_ok hpool hf hvalue⟩
    · exact ⟨_, _, hvisit.fold_error hpool hf⟩
  ok_iff value final := by
    refine ⟨fun hfold => ?_, fun ⟨known, hcalls, hvalue⟩ =>
      (hcalls.visit hpool hf hroot).fold_ok hpool hf hvalue⟩
    rcases hpool.visit_cases hf hroot state with ⟨known, _, _, hvisit, hvalue⟩ | ⟨_, _, hvisit⟩
    · cases hfold.symm.trans (hvisit.fold_ok hpool hf hvalue)
      exact ⟨known, hvisit.calls_root hpool hf, hvalue⟩
    · cases hfold.symm.trans (hvisit.fold_error hpool hf)
  error_iff e final := by
    refine ⟨fun hfold => ?_, fun hcalls => (hcalls.visit hpool hf hroot).fold_error hpool hf⟩
    rcases hpool.visit_cases hf hroot state with ⟨_, _, _, hvisit, hvalue⟩ | ⟨_, _, hvisit⟩
    · cases hfold.symm.trans (hvisit.fold_ok hpool hf hvalue)
    · cases hfold.symm.trans (hvisit.fold_error hpool hf)
      exact hvisit.calls_root hpool hf
  foldTree step hstep := hpool.exists_foldTree hf hroot state hstep
  foldM step hstep := by
    obtain ⟨result, final, hfold, htree⟩ := hpool.exists_foldTree hf hroot state hstep
    rw [hpool.foldTree_eq_foldM step hroot, Option.some_inj] at htree
    exact ⟨final, by rw [hfold, htree]⟩

/-- Counts the nodes of the tree, stores each count and counts the calls. -/
def countNodes : Visitor Nat Nat where
  call _ _ sizes state :=
    let size := sizes.foldl (· + ·) 1
    (.ok size, (intern (.constant size) state.1).2, state.2 + 1)

theorem onlyAdds_countNodes : countNodes.OnlyAdds :=
  fun _ _ _ state => extends_intern state.1 _

end Pool

namespace Session

/-- In every session that is reached, folding the tree under a handle with a stack is structural
recursion, whatever the visitor computes and adds to the pool on the way. -/
theorem Reachable.folds {bounds : Bounds} {session : Session} (h : session.Reachable bounds)
    {σ α : Type} {f : Pool.Visitor σ α} (hf : f.OnlyAdds) {root : Handle}
    (hroot : root < session.pool.size) (state : σ) : session.pool.Folds f root state :=
  h.consistent.pool.toFolds hf hroot state

/-- The tree of a product of two equal sums has seven nodes. -/
theorem folds_text :
    ∃ (session : Session) (root : Handle) (final : Pool × Nat), session.Reachable {} ∧
      Pool.countNodes.fold root (session.pool, 0) = some (.result (.ok 7), final) := by
  have hread : Formula.read "(x+1)*(x+1)" = .ok (.mul [.add [.symbol "x", .constant 1],
      .add [.symbol "x", .constant 1]]) := by cbv
  obtain ⟨session, handles, hsession, -, hstands⟩ := exists_parsed_all {} (.cons hread .nil)
  obtain ⟨root, -, hroot, hexpr⟩ := exists_of_forall₂_right hstands.flip (List.mem_singleton_self _)
  obtain ⟨final, hfold⟩ := (hsession.folds Pool.onlyAdds_countNodes hroot 0).foldM
    (fun _ sizes => .ok (sizes.foldl (· + ·) 1)) fun _ _ _ _ _ _ => rfl
  refine ⟨session, root, final, hsession, ?_⟩
  rw [hfold, hexpr, Expr.foldM_eq_foldTree]
  rfl

end Session

end ClosedForm
