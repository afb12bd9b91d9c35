import ClosedForm.Proofs.History

/-!
# Expressions that one pass makes canonical

`Reduces bounds e c` says that the rules alone take `e` in one pass to the normal expression `c`, and every
subexpression of `e` to a normal one. It is proved node by node (`Reduces.node`), and it settles the
outcome of a canonicalization with every reachable memo (`Reduces.canonicalize`). The same holds where
the rule for a node over normal children makes something that reduces
(`Reduces.canonicalize_of_rule`).
-/

namespace ClosedForm

open ClosedForm.Expr Canonical

variable {bounds : Bounds}

namespace Canonical

/-- One pass takes the expression to the form, and every subexpression to a normal one. -/
structure Reduces (bounds : Bounds) (e c : Expr) : Prop where
  direct : Direct bounds e
  pass : pass bounds .empty e = .ok c

theorem Normal.reduces {e : Expr} (h : Normal bounds e) : Reduces bounds e e :=
  ⟨h.direct, pass_empty_normal h⟩

namespace Reduces

theorem normal {e c : Expr} (h : Reduces bounds e c) : Normal bounds c :=
  h.direct.normal h.pass

/-- A node reduces where its rule makes something normal of what the children reduce to. -/
theorem node {e c : Expr} {cs : List Expr} (h : List.Forall₂ (Reduces bounds) e.children cs)
    (hrule : simplifyNode bounds (e.withChildren cs) = .ok c) (hc : Normal bounds c) :
    Reduces bounds e c := by
  have hpass : Canonical.pass bounds .empty e = .ok c :=
    pass_empty_eq_ok.mpr ⟨cs, h.imp fun _ _ hchild => hchild.pass, hrule⟩
  refine ⟨.of_children (fun child hchild => ?_) fun r hr => ?_, hpass⟩
  · obtain ⟨i, hi, rfl⟩ := List.getElem_of_mem hchild
    exact (h.get hi (h.length_eq ▸ hi)).direct
  · cases hpass.symm.trans hr
    exact pass_empty_normal hc

theorem add {ts cs : List Expr} (h : List.Forall₂ (Reduces bounds) ts cs) :
    Reduces bounds (.add ts) (Canonical.add cs) :=
  node h rfl (normal_add fun _ hc => by
    obtain ⟨t, -, ht⟩ := exists_of_forall₂_right h hc
    exact ht.normal)

theorem sum {ts cs : List Expr} (h : List.Forall₂ (Reduces bounds) ts cs) :
    Reduces bounds (.sum ts) (Canonical.add cs) := by
  match ts, cs, h with
  | [], [], _ =>
    have hempty : Canonical.add [] = .constant 0 := by simpa using add_all_constants []
    rw [hempty]
    exact (Normal.constant 0).reduces
  | [_], [c], .cons hc .nil =>
    rw [add_singleton hc.normal]
    exact hc
  | _ :: _ :: _, _, h => exact add h

theorem mul {fs cs : List Expr} {c : Expr} (h : List.Forall₂ (Reduces bounds) fs cs)
    (hrule : multiply bounds cs = .ok c) (hc : Normal bounds c) : Reduces bounds (.mul fs) c :=
  node h hrule hc

theorem pow {base exponent b x c : Expr} (hbase : Reduces bounds base b)
    (hexponent : Reduces bounds exponent x) (hrule : power bounds b x = .ok c) (hc : Normal bounds c) :
    Reduces bounds (.pow base exponent) c :=
  node (.cons hbase (.cons hexponent .nil)) hrule hc

theorem call {f : Func} {argument a c : Expr} (h : Reduces bounds argument a)
    (hrule : apply bounds f [a] = .ok c) (hc : Normal bounds c) : Reduces bounds (.call f argument) c :=
  node (.cons h .nil) hrule hc

theorem constant (q : Rat) : Reduces bounds (.constant q) (.constant q) :=
  (Normal.constant q).reduces

/-- Products of what reduces to constants reduce to a constant. -/
theorem mul_constants {es : List Expr} {qs : List Rat}
    (h : List.Forall₂ (fun e q => Reduces bounds e (.constant q)) es qs) :
    Reduces bounds (.mul es) (.constant qs.prod) :=
  .mul (List.forall₂_map_right_iff.mpr h) (multiply_all_constants qs) (.constant _)

/-- Sums of what reduces to constants reduce to a constant. -/
theorem add_constants {es : List Expr} {qs : List Rat}
    (h : List.Forall₂ (fun e q => Reduces bounds e (.constant q)) es qs) :
    Reduces bounds (.add es) (.constant qs.sum) := by
  rw [← add_all_constants]
  exact .add (List.forall₂_map_right_iff.mpr h)

/-- A canonicalization ends with the form, whatever the memo holds. -/
theorem canonicalize {e c : Expr} (h : Reduces bounds e c) (hpasses : 2 ≤ bounds.maxPasses)
    {memo : Memo} (hmemo : memo.Reachable bounds) :
    ((canonicalize bounds e).run.run memo).1 = .ok c :=
  (canonicalize_direct hpasses hmemo h.direct).trans h.pass

end Reduces

/-! ## Two passes

The rule for a node over normal children can make something of it that is not normal yet, such as a
product inside a product. Where one more pass completes it, every memo agrees. -/

section Stages

variable {e m c : Expr} {memo : Memo}

theorem pass_of_normal_children (hmemo : memo.Reachable bounds)
    (hchildren : ∀ d ∈ e.children, Normal bounds d) (hrule : simplifyNode bounds e = .ok m)
    (hfind : memo.find? e = none) : pass bounds memo e = .ok m := by
  have hsame : e.children.mapM (pass bounds memo) = .ok e.children :=
    mapM_eq_ok.mpr (List.forall₂_same.mpr fun d hd =>
      (pass_eq_of_direct hmemo.faithful (hchildren d hd).direct).trans
        (pass_empty_normal (hchildren d hd)))
  rw [pass_eq, hsame]
  refine (passStep_of_not_find hfind e.children).trans ?_
  rw [withChildren_children, hrule]

/-- Every memo has for the node one of the forms that passes go through. -/
theorem Reduces.find?_of_rule (h : Reduces bounds m c) (hmemo : memo.Reachable bounds)
    (hchildren : ∀ d ∈ e.children, Normal bounds d) (hrule : simplifyNode bounds e = .ok m) {d : Expr}
    (hfind : memo.find? e = some d) : d = e ∨ d = m ∨ d = c := by
  refine hmemo.related (R := fun a d => a = e ∨ a = m ∨ a = c → d = e ∨ d = m ∨ d = c)
    (fun _ h => h) (fun hab hbc ha => hbc (hab ha)) (fun memo hmemo hentries a next hnext ha => ?_)
    hfind (.inl rfl)
  rcases ha with rfl | rfl | rfl
  · cases hfind : memo.find? a with
    | some d =>
      rw [pass_eq, bind_eq_ok] at hnext
      obtain ⟨ds, -, hds⟩ := hnext
      rw [passStep_of_find hfind] at hds
      cases hds
      exact hentries a _ hfind (.inl rfl)
    | none =>
      cases (pass_of_normal_children hmemo hchildren hrule hfind).symm.trans hnext
      exact .inr (.inl rfl)
  · rw [pass_eq_of_direct hmemo.faithful h.direct, h.pass] at hnext
    cases hnext
    exact .inr (.inr rfl)
  · rw [pass_eq_of_direct hmemo.faithful h.normal.direct, pass_empty_normal h.normal] at hnext
    cases hnext
    exact .inr (.inr rfl)

/-- The passes from the node end with the last form. -/
theorem Reduces.settle_of_rule (h : Reduces bounds m c) (hmemo : memo.Reachable bounds)
    (hpass : Canonical.pass bounds memo e = .ok m) (hne : m ≠ e) (maxPasses passes : Nat) (seen : List Expr) :
    ∃ seen', settle bounds memo maxPasses (passes + 3) seen e = .ok (c, seen') := by
  cases hfind : memo.find? m with
  | some d =>
    cases (hmemo.faithful m d hfind h.direct).symm.trans h.pass
    rw [settle, hpass]
    refine ⟨seen, (if_neg hne).trans ?_⟩
    rw [hfind]
    rfl
  | none =>
    rw [settle_of_change hpass hne hfind]
    exact settle_of_pass ((pass_eq_of_direct hmemo.faithful h.direct).trans h.pass)
      ((pass_eq_of_direct hmemo.faithful h.normal.direct).trans (pass_empty_normal h.normal))
      (fun d => find?_normal hmemo.faithful h.normal) maxPasses passes (m :: seen)

/-- Over normal children the rule makes something of the node that one pass takes to a normal form:
a canonicalization ends with that form, whatever the memo holds. -/
theorem Reduces.canonicalize_of_rule (h : Reduces bounds m c) (hpasses : 3 ≤ bounds.maxPasses)
    (hmemo : memo.Reachable bounds) (hchildren : ∀ d ∈ e.children, Normal bounds d)
    (hrule : simplifyNode bounds e = .ok m) :
    ((ClosedForm.canonicalize bounds e).run.run memo).1 = .ok c := by
  have hempty := pass_of_normal_children .empty hchildren hrule (Memo.find?_empty e)
  by_cases hm : Normal bounds m
  · -- One pass is enough.
    cases (pass_empty_normal hm).symm.trans h.pass
    have he : Reduces bounds e m := .node (List.forall₂_same.mpr fun d hd => (hchildren d hd).reduces)
      (by rw [withChildren_children, hrule]) hm
    exact he.canonicalize (by omega) hmemo
  have he : ¬ Normal bounds e := fun he => by
    cases (pass_empty_normal he).symm.trans hempty
    exact hm he
  have hne : m ≠ e := by
    rintro rfl
    exact hm (normal_of_pass_empty hempty)
  obtain ⟨n, hn⟩ : ∃ n, bounds.maxPasses = n + 3 := ⟨bounds.maxPasses - 3, by omega⟩
  unfold ClosedForm.canonicalize
  rw [run_canonicalizeWithin]
  cases hfind : memo.find? e with
  | some d =>
    -- The memo has normal forms, and only the last form is normal.
    have hd := (hmemo.settled _ _ hfind).2
    rcases h.find?_of_rule hmemo hchildren hrule hfind with rfl | rfl | rfl
    · exact absurd hd he
    · exact absurd hd hm
    · rfl
  | none =>
    obtain ⟨seen, hseen⟩ := h.settle_of_rule hmemo
      (pass_of_normal_children hmemo hchildren hrule hfind) hne (n + 3) n [e]
    dsimp only
    rw [hn, hseen]

end Stages

end Canonical

end ClosedForm
