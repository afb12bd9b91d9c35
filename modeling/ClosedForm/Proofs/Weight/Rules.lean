import ClosedForm.Proofs.Weight.Tight

/-!
# All rules and weights

No rule increases the weight of a node, as a factor or as a term (`weight_simplifyNode`), and a
rule that keeps one of them over normal children gives a normal expression
(`normal_of_weight_simplifyNode`). A node is no heavier when its children become lighter, and
where it keeps one of its weights, each of them keeps one (`withChildren_lighter`).
-/

namespace ClosedForm.Canonical

open ClosedForm.Expr

variable (bounds : Bounds)

/-! ## Functions -/

theorem weight_specialValue {f : Func} {argument value : Expr} (h : SpecialValue f argument value) :
    weight bounds value ≤ 1 + weight bounds argument := by
  cases h with
  | sin | tan | ln => exact (weight_constant_le bounds 0).trans (Nat.le_add_right _ _)
  | cos | exp => exact (weight_constant_le bounds 1).trans (Nat.le_add_right _ _)
  | exp_ln | ln_exp =>
    rw [weight_function, weights_cons]
    omega

theorem weight_integer_neg_one : weight bounds (.integer (-1)) = 0 := by
  simp [Expr.integer, weight]

/-- A minus sign weighs nothing. -/
theorem weight_opposite {e p : Expr} (h : multiply bounds [.integer (-1), e] = .ok p) :
    weight bounds p ≤ weight bounds e := by
  have hle := (weight_multiply bounds h).1
  rw [weights_cons, weights_cons, weights_nil, weight_integer_neg_one] at hle
  omega

theorem weight_call (f : Func) (e : Expr) : weight bounds (.call f e) = 1 + weight bounds e := rfl

/-- A function weighs no more than its node. -/
theorem weight_apply {f : Func} {arguments : List Expr} {r : Expr}
    (h : apply bounds f arguments = .ok r) :
    weight bounds r ≤ weight bounds (.function f arguments) := by
  have houtcome := h ▸ apply_outcome bounds f arguments
  generalize hresult : Except.ok r = result at houtcome
  cases houtcome with
  | unit =>
    cases hresult
    rw [Expr.imaginaryUnit, weight_function, weight_function, weights_nil]
    omega
  | special hvalue =>
    cases hresult
    exact weight_specialValue bounds hvalue
  | kept =>
    cases hresult
    exact Nat.le_refl _
  | even =>
    obtain ⟨positive, hpositive, hr⟩ := bind_eq_ok.mp hresult.symm
    cases hr
    exact Nat.add_le_add_left (weight_opposite bounds hpositive) 1
  | odd =>
    obtain ⟨positive, hpositive, hminus⟩ := bind_eq_ok.mp hresult.symm
    have hle := weight_opposite bounds hminus
    rw [weight_call] at hle
    exact hle.trans (Nat.add_le_add_left (weight_opposite bounds hpositive) 1)
  | arity => cases hresult

/-! ## Nodes -/

theorem nonconstants_le_termWeight (fs : List Expr) :
    1 + weights bounds (nonconstants fs) ≤ termWeight bounds (.mul fs) := by
  rcases termWeight_mul bounds fs with ⟨c, gs, rfl, h⟩ | h
  · have hcons : nonconstants (Expr.constant c :: gs) = nonconstants gs := rfl
    have hle := weights_nonconstants_le bounds gs
    rw [hcons]
    omega
  · have hle := weights_nonconstants_le bounds fs
    omega

theorem termWeight_pow (base exponent : Expr) :
    termWeight bounds (.pow base exponent) = 1 + weight bounds (.pow base exponent) :=
  termWeight_of_not_isMul bounds rfl rfl rfl

theorem termWeight_function (f : Func) (arguments : List Expr) :
    termWeight bounds (.function f arguments) = 1 + weight bounds (.function f arguments) :=
  termWeight_of_not_isMul bounds rfl rfl rfl

/-- No rule increases the weight of a node. -/
theorem weight_simplifyNode {e r : Expr} (h : simplifyNode bounds e = .ok r) :
    weight bounds r ≤ weight bounds e ∧ termWeight bounds r ≤ termWeight bounds e := by
  cases e with
  | constant c =>
    cases h
    exact ⟨Nat.le_refl _, Nat.le_refl _⟩
  | symbol name =>
    cases h
    exact ⟨Nat.le_refl _, Nat.le_refl _⟩
  | add ts =>
    cases h
    rw [weight_add, termWeight_add]
    exact ⟨weight_add_le bounds ts, termWeight_add_le bounds ts⟩
  | mul fs =>
    obtain ⟨hweight, hterm⟩ := weight_multiply bounds h
    rw [weight_mul]
    exact ⟨hweight, hterm.trans (nonconstants_le_termWeight bounds fs)⟩
  | pow base exponent => exact ⟨weight_power bounds h, termWeight_power bounds h⟩
  | function f arguments =>
    have hweight := weight_apply bounds h
    have hterm := termWeight_le_weight bounds r
    rw [termWeight_function]
    exact ⟨hweight, by omega⟩

/-- A rule that keeps the weight over normal children gives a normal expression. -/
theorem normal_of_weight_simplifyNode {e r : Expr} (hchildren : ∀ c ∈ e.children, Normal bounds c)
    (h : simplifyNode bounds e = .ok r)
    (htight : weight bounds e ≤ weight bounds r ∨ termWeight bounds e ≤ termWeight bounds r) :
    Normal bounds r := by
  cases e with
  | constant c =>
    cases h
    exact .constant c
  | symbol name =>
    cases h
    exact .symbol name
  | add ts =>
    cases h
    exact normal_add hchildren
  | mul fs =>
    refine normal_of_weight_multiply hchildren h (htight.imp (fun htight => ?_) fun htight => ?_)
    · rw [weight_mul] at htight
      exact htight
    · exact (nonconstants_le_termWeight bounds fs).trans htight
  | pow base exponent =>
    refine normal_of_weight_power (hchildren base (by simp [children]))
      (hchildren exponent (by simp [children])) h ?_
    rcases htight with htight | htight
    · exact htight
    · have hterm := termWeight_le_weight bounds r
      rw [termWeight_pow] at htight
      omega
  | function f arguments => exact normal_apply hchildren h

/-! ## Lighter children -/

/-- `d` weighs no more than `e`, and is `e` itself if that is a constant. -/
structure Lighter (bounds : Bounds) (e d : Expr) : Prop where
  weight_le : weight bounds d ≤ weight bounds e
  termWeight_le : termWeight bounds d ≤ termWeight bounds e
  constant : e.isConstant = true → d = e

/-- One of the weights is kept. -/
def Keeps (bounds : Bounds) (e d : Expr) : Prop :=
  weight bounds e ≤ weight bounds d ∨ termWeight bounds e ≤ termWeight bounds d

variable {bounds}

theorem Lighter.refl (e : Expr) : Lighter bounds e e :=
  ⟨Nat.le_refl _, Nat.le_refl _, fun _ => rfl⟩

theorem Lighter.trans {a b c : Expr} (hab : Lighter bounds a b) (hbc : Lighter bounds b c) :
    Lighter bounds a c where
  weight_le := hbc.weight_le.trans hab.weight_le
  termWeight_le := hbc.termWeight_le.trans hab.termWeight_le
  constant h := by
    have hb := hab.constant h
    rw [hbc.constant (by rw [hb]; exact h), hb]

theorem weights_lighter {es ds : List Expr} (h : List.Forall₂ (Lighter bounds) es ds) :
    weights bounds ds ≤ weights bounds es ∧
      (weights bounds es ≤ weights bounds ds → List.Forall₂ (Keeps bounds) es ds) := by
  rw [weights_eq_sum, weights_eq_sum]
  obtain ⟨hle, htight⟩ := sum_le_of_forall₂ (h.imp fun _ _ hed => hed.weight_le)
  exact ⟨hle, fun hsum => (htight hsum).imp fun _ _ => .inl⟩

theorem termWeights_lighter {es ds : List Expr} (h : List.Forall₂ (Lighter bounds) es ds) :
    termWeights bounds ds ≤ termWeights bounds es ∧
      (termWeights bounds es ≤ termWeights bounds ds → List.Forall₂ (Keeps bounds) es ds) := by
  rw [termWeights_eq_sum, termWeights_eq_sum]
  obtain ⟨hle, htight⟩ := sum_le_of_forall₂ (h.imp fun _ _ hed => hed.termWeight_le)
  exact ⟨hle, fun hsum => (htight hsum).imp fun _ _ => .inr⟩

theorem keeps_of_isConstant {e d : Expr} (h : Lighter bounds e d) (he : e.isConstant = true) :
    Keeps bounds e d :=
  .inl (by rw [h.constant he])

theorem add_lighter {ts ds : List Expr} (h : List.Forall₂ (Lighter bounds) ts ds) :
    Lighter bounds (.add ts) (.add ds) ∧
      (Keeps bounds (.add ts) (.add ds) → List.Forall₂ (Keeps bounds) ts ds) := by
  obtain ⟨hle, htight⟩ := termWeights_lighter h
  have hweight : weight bounds (.add ds) ≤ weight bounds (.add ts) := by
    rw [weight_add, weight_add]
    omega
  refine ⟨⟨hweight, hle, fun hc => by cases hc⟩, ?_⟩
  rintro (hkeeps | hkeeps)
  · rw [weight_add, weight_add] at hkeeps
    exact htight (by omega)
  · exact htight hkeeps

theorem mul_lighter {fs ds : List Expr} (h : List.Forall₂ (Lighter bounds) fs ds) :
    Lighter bounds (.mul fs) (.mul ds) ∧
      (Keeps bounds (.mul fs) (.mul ds) → List.Forall₂ (Keeps bounds) fs ds) := by
  obtain ⟨hweights, htight⟩ := weights_lighter h
  have hterm : termWeight bounds (.mul ds) ≤ termWeight bounds (.mul fs) ∧
      (termWeight bounds (.mul fs) ≤ termWeight bounds (.mul ds) →
        List.Forall₂ (Keeps bounds) fs ds) := by
    rcases termWeight_mul bounds fs with ⟨c, gs, rfl, hfs⟩ | hfs
    · -- A leading coefficient stays.
      cases h with
      | cons hc hgs =>
        obtain rfl := hc.constant rfl
        obtain ⟨hle, htight'⟩ := weights_lighter hgs
        rw [hfs, termWeight_mul_constant]
        exact ⟨by omega, fun hkeeps =>
          .cons (keeps_of_isConstant hc rfl) (htight' (by omega))⟩
    · have hle := termWeight_le_weight bounds (.mul ds)
      rw [weight_mul] at hle
      exact ⟨by omega, fun hkeeps => htight (by omega)⟩
  refine ⟨⟨by rw [weight_mul, weight_mul]; exact hweights, hterm.1, fun hc => by cases hc⟩, ?_⟩
  rintro (hkeeps | hkeeps)
  · rw [weight_mul, weight_mul] at hkeeps
    exact htight hkeeps
  · exact hterm.2 hkeeps

theorem pow_lighter {b b' e e' : Expr} (hb : Lighter bounds b b') (he : Lighter bounds e e') :
    weight bounds (.pow b' e') ≤ weight bounds (.pow b e) ∧
      (weight bounds (.pow b e) ≤ weight bounds (.pow b' e') →
        Keeps bounds b b' ∧ Keeps bounds e e') := by
  have hbw := hb.weight_le
  have het := he.termWeight_le
  rcases weight_pow_cases bounds b e with ⟨n, rfl, hn, hweight⟩ | ⟨c, q, rfl, rfl, -, -⟩ | ⟨-, -, hweight⟩
  · obtain rfl := he.constant rfl
    rw [hweight, weight_pow_integer bounds hn]
    exact ⟨by omega, fun hkeeps => ⟨.inl (by omega), keeps_of_isConstant he rfl⟩⟩
  · obtain rfl := hb.constant rfl
    obtain rfl := he.constant rfl
    exact ⟨Nat.le_refl _, fun _ => ⟨keeps_of_isConstant hb rfl, keeps_of_isConstant he rfl⟩⟩
  · have hle := weight_pow_le bounds b' e'
    exact ⟨by omega, fun hkeeps => ⟨.inl (by omega), .inr (by omega)⟩⟩

/-- A node whose weights are one apart is lighter, and keeps its weight, if it keeps one of the two. -/
theorem lighter_of_apart {e d : Expr} (he : termWeight bounds e = 1 + weight bounds e)
    (hd : termWeight bounds d = 1 + weight bounds d) (hconstant : e.isConstant = false)
    (hle : weight bounds d ≤ weight bounds e) :
    Lighter bounds e d ∧ (Keeps bounds e d → weight bounds e ≤ weight bounds d) := by
  refine ⟨⟨hle, by omega, fun hc => by rw [hconstant] at hc; cases hc⟩, ?_⟩
  rintro (hkeeps | hkeeps) <;> omega

/-- A node over lighter children is lighter, and if it keeps one of its weights, all children
keep one of theirs. -/
theorem withChildren_lighter {e : Expr} {ds : List Expr}
    (h : List.Forall₂ (Lighter bounds) e.children ds) :
    Lighter bounds e (e.withChildren ds) ∧
      (Keeps bounds e (e.withChildren ds) → List.Forall₂ (Keeps bounds) e.children ds) := by
  cases e with
  | constant c =>
    cases h
    exact ⟨Lighter.refl _, fun _ => .nil⟩
  | symbol name =>
    cases h
    exact ⟨Lighter.refl _, fun _ => .nil⟩
  | add ts => exact add_lighter h
  | mul fs => exact mul_lighter h
  | pow b e =>
    obtain ⟨b', es', hb, hes, rfl⟩ := List.forall₂_cons_left_iff.mp h
    obtain ⟨e', es'', he, hnil, rfl⟩ := List.forall₂_cons_left_iff.mp hes
    cases hnil
    obtain ⟨hle, htight⟩ := pow_lighter hb he
    obtain ⟨hlighter, hweight⟩ := lighter_of_apart (termWeight_pow bounds b e)
      (termWeight_pow bounds b' e') rfl hle
    refine ⟨hlighter, fun hkeeps => ?_⟩
    obtain ⟨hkb, hke⟩ := htight (hweight hkeeps)
    exact .cons hkb (.cons hke .nil)
  | function f arguments =>
    obtain ⟨hle, htight⟩ := weights_lighter h
    obtain ⟨hlighter, hweight⟩ := lighter_of_apart (termWeight_function bounds f arguments)
      (termWeight_function bounds f ds) rfl (Nat.add_le_add_left hle 1)
    exact ⟨hlighter, fun hkeeps => htight (Nat.add_le_add_iff_left.mp (hweight hkeeps))⟩

end ClosedForm.Canonical
