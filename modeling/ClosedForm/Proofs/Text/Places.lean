import ClosedForm.Expr.Render
import ClosedForm.Proofs.Text.Writing

/-!
# Texts at their level

`Stands level text p` says that the text, where one of the binding level can stand, is read as a formula
with the property `p`. A text that binds tighter can stand there too (`Stands.mono`). There is one lemma
for each way to put such texts together, and for what the formulas that are read this way state.
-/

namespace ClosedForm

open Token

/-- Where a text of this level can stand, the text is read as a formula with the property. -/
def Stands (level : Level) (text : List Char) (p : Formula → Prop) : Prop :=
  match level with
  | .sum => Writes .sum text p
  | .product => Writes .product text p
  | .negation => Writes .signed text p
  | .power => ∃ lead, Writes (.power lead) text p
  | .atom => ∃ lead, Writes (.atom lead) text p

namespace Stands

variable {level demanded : Level} {text rest : List Char} {p q : Formula → Prop}

theorem imp (h : Stands level text p) (hpq : ∀ f, p f → q f) : Stands level text q := by
  cases level with
  | sum | product | negation => exact Writes.mono h hpq
  | power | atom =>
    obtain ⟨lead, h⟩ := h
    exact ⟨lead, h.mono hpq⟩

theorem power_of_atom (h : Stands .atom text p) : Stands .power text p := by
  obtain ⟨lead, h⟩ := h
  exact ⟨lead, h.power⟩

theorem negation_of_power (h : Stands .power text p) : Stands .negation text p := by
  obtain ⟨lead, h⟩ := h
  exact h.unsigned

theorem product_of_negation (h : Stands .negation text p) : Stands .product text p := by
  have hproduct := Writes.product (p := p) h .noFactors apart_nil
  rw [List.append_nil] at hproduct
  refine hproduct.mono ?_
  rintro _ ⟨f, _, hf, rfl, rfl⟩
  exact hf

theorem sum_of_product (h : Stands .product text p) : Stands .sum text p := by
  have hsum := Writes.sum (p := p) h .noTerms apart_nil
  rw [List.append_nil] at hsum
  refine hsum.mono ?_
  rintro _ ⟨f, _, hf, rfl, rfl⟩
  exact hf

/-- A text can stand where one that binds less is demanded. -/
theorem mono (h : Stands level text p) (hle : demanded.rank ≤ level.rank) :
    Stands demanded text p := by
  have hpower (h : Stands .power text p) : ∀ demanded : Level, demanded.rank ≤ 4 →
      Stands demanded text p
    | .sum, _ => h.negation_of_power.product_of_negation.sum_of_product
    | .product, _ => h.negation_of_power.product_of_negation
    | .negation, _ => h.negation_of_power
    | .power, _ => h
    | .atom, hle => absurd hle (by decide)
  cases level with
  | atom =>
    cases demanded with
    | atom => exact h
    | _ => exact hpower h.power_of_atom _ (by decide)
  | power => exact hpower h demanded hle
  | negation =>
    cases demanded with
    | sum => exact h.product_of_negation.sum_of_product
    | product => exact h.product_of_negation
    | negation => exact h
    | _ => exact absurd hle (by decide)
  | product =>
    cases demanded with
    | sum => exact h.sum_of_product
    | product => exact h
    | _ => exact absurd hle (by decide)
  | sum =>
    cases demanded with
    | sum => exact h
    | _ => exact absurd hle (by decide)

theorem sum (h : Stands level text p) : Stands .sum text p :=
  h.mono (by cases level <;> decide)

/-! ## Texts put together -/

theorem number (n : Nat) : Stands .atom n.repr.toList fun f => f = .number n :=
  ⟨.number, .number n⟩

theorem name {c : Char} (hc : startsName c = true) (hrest : ∀ d ∈ rest, continuesName d = true)
    (h : Formula.isFunctionName (String.ofList (c :: rest)) = false) :
    Stands .atom (c :: rest) fun f => f = .name (String.ofList (c :: rest)) :=
  ⟨.other, .name hc hrest h⟩

theorem bracketed (h : Stands .sum text p) : Stands .atom ('(' :: (text ++ [')'])) p :=
  ⟨.other, Writes.bracketed (p := p) h⟩

theorem negative (h : Stands .negation text p) :
    Stands .negation ('-' :: text) fun f => ∃ g, p g ∧ f = .negative g :=
  Writes.minus (p := p) h

theorem raised (h : Stands .atom text p) (h' : Stands .power rest q) :
    Stands .power (text ++ '^' :: rest) fun f => ∃ b x, p b ∧ q x ∧ f = .power b x := by
  obtain ⟨lead, h⟩ := h
  exact ⟨lead, h.raised (q := q) h'.negation_of_power⟩

theorem squareRoot (h : Stands .sum text p) :
    Stands .atom ("sqrt".toList ++ '(' :: (text ++ [')'])) fun f =>
      ∃ offset a, p a ∧ f = .call offset Formula.squareRootName [a] := by
  have hfirst : startsName 's' = true := by decide
  have htail : ∀ d ∈ ['q', 'r', 't'], continuesName d = true := List.all_eq_true.mp (by decide)
  exact ⟨.other, Writes.call (p := p) hfirst htail (by decide) h⟩

theorem call {f : Func} (hunit : f ≠ .imaginaryUnit) (h : Stands .sum text p) :
    Stands .atom (f.name.toList ++ '(' :: (text ++ [')'])) fun g =>
      ∃ offset function a, p a ∧ function ≠ Formula.squareRootName ∧
        Func.ofName? function = some f ∧ g = .call offset function [a] := by
  obtain ⟨first, tail, hname, hfirst, htail, hfunction, hroot, hhead⟩ :
      ∃ first tail, f.name.toList = first :: tail ∧ startsName first = true ∧
        tail.all continuesName = true ∧
        Formula.isFunctionName (String.ofList (first :: tail)) = true ∧
        String.ofList (first :: tail) ≠ Formula.squareRootName ∧
        Func.ofName? (String.ofList (first :: tail)) = some f := by
    cases f with
    | imaginaryUnit => exact absurd rfl hunit
    | _ => exact ⟨_, _, rfl, by decide, by decide, by decide, by decide, by decide⟩
  rw [hname]
  refine ⟨.other, (Writes.call (p := p) hfirst (List.all_eq_true.mp htail) hfunction h).mono ?_⟩
  rintro _ ⟨offset, a, ha, rfl⟩
  exact ⟨offset, _, a, ha, hroot, hhead, rfl⟩

end Stands

/-! ## What formulas state -/

namespace Formula

theorem lower_negative {f : Formula} (h : ∀ q, f ≠ number q) {e : Expr} (he : f.lower = .ok e) :
    (negative f).lower = .ok e.neg := by
  rw [lower, he]
  · rfl
  · exact h

theorem lower_squareRoot {f : Formula} {e : Expr} (offset : Nat) (h : f.lower = .ok e) :
    (call offset squareRootName [f]).lower = .ok (.pow e (.constant Layout.half)) := by
  rw [lower, lowerList, lowerList, h]
  rfl

theorem lower_call {f : Formula} {function : String} {head : Func} {e : Expr} (offset : Nat)
    (hroot : function ≠ squareRootName) (hhead : Func.ofName? function = some head)
    (h : f.lower = .ok e) : (call offset function [f]).lower = .ok (.call head e) := by
  rw [lower, lowerList, lowerList, h]
  show lowerCall offset function [e] = _
  unfold lowerCall
  rw [if_neg (by simpa using hroot), hhead]
  dsimp only
  rw [if_pos]
  · rfl
  · unfold Func.ofName? at hhead
    split at hhead <;> cases hhead <;> rfl

/-- Formulas that state something related to these expressions state it together. -/
theorem exists_lowerList {R : Expr → Expr → Prop} {fs : List Formula} {cs : List Expr}
    (h : List.Forall₂ (fun f c => ∃ e, f.lower = .ok e ∧ R e c) fs cs) :
    ∃ es, lowerList fs = .ok es ∧ List.Forall₂ R es cs := by
  induction h with
  | nil => exact ⟨[], by rw [lowerList], .nil⟩
  | cons h _ ih =>
    obtain ⟨e, hlower, he⟩ := h
    obtain ⟨es, hlowers, hes⟩ := ih
    exact ⟨e :: es, by rw [lowerList, hlower, hlowers]; rfl, .cons he hes⟩

end Formula

end ClosedForm
