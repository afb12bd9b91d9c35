import ClosedForm.Proofs.Symbols
import ClosedForm.Proofs.Text.Sources

/-!
# The symbols of a text

The symbols of an expression that a text states are names of the text, and neither a function's name
nor that of the imaginary unit: they are `Legible` (`Formula.over_of_read`).
-/

namespace ClosedForm

open ClosedForm.Expr

/-- The text is a word that spells a name. -/
def Token.IsName (text : String) : Prop :=
  ∃ c rest, text.toList = c :: rest ∧ startsName c = true ∧ ∀ d ∈ rest, continuesName d = true

/-- A name that stands for a symbol wherever it is read. -/
structure Legible (name : String) : Prop where
  isName : Token.IsName name
  not_function : Formula.isFunctionName name = false
  not_unit : name ≠ Formula.imaginaryUnitName

namespace Formula

variable {p : String → Prop} {f g : Formula} {fs : List Formula}

/-! ## Formulas -/

/-- What the formula states has symbols with the property only. -/
def StatesOver (p : String → Prop) (f : Formula) : Prop :=
  ∀ e, f.lower = .ok e → e.Over p

/-- What the formulas state has symbols with the property only. -/
def AllStateOver (p : String → Prop) (fs : List Formula) : Prop :=
  ∀ es, lowerList fs = .ok es → ∀ e ∈ es, e.Over p

theorem allStateOver_nil : AllStateOver p [] := by
  intro es hes
  cases hes
  simp

theorem AllStateOver.cons (h : f.StatesOver p) (hs : AllStateOver p fs) :
    AllStateOver p (f :: fs) := by
  intro es hes
  rw [lowerList] at hes
  obtain ⟨e, he, hes⟩ := bind_eq_ok.mp hes
  obtain ⟨rest, hrest, hes⟩ := bind_eq_ok.mp hes
  cases hes
  simpa using ⟨h e he, hs rest hrest⟩

theorem statesOver_number (q : Rat) : (number q).StatesOver p := by
  intro e he
  rw [lower] at he
  cases he
  exact over_constant q

theorem statesOver_name {text : String} (h : text ≠ imaginaryUnitName → p text) :
    (name text).StatesOver p := by
  intro e he
  rw [lower] at he
  cases he
  split
  · exact over_imaginaryUnit
  · next hunit => exact over_symbol.mpr (h (by simpa using hunit))

theorem StatesOver.of_bind {step : Expr → Expr} (h : f.StatesOver p)
    (hstep : ∀ e, e.Over p → (step e).Over p)
    (hlower : g.lower = f.lower >>= fun e => .ok (step e)) : g.StatesOver p := by
  intro e he
  rw [hlower] at he
  obtain ⟨e', he', he⟩ := bind_eq_ok.mp he
  cases he
  exact hstep e' (h e' he')

theorem over_neg {e : Expr} (h : e.Over p) : e.neg.Over p := by
  simpa [Expr.neg] using h

theorem StatesOver.negative (h : f.StatesOver p) : (negative f).StatesOver p := by
  by_cases hnumber : ∃ q, f = number q
  · obtain ⟨q, rfl⟩ := hnumber
    intro e he
    cases he
    exact over_constant _
  · refine h.of_bind (fun e => over_neg) ?_
    rw [lower]
    exact fun q hq => hnumber ⟨q, hq⟩

theorem StatesOver.subtracted (h : f.StatesOver p) : (subtracted f).StatesOver p :=
  h.of_bind (fun e => over_neg) (by rw [lower])

theorem over_inverse {e : Expr} (h : e.Over p) : e.inverse.Over p := by
  simpa [inverse] using h

theorem StatesOver.divisor (h : f.StatesOver p) : (divisor f).StatesOver p :=
  h.of_bind (fun e => over_inverse) (by rw [lower])

theorem StatesOver.power (h : f.StatesOver p) (h' : g.StatesOver p) : (power f g).StatesOver p := by
  intro e he
  rw [lower] at he
  obtain ⟨b, hb, he⟩ := bind_eq_ok.mp he
  obtain ⟨x, hx, he⟩ := bind_eq_ok.mp he
  cases he
  exact over_pow.mpr ⟨h b hb, h' x hx⟩

theorem AllStateOver.sum (h : AllStateOver p fs) : (sum fs).StatesOver p := by
  intro e he
  rw [lower] at he
  obtain ⟨es, hes, he⟩ := bind_eq_ok.mp he
  cases he
  exact over_sum (h es hes)

theorem AllStateOver.product (h : AllStateOver p fs) : (product fs).StatesOver p := by
  intro e he
  rw [lower] at he
  obtain ⟨es, hes, he⟩ := bind_eq_ok.mp he
  cases he
  exact over_product (h es hes)

theorem statesOver_chain {wrap : List Formula → Formula} (h : f.StatesOver p)
    (hs : AllStateOver p fs) (hwrap : ∀ gs, AllStateOver p gs → (wrap gs).StatesOver p) :
    (chain wrap f fs).StatesOver p := by
  cases fs with
  | nil => exact h
  | cons => exact hwrap _ (.cons h hs)

theorem AllStateOver.call (h : AllStateOver p fs) (offset : Nat) (function : String) :
    (call offset function fs).StatesOver p := by
  intro e he
  rw [lower] at he
  obtain ⟨es, hes, he⟩ := bind_eq_ok.mp he
  have hover := h es hes
  unfold lowerCall at he
  split at he
  · split at he
    · cases he
      simpa using hover
    · cases he
  · split at he
    · split at he
      · cases he
        exact over_function.mpr hover
      · cases he
    · cases he

end Formula

/-! ## Texts -/

/-- The names among the tokens of a text are words of it. -/
theorem Token.Spells.isName {start offset : Nat} {text : List Char} {lexemes : List Lexeme}
    {name : String} (h : Spells start text lexemes) (hname : ⟨offset, .name name⟩ ∈ lexemes) :
    IsName name := by
  induction h with
  | nil => cases hname
  | blank _ _ ih => exact ih hname
  | @token offset word rest token lexemes hword _ ih =>
    rcases List.mem_cons.mp hname with heq | hname
    · cases heq
      obtain ⟨rfl, c, rest, rfl, hc, hrest⟩ := hword.spelled.name_inv
      exact ⟨c, rest, String.toList_ofList, hc, hrest⟩
    · exact ih hname

namespace Derivation

open Formula

/-- The formula, or all those of a chain, state expressions over the property. -/
def Rule.StatesOver (p : String → Prop) : (rule : Rule) → rule.Value → Prop
  | .sum, f | .product, f | .signed, f | .power _, f | .atom _, f => Formula.StatesOver p f
  | .terms, fs | .factors, fs | .arguments, fs | .moreArguments, fs => AllStateOver p fs

theorem statesOver_term {p : String → Prop} (sign : Sign) {f : Formula} (h : f.StatesOver p) :
    (sign.term f).StatesOver p := by
  cases sign
  · exact h
  · exact h.subtracted

theorem statesOver_operand {p : String → Prop} (sign : Sign) {f : Formula} (h : f.StatesOver p) :
    (sign.operand f).StatesOver p := by
  cases sign
  · exact h
  · exact h.negative

theorem statesOver_factor {p : String → Prop} (join : Join) {f : Formula} (h : f.StatesOver p) :
    (join.factor f).StatesOver p := by
  cases join
  · exact h
  · exact h.divisor

/-- The token is no name, or one that stands for a symbol with the property. -/
def Brings (p : String → Prop) : Token → Prop
  | .name text => isFunctionName text = false → text ≠ imaginaryUnitName → p text
  | _ => True

/-- What a derivation states has symbols that its tokens bring. -/
theorem statesOver {p : String → Prop} {rule : Rule} (d : Derivation rule)
    (h : ∀ lexeme ∈ d.lexemes, Brings p lexeme.token) : Rule.StatesOver p rule d.value := by
  induction d with
  | unsigned _ ih | power _ ih => exact ih h
  | number offset q => exact statesOver_number q
  | name offset text hname => exact statesOver_name (h ⟨offset, .name text⟩ (by simp [lexemes]) hname)
  | noTerms | noFactors | noArguments | noMoreArguments => exact allStateOver_nil
  | sum first rest ihFirst ihRest =>
    rw [lexemes, List.forall_mem_append] at h
    exact statesOver_chain (ihFirst h.1) (ihRest h.2) fun _ => AllStateOver.sum
  | term offset sign first rest ihFirst ihRest =>
    rw [lexemes, List.forall_mem_cons, List.forall_mem_append] at h
    exact .cons (statesOver_term sign (ihFirst h.2.1)) (ihRest h.2.2)
  | product first rest ihFirst ihRest =>
    rw [lexemes, List.forall_mem_append] at h
    exact statesOver_chain (ihFirst h.1) (ihRest h.2) fun _ => AllStateOver.product
  | factor offset join first rest ihFirst ihRest =>
    rw [lexemes, List.forall_mem_cons, List.forall_mem_append] at h
    exact .cons (statesOver_factor join (ihFirst h.2.1)) (ihRest h.2.2)
  | juxtaposed first rest ihFirst ihRest | arguments first rest ihFirst ihRest =>
    rw [lexemes, List.forall_mem_append] at h
    exact .cons (ihFirst h.1) (ihRest h.2)
  | signed offset sign operand ih =>
    rw [lexemes, List.forall_mem_cons] at h
    exact statesOver_operand sign (ih h.2)
  | raised base offset exponent ihBase ihExponent =>
    rw [lexemes, List.forall_mem_append, List.forall_mem_cons] at h
    exact (ihBase h.1).power (ihExponent h.2.2)
  | call offset function hfunction opening args closing ih =>
    rw [lexemes, List.forall_mem_cons, List.forall_mem_cons, List.forall_mem_append] at h
    exact (ih h.2.2.1).call offset function
  | bracketed opening inner closing ih =>
    rw [lexemes, List.forall_mem_cons, List.forall_mem_append] at h
    exact ih h.2.1
  | moreArguments offset first rest ihFirst ihRest =>
    rw [lexemes, List.forall_mem_cons, List.forall_mem_append] at h
    exact .cons (ihFirst h.2.1) (ihRest h.2.2)

end Derivation

/-- What a text states has legible symbols. -/
theorem Formula.over_of_read {text : String} {e : Expr} (h : Formula.read text = .ok e) :
    e.Over Legible := by
  obtain ⟨d, hd, hlower⟩ := read_eq_ok.mp h
  have hover : Derivation.Rule.StatesOver Legible .sum d.value := by
    refine d.statesOver fun lexeme hlexeme => ?_
    obtain ⟨offset, _ | text | _⟩ := lexeme
    · trivial
    · exact fun hfunction hunit => ⟨hd.isName hlexeme, hfunction, hunit⟩
    · trivial
  exact hover e hlower

end ClosedForm
