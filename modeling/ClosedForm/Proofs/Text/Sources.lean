import ClosedForm.Proofs.Reachable
import ClosedForm.Proofs.Results
import ClosedForm.Proofs.Text.Parsing
import ClosedForm.Proofs.Text.Words
import Mathlib

/-!
# The texts that are read

A text is read exactly if it spells the tokens of a derivation in which every call has one argument
(`Session.parse_iff_derivable`). There is no other derivation of the text then, and the handle stands
for the expression that the formula of the derivation states.
-/

namespace ClosedForm

open Formula

namespace Derivation

/-- The text spells the tokens of the derivation. -/
def SpelledBy (d : Derivation .sum) (text : String) : Prop :=
  Token.Spells 0 text.toList d.lexemes

/-- Every call has exactly one argument. -/
def Unary : {rule : Rule} → Derivation rule → Prop
  | _, sum first rest => first.Unary ∧ rest.Unary
  | _, noTerms => True
  | _, term _ _ first rest => first.Unary ∧ rest.Unary
  | _, product first rest => first.Unary ∧ rest.Unary
  | _, noFactors => True
  | _, factor _ _ first rest => first.Unary ∧ rest.Unary
  | _, juxtaposed first rest => first.Unary ∧ rest.Unary
  | _, signed _ _ operand => operand.Unary
  | _, unsigned operand => operand.Unary
  | _, power base => base.Unary
  | _, raised base _ exponent => base.Unary ∧ exponent.Unary
  | _, number _ _ => True
  | _, name _ _ _ => True
  | _, call _ _ _ _ args _ => args.Unary ∧ ∃ argument : Formula, args.value = [argument]
  | _, bracketed _ inner _ => inner.Unary
  | _, noArguments => True
  | _, arguments first rest => first.Unary ∧ rest.Unary
  | _, noMoreArguments => True
  | _, moreArguments _ first rest => first.Unary ∧ rest.Unary

@[simp] theorem known_sign (sign : Sign) : sign.mark.Known := by
  cases sign <;> simp [Sign.mark, Token.marks]

@[simp] theorem known_join (join : Join) : join.mark.Known := by
  cases join <;> simp [Join.mark, Token.marks]

/-- The tokens of a derivation all stand for something. -/
theorem known_of_mem_lexemes {rule : Rule} (d : Derivation rule) :
    ∀ lexeme ∈ d.lexemes, lexeme.token.Known := by
  have hmarks : '^' ∈ Token.marks ∧ '(' ∈ Token.marks ∧ ')' ∈ Token.marks ∧ ',' ∈ Token.marks := by
    decide
  induction d <;>
    simp_all only [lexemes, List.forall_mem_append, List.forall_mem_cons, List.not_mem_nil,
      known_sign, known_join, Token.known_number, Token.known_name, Token.known_mark,
      IsEmpty.forall_iff, implies_true, and_self]

/-- The derivation of a text, if there is one, has the tokens of its scan. -/
theorem spelledBy_iff {d : Derivation .sum} {text : String} :
    d.SpelledBy text ↔ Token.scan text.toList = d.lexemes := by
  rw [SpelledBy, Token.spells_iff]
  exact ⟨And.left, fun h => ⟨h, d.known_of_mem_lexemes⟩⟩

end Derivation

/-! ## What states an expression -/

namespace Formula

/-- The formula states an expression. -/
def Stated (f : Formula) : Prop :=
  ∃ e, f.lower = .ok e

/-- All the formulas state expressions. -/
def AllStated (fs : List Formula) : Prop :=
  ∃ es, lowerList fs = .ok es

theorem exists_bind_ok {α β : Type} {result : Except Error α} {next : α → Except Error β} :
    (∃ b, (result >>= next) = .ok b) ↔ ∃ a, result = .ok a ∧ ∃ b, next a = .ok b := by
  simp only [bind_eq_ok]
  exact exists_comm.trans (exists_congr fun a => exists_and_left)

@[simp] theorem allStated_nil : AllStated [] :=
  ⟨[], rfl⟩

@[simp] theorem allStated_cons (f : Formula) (fs : List Formula) :
    AllStated (f :: fs) ↔ f.Stated ∧ AllStated fs := by
  simp [AllStated, Stated, lowerList, exists_bind_ok]

@[simp] theorem stated_number (value : Rat) : (number value).Stated := by
  simp [Stated, lower]

@[simp] theorem stated_name (text : String) : (name text).Stated := by
  simp [Stated, lower]

@[simp] theorem stated_sum (fs : List Formula) : (sum fs).Stated ↔ AllStated fs := by
  simp [Stated, AllStated, lower, exists_bind_ok]

@[simp] theorem stated_product (fs : List Formula) : (product fs).Stated ↔ AllStated fs := by
  simp [Stated, AllStated, lower, exists_bind_ok]

@[simp] theorem stated_subtracted (f : Formula) : (subtracted f).Stated ↔ f.Stated := by
  simp [Stated, lower, exists_bind_ok]

@[simp] theorem stated_divisor (f : Formula) : (divisor f).Stated ↔ f.Stated := by
  simp [Stated, lower, exists_bind_ok]

@[simp] theorem stated_negative (f : Formula) : (negative f).Stated ↔ f.Stated := by
  cases f <;> simp [Stated, lower, exists_bind_ok]

@[simp] theorem stated_power (b x : Formula) : (power b x).Stated ↔ b.Stated ∧ x.Stated := by
  simp [Stated, lower, exists_bind_ok]

theorem arity_of_ofName? {name : String} {f : Func} (h : Func.ofName? name = some f) :
    f.arity = 1 := by
  unfold Func.ofName? at h
  split at h <;> cases h <;> rfl

theorem length_of_lowerList {fs : List Formula} {es : List Expr} (h : lowerList fs = .ok es) :
    es.length = fs.length := by
  induction fs generalizing es with
  | nil =>
    cases h
    rfl
  | cons f fs ih =>
    rw [lowerList, bind_eq_ok] at h
    obtain ⟨e, -, h⟩ := h
    obtain ⟨rest, hrest, h⟩ := bind_eq_ok.mp h
    cases h
    simp [ih hrest]

/-- A call states an expression if its arguments do and there is one of them. -/
theorem stated_call {function : String} (hfunction : isFunctionName function = true) (offset : Nat)
    (fs : List Formula) :
    (call offset function fs).Stated ↔ AllStated fs ∧ ∃ f, fs = [f] := by
  have hlower : (call offset function fs).Stated ↔
      ∃ es, lowerList fs = .ok es ∧ ∃ e, lowerCall offset function es = .ok e := by
    simp [Stated, lower, exists_bind_ok]
  have hcall (es : List Expr) :
      (∃ e, lowerCall offset function es = .ok e) ↔ es.length = 1 := by
    unfold lowerCall
    unfold isFunctionName at hfunction
    split
    · match es with
      | [] => simp
      | [_] => simp
      | _ :: _ :: _ => simp
    · next hroot =>
      obtain ⟨head, hhead⟩ : ∃ head, Func.ofName? function = some head :=
        Option.isSome_iff_exists.mp (by simpa [hroot] using hfunction)
      rw [hhead]
      dsimp only
      rw [arity_of_ofName? hhead]
      split <;> simp [*]
  rw [hlower]
  constructor
  · rintro ⟨es, hes, h⟩
    rw [hcall, length_of_lowerList hes] at h
    exact ⟨⟨es, hes⟩, List.length_eq_one_iff.mp h⟩
  · rintro ⟨⟨es, hes⟩, h⟩
    rw [← List.length_eq_one_iff, ← length_of_lowerList hes] at h
    exact ⟨es, hes, (hcall es).mpr h⟩

@[simp] theorem stated_chain_sum (f : Formula) (fs : List Formula) :
    (chain .sum f fs).Stated ↔ f.Stated ∧ AllStated fs := by
  cases fs <;> simp [chain]

@[simp] theorem stated_chain_product (f : Formula) (fs : List Formula) :
    (chain .product f fs).Stated ↔ f.Stated ∧ AllStated fs := by
  cases fs <;> simp [chain]

end Formula

namespace Derivation

/-- A single formula states an expression, or those of a chain do. -/
def Rule.Stated : (rule : Rule) → rule.Value → Prop
  | .sum, f | .product, f | .signed, f | .power _, f | .atom _, f => Formula.Stated f
  | .terms, fs | .factors, fs | .arguments, fs | .moreArguments, fs => AllStated fs

@[simp] theorem stated_term (sign : Sign) (f : Formula) : (sign.term f).Stated ↔ f.Stated := by
  cases sign <;> simp [Sign.term]

@[simp] theorem stated_operand (sign : Sign) (f : Formula) : (sign.operand f).Stated ↔ f.Stated := by
  cases sign <;> simp [Sign.operand]

@[simp] theorem stated_factor (join : Join) (f : Formula) : (join.factor f).Stated ↔ f.Stated := by
  cases join <;> simp [Join.factor]

/-- The formulas of a derivation state expressions exactly if every call has one argument. -/
theorem stated_iff_unary {rule : Rule} (d : Derivation rule) :
    Rule.Stated rule d.value ↔ d.Unary := by
  induction d with
  | call offset function h opening args closing ih =>
    simp only [Rule.Stated, value, Unary] at ih ⊢
    rw [stated_call h, ih]
  | _ => simp_all [Rule.Stated, value, Unary]

end Derivation

/-- A text states the expression of its derivation. -/
theorem Formula.read_eq_ok {text : String} {e : Expr} :
    Formula.read text = .ok e ↔
      ∃ d : Derivation .sum, d.SpelledBy text ∧ Formula.lower d.value = .ok e := by
  simp only [Formula.read, bind_eq_ok, parse_eq_ok, Derivation.spelledBy_iff]
  constructor
  · rintro ⟨-, ⟨d, hd, rfl⟩, h⟩
    exact ⟨d, hd, h⟩
  · rintro ⟨d, hd, h⟩
    exact ⟨_, ⟨d, hd, rfl⟩, h⟩

/-- A text has one derivation at most. -/
theorem Derivation.SpelledBy.unique {d e : Derivation .sum} {text : String} (hd : d.SpelledBy text)
    (he : e.SpelledBy text) : d = e :=
  Derivation.lexemes_injective
    ((Derivation.spelledBy_iff.mp hd).symm.trans (Derivation.spelledBy_iff.mp he))

namespace Session

/-- A text is read exactly if it has a derivation in which every call has one argument. A text has
one derivation at most, and the handle that it is read to stands for the expression that the formula
of the derivation states. -/
theorem parse_iff_derivable {bounds : Bounds} {session : Session}
    (hsession : session.Reachable bounds) (text : String) :
    ((∃ handle, (session.answer (parse text)).1 = .ok handle) ↔
        ∃ d : Derivation .sum, d.SpelledBy text ∧ d.Unary) ∧
      (∀ d e : Derivation .sum, d.SpelledBy text → e.SpelledBy text → d = e) ∧
      ∀ (d : Derivation .sum) (handle : Handle), d.SpelledBy text →
        (session.answer (parse text)).1 = .ok handle →
          Formula.lower d.value = .ok ((session.after (.parse text)).pool.expr handle) := by
  obtain ⟨-, -, hspec⟩ := Pool.parse_spec text session.pool hsession.consistent.pool
  -- The session reads the text as the pool does.
  have hread {handle : Handle} (h : (session.answer (parse text)).1 = .ok handle) :
      Formula.read text = .ok ((session.after (.parse text)).pool.expr handle) := by
    cases hresult : Formula.read text with
    | error x =>
      rw [hresult] at hspec
      cases hspec.symm.trans h
    | ok e =>
      rw [hresult] at hspec
      obtain ⟨other, hother, hstands⟩ := hspec
      cases hother.symm.trans h
      exact congrArg Except.ok hstands.2.symm
  refine ⟨⟨fun ⟨handle, h⟩ => ?_, fun ⟨d, hd, hunary⟩ => ?_⟩, fun d e hd he => hd.unique he,
    fun d handle hd h => ?_⟩
  · obtain ⟨d, hd, hlower⟩ := Formula.read_eq_ok.mp (hread h)
    exact ⟨d, hd, d.stated_iff_unary.mp ⟨_, hlower⟩⟩
  · obtain ⟨e, he⟩ := d.stated_iff_unary.mpr hunary
    rw [Formula.read_eq_ok.mpr ⟨d, hd, he⟩] at hspec
    obtain ⟨handle, hhandle, -⟩ := hspec
    exact ⟨handle, hhandle⟩
  · obtain ⟨e, he, hlower⟩ := Formula.read_eq_ok.mp (hread h)
    rwa [hd.unique he]

/-- `-2x^y^2 / sin(.5)` is read in a new session, with its one derivation. -/
theorem parse_derivable_text :
    ∃ d : Derivation .sum, d.SpelledBy "-2x^y^2 / sin(.5)" ∧ d.Unary ∧
      (∀ e : Derivation .sum, e.SpelledBy "-2x^y^2 / sin(.5)" → d = e) ∧
      Formula.lower d.value = .ok (.mul [.constant (-2),
        .pow (.symbol "x") (.pow (.symbol "y") (.constant 2)),
        .pow (.call .sin (.constant (1 / 2))) (.constant (-1))]) := by
  have hread : Formula.read "-2x^y^2 / sin(.5)" = .ok (.mul [.constant (-2),
      .pow (.symbol "x") (.pow (.symbol "y") (.constant 2)),
      .pow (.call .sin (.constant (1 / 2))) (.constant (-1))]) := by
    cbv
  obtain ⟨handle, hhandle, hstands⟩ := parse_spec (new_consistent {}) hread
  obtain ⟨hiff, hunique, hvalue⟩ := @parse_iff_derivable {} _ .new "-2x^y^2 / sin(.5)"
  obtain ⟨d, hd, hunary⟩ := hiff.mp ⟨handle, hhandle⟩
  have hlower := hvalue d handle hd hhandle
  rw [hstands.2] at hlower
  exact ⟨d, hd, hunary, fun e => hunique d e hd, hlower⟩

end Session

end ClosedForm
