import ClosedForm.Proofs.Text.Grammar
import ClosedForm.Proofs.Text.Words

/-!
# Texts that are put together

`Writes rule text p` says that, wherever the text stands, it spells the tokens of a derivation by the
rule whose value has the property `p`. What follows must not carry the text's last word on
(`Apart`). There is one lemma for each way to put texts together: numbers and names, brackets and
calls, powers, signs, factors and terms.
-/

namespace ClosedForm

namespace Token

/-! ## Words in a text -/

/-- The text does not carry on a word that stands in front of it. -/
def Apart (text : List Char) : Prop :=
  ∀ c ∈ text.head?, continuesName c = false ∧ c ≠ '.'

@[simp] theorem apart_nil : Apart [] := by
  simp [Apart]

@[simp] theorem apart_cons {c : Char} {rest : List Char} :
    Apart (c :: rest) ↔ continuesName c = false ∧ c ≠ '.' := by
  simp [Apart]

theorem Apart.append {text rest : List Char} (h : Apart text) (hrest : Apart rest) :
    Apart (text ++ rest) := by
  cases text with
  | nil => exact hrest
  | cons c text => exact h

theorem apart_of_mem_marks {c : Char} (hc : c ∈ marks) (rest : List Char) : Apart (c :: rest) := by
  refine apart_cons.mpr ⟨?_, ?_⟩
  · rw [continuesName, startsName_of_mem_marks hc, isDigit_of_mem_marks hc]
    rfl
  · rintro rfl
    exact absurd hc (by decide)

/-- A word that goes on as long as the characters have the property ends where the text is cut. -/
theorem length_le_of_prefix {p : Char → Bool} {word longer rest : List Char}
    (hlonger : ∀ c ∈ longer, p c = true) (hstart : longer <+: word ++ rest)
    (hrest : ∀ c ∈ rest.head?, p c = false) : longer.length ≤ word.length := by
  by_contra hlt
  obtain ⟨tail, rfl⟩ : word <+: longer :=
    List.prefix_of_prefix_length_le (List.prefix_append _ _) hstart (by omega)
  cases tail with
  | nil => simp at hlt
  | cons c tail =>
    rw [List.prefix_append_right_inj] at hstart
    obtain ⟨_, rfl⟩ := hstart
    have hc := hlonger c (by simp)
    rw [hrest c (by simp)] at hc
    cases hc

theorem front_mark {c : Char} (hc : c ∈ marks) (rest : List Char) :
    Front (c :: rest) [c] (.mark c) where
  spelled := .mark hc
  isPrefix := List.cons_prefix_cons.mpr ⟨rfl, List.nil_prefix⟩
  longest longer other hlonger hstart := by
    have hnumber : numberLength (c :: rest) = 0 := by
      by_contra hpos
      exact not_mem_marks_of_number (number_head (Nat.pos_of_ne_zero hpos)) hc
    obtain ⟨-, hmark⟩ := first_of_mark hnumber (startsName_of_mem_marks hc)
    rw [(hmark longer other hlonger hstart).1]

theorem front_name {c : Char} {name rest : List Char} (hc : startsName c = true)
    (hname : ∀ d ∈ name, continuesName d = true) (hrest : Apart rest) :
    Front (c :: name ++ rest) (c :: name) (.name (String.ofList (c :: name))) where
  spelled := .name hc hname
  isPrefix := List.prefix_append _ _
  longest longer other hlonger hstart := by
    cases other with
    | number value =>
      obtain ⟨-, d, tail, rfl, hd⟩ := hlonger.number_inv
      obtain rfl := (List.cons_prefix_cons.mp hstart).1
      rw [startsName_of_number hd] at hc
      cases hc
    | name text =>
      obtain ⟨-, d, tail, rfl, hd, htail⟩ := hlonger.name_inv
      refine length_le_of_prefix (p := continuesName) ?_ hstart fun e he => (hrest e he).1
      simpa [continuesName, hd] using htail
    | mark d =>
      obtain ⟨rfl, -⟩ := hlonger.mark_inv
      simp

theorem front_number {digits rest : List Char} (hdigits : ∀ c ∈ digits, isDigit c = true)
    (hne : digits ≠ []) (hrest : Apart rest) :
    Front (digits ++ rest) digits (.number (decimalValue digits [])) where
  spelled := .integer hdigits hne
  isPrefix := List.prefix_append _ _
  longest longer other hlonger hstart := by
    obtain ⟨c, digits, rfl⟩ := List.exists_cons_of_ne_nil hne
    have hc := hdigits c (by simp)
    cases other with
    | number value =>
      have hhead : ∀ d ∈ rest.head?, isDigit d = false ∧ d ≠ '.' := by
        intro d hd
        obtain ⟨hcontinues, hpoint⟩ := hrest d hd
        rw [continuesName, Bool.or_eq_false_iff] at hcontinues
        exact ⟨hcontinues.2, hpoint⟩
      refine length_le_of_prefix (p := fun d => isDigit d || d == '.') ?_ hstart
        fun d hd => by simp [hhead d hd]
      intro d hd
      generalize htoken : Token.number value = t at hlonger
      cases hlonger with
      | integer hwhole => simp [hwhole d hd]
      | decimal hwhole hfraction =>
        simp only [List.mem_append, List.mem_cons] at hd
        rcases hd with hd | rfl | hd
        · simp [hwhole d hd]
        · simp
        · simp [hfraction d hd]
      | _ => cases htoken
    | name text =>
      obtain ⟨-, d, tail, rfl, hd, -⟩ := hlonger.name_inv
      obtain rfl := (List.cons_prefix_cons.mp hstart).1
      rw [startsName_of_isDigit hc] at hd
      cases hd
    | mark d =>
      obtain ⟨rfl, -⟩ := hlonger.mark_inv
      simp

/-! ## Numerals of natural numbers -/

theorem isDigit_of_mem_repr {n : Nat} {c : Char} (hc : c ∈ n.repr.toList) : isDigit c = true := by
  rw [Nat.toList_repr] at hc
  have hdigit := Nat.isDigit_of_mem_toDigits (by decide) (by decide) hc
  simpa [Char.isDigit, isDigit, Char.le_def, and_comm] using hdigit

theorem repr_ne_nil (n : Nat) : n.repr.toList ≠ [] := by
  rw [Nat.toList_repr]
  exact Nat.toDigits_ne_nil

/-- The digits of a number have its value. -/
theorem decimalValue_repr (n : Nat) : decimalValue n.repr.toList [] = n := by
  have hvalue : n.repr.toList.foldl (fun m c => 10 * m + (c.toNat - '0'.toNat)) 0 = n := by
    rw [Nat.toList_repr]
    exact Nat.ofDigitChars_toDigits (by decide) (by decide)
  rw [decimalValue, List.append_nil, ← foldl_digits, hvalue]
  simp

/-! ## Tokens in a text -/

theorem byteLength_eq (text : List Char) : byteLength text = (text.map Char.utf8Size).sum := by
  have hfold (bytes : Nat) : text.foldl (fun bytes c => bytes + c.utf8Size) bytes =
      bytes + (text.map Char.utf8Size).sum := by
    induction text generalizing bytes with
    | nil => rfl
    | cons c text ih => simp [ih, Nat.add_assoc]
  rw [byteLength, hfold, Nat.zero_add]

theorem byteLength_append (text rest : List Char) :
    byteLength (text ++ rest) = byteLength text + byteLength rest := by
  simp [byteLength_eq]

/-- A mark stands wherever it is written. -/
theorem Spells.mark {offset : Nat} {c : Char} {rest : List Char} {lexemes : List Lexeme}
    (hc : c ∈ marks) (h : Spells (offset + byteLength [c]) rest lexemes) :
    Spells offset (c :: rest) (⟨offset, .mark c⟩ :: lexemes) :=
  Spells.token (front_mark hc rest) h

end Token

open Token

/-! ## Putting texts together -/

/-- The character of a mark between factors. -/
def Join.character : Join → Char
  | times => '*'
  | dividedBy => '/'

theorem Join.mark_eq (join : Join) : join.mark = .mark join.character := by
  cases join <;> rfl

/-- The character of a sign. -/
def Sign.character : Sign → Char
  | plus => '+'
  | minus => '-'

theorem Sign.mark_eq (sign : Sign) : sign.mark = .mark sign.character := by
  cases sign <;> rfl

/-- The text spells a derivation by the rule whose value has the property, wherever it stands in
front of a text that is apart. -/
def Writes (rule : Rule) (text : List Char) (p : rule.Value → Prop) : Prop :=
  ∀ (offset : Nat) (rest : List Char) (after : List Lexeme), Apart rest →
    Spells (offset + byteLength text) rest after →
      ∃ d : Derivation rule, Spells offset (text ++ rest) (d.lexemes ++ after) ∧ p d.value

namespace Writes

variable {text rest : List Char}

theorem mono {rule : Rule} {p q : rule.Value → Prop} (h : Writes rule text p)
    (hpq : ∀ v, p v → q v) : Writes rule text q := by
  intro offset after lexemes hafter hspells
  obtain ⟨d, hd, hp⟩ := h offset after lexemes hafter hspells
  exact ⟨d, hd, hpq _ hp⟩

theorem number (n : Nat) : Writes (.atom .number) n.repr.toList fun f => f = .number n := by
  intro offset after lexemes hafter hspells
  have hfront := front_number (fun c => isDigit_of_mem_repr) (repr_ne_nil n) hafter
  rw [decimalValue_repr] at hfront
  exact ⟨.number offset n, .token hfront hspells, rfl⟩

theorem name {c : Char} (hc : startsName c = true) (hrest : ∀ d ∈ rest, continuesName d = true)
    (h : Formula.isFunctionName (String.ofList (c :: rest)) = false) :
    Writes (.atom .other) (c :: rest) fun f => f = .name (String.ofList (c :: rest)) := by
  intro offset after lexemes hafter hspells
  exact ⟨.name offset _ h, .token (front_name hc hrest hafter) hspells, rfl⟩

/-- Brackets leave no trace. -/
theorem bracketed {p : Formula → Prop} (h : Writes .sum text p) :
    Writes (.atom .other) ('(' :: (text ++ [')'])) p := by
  intro offset after lexemes hafter hspells
  have hclosing : Spells (offset + byteLength ['('] + byteLength text) (')' :: after)
      (⟨offset + byteLength ['('] + byteLength text, .mark ')'⟩ :: lexemes) := by
    refine .mark (by decide) ?_
    rwa [Nat.add_assoc, Nat.add_assoc, ← byteLength_append, ← byteLength_append]
  obtain ⟨d, hd, hp⟩ := h _ _ _ (apart_of_mem_marks (by decide) after) hclosing
  refine ⟨.bracketed offset d (offset + byteLength ['('] + byteLength text), ?_, hp⟩
  simpa [Derivation.lexemes] using Spells.mark (show '(' ∈ marks by decide) hd

/-- A function's name in front of a bracket. -/
theorem call {c : Char} {p : Formula → Prop} (hc : startsName c = true)
    (hrest : ∀ d ∈ rest, continuesName d = true)
    (hname : Formula.isFunctionName (String.ofList (c :: rest)) = true) (h : Writes .sum text p) :
    Writes (.atom .other) (c :: rest ++ '(' :: (text ++ [')'])) fun f =>
      ∃ offset a, p a ∧ f = .call offset (String.ofList (c :: rest)) [a] := by
  intro offset after lexemes hafter hspells
  have hclosing : Spells
      (offset + byteLength (c :: rest) + byteLength ['('] + byteLength text) (')' :: after)
      (⟨offset + byteLength (c :: rest) + byteLength ['('] + byteLength text, .mark ')'⟩ ::
        lexemes) := by
    refine .mark (by decide) ?_
    rwa [Nat.add_assoc, Nat.add_assoc, Nat.add_assoc, ← byteLength_append, ← byteLength_append,
      ← byteLength_append]
  obtain ⟨d, hd, hp⟩ := h _ _ _ (apart_of_mem_marks (by decide) after) hclosing
  have hopening := Spells.mark (show '(' ∈ marks by decide) hd
  refine ⟨.call offset _ hname (offset + byteLength (c :: rest)) (.arguments d .noMoreArguments)
    (offset + byteLength (c :: rest) + byteLength ['('] + byteLength text), ?_, offset, d.value, hp,
    rfl⟩
  have hfront : Front (c :: rest ++ '(' :: (text ++ ')' :: after)) (c :: rest)
      (.name (String.ofList (c :: rest))) :=
    front_name hc hrest (apart_of_mem_marks (by decide) _)
  simpa [Derivation.lexemes] using Spells.token hfront hopening

theorem power {lead : Lead} {p : Formula → Prop} (h : Writes (.atom lead) text p) :
    Writes (.power lead) text p := by
  intro offset after lexemes hafter hspells
  obtain ⟨d, hd, hp⟩ := h offset after lexemes hafter hspells
  exact ⟨.power d, hd, hp⟩

theorem raised {lead : Lead} {p q : Formula → Prop} (h : Writes (.atom lead) text p)
    (h' : Writes .signed rest q) :
    Writes (.power lead) (text ++ '^' :: rest) fun f => ∃ b x, p b ∧ q x ∧ f = .power b x := by
  intro offset after lexemes hafter hspells
  rw [byteLength_append, ← List.singleton_append, byteLength_append, ← Nat.add_assoc,
    ← Nat.add_assoc] at hspells
  obtain ⟨x, hx, hq⟩ := h' _ after lexemes hafter hspells
  have hmark := Spells.mark (show '^' ∈ marks by decide) hx
  obtain ⟨b, hb, hp⟩ := h offset _ _ (apart_of_mem_marks (by decide) _) hmark
  refine ⟨.raised b (offset + byteLength text) x, ?_, b.value, x.value, hp, hq, rfl⟩
  simpa [Derivation.lexemes] using hb

theorem unsigned {lead : Lead} {p : Formula → Prop} (h : Writes (.power lead) text p) :
    Writes .signed text p := by
  intro offset after lexemes hafter hspells
  obtain ⟨d, hd, hp⟩ := h offset after lexemes hafter hspells
  exact ⟨.unsigned d, hd, hp⟩

theorem minus {p : Formula → Prop} (h : Writes .signed text p) :
    Writes .signed ('-' :: text) fun f => ∃ g, p g ∧ f = .negative g := by
  intro offset after lexemes hafter hspells
  rw [← List.singleton_append, byteLength_append, ← Nat.add_assoc] at hspells
  obtain ⟨d, hd, hp⟩ := h _ after lexemes hafter hspells
  exact ⟨.signed offset .minus d, .mark (by decide) hd, d.value, hp, rfl⟩

/-! ### Chains -/

theorem noFactors : Writes .factors [] fun fs => fs = [] := by
  intro offset after lexemes _ hspells
  exact ⟨.noFactors, hspells, rfl⟩

theorem factor (join : Join) {p : Formula → Prop} {q : List Formula → Prop}
    (h : Writes .signed text p) (h' : Writes .factors rest q) (hrest : Apart rest) :
    Writes .factors (join.character :: (text ++ rest)) fun fs =>
      ∃ f gs, p f ∧ q gs ∧ fs = join.factor f :: gs := by
  intro offset after lexemes hafter hspells
  rw [← List.singleton_append, byteLength_append, byteLength_append, ← Nat.add_assoc,
    ← Nat.add_assoc] at hspells
  obtain ⟨e, he, hq⟩ := h' _ after lexemes hafter hspells
  obtain ⟨d, hd, hp⟩ := h _ _ _ (hrest.append hafter) he
  refine ⟨.factor offset join d e, ?_, d.value, e.value, hp, hq, rfl⟩
  have hmark := Spells.mark (by cases join <;> decide : join.character ∈ marks) hd
  simpa [Derivation.lexemes, join.mark_eq] using hmark

theorem product {p : Formula → Prop} {q : List Formula → Prop} (h : Writes .signed text p)
    (h' : Writes .factors rest q) (hrest : Apart rest) :
    Writes .product (text ++ rest) fun f =>
      ∃ g gs, p g ∧ q gs ∧ f = Formula.chain .product g gs := by
  intro offset after lexemes hafter hspells
  rw [byteLength_append, ← Nat.add_assoc] at hspells
  obtain ⟨e, he, hq⟩ := h' _ after lexemes hafter hspells
  obtain ⟨d, hd, hp⟩ := h _ _ _ (hrest.append hafter) he
  refine ⟨.product d e, ?_, d.value, e.value, hp, hq, rfl⟩
  simpa [Derivation.lexemes] using hd

theorem noTerms : Writes .terms [] fun fs => fs = [] := by
  intro offset after lexemes _ hspells
  exact ⟨.noTerms, hspells, rfl⟩

/-- A term behind a sign between blanks. -/
theorem term (sign : Sign) {p : Formula → Prop} {q : List Formula → Prop}
    (h : Writes .product text p) (h' : Writes .terms rest q) (hrest : Apart rest) :
    Writes .terms (' ' :: sign.character :: ' ' :: (text ++ rest)) fun fs =>
      ∃ f gs, p f ∧ q gs ∧ fs = sign.term f :: gs := by
  intro offset after lexemes hafter hspells
  have hsign : sign.character ∈ marks := by cases sign <;> decide
  have hlength : byteLength (' ' :: sign.character :: ' ' :: (text ++ rest)) =
      1 + byteLength [sign.character] + 1 + byteLength text + byteLength rest := by
    simp [byteLength_eq, Nat.add_assoc]
    rfl
  rw [hlength] at hspells
  obtain ⟨e, he, hq⟩ := h' (offset + 1 + byteLength [sign.character] + 1 + byteLength text) after
    lexemes hafter (by simpa [Nat.add_assoc] using hspells)
  obtain ⟨d, hd, hp⟩ := h _ _ _ (hrest.append hafter) he
  have hmark := Spells.mark hsign (.blank (c := ' ') rfl hd)
  refine ⟨.term (offset + 1) sign d e, ?_, d.value, e.value, hp, hq, rfl⟩
  have hblank := Spells.blank (c := ' ') rfl hmark
  simpa [Derivation.lexemes, sign.mark_eq] using hblank

theorem sum {p : Formula → Prop} {q : List Formula → Prop} (h : Writes .product text p)
    (h' : Writes .terms rest q) (hrest : Apart rest) :
    Writes .sum (text ++ rest) fun f => ∃ g gs, p g ∧ q gs ∧ f = Formula.chain .sum g gs := by
  intro offset after lexemes hafter hspells
  rw [byteLength_append, ← Nat.add_assoc] at hspells
  obtain ⟨e, he, hq⟩ := h' _ after lexemes hafter hspells
  obtain ⟨d, hd, hp⟩ := h _ _ _ (hrest.append hafter) he
  refine ⟨.sum d e, ?_, d.value, e.value, hp, hq, rfl⟩
  simpa [Derivation.lexemes] using hd

end Writes

end ClosedForm
