import ClosedForm.Text.Token
import Mathlib.Data.List.TakeWhile
import Mathlib.Data.Nat.Digits.Defs
import Mathlib.Tactic.Ring

/-!
# How tokens are spelled

`Token.Spelled` says which words spell which tokens, and `Token.Spells` what a text spells: blanks,
and words that are each the longest one at their place. `Token.scan` finds the tokens that a text
spells, if it spells any (`Token.spells_iff`). Where it does not, some token of the scan is a mark
that is none of `Token.marks`.

A numeral has the exact value of its digits (`Token.ofDecimal?_decimal`).
-/

namespace ClosedForm

namespace Token

/-- The marks that stand for something. -/
def marks : List Char := ['+', '-', '*', '/', '^', '(', ')', ',']

/-- The token is no mark, or one that stands for something. -/
def Known (t : Token) : Prop :=
  ∀ c, t = .mark c → c ∈ marks

@[simp] theorem known_number (value : Rat) : (number value).Known := by
  simp [Known]

@[simp] theorem known_name (text : String) : (name text).Known := by
  simp [Known]

@[simp] theorem known_mark (c : Char) : (mark c).Known ↔ c ∈ marks := by
  simp [Known]

/-- The value of a numeral with these digits before and after the point. -/
def decimalValue (whole fraction : List Char) : Rat :=
  (Nat.ofDigits 10 ((whole ++ fraction).reverse.map fun c => c.toNat - '0'.toNat) : Nat) /
    10 ^ fraction.length

/-- The words that spell a token. -/
inductive Spelled : List Char → Token → Prop
  | integer {whole : List Char} (hwhole : ∀ c ∈ whole, isDigit c = true) (h : whole ≠ []) :
    Spelled whole (.number (decimalValue whole []))
  | decimal {whole fraction : List Char} (hwhole : ∀ c ∈ whole, isDigit c = true)
    (hfraction : ∀ c ∈ fraction, isDigit c = true) (h : whole ≠ [] ∨ fraction ≠ []) :
    Spelled (whole ++ '.' :: fraction) (.number (decimalValue whole fraction))
  | name {c : Char} {rest : List Char} (hc : startsName c = true)
    (hrest : ∀ d ∈ rest, continuesName d = true) :
    Spelled (c :: rest) (.name (String.ofList (c :: rest)))
  | mark {c : Char} (hc : c ∈ marks) : Spelled [c] (.mark c)

/-- The word spells the token, and no longer word at the front of the text spells any. -/
structure Front (text word : List Char) (token : Token) : Prop where
  spelled : Spelled word token
  isPrefix : word <+: text
  longest : ∀ longer other, Spelled longer other → longer <+: text → longer.length ≤ word.length

/-- The text from this offset on consists of blanks and of words for the tokens. -/
inductive Spells : Nat → List Char → List Lexeme → Prop
  | nil (offset : Nat) : Spells offset [] []
  | blank {offset : Nat} {c : Char} {rest : List Char} {lexemes : List Lexeme}
    (hc : isBlank c = true) (h : Spells (offset + 1) rest lexemes) :
    Spells offset (c :: rest) lexemes
  | token {offset : Nat} {word rest : List Char} {token : Token} {lexemes : List Lexeme}
    (hword : Front (word ++ rest) word token) (h : Spells (offset + byteLength word) rest lexemes) :
    Spells offset (word ++ rest) (⟨offset, token⟩ :: lexemes)

/-! ## Numerals -/

theorem digit?_eq {c : Char} (h : isDigit c = true) :
    Rational.digit? c = some (c.toNat - '0'.toNat) := by
  unfold isDigit at h
  exact if_pos (by simpa using h)

theorem readDigits_eq {digits : List Char} (h : ∀ c ∈ digits, isDigit c = true) (value : Nat) :
    Rational.readDigits value digits =
      some (digits.foldl (fun n c => 10 * n + (c.toNat - '0'.toNat)) value) := by
  induction digits generalizing value with
  | nil => rfl
  | cons c digits ih =>
    have hc := h c (by simp)
    have hunderscore : c ≠ '_' := by
      rintro rfl
      simp [isDigit] at hc
    rw [Rational.readDigits, digit?_eq hc]
    · exact ih (fun d hd => h d (by simp [hd])) _
    · exact hunderscore

theorem foldl_digits (digits : List Char) :
    digits.foldl (fun n c => 10 * n + (c.toNat - '0'.toNat)) 0 =
      Nat.ofDigits 10 (digits.reverse.map fun c => c.toNat - '0'.toNat) := by
  rw [Nat.ofDigits_eq_foldr, List.foldr_map, List.foldr_reverse]
  congr 1
  funext n c
  simp only [Nat.cast_id]
  ring

theorem readInt_digits {digits : List Char} (h : ∀ c ∈ digits, isDigit c = true)
    (hne : digits ≠ []) :
    Rational.readInt digits =
      some (Nat.ofDigits 10 (digits.reverse.map fun c => c.toNat - '0'.toNat) : Nat) := by
  obtain ⟨c, rest, rfl⟩ := List.exists_cons_of_ne_nil hne
  have hc := h c (by simp)
  have hother (d : Char) (hd : isDigit d = false) : c ≠ d := by
    rintro rfl
    rw [hc] at hd
    cases hd
  have hnat : Rational.readNat (c :: rest) = Rational.readDigits 0 (c :: rest) := by
    unfold Rational.readNat
    split
    · next heq => cases heq
    · next heq => exact absurd (List.cons.inj heq).1 (hother '_' (by decide))
    · rfl
  unfold Rational.readInt
  split
  · next heq => exact absurd (List.cons.inj heq).1 (hother '-' (by decide))
  · next heq => exact absurd (List.cons.inj heq).1 (hother '+' (by decide))
  · rw [hnat, readDigits_eq h, foldl_digits]
    rfl

theorem ne_point_of_isDigit {digits : List Char} (h : ∀ c ∈ digits, isDigit c = true) :
    ∀ c ∈ digits, decide (c ≠ '.') = true := by
  intro c hc
  simp only [decide_eq_true_eq]
  rintro rfl
  have := h '.' hc
  simp [isDigit] at this

/-- A numeral with a point has the value of its digits. -/
theorem ofDecimal?_decimal {whole fraction : List Char} (hwhole : ∀ c ∈ whole, isDigit c = true)
    (hfraction : ∀ c ∈ fraction, isDigit c = true) (h : whole ≠ [] ∨ fraction ≠ []) :
    Rational.ofDecimal? (whole ++ '.' :: fraction) = some (decimalValue whole fraction) := by
  have hdigits : ∀ c ∈ whole ++ fraction, isDigit c = true := by
    simpa [or_imp, forall_and] using ⟨hwhole, hfraction⟩
  have htake : (whole ++ '.' :: fraction).takeWhile (· ≠ '.') = whole := by
    rw [List.takeWhile_append_of_pos (ne_point_of_isDigit hwhole)]
    simp
  have hdrop : (whole ++ '.' :: fraction).dropWhile (· ≠ '.') = '.' :: fraction := by
    rw [List.dropWhile_append_of_pos (ne_point_of_isDigit hwhole)]
    simp
  unfold Rational.ofDecimal?
  simp only [htake, hdrop, List.drop_succ_cons, List.drop_zero]
  rw [readInt_digits hdigits (by simpa [or_iff_not_imp_left] using h)]
  simp [decimalValue, Rat.mkRat_eq_div]

/-- A numeral without a point has the value of its digits. -/
theorem ofDecimal?_integer {whole : List Char} (hwhole : ∀ c ∈ whole, isDigit c = true)
    (h : whole ≠ []) : Rational.ofDecimal? whole = some (decimalValue whole []) := by
  have htake : whole.takeWhile (· ≠ '.') = whole :=
    List.takeWhile_eq_self_iff.mpr (ne_point_of_isDigit hwhole)
  have hdrop : whole.dropWhile (· ≠ '.') = [] :=
    List.dropWhile_eq_nil_iff.mpr (ne_point_of_isDigit hwhole)
  unfold Rational.ofDecimal?
  simp only [htake, hdrop, List.drop_nil, List.append_nil]
  rw [readInt_digits hwhole h]
  simp [decimalValue, Rat.mkRat_eq_div]

/-! ## Words -/

theorem isDigit_of_mem_marks {c : Char} (h : c ∈ marks) : isDigit c = false := by
  simp only [marks, List.mem_cons, List.not_mem_nil, or_false] at h
  rcases h with rfl | rfl | rfl | rfl | rfl | rfl | rfl | rfl <;> decide

theorem startsName_of_mem_marks {c : Char} (h : c ∈ marks) : startsName c = false := by
  simp only [marks, List.mem_cons, List.not_mem_nil, or_false] at h
  rcases h with rfl | rfl | rfl | rfl | rfl | rfl | rfl | rfl <;> decide

theorem startsName_of_isDigit {c : Char} (h : isDigit c = true) : startsName c = false := by
  unfold isDigit at h
  unfold startsName
  simp only [Bool.and_eq_true, decide_eq_true_eq, Char.le_def, UInt32.le_iff_toNat_le] at h
  simp only [Bool.or_eq_false_iff, Bool.and_eq_false_iff, decide_eq_false_iff_not, Char.le_def,
    UInt32.le_iff_toNat_le, beq_eq_false_iff_ne]
  have hnine : '9'.val.toNat = 57 := rfl
  have hlower : 'a'.val.toNat = 97 := rfl
  have hupper : 'A'.val.toNat = 65 := rfl
  refine ⟨⟨.inl (by omega), .inl (by omega)⟩, ?_⟩
  rintro rfl
  exact absurd h.2 (by decide)

/-- A numeral starts with a digit or a point. -/
theorem Spelled.number_inv {word : List Char} {value : Rat} (h : Spelled word (.number value)) :
    Rational.ofDecimal? word = some value ∧
      ∃ c rest, word = c :: rest ∧ (isDigit c = true ∨ c = '.') := by
  cases h with
  | integer hwhole h =>
    obtain ⟨c, rest, rfl⟩ := List.exists_cons_of_ne_nil h
    exact ⟨ofDecimal?_integer hwhole h, c, rest, rfl, .inl (hwhole c (by simp))⟩
  | @decimal whole fraction hwhole hfraction h =>
    refine ⟨ofDecimal?_decimal hwhole hfraction h, ?_⟩
    cases whole with
    | nil => exact ⟨_, _, rfl, .inr rfl⟩
    | cons c rest => exact ⟨_, _, rfl, .inl (hwhole c (by simp))⟩

theorem Spelled.name_inv {word : List Char} {text : String} (h : Spelled word (.name text)) :
    text = String.ofList word ∧ ∃ c rest, word = c :: rest ∧ startsName c = true ∧
      ∀ d ∈ rest, continuesName d = true := by
  generalize ht : Token.name text = t at h
  cases h with
  | name hc hrest =>
    cases ht
    exact ⟨rfl, _, _, rfl, hc, hrest⟩
  | _ => cases ht

theorem Spelled.mark_inv {word : List Char} {c : Char} (h : Spelled word (.mark c)) :
    word = [c] ∧ c ∈ marks := by
  generalize ht : Token.mark c = t at h
  cases h with
  | mark hc =>
    cases ht
    exact ⟨rfl, hc⟩
  | _ => cases ht

theorem Spelled.ne_nil {word : List Char} {t : Token} (h : Spelled word t) : word ≠ [] := by
  cases h <;> simp_all

theorem startsName_of_number {c : Char} (h : isDigit c = true ∨ c = '.') : startsName c = false := by
  rcases h with h | rfl
  · exact startsName_of_isDigit h
  · decide

theorem not_mem_marks_of_number {c : Char} (h : isDigit c = true ∨ c = '.') : c ∉ marks := by
  rcases h with h | rfl
  · intro hmark
    simp [isDigit_of_mem_marks hmark] at h
  · decide

/-- A word spells one token at most: numbers, names and marks are told by the first character. -/
theorem Spelled.unique {word : List Char} {t t' : Token} (h : Spelled word t)
    (h' : Spelled word t') : t = t' := by
  have hnumber {value : Rat} {t : Token} (h : Spelled word (.number value)) (h' : Spelled word t) :
      t = .number value := by
    obtain ⟨hvalue, c, rest, rfl, hc⟩ := h.number_inv
    cases t with
    | number value' => rw [Option.some.inj (hvalue.symm.trans h'.number_inv.1)]
    | name text =>
      obtain ⟨-, _, _, hword, hname, -⟩ := h'.name_inv
      cases hword
      simp [startsName_of_number hc] at hname
    | mark d =>
      obtain ⟨hword, hmark⟩ := h'.mark_inv
      cases hword
      exact absurd hmark (not_mem_marks_of_number hc)
  have hname {text : String} {c : Char} (h : Spelled word (.name text)) :
      ¬ Spelled word (.mark c) := by
    intro h'
    obtain ⟨-, _, _, rfl, hname, -⟩ := h.name_inv
    obtain ⟨hword, hmark⟩ := h'.mark_inv
    cases hword
    simp [startsName_of_mem_marks hmark] at hname
  cases t with
  | number value => exact (hnumber h h').symm
  | name text =>
    cases t' with
    | number value => exact hnumber h' h
    | name text' => rw [h.name_inv.1, h'.name_inv.1]
    | mark c => exact absurd h' (hname h)
  | mark c =>
    cases t' with
    | number value => exact hnumber h' h
    | name text => exact absurd h (hname h')
    | mark c' =>
      have := h.mark_inv.1.symm.trans h'.mark_inv.1
      cases this
      rfl

theorem Front.unique {text word word' : List Char} {t t' : Token} (h : Front text word t)
    (h' : Front text word' t') : word = word' ∧ t = t' := by
  have hle := h'.longest word t h.spelled h.isPrefix
  have hge := h.longest word' t' h'.spelled h'.isPrefix
  obtain rfl : word = word' :=
    (List.prefix_of_prefix_length_le h.isPrefix h'.isPrefix hle).eq_of_length (by omega)
  exact ⟨rfl, h.spelled.unique h'.spelled⟩

/-! ## The number at the front -/

theorem length_le_takeWhile {p : Char → Bool} {word text : List Char} (h : ∀ c ∈ word, p c = true)
    (hstart : word <+: text) : word.length ≤ (text.takeWhile p).length := by
  obtain ⟨rest, rfl⟩ := hstart
  rw [List.takeWhile_append_of_pos h, List.length_append]
  omega

theorem mem_takeWhile {p : Char → Bool} {text : List Char} : ∀ c ∈ text.takeWhile p, p c = true :=
  List.all_eq_true.mp List.all_takeWhile

theorem numberLength_eq (text : List Char) :
    numberLength text = match text.dropWhile isDigit with
      | '.' :: rest =>
        if (text.takeWhile isDigit).length = 0 ∧ (rest.takeWhile isDigit).length = 0 then 0
        else (text.takeWhile isDigit).length + 1 + (rest.takeWhile isDigit).length
      | _ => (text.takeWhile isDigit).length := by
  have hdrop : text.drop (text.takeWhile isDigit).length = text.dropWhile isDigit := by
    have htext := List.takeWhile_append_dropWhile (p := isDigit) (l := text)
    calc text.drop (text.takeWhile isDigit).length
        = (text.takeWhile isDigit ++ text.dropWhile isDigit).drop
            (text.takeWhile isDigit).length := by rw [htext]
      _ = text.dropWhile isDigit := List.drop_left
  unfold numberLength
  dsimp only
  rw [hdrop]
  split <;> simp [*]

/-- No numeral at the front of the text has more characters. -/
theorem length_le_numberLength {text word : List Char} {value : Rat}
    (h : Spelled word (.number value)) (hstart : word <+: text) :
    word.length ≤ numberLength text := by
  rw [numberLength_eq]
  cases h with
  | integer hwhole h =>
    have hle := length_le_takeWhile hwhole hstart
    have hpos : 0 < (text.takeWhile isDigit).length :=
      Nat.lt_of_lt_of_le (List.length_pos_iff.mpr h) hle
    split
    · rw [if_neg (by omega)]
      omega
    · exact hle
  | @decimal whole fraction hwhole hfraction h =>
    obtain ⟨rest, rfl⟩ := hstart
    have htake : ((whole ++ '.' :: fraction) ++ rest).takeWhile isDigit = whole := by
      rw [List.append_assoc, List.takeWhile_append_of_pos hwhole, List.cons_append,
        List.takeWhile_cons_of_neg (by decide), List.append_nil]
    have hdrop : ((whole ++ '.' :: fraction) ++ rest).dropWhile isDigit =
        '.' :: (fraction ++ rest) := by
      rw [List.append_assoc, List.dropWhile_append_of_pos hwhole, List.cons_append,
        List.dropWhile_cons_of_neg (by decide)]
    have hle : fraction.length ≤ ((fraction ++ rest).takeWhile isDigit).length :=
      length_le_takeWhile hfraction (List.prefix_append _ _)
    have hpos : 0 < whole.length ∨ 0 < fraction.length := by
      simpa [List.length_pos_iff] using h
    rw [htake, hdrop, List.length_append, List.length_cons]
    show _ ≤ if _ then _ else _
    rw [if_neg (by omega)]
    omega

/-- The characters that `numberLength` counts are a numeral. -/
theorem exists_numeral {text : List Char} (h : 0 < numberLength text) :
    ∃ word value, Spelled word (.number value) ∧ word <+: text ∧
      word.length = numberLength text := by
  rw [numberLength_eq] at h ⊢
  have htext := List.takeWhile_append_dropWhile (p := isDigit) (l := text)
  split at h
  · next rest hrest =>
    rw [hrest] at htext
    split at h
    · exact absurd h (Nat.lt_irrefl 0)
    · next hempty =>
      rw [if_neg hempty]
      refine ⟨text.takeWhile isDigit ++ '.' :: rest.takeWhile isDigit, _,
        .decimal mem_takeWhile mem_takeWhile ?_, ?_, ?_⟩
      · simpa only [List.length_eq_zero_iff, not_and_or] using hempty
      · refine ⟨rest.dropWhile isDigit, ?_⟩
        rw [List.append_assoc, List.cons_append, List.takeWhile_append_dropWhile, htext]
      · simp only [List.length_append, List.length_cons]
        omega
  · next hrest =>
    refine ⟨text.takeWhile isDigit, _, .integer mem_takeWhile (List.length_pos_iff.mp h),
      List.takeWhile_prefix _, rfl⟩

/-! ## The word at the front -/

variable {c : Char} {rest : List Char}

/-- A name or a mark can stand at the front only where no number does. -/
theorem number_head (h : 0 < numberLength (c :: rest)) : isDigit c = true ∨ c = '.' := by
  obtain ⟨word, value, hspelled, hstart, -⟩ := exists_numeral h
  obtain ⟨-, d, tail, rfl, hd⟩ := hspelled.number_inv
  obtain rfl := (List.cons_prefix_cons.mp hstart).1
  exact hd

theorem first_of_number (h : 0 < numberLength (c :: rest)) :
    ∃ word, Front (c :: rest) word (first c rest).1 ∧ word.length = (first c rest).2 := by
  obtain ⟨word, value, hspelled, hstart, hlength⟩ := exists_numeral h
  have hfirst : first c rest = (.number value, numberLength (c :: rest)) := by
    unfold first
    dsimp only
    rw [if_pos h, ← hlength, ← List.prefix_iff_eq_take.mp hstart, hspelled.number_inv.1]
    rfl
  rw [hfirst]
  refine ⟨word, ⟨hspelled, hstart, fun longer other hlonger hfront => ?_⟩, hlength⟩
  cases other with
  | number value' => exact (length_le_numberLength hlonger hfront).trans hlength.ge
  | name text =>
    obtain ⟨-, d, tail, rfl, hname, -⟩ := hlonger.name_inv
    obtain rfl := (List.cons_prefix_cons.mp hfront).1
    simp [startsName_of_number (number_head h)] at hname
  | mark d =>
    obtain ⟨rfl, -⟩ := hlonger.mark_inv
    exact hlength ▸ h

theorem first_of_name (hnumber : numberLength (c :: rest) = 0) (h : startsName c = true) :
    ∃ word, Front (c :: rest) word (first c rest).1 ∧ word.length = (first c rest).2 := by
  have hfirst : first c rest = (.name (String.ofList (c :: rest.takeWhile continuesName)),
      1 + (rest.takeWhile continuesName).length) := by
    unfold first
    simp [hnumber, h]
  rw [hfirst]
  refine ⟨c :: rest.takeWhile continuesName,
    ⟨.name h mem_takeWhile, List.cons_prefix_cons.mpr ⟨rfl, List.takeWhile_prefix _⟩,
      fun longer other hlonger hfront => ?_⟩, by simp; omega⟩
  cases other with
  | number value =>
    have := length_le_numberLength hlonger hfront
    omega
  | name text =>
    obtain ⟨-, d, tail, rfl, hname, htail⟩ := hlonger.name_inv
    have := length_le_takeWhile htail (List.cons_prefix_cons.mp hfront).2
    simp only [List.length_cons]
    omega
  | mark d =>
    obtain ⟨rfl, -⟩ := hlonger.mark_inv
    simp

/-- Where no number and no name stands only a mark can. -/
theorem first_of_mark (hnumber : numberLength (c :: rest) = 0) (h : startsName c = false) :
    first c rest = (.mark c, 1) ∧ ∀ word token, Spelled word token → word <+: c :: rest →
      word = [c] ∧ c ∈ marks := by
  refine ⟨by unfold first; simp [hnumber, h], fun word token hspelled hfront => ?_⟩
  cases token with
  | number value =>
    have := length_le_numberLength hspelled hfront
    exact absurd (List.length_eq_zero_iff.mp (by omega)) hspelled.ne_nil
  | name text =>
    obtain ⟨-, d, tail, rfl, hname, -⟩ := hspelled.name_inv
    obtain rfl := (List.cons_prefix_cons.mp hfront).1
    simp [h] at hname
  | mark d =>
    obtain ⟨rfl, hmark⟩ := hspelled.mark_inv
    obtain rfl := (List.cons_prefix_cons.mp hfront).1
    exact ⟨rfl, hmark⟩

/-- The token that the scan takes is the one that the word at the front spells, or a mark that
stands for nothing, and then no word stands there. -/
theorem first_spec (c : Char) (rest : List Char) :
    (∃ word, Front (c :: rest) word (first c rest).1 ∧ word.length = (first c rest).2) ∨
      (first c rest).1 = .mark c ∧ c ∉ marks ∧ ∀ word token, ¬ Front (c :: rest) word token := by
  rcases Nat.eq_zero_or_pos (numberLength (c :: rest)) with hnumber | hnumber
  · cases hname : startsName c with
    | true => exact .inl (first_of_name hnumber hname)
    | false =>
      obtain ⟨hfirst, hmark⟩ := first_of_mark hnumber hname
      rw [hfirst]
      by_cases hc : c ∈ marks
      · refine .inl ⟨[c], ⟨.mark hc, List.cons_prefix_cons.mpr ⟨rfl, List.nil_prefix⟩,
          fun longer other hlonger hfront => ?_⟩, rfl⟩
        rw [(hmark longer other hlonger hfront).1]
      · exact .inr ⟨rfl, hc, fun word token hfront =>
          hc (hmark word token hfront.spelled hfront.isPrefix).2⟩
  · exact .inl (first_of_number hnumber)

/-! ## The words of a text -/

/-- A blank is no part of a word. -/
theorem Front.not_blank {word : List Char} {t : Token} (h : Front (c :: rest) word t) :
    isBlank c = false := by
  refine Bool.eq_false_iff.mpr fun hblank => ?_
  simp only [isBlank, Bool.or_eq_true, beq_iff_eq] at hblank
  have hother : (isDigit c = false ∧ c ≠ '.') ∧ startsName c = false ∧ c ∉ marks := by
    rcases hblank with ((rfl | rfl) | rfl) | rfl <;> decide
  have hspelled := h.spelled
  obtain ⟨d, tail, rfl⟩ := List.exists_cons_of_ne_nil hspelled.ne_nil
  obtain rfl := (List.cons_prefix_cons.mp h.isPrefix).1
  cases t with
  | number value =>
    obtain ⟨-, _, _, hword, hd⟩ := hspelled.number_inv
    cases hword
    simp [hother.1] at hd
  | name text =>
    obtain ⟨-, _, _, hword, hd, -⟩ := hspelled.name_inv
    cases hword
    simp [hother.2.1] at hd
  | mark e =>
    obtain ⟨hword, hd⟩ := hspelled.mark_inv
    cases hword
    exact hother.2.2 hd

theorem scanFrom_of_spells {offset fuel : Nat} {text : List Char} {lexemes : List Lexeme}
    (h : Spells offset text lexemes) (hfuel : text.length ≤ fuel) :
    scanFrom fuel offset text = lexemes ∧
      ∀ lexeme ∈ lexemes, lexeme.token.Known := by
  induction h generalizing fuel with
  | nil offset => cases fuel <;> simp [scanFrom]
  | @blank offset c rest lexemes hc _ ih =>
    obtain ⟨fuel, rfl⟩ : ∃ n, fuel = n + 1 := ⟨fuel - 1, by simp at hfuel; omega⟩
    have hrest := @ih fuel (by simpa using hfuel)
    rw [scanFrom, if_pos hc]
    exact hrest
  | @token offset word rest t lexemes hword _ ih =>
    obtain ⟨c, tail, rfl⟩ := List.exists_cons_of_ne_nil hword.spelled.ne_nil
    obtain ⟨fuel, rfl⟩ : ∃ n, fuel = n + 1 := ⟨fuel - 1, by simp at hfuel; omega⟩
    rw [List.cons_append] at hword hfuel ⊢
    obtain ⟨word, hfront, hlength⟩ | ⟨-, -, hnone⟩ := first_spec c (tail ++ rest)
    · obtain ⟨rfl, htoken⟩ := hfront.unique hword
      obtain ⟨hscan, hmarks⟩ := @ih fuel (by simp at hfuel; omega)
      constructor
      · rw [scanFrom, if_neg (by simp [hword.not_blank])]
        dsimp only
        rw [← hlength, htoken, ← List.cons_append, List.take_left, List.drop_left, hscan]
      · intro lexeme hmem
        rcases List.mem_cons.mp hmem with rfl | hmem
        · rintro d rfl
          exact hword.spelled.mark_inv.2
        · exact hmarks lexeme hmem
    · exact absurd hword (hnone _ _)

theorem spells_of_scanFrom {fuel offset : Nat} {text : List Char} (hfuel : text.length ≤ fuel)
    (hmarks : ∀ lexeme ∈ scanFrom fuel offset text, lexeme.token.Known) :
    Spells offset text (scanFrom fuel offset text) := by
  induction fuel generalizing offset text with
  | zero =>
    obtain rfl := List.length_eq_zero_iff.mp (Nat.le_zero.mp hfuel)
    exact .nil offset
  | succ fuel ih =>
    cases text with
    | nil => exact .nil offset
    | cons c rest =>
      rw [scanFrom] at hmarks ⊢
      split at hmarks
      · next hc =>
        rw [if_pos hc]
        exact .blank hc (ih (by simpa using hfuel) hmarks)
      · next hc =>
        rw [if_neg hc]
        dsimp only at hmarks ⊢
        obtain ⟨word, hfront, hlength⟩ | ⟨htoken, hmark, -⟩ := first_spec c rest
        · obtain ⟨tail, htail⟩ := hfront.isPrefix
          have hpos := List.length_pos_iff.mpr hfront.spelled.ne_nil
          rw [← hlength] at hmarks ⊢
          rw [← htail] at hmarks hfuel ⊢
          rw [List.take_left, List.drop_left] at hmarks ⊢
          refine .token (htail ▸ hfront) (ih ?_ fun lexeme hmem => hmarks lexeme (by simp [hmem]))
          rw [List.length_append] at hfuel
          omega
        · exact absurd (hmarks _ List.mem_cons_self c htoken) hmark

/-- A text spells the tokens of its scan, unless one of them is a mark that stands for nothing, and
it spells no others. -/
theorem spells_iff {text : List Char} {lexemes : List Lexeme} :
    Spells 0 text lexemes ↔ scan text = lexemes ∧
      ∀ lexeme ∈ lexemes, lexeme.token.Known := by
  constructor
  · exact fun h => scanFrom_of_spells h (Nat.le_refl _)
  · rintro ⟨rfl, hmarks⟩
    exact spells_of_scanFrom (Nat.le_refl _) hmarks

end Token

end ClosedForm
