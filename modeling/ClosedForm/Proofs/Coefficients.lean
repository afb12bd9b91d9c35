import ClosedForm.Polynomial
import ClosedForm.Proofs.Retention
import ClosedForm.Proofs.Symbols

/-!
# Coefficients of a symbol

The ring operations on polynomials keep the coefficients in ascending order and free of the symbol
(`Polynomial.Graded`), and only subexpressions without the symbol become coefficients. So whatever
polynomial is extracted is graded (`Polynomial.Graded.of_ofExpr`), and its coefficients are forms that
the memo has as forms of themselves.
-/

namespace ClosedForm

open ClosedForm.Expr

variable {name : String} {bounds : Bounds}

namespace Polynomial

/-- Coefficients by ascending powers that are free of the symbol. -/
structure Graded (name : String) (coefficients : List (Nat × Expr)) : Prop where
  ascending : coefficients.Pairwise fun s t => s.1 < t.1
  free : ∀ t ∈ coefficients, Over (· ≠ name) t.2

theorem graded_nil : Graded name [] := ⟨.nil, by simp⟩

theorem graded_cons {t : Nat × Expr} {ts : List (Nat × Expr)} :
    Graded name (t :: ts) ↔
      Over (· ≠ name) t.2 ∧ (∀ s ∈ ts, t.1 < s.1) ∧ Graded name ts := by
  constructor
  · rintro ⟨hascending, hfree⟩
    obtain ⟨hlt, hascending⟩ := List.pairwise_cons.mp hascending
    obtain ⟨ht, hfree⟩ := List.forall_mem_cons.mp hfree
    exact ⟨ht, hlt, hascending, hfree⟩
  · rintro ⟨ht, hlt, hascending, hfree⟩
    exact ⟨.cons hlt hascending, List.forall_mem_cons.mpr ⟨ht, hfree⟩⟩

/-- A power that does not occur. -/
theorem lookup_eq_none {α : Type*} {ts : List (Nat × α)} {power : Nat} (h : ∀ t ∈ ts, t.1 ≠ power) :
    ts.lookup power = none :=
  List.lookup_eq_none_iff.mpr fun t ht => bne_iff_ne.mpr (h t ht).symm

/-- The degree is the highest power. -/
theorem le_of_degree {p : Polynomial} (h : p.coefficients.Pairwise fun s t => s.1 < t.1) {n : Nat}
    (hdegree : p.degree?.getD 0 ≤ n) : ∀ t ∈ p.coefficients, t.1 ≤ n := by
  intro t ht
  obtain ⟨front, last, heq⟩ := List.eq_nil_or_concat' p.coefficients |>.resolve_left (List.ne_nil_of_mem ht)
  unfold degree? at hdegree
  rw [heq] at ht h hdegree
  rw [List.getLast?_concat] at hdegree
  rcases List.mem_append.mp ht with ht | ht
  · exact ((List.pairwise_append.mp h).2.2 t ht last (by simp)).le.trans hdegree
  · rwa [List.mem_singleton.mp ht]

/-! ## Ring operations -/

theorem lt_of_mem_addAt {bound power : Nat} {c : Expr} {ts : List (Nat × Expr)}
    (hpower : bound < power) (hts : ∀ t ∈ ts, bound < t.1) : ∀ t ∈ addAt power c ts, bound < t.1 := by
  induction ts with
  | nil =>
    rw [addAt]
    split <;> simp [hpower]
  | cons s rest ih =>
    simp only [List.forall_mem_cons] at hts
    unfold addAt
    split
    · split
      · exact List.forall_mem_cons.mpr hts
      · exact List.forall_mem_cons.mpr ⟨hpower, List.forall_mem_cons.mpr hts⟩
    · split
      · dsimp only
        split
        · exact hts.2
        · exact List.forall_mem_cons.mpr hts
      · exact List.forall_mem_cons.mpr ⟨hts.1, ih hts.2⟩

namespace Graded

theorem addAt {ts : List (Nat × Expr)} {c : Expr} (h : Graded name ts) (power : Nat)
    (hc : Over (· ≠ name) c) : Graded name (addAt power c ts) := by
  induction ts with
  | nil =>
    rw [Polynomial.addAt]
    split
    · exact graded_nil
    · exact graded_cons.mpr ⟨hc, by simp, graded_nil⟩
  | cons s rest ih =>
    obtain ⟨hs, hlt, hrest⟩ := graded_cons.mp h
    unfold Polynomial.addAt
    split
    · next hpower =>
      split
      · exact h
      · refine graded_cons.mpr ⟨hc, List.forall_mem_cons.mpr ⟨hpower, fun t ht => ?_⟩, h⟩
        exact hpower.trans (hlt t ht)
    · split
      · dsimp only
        split
        · exact hrest
        · exact graded_cons.mpr ⟨Canonical.over_add_rule (by simp [hs, hc]), hlt, hrest⟩
      · exact graded_cons.mpr ⟨hs, lt_of_mem_addAt (by omega) hlt, ih hrest⟩

theorem add {p q : Polynomial} (hp : Graded name p.coefficients) (hq : Graded name q.coefficients) :
    Graded name (add p q).coefficients := by
  unfold Polynomial.add
  refine List.foldlRecOn q.coefficients _ hp fun sum hsum t ht => ?_
  exact hsum.addAt t.1 (hq.free t ht)

theorem addScaled {p : Polynomial} {sum r : List (Nat × Expr)} {c : Expr} {power : Nat}
    (h : addScaled bounds power c p sum = .ok r) (hsum : Graded name sum) (hc : Over (· ≠ name) c)
    (hp : Graded name p.coefficients) : Graded name r := by
  refine foldlM_keeps (fun t ht start next hstart hnext => ?_) hsum h
  obtain ⟨product, hproduct, hnext⟩ := bind_eq_ok.mp hnext
  obtain ⟨total, -, hnext⟩ := bind_eq_ok.mp hnext
  cases hnext
  exact hstart.addAt _ (Canonical.over_multiply hproduct (by simp [hc, hp.free t ht]))

theorem mul {p q r : Polynomial} (h : mul bounds p q = .ok r) (hp : Graded name p.coefficients)
    (hq : Graded name q.coefficients) : Graded name r.coefficients := by
  obtain ⟨sum, hsum, h⟩ := bind_eq_ok.mp h
  cases h
  exact foldlM_keeps (fun t ht start next hstart hnext => addScaled hnext hstart (hp.free t ht) hq)
    graded_nil hsum

theorem ofConstant {c : Expr} (hc : Over (· ≠ name) c) :
    Graded name (ofConstant c).coefficients := by
  unfold Polynomial.ofConstant
  dsimp only
  split
  · exact graded_nil
  · exact graded_cons.mpr ⟨hc, by simp, graded_nil⟩

theorem monomial (n : Nat) : Graded name (monomial n).coefficients :=
  graded_cons.mpr ⟨over_one, by simp, graded_nil⟩

end Graded

theorem powLoop_succ (fuel n : Nat) (base result : Polynomial) :
    powLoop bounds (fuel + 1) n base result =
      if n = 0 then .ok result
      else (if n % 2 = 1 then mul bounds result base else .ok result) >>= fun result =>
        if n / 2 = 0 then .ok result
        else mul bounds base base >>= fun squared => powLoop bounds fuel (n / 2) squared result := by
  rw [powLoop]
  split
  · rfl
  · rcases Nat.mod_two_eq_zero_or_one n with h | h <;> simp only [h] <;> rfl

namespace Graded

theorem powLoop (fuel n : Nat) {base result r : Polynomial}
    (h : powLoop bounds fuel n base result = .ok r) (hbase : Graded name base.coefficients)
    (hresult : Graded name result.coefficients) : Graded name r.coefficients := by
  induction fuel generalizing n base result with
  | zero =>
    cases h
    exact hresult
  | succ fuel ih =>
    rw [powLoop_succ] at h
    split at h
    · cases h
      exact hresult
    · obtain ⟨odd, hodd, h⟩ := bind_eq_ok.mp h
      have hodd : Graded name odd.coefficients := by
        split at hodd
        · exact mul hodd hresult hbase
        · cases hodd
          exact hresult
      split at h
      · cases h
        exact hodd
      · obtain ⟨squared, hsquared, h⟩ := bind_eq_ok.mp h
        exact ih (n / 2) h (mul hsquared hbase hbase) hodd

theorem pow {p r : Polynomial} {n : Nat} (h : pow bounds p n = .ok r)
    (hp : Graded name p.coefficients) : Graded name r.coefficients :=
  powLoop n n h hp (ofConstant over_one)

/-! ## The polynomial of an expression -/

theorem ofPower {base exponent : Expr} {parts : List Polynomial} {r : Polynomial}
    (h : ofPower bounds name base exponent parts = .ok r)
    (hparts : ∀ part ∈ parts, Graded name part.coefficients) : Graded name r.coefficients := by
  obtain ⟨n, -, h⟩ := bind_eq_ok.mp h
  split at h
  · cases h
    exact monomial n
  · split at h
    · cases h
    · refine pow h ?_
      cases parts with
      | nil => exact graded_nil
      | cons part parts => exact hparts part (by simp)

/-- The polynomial of a node is graded if those of the children are. -/
theorem step {e : Expr} {parts : List Polynomial} {r : Polynomial}
    (h : step bounds name e parts = .ok r) (hparts : ∀ part ∈ parts, Graded name part.coefficients) :
    Graded name r.coefficients := by
  unfold Polynomial.step at h
  split at h
  · cases h
    exact monomial 1
  · split at h
    · next hcontains =>
      cases h
      refine ofConstant fun other hother => ?_
      rintro rfl
      simp [hother] at hcontains
    · cases e with
      | constant | symbol => simp_all [contains, recurse]
      | add ts =>
        cases h
        exact List.foldlRecOn (motive := fun sum : Polynomial => Graded name sum.coefficients)
          parts _ graded_nil fun sum hsum part hpart => hsum.add (hparts part hpart)
      | mul fs =>
        exact foldlM_keeps (fun part hpart start next hstart hnext =>
          mul hnext hstart (hparts part hpart)) (ofConstant over_one) h
      | pow base exponent => exact ofPower h hparts
      | function head arguments => cases h

theorem ofCanonical {e : Expr} {r : Polynomial} (h : ofCanonical bounds name e = .ok r) :
    Graded name r.coefficients := by
  induction e using Expr.induction generalizing r with
  | node e ih =>
    unfold Polynomial.ofCanonical at ih h
    rw [foldM_eq] at h
    obtain ⟨parts, hparts, h⟩ := bind_eq_ok.mp h
    refine step h fun part hpart => ?_
    obtain ⟨c, hc, hpart⟩ := exists_of_forall₂_right (mapM_eq_ok.mp hparts) hpart
    exact ih c hc hpart

end Graded

/-! ## Canonical coefficients -/

/-- The coefficients are forms that the memo has as forms of themselves, and not `0`. -/
def Fixed (memo : Memo) (coefficients : List (Nat × Expr)) : Prop :=
  ∀ t ∈ coefficients, memo.find? t.2 = some t.2 ∧ t.2.isZero = false

/-- Canonicalizing the coefficients keeps them graded. -/
theorem canonicalizeAll_ok {memo later : Memo} (hmemo : memo.Reachable bounds)
    {ts rs : List (Nat × Expr)} (h : (canonicalizeAll bounds ts).run.run memo = (.ok rs, later))
    (hts : Graded name ts) :
    Graded name rs ∧ Fixed later rs ∧
      ∀ power, (∀ t ∈ ts, power < t.1) → ∀ r ∈ rs, power < r.1 := by
  induction ts generalizing memo later rs with
  | nil =>
    cases h
    exact ⟨graded_nil, by simp [Fixed], by simp⟩
  | cons t ts ih =>
    obtain ⟨ht, hlt, hts⟩ := graded_cons.mp hts
    obtain ⟨c, middle, hrun, h⟩ := run_bind_eq_ok.mp h
    obtain ⟨rest, last, hrest, h⟩ := run_bind_eq_ok.mp h
    have hmiddle := (Recording.canonicalize t.2).reachable hmemo hrun
    have hgrows := (Recording.canonicalizeAll ts).grows hrest
    obtain ⟨hgraded, hfixed, hpowers⟩ := ih hmiddle hrest hts
    have hc : Over (· ≠ name) c := hmemo.over_run (congrArg Prod.fst hrun) ht
    have hfind : last.find? c = some c :=
      hgrows.find?_eq hmiddle (find?_of_canonicalizeWithin hmemo hrun).2
    split at h
    · cases h
      exact ⟨hgraded, hfixed, fun power hpower => hpowers power fun s hs => hpower s (by simp [hs])⟩
    · next hzero =>
      cases h
      refine ⟨graded_cons.mpr ⟨hc, hpowers t.1 hlt, hgraded⟩,
        List.forall_mem_cons.mpr ⟨⟨hfind, by simpa using hzero⟩, hfixed⟩, fun power hpower => ?_⟩
      exact List.forall_mem_cons.mpr ⟨hpower t (by simp),
        hpowers power fun s hs => hpower s (by simp [hs])⟩

/-- A polynomial that is extracted has graded canonical coefficients other than `0`. -/
theorem Graded.of_ofExpr {memo later : Memo} (hmemo : memo.Reachable bounds) {e : Expr}
    {p : Polynomial} (h : (ofExpr bounds e name).run.run memo = (.ok p, later)) :
    Graded name p.coefficients ∧ Fixed later p.coefficients := by
  obtain ⟨canonical, middle, hrun, h⟩ := run_bind_eq_ok.mp h
  obtain ⟨raw, same, hraw, h⟩ := run_bind_eq_ok.mp h
  obtain ⟨coefficients, last, hall, h⟩ := run_bind_eq_ok.mp h
  cases h
  obtain ⟨hextracted, rfl⟩ := Prod.mk.inj ((run_lift _ _).symm.trans hraw)
  have hmiddle := (Recording.canonicalize e).reachable hmemo hrun
  obtain ⟨hgraded, hfixed, -⟩ := canonicalizeAll_ok hmiddle hall (ofCanonical hextracted)
  exact ⟨hgraded, hfixed⟩

end Polynomial

end ClosedForm
