import ClosedForm.Proofs.Symbols
import ClosedForm.Proofs.Value.Canonical

/-!
# Substitution is simultaneous

A substitution replaces the symbols of an expression by the expressions bound to them, in one go,
and canonicalizes what comes out (`Session.substituteAll_canonicalizes`). So its result has the value of
the expression where the symbols have the values of their replacements, and its symbols are those
of the replacements that were put in: replacements are not searched for bound symbols again
(`Session.substituteAll_simultaneous`).
-/

namespace ClosedForm

variable {bounds : Bounds}

/-- What is bound to a symbol is one of the replacements, or nothing is and it is left as it is. -/
theorem boundTo_cases (bindings : List (String × Expr)) (name : String) :
    boundTo bindings name = .symbol name ∧ name ∉ bindings.map Prod.fst ∨
      boundTo bindings name ∈ bindings.map Prod.snd := by
  unfold boundTo
  cases hlookup : bindings.lookup name with
  | none =>
    refine .inl ⟨rfl, fun hmem => ?_⟩
    obtain ⟨binding, hbinding, rfl⟩ := List.mem_map.mp hmem
    simpa using List.lookup_eq_none_iff.mp hlookup binding hbinding
  | some replacement =>
    obtain ⟨before, after, rfl, -⟩ := List.lookup_eq_some_iff.mp hlookup
    exact .inr (by simp)

/-- A symbol that is bound and occurs in no replacement does not occur afterwards. -/
theorem Expr.contains_replaceSymbols_eq_false {bindings : List (String × Expr)} {name : String}
    (hbound : name ∈ bindings.map Prod.fst)
    (h : ∀ replacement ∈ bindings.map Prod.snd, replacement.contains name = false) (e : Expr) :
    (e.replaceSymbols bindings).contains name = false := by
  rw [Bool.eq_false_iff, ne_eq, contains_replaceSymbols]
  rintro ⟨other, -, hname⟩
  rcases boundTo_cases bindings other with ⟨heq, hother⟩ | hmem
  · rw [heq, contains_symbol] at hname
    exact hother (hname ▸ hbound)
  · rw [h _ hmem] at hname
    cases hname

namespace Session

/-- The bindings with the expressions behind their handles. -/
def replacements (session : Session) (bindings : List (String × Handle)) : List (String × Expr) :=
  bindings.map fun binding => (binding.1, session.pool.expr binding.2)

theorem zip_eq_replacements (session : Session) (bindings : List (String × Handle)) :
    (bindings.map Prod.fst).zip ((bindings.map Prod.snd).map session.pool.expr) =
      session.replacements bindings := by
  rw [List.map_map]
  exact (List.zip_of_prod (by simp [replacements]) (by simp [replacements])).symm

theorem boundTo_replacements (session : Session) (bindings : List (String × Handle)) (name : String) :
    boundTo (session.replacements bindings) name =
      ((bindings.lookup name).map session.pool.expr).getD (.symbol name) := by
  have hlookup : (session.replacements bindings).lookup name =
      (bindings.lookup name).map session.pool.expr := by
    induction bindings with
    | nil => rfl
    | cons binding bindings ih =>
      rw [replacements] at ih ⊢
      rw [List.map_cons, List.lookup_cons, List.lookup_cons, ih]
      cases name == binding.1 <;> rfl
  rw [boundTo, hlookup]

/-- A substitution canonicalizes the expression with its symbols replaced. -/
theorem substituteAll_canonicalizes {session : Session} (h : session.Consistent bounds) (handle : Handle)
    (bindings : List (String × Handle)) :
    session.Performs bounds (substituteAll handle bindings)
      (ClosedForm.canonicalize bounds
        ((session.pool.expr handle).replaceSymbols (session.replacements bindings)))
      Pool.StandsFor := by
  rw [← zip_eq_replacements]
  exact substituteAll_performs h handle bindings

/-- Substitution is simultaneous. The result of a substitution in a reachable session has the value
that the expression has where its symbols have the values of what is bound to them, in every
interpretation. The symbols of the result are symbols of the expression to which nothing is bound
or symbols of replacements, which are not replaced again. So a bound symbol that no replacement
contains is gone. -/
theorem substituteAll_simultaneous {session later : Session} (hsession : session.Reachable bounds)
    {handle result : Handle} {bindings : List (String × Handle)}
    (hanswer : session.answer (substituteAll handle bindings) = (.ok result, later)) :
    (∀ (K : Type*) [Field K] [CharZero K] (M : Interpretation K) (ρ ρ' : String → K) (x : K),
      (∀ name, (session.pool.expr handle).contains name = true →
        M.value ρ (boundTo (session.replacements bindings) name) = some (ρ' name)) →
      M.value ρ' (session.pool.expr handle) = some x →
      M.value ρ (later.pool.expr result) = some x) ∧
    (∀ name, (later.pool.expr result).contains name = true →
      ∃ other, (session.pool.expr handle).contains other = true ∧
        (boundTo (session.replacements bindings) other).contains name = true) ∧
    (∀ name ∈ bindings.map Prod.fst,
      (∀ binding ∈ bindings, (session.pool.expr binding.2).contains name = false) →
      (later.pool.expr result).contains name = false) := by
  obtain ⟨c, hrun, -, -, hresult⟩ :=
    (substituteAll_canonicalizes hsession.consistent handle bindings).of_answer hanswer
  have hmemo := hsession.consistent.memo
  have hrun := congrArg Prod.fst hrun
  rw [hresult]
  -- No symbols come in when the replaced expression is canonicalized.
  have hsymbols : ∀ name, c.contains name = true →
      ((session.pool.expr handle).replaceSymbols (session.replacements bindings)).contains name =
        true :=
    hmemo.over_run hrun fun _ h => h
  refine ⟨fun K _ _ M ρ ρ' x hvalues hx => ?_, fun name hname => ?_, fun name hbound hfree => ?_⟩
  · refine hmemo.keepsValue_run hrun x ?_
    rw [Interpretation.value_replaceSymbols hvalues, hx]
  · exact (Expr.contains_replaceSymbols _ name).mp (hsymbols name hname)
  · rw [Bool.eq_false_iff]
    refine fun hname => absurd (hsymbols name hname) (Bool.eq_false_iff.mp ?_)
    refine Expr.contains_replaceSymbols_eq_false ?_ ?_ _
    · simpa [replacements] using hbound
    · intro replacement hreplacement
      obtain ⟨name, binding, hbinding, rfl⟩ :
          ∃ name handle, (name, handle) ∈ bindings ∧ session.pool.expr handle = replacement := by
        simpa [replacements] using hreplacement
      exact hfree _ hbinding

/-- In a session that read `x - y`, `y + 1` and `2`, putting `y + 1` for `x` and `2` for `y` gives
`y - 1`: the `y` that came in stays. Where `y` is `5` it has the value that `x - y` has where `x` is
`6` and `y` is `2`. -/
theorem substituteAll_simultaneous_text :
    ∃ (session later : Session) (handle sum two result : Handle), session.Reachable {} ∧
      session.answer (substituteAll handle [("x", sum), ("y", two)]) = (.ok result, later) ∧
      later.pool.expr result = .add [.constant (-1), .symbol "y"] ∧
      (Interpretation.complex.value (fun name => if name = "x" then 6 else 2)
        (session.pool.expr handle) = some 4) ∧
      (Interpretation.complex.value (fun _ => 5) (later.pool.expr result) = some 4) ∧
      (later.pool.expr result).contains "x" = false := by
  have hread : List.Forall₂ (fun text e => Formula.read text = .ok e) ["x - y", "y + 1", "2"]
      [.add [.symbol "x", .mul [.constant (-1), .symbol "y"]],
        .add [.symbol "y", .constant 1], .constant 2] :=
    .cons (by cbv) (.cons (by cbv) (.cons (by cbv) .nil))
  obtain ⟨session, handles, hsession, hmemo, - | @⟨_, handle, _, _, hhandle, - | @⟨_, sum, _, _,
    hsum, - | @⟨_, two, _, _, htwo, -⟩⟩⟩⟩ := exists_parsed_all {} hread
  have hreplacements : session.replacements [("x", sum), ("y", two)] =
      [("x", .add [.symbol "y", .constant 1]), ("y", .constant 2)] := by
    simp [replacements, hsum.2, htwo.2]
  have hrun : ((ClosedForm.canonicalize {} ((session.pool.expr handle).replaceSymbols
      (session.replacements [("x", sum), ("y", two)]))).run.run session.memo).1 =
      .ok (.add [.constant (-1), .symbol "y"]) := by
    rw [hmemo, hhandle.2, hreplacements]
    cbv
  obtain ⟨result, later, hanswer, -, -, hresult⟩ :=
    (substituteAll_canonicalizes hsession.consistent handle _).of_run (Prod.ext hrun rfl)
  have hvalue : Interpretation.complex.value (fun name => if name = "x" then 6 else 2)
      (session.pool.expr handle) = some 4 := by
    have hname : "y" ≠ "x" := by decide
    simp only [hhandle.2, Interpretation.value, Interpretation.sumValue, Interpretation.productValue,
      Option.map₂_some_some, if_pos, if_neg hname, Rat.cast_neg, Rat.cast_one]
    norm_num
  obtain ⟨hvalues, -, hgone⟩ := substituteAll_simultaneous hsession hanswer
  refine ⟨session, later, handle, sum, two, result, hsession, hanswer, hresult.2, hvalue, ?_, ?_⟩
  · refine hvalues ℂ _ _ _ _ ?_ hvalue
    rw [hhandle.2, hreplacements]
    show Expr.Over (fun name => Interpretation.complex.value (fun _ => 5) (boundTo _ name) = _) _
    have hsix : (5 : ℂ) + 1 = 6 := by norm_num
    simp [Expr.over_symbol, boundTo, List.lookup, Interpretation.value, Interpretation.sumValue, hsix]
  · refine hgone "x" (by simp) ?_
    simp only [List.forall_mem_cons, hsum.2, htwo.2]
    exact ⟨by cbv, by cbv, by simp⟩

end Session

end ClosedForm
