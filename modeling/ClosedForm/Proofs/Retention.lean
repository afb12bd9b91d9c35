import ClosedForm.Proofs.Settling

/-!
# What a memo keeps

The forms in a reachable memo are forms of themselves (`Memo.Stable`). So settling from an expression
that the memo knows ends at the form that it knows, and what is recorded afterwards contradicts nothing
that was there: a memo only ever gains entries (`Memo.Grows.find?_eq`).

A canonicalization that ends well is therefore answered from the memo ever after, with any number of
passes (`find?_of_canonicalizeWithin`, `canonicalizeWithin_of_find?`). One that fails leaves the memo as it is,
and more passes only matter to one that used them up (`canonicalizeWithin_mono`).
-/

namespace ClosedForm

open Canonical

variable {bounds : Bounds} {memo later : Memo}

/-- The forms that the memo has are forms of themselves. -/
def Memo.Stable (memo : Memo) : Prop :=
  ∀ e c, memo.find? e = some c → memo.find? c = some c

/-! ## Settling -/

namespace Canonical

variable {maxPasses passes : Nat} {seen seen' : List Expr} {e current canonical d : Expr}

/-- A pass of an expression that the memo knows ends at the form that it knows. -/
theorem eq_of_pass_of_find? {next : Expr} (hfind : memo.find? e = some d)
    (h : pass bounds memo e = .ok next) : next = d := by
  rw [pass_eq, bind_eq_ok] at h
  obtain ⟨children, -, h⟩ := h
  rw [passStep_of_find hfind] at h
  exact (Except.ok.inj h).symm

/-- What was gone through before is gone through. -/
theorem mem_of_settle {s : Expr} (hs : s ∈ seen)
    (h : settle bounds memo maxPasses passes seen current = .ok (canonical, seen')) : s ∈ seen' := by
  induction passes generalizing seen current with
  | zero => cases h
  | succ passes ih =>
    obtain ⟨next, -, ⟨-, -, rfl⟩ | ⟨-, -, rfl⟩ | ⟨-, -, h⟩⟩ := settle_succ_eq_ok.mp h
    · exact hs
    · exact hs
    · exact ih (List.mem_cons_of_mem next hs) h

/-- The memo has no other form for the form at which passes settle. -/
theorem eq_of_settle_of_find? (hmemo : memo.Stable)
    (h : settle bounds memo maxPasses passes seen current = .ok (canonical, seen'))
    (hfind : memo.find? canonical = some d) : d = canonical := by
  rcases settle_ends h with hpass | ⟨e, hknown⟩
  · exact (eq_of_pass_of_find? hfind hpass).symm
  · exact Option.some.inj (hfind.symm.trans (hmemo e _ hknown))

/-- What settling went through settles at the form that the memo has for it, if it has one. -/
theorem eq_of_mem_seen (hmemo : memo.Stable)
    (h : settle bounds memo maxPasses passes [e] e = .ok (canonical, seen')) {s : Expr}
    (hs : s ∈ seen') (hfind : memo.find? s = some d) : d = canonical := by
  let R (a b : Expr) : Prop := ∀ d, memo.find? a = some d → memo.find? b = some d
  have hrelated : ∀ s ∈ seen', R s canonical := by
    refine (settle_related (R := R) (fun _ _ hd => hd) (fun hab hbc d hd => hbc d (hab d hd)) ?_ ?_
      (by simp [R]) h).2
    · intro a next hpass d hd
      rw [eq_of_pass_of_find? hd hpass]
      exact hmemo a d hd
    · intro a c hc d hd
      obtain rfl : d = c := Option.some.inj (hd.symm.trans hc)
      exact hmemo a d hd
  exact eq_of_settle_of_find? hmemo h (hrelated s hs d hfind)

/-- Passes settle at the same form if more of them are allowed. -/
theorem settle_mono {morePasses more : Nat}
    (h : settle bounds memo maxPasses passes seen current = .ok (canonical, seen'))
    (hle : passes ≤ more) :
    settle bounds memo morePasses more seen current = .ok (canonical, seen') := by
  induction passes generalizing seen current more with
  | zero => cases h
  | succ passes ih =>
    obtain ⟨more, rfl⟩ : ∃ k, more = k + 1 := ⟨more - 1, by omega⟩
    obtain ⟨next, hnext, hlast⟩ := settle_succ_eq_ok.mp h
    refine settle_succ_eq_ok.mpr ⟨next, hnext, hlast.imp_right (.imp_right ?_)⟩
    exact fun ⟨hne, hnew, h⟩ => ⟨hne, hnew, ih h (by omega)⟩

end Canonical

/-! ## Memos -/

/-- Recording what passes went through keeps the entries of the memo. -/
theorem Memo.Stable.find?_record {e s c canonical : Expr} {seen : List Expr} {maxPasses : Nat}
    (hmemo : memo.Stable)
    (hsettle : settle bounds memo maxPasses maxPasses [e] e = .ok (canonical, seen))
    (hfind : memo.find? s = some c) : (memo.record seen canonical).find? s = some c := by
  rw [Memo.find?_record]
  split
  · next hrecorded =>
    rcases hrecorded with hseen | rfl
    · rw [eq_of_mem_seen hmemo hsettle hseen hfind]
    · rw [eq_of_settle_of_find? hmemo hsettle hfind]
  · exact hfind

theorem Memo.Stable.record {e canonical : Expr} {seen : List Expr} {maxPasses : Nat}
    (hmemo : memo.Stable)
    (hsettle : settle bounds memo maxPasses maxPasses [e] e = .ok (canonical, seen)) :
    (memo.record seen canonical).Stable := by
  intro s c hfind
  have hcanonical : (memo.record seen canonical).find? canonical = some canonical := by
    rw [Memo.find?_record, if_pos (.inr rfl)]
  rcases Memo.find?_record_cases hfind with ⟨rfl, -⟩ | hfind
  · exact hcanonical
  · exact hmemo.find?_record hsettle (hmemo s c hfind)

theorem Memo.Reachable.stable (h : memo.Reachable bounds) : memo.Stable := by
  induction h with
  | empty => exact fun e c hfind => by cases hfind
  | record _ hsettle ih => exact ih.record hsettle

/-- Canonicalizations change no entry of a memo. -/
theorem Memo.Grows.find?_eq (h : memo.Reachable bounds) (hgrows : memo.Grows bounds later)
    {e c : Expr} (hfind : memo.find? e = some c) : later.find? e = some c := by
  induction hgrows with
  | refl => exact hfind
  | record hgrows hsettle ih => exact (h.grows hgrows).stable.find?_record hsettle ih

/-! ## Canonicalizations -/

variable {e c : Expr} {k : Nat}

/-- What the memo knows needs no pass. -/
theorem canonicalizeWithin_of_find? (hfind : memo.find? e = some c) (k : Nat) :
    (canonicalizeWithin bounds k e).run.run memo = (.ok c, memo) := by
  rw [run_canonicalizeWithin, hfind]

/-- After a canonicalization the memo knows the form of the expression, and of the form. -/
theorem find?_of_canonicalizeWithin (hmemo : memo.Reachable bounds)
    (h : (canonicalizeWithin bounds k e).run.run memo = (.ok c, later)) :
    later.find? e = some c ∧ later.find? c = some c := by
  rcases run_canonicalizeWithin_eq_ok.mp h with ⟨hfind, rfl⟩ | ⟨-, seen, hsettle, rfl⟩
  · exact ⟨hfind, hmemo.stable e c hfind⟩
  · have he : e ∈ seen := mem_of_settle (List.mem_singleton.mpr rfl) hsettle
    exact ⟨by rw [Memo.find?_record, if_pos (.inl he)], by rw [Memo.find?_record, if_pos (.inr rfl)]⟩

/-- A canonicalization that fails records nothing. -/
theorem memo_of_canonicalizeWithin_error {x : Error}
    (h : (canonicalizeWithin bounds k e).run.run memo = (.error x, later)) : later = memo := by
  rw [run_canonicalizeWithin] at h
  split at h
  · cases h
  · split at h <;> cases h
    rfl

/-- A canonicalization that ends well within some passes ends in the same way within more. -/
theorem canonicalizeWithin_mono {more : Nat}
    (h : (canonicalizeWithin bounds k e).run.run memo = (.ok c, later)) (hle : k ≤ more) :
    (canonicalizeWithin bounds more e).run.run memo = (.ok c, later) := by
  refine run_canonicalizeWithin_eq_ok.mpr ((run_canonicalizeWithin_eq_ok.mp h).imp_right ?_)
  exact fun ⟨hfind, seen, hsettle, hlater⟩ => ⟨hfind, seen, settle_mono hsettle hle, hlater⟩

end ClosedForm
