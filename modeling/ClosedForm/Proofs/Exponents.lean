import ClosedForm.Proofs.Closure
import ClosedForm.Proofs.Reduction

/-!
# Exponents that a pass simplifies

The rules keep a property of expressions where its exponents are simple enough (`Canonical.Closed`).
A derivative has exponents that are not simple yet, such as `n - 1`. If one pass makes simple ones of
them (`Canonical.Refines`), then the canonical form has the property with simple exponents
(`Canonical.Refines.run`), although a form from the memo may be put in the place of any subexpression
on the way there.
-/

namespace ClosedForm

open ClosedForm.Expr

namespace Canonical

variable {bounds : Bounds} {H : Func → Prop} {R E R' E' : Expr → Prop}

/-- `R'` is `R` with exponents in `E'`, of which one pass makes exponents in `E`. -/
structure Refines (bounds : Bounds) (H : Func → Prop) (R E R' E' : Expr → Prop) : Prop where
  closed : Closed H R E
  hereditary : Hereditary H R' E'
  symbol : ∀ name, R (.symbol name) ↔ R' (.symbol name)
  exponent : ∀ x, E x → E' x
  reduces : ∀ x, E' x → ∃ c, Reduces bounds x c ∧ E c

namespace Refines

variable (h : Refines bounds H R E R' E')

include h

theorem weaken {e : Expr} (he : R e) : R' e := by
  induction e using Expr.induction with
  | node e ih =>
    cases e with
    | constant c => exact h.hereditary.constant c
    | symbol name => exact (h.symbol name).mp he
    | add ts => exact (h.hereditary.add _).mpr fun t ht => ih t ht ((h.closed.add _).mp he t ht)
    | mul fs => exact (h.hereditary.mul _).mpr fun f hf => ih f hf ((h.closed.mul _).mp he f hf)
    | pow base exponent =>
      obtain ⟨hbase, hexponent⟩ := (h.closed.pow _ _).mp he
      exact (h.hereditary.pow _ _).mpr ⟨ih base (by simp [children]) hbase, h.exponent _ hexponent⟩
    | function f arguments =>
      obtain ⟨hf, harguments⟩ := (h.closed.function _ _).mp he
      exact (h.hereditary.function _ _).mpr ⟨hf, fun a ha => ih a ha (harguments a ha)⟩

/-- In a normal expression all exponents are simple. -/
theorem of_normal {e : Expr} (hnormal : Normal bounds e) (he : R' e) : R e := by
  induction e using Expr.induction with
  | node e ih =>
    have ih {c : Expr} (hc : c ∈ e.children) (hR : R' c) : R c :=
      ih c hc (hnormal.of_mem_children hc) hR
    cases e with
    | constant c => exact h.closed.constant c
    | symbol name => exact (h.symbol name).mpr he
    | add ts => exact (h.closed.add _).mpr fun t ht => ih ht ((h.hereditary.add _).mp he t ht)
    | mul fs => exact (h.closed.mul _).mpr fun f hf => ih hf ((h.hereditary.mul _).mp he f hf)
    | pow base exponent =>
      obtain ⟨hbase, hexponent⟩ := (h.hereditary.pow _ _).mp he
      obtain ⟨c, hreduces, hc⟩ := h.reduces _ hexponent
      have hsame := pass_empty_normal (hnormal.of_mem_children (c := exponent) (by simp [children]))
      cases hsame.symm.trans hreduces.pass
      exact (h.closed.pow _ _).mpr ⟨ih (by simp [children]) hbase, hc⟩
    | function f arguments =>
      obtain ⟨hf, harguments⟩ := (h.hereditary.function _ _).mp he
      exact (h.closed.function _ _).mpr ⟨hf, fun a ha => ih ha (harguments a ha)⟩

/-- A pass makes all exponents simple. -/
theorem pass {memo : Memo} (hmemo : memo.Reachable bounds)
    (hentries : ∀ e c, memo.find? e = some c → R' e → R' c) {e r : Expr}
    (hpass : Canonical.pass bounds memo e = .ok r) (he : R' e) : R r := by
  induction e using Expr.induction generalizing r with
  | node e ih =>
    rw [pass_eq] at hpass
    obtain ⟨cs, hcs, hpass⟩ := bind_eq_ok.mp hpass
    have hpasses := mapM_eq_ok.mp hcs
    cases hfind : memo.find? e with
    | some canonical =>
      rw [passStep_of_find hfind] at hpass
      cases hpass
      exact h.of_normal (hmemo.settled e _ hfind).2 (hentries e _ hfind he)
    | none =>
      rw [passStep_of_not_find hfind] at hpass
      refine h.closed.simplifyNode hpass ?_
      have hall (hchildren : ∀ c ∈ e.children, R' c) : ∀ c ∈ cs, R c := by
        intro c hc
        obtain ⟨child, hchild, hpass⟩ := exists_of_forall₂_right hpasses hc
        exact ih child hchild hpass (hchildren child hchild)
      cases e with
      | constant c => exact h.closed.constant c
      | symbol name => exact (h.symbol name).mpr he
      | add ts => exact (h.closed.add _).mpr (hall ((h.hereditary.add _).mp he))
      | mul fs => exact (h.closed.mul _).mpr (hall ((h.hereditary.mul _).mp he))
      | function f arguments =>
        obtain ⟨hf, harguments⟩ := (h.hereditary.function _ _).mp he
        exact (h.closed.function _ _).mpr ⟨hf, hall harguments⟩
      | pow base exponent =>
        obtain ⟨hbase, hexponent⟩ := (h.hereditary.pow _ _).mp he
        obtain ⟨c, hreduces, hc⟩ := h.reduces _ hexponent
        match cs, hpasses with
        | [b, x], .cons hb (.cons hx .nil) =>
          rw [pass_eq_of_direct hmemo.faithful hreduces.direct, hreduces.pass] at hx
          cases hx
          exact (h.closed.pow _ _).mpr ⟨ih base (by simp [children]) hb hbase, hc⟩

/-- The canonical form has simple exponents. -/
theorem run {memo later : Memo} (hmemo : memo.Reachable bounds) {e c : Expr}
    (hrun : (canonicalize bounds e).run.run memo = (.ok c, later)) (he : R' e) : R c := by
  have hloose : R' c :=
    hmemo.related_run (R := fun e c => R' e → R' c) (fun _ h => h) (fun hab hbc ha => hbc (hab ha))
      (fun _ hmemo hentries _ _ hpass he => h.weaken (h.pass hmemo hentries hpass he))
      (congrArg Prod.fst hrun) he
  exact h.of_normal (normal_of_canonicalize hmemo hrun) hloose

end Refines

end Canonical

end ClosedForm
