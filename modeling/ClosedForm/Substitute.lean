import ClosedForm.Canonical.Form

/-!
# Substitution

Symbols are replaced all at once: the replacements are not searched for symbols again. Of two
bindings for a symbol the first counts. The result is canonicalized.
-/

namespace ClosedForm

/-- The expression bound to a symbol, or the symbol itself. -/
def boundTo (bindings : List (String × Expr)) (name : String) : Expr :=
  (bindings.lookup name).getD (.symbol name)

/-- The expression with its symbols replaced and nothing else changed. -/
def Expr.replaceSymbols (bindings : List (String × Expr)) : Expr → Expr :=
  Expr.recurse fun node children =>
    match node with
    | .symbol name => boundTo bindings name
    | e => e.withChildren children

/-- The canonical form of an expression with symbols replaced. -/
def substituteAll (bounds : Bounds) (e : Expr) (bindings : List (String × Expr)) :
    Memoizing Expr :=
  canonicalize bounds (e.replaceSymbols bindings)

/-- The canonical form of an expression with one symbol replaced. -/
def substitute (bounds : Bounds) (e : Expr) (name : String) (replacement : Expr) :
    Memoizing Expr :=
  substituteAll bounds e [(name, replacement)]

end ClosedForm
