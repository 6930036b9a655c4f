import ClauseInduction.Term.Basic

/-!
# The order of terms

Variables come before constants and constants before applications.  Names are ordered by their
characters; applications by the name of the symbol, then by its arity, then by their arguments
from left to right, where a list that ends first comes first.
-/

namespace ClauseInduction

namespace FunctionSymbol

protected def compare (f g : FunctionSymbol) : Ordering :=
  (compare f.name g.name).then (compare f.arity g.arity)

instance : Ord FunctionSymbol := ⟨FunctionSymbol.compare⟩

end FunctionSymbol

namespace Term

mutual

protected def compare : Term → Term → Ordering
  | var x, var y => Ord.compare x y
  | var _, const _ => .lt
  | var _, app _ _ => .lt
  | const _, var _ => .gt
  | const c, const d => Ord.compare c d
  | const _, app _ _ => .lt
  | app _ _, var _ => .gt
  | app _ _, const _ => .gt
  | app f ss, app g ts => (Ord.compare f g).then (Term.compareList ss ts)

protected def compareList : List Term → List Term → Ordering
  | [], [] => .eq
  | [], _ :: _ => .lt
  | _ :: _, [] => .gt
  | s :: ss, t :: ts => (Term.compare s t).then (Term.compareList ss ts)

end

instance : Ord Term := ⟨Term.compare⟩

end Term

end ClauseInduction
