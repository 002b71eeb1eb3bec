import Mathlib.Logic.Basic

namespace Linger

/-- What is decided for every value is decided for one, with a variable in its place. -/
@[elab_as_elim] def putIn {α : Type} {motive : α → Type} (a : α) (h : ∀ x, motive x) : motive a :=
  h a

end Linger
