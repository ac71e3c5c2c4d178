/-!
# Crusadia.Lib.Along

Runs of a machine that takes its inputs one after the other: what holds of every input and the
state it finds.
-/

namespace Crusadia

variable {σ ι : Type} (step : σ → ι → σ)

/-- `P` holds of every input and the state it finds. -/
def Along (P : σ → ι → Prop) : σ → List ι → Prop
  | _, [] => True
  | s, i :: is => P s i ∧ Along P (step s i) is

theorem along_congr {P Q : σ → ι → Prop} (hPQ : ∀ s i, P s i ↔ Q s i) (s : σ) (is : List ι) :
    Along step P s is ↔ Along step Q s is := by
  induction is generalizing s with
  | nil => exact Iff.rfl
  | cons i is ih => exact and_congr (hPQ s i) (ih _)

/-- The outputs of a machine that answers every input. -/
def trace {ο : Type} (step : σ → ι → ο × σ) : σ → List ι → List ο
  | _, [] => []
  | s, i :: is => (step s i).1 :: trace step (step s i).2 is

end Crusadia
