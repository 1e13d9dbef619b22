/-!
# Recursion on a measure, with fuel

A recursive function is given by its body `F`, which takes the function itself as
an argument. `iterate` unfolds the body a fixed number of times. `run` unfolds it
often enough for the measure of its argument, and then no fuel shows: `run_eq`.
-/

namespace Fuel

variable {σ ρ : Type} (F : (σ → ρ) → σ → ρ) (bottom : σ → ρ) (μ : σ → Nat)

/-- The body, unfolded `k` times over `bottom`. -/
def iterate : Nat → σ → ρ
  | 0 => bottom
  | k + 1 => F (iterate k)

/-- Unfolded once more than the measure of the argument. -/
def run (s : σ) : ρ := iterate F bottom (μ s + 1) s

/-- The body calls the function on smaller arguments only. It may use that results are
`Good`, since the argument of one call can come from the result of another. -/
structure Decreasing (Good : σ → ρ → Prop) : Prop where
  bottom : ∀ s, Good s (bottom s)
  good : ∀ f, (∀ s, Good s (f s)) → ∀ s, Good s (F f s)
  agree : ∀ f g, (∀ s, Good s (f s)) → (∀ s, Good s (g s)) →
    ∀ s, (∀ t, μ t < μ s → f t = g t) → F f s = F g s

variable {F bottom μ} {Good : σ → ρ → Prop}

/-- What the body keeps of a function, its unfoldings have. -/
theorem iterate_keeps {P : (σ → ρ) → Prop} (hbottom : P bottom) (hF : ∀ f, P f → P (F f))
    (k : Nat) : P (iterate F bottom k) := by
  induction k with
  | zero => exact hbottom
  | succ k ih => exact hF _ ih

/-- What the body keeps of all results, those of the function that it describes have. -/
theorem run_keeps {P : σ → ρ → Prop} (hbottom : ∀ s, P s (bottom s))
    (hF : ∀ f, (∀ s, P s (f s)) → ∀ s, P s (F f s)) (s : σ) : P s (run F bottom μ s) :=
  iterate_keeps (P := fun f => ∀ s, P s (f s)) hbottom hF (μ s + 1) s

theorem iterate_good (h : Decreasing F bottom μ Good) (k : Nat) (s : σ) :
    Good s (iterate F bottom k s) :=
  iterate_keeps (P := fun f => ∀ s, Good s (f s)) h.bottom h.good k s

theorem iterate_stable (h : Decreasing F bottom μ Good) (k l : Nat) (s : σ)
    (hk : μ s < k) (hl : μ s < l) : iterate F bottom k s = iterate F bottom l s := by
  induction k generalizing l s with
  | zero => omega
  | succ k ih =>
    obtain ⟨l, rfl⟩ : ∃ j, l = j + 1 := ⟨l - 1, by omega⟩
    apply h.agree _ _ (iterate_good h k) (iterate_good h l)
    intro t ht
    exact ih l t (by omega) (by omega)

theorem run_good (h : Decreasing F bottom μ Good) (s : σ) : Good s (run F bottom μ s) :=
  iterate_good h _ s

/-- The function that `F` describes. -/
theorem run_eq (h : Decreasing F bottom μ Good) (s : σ) :
    run F bottom μ s = F (run F bottom μ) s := by
  apply h.agree _ _ (iterate_good h _) (run_good h)
  intro t ht
  exact iterate_stable h _ _ t ht (Nat.lt_succ_self _)

end Fuel
