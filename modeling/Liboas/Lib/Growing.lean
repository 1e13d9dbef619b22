/-!
# Steps that grow a value or leave it

A step `Grows` a measure when it never makes it smaller, and leaves the value as it is
where the measure stays the same. Then a run of such steps changes nothing just when no
step of it does.
-/

structure Grows {β : Type} (μ : β → Nat) (f : β → β) : Prop where
  le : ∀ b, μ b ≤ μ (f b)
  same : ∀ b, μ (f b) = μ b → f b = b

namespace Grows

variable {β γ : Type} {μ : β → Nat}

theorem foldl {step : β → γ → β} (h : ∀ c, Grows μ (fun b => step b c)) (l : List γ) :
    Grows μ (fun b => l.foldl step b) := by
  induction l with
  | nil => exact ⟨fun b => Nat.le_refl _, fun b _ => rfl⟩
  | cons c l ih =>
    refine ⟨fun b => Nat.le_trans ((h c).le b) (ih.le _), fun b hb => ?_⟩
    have hfirst : μ b ≤ μ (step b c) := (h c).le b
    have hrest : μ (step b c) ≤ μ (l.foldl step (step b c)) := ih.le _
    rw [List.foldl_cons] at hb ⊢
    have hstep : step b c = b := (h c).same b (by omega)
    rw [hstep] at hb ⊢
    exact ih.same b hb

/-- A run of growing steps leaves a value if and only if each of them does. -/
theorem foldl_eq_self {step : β → γ → β} (h : ∀ c, Grows μ (fun b => step b c)) (l : List γ)
    (b : β) : l.foldl step b = b ↔ ∀ c ∈ l, step b c = b := by
  induction l with
  | nil => simp
  | cons c l ih =>
    rw [List.foldl_cons, List.forall_mem_cons, ← ih]
    constructor
    · intro hrun
      have hfirst : μ b ≤ μ (step b c) := (h c).le b
      have hrest : μ (step b c) ≤ μ (l.foldl step (step b c)) := (foldl h l).le _
      have hstep : step b c = b := (h c).same b (by rw [hrun] at hrest; omega)
      rw [hstep] at hrun
      exact ⟨hstep, hrun⟩
    · rintro ⟨hstep, hrest⟩
      rw [hstep]
      exact hrest

end Grows
