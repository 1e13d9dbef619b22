import Liboas.Lib.Outcome
import Mathlib.Algebra.BigOperators.Group.List.Basic
import Mathlib.Algebra.Ring.Nat

/-!
# Computations that count

A computation that can fail and counts units of work as it goes. `Erases x y` says that `x` is `y`
when its count is left out. `Spends x P` says that what `x` returns, and how much it counts until
then, have property `P`. Each has a rule for `bind` and one for a fold.
-/

abbrev Counting (ε : Type) := StateT Nat (Except ε)

namespace Counting

open Outcome

variable {ε α β : Type}

def tick (n : Nat) : Counting ε Unit := fun k => .ok ((), k + n)

/-- Counts nothing. -/
def free (x : Except ε α) : Counting ε α := fun k => x.map (fun a => (a, k))

def Erases (x : Counting ε α) (y : Except ε α) : Prop := ∀ k, (x k).map Prod.fst = y

def Spends (x : Counting ε α) (P : α → Nat → Prop) : Prop :=
  ∀ k a k', x k = .ok (a, k') → ∃ n, k' = k + n ∧ P a n

theorem bind_run (x : Counting ε α) (f : α → Counting ε β) (k : Nat) :
    (x >>= f) k = x k >>= fun r => f r.1 r.2 := rfl

/-! ## What is counted for -/

namespace Erases

theorem pure (a : α) : Erases (Pure.pure a : Counting ε α) (Pure.pure a) := fun _ => rfl

theorem tick (n : Nat) : Erases (tick n : Counting ε Unit) (Pure.pure ()) := fun _ => rfl

theorem free (x : Except ε α) : Erases (free x) x := by
  intro k
  cases x <;> rfl

theorem bind {x : Counting ε α} {y : Except ε α} {f : α → Counting ε β} {g : α → Except ε β}
    (h : Erases x y) (hf : ∀ a, Erases (f a) (g a)) : Erases (x >>= f) (y >>= g) := by
  intro k
  have hx := h k
  rw [bind_run]
  cases hrun : x k with
  | error e =>
    rw [hrun] at hx
    rw [← hx]
    rfl
  | ok r =>
    rw [hrun] at hx
    rw [← hx]
    exact hf r.1 r.2

/-- Work that is counted first. -/
theorem after_tick {n : Nat} {x : Counting ε α} {y : Except ε α} (h : Erases x y) :
    Erases (Counting.tick n >>= fun _ => x) y :=
  bind (tick n) (fun _ => h)

theorem foldlM {f : β → α → Counting ε β} {g : β → α → Except ε β}
    (h : ∀ b a, Erases (f b a) (g b a)) (l : List α) (b : β) :
    Erases (l.foldlM f b) (l.foldlM g b) := by
  induction l generalizing b with
  | nil => exact pure b
  | cons a l ih =>
    rw [List.foldlM_cons, List.foldlM_cons]
    exact bind (h b a) ih

end Erases

/-! ## How much is counted -/

namespace Spends

variable {P : α → Nat → Prop} {Q : β → Nat → Prop}

theorem pure {a : α} (h : P a 0) : Spends (Pure.pure a : Counting ε α) P := by
  rintro k _ _ ⟨⟩
  exact ⟨0, rfl, h⟩

theorem tick {n : Nat} : Spends (tick n : Counting ε Unit) (fun _ k => k = n) := by
  rintro k _ _ ⟨⟩
  exact ⟨n, rfl, rfl⟩

theorem free {x : Except ε α} (h : Permits x (fun a => P a 0)) : Spends (free x) P := by
  intro k a k' hrun
  cases x with
  | error e => cases hrun
  | ok a =>
    cases hrun
    exact ⟨0, rfl, h a rfl⟩

theorem mono {P' : α → Nat → Prop} {x : Counting ε α} (h : Spends x P)
    (hP : ∀ a n, P a n → P' a n) : Spends x P' := by
  intro k a k' hrun
  obtain ⟨n, hn, ha⟩ := h k a k' hrun
  exact ⟨n, hn, hP a n ha⟩

theorem bind {x : Counting ε α} {f : α → Counting ε β} (h : Spends x P)
    (hf : ∀ a n, P a n → Spends (f a) (fun b n' => Q b (n + n'))) : Spends (x >>= f) Q := by
  intro k b k'' hrun
  rw [bind_run] at hrun
  obtain ⟨⟨a, k'⟩, hx, hrun⟩ := bind_eq_ok.mp hrun
  obtain ⟨n, rfl, ha⟩ := h k a k' hx
  obtain ⟨n', rfl, hb⟩ := hf a n ha _ b k'' hrun
  exact ⟨n + n', Nat.add_assoc k n n', hb⟩

theorem after_tick {n : Nat} {x : Counting ε α} (h : Spends x (fun a k => P a (n + k))) :
    Spends (Counting.tick n >>= fun _ => x) P := by
  refine bind tick ?_
  rintro _ _ rfl
  exact h

/-- What is returned is what is returned without counting. -/
theorem erased {x : Counting ε α} {y : Except ε α} (h : Spends x P) (hxy : Erases x y) :
    Spends x (fun a n => y = .ok a ∧ P a n) := by
  intro k a k' hrun
  obtain ⟨n, hn, ha⟩ := h k a k' hrun
  refine ⟨n, hn, ?_, ha⟩
  rw [← hxy k, hrun]
  rfl

/-- The steps of a fold are paid for one by one. -/
theorem foldlM {f : β → α → Counting ε β} {I : β → Prop} {price : α → Nat} {l : List α} {b : β}
    (hb : I b) (hf : ∀ b, I b → ∀ a ∈ l, Spends (f b a) (fun b' n => I b' ∧ n ≤ price a)) :
    Spends (l.foldlM f b) (fun b' n => I b' ∧ n ≤ (l.map price).sum) := by
  induction l generalizing b with
  | nil => exact pure ⟨hb, Nat.le_refl 0⟩
  | cons a l ih =>
    rw [List.foldlM_cons]
    refine bind (hf b hb a List.mem_cons_self) ?_
    rintro c n ⟨hc, hn⟩
    refine (ih hc fun b hb a ha => hf b hb a (List.mem_cons_of_mem _ ha)).mono ?_
    rintro b' n' ⟨hb', hn'⟩
    refine ⟨hb', ?_⟩
    rw [List.map_cons, List.sum_cons]
    exact Nat.add_le_add hn hn'

end Spends

end Counting
