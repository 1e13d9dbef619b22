import Mathlib.Algebra.BigOperators.Group.List.Basic
import Mathlib.Algebra.Ring.Nat

/-!
# Computations that make requests

A computation asks for something a number of times and stops where it is refused. What is
answered to the n-th request is given from outside. `Makes m k v` says that `m` makes `k`
requests and returns `v`, if all of them are granted.
-/

namespace Requests

/-- A computation, from the number of requests made before it. -/
abbrev Requesting := ReaderT (Nat → Bool) (StateT Nat Option)

def request : Requesting Unit := fun answers n => if answers n then some ((), n + 1) else none

/-- The requests from `n` on, `k` of them, are granted. -/
def granted (answers : Nat → Bool) (n k : Nat) : Bool :=
  (List.range k).all (fun i => answers (n + i))

variable {α β : Type}

theorem granted_iff {answers : Nat → Bool} {n k : Nat} :
    granted answers n k = true ↔ ∀ i < k, answers (n + i) = true := by
  simp [granted]

theorem granted_add (answers : Nat → Bool) (n k k' : Nat) :
    granted answers n (k + k') = true ↔
      granted answers n k = true ∧ granted answers (n + k) k' = true := by
  rw [granted_iff, granted_iff, granted_iff]
  constructor
  · intro h
    refine ⟨fun i hi => h i (by omega), fun i hi => ?_⟩
    rw [Nat.add_assoc]
    exact h (k + i) (by omega)
  · intro ⟨hfirst, hrest⟩ i hi
    by_cases hik : i < k
    · exact hfirst i hik
    · have hlate := hrest (i - k) (by omega)
      have hplace : n + k + (i - k) = n + i := by omega
      rwa [hplace] at hlate

def Makes (m : Requesting α) (k : Nat) (v : α) : Prop :=
  ∀ answers n, m answers n = if granted answers n k then some (v, n + k) else none

namespace Makes

theorem pure (v : α) : Makes (Pure.pure v) 0 v := fun _ _ => rfl

theorem request : Makes request 1 () := by
  intro answers n
  unfold Requests.request granted
  simp

theorem bind {m : Requesting α} {f : α → Requesting β} {k k' : Nat} {v : α} {w : β}
    (hm : Makes m k v) (hf : Makes (f v) k' w) : Makes (m >>= f) (k + k') w := by
  intro answers n
  have hbind : (m >>= f) answers n =
      (m answers n).bind (fun r => f r.1 answers r.2) := by
    show Option.bind _ _ = _
    congr 1
  rw [hbind, hm answers n]
  by_cases hfirst : granted answers n k = true
  · rw [if_pos hfirst, Option.bind_some, hf answers (n + k)]
    by_cases hrest : granted answers (n + k) k' = true
    · rw [if_pos hrest, if_pos ((granted_add ..).mpr ⟨hfirst, hrest⟩), Nat.add_assoc]
    · rw [if_neg hrest, if_neg fun h => hrest ((granted_add ..).mp h).2]
  · rw [if_neg hfirst, Option.bind_none, if_neg fun h => hfirst ((granted_add ..).mp h).1]

/-- What is returned is put into a value without another request. -/
theorem map {m : Requesting α} {k : Nat} {v : α} (h : Makes m k v) (f : α → β) :
    Makes (m >>= fun a => Pure.pure (f a)) k (f v) := by
  have hreturn : Makes (Pure.pure (f v)) 0 (f v) := pure (f v)
  have hboth := bind (f := fun a => Pure.pure (f a)) h hreturn
  rwa [Nat.add_zero] at hboth

/-- A request, and then the rest. -/
theorem after_request {m : Requesting α} {k : Nat} {v : α} (h : Makes m k v) :
    Makes (do Requests.request; m) (1 + k) v :=
  request.bind h

/-- One computation after the other. -/
theorem mapM {f : α → Requesting β} {k : α → Nat} {g : α → β}
    (h : ∀ a, Makes (f a) (k a) (g a)) (l : List α) :
    Makes (l.mapM f) (l.map k).sum (l.map g) := by
  induction l with
  | nil => exact pure []
  | cons a l ih =>
    rw [List.mapM_cons, List.map_cons, List.map_cons, List.sum_cons]
    exact (h a).bind (ih.map (g a :: ·))

end Makes

end Requests
