import Mathlib.Data.List.Basic

/-!
# Going on, a bounded number of times

A state is answered with another state to go on with, or with a result. After too many states the
result is one of its own.
-/

namespace Following

inductive Answer (σ ρ : Type) where
  | again (s : σ)
  | done (r : ρ)

/-- The states that were answered, in their order, and the result. -/
structure Walk (σ ρ : Type) where
  visited : List σ
  result : ρ

variable {σ ρ : Type} (answer : Nat → σ → Answer σ ρ) (exhausted : ρ)

/-- Goes on at most `hops` times. `round` is the number of the state. -/
def follow : Nat → Nat → σ → Walk σ ρ
  | 0, round, s =>
    match answer round s with
    | .again _ => ⟨[s], exhausted⟩
    | .done r => ⟨[s], r⟩
  | hops + 1, round, s =>
    match answer round s with
    | .again t =>
      let rest := follow hops (round + 1) t
      ⟨s :: rest.visited, rest.result⟩
    | .done r => ⟨[s], r⟩

/-- What a walk of at most `hops` states behind the first is. -/
structure Walked (hops round : Nat) (s : σ) (w : Walk σ ρ) : Prop where
  start : w.visited[0]? = some s
  bounded : w.visited.length ≤ hops + 1
  linked : ∀ i t u, w.visited[i]? = some t → w.visited[i + 1]? = some u →
    answer (round + i) t = .again u
  ended : ∃ last t, w.visited.length = last + 1 ∧ w.visited[last]? = some t ∧
    (answer (round + last) t = .done w.result ∨
      (∃ u, answer (round + last) t = .again u) ∧ last = hops ∧ w.result = exhausted)

variable {answer exhausted} {hops round : Nat} {s t : σ} {r : ρ} {w : Walk σ ρ}

theorem Walked.done (h : answer round s = .done r) :
    Walked answer exhausted hops round s ⟨[s], r⟩ where
  start := rfl
  bounded := by simp
  linked i t u _ hu := by simp at hu
  ended := ⟨0, s, rfl, rfl, .inl h⟩

theorem Walked.spent (h : answer round s = .again t) :
    Walked answer exhausted 0 round s ⟨[s], exhausted⟩ where
  start := rfl
  bounded := by simp
  linked i t u _ hu := by simp at hu
  ended := ⟨0, s, rfl, rfl, .inr ⟨⟨t, h⟩, rfl, rfl⟩⟩

theorem Walked.again (h : answer round s = .again t)
    (hw : Walked answer exhausted hops (round + 1) t w) :
    Walked answer exhausted (hops + 1) round s ⟨s :: w.visited, w.result⟩ where
  start := rfl
  bounded := by
    have := hw.bounded
    simp only [List.length_cons]
    omega
  linked i a b ha hb := by
    cases i with
    | zero =>
      have hsame : s = a := Option.some.inj ha
      have hnext : t = b := Option.some.inj (hw.start.symm.trans hb)
      rw [← hsame, ← hnext]
      exact h
    | succ i =>
      have hlink := hw.linked i a b ha hb
      rwa [Nat.add_right_comm] at hlink
  ended := by
    obtain ⟨last, a, hlength, hlast, hended⟩ := hw.ended
    refine ⟨last + 1, a, by rw [List.length_cons, hlength], hlast, ?_⟩
    rw [Nat.add_right_comm, Nat.add_assoc] at hended
    rcases hended with hdone | ⟨hagain, hhops, hresult⟩
    · exact .inl hdone
    · exact .inr ⟨hagain, congrArg (· + 1) hhops, hresult⟩

theorem follow_walked (hops round : Nat) (s : σ) :
    Walked answer exhausted hops round s (follow answer exhausted hops round s) := by
  induction hops generalizing round s with
  | zero =>
    rw [follow]
    cases h : answer round s with
    | again t => exact .spent h
    | done r => exact .done h
  | succ hops ih =>
    rw [follow]
    cases h : answer round s with
    | again t => exact .again h (ih (round + 1) t)
    | done r => exact .done h

end Following
