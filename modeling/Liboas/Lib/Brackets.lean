import Mathlib.Algebra.BigOperators.Group.List.Basic
import Mathlib.Algebra.Ring.Int.Defs

/-!
# Skipping over nested brackets

A list of tokens, some of which open a bracket and some of which close one. `skip`
walks the list with a depth counter until the depth is 0, the way a reader finds
the close that matches an open it has passed.
-/

namespace Brackets

inductive Kind where
  | opens
  | closes
  | plain
  deriving DecidableEq

/-- What a token adds to the depth. -/
def Kind.weight : Kind → Int
  | .opens => 1
  | .closes => -1
  | .plain => 0

variable {τ : Type} (kind : τ → Kind)

/-- The number of tokens passed until the depth is 0 or the list ends. -/
def skip : List τ → Nat → Nat
  | _, 0 => 0
  | [], _ + 1 => 0
  | t :: ts, d + 1 =>
    match kind t with
    | .opens => skip ts (d + 2) + 1
    | .closes => skip ts d + 1
    | .plain => skip ts (d + 1) + 1

/-- A walk that starts inside a bracket passes over the whole list, at the same depth. -/
def Balanced (l : List τ) : Prop :=
  ∀ rest d, skip kind (l ++ rest) (d + 1) = l.length + skip kind rest (d + 1)

/-- Opens minus closes. -/
def net (l : List τ) : Int := (l.map (fun t => (kind t).weight)).sum

variable {kind}

@[simp] theorem skip_zero (l : List τ) : skip kind l 0 = 0 := by cases l <;> rfl

@[simp] theorem net_nil : net kind ([] : List τ) = 0 := rfl

@[simp] theorem net_cons (t : τ) (l : List τ) :
    net kind (t :: l) = (kind t).weight + net kind l := by
  simp [net]

@[simp] theorem net_append (l r : List τ) :
    net kind (l ++ r) = net kind l + net kind r := by
  simp [net]

theorem skip_le_length (l : List τ) (d : Nat) : skip kind l d ≤ l.length := by
  induction l generalizing d with
  | nil => cases d <;> simp [skip]
  | cons t ts ih =>
    cases d with
    | zero => simp
    | succ d =>
      simp only [skip, List.length_cons]
      split <;> exact Nat.succ_le_succ (ih _)

/-! ## Balanced lists -/

theorem balanced_nil : Balanced kind ([] : List τ) := by
  intro rest d
  simp

theorem balanced_plain {t : τ} (h : kind t = .plain) : Balanced kind [t] := by
  intro rest d
  simp only [List.singleton_append, skip, h, List.length_singleton]
  omega

theorem balanced_append {l r : List τ} (hl : Balanced kind l) (hr : Balanced kind r) :
    Balanced kind (l ++ r) := by
  intro rest d
  rw [List.append_assoc, hl, hr, List.length_append]
  omega

theorem balanced_plains {l : List τ} (h : ∀ t ∈ l, kind t = .plain) : Balanced kind l := by
  induction l with
  | nil => exact balanced_nil
  | cons t ts ih =>
    have ht : Balanced kind [t] := balanced_plain (h t List.mem_cons_self)
    have hts : Balanced kind ts := ih (fun u hu => h u (List.mem_cons_of_mem _ hu))
    exact balanced_append ht hts

/-- Tokens that count for nothing may be left out before or after a walk. -/
theorem drop_skip_filter {keep : τ → Bool} (hkeep : ∀ t, keep t = false → kind t = .plain)
    (l : List τ) (d : Nat) :
    (l.drop (skip kind l d)).filter keep =
      (l.filter keep).drop (skip kind (l.filter keep) d) := by
  induction l generalizing d with
  | nil => simp
  | cons t ts ih =>
    cases d with
    | zero => simp
    | succ d =>
      by_cases ht : keep t = true
      · rw [List.filter_cons_of_pos ht]
        simp only [skip]
        split
        · simpa using ih (d + 2)
        · simpa using ih d
        · simpa using ih (d + 1)
      · rw [List.filter_cons_of_neg ht, ← ih (d + 1), skip, hkeep t (by simpa using ht)]
        rfl

/-- Behind a balanced list, the walk of depth 1 stops right after the close. -/
theorem skip_to_close {l : List τ} {c : τ} (hl : Balanced kind l) (hc : kind c = .closes)
    (rest : List τ) : skip kind (l ++ c :: rest) 1 = l.length + 1 := by
  rw [hl, skip]
  simp [hc]

theorem balanced_wrap {o c : τ} {l : List τ} (ho : kind o = .opens) (hl : Balanced kind l)
    (hc : kind c = .closes) : Balanced kind (o :: l ++ [c]) := by
  intro rest d
  have hin : skip kind (l ++ c :: rest) (d + 2) = l.length + (skip kind rest (d + 1) + 1) := by
    rw [hl, skip]
    simp [hc]
  simp only [List.cons_append, List.append_assoc, List.nil_append, skip, ho, hin, List.length_cons,
    List.length_append, List.length_nil]
  omega

/-! ## Lists that close too much -/

/-- A list that closes as many brackets as are open stops the walk, whatever follows. -/
theorem skip_of_net (l rest : List τ) (d : Nat) (h : net kind l + d ≤ 0) :
    skip kind (l ++ rest) d ≤ l.length := by
  induction l generalizing d with
  | nil =>
    have hd : d = 0 := by simp at h; omega
    simp [hd]
  | cons t ts ih =>
    cases d with
    | zero => simp
    | succ d =>
      rw [net_cons] at h
      simp only [List.cons_append, skip, List.length_cons]
      cases hk : kind t with
      | opens =>
        have := ih (d + 2) (by simp [hk, Kind.weight] at h; omega)
        simpa using this
      | closes =>
        have := ih d (by simp [hk, Kind.weight] at h; omega)
        simpa using this
      | plain =>
        have := ih (d + 1) (by simp [hk, Kind.weight] at h; omega)
        simpa using this

end Brackets
