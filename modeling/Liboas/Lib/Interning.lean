import Mathlib.Data.List.Basic
import Mathlib.Data.List.Nodup

/-!
# Interning

A table holds each key once, in the order in which they first came, and the number of a key is
its place. The table only grows at its end, so a number is never taken back.
-/

namespace Interning

variable {κ : Type} [BEq κ] [LawfulBEq κ]

/-- The table with a key that may be new. -/
def add (table : List κ) (k : κ) : List κ := if k ∈ table then table else table ++ [k]

def addAll (table : List κ) (keys : List κ) : List κ := keys.foldl add table

theorem add_of_mem {table : List κ} {k : κ} (h : k ∈ table) : add table k = table := if_pos h

theorem add_of_notMem {table : List κ} {k : κ} (h : k ∉ table) : add table k = table ++ [k] :=
  if_neg h

theorem mem_add (table : List κ) (k : κ) : k ∈ add table k := by
  unfold add
  split
  · assumption
  · simp

theorem grows_add (table : List κ) (k : κ) : table <+: add table k := by
  unfold add
  split
  · exact List.prefix_refl table
  · exact List.prefix_append table [k]

theorem nodup_add {table : List κ} (h : table.Nodup) (k : κ) : (add table k).Nodup := by
  unfold add
  split
  · exact h
  · rename_i hk
    rw [List.nodup_append]
    refine ⟨h, List.nodup_singleton k, ?_⟩
    intro x hx y hy heq
    rw [List.mem_singleton] at hy
    exact hk (hy ▸ heq ▸ hx)

theorem grows_addAll (table keys : List κ) : table <+: addAll table keys := by
  induction keys generalizing table with
  | nil => exact List.prefix_refl table
  | cons k keys ih => exact (grows_add table k).trans (ih (add table k))

theorem add_eraseDups (keys : List κ) (k : κ) :
    add keys.eraseDups k = (keys ++ [k]).eraseDups := by
  rw [List.eraseDups_append]
  unfold add List.removeAll
  by_cases hk : k ∈ keys
  · simp [hk]
  · simp [hk, List.eraseDups_cons]

/-- From nothing, the table is the list of keys without its repetitions. -/
theorem addAll_eq (before keys : List κ) :
    addAll before.eraseDups keys = (before ++ keys).eraseDups := by
  induction keys generalizing before with
  | nil => rw [List.append_nil]; rfl
  | cons k keys ih =>
    have hstep : addAll before.eraseDups (k :: keys) = addAll (add before.eraseDups k) keys := rfl
    rw [hstep, add_eraseDups, ih, List.append_assoc, List.singleton_append]

/-- The number of a key stays. -/
theorem idxOf_grows {table later : List κ} {k : κ} (hgrows : table <+: later) (hk : k ∈ table) :
    later.idxOf k = table.idxOf k := by
  obtain ⟨more, rfl⟩ := hgrows
  exact List.idxOf_append_of_mem hk

/-! ## A machine that interns -/

variable {S : Type}

/-- Call after call, with what each returns. -/
def calls (call : S → κ → Option (Nat × S)) : S → List κ → Option (List Nat × S)
  | s, [] => some ([], s)
  | s, k :: keys =>
    match call s k with
    | none => none
    | some (p, s) => (calls call s keys).map (fun r => (p :: r.1, r.2))

/-- The machine keeps a table and returns the number of a key. -/
def Interns (call : S → κ → Option (Nat × S)) (Holds : S → List κ → Prop) : Prop :=
  ∀ s table k, Holds s table →
    ∃ s', call s k = some ((add table k).idxOf k, s') ∧ Holds s' (add table k)

theorem calls_interned {call : S → κ → Option (Nat × S)} {Holds : S → List κ → Prop}
    (hcall : Interns call Holds) {s : S} {table : List κ} (h : Holds s table) (keys : List κ) :
    ∃ s', calls call s keys = some (keys.map ((addAll table keys).idxOf ·), s') ∧
      Holds s' (addAll table keys) := by
  induction keys generalizing s table with
  | nil => exact ⟨s, rfl, h⟩
  | cons k keys ih =>
    obtain ⟨s₁, hfirst, hholds⟩ := hcall s table k h
    obtain ⟨s₂, hrest, hlast⟩ := ih hholds
    have hstays := idxOf_grows (grows_addAll (add table k) keys) (mem_add table k)
    refine ⟨s₂, ?_, hlast⟩
    rw [calls, hfirst]
    dsimp only
    rw [hrest, ← hstays]
    rfl

/-- Numbers are equal where the keys are. -/
theorem idxOf_eq_iff {table : List κ} {k k' : κ} (hk : k ∈ table) :
    table.idxOf k = table.idxOf k' ↔ k = k' := List.idxOf_inj hk

end Interning
