import Mathlib.Data.List.Basic
import Mathlib.Data.Nat.Find

/-!
# Open addressing

A table is a list of slots, and `slot k i` is where the search for the key `k` looks in
round `i`. A free slot ends the search, so a key has to be stored before the first one.
-/

namespace Liboas.OpenAddressing

variable {E K : Type} (key : E → K) (slot : K → Nat → Nat)

/-- The element in a slot, if it is not free. -/
def look (slots : List (Option E)) (j : Nat) : Option E := slots[j]?.join

def find [DecidableEq K] (slots : List (Option E)) (k : K) : Nat → Nat → Option E
  | 0, _ => none
  | left + 1, i =>
    match look slots (slot k i) with
    | none => none
    | some e => if key e = k then some e else find slots k left (i + 1)

/-- The table with one more element, in the first free slot. -/
def insert (slots : List (Option E)) (e : E) : Nat → Nat → Option (List (Option E))
  | 0, _ => none
  | left + 1, i =>
    match look slots (slot (key e) i) with
    | none => some (slots.set (slot (key e) i) (some e))
    | some _ => insert slots e left (i + 1)

/-- In a table of `n` slots, each round looks at a slot, and `n` rounds look at all. -/
structure Covers (n : Nat) : Prop where
  lt : ∀ k i, slot k i < n
  all : ∀ k j, j < n → ∃ i, i < n ∧ slot k i = j

/-- Every element is found before a free slot, and no key is stored twice. -/
structure Reachable (slots : List (Option E)) : Prop where
  reach : ∀ j e, look slots j = some e →
    ∃ i, i < slots.length ∧ slot (key e) i = j ∧ ∀ i', i' < i → look slots (slot (key e) i') ≠ none
  unique : ∀ j j' e e', look slots j = some e → look slots j' = some e' → key e = key e' → j = j'

variable {key slot} {slots : List (Option E)} {k : K} {e : E}

theorem look_replicate (n j : Nat) : look (List.replicate n (none : Option E)) j = none := by
  unfold look
  rw [List.getElem?_replicate]
  split <;> simp

theorem look_set {j : Nat} (hj : j < slots.length) (j' : Nat) :
    look (slots.set j (some e)) j' = if j' = j then some e else look slots j' := by
  unfold look
  split
  · rename_i h
    rw [h, List.getElem?_set_self hj]
    simp
  · rename_i h
    rw [List.getElem?_set_ne (fun heq => h heq.symm)]

theorem reachable_empty (n : Nat) : Reachable key slot (List.replicate n none) := by
  constructor
  · intro j e h
    simp [look_replicate] at h
  · intro j j' e e' h
    simp [look_replicate] at h

/-! ## Searching -/

/-- A search that starts in round `i` finds what is stored further on, if no slot before it
is free. -/
theorem find_reaches [DecidableEq K] (h : Reachable key slot slots) (he : key e = k) {left i i₀ : Nat}
    (hstored : look slots (slot k i₀) = some e) (hle : i ≤ i₀) (hlt : i₀ < i + left)
    (hbefore : ∀ i', i' < i₀ → look slots (slot k i') ≠ none) :
    find key slot slots k left i = some e := by
  induction left generalizing i with
  | zero => omega
  | succ left ih =>
    unfold find
    by_cases hi : i = i₀
    · simp [hi, hstored, he]
    · have hsome := hbefore i (by omega)
      rcases hlook : look slots (slot k i) with - | e'
      · exact absurd hlook hsome
      · by_cases hk : key e' = k
        · have hsame := h.unique _ _ _ _ hlook hstored (hk.trans he.symm)
          rw [hsame, hstored] at hlook
          simp [hk, Option.some.inj hlook]
        · simp only [hk, if_false]
          apply ih
          · omega
          · omega

theorem find_sound [DecidableEq K] {left i : Nat} (h : find key slot slots k left i = some e) :
    key e = k ∧ ∃ j, look slots j = some e := by
  induction left generalizing i with
  | zero => simp [find] at h
  | succ left ih =>
    unfold find at h
    rcases hlook : look slots (slot k i) with - | e'
    · simp [hlook] at h
    · simp only [hlook] at h
      split at h
      · rename_i hk
        rw [← Option.some.inj h]
        exact ⟨hk, _, hlook⟩
      · exact ih h

/-- A search finds the element that is stored for the key. -/
theorem find_iff [DecidableEq K] (h : Reachable key slot slots) :
    find key slot slots k slots.length 0 = some e ↔ key e = k ∧ ∃ j, look slots j = some e := by
  constructor
  · exact find_sound
  · rintro ⟨he, j, hj⟩
    obtain ⟨i, hi, hslot, hbefore⟩ := h.reach j e hj
    rw [he] at hslot hbefore
    have hstored : look slots (slot k i) = some e := by
      rw [hslot]
      exact hj
    apply find_reaches h he hstored
    · omega
    · omega
    · exact hbefore

/-! ## Inserting -/

/-- Some slot is free. -/
def HasFree (slots : List (Option E)) : Prop := ∃ j, j < slots.length ∧ look slots j = none

/-- The search of a key meets a free slot. -/
theorem meets_free (hcovers : Covers slot slots.length) (hfree : HasFree slots) (k : K) :
    ∃ i, i < slots.length ∧ look slots (slot k i) = none := by
  obtain ⟨j, hj, hnone⟩ := hfree
  obtain ⟨i, hi, hslot⟩ := hcovers.all k j hj
  exact ⟨i, hi, hslot ▸ hnone⟩

/-- The insertion takes the first free slot. -/
theorem insert_first {left i i₀ : Nat} (hle : i ≤ i₀) (hlt : i₀ < i + left)
    (hfree : look slots (slot (key e) i₀) = none)
    (hbefore : ∀ i', i ≤ i' → i' < i₀ → look slots (slot (key e) i') ≠ none) :
    insert key slot slots e left i = some (slots.set (slot (key e) i₀) (some e)) := by
  induction left generalizing i with
  | zero => omega
  | succ left ih =>
    unfold insert
    by_cases hi : i = i₀
    · simp [hi, hfree]
    · have hsome := hbefore i (by omega) (by omega)
      rcases hlook : look slots (slot (key e) i) with - | e'
      · exact absurd hlook hsome
      · apply ih
        · omega
        · omega
        · intro i' h h'
          exact hbefore i' (by omega) h'

/-- What an insertion does: the new element takes a free slot, and the table stays in order. -/
structure Inserted (key : E → K) (slot : K → Nat → Nat) (slots : List (Option E)) (e : E)
    (slots' : List (Option E)) : Prop where
  place : ∃ j, j < slots.length ∧ look slots j = none ∧ slots' = slots.set j (some e)
  reachable : Reachable key slot slots'

theorem insert_spec (h : Reachable key slot slots) (hcovers : Covers slot slots.length)
    (hfree : HasFree slots) (hnew : ∀ j e', look slots j = some e' → key e' ≠ key e) :
    ∃ slots', insert key slot slots e slots.length 0 = some slots' ∧
      Inserted key slot slots e slots' := by
  classical
  have hmeets := meets_free hcovers hfree (key e)
  -- the first round that meets a free slot
  obtain ⟨hlt, hnone⟩ := Nat.find_spec hmeets
  have hbefore : ∀ i', i' < Nat.find hmeets → look slots (slot (key e) i') ≠ none := by
    intro i' hi' hlook
    exact Nat.find_min hmeets hi' ⟨by omega, hlook⟩
  generalize Nat.find hmeets = i at hlt hnone hbefore
  refine ⟨_, insert_first (Nat.zero_le i) (by omega) hnone (fun i' _ h' => hbefore i' h'), ?_⟩
  have hj := hcovers.lt (key e) i
  have hkeeps : ∀ j, look slots j ≠ none → look (slots.set (slot (key e) i) (some e)) j ≠ none := by
    intro j hne
    rw [look_set hj]
    split
    · simp
    · exact hne
  refine ⟨⟨_, hj, hnone, rfl⟩, ⟨?_, ?_⟩⟩
  · intro j e' hlook
    rw [look_set hj] at hlook
    rw [List.length_set]
    split at hlook
    · rename_i hslot
      rw [← Option.some.inj hlook]
      exact ⟨i, hlt, hslot.symm, fun i' hi' => hkeeps _ (hbefore i' hi')⟩
    · obtain ⟨i₁, hi₁, hslot, hall⟩ := h.reach j e' hlook
      exact ⟨i₁, hi₁, hslot, fun i' hi' => hkeeps _ (hall i' hi')⟩
  · intro j j' e₁ e₂ h₁ h₂ hkey
    rw [look_set hj] at h₁ h₂
    split at h₁ <;> split at h₂
    · omega
    · rw [← Option.some.inj h₁] at hkey
      exact absurd hkey.symm (hnew _ _ h₂)
    · rw [← Option.some.inj h₂] at hkey
      exact absurd hkey (hnew _ _ h₁)
    · exact h.unique _ _ _ _ h₁ h₂ hkey

/-! ## What is stored -/

/-- The stored elements. -/
def stored (slots : List (Option E)) : List E := slots.filterMap id

@[simp] theorem stored_none_cons : stored (none :: slots) = stored slots := rfl

@[simp] theorem stored_some_cons : stored (some e :: slots) = e :: stored slots := rfl

theorem mem_stored : e ∈ stored slots ↔ ∃ j, look slots j = some e := by
  unfold stored look
  constructor
  · intro h
    obtain ⟨x, hmem, hx⟩ := List.mem_filterMap.mp h
    obtain ⟨j, hj⟩ := List.mem_iff_getElem?.mp hmem
    have hsome : x = some e := hx
    exact ⟨j, by simp [hj, hsome]⟩
  · rintro ⟨j, hj⟩
    apply List.mem_filterMap.mpr
    refine ⟨some e, ?_, rfl⟩
    apply List.mem_iff_getElem?.mpr
    exact ⟨j, by simpa [Option.join_eq_some_iff] using hj⟩

/-- After an insertion the new element is stored, and what was. -/
theorem mem_stored_set {j : Nat} (hj : j < slots.length) (hfree : look slots j = none) {e' : E} :
    e' ∈ stored (slots.set j (some e)) ↔ e' = e ∨ e' ∈ stored slots := by
  rw [mem_stored, mem_stored]
  constructor
  · rintro ⟨j', hlook⟩
    rw [look_set hj] at hlook
    split at hlook
    · exact .inl (Option.some.inj hlook).symm
    · exact .inr ⟨j', hlook⟩
  · rintro (rfl | ⟨j', hlook⟩)
    · exact ⟨j, by rw [look_set hj, if_pos rfl]⟩
    · refine ⟨j', ?_⟩
      rw [look_set hj]
      split
      · rename_i heq
        rw [heq, hfree] at hlook
        simp at hlook
      · exact hlook

/-- The keys of a table in which no key is stored twice. -/
theorem stored_nodup
    (h : ∀ j j' e e', look slots j = some e → look slots j' = some e' → key e = key e' → j = j') :
    ((stored slots).map key).Nodup := by
  induction slots with
  | nil => simp [stored]
  | cons x slots ih =>
    have hrest : ((stored slots).map key).Nodup := by
      apply ih
      intro j j' e e' hj hj' hkey
      have hsucc := h (j + 1) (j' + 1) e e' (by simpa [look] using hj) (by simpa [look] using hj') hkey
      omega
    rcases x with - | x
    · simpa using hrest
    · rw [stored_some_cons, List.map_cons, List.nodup_cons]
      refine ⟨?_, hrest⟩
      intro hmem
      obtain ⟨e, he, hkey⟩ := List.mem_map.mp hmem
      obtain ⟨j, hj⟩ := mem_stored.mp he
      have hzero := h (j + 1) 0 e x (by simpa [look] using hj) (by simp [look]) hkey
      omega

theorem stored_length_set {j : Nat} (hj : j < slots.length) (hfree : look slots j = none) :
    (stored (slots.set j (some e))).length = (stored slots).length + 1 := by
  induction slots generalizing j with
  | nil => simp at hj
  | cons x slots ih =>
    rcases j with - | j
    · have hx : x = none := by simpa [look] using hfree
      simp [hx]
    · have hrest := ih (by simpa using hj) (by simpa [look] using hfree)
      rw [List.set_cons_succ]
      rcases x with - | x
      · simpa using hrest
      · simpa using hrest

theorem stored_replicate (n : Nat) : stored (List.replicate n (none : Option E)) = [] := by
  induction n with
  | zero => rfl
  | succ n ih => rw [List.replicate_succ, stored_none_cons, ih]

/-- A table with fewer elements than slots has a free slot. -/
theorem hasFree_of_lt (h : (stored slots).length < slots.length) : HasFree slots := by
  induction slots with
  | nil => simp at h
  | cons x slots ih =>
    rcases x with - | x
    · exact ⟨0, by simp, by simp [look]⟩
    · have hrest : (stored slots).length < slots.length := by simpa using h
      obtain ⟨j, hj, hnone⟩ := ih hrest
      exact ⟨j + 1, by simpa using hj, by simpa [look] using hnone⟩

end Liboas.OpenAddressing
