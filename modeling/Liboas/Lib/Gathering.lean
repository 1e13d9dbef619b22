import Liboas.Lib.Outcome
import Mathlib.Data.List.Forall2
import Mathlib.Data.List.ReduceOption

/-!
# Folds that gather verdicts

A fold whose state has a flag, where an element that fails takes the flag down. How it ends does
not depend on the order of the elements, though its other results may.
-/

namespace Gathering

open Outcome

variable {ε σ α β : Type}

/-- Two folds over lists of related elements. -/
theorem relates_foldlM {σ' : Type} {S : σ → σ' → Prop} {T : α → β → Prop} {f : σ → α → Except ε σ}
    {g : σ' → β → Except ε σ'} {l : List α} {l' : List β} (hl : List.Forall₂ T l l')
    (hfg : ∀ s s' a b, S s s' → T a b → Relates (f s a) (g s' b) S) {s : σ} {s' : σ'} (h : S s s') :
    Relates (l.foldlM f s) (l'.foldlM g s') S := by
  induction hl generalizing s s' with
  | nil => exact Relates.pure h
  | cons hab _ ih =>
    rw [List.foldlM_cons, List.foldlM_cons]
    exact Relates.bind (hfg s s' _ _ h hab) (fun _ _ h' => ih h')

/-- Every element of the one list is related to one of the other. -/
structure Covers (S : α → β → Prop) (l : List α) (l' : List β) : Prop where
  left : ∀ a ∈ l, ∃ b ∈ l', S a b
  right : ∀ b ∈ l', ∃ a ∈ l, S a b

/-- From the flag before the elements of a list to the flag behind them. `P a b` says that `a`
was judged as `b` while the flag was up. -/
structure Judged (P : α → Bool → Prop) (l : List α) (before after : Bool) : Prop where
  passed : after = true → before = true ∧ ∀ a ∈ l, P a true
  failed : after = false → before = false ∨ ∃ a ∈ l, P a false

section Covers

variable {S : α → β → Prop} {l : List α} {l' l'' : List β}

theorem Covers.of_forall₂ (h : List.Forall₂ S l l') : Covers S l l' := by
  induction h with
  | nil => exact ⟨by simp, by simp⟩
  | cons hab _ ih =>
    constructor
    · intro a ha
      rcases List.mem_cons.mp ha with rfl | ha
      · exact ⟨_, List.mem_cons_self, hab⟩
      · obtain ⟨b, hb, hS⟩ := ih.left a ha
        exact ⟨b, List.mem_cons_of_mem _ hb, hS⟩
    · intro b hb
      rcases List.mem_cons.mp hb with rfl | hb
      · exact ⟨_, List.mem_cons_self, hab⟩
      · obtain ⟨a, ha, hS⟩ := ih.right b hb
        exact ⟨a, List.mem_cons_of_mem _ ha, hS⟩

theorem Covers.perm (h : Covers S l l') (hperm : l'.Perm l'') : Covers S l l'' where
  left a ha := by
    obtain ⟨b, hb, hS⟩ := h.left a ha
    exact ⟨b, hperm.mem_iff.mp hb, hS⟩
  right b hb := h.right b (hperm.mem_iff.mpr hb)

theorem Covers.map {α' β' : Type} {S' : α' → β' → Prop} (h : Covers S l l') (f : α → α')
    (g : β → β') (hfg : ∀ a b, S a b → S' (f a) (g b)) : Covers S' (l.map f) (l'.map g) where
  left := by
    rintro _ hmem
    obtain ⟨a, ha, rfl⟩ := List.mem_map.mp hmem
    obtain ⟨b, hb, hS⟩ := h.left a ha
    exact ⟨g b, List.mem_map_of_mem hb, hfg a b hS⟩
  right := by
    rintro _ hmem
    obtain ⟨b, hb, rfl⟩ := List.mem_map.mp hmem
    obtain ⟨a, ha, hS⟩ := h.right b hb
    exact ⟨f a, List.mem_map_of_mem ha, hfg a b hS⟩

theorem Covers.filter (h : Covers S l l') {p : α → Bool} {q : β → Bool}
    (hpq : ∀ a b, S a b → p a = q b) : Covers S (l.filter p) (l'.filter q) where
  left a ha := by
    obtain ⟨ha, hp⟩ := List.mem_filter.mp ha
    obtain ⟨b, hb, hS⟩ := h.left a ha
    exact ⟨b, List.mem_filter.mpr ⟨hb, hpq a b hS ▸ hp⟩, hS⟩
  right b hb := by
    obtain ⟨hb, hq⟩ := List.mem_filter.mp hb
    obtain ⟨a, ha, hS⟩ := h.right b hb
    exact ⟨a, List.mem_filter.mpr ⟨ha, hpq a b hS ▸ hq⟩, hS⟩

theorem Covers.append {r : List α} {r' : List β} (h : Covers S l l') (hr : Covers S r r') :
    Covers S (l ++ r) (l' ++ r') where
  left a ha := by
    rcases List.mem_append.mp ha with ha | ha
    · obtain ⟨b, hb, hS⟩ := h.left a ha
      exact ⟨b, List.mem_append_left r' hb, hS⟩
    · obtain ⟨b, hb, hS⟩ := hr.left a ha
      exact ⟨b, List.mem_append_right l' hb, hS⟩
  right b hb := by
    rcases List.mem_append.mp hb with hb | hb
    · obtain ⟨a, ha, hS⟩ := h.right b hb
      exact ⟨a, List.mem_append_left r ha, hS⟩
    · obtain ⟨a, ha, hS⟩ := hr.right b hb
      exact ⟨a, List.mem_append_right l ha, hS⟩

theorem Covers.toList {x : Option α} {x' : Option β} (h : Option.Rel S x x') :
    Covers S x.toList x'.toList := by
  cases h with
  | some hS => exact .of_forall₂ (.cons hS .nil)
  | none => exact .of_forall₂ .nil

/-- The entries that are set, when a missing one only stands for a missing one. -/
theorem Covers.reduceOption {l : List (Option α)} {l' : List (Option β)}
    (h : Covers (Option.Rel S) l l') : Covers S l.reduceOption l'.reduceOption where
  left a ha := by
    obtain ⟨_, hb, hrel⟩ := h.left _ (List.reduceOption_mem_iff.mp ha)
    cases hrel with
    | some hS => exact ⟨_, List.reduceOption_mem_iff.mpr hb, hS⟩
  right b hb := by
    obtain ⟨_, ha, hrel⟩ := h.right _ (List.reduceOption_mem_iff.mp hb)
    cases hrel with
    | some hS => exact ⟨_, List.reduceOption_mem_iff.mpr ha, hS⟩

theorem Covers.forall_iff (h : Covers S l l') {P : α → Prop} {Q : β → Prop}
    (hPQ : ∀ a b, S a b → (P a ↔ Q b)) : (∀ a ∈ l, P a) ↔ ∀ b ∈ l', Q b := by
  constructor
  · intro hP b hb
    obtain ⟨a, ha, hS⟩ := h.right b hb
    exact (hPQ a b hS).mp (hP a ha)
  · intro hQ a ha
    obtain ⟨b, hb, hS⟩ := h.left a ha
    exact (hPQ a b hS).mpr (hQ b hb)

theorem Covers.exists_iff (h : Covers S l l') {P : α → Prop} {Q : β → Prop}
    (hPQ : ∀ a b, S a b → (P a ↔ Q b)) : (∃ a ∈ l, P a) ↔ ∃ b ∈ l', Q b := by
  constructor
  · rintro ⟨a, ha, hP⟩
    obtain ⟨b, hb, hS⟩ := h.left a ha
    exact ⟨b, hb, (hPQ a b hS).mp hP⟩
  · rintro ⟨b, hb, hQ⟩
    obtain ⟨a, ha, hS⟩ := h.right b hb
    exact ⟨a, ha, (hPQ a b hS).mpr hQ⟩

end Covers

namespace Judged

variable {P : α → Bool → Prop} {x y : List α} {before between after : Bool}

theorem nil : Judged P [] before before := ⟨fun h => ⟨h, by simp⟩, .inl⟩

theorem append (hx : Judged P x before between) (hy : Judged P y between after) :
    Judged P (x ++ y) before after where
  passed h := by
    obtain ⟨hbetween, hafter⟩ := hy.passed h
    obtain ⟨hbefore, hbefores⟩ := hx.passed hbetween
    exact ⟨hbefore, List.forall_mem_append.mpr ⟨hbefores, hafter⟩⟩
  failed h := by
    rcases hy.failed h with hbetween | ⟨a, ha, hP⟩
    · rcases hx.failed hbetween with hbefore | ⟨a, ha, hP⟩
      · exact .inl hbefore
      · exact .inr ⟨a, List.mem_append_left y ha, hP⟩
    · exact .inr ⟨a, List.mem_append_right x ha, hP⟩

/-- The verdict of one element, taken into the flag. -/
theorem and {a : α} {verdict : Bool} (h : before = true → P a verdict) :
    Judged P [a] before (before && verdict) := by
  cases before with
  | false => exact ⟨fun h => (by cases h), fun _ => .inl rfl⟩
  | true =>
    have hverdict := h rfl
    rw [Bool.true_and]
    constructor
    · rintro rfl
      exact ⟨rfl, List.forall_mem_singleton.mpr hverdict⟩
    · rintro rfl
      exact .inr ⟨a, List.mem_cons_self, hverdict⟩

/-- A fold of steps that judge their element. -/
theorem foldlM {flag : σ → Bool} {Inv : σ → Prop} {step : σ → α → Except ε σ}
    (hstep : ∀ s a, Inv s → Permits (step s a) (fun s' => Inv s' ∧ Judged P [a] (flag s) (flag s')))
    (l : List α) {s : σ} (hs : Inv s) :
    Permits (l.foldlM step s) (fun s' => Inv s' ∧ Judged P l (flag s) (flag s')) := by
  induction l generalizing s with
  | nil => exact Permits.pure ⟨hs, nil⟩
  | cons a l ih =>
    rw [List.foldlM_cons]
    refine Permits.bind (hstep s a hs) ?_
    rintro s' ⟨hs', hjudged⟩
    exact (ih hs').mono (fun s'' h => ⟨h.1, hjudged.append h.2⟩)

/-- Where related elements are judged alike, the flags end alike. -/
theorem agree {Q : β → Bool → Prop} {S : α → β → Prop} {l : List α} {l' : List β} {after' : Bool}
    (hcovers : Covers S l l') (hagree : ∀ a b c d, S a b → P a c → Q b d → d = c)
    (h : Judged P l before after) (h' : Judged Q l' before after') : after' = after := by
  cases after with
  | true =>
    by_contra hne
    rw [Bool.not_eq_true] at hne
    obtain ⟨hbefore, hall⟩ := h.passed rfl
    rcases h'.failed hne with hbefore' | ⟨b, hb, hQ⟩
    · rw [hbefore] at hbefore'
      cases hbefore'
    · obtain ⟨a, ha, hS⟩ := hcovers.right b hb
      cases hagree a b _ _ hS (hall a ha) hQ
  | false =>
    by_contra hne
    rw [Bool.not_eq_false] at hne
    obtain ⟨hbefore, hall⟩ := h'.passed hne
    rcases h.failed rfl with hbefore' | ⟨a, ha, hP⟩
    · rw [hbefore] at hbefore'
      cases hbefore'
    · obtain ⟨b, hb, hS⟩ := hcovers.left a ha
      cases hagree a b _ _ hS hP (hall b hb)

end Judged

end Gathering
