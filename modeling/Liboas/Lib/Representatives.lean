import Mathlib.Combinatorics.Hall.Basic
import Mathlib.Data.List.FinRange
import Mathlib.Data.List.Forall2

/-!
# Different representatives

Each element of a list can be represented in several ways. They have representatives that
differ from each other when every sublist has as many different ones as elements.
-/

namespace Representatives

variable {α β γ : Type} {R : α → β → Prop} {xs : List α}

/-- The elements at some of the places. -/
def atPlaces (xs : List α) (places : Finset (Fin xs.length)) : List α :=
  ((List.finRange xs.length).filter (· ∈ places)).map xs.get

theorem atPlaces_sublist (places : Finset (Fin xs.length)) : (atPlaces xs places).Sublist xs := by
  have h := (List.filter_sublist (p := (· ∈ places)) (l := List.finRange xs.length)).map xs.get
  rwa [List.map_get_finRange] at h

theorem atPlaces_length (places : Finset (Fin xs.length)) : (atPlaces xs places).length = places.card := by
  have hnodup := (List.nodup_finRange xs.length).filter (fun i => decide (i ∈ places))
  have hsame : ((List.finRange xs.length).filter (· ∈ places)).toFinset = places := by
    ext i
    simp
  rw [atPlaces, List.length_map, ← List.toFinset_card_of_nodup hnodup, hsame]

theorem mem_atPlaces {places : Finset (Fin xs.length)} {x : α} :
    x ∈ atPlaces xs places ↔ ∃ i ∈ places, xs.get i = x := by
  simp [atPlaces]

/-- Hall's theorem, for a list and representatives that differ in `f`. -/
theorem exists_different (f : β → γ)
    (h : ∀ some : List α, some.Sublist xs → ∃ ys : List β, (∀ y ∈ ys, ∃ x ∈ some, R x y) ∧
      (ys.map f).Nodup ∧ some.length ≤ ys.length) :
    ∃ ys, List.Forall₂ R xs ys ∧ (ys.map f).Nodup := by
  classical
  choose represent hrepresent hdifferent hmany using
    fun places : Finset (Fin xs.length) => h (atPlaces xs places) (atPlaces_sublist places)
  let pool : Finset γ := Finset.univ.biUnion fun places => ((represent places).map f).toFinset
  let choices (i : Fin xs.length) : Finset γ :=
    pool.filter fun z => ∃ y, R (xs.get i) y ∧ f y = z
  have hhall : ∀ places : Finset (Fin xs.length), places.card ≤ (places.biUnion choices).card := by
    intro places
    have hsubset : ((represent places).map f).toFinset ⊆ places.biUnion choices := by
      intro z hz
      have hpool : z ∈ pool := Finset.mem_biUnion.mpr ⟨places, Finset.mem_univ _, hz⟩
      obtain ⟨y, hy, rfl⟩ := List.mem_map.mp (List.mem_toFinset.mp hz)
      obtain ⟨x, hx, hxy⟩ := hrepresent places y hy
      obtain ⟨i, hi, rfl⟩ := mem_atPlaces.mp hx
      exact Finset.mem_biUnion.mpr ⟨i, hi, Finset.mem_filter.mpr ⟨hpool, y, hxy, rfl⟩⟩
    calc places.card = (atPlaces xs places).length := (atPlaces_length places).symm
      _ ≤ (represent places).length := hmany places
      _ = ((represent places).map f).toFinset.card := by
        rw [List.toFinset_card_of_nodup (hdifferent places), List.length_map]
      _ ≤ (places.biUnion choices).card := Finset.card_le_card hsubset
  obtain ⟨choice, hinjective, hchoice⟩ :=
    (Finset.all_card_le_biUnion_card_iff_exists_injective choices).mp hhall
  have hchosen : ∀ i, ∃ y, R (xs.get i) y ∧ f y = choice i :=
    fun i => (Finset.mem_filter.mp (hchoice i)).2
  choose y hy hfy using hchosen
  refine ⟨(List.finRange xs.length).map y, ?_, ?_⟩
  · have h : List.Forall₂ R ((List.finRange xs.length).map xs.get)
        ((List.finRange xs.length).map y) := by
      rw [List.forall₂_map_left_iff, List.forall₂_map_right_iff, List.forall₂_same]
      exact fun i _ => hy i
    rwa [List.map_get_finRange] at h
  · rw [List.map_map]
    refine List.Nodup.map ?_ (List.nodup_finRange _)
    intro i j hij
    apply hinjective
    simpa [hfy] using hij

end Representatives
