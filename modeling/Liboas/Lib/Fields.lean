import Mathlib.Data.List.TakeWhile
import Mathlib.Algebra.Ring.Nat

/-!
# Fields between separators

A list is its last field, or a field with a separator and the rest of the list behind it. A
loop that looks at one element after the other is followed field by field, and what it finds
is told of `List.splitOn`.
-/

namespace Fields

variable {α : Type} [BEq α] [LawfulBEq α] {sep : α}

/-- The induction on a list, a field at a time. -/
theorem induction (sep : α) {motive : List α → Prop} (last : ∀ f, sep ∉ f → motive f)
    (field : ∀ f rest, sep ∉ f → motive rest → motive (f ++ sep :: rest)) (l : List α) :
    motive l := by
  induction hn : l.length using Nat.strongRecOn generalizing l with
  | _ n ih =>
    by_cases h : sep ∈ l
    · obtain ⟨f, rest, rfl, hf⟩ := List.eq_append_cons_of_mem h
      apply field f rest hf
      refine ih rest.length ?_ rest rfl
      simp at hn
      omega
    · exact last l h

/-- The induction that takes a separator right behind another one in the same step. -/
theorem pair_induction (sep : α) {motive : List α → Prop} (last : ∀ f, sep ∉ f → motive f)
    (pair : ∀ f rest, sep ∉ f → motive rest → motive (f ++ sep :: sep :: rest))
    (field : ∀ f rest, sep ∉ f → rest.head? ≠ some sep → motive rest → motive (f ++ sep :: rest))
    (l : List α) : motive l := by
  induction hn : l.length using Nat.strongRecOn generalizing l with
  | _ n ih =>
    by_cases h : sep ∈ l
    · obtain ⟨f, rest, rfl, hf⟩ := List.eq_append_cons_of_mem h
      simp only [List.length_append, List.length_cons] at hn
      by_cases hhead : rest.head? = some sep
      · obtain ⟨rest, rfl⟩ := List.head?_eq_some_iff.mp hhead
        rw [List.length_cons] at hn
        exact pair f rest hf (ih rest.length (by omega) rest rfl)
      · exact field f rest hf hhead (ih rest.length (by omega) rest rfl)
    · exact last l h

theorem splitOn_last {f : List α} (h : sep ∉ f) : f.splitOn sep = [f] :=
  List.splitOn_eq_singleton h

theorem splitOn_field {f rest : List α} (h : sep ∉ f) :
    (f ++ sep :: rest).splitOn sep = f :: rest.splitOn sep :=
  List.splitOn_append_cons_self_of_not_mem h rest

/-- There is one field more than there are separators. -/
theorem length_splitOn (l : List α) : (l.splitOn sep).length = l.count sep + 1 := by
  induction l using induction sep with
  | last f hf => rw [splitOn_last hf, List.count_eq_zero.mpr hf, List.length_singleton]
  | field f rest hf ih =>
    rw [splitOn_field hf, List.length_cons, ih, List.count_append, List.count_eq_zero.mpr hf,
      List.count_cons_self, Nat.zero_add]

/-- What is no separator stands in a field. -/
theorem mem_field {l : List α} {x : α} (hx : x ∈ l) (hne : x ≠ sep) :
    ∃ f ∈ l.splitOn sep, x ∈ f := by
  induction l using induction sep with
  | last f hf => exact ⟨f, by rw [splitOn_last hf]; exact List.mem_singleton_self f, hx⟩
  | field f rest hf ih =>
    rw [splitOn_field hf]
    rcases List.mem_append.mp hx with h | h
    · exact ⟨f, List.mem_cons_self, h⟩
    · obtain ⟨g, hg, hxg⟩ := ih (List.mem_of_ne_of_mem hne h)
      exact ⟨g, List.mem_cons_of_mem f hg, hxg⟩

/-- A list is as long as its fields, each with a separator behind it but the last. -/
theorem length_add_one (l : List α) :
    l.length + 1 = ((l.splitOn sep).map (·.length + 1)).sum := by
  induction l using induction sep with
  | last f hf => rw [splitOn_last hf, List.map_singleton, List.sum_singleton]
  | field f rest hf ih =>
    rw [splitOn_field hf, List.map_cons, List.sum_cons, ← ih, List.length_append,
      List.length_cons]
    omega

/-! ## The first field -/

/-- What stands in a field stands in the whole. -/
theorem mem_of_field {l f : List α} {x : α} (hf : f ∈ l.splitOn sep) (hx : x ∈ f) : x ∈ l := by
  induction l using induction sep with
  | last g hg =>
    rw [splitOn_last hg, List.mem_singleton] at hf
    rwa [← hf]
  | field g rest hg ih =>
    rw [splitOn_field hg, List.mem_cons] at hf
    rcases hf with rfl | hf
    · exact List.mem_append_left _ hx
    · exact List.mem_append_right _ (List.mem_cons_of_mem _ (ih hf))

/-- A field has no separator. -/
theorem notMem_field {l f : List α} (hf : f ∈ l.splitOn sep) : sep ∉ f := by
  induction l using induction sep with
  | last g hg =>
    rw [splitOn_last hg, List.mem_singleton] at hf
    rwa [hf]
  | field g rest hg ih =>
    rw [splitOn_field hg, List.mem_cons] at hf
    rcases hf with rfl | hf
    · exact hg
    · exact ih hf

omit [BEq α] [LawfulBEq α] in
/-- What is left behind a field and its separator. -/
theorem drop_field {f rest : List α} : (f ++ sep :: rest).drop (f.length + 1) = rest := by
  rw [← List.drop_drop, List.drop_left, List.drop_succ_cons, List.drop_zero]

omit [BEq α] [LawfulBEq α] in
/-- A run of what is kept, up to what is not. -/
theorem takeWhile_stop {keep : α → Bool} {l tail : List α} (hl : ∀ b ∈ l, keep b = true)
    (htail : ∀ b, tail.head? = some b → keep b = false) :
    (l ++ tail).takeWhile keep = l ∧ (l ++ tail).dropWhile keep = tail := by
  rw [List.takeWhile_append_of_pos hl, List.dropWhile_append_of_pos hl]
  cases tail with
  | nil => simp
  | cons b tail => simp [htail b rfl]

theorem bne_of_notMem {f : List α} (h : sep ∉ f) : ∀ x ∈ f, (x != sep) = true :=
  fun _ hx => bne_iff_ne.mpr fun heq => h (heq ▸ hx)

theorem findIdx?_last {f : List α} (h : sep ∉ f) : f.findIdx? (· == sep) = none := by
  rw [List.findIdx?_eq_none_iff]
  intro x hx
  exact beq_false_of_ne (bne_iff_ne.mp (bne_of_notMem h x hx))

theorem findIdx?_field {f : List α} (h : sep ∉ f) (rest : List α) :
    (f ++ sep :: rest).findIdx? (· == sep) = some f.length := by
  rw [List.findIdx?_append, findIdx?_last h]
  simp [List.findIdx?_cons]

theorem takeWhile_last {f : List α} (h : sep ∉ f) : f.takeWhile (· != sep) = f :=
  List.takeWhile_eq_self_iff.mpr (bne_of_notMem h)

theorem dropWhile_last {f : List α} (h : sep ∉ f) : f.dropWhile (· != sep) = [] :=
  List.dropWhile_eq_nil_iff.mpr (bne_of_notMem h)

theorem takeWhile_field {f : List α} (h : sep ∉ f) (rest : List α) :
    (f ++ sep :: rest).takeWhile (· != sep) = f := by
  rw [List.takeWhile_append_of_pos (bne_of_notMem h), List.takeWhile_cons_of_neg (by simp),
    List.append_nil]

theorem dropWhile_field {f : List α} (h : sep ∉ f) (rest : List α) :
    (f ++ sep :: rest).dropWhile (· != sep) = sep :: rest := by
  rw [List.dropWhile_append_of_pos (bne_of_notMem h), List.dropWhile_cons_of_neg (by simp)]

/-- The separator a text starts its rest with is its first. -/
theorem field_inj {f g rest rest' : List α} (hf : sep ∉ f) (hg : sep ∉ g)
    (h : f ++ sep :: rest = g ++ sep :: rest') : f = g ∧ rest = rest' := by
  have hfirst : f = g := by rw [← takeWhile_field hf rest, h, takeWhile_field hg]
  subst hfirst
  exact ⟨rfl, (List.cons.inj (List.append_cancel_left h)).2⟩

end Fields
