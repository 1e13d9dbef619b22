import Mathlib.Data.List.Forall2

/-!
# Lists that are related one by one
-/

namespace Paired

variable {α β γ : Type} {R : α → β → Prop} {xs : List α} {ys : List β}

theorem exists_left (h : List.Forall₂ R xs ys) {y : β} (hy : y ∈ ys) : ∃ x ∈ xs, R x y := by
  induction h with
  | nil => cases hy
  | cons hxy _ ih =>
    rcases List.mem_cons.mp hy with rfl | hy
    · exact ⟨_, List.mem_cons_self, hxy⟩
    · obtain ⟨x, hx, hR⟩ := ih hy
      exact ⟨x, List.mem_cons_of_mem _ hx, hR⟩

theorem exists_right (h : List.Forall₂ R xs ys) {x : α} (hx : x ∈ xs) : ∃ y ∈ ys, R x y :=
  exists_left (R := fun y x => R x y) h.flip hx

theorem trans {S : β → γ → Prop} {T : α → γ → Prop} {zs : List γ} (h : List.Forall₂ R xs ys)
    (h' : List.Forall₂ S ys zs) (hRST : ∀ x ∈ xs, ∀ y z, R x y → S y z → T x z) :
    List.Forall₂ T xs zs := by
  induction h generalizing zs with
  | nil =>
    cases h'
    exact .nil
  | cons hxy _ ih =>
    cases h' with
    | cons hyz h' =>
      refine .cons (hRST _ List.mem_cons_self _ _ hxy hyz) (ih h' fun x hx => ?_)
      exact hRST x (List.mem_cons_of_mem _ hx)

theorem chain {δ : Type} {S : γ → δ → Prop} {T : β → δ → Prop} {U : α → γ → Prop} {zs : List γ}
    {us : List δ} (h : List.Forall₂ R xs ys) (hT : List.Forall₂ T ys us)
    (hS : List.Forall₂ S zs us)
    (heach : ∀ x ∈ xs, ∀ y ∈ ys, ∀ u ∈ us, ∀ z ∈ zs, R x y → T y u → S z u → U x z) :
    List.Forall₂ U xs zs := by
  induction h generalizing us zs with
  | nil =>
    cases hT
    cases hS
    exact .nil
  | cons hxy _ ih =>
    cases hT with
    | cons hyu hT =>
      cases hS with
      | cons hzu hS =>
        refine .cons (heach _ List.mem_cons_self _ List.mem_cons_self _ List.mem_cons_self _
          List.mem_cons_self hxy hyu hzu) (ih hT hS fun x hx y hy u hu z hz => ?_)
        exact heach x (List.mem_cons_of_mem _ hx) y (List.mem_cons_of_mem _ hy) u
          (List.mem_cons_of_mem _ hu) z (List.mem_cons_of_mem _ hz)

theorem exists_of_forall (h : ∀ x ∈ xs, ∃ y, R x y) : ∃ ys, List.Forall₂ R xs ys := by
  induction xs with
  | nil => exact ⟨[], .nil⟩
  | cons x xs ih =>
    obtain ⟨y, hy⟩ := h x List.mem_cons_self
    obtain ⟨ys, hys⟩ := ih fun x' hx' => h x' (List.mem_cons_of_mem _ hx')
    exact ⟨y :: ys, .cons hy hys⟩

theorem map_eq {f : α → γ} {g : β → γ} (h : List.Forall₂ R xs ys) (hR : ∀ x y, R x y → f x = g y) :
    xs.map f = ys.map g := by
  induction h with
  | nil => rfl
  | cons hxy _ ih => rw [List.map_cons, List.map_cons, hR _ _ hxy, ih]

theorem exists_two {δ : Type} {S : α → γ → Prop} {T : β → δ → Prop} {U : γ → δ → Prop}
    (h : List.Forall₂ R xs ys)
    (heach : ∀ x ∈ xs, ∀ y ∈ ys, R x y → ∃ z u, S x z ∧ T y u ∧ U z u) :
    ∃ zs us, List.Forall₂ S xs zs ∧ List.Forall₂ T ys us ∧ List.Forall₂ U zs us := by
  induction h with
  | nil => exact ⟨[], [], .nil, .nil, .nil⟩
  | cons hxy _ ih =>
    obtain ⟨z, u, hxz, hyu, hzu⟩ := heach _ List.mem_cons_self _ List.mem_cons_self hxy
    obtain ⟨zs, us, hzs, hus, hzus⟩ :=
      ih fun x hx y hy => heach x (List.mem_cons_of_mem _ hx) y (List.mem_cons_of_mem _ hy)
    exact ⟨z :: zs, u :: us, .cons hxz hzs, .cons hyu hus, .cons hzu hzus⟩

theorem and_map_iff {f : α → γ} {g : β → γ} :
    List.Forall₂ (fun x y => f x = g y ∧ R x y) xs ys ↔
      xs.map f = ys.map g ∧ List.Forall₂ R xs ys := by
  constructor
  · exact fun h => ⟨map_eq h fun _ _ hxy => hxy.1, h.imp fun _ _ hxy => hxy.2⟩
  · rintro ⟨hmap, h⟩
    induction h with
    | nil => exact .nil
    | cons hxy _ ih =>
      rw [List.map_cons, List.map_cons, List.cons.injEq] at hmap
      exact .cons ⟨hmap.1, hxy⟩ (ih hmap.2)

theorem imp_mem {S : α → β → Prop} (h : List.Forall₂ R xs ys)
    (hRS : ∀ x ∈ xs, ∀ y ∈ ys, R x y → S x y) : List.Forall₂ S xs ys := by
  rw [List.forall₂_iff_zip] at h ⊢
  refine ⟨h.1, fun {x y} hzip => ?_⟩
  obtain ⟨hx, hy⟩ := List.of_mem_zip hzip
  exact hRS x hx y hy (h.2 hzip)

theorem exists_sublist {some : List α} (h : List.Forall₂ R xs ys) (hsub : some.Sublist xs) :
    ∃ ys' : List β, ys'.Sublist ys ∧ List.Forall₂ R some ys' := by
  induction hsub generalizing ys with
  | slnil => exact ⟨[], List.nil_sublist _, .nil⟩
  | cons x hsub ih =>
    cases h with
    | cons hxy h =>
      obtain ⟨ys', hys', h'⟩ := ih h
      exact ⟨ys', hys'.cons _, h'⟩
  | cons_cons x hsub ih =>
    cases h with
    | cons hxy h =>
      obtain ⟨ys', hys', h'⟩ := ih h
      exact ⟨_ :: ys', hys'.cons_cons _, .cons hxy h'⟩

theorem pairwise {S : α → α → Prop} {T : β → β → Prop} (h : List.Forall₂ R xs ys)
    (hpairs : xs.Pairwise S)
    (hST : ∀ {x x' y y'}, R x y → R x' y' → S x x' → T y y') : ys.Pairwise T := by
  induction h with
  | nil => exact .nil
  | cons hxy h ih =>
    rw [List.pairwise_cons] at hpairs ⊢
    refine ⟨fun y' hy' => ?_, ih hpairs.2⟩
    obtain ⟨x', hx', hxy'⟩ := exists_left h hy'
    exact hST hxy hxy' (hpairs.1 x' hx')

/-- The first elements that fit, when related ones fit alike. -/
theorem rel_find? {p : α → Bool} {q : β → Bool} (h : List.Forall₂ R xs ys)
    (hpq : ∀ x y, R x y → q y = p x) : Option.Rel R (xs.find? p) (ys.find? q) := by
  induction h with
  | nil => exact .none
  | @cons x y xs ys hxy _ ih =>
    rw [List.find?_cons, List.find?_cons, hpq x y hxy]
    cases p x with
    | true => exact .some hxy
    | false => exact ih

theorem rel_or {x x' : Option α} {y y' : Option β} (h : Option.Rel R x y)
    (h' : Option.Rel R x' y') : Option.Rel R (x.or x') (y.or y') := by
  cases h with
  | some hxy => exact .some hxy
  | none => exact h'

theorem isEmpty_eq (h : List.Forall₂ R xs ys) : ys.isEmpty = xs.isEmpty := by
  cases h <;> rfl

theorem filterMap {S : β → γ → Prop} {f : α → Option β} {g : α → Option γ}
    (h : ∀ x ∈ xs, Option.Rel S (f x) (g x)) :
    List.Forall₂ S (xs.filterMap f) (xs.filterMap g) := by
  induction xs with
  | nil => exact .nil
  | cons x xs ih =>
    have hx := h x List.mem_cons_self
    have hrest := ih (fun y hy => h y (List.mem_cons_of_mem x hy))
    rw [List.filterMap_cons, List.filterMap_cons]
    generalize f x = b at hx
    generalize g x = c at hx
    cases hx with
    | some hbc => exact .cons hbc hrest
    | none => exact hrest

end Paired
