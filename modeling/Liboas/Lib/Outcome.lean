/-!
# Postconditions for computations that can fail

`Permits x P` says that a result of `x`, if there is one, has property `P`. `Both x y P`
says that `x` and `y` have one and the same. Each has a rule for `bind` and one for a fold.
-/

namespace Outcome

variable {ε α β : Type}

theorem bind_eq_ok {x : Except ε α} {k : α → Except ε β} {b : β} :
    (x >>= k) = .ok b ↔ ∃ a, x = .ok a ∧ k a = .ok b := by
  cases x <;> simp [bind, Except.bind]

def Permits (x : Except ε α) (P : α → Prop) : Prop := ∀ a, x = .ok a → P a

/-- Both computations return the same, and it has property `P`. -/
def Both (x y : Except ε α) (P : α → Prop) : Prop := ∃ a, x = .ok a ∧ y = .ok a ∧ P a

namespace Permits

variable {P : α → Prop} {Q : β → Prop}

theorem ok {a : α} (h : P a) : Permits (.ok a : Except ε α) P := by
  rintro b ⟨⟩
  exact h

theorem pure {a : α} (h : P a) : Permits (Pure.pure a : Except ε α) P := ok h

theorem error {e : ε} : Permits (.error e : Except ε α) P := by
  rintro b ⟨⟩

theorem mono {P' : α → Prop} {x : Except ε α} (h : Permits x P) (hP : ∀ a, P a → P' a) :
    Permits x P' :=
  fun a ha => hP a (h a ha)

theorem bind {x : Except ε α} {k : α → Except ε β} (h : Permits x P)
    (hk : ∀ a, P a → Permits (k a) Q) : Permits (x >>= k) Q := by
  intro b hb
  obtain ⟨a, ha, hb⟩ := bind_eq_ok.mp hb
  exact hk a (h a ha) b hb

/-- Two continuations that agree on what `x` can return. -/
theorem bind_congr {x : Except ε α} {k k' : α → Except ε β} (h : Permits x P)
    (hk : ∀ a, P a → k a = k' a) : x >>= k = x >>= k' := by
  cases x with
  | error e => rfl
  | ok a => exact hk a (h a rfl)

/-- What a step of a fold keeps, the fold keeps. -/
theorem foldlM {f : β → α → Except ε β} {l : List α} {b : β} (hb : Q b)
    (hf : ∀ b, Q b → ∀ a ∈ l, Permits (f b a) Q) : Permits (l.foldlM f b) Q := by
  induction l generalizing b with
  | nil => exact pure hb
  | cons a l ih =>
    rw [List.foldlM_cons]
    refine bind (hf b hb a List.mem_cons_self) ?_
    intro c hc
    exact ih hc (fun b hb a ha => hf b hb a (List.mem_cons_of_mem _ ha))

end Permits

namespace Both

variable {P : α → Prop} {Q : β → Prop}

theorem ok {a : α} (h : P a) : Both (.ok a : Except ε α) (.ok a) P := ⟨a, rfl, rfl, h⟩

theorem pure {a : α} (h : P a) : Both (Pure.pure a : Except ε α) (Pure.pure a) P := ok h

theorem mono {P' : α → Prop} {x y : Except ε α} (h : Both x y P) (hP : ∀ a, P a → P' a) :
    Both x y P' := by
  obtain ⟨a, hx, hy, h⟩ := h
  exact ⟨a, hx, hy, hP a h⟩

theorem bind {x y : Except ε α} {k l : α → Except ε β} (h : Both x y P)
    (hk : ∀ a, P a → Both (k a) (l a) Q) : Both (x >>= k) (y >>= l) Q := by
  obtain ⟨a, rfl, rfl, h⟩ := h
  exact hk a h

theorem foldlM {f g : β → α → Except ε β} {l : List α} {b : β} (hb : Q b)
    (hfg : ∀ b, Q b → ∀ a ∈ l, Both (f b a) (g b a) Q) :
    Both (l.foldlM f b) (l.foldlM g b) Q := by
  induction l generalizing b with
  | nil => exact pure hb
  | cons a l ih =>
    rw [List.foldlM_cons, List.foldlM_cons]
    refine bind (hfg b hb a List.mem_cons_self) ?_
    intro c hc
    exact ih hc (fun b hb a ha => hfg b hb a (List.mem_cons_of_mem _ ha))

end Both

/-- `y` is `x`, with the image of its result. -/
def Mirrors {γ : Type} (q : α → γ) (x : Except ε α) (y : Except ε γ) : Prop := y = x.map q

namespace Mirrors

variable {γ δ : Type} {q : α → γ} {r : β → δ}

theorem ok {a : α} : Mirrors q (.ok a : Except ε α) (.ok (q a)) := rfl

theorem error {e : ε} : Mirrors q (.error e) (.error e) := rfl

theorem bind {x : Except ε α} {y : Except ε γ} {k : α → Except ε β} {l : γ → Except ε δ}
    (h : Mirrors q x y) (hk : ∀ a, Mirrors r (k a) (l (q a))) :
    Mirrors r (x >>= k) (y >>= l) := by
  cases x with
  | error e =>
    rw [h]
    rfl
  | ok a =>
    rw [h]
    exact hk a

/-- The same computation first, on both sides. -/
theorem same_bind {σ : Type} {x : Except ε σ} {k : σ → Except ε β} {l : σ → Except ε δ}
    (hk : ∀ a, Mirrors r (k a) (l a)) : Mirrors r (x >>= k) (x >>= l) := by
  cases x with
  | error e => rfl
  | ok a => exact hk a

theorem ite {c d : Prop} [Decidable c] [Decidable d] {x x' : Except ε α} {y y' : Except ε γ}
    (hcd : c ↔ d) (h : Mirrors q x y) (h' : Mirrors q x' y') :
    Mirrors q (if c then x else x') (if d then y else y') := by
  by_cases hc : c
  · rw [if_pos hc, if_pos (hcd.mp hc)]
    exact h
  · rw [if_neg hc, if_neg (fun hd => hc (hcd.mpr hd))]
    exact h'

theorem foldlM {f : β → α → Except ε β} {g : δ → α → Except ε δ} (l : List α)
    (hfg : ∀ b a, Mirrors r (f b a) (g (r b) a)) (b : β) :
    Mirrors r (l.foldlM f b) (l.foldlM g (r b)) := by
  induction l generalizing b with
  | nil => rfl
  | cons a l ih =>
    rw [List.foldlM_cons, List.foldlM_cons]
    exact bind (hfg b a) ih

end Mirrors

/-- The results of `x` and of `y`, if both have one, are related. -/
def Relates {γ : Type} (x : Except ε α) (y : Except ε γ) (R : α → γ → Prop) : Prop :=
  ∀ a c, x = .ok a → y = .ok c → R a c

namespace Relates

variable {γ δ : Type} {R : α → γ → Prop} {S : β → δ → Prop}

theorem ok {a : α} {c : γ} (h : R a c) : Relates (.ok a : Except ε α) (.ok c) R := by
  rintro a' c' ⟨⟩ ⟨⟩
  exact h

theorem pure {a : α} {c : γ} (h : R a c) : Relates (Pure.pure a : Except ε α) (Pure.pure c) R := ok h

theorem error {e : ε} {y : Except ε γ} : Relates (.error e) y R := by
  rintro a c ⟨⟩

theorem mono {R' : α → γ → Prop} {x : Except ε α} {y : Except ε γ} (h : Relates x y R)
    (hR : ∀ a c, R a c → R' a c) : Relates x y R' :=
  fun a c hx hy => hR a c (h a c hx hy)

theorem bind {x : Except ε α} {y : Except ε γ} {k : α → Except ε β} {l : γ → Except ε δ}
    (h : Relates x y R) (hk : ∀ a c, R a c → Relates (k a) (l c) S) :
    Relates (x >>= k) (y >>= l) S := by
  intro b d hb hd
  obtain ⟨a, ha, hb⟩ := bind_eq_ok.mp hb
  obtain ⟨c, hc, hd⟩ := bind_eq_ok.mp hd
  exact hk a c (h a c ha hc) b d hb hd

/-- The same computation first, on both sides. -/
theorem same_bind {x : Except ε α} {k : α → Except ε β} {l : α → Except ε δ}
    (hk : ∀ a, Relates (k a) (l a) S) : Relates (x >>= k) (x >>= l) S := by
  cases x with
  | error e => exact error
  | ok a => exact hk a

theorem ite {c d : Prop} [Decidable c] [Decidable d] {x x' : Except ε α} {y y' : Except ε γ}
    (hcd : c ↔ d) (h : Relates x y R) (h' : Relates x' y' R) :
    Relates (if c then x else x') (if d then y else y') R := by
  by_cases hc : c
  · rw [if_pos hc, if_pos (hcd.mp hc)]
    exact h
  · rw [if_neg hc, if_neg (fun hd => hc (hcd.mpr hd))]
    exact h'

/-- Two folds over the same list, with related steps. -/
theorem foldlM_mem {σ : Type} {f : β → σ → Except ε β} {g : δ → σ → Except ε δ} (l : List σ)
    (hfg : ∀ b d, S b d → ∀ a ∈ l, Relates (f b a) (g d a) S) {b : β} {d : δ} (h : S b d) :
    Relates (l.foldlM f b) (l.foldlM g d) S := by
  induction l generalizing b d with
  | nil => exact pure h
  | cons a l ih =>
    rw [List.foldlM_cons, List.foldlM_cons]
    refine bind (hfg b d h a List.mem_cons_self) (fun b' d' h' => ih ?_ h')
    exact fun b d h a ha => hfg b d h a (List.mem_cons_of_mem _ ha)

theorem foldlM {σ : Type} {f : β → σ → Except ε β} {g : δ → σ → Except ε δ} (l : List σ)
    (hfg : ∀ b d, S b d → ∀ a, Relates (f b a) (g d a) S) {b : β} {d : δ} (h : S b d) :
    Relates (l.foldlM f b) (l.foldlM g d) S :=
  foldlM_mem l (fun b d h a _ => hfg b d h a) h

end Relates

/-- `y` has the result of `x`, if `x` has one. -/
def Refines (x y : Except ε α) : Prop := ∀ a, x = .ok a → y = .ok a

namespace Refines

variable {x y : Except ε α}

theorem refl (x : Except ε α) : Refines x x := fun _ h => h

theorem error {e : ε} : Refines (.error e) y := by
  rintro a ⟨⟩

theorem bind {k l : α → Except ε β} (h : Refines x y) (hk : ∀ a, Refines (k a) (l a)) :
    Refines (x >>= k) (y >>= l) := by
  intro b hb
  obtain ⟨a, ha, hb⟩ := bind_eq_ok.mp hb
  exact bind_eq_ok.mpr ⟨a, h a ha, hk a b hb⟩

theorem foldlM {f g : β → α → Except ε β} (l : List α) (h : ∀ b a, Refines (f b a) (g b a))
    (b : β) : Refines (l.foldlM f b) (l.foldlM g b) := by
  induction l generalizing b with
  | nil => exact refl _
  | cons a l ih =>
    rw [List.foldlM_cons, List.foldlM_cons]
    exact bind (h b a) ih

end Refines

end Outcome
