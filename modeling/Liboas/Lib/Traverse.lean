/-!
# Walks that carry a state

`option` and `list` apply a step to what they hold, from left to right, and hand the state
on. `Tracks Good x b` says that when the walk `x` ends well, then it started well and
returned `b`: a walk that fails once stays failed.
-/

namespace Traverse

variable {α β γ σ : Type}

def option (f : α → σ → β × σ) : Option α → σ → Option β × σ
  | none, st => (none, st)
  | some a, st => (some (f a st).1, (f a st).2)

def list (f : α → σ → β × σ) : List α → σ → List β × σ
  | [], st => ([], st)
  | a :: l, st => ((f a st).1 :: (list f l (f a st).2).1, (list f l (f a st).2).2)

def Tracks (Good : σ → Prop) (x : σ → β × σ) (b : β) : Prop :=
  ∀ st, Good (x st).2 → Good st ∧ (x st).1 = b

variable {Good : σ → Prop} {f : α → σ → β × σ} {g : α → β}

theorem tracks_option {o : Option α} (h : ∀ a, o = some a → Tracks Good (f a) (g a)) :
    Tracks Good (option f o) (o.map g) := by
  intro st hgood
  cases o with
  | none => exact ⟨hgood, rfl⟩
  | some a =>
    obtain ⟨hst, heq⟩ := h a rfl st hgood
    exact ⟨hst, congrArg some heq⟩

theorem tracks_list {l : List α} (h : ∀ a ∈ l, Tracks Good (f a) (g a)) :
    Tracks Good (list f l) (l.map g) := by
  induction l with
  | nil => exact fun st hgood => ⟨hgood, rfl⟩
  | cons a l ih =>
    intro st hgood
    obtain ⟨hmid, hrest⟩ := ih (fun b hb => h b (List.mem_cons_of_mem _ hb)) _ hgood
    obtain ⟨hst, hfirst⟩ := h a List.mem_cons_self st hmid
    refine ⟨hst, ?_⟩
    rw [list, hfirst, hrest]
    rfl

theorem list_map (h : γ → α) (l : List γ) : list f (l.map h) = list (fun c => f (h c)) l := by
  induction l with
  | nil => rfl
  | cons c l ih =>
    funext st
    simp only [List.map_cons, list, ih]

/-- A walk whose steps leave the state as it is. -/
theorem list_idle {st : σ} {l : List α} (h : ∀ a ∈ l, f a st = (g a, st)) :
    list f l st = (l.map g, st) := by
  induction l with
  | nil => rfl
  | cons a l ih =>
    rw [List.forall_mem_cons] at h
    rw [list, h.1, ih h.2]
    rfl

/-- What each step keeps of its value, a walk keeps of all values. -/
theorem option_keeps {p : α → γ} {q : β → γ} (h : ∀ a st, q (f a st).1 = p a) (o : Option α)
    (st : σ) : (option f o st).1.map q = o.map p := by
  cases o with
  | none => rfl
  | some a => exact congrArg some (h a st)

theorem list_keeps {p : α → γ} {q : β → γ} (h : ∀ a st, q (f a st).1 = p a) (l : List α)
    (st : σ) : (list f l st).1.map q = l.map p := by
  induction l generalizing st with
  | nil => rfl
  | cons a l ih =>
    rw [list, List.map_cons, List.map_cons, ih, h]

/-- The result of a walk, put into something larger. -/
theorem Tracks.wrap {x : σ → β × σ} {b : β} (h : Tracks Good x b) (k : β → γ) :
    Tracks Good (fun st => (k (x st).1, (x st).2)) (k b) := by
  intro st hgood
  obtain ⟨hst, heq⟩ := h st hgood
  exact ⟨hst, congrArg k heq⟩

/-! ## Walks over what something lists -/

theorem list_append (xs ys : List α) (st : σ) : list f (xs ++ ys) st =
    ((list f xs st).1 ++ (list f ys (list f xs st).2).1, (list f ys (list f xs st).2).2) := by
  induction xs generalizing st with
  | nil => rfl
  | cons a xs ih =>
    rw [List.cons_append, list, ih]
    rfl

/-- The walk `w` applies `f` to what `sources` lists, and `results` lists what comes of it. -/
def Visits {δ ε : Type} (f : α → σ → β × σ) (w : δ → σ → ε × σ) (sources : δ → List α)
    (results : ε → List β) : Prop :=
  ∀ d st, list f (sources d) st = (results (w d st).1, (w d st).2)

namespace Visits

variable {δ ε : Type} {w : δ → σ → ε × σ} {sources : δ → List α} {results : ε → List β}

theorem slot (f : α → σ → β × σ) : Visits f (Traverse.option f) Option.toList Option.toList := by
  intro o st
  cases o <;> rfl

theorem option (h : Visits f w sources results) :
    Visits f (Traverse.option w) (fun o => o.toList.flatMap sources)
      (fun o => o.toList.flatMap results) := by
  intro o st
  cases o with
  | none => rfl
  | some d => simpa [Traverse.option] using h d st

theorem list (h : Visits f w sources results) :
    Visits f (Traverse.list w) (List.flatMap sources) (List.flatMap results) := by
  intro l st
  induction l generalizing st with
  | nil => rfl
  | cons d l ih =>
    rw [List.flatMap_cons, list_append, h d st, ih]
    rfl

end Visits

end Traverse
