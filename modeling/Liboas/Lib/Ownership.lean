import Mathlib.Data.Multiset.AddSub

/-!
# Resources that are acquired and released

Programs over a ledger of what is live, where any request can be refused. A triple says what a
program owns before and after it. The frame is in the definition, so what others own is neither
touched nor relied on.
-/

namespace Ownership

variable {ρ : Type}

structure Ledger (ρ : Type) where
  /-- Which requests are granted. -/
  granted : Nat → Bool
  requests : Nat
  live : Multiset ρ
  /-- Something that was not live was released or used. -/
  fault : Bool

abbrev Custody (ρ β : Type) := StateM (Ledger ρ) β

theorem return_run {β : Type} (b : β) (l : Ledger ρ) : (pure b : Custody ρ β) l = (b, l) := rfl

section Operations

/-- Asks for something new. Its number is never given again. -/
def request : Custody ρ (Option Nat) := fun l =>
  (if l.granted l.requests then some l.requests else none, { l with requests := l.requests + 1 })

def acquire (r : ρ) : Custody ρ Unit := fun l => ((), { l with live := r ::ₘ l.live })

variable [DecidableEq ρ]

def release (r : ρ) : Custody ρ Unit := fun l =>
  ((), { l with live := l.live.erase r, fault := l.fault || !decide (r ∈ l.live) })

/-- Needs `r` to be live. -/
def touch (r : ρ) : Custody ρ Unit := fun l =>
  ((), { l with fault := l.fault || !decide (r ∈ l.live) })

end Operations

/-! ## Triples -/

section Triple

variable {β γ : Type}

/-- A program that owns `pre` when it starts owns what `post` says when it ends, and is never at
fault. -/
def Triple (pre : Multiset ρ) (m : Custody ρ β) (post : β → Multiset ρ → Prop) : Prop :=
  ∀ (rest : Multiset ρ) (l : Ledger ρ), l.live = pre + rest → l.fault = false →
    ∃ owned, post (m l).1 owned ∧ (m l).2.live = owned + rest ∧ (m l).2.fault = false

variable {pre : Multiset ρ} {m : Custody ρ β} {post : β → Multiset ρ → Prop}

namespace Triple

theorem pure {b : β} (h : post b pre) : Triple pre (pure b : Custody ρ β) post :=
  fun _ _ hlive hfault => ⟨pre, h, hlive, hfault⟩

theorem bind {f : β → Custody ρ γ} {post' : γ → Multiset ρ → Prop} (h : Triple pre m post)
    (hf : ∀ b owned, post b owned → Triple owned (f b) post') : Triple pre (m >>= f) post' := by
  intro rest l hlive hfault
  obtain ⟨owned, hpost, hlive', hfault'⟩ := h rest l hlive hfault
  exact hf _ owned hpost rest _ hlive' hfault'

theorem mono {post' : β → Multiset ρ → Prop} (h : Triple pre m post)
    (hpost : ∀ b owned, post b owned → post' b owned) : Triple pre m post' := by
  intro rest l hlive hfault
  obtain ⟨owned, howned, hrest⟩ := h rest l hlive hfault
  exact ⟨owned, hpost _ owned howned, hrest⟩

/-- What is not needed stays as it is. -/
theorem frame (h : Triple pre m post) (kept : Multiset ρ) :
    Triple (pre + kept) m (fun b owned => ∃ part, post b part ∧ owned = part + kept) := by
  intro rest l hlive hfault
  obtain ⟨part, hpart, hlive', hfault'⟩ :=
    h (kept + rest) l (by rw [hlive, Multiset.add_assoc]) hfault
  exact ⟨part + kept, ⟨part, hpart, rfl⟩, by rw [hlive', Multiset.add_assoc], hfault'⟩

theorem request : Triple pre (request : Custody ρ (Option Nat)) (fun _ owned => owned = pre) :=
  fun _ _ hlive hfault => ⟨pre, rfl, hlive, hfault⟩

theorem acquire (r : ρ) : Triple pre (acquire r) (fun _ owned => owned = {r} + pre) := by
  intro rest l hlive hfault
  refine ⟨{r} + pre, rfl, ?_, hfault⟩
  show r ::ₘ l.live = {r} + pre + rest
  rw [hlive, Multiset.singleton_add, Multiset.cons_add]

variable [DecidableEq ρ]

theorem release (r : ρ) : Triple ({r} + pre) (release r) (fun _ owned => owned = pre) := by
  intro rest l hlive hfault
  rw [Multiset.singleton_add, Multiset.cons_add] at hlive
  have hmem : r ∈ l.live := hlive ▸ Multiset.mem_cons_self r _
  refine ⟨pre, rfl, ?_, ?_⟩
  · show l.live.erase r = pre + rest
    rw [hlive, Multiset.erase_cons_head]
  · show (l.fault || !decide (r ∈ l.live)) = false
    simp [hfault, hmem]

theorem touch {r : ρ} (h : r ∈ pre) : Triple pre (touch r) (fun _ owned => owned = pre) := by
  intro rest l hlive hfault
  have hmem : r ∈ l.live := hlive ▸ Multiset.mem_add.mpr (.inl h)
  refine ⟨pre, rfl, hlive, ?_⟩
  show (l.fault || !decide (r ∈ l.live)) = false
  simp [hfault, hmem]

end Triple

end Triple

/-! ## Objects under construction -/

/-- Programs that work on an object and can stop. What they did before stays. -/
abbrev Building (ρ σ ε β : Type) := ExceptT ε (StateT σ (StateM (Ledger ρ))) β

section Keeps

variable {σ ε β γ : Type} {own : σ → Multiset ρ} {Inv : σ → Prop}

/-- Whether it stops or not, the object owns what it says. -/
def Keeps (own : σ → Multiset ρ) (Inv : σ → Prop) (m : Building ρ σ ε β) : Prop :=
  ∀ s, Inv s → Triple (own s) (m.run.run s) (fun out owned => owned = own out.2 ∧ Inv out.2)

/-- What follows a program that did not stop. -/
def resume (f : β → Building ρ σ ε γ) : Except ε β × σ → Custody ρ (Except ε γ × σ)
  | (.ok b, s) => (f b).run.run s
  | (.error e, s) => pure (.error e, s)

theorem run_bind (m : Building ρ σ ε β) (f : β → Building ρ σ ε γ) (s : σ) :
    (m >>= f).run.run s = m.run.run s >>= resume f := by
  simp only [ExceptT.run_bind, StateT.run_bind]
  refine bind_congr (fun out => ?_)
  obtain ⟨result, s'⟩ := out
  cases result <;> rfl

/-- A step that is not a program of its own. -/
def step (f : σ → Custody ρ (Except ε β × σ)) : Building ρ σ ε β := .mk (fun s => f s)

/-- Looks at the object first. -/
def inspect (f : σ → Building ρ σ ε β) : Building ρ σ ε β := .mk (fun s => (f s).run.run s)

theorem run_inspect (f : σ → Building ρ σ ε β) (s : σ) :
    (inspect f).run.run s = (f s).run.run s := rfl

namespace Keeps

theorem step {f : σ → Custody ρ (Except ε β × σ)}
    (h : ∀ s, Inv s → Triple (own s) (f s) (fun out owned => owned = own out.2 ∧ Inv out.2)) :
    Keeps own Inv (step f) := h

theorem inspect {f : σ → Building ρ σ ε β} (h : ∀ s, Inv s → Keeps own Inv (f s)) :
    Keeps own Inv (inspect f) := fun s hs => h s hs s hs

theorem pure (b : β) : Keeps own Inv (pure b : Building ρ σ ε β) :=
  fun _ hs => Triple.pure ⟨rfl, hs⟩

theorem throw (e : ε) : Keeps own Inv (throw e : Building ρ σ ε β) :=
  fun _ hs => Triple.pure ⟨rfl, hs⟩

theorem bind {m : Building ρ σ ε β} {f : β → Building ρ σ ε γ} (h : Keeps own Inv m)
    (hf : ∀ b, Keeps own Inv (f b)) : Keeps own Inv (m >>= f) := by
  intro s hs
  rw [run_bind]
  refine Triple.bind (h s hs) ?_
  rintro ⟨result, s'⟩ owned ⟨rfl, hs'⟩
  cases result with
  | ok b => exact hf b s' hs'
  | error e => exact Triple.pure ⟨rfl, hs'⟩

theorem forM {α : Type} {f : α → Building ρ σ ε PUnit} (l : List α) (h : ∀ a ∈ l, Keeps own Inv (f a)) :
    Keeps own Inv (l.forM f) := by
  induction l with
  | nil => exact pure _
  | cons a l ih =>
    exact bind (h a List.mem_cons_self) (fun _ => ih (fun b hb => h b (List.mem_cons_of_mem a hb)))

end Keeps

end Keeps

/-! ## Results -/

section Yields

variable {β γ : Type} {m : Custody ρ β} {Q : (Nat → Bool) → β → Prop}

/-- What comes out, in terms of what is granted. -/
def Yields (m : Custody ρ β) (Q : (Nat → Bool) → β → Prop) : Prop :=
  ∀ l, Q l.granted (m l).1 ∧ (m l).2.granted = l.granted

namespace Yields

theorem pure {b : β} (h : ∀ granted, Q granted b) : Yields (pure b : Custody ρ β) Q :=
  fun l => ⟨h l.granted, rfl⟩

theorem bind {f : β → Custody ρ γ} {Q' : (Nat → Bool) → γ → Prop} (h : Yields m Q)
    (hf : ∀ b, (∃ granted, Q granted b) →
      Yields (f b) (fun granted c => Q granted b → Q' granted c)) : Yields (m >>= f) Q' := by
  intro l
  obtain ⟨hQ, hsame⟩ := h l
  obtain ⟨hQ', hsame'⟩ := hf (m l).1 ⟨_, hQ⟩ (m l).2
  rw [hsame] at hQ'
  exact ⟨hQ' hQ, hsame'.trans hsame⟩

theorem mono {Q' : (Nat → Bool) → β → Prop} (h : Yields m Q)
    (hQ : ∀ granted b, Q granted b → Q' granted b) : Yields m Q' :=
  fun l => ⟨hQ _ _ (h l).1, (h l).2⟩

/-- Only what is refused is missing. -/
theorem request : Yields (request : Custody ρ (Option Nat))
    (fun granted n => n = none → ∃ k, granted k = false) := by
  intro l
  refine ⟨fun hnone => ⟨l.requests, ?_⟩, rfl⟩
  cases h : l.granted l.requests with
  | false => rfl
  | true =>
    have hsome : (Ownership.request l).1 = some l.requests := if_pos h
    rw [hsome] at hnone
    cases hnone

theorem acquire (r : ρ) : Yields (acquire r) (fun _ _ => True) := fun _ => ⟨trivial, rfl⟩

theorem release [DecidableEq ρ] (r : ρ) : Yields (release r) (fun _ _ => True) :=
  fun _ => ⟨trivial, rfl⟩

theorem touch [DecidableEq ρ] (r : ρ) : Yields (touch r) (fun _ _ => True) := fun _ => ⟨trivial, rfl⟩

end Yields

end Yields

end Ownership
