import Liboas.Compiler.Steps

/-!
# What the compiler stops at

The code that a schema emits by itself fails only where the regex backend rejects one of its own
patterns.
-/

namespace Liboas

open Emit Schema

def Succeeds (a : Emit) : Prop := ∃ code, a = .ok code

/-- The backend accepts the pattern. -/
def Takes (config : Option CompilerConfig) (pattern : CStr) : Prop :=
  ∀ regex, backend config = some regex → 0 ≤ regex.compile pattern

structure TakesPatterns {α : Type} (config : Option CompilerConfig) (s : Schema α) : Prop where
  pattern : ∀ p, s.pattern = some p → Takes config p
  patternProperties : ∀ e ∈ s.patternProperties, e.schema.isSome = true → Takes config e.name

section Own

variable {α : Type} {config : Option CompilerConfig} {s : Schema α}

theorem succeeds_emit (code : List Instr) : Succeeds (emit code) := ⟨code, rfl⟩

theorem succeeds_append {a b : Emit} : Succeeds (a ++ b) ↔ Succeeds a ∧ Succeeds b := by
  constructor
  · rintro ⟨code, hcode⟩
    cases a with
    | error e => cases hcode
    | ok x =>
      cases b with
      | error e => cases hcode
      | ok y => exact ⟨⟨x, rfl⟩, ⟨y, rfl⟩⟩
  · rintro ⟨⟨x, rfl⟩, ⟨y, rfl⟩⟩
    exact ⟨x ++ y, rfl⟩

theorem succeeds_emitEach {β : Type} {g : β → Emit} {l : List β} (h : ∀ x, Succeeds (g x)) :
    Succeeds (emitEach g l) := by
  induction l with
  | nil => exact succeeds_emit _
  | cons x l ih => exact succeeds_append.mpr ⟨h x, ih⟩

theorem succeeds_withPattern {failure : String} {pattern : CStr} {code : List Instr} :
    Succeeds (withPattern config failure pattern (emit code)) ↔ Takes config pattern := by
  unfold withPattern Takes
  cases hbackend : backend config with
  | none => exact iff_of_true (succeeds_emit _) (by simp)
  | some regex =>
    dsimp only
    split
    · rename_i hrejected
      refine iff_of_false (by rintro ⟨_, ⟨⟩⟩) (fun h => ?_)
      have := h regex rfl
      omega
    · refine iff_of_true (succeeds_emit _) ?_
      rintro _ ⟨⟩
      omega

theorem succeeds_string {k : Keywords} :
    Succeeds (emitString config k) ↔ ∀ p, k.pattern = some p → Takes config p := by
  have hpattern : Succeeds (emitPattern config k) ↔ ∀ p, k.pattern = some p → Takes config p := by
    unfold emitPattern
    cases k.pattern with
    | none => exact iff_of_true (succeeds_emit _) (by simp)
    | some p => simpa using succeeds_withPattern
  rw [← hpattern, emitString, succeeds_append, succeeds_append, succeeds_append]
  exact ⟨fun h => h.1.2, fun h => ⟨⟨⟨succeeds_emit _, succeeds_emit _⟩, h⟩, succeeds_emit _⟩⟩

/-- The code of the part itself does not fail. -/
def Part.Succeeds : Part α → Prop
  | .plain code => Liboas.Succeeds code
  | .nested head _ => Liboas.Succeeds head
  | .branches _ _ => True

theorem succeeds_nestedPart (op : Instr) (slot : Option α) : ∀ p ∈ nestedPart op slot, p.Succeeds := by
  intro p hp
  unfold nestedPart at hp
  split at hp
  · rw [List.mem_singleton] at hp
    subst hp
    exact succeeds_emit _
  · cases hp

theorem succeeds_compositionPart (op : UInt16 → Instr) (slots : List (Option α)) :
    ∀ p ∈ compositionPart op slots, p.Succeeds := by
  intro p hp
  unfold compositionPart at hp
  split at hp
  · cases hp
  · rw [List.mem_singleton] at hp
    subst hp
    trivial

theorem succeeds_containsPart : ∀ p ∈ containsPart s, p.Succeeds := by
  intro p hp
  unfold containsPart at hp
  split at hp
  · rw [List.mem_singleton] at hp
    subst hp
    exact succeeds_emit _
  · cases hp

theorem succeeds_choicePart : ∀ p ∈ choicePart s, p.Succeeds := by
  rw [choicePart_eq]
  split
  · split
    · simp [Part.Succeeds]
    · simp
  · rw [List.forall_mem_append]
    exact ⟨succeeds_compositionPart _ _, succeeds_compositionPart _ _⟩

theorem succeeds_conditionalPart : ∀ p ∈ conditionalPart s, p.Succeeds := by
  unfold conditionalPart
  split
  · simp only [List.forall_mem_append]
    exact ⟨⟨succeeds_nestedPart _ _, succeeds_nestedPart _ _⟩, succeeds_nestedPart _ _⟩
  · simp

theorem succeeds_arrayLayout : ∀ p ∈ arrayLayout s, p.Succeeds := by
  simp only [arrayLayout, List.forall_mem_append, List.forall_mem_singleton, List.forall_mem_map]
  exact ⟨⟨succeeds_emit _, fun e _ => succeeds_emit _⟩, succeeds_nestedPart _ _⟩

theorem succeeds_patternPropertyPart (e : Entry α) :
    (∀ p ∈ patternPropertyPart config e, p.Succeeds) ↔
      (e.schema.isSome = true → Takes config e.name) := by
  unfold patternPropertyPart
  split
  · rename_i hsome
    rw [List.forall_mem_singleton]
    exact succeeds_withPattern.trans ⟨fun h _ => h, fun h => h hsome.1⟩
  · rename_i hnot
    refine iff_of_true (by simp) (fun hsome regex hbackend => ?_)
    exact absurd ⟨hsome, by rw [hbackend]; rfl⟩ hnot

theorem succeeds_objectLayout : (∀ p ∈ objectLayout config s, p.Succeeds) ↔
    ∀ e ∈ s.patternProperties, e.schema.isSome = true → Takes config e.name := by
  simp only [objectLayout, List.forall_mem_append, List.forall_mem_singleton, List.forall_mem_map,
    List.forall_mem_flatMap, succeeds_patternPropertyPart]
  refine ⟨fun h => h.1.1.2, fun h => ⟨⟨⟨?_, h⟩, ?_⟩, fun e _ => succeeds_nestedPart _ _⟩⟩
  · exact ⟨⟨⟨⟨succeeds_emit _, fun e _ => succeeds_emit _⟩, succeeds_nestedPart _ _⟩, succeeds_emit _⟩,
      succeeds_nestedPart _ _⟩
  · exact succeeds_emitEach (fun _ => succeeds_emit _)

theorem succeeds_layout : (∀ p ∈ layout config s, p.Succeeds) ↔ TakesPatterns config s := by
  have hfirst : Liboas.Succeeds (emitType s.toKeywords ++ emitString config s.toKeywords ++
      emitNumeric s.toKeywords) ↔ ∀ p, s.pattern = some p → Takes config p := by
    rw [← succeeds_string, succeeds_append, succeeds_append]
    exact ⟨fun h => h.1.2, fun h => ⟨⟨succeeds_emit _, h⟩, succeeds_emit _⟩⟩
  simp only [layout, List.forall_mem_append, List.forall_mem_singleton, succeeds_objectLayout]
  constructor
  · intro h
    exact ⟨hfirst.mp h.1.1.1.1.1.1.1.1, h.1.1.1.1.1.1.2⟩
  · rintro ⟨hpattern, hproperties⟩
    exact ⟨⟨⟨⟨⟨⟨⟨⟨hfirst.mpr hpattern, succeeds_arrayLayout⟩, hproperties⟩, succeeds_containsPart⟩,
      succeeds_compositionPart _ _⟩, succeeds_choicePart⟩, succeeds_nestedPart _ _⟩, succeeds_conditionalPart⟩,
      succeeds_emit _⟩

theorem Part.succeeds_iff {p : Part α} :
    p.Succeeds ↔ ∀ code, .own code ∈ p.steps → Liboas.Succeeds code := by
  cases p <;> simp [Part.Succeeds, Part.steps]

/-- The code that is emitted outside the schemas below. -/
theorem own_ok_iff : (∀ code, .own code ∈ s.steps config → ∃ c, code = .ok c) ↔
    (s.refResolved = none → s.ref = none ∧ TakesPatterns config s) := by
  unfold steps
  cases hresolved : s.refResolved with
  | some target => simp
  | none =>
    dsimp only
    cases href : s.ref with
    | some name => simp
    | none =>
      simp only [Option.isSome_none, Bool.false_eq_true, if_false, List.mem_flatMap,
        ← succeeds_layout, Part.succeeds_iff, true_and, forall_const]
      constructor
      · exact fun h p hp code hcode => h code ⟨p, hp, hcode⟩
      · rintro h code ⟨p, hp, hcode⟩
        exact h p hp code hcode

end Own

end Liboas
