import Liboas.Compiler.Layout
import Liboas.Lib.Paired

/-!
# The shape of the code

What the code of a part looks like, and what holds of the code of a whole schema when it
holds of every part.
-/

namespace Liboas

open Outcome Emit

/-! ## The shape of a part -/

/-- Checks, and the inline names of `dependentRequired`. -/
inductive PlainCode : List Instr → Prop where
  | nil : PlainCode []
  | check {i : Instr} {code : List Instr} : i.isCheck = true → PlainCode code →
      PlainCode (i :: code)
  | dependent (trigger : CStr) (names : List (Option CStr)) {code : List Instr} :
      PlainCode code →
      PlainCode (.checkDepRequired trigger :: .nopCount names.length :: names.map .nopName ++ code)

/-- What stands before a body of its own. -/
inductive NestedHead : List Instr → Prop where
  | single {i : Instr} : i.opensBody = true → NestedHead [i]
  | contains (min max : Int) : NestedHead [.checkContains min, .nopCount max]

/-- What stands before the `n` bodies of a composition. -/
inductive BranchHead (n : Nat) : List Instr → Prop where
  | allOf : BranchHead n [.branchAllOf n.toUInt16]
  | anyOf : BranchHead n [.branchAnyOf n.toUInt16]
  | oneOf : BranchHead n [.branchOneOf n.toUInt16]
  | discriminator (property : CStr) (keys : List CStr) : keys.length = n →
      BranchHead n (.discriminator property :: .nopCount n ::
        keys.map (fun key => .nopName (some key)))

namespace PlainCode

theorem single {i : Instr} (h : i.isCheck = true) : PlainCode [i] := check h nil

theorem append {x y : List Instr} (hx : PlainCode x) (hy : PlainCode y) : PlainCode (x ++ y) := by
  induction hx with
  | nil => exact hy
  | check h _ ih => exact check h ih
  | dependent trigger names _ ih =>
    rw [List.append_assoc]
    exact dependent trigger names ih

theorem checks {β : Type} {op : β → Instr} (h : ∀ b, (op b).isCheck = true) (l : List β) :
    PlainCode (l.map op) := by
  induction l with
  | nil => exact nil
  | cons b l ih => exact check (h b) ih

end PlainCode

section Plain

variable {config : Option CompilerConfig}

theorem permits_plain_append {a b : Emit} (ha : Permits a PlainCode) (hb : Permits b PlainCode) :
    Permits (a ++ b) PlainCode :=
  permits_append ha hb (fun _ _ hx hy => hx.append hy)

theorem permits_emitIf {c : Bool} {i : Instr} (h : i.isCheck = true) :
    Permits (emitIf c i) PlainCode := by
  cases c
  · exact permits_emit .nil
  · exact permits_emit (.single h)

theorem permits_emitOption {β : Type} {op : β → Instr} (h : ∀ b, (op b).isCheck = true)
    (x : Option β) : Permits (emitOption op x) PlainCode := by
  cases x
  · exact permits_emit .nil
  · exact permits_emit (.single (h _))

theorem permits_withPattern {failure : String} {pattern : CStr} {emitted : Emit}
    {P : List Instr → Prop} (hnil : P []) (h : Permits emitted P) :
    Permits (withPattern config failure pattern emitted) P := by
  unfold withPattern
  split
  · exact permits_emit hnil
  · split
    · exact Permits.error
    · exact h

theorem permits_emitPattern (k : Keywords) : Permits (emitPattern config k) PlainCode := by
  unfold emitPattern
  split
  · exact permits_emit .nil
  · exact permits_withPattern .nil (permits_emit (.single rfl))

theorem permits_emitDependentRequired (d : DependentRequired) :
    Permits (emitDependentRequired d) PlainCode := by
  have := PlainCode.dependent d.property d.required .nil
  rw [List.append_nil] at this
  exact permits_emit this

end Plain

/-- What the code of a part looks like, before the bodies. -/
def Part.Shape {α : Type} : Part α → Prop
  | plain code => Permits code PlainCode
  | nested head _ => Permits head NestedHead
  | branches head slots => slots ≠ [] ∧ BranchHead slots.length head

section Shape

variable {α : Type} {config : Option CompilerConfig} {s : Schema α} {p : Part α}

theorem nestedPart_shape {op : Instr} (h : op.opensBody = true) {slot : Option α}
    (hp : p ∈ nestedPart op slot) : p.Shape := by
  unfold nestedPart at hp
  split at hp
  · rw [List.mem_singleton.mp hp]
    exact permits_emit (.single h)
  · cases hp

theorem compositionPart_shape {op : UInt16 → Instr} {schemas : List (Option α)}
    (h : BranchHead schemas.length [op schemas.length.toUInt16])
    (hp : p ∈ compositionPart op schemas) : p.Shape := by
  unfold compositionPart at hp
  split at hp
  · cases hp
  · rename_i hempty
    rw [List.mem_singleton.mp hp]
    exact ⟨by simpa using hempty, h⟩

theorem choicePart_shape (hp : p ∈ choicePart s) : p.Shape := by
  unfold choicePart at hp
  split at hp
  · rename_i property _ _
    split at hp
    · rename_i hlen
      simp only [Bool.and_eq_true, beq_iff_eq] at hlen
      rw [List.mem_singleton.mp hp]
      refine ⟨by simpa using hlen.1, ?_⟩
      have := BranchHead.discriminator (n := (discriminatorBranches s).length) property
        (s.discriminatorMapping.map (·.key)) (by simp [hlen.2])
      simpa [discriminatorHead, hlen.2, Function.comp_def] using this
    · cases hp
  · rcases List.mem_append.mp hp with hp | hp
    · exact compositionPart_shape .anyOf hp
    · exact compositionPart_shape .oneOf hp

theorem conditionalPart_shape (hp : p ∈ conditionalPart s) : p.Shape := by
  unfold conditionalPart at hp
  split at hp
  · rcases List.mem_append.mp hp with hp | hp
    · rcases List.mem_append.mp hp with hp | hp
      · exact nestedPart_shape rfl hp
      · exact nestedPart_shape rfl hp
    · exact nestedPart_shape rfl hp
  · cases hp

theorem arrayLayout_shape (hp : p ∈ arrayLayout s) : p.Shape := by
  simp only [arrayLayout, List.mem_append, List.mem_singleton, List.mem_map] at hp
  rcases hp with (rfl | ⟨e, _, rfl⟩) | hp
  · exact permits_plain_append (permits_plain_append (permits_emitIf rfl) (permits_emitIf rfl))
      (permits_emitIf rfl)
  · exact permits_emit (.single rfl)
  · exact nestedPart_shape rfl hp

theorem patternPropertyPart_shape {e : Entry α} (hp : p ∈ patternPropertyPart config e) :
    p.Shape := by
  unfold patternPropertyPart at hp
  split at hp
  · rename_i h
    rw [List.mem_singleton.mp hp]
    obtain ⟨regex, hregex⟩ := Option.isSome_iff_exists.mp h.2
    simp only [Part.Shape, withPattern, hregex]
    split
    · exact Permits.error
    · exact permits_emit (.single rfl)
  · cases hp

theorem objectLayout_shape (hp : p ∈ objectLayout config s) : p.Shape := by
  simp only [objectLayout, List.mem_append, List.mem_singleton, List.mem_map,
    List.mem_flatMap] at hp
  rcases hp with ((((((rfl | ⟨e, _, rfl⟩) | hp) | rfl) | hp) | ⟨e, _, hp⟩) | rfl) | ⟨e, _, hp⟩
  · exact permits_emit (.checks (fun _ => rfl) _)
  · exact permits_emit (.single rfl)
  · exact nestedPart_shape rfl hp
  · exact permits_plain_append (permits_emitIf rfl) (permits_emitIf rfl)
  · exact nestedPart_shape rfl hp
  · exact patternPropertyPart_shape hp
  · exact permits_emitEach .nil (fun _ _ hx hy => hx.append hy)
      (fun d _ => permits_emitDependentRequired d)
  · exact nestedPart_shape rfl hp

theorem containsPart_shape (hp : p ∈ containsPart s) : p.Shape := by
  unfold containsPart at hp
  split at hp
  · rw [List.mem_singleton.mp hp]
    exact permits_emit (.contains _ _)
  · cases hp

theorem layout_shape (hp : p ∈ layout config s) : p.Shape := by
  simp only [layout, List.mem_append, List.mem_singleton] at hp
  rcases hp with (((((((rfl | hp) | hp) | hp) | hp) | hp) | hp) | hp) | rfl
  · have htype : Permits (emitType s.toKeywords) PlainCode := permits_emitIf rfl
    have hstring : Permits (emitString config s.toKeywords) PlainCode :=
      permits_plain_append (permits_plain_append (permits_plain_append (permits_emitIf rfl)
        (permits_emitIf rfl)) (permits_emitPattern _)) (permits_emitOption (fun _ => rfl) _)
    have hnumeric : Permits (emitNumeric s.toKeywords) PlainCode :=
      permits_plain_append (permits_plain_append (permits_plain_append (permits_plain_append
        (permits_emitOption (fun _ => rfl) _) (permits_emitOption (fun _ => rfl) _))
        (permits_emitOption (fun _ => rfl) _)) (permits_emitOption (fun _ => rfl) _))
        (permits_emitOption (fun _ => rfl) _)
    exact permits_plain_append (permits_plain_append htype hstring) hnumeric
  · exact arrayLayout_shape hp
  · exact objectLayout_shape hp
  · exact containsPart_shape hp
  · exact compositionPart_shape .allOf hp
  · exact choicePart_shape hp
  · exact nestedPart_shape rfl hp
  · exact conditionalPart_shape hp
  · have hvalues : Permits (emitValues s.toKeywords) PlainCode :=
      permits_plain_append (permits_emitOption (fun _ => rfl) _)
        (permits_emitOption (fun _ => rfl) _)
    have haccess : Permits (emitAccess s.toKeywords) PlainCode :=
      permits_plain_append (permits_emitIf rfl) (permits_emitIf rfl)
    exact permits_plain_append hvalues haccess

end Shape

/-! ## Bodies -/

theorem emitBody_ok {slot : Option Emit} {code : List Instr} :
    emitBody slot = .ok code ↔ ∃ body, orNull slot = .ok body ∧ code = body ++ [.endOp] := by
  unfold emitBody
  rw [append_eq_ok]
  constructor
  · rintro ⟨body, y, hbody, hy, rfl⟩
    cases hy
    exact ⟨body, hbody, rfl⟩
  · rintro ⟨body, hbody, rfl⟩
    exact ⟨body, [.endOp], hbody, rfl, rfl⟩

theorem nested_ok {head code : List Instr} {e : Emit} :
    nested head e = .ok code ↔ ∃ body, e = .ok body ∧ code = head ++ (body ++ [.endOp]) := by
  unfold nested
  rw [append_eq_ok]
  constructor
  · rintro ⟨x, y, hx, hy, rfl⟩
    obtain ⟨z, body, hz, hbody, rfl⟩ := append_eq_ok.mp hx
    cases hy
    cases hz
    exact ⟨body, hbody, List.append_assoc _ _ _⟩
  · rintro ⟨body, hbody, rfl⟩
    refine ⟨head ++ body, [.endOp], append_eq_ok.mpr ⟨head, body, rfl, hbody, rfl⟩, rfl, ?_⟩
    rw [List.append_assoc]

/-- The bodies of a composition, one behind the other. -/
theorem emitBodies_ok {slots : List (Option Emit)} {code : List Instr} :
    emitEach emitBody slots = .ok code ↔
      ∃ bodies, List.Forall₂ (fun slot body => orNull slot = .ok body) slots bodies ∧
        code = bodies.flatMap (· ++ [.endOp]) := by
  induction slots generalizing code with
  | nil => simp [emit, eq_comm]
  | cons slot slots ih =>
    rw [emitEach_cons, append_eq_ok]
    constructor
    · rintro ⟨x, y, hx, hy, rfl⟩
      obtain ⟨body, hbody, rfl⟩ := emitBody_ok.mp hx
      obtain ⟨bodies, hbodies, rfl⟩ := ih.mp hy
      exact ⟨body :: bodies, .cons hbody hbodies, rfl⟩
    · rintro ⟨bodies, hbodies, rfl⟩
      cases hbodies with
      | cons hbody hbodies =>
        exact ⟨_, _, emitBody_ok.mpr ⟨_, hbody, rfl⟩, ih.mpr ⟨_, hbodies, rfl⟩, rfl⟩

/-! ## Invariants of code -/

/-- What holds of plain code, is closed under appending and holds of a body with its head
when it holds of the body. -/
structure CodeInvariant (P : List Instr → Prop) : Prop where
  append : ∀ {x y}, P x → P y → P (x ++ y)
  plain : ∀ {code}, PlainCode code → P code
  nested : ∀ {head body}, NestedHead head → P body → P (head ++ (body ++ [.endOp]))

/-- What holds of a composition when it holds of the bodies. -/
def BranchInvariant (P : List Instr → Prop) : Prop :=
  ∀ {head : List Instr} {bodies : List (List Instr)}, BranchHead bodies.length head →
    (∀ body ∈ bodies, P body) → P (head ++ bodies.flatMap (· ++ [.endOp]))

section Invariant

variable {P : List Instr → Prop} {α : Type} {config : Option CompilerConfig}

theorem CodeInvariant.nil (hP : CodeInvariant P) : P [] := hP.plain .nil

theorem permits_orNull (hP : CodeInvariant P) {f : α → Emit} {slot : Option α}
    (hf : ∀ a, slot = some a → Permits (f a) P) : Permits (orNull (slot.map f)) P := by
  cases slot with
  | none => exact permits_emit hP.nil
  | some a => exact hf a rfl

theorem permits_part (hP : CodeInvariant P) {p : Part α} (hshape : p.Shape)
    (hbranch : p.isBranches = true → BranchInvariant P) {f : α → Emit}
    (hf : ∀ a, some a ∈ p.slots → Permits (f a) P) : Permits (p.code f) P := by
  cases p with
  | plain code => exact hshape.mono (fun _ h => hP.plain h)
  | nested head slot =>
    refine permits_append hshape (Q := fun code => ∃ body, P body ∧ code = body ++ [.endOp])
      ?_ ?_
    · intro code hcode
      obtain ⟨body, hbody, rfl⟩ := emitBody_ok.mp hcode
      exact ⟨body, permits_orNull hP (fun a ha => hf a (by simp [Part.slots, ha])) body hbody, rfl⟩
    · rintro x y hx ⟨body, hbody, rfl⟩
      exact hP.nested hx hbody
  | branches head slots =>
    intro code hcode
    obtain ⟨x, y, hx, hy, rfl⟩ := append_eq_ok.mp hcode
    cases hx
    obtain ⟨bodies, hbodies, rfl⟩ := emitBodies_ok.mp hy
    have hlen : bodies.length = slots.length := by
      rw [← hbodies.length_eq, List.length_map]
    refine hbranch rfl (hlen ▸ hshape.2) ?_
    intro body hbody
    obtain ⟨slot, hslot, hok⟩ := Paired.exists_left hbodies hbody
    obtain ⟨a, ha, rfl⟩ := List.mem_map.mp hslot
    exact permits_orNull hP (fun b hb => hf b (by simpa [Part.slots, ← hb] using ha)) body hok

theorem permits_layout (hP : CodeInvariant P) {s : Schema α}
    (hbranch : ∀ p ∈ layout config s, p.isBranches = true → BranchInvariant P) {f : α → Emit}
    (hf : ∀ p ∈ layout config s, ∀ a, some a ∈ p.slots → Permits (f a) P) :
    Permits (compileKeywords config (s.map f)) P := by
  rw [compileKeywords_eq]
  refine permits_emitEach hP.nil (fun _ _ => hP.append) ?_
  intro p hp
  exact permits_part hP (layout_shape hp) (hbranch p hp) (hf p hp)

end Invariant

/-! ## Whole schemas -/

section Compile

variable {α : Type} {mem : Memory α} {config : Option CompilerConfig}

theorem compileNode_map (f : α → Emit) (s : Schema α) :
    compileNode config (s.map f) =
      match s.refResolved with
      | some target => f target
      | none =>
        if s.ref.isSome then .error .unresolvedRef else compileKeywords config (s.map f) := by
  rw [compileNode]
  cases h : s.refResolved <;> simp [Schema.map, h]

theorem compileSchema_succ (depth : Nat) (a : α) :
    compileSchema mem config (depth + 1) a =
      match (mem a).refResolved with
      | some target => compileSchema mem config depth target
      | none =>
        if (mem a).ref.isSome then .error .unresolvedRef
        else compileKeywords config ((mem a).map (compileSchema mem config depth)) := by
  rw [compileSchema, compileNode_map]

/-- An invariant that holds of every part holds of the code of every schema. -/
theorem compileSchema_permits {P : List Instr → Prop} (hP : CodeInvariant P)
    (hbranch : BranchInvariant P) (depth : Nat) (a : α) :
    Permits (compileSchema mem config depth a) P := by
  induction depth generalizing a with
  | zero => exact Permits.error
  | succ depth ih =>
    rw [compileSchema_succ]
    split
    · exact ih _
    · split
      · exact Permits.error
      · exact permits_layout hP (fun _ _ _ => hbranch) (fun _ _ b _ => ih b)

end Compile

end Liboas
