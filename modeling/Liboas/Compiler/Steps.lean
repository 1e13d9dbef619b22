import Liboas.Compiler.Followed

/-!
# When compiling comes to an end

`compile_schema` calls itself for the schemas it gets to, one after the other, until one of
them fails. `steps` lists what it does for one schema. `finishes_iff` says when the calls
come to an end, whatever the schemas point to.
-/

namespace Liboas

open Emit Schema

/-! ## Steps -/

/-- What `compile_schema` does for a schema: code of its own, or a schema to go on to. -/
inductive Step (α : Type) where
  | own (code : Emit)
  | body (a : α)

namespace Step

variable {α : Type}

def run (f : α → Emit) : Step α → Emit
  | own code => code
  | body a => f a

end Step

def Part.steps {α : Type} : Part α → List (Step α)
  | plain code => [.own code]
  | nested head slot => .own head :: slot.toList.map .body
  | branches _ slots => slots.reduceOption.map .body

namespace Schema

variable {α : Type}

def steps (config : Option CompilerConfig) (s : Schema α) : List (Step α) :=
  match s.refResolved with
  | some target => [.body target]
  | none =>
    if s.ref.isSome then [.own (.error .unresolvedRef)]
    else (layout config s).flatMap Part.steps

end Schema

/-! ## How a list of steps ends -/

/-- Whether emitting fails, and why. -/
def status (e : Emit) : Except CompileFail Unit := e.map (fun _ => ())

section Status

variable {α : Type} {f : α → Emit} {e : CompileFail}

def passAll (f : α → Emit) : List (Step α) → Except CompileFail Unit
  | [] => .ok ()
  | s :: rest => status (s.run f) >>= fun _ => passAll f rest

theorem status_append (a b : Emit) : status (a ++ b) = status a >>= fun _ => status b := by
  cases a with
  | error e => rfl
  | ok x => cases b <;> rfl

theorem status_eq_error {a : Emit} : status a = .error e ↔ a = .error e := by
  cases a <;> simp [status, Except.map]

theorem passAll_append (x y : List (Step α)) :
    passAll f (x ++ y) = passAll f x >>= fun _ => passAll f y := by
  induction x with
  | nil => rfl
  | cons s x ih =>
    rw [List.cons_append, passAll, passAll, ih]
    cases status (s.run f) <;> rfl

theorem status_orNull (slot : Option α) :
    status (emitBody (slot.map f)) = passAll f (slot.toList.map .body) := by
  cases slot with
  | none => rfl
  | some a =>
    show status (f a ++ emit [.endOp]) = status (f a) >>= fun _ => .ok ()
    rw [status_append]
    rfl

theorem status_part (p : Part α) : status (p.code f) = passAll f p.steps := by
  cases p with
  | plain code =>
    show status code = status code >>= fun _ => .ok ()
    cases code <;> rfl
  | nested head slot =>
    rw [Part.code, status_append, status_orNull]
    rfl
  | branches head slots =>
    rw [Part.code, status_append, Part.steps, emitEach_map]
    show status (emitEach (fun slot => emitBody (slot.map f)) slots) = _
    induction slots with
    | nil => rfl
    | cons slot slots ih =>
      rw [emitEach_cons, status_append, ih, status_orNull]
      cases slot with
      | none => rfl
      | some a =>
        show (status (f a) >>= fun _ => .ok ()) >>= _ = status (f a) >>= _
        cases status (f a) <;> rfl

theorem status_parts (parts : List (Part α)) :
    status (emitEach (Part.code f) parts) = passAll f (parts.flatMap Part.steps) := by
  induction parts with
  | nil => rfl
  | cons p parts ih => rw [emitEach_cons, status_append, status_part, ih, List.flatMap_cons, passAll_append]

theorem status_compileSchema (mem : Memory α) (config : Option CompilerConfig) (depth : Nat)
    (a : α) : status (compileSchema mem config (depth + 1) a) =
      passAll (compileSchema mem config depth) ((mem a).steps config) := by
  rw [compileSchema_succ, steps]
  cases (mem a).refResolved with
  | some target =>
    show status (compileSchema mem config depth target) =
      status (compileSchema mem config depth target) >>= fun _ => .ok ()
    cases compileSchema mem config depth target <;> rfl
  | none =>
    dsimp only
    split
    · rfl
    · rw [compileKeywords_eq, status_parts]

/-- A list of steps fails when one of them does. -/
theorem passAll_error {steps : List (Step α)} (h : passAll f steps = .error e) :
    ∃ s ∈ steps, s.run f = .error e := by
  induction steps with
  | nil => cases h
  | cons s rest ih =>
    rw [passAll] at h
    cases hs : s.run f with
    | error e' =>
      rw [hs] at h
      cases h
      exact ⟨s, List.mem_cons_self, hs⟩
    | ok code =>
      rw [hs] at h
      obtain ⟨t, ht, hrun⟩ := ih h
      exact ⟨t, List.mem_cons_of_mem _ ht, hrun⟩

theorem passAll_ok {steps : List (Step α)} :
    passAll f steps = .ok () ↔ ∀ s ∈ steps, ∃ code, s.run f = .ok code := by
  induction steps with
  | nil => simp [passAll]
  | cons s rest ih =>
    rw [passAll, List.forall_mem_cons, ← ih]
    cases hs : s.run f with
    | error e' => simp [status, Except.map, bind, Except.bind]
    | ok code => simp [status, Except.map, bind, Except.bind]

end Status

/-! ## The steps of a schema -/

/-- The only failure is a rejected pattern. -/
def OnlyPattern (a : Emit) : Prop := ∀ e, a = .error e → ∃ rc message, e = .pattern rc message

section Own

variable {α : Type} {config : Option CompilerConfig} {s : Schema α} {p : Part α}

theorem onlyPattern_emit (code : List Instr) : OnlyPattern (emit code) := by
  rintro e ⟨⟩

theorem onlyPattern_append {a b : Emit} (ha : OnlyPattern a) (hb : OnlyPattern b) :
    OnlyPattern (a ++ b) := by
  intro e he
  cases a with
  | error e' =>
    cases he
    exact ha e rfl
  | ok x =>
    cases b with
    | error e' =>
      cases he
      exact hb e rfl
    | ok y => cases he

theorem onlyPattern_emitEach {β : Type} {g : β → Emit} {l : List β} (h : ∀ x, OnlyPattern (g x)) :
    OnlyPattern (emitEach g l) := by
  induction l with
  | nil => exact onlyPattern_emit _
  | cons x l ih => exact onlyPattern_append (h x) ih

theorem onlyPattern_withPattern {failure : String} {pattern : CStr} {emitted : Emit}
    (h : OnlyPattern emitted) : OnlyPattern (withPattern config failure pattern emitted) := by
  unfold withPattern
  split
  · exact onlyPattern_emit _
  · split
    · rintro e ⟨⟩
      exact ⟨_, _, rfl⟩
    · exact h

theorem onlyPattern_string (k : Keywords) : OnlyPattern (emitString config k) := by
  refine onlyPattern_append (onlyPattern_append (onlyPattern_append (onlyPattern_emit _)
    (onlyPattern_emit _)) ?_) (onlyPattern_emit _)
  unfold emitPattern
  split
  · exact onlyPattern_emit _
  · exact onlyPattern_withPattern (onlyPattern_emit _)

/-- The part fails by itself only when a pattern is rejected. -/
def Part.Own : Part α → Prop
  | .plain code => OnlyPattern code
  | .nested head _ => OnlyPattern head
  | .branches _ _ => True

theorem own_nestedPart (op : Instr) (slot : Option α) : ∀ p ∈ nestedPart op slot, p.Own := by
  intro p hp
  unfold nestedPart at hp
  split at hp
  · rw [List.mem_singleton] at hp
    subst hp
    exact onlyPattern_emit _
  · cases hp

theorem own_patternPropertyPart (e : Entry α) : ∀ p ∈ patternPropertyPart config e, p.Own := by
  intro p hp
  unfold patternPropertyPart at hp
  split at hp
  · rw [List.mem_singleton] at hp
    subst hp
    exact onlyPattern_withPattern (onlyPattern_emit _)
  · cases hp

theorem own_containsPart : ∀ p ∈ containsPart s, p.Own := by
  intro p hp
  unfold containsPart at hp
  split at hp
  · rw [List.mem_singleton] at hp
    subst hp
    exact onlyPattern_emit _
  · cases hp

theorem own_compositionPart (op : UInt16 → Instr) (slots : List (Option α)) :
    ∀ p ∈ compositionPart op slots, p.Own := by
  intro p hp
  unfold compositionPart at hp
  split at hp
  · cases hp
  · rw [List.mem_singleton] at hp
    subst hp
    trivial

theorem own_choicePart : ∀ p ∈ choicePart s, p.Own := by
  rw [choicePart_eq]
  split
  · split
    · simp [Part.Own]
    · simp
  · rw [List.forall_mem_append]
    exact ⟨own_compositionPart _ _, own_compositionPart _ _⟩

theorem own_conditionalPart : ∀ p ∈ conditionalPart s, p.Own := by
  unfold conditionalPart
  split
  · simp only [List.forall_mem_append]
    exact ⟨⟨own_nestedPart _ _, own_nestedPart _ _⟩, own_nestedPart _ _⟩
  · simp

theorem own_arrayLayout : ∀ p ∈ arrayLayout s, p.Own := by
  simp only [arrayLayout, List.forall_mem_append, List.forall_mem_singleton, List.forall_mem_map]
  exact ⟨⟨onlyPattern_emit _, fun e _ => onlyPattern_emit _⟩, own_nestedPart _ _⟩

theorem own_objectLayout : ∀ p ∈ objectLayout config s, p.Own := by
  simp only [objectLayout, List.forall_mem_append, List.forall_mem_singleton, List.forall_mem_map,
    List.forall_mem_flatMap]
  exact ⟨⟨⟨⟨⟨⟨⟨onlyPattern_emit _, fun e _ => onlyPattern_emit _⟩, own_nestedPart _ _⟩,
    onlyPattern_emit _⟩, own_nestedPart _ _⟩, fun e _ => own_patternPropertyPart e⟩,
    onlyPattern_emitEach (fun _ => onlyPattern_emit _)⟩, fun e _ => own_nestedPart _ _⟩

theorem own_layout : ∀ p ∈ layout config s, p.Own := by
  simp only [layout, List.forall_mem_append, List.forall_mem_singleton]
  exact ⟨⟨⟨⟨⟨⟨⟨⟨onlyPattern_append (onlyPattern_append (onlyPattern_emit _) (onlyPattern_string _))
    (onlyPattern_emit _), own_arrayLayout⟩, own_objectLayout⟩, own_containsPart⟩,
    own_compositionPart _ _⟩, own_choicePart⟩, own_nestedPart _ _⟩, own_conditionalPart⟩,
    onlyPattern_emit _⟩

theorem Part.own_steps {p : Part α} (h : p.Own) {code : Emit} (hcode : .own code ∈ p.steps) :
    OnlyPattern code := by
  cases p with
  | plain code' =>
    rw [Part.steps, List.mem_singleton] at hcode
    cases hcode
    exact h
  | nested head slot =>
    rcases List.mem_cons.mp hcode with hcode | hcode
    · cases hcode
      exact h
    · simp at hcode
  | branches head slots => simp [Part.steps] at hcode

/-- A step that is no call fails on an unresolved `$ref` or a rejected pattern. -/
theorem own_error {code : Emit} {e : CompileFail} (h : .own code ∈ s.steps config)
    (he : code = .error e) :
    (e = .unresolvedRef ∧ s.ref.isSome ∧ s.refResolved = none) ∨
      ∃ rc message, e = .pattern rc message := by
  unfold steps at h
  split at h
  · simp at h
  · rename_i hnone
    split at h
    · rename_i href
      rw [List.mem_singleton] at h
      cases h
      cases he
      exact .inl ⟨rfl, href, hnone⟩
    · obtain ⟨p, hp, hcode⟩ := List.mem_flatMap.mp h
      exact .inr (Part.own_steps (own_layout p hp) hcode e he)

theorem own_ne_callDepth {code : Emit} (h : .own code ∈ s.steps config) :
    code ≠ .error .callDepth := by
  intro he
  rcases own_error h he with ⟨h, -⟩ | ⟨rc, message, h⟩ <;> cases h

theorem Part.body_steps {p : Part α} {a : α} : .body a ∈ p.steps ↔ some a ∈ p.slots := by
  cases p <;> simp [Part.steps, Part.slots, List.reduceOption_mem_iff, eq_comm]

/-- The schemas among the steps are those that the compiler goes on to. -/
theorem followed_of_body {a : α} (h : .body a ∈ s.steps config) : a ∈ followed config s := by
  unfold steps at h
  unfold followed
  cases hresolved : s.refResolved with
  | some target => simpa [hresolved] using h
  | none =>
    simp only [hresolved] at h
    split at h
    · simp at h
    · obtain ⟨p, hp, hbody⟩ := List.mem_flatMap.mp h
      rcases mem_layout_slots hp (Part.body_steps.mp hbody) with ⟨-, ha⟩ | ⟨-, ha⟩
      · exact List.mem_append_left _ ha
      · exact List.mem_append_right _ (List.reduceOption_mem_iff.mpr ha)

end Own

/-! ## Success -/

section Compile

variable {α : Type} {mem : Memory α} {config : Option CompilerConfig}

/-- Nothing fails and nothing comes back to itself, wherever the compiler goes. -/
inductive Compilable (mem : Memory α) (config : Option CompilerConfig) : α → Prop where
  | intro (a : α) : (∀ code, .own code ∈ (mem a).steps config → ∃ c, code = .ok c) →
      (∀ b, .body b ∈ (mem a).steps config → Compilable mem config b) → Compilable mem config a

/-- The step of a schema that compiles. -/
def Step.Passes (mem : Memory α) (config : Option CompilerConfig) : Step α → Prop
  | .own code => ∃ c, code = .ok c
  | .body a => Compilable mem config a

theorem compilable_iff_passes {a : α} :
    Compilable mem config a ↔ ∀ s ∈ (mem a).steps config, s.Passes mem config := by
  constructor
  · rintro ⟨_, hown, hbody⟩ s hs
    cases s with
    | own code => exact hown code hs
    | body b => exact hbody b hs
  · intro h
    exact ⟨a, fun code hcode => h _ hcode, fun b hb => h _ hb⟩

theorem run_below (depth : Nat) (s : Step α) :
    Below (s.run (compileSchema mem config depth)) (s.run (compileSchema mem config (depth + 1))) := by
  cases s with
  | own code => exact .inr rfl
  | body a => exact compileSchema_below mem config depth a

theorem run_chain (mem : Memory α) (config : Option CompilerConfig) (s : Step α) :
    Chain (fun depth => s.run (compileSchema mem config depth)) :=
  fun depth => run_below depth s

/-- Steps that all succeed at some depth succeed at one. -/
theorem exists_depth {steps : List (Step α)}
    (h : ∀ s ∈ steps, ∃ depth code, s.run (compileSchema mem config depth) = .ok code) :
    ∃ depth, passAll (compileSchema mem config depth) steps = .ok () := by
  induction steps with
  | nil => exact ⟨0, rfl⟩
  | cons s rest ih =>
    obtain ⟨depth, code, hs⟩ := h s List.mem_cons_self
    obtain ⟨depth', hrest⟩ := ih (fun t ht => h t (List.mem_cons_of_mem _ ht))
    refine ⟨max depth depth', ?_⟩
    rw [passAll_ok] at hrest ⊢
    intro t ht
    rcases List.mem_cons.mp ht with rfl | ht
    · exact ⟨code, (run_chain mem config t).ok_mono (Nat.le_max_left _ _) hs⟩
    · obtain ⟨code', hcode'⟩ := hrest t ht
      exact ⟨code', (run_chain mem config t).ok_mono (Nat.le_max_right _ _) hcode'⟩

theorem status_eq_ok {e : Emit} : status e = .ok () ↔ ∃ code, e = .ok code := by
  cases e <;> simp [status, Except.map]

/-- A schema compiles, with enough call depth, just when nothing on the way fails. -/
theorem compilable_iff {a : α} :
    Compilable mem config a ↔ ∃ depth code, compileSchema mem config depth a = .ok code := by
  constructor
  · intro h
    induction h with
    | intro a hown _ ih =>
      have hsteps : ∀ s ∈ (mem a).steps config,
          ∃ depth code, s.run (compileSchema mem config depth) = .ok code := by
        intro s hs
        cases s with
        | own code =>
          obtain ⟨c, rfl⟩ := hown code hs
          exact ⟨0, c, rfl⟩
        | body b => exact ih b hs
      obtain ⟨depth, hpass⟩ := exists_depth hsteps
      rw [← status_compileSchema, status_eq_ok] at hpass
      exact ⟨depth + 1, hpass⟩
  · rintro ⟨depth, hcode⟩
    induction depth generalizing a with
    | zero => simp [compileSchema] at hcode
    | succ depth ih =>
      rw [← status_eq_ok, status_compileSchema, passAll_ok] at hcode
      rw [compilable_iff_passes]
      intro s hs
      have hrun := hcode s hs
      cases s with
      | own code => exact hrun
      | body b => exact ih hrun

/-! ## Termination -/

/-- `compile_schema` gets from `a` to `b`: what comes before `b` compiles. -/
def Enters (mem : Memory α) (config : Option CompilerConfig) (a b : α) : Prop :=
  ∃ before after, (mem a).steps config = before ++ .body b :: after ∧
    ∀ s ∈ before, s.Passes mem config

/-- The calls come to an end. -/
def Finishes (mem : Memory α) (config : Option CompilerConfig) (a : α) : Prop :=
  ∃ depth, compileSchema mem config depth a ≠ .error .callDepth

/-- A step that passes runs out of depth or succeeds. -/
theorem Step.Passes.run {s : Step α} (h : s.Passes mem config) (depth : Nat) :
    s.run (compileSchema mem config depth) = .error .callDepth ∨
      ∃ code, s.run (compileSchema mem config depth) = .ok code := by
  have hok : ∃ depth' code, s.run (compileSchema mem config depth') = .ok code := by
    cases s with
    | own code => exact ⟨0, h⟩
    | body b => exact compilable_iff.mp h
  obtain ⟨depth', code, hcode⟩ := hok
  by_cases hbot : s.run (compileSchema mem config depth) = .error .callDepth
  · exact .inl hbot
  · have hchain := run_chain mem config s
    rcases Nat.le_total depth depth' with hle | hle
    · exact .inr ⟨code, (hchain.eq_of_le hle hbot).symm.trans hcode⟩
    · exact .inr ⟨code, hchain.ok_mono hle hcode⟩

theorem passAll_callDepth {before after : List (Step α)} {b : α} {depth : Nat}
    (hbefore : ∀ s ∈ before, s.Passes mem config)
    (hb : compileSchema mem config depth b = .error .callDepth) :
    passAll (compileSchema mem config depth) (before ++ .body b :: after) =
      .error .callDepth := by
  induction before with
  | nil =>
    show status (compileSchema mem config depth b) >>= _ = _
    rw [hb]
    rfl
  | cons s before ih =>
    have hrest := ih (fun t ht => hbefore t (List.mem_cons_of_mem _ ht))
    rw [List.cons_append, passAll, hrest]
    rcases (hbefore s List.mem_cons_self).run depth with hs | ⟨code, hs⟩
    · rw [hs]
      rfl
    · rw [hs]
      rfl

theorem acc_of_depth (depth : Nat) (a : α)
    (h : compileSchema mem config depth a ≠ .error .callDepth) :
    Acc (fun b a => Enters mem config a b) a := by
  induction depth generalizing a with
  | zero => exact absurd rfl h
  | succ depth ih =>
    refine ⟨a, ?_⟩
    rintro b ⟨before, after, hsteps, hbefore⟩
    refine ih b ?_
    intro hb
    refine h (status_eq_error.mp ?_)
    rw [status_compileSchema, hsteps, passAll_callDepth hbefore hb]

theorem passAll_mono {steps : List (Step α)} {depth depth' : Nat} (hle : depth ≤ depth')
    (h : passAll (compileSchema mem config depth) steps ≠ .error .callDepth) :
    passAll (compileSchema mem config depth') steps =
      passAll (compileSchema mem config depth) steps := by
  induction steps with
  | nil => rfl
  | cons s rest ih =>
    rw [passAll] at h
    have hs : s.run (compileSchema mem config depth) ≠ .error .callDepth := by
      intro hs
      rw [hs] at h
      exact h rfl
    rw [passAll, passAll, (run_chain mem config s).eq_of_le hle hs]
    cases hrun : s.run (compileSchema mem config depth) with
    | error e => rfl
    | ok code =>
      rw [hrun] at h
      exact ih h

/-- Where all that is entered comes to an end, so does the list of steps. -/
theorem passAll_finishes {a : α} (h : ∀ b, Enters mem config a b → Finishes mem config b)
    (before rest : List (Step α)) (hsteps : (mem a).steps config = before ++ rest)
    (hbefore : ∀ s ∈ before, s.Passes mem config) :
    ∃ depth, passAll (compileSchema mem config depth) rest ≠ .error .callDepth := by
  induction rest generalizing before with
  | nil => exact ⟨0, by simp [passAll]⟩
  | cons s rest ih =>
    have hnext : s.Passes mem config →
        ∃ depth, passAll (compileSchema mem config depth) rest ≠ .error .callDepth := by
      intro hs
      refine ih (before ++ [s]) (by rw [hsteps, List.append_assoc]; rfl) ?_
      rw [List.forall_mem_append, List.forall_mem_singleton]
      exact ⟨hbefore, hs⟩
    have hmem : s ∈ (mem a).steps config := by simp [hsteps]
    have hrun : ∃ depth, s.run (compileSchema mem config depth) ≠ .error .callDepth := by
      cases s with
      | own code => exact ⟨0, own_ne_callDepth hmem⟩
      | body b => exact h b ⟨before, rest, hsteps, hbefore⟩
    obtain ⟨depth, hrun⟩ := hrun
    cases hcode : s.run (compileSchema mem config depth) with
    | error e =>
      refine ⟨depth, ?_⟩
      rw [passAll, hcode]
      intro hbot
      cases hbot
      exact hrun hcode
    | ok code =>
      have hs : s.Passes mem config := by
        cases s with
        | own code' => exact ⟨code, hcode⟩
        | body b => exact compilable_iff.mpr ⟨depth, code, hcode⟩
      obtain ⟨depth', hrest⟩ := hnext hs
      refine ⟨max depth depth', ?_⟩
      rw [passAll, (run_chain mem config s).ok_mono (Nat.le_max_left _ _) hcode]
      show passAll _ rest ≠ _
      rw [passAll_mono (Nat.le_max_right _ _) hrest]
      exact hrest

/-- The calls come to an end just when no chain of schemas that are entered goes on for ever. -/
theorem finishes_iff {a : α} :
    Finishes mem config a ↔ Acc (fun b a => Enters mem config a b) a := by
  constructor
  · rintro ⟨depth, h⟩
    exact acc_of_depth depth a h
  · intro h
    induction h with
    | intro a _ ih =>
      obtain ⟨depth, hpass⟩ := passAll_finishes ih [] _ rfl (by simp)
      refine ⟨depth + 1, ?_⟩
      intro hbot
      rw [← status_eq_error, status_compileSchema] at hbot
      exact hpass hbot

/-- A compilation that does not fail on its own account stops at no unresolved `$ref`. -/
theorem compileSchema_ne_unresolvedRef {a : α} (h : ∀ b, Reaches (fun a => (mem a).children) a b →
      (mem b).ref.isSome → (mem b).refResolved.isSome) (depth : Nat) :
    compileSchema mem config depth a ≠ .error .unresolvedRef := by
  induction depth generalizing a with
  | zero => simp [compileSchema]
  | succ depth ih =>
    intro herror
    rw [← status_eq_error, status_compileSchema] at herror
    obtain ⟨s, hs, hrun⟩ := passAll_error herror
    cases s with
    | own code =>
      rcases own_error hs hrun with ⟨-, href, hnone⟩ | ⟨rc, message, h⟩
      · have := h a (.refl a) href
        rw [hnone] at this
        cases this
      · cases h
    | body b =>
      have hb := mem_children_of_followed config _ (followed_of_body hs)
      exact ih (fun c hc => h c (.step hb hc)) hrun

end Compile

end Liboas
