import Liboas.Validator.Discriminated
import Mathlib.Data.List.Nodup

/-!
# The branch that a mapping names

The reference of a mapping entry names a branch, and the program runs the branch that stands
in the place of the entry.
-/

namespace Liboas

open Outcome Emit Schema Machine

section Core

variable {α : Type} {mem : Memory α} {config : Option CompilerConfig} {rt : Runtime}
  {direction : Direction} {s : Schema α} {v : Json}

/-! ## The keywords besides the choice -/

/-- The keywords that neither are a discriminator nor offer a choice. -/
def core (s : Schema α) : Schema α :=
  { s with discriminatorProperty := none, discriminatorMapping := [], oneOf := [], anyOf := [] }

@[simp] theorem core_refResolved (s : Schema α) : (core s).refResolved = s.refResolved := rfl

/-- What a schema asks for besides its core, without a discriminator. -/
def choiceAccepts (s : Schema (Json → Bool)) (v : Json) : Bool :=
  hasDiscriminator s.toKeywords ||
    ((s.anyOf.isEmpty || s.anyOf.any (fun slot => slotAccepts slot v)) &&
      (s.oneOf.isEmpty || s.oneOf.countP (fun slot => slotAccepts slot v) == 1))

theorem keywordsAccept_core (m : Machine) (s : Schema (Json → Bool)) (v : Json) :
    m.keywordsAccept config s v = (m.keywordsAccept config (core s) v && choiceAccepts s v) := by
  have hcore : compositionAccepts (core s) v = s.allOf.all (fun slot => slotAccepts slot v) := by
    simp [compositionAccepts, core, hasDiscriminator]
  have hcomposition : compositionAccepts s v =
      (compositionAccepts (core s) v && choiceAccepts s v) := by
    rw [hcore]
    rfl
  rw [keywordsAccept, keywordsAccept, hcomposition]
  simp only [arrayAccepts, objectAccepts, containsKeywordAccepts, conditionalAccepts, core]
  ac_rfl

theorem core_verdict {m : Machine} {s : Schema (Json → Bool)} (href : s.refResolved = none) (v : Json) :
    m.nodeVerdict config (core s) v = m.keywordsAccept config (core s) v := by
  have hdiscriminator : discriminatorAccepts (core s) v = true := by
    simp [discriminatorAccepts, emitsDiscriminator, core, hasDiscriminator]
  rw [nodeVerdict, core_refResolved, href]
  simp [hdiscriminator]

theorem core_compiles {f : α → Emit} {code : List Instr}
    (h : compileNode config (s.map f) = .ok code) :
    ∃ code', compileNode config ((core s).map f) = .ok code' := by
  rw [compileNode_map] at h ⊢
  rw [core_refResolved]
  cases href : s.refResolved with
  | some target =>
    rw [href] at h
    exact ⟨code, h⟩
  | none =>
    rw [href] at h
    dsimp only at h ⊢
    have href' : (core s).ref = s.ref := rfl
    rw [href']
    split at h
    · cases h
    · rename_i hnone
      rw [if_neg hnone]
      rw [compileKeywords_eq] at h ⊢
      refine emitEach_ok (fun p hp => ok_of_emitEach h ?_)
      have hchoice : choicePart (core s) = [] := rfl
      simp only [layout, List.mem_append, hchoice, List.not_mem_nil, or_false] at hp ⊢
      exact hp.imp_left (fun hp => hp.imp_left (fun hp => hp.imp_left Or.inl))

theorem core_steady (hsteady : SteadyNode mem config s) : SteadyNode mem config (core s) := by
  constructor
  · intro href
    obtain ⟨hall, -, -, hskippable⟩ := hsteady.node href
    exact ⟨hall, fun _ => Nat.zero_lt_succ _, fun _ => Nat.zero_lt_succ _, hskippable⟩
  · intro b hb
    refine hsteady.below b ?_
    unfold followed at hb ⊢
    rw [core_refResolved] at hb
    split at hb
    · exact hb
    · have hchoices : choices (core s) = [] := rfl
      have happlied : applied config (core s) = applied config s := rfl
      have hall : (core s).allOf = s.allOf := rfl
      simp only [composed, hchoices, happlied, hall, List.append_nil, List.mem_append,
        List.reduceOption_mem_iff] at hb ⊢
      tauto

/-- The verdict of a schema is the one of its core and the one on its choice. -/
theorem nodeAccepts_core (hsteady : SteadyNode mem config s) {depth : Nat} {code : List Instr}
    (h : compileNode config (s.map (compileSchema mem config depth)) = .ok code) (v : Json) :
    NodeAccepts mem config rt direction s v ↔ NodeAccepts mem config rt direction (core s) v ∧
      (s.refResolved = none →
        (choiceAccepts (verdicts mem config rt direction depth s) v &&
          discriminatorAccepts (verdicts mem config rt direction depth s) v) = true) := by
  obtain ⟨code', h'⟩ := core_compiles h
  rw [nodeAccepts_iff hsteady h, nodeAccepts_iff (core_steady hsteady) h']
  have hcore : verdicts mem config rt direction depth (core s) =
      core (verdicts mem config rt direction depth s) := rfl
  rw [hcore]
  cases href : s.refResolved with
  | some target =>
    have href' : (verdicts mem config rt direction depth s).refResolved =
        some (programVerdict (judge config rt direction) mem config depth target) := by
      simp [verdicts, Schema.map, href]
    rw [nodeVerdict, nodeVerdict, core_refResolved, href']
    simp
  | none =>
    have href' : (verdicts mem config rt direction depth s).refResolved = none := by
      simp [verdicts, Schema.map, href]
    rw [core_verdict href', nodeVerdict, href']
    dsimp only
    rw [keywordsAccept_core, Bool.and_assoc, Bool.and_eq_true]
    simp

end Core

/-! ## The branch that is run -/

section Choice

variable {α : Type} {mem : Memory α} {config : Option CompilerConfig} {rt : Runtime}
  {direction : Direction} {s : Schema α} {v : Json}

/-- The branch that stands in a place of the mapping, if a discriminator is compiled. -/
def branchRun (s : Schema α) (place : Nat) : Option (Option α) :=
  if s.refResolved.isNone && emitsDiscriminator s then (discriminatorBranches s)[place]? else none

def RunAccepts (mem : Memory α) (config : Option CompilerConfig) (rt : Runtime)
    (direction : Direction) (s : Schema α) (place : Nat) (v : Json) : Prop :=
  ∀ slot, branchRun s place = some slot → SlotAccepts mem config rt direction slot v

/-- The value names the key in this place of the mapping, and in none before. -/
def Names (s : Schema α) (v : Json) (place : Nat) : Prop :=
  ∃ property, s.discriminatorProperty = some property ∧
    selected property (s.discriminatorMapping.map (·.key)) v = some place

theorem Names.lt {place : Nat} (h : Names s v place) : place < s.discriminatorMapping.length := by
  obtain ⟨property, -, hselected⟩ := h
  unfold selected at hselected
  split at hselected
  · have := (List.findIdx?_eq_some_iff_findIdx_eq.mp hselected).1
    simpa using this
  · cases hselected

theorem Names.hasDiscriminator {place : Nat} (h : Names s v place) :
    hasDiscriminator s.toKeywords = true := by
  have hlt := h.lt
  obtain ⟨property, hproperty, -⟩ := h
  have hne : s.discriminatorMapping ≠ [] := by
    rintro hnil
    simp [hnil] at hlt
  simp [Liboas.hasDiscriminator, hproperty, hne]

/-- Where the value names a key, the core and the branch in the place of the key decide. -/
theorem named_verdict (hsteady : SteadyNode mem config s) {place : Nat} (hnames : Names s v place)
    {depth : Nat} {code : List Instr}
    (h : compileNode config (s.map (compileSchema mem config depth)) = .ok code) :
    NodeAccepts mem config rt direction s v ↔ NodeAccepts mem config rt direction (core s) v ∧
      RunAccepts mem config rt direction s place v := by
  rw [nodeAccepts_core hsteady h]
  refine and_congr_right' ?_
  have hhas : hasDiscriminator (verdicts mem config rt direction depth s).toKeywords = true :=
    hnames.hasDiscriminator
  have hchoice : choiceAccepts (verdicts mem config rt direction depth s) v = true := by
    rw [choiceAccepts, hhas, Bool.true_or]
  obtain ⟨property, hproperty, hselected⟩ := hnames
  rw [hchoice, Bool.true_and, verdicts, discriminatorAccepts, emitsDiscriminator_map,
    discriminatorBranches_map]
  have hproperty' : (s.map (programVerdict (judge config rt direction) mem config depth)
      ).discriminatorProperty = some property := hproperty
  have hmapping : (s.map (programVerdict (judge config rt direction) mem config depth)
      ).discriminatorMapping = s.discriminatorMapping := rfl
  rw [hproperty', hmapping, Option.all_some, dispatches, hselected, Option.bind_some]
  cases href : s.refResolved with
  | some target => simp [RunAccepts, branchRun, href]
  | none =>
    cases hemits : emitsDiscriminator s with
    | false => simp [RunAccepts, branchRun, hemits]
    | true =>
      have hrun : branchRun s place = (discriminatorBranches s)[place]? := by
        simp [branchRun, href, hemits]
      rw [RunAccepts, hrun]
      cases hslot : (discriminatorBranches s)[place]? with
      | none =>
        have hlt := (Names.lt ⟨property, hproperty, hselected⟩ : place < _)
        simp only [emitsDiscriminator, Bool.and_eq_true, beq_iff_eq] at hemits
        rw [List.getElem?_eq_none_iff] at hslot
        omega
      | some slot =>
        have hmem := List.mem_of_getElem? hslot
        have hfollowed : ∀ b, slot = some b → b ∈ followed config s := by
          rintro b rfl
          have hchoices : some b ∈ choices s := by
            have := Names.hasDiscriminator ⟨property, hproperty, hselected⟩
            simp [choices, this, hemits, hmem]
          simp [followed, href, composed, List.reduceOption_mem_iff, hchoices]
        have hiff : _ ↔ SlotAccepts mem config rt direction slot v :=
          slotAccepts_iff hsteady h hfollowed v
        simp [hslot, hiff]

end Choice

/-! ## The branch that is named -/

/-- The arrays that offer a choice. -/
inductive Choice where
  | oneOf
  | anyOf

def Choice.slots {α : Type} (s : Schema α) : Choice → List (Option α)
  | oneOf => s.oneOf
  | anyOf => s.anyOf

/-- The other keywords of the schema: neither the discriminator nor the array. -/
def Choice.others {α : Type} (s : Schema α) : Choice → Schema α
  | oneOf => { s with discriminatorProperty := none, discriminatorMapping := [], oneOf := [] }
  | anyOf => { s with discriminatorProperty := none, discriminatorMapping := [], anyOf := [] }

section Named

variable {α : Type} {mem : Memory α} {config : Option CompilerConfig} {rt : Runtime}
  {direction : Direction} {s : Schema α} {choice : Choice} {v : Json}

def refOf (mem : Memory α) (slot : Option α) : Option CStr := slot.bind (fun b => (mem b).ref)

/-- Every branch is a `$ref`, and the entries of the mapping refer to one branch each. -/
structure Mapped (mem : Memory α) (s : Schema α) (choice : Choice) : Prop where
  referenced : ∀ slot ∈ choice.slots s, (refOf mem slot).isSome
  bijection : (s.discriminatorMapping.map (·.ref)).Perm ((choice.slots s).map (refOf mem))
  distinct : ((choice.slots s).map (refOf mem)).Nodup

/-- The value names a key, and the reference of the key names a branch. -/
structure NamedBranch (mem : Memory α) (s : Schema α) (choice : Choice) (v : Json) where
  mapped : Mapped mem s choice
  place : Nat
  names : Names s v place
  branch : α
  offered : some branch ∈ choice.slots s
  refers : ∃ m, s.discriminatorMapping[place]? = some m ∧ m.ref = (mem branch).ref

/-- Where the value names a key, it names a branch. -/
theorem Mapped.named (h : Mapped mem s choice) {place : Nat} (hnames : Names s v place) :
    ∃ named : NamedBranch mem s choice v, named.place = place := by
  have hlt := hnames.lt
  have hentry := List.getElem_mem hlt
  have href : s.discriminatorMapping[place].ref ∈ (choice.slots s).map (refOf mem) :=
    h.bijection.mem_iff.mp (List.mem_map_of_mem hentry)
  obtain ⟨slot, hslot, heq⟩ := List.mem_map.mp href
  cases slot with
  | none => simpa [refOf] using h.referenced none hslot
  | some b => exact ⟨⟨h, place, hnames, b, hslot, _, List.getElem?_eq_getElem hlt, heq.symm⟩, rfl⟩

/-- It names one branch. -/
theorem NamedBranch.unique (x y : NamedBranch mem s choice v) : x.branch = y.branch := by
  have hplace : x.place = y.place := by
    obtain ⟨p, hp, hx⟩ := x.names
    obtain ⟨q, hq, hy⟩ := y.names
    rw [hp] at hq
    cases hq
    rw [hx] at hy
    exact Option.some.inj hy
  obtain ⟨m, hm, hx⟩ := x.refers
  obtain ⟨m', hm', hy⟩ := y.refers
  rw [hplace, hm'] at hm
  cases hm
  have heq : refOf mem (some x.branch) = refOf mem (some y.branch) := hx.symm.trans hy
  exact Option.some.inj (List.inj_on_of_nodup_map x.mapped.distinct x.offered y.offered heq)

theorem core_others (s : Schema α) (choice : Choice) : core (choice.others s) = core s := by
  cases choice <;> rfl

/-- The other keywords ask for at least what the core asks for. -/
theorem core_of_others (hsteady : SteadyNode mem config (choice.others s))
    (h : NodeAccepts mem config rt direction (choice.others s) v) :
    NodeAccepts mem config rt direction (core s) v := by
  have haccepts := h
  obtain ⟨depth, code, hcode, -⟩ := h
  rw [← core_others s choice]
  exact ((nodeAccepts_core hsteady hcode v).mp haccepts).1

/-- Where one array is offered, and its branches stand in the order of the mapping, the named
branch is the one that is run. -/
theorem NamedBranch.run (named : NamedBranch mem s choice v) (href : s.refResolved = none)
    (hother : choice.others s = core s)
    (horder : (choice.slots s)[named.place]? = some (some named.branch)) :
    branchRun s named.place = some (some named.branch) := by
  have hlength : (choice.slots s).length = s.discriminatorMapping.length := by
    have := named.mapped.bijection.length_eq
    simpa using this.symm
  have hne : choice.slots s ≠ [] := by
    intro hnil
    simp [hnil] at horder
  have hbranches : discriminatorBranches s = choice.slots s := by
    cases choice with
    | oneOf => simpa [discriminatorBranches, Choice.slots] using fun h => absurd h hne
    | anyOf =>
      have hone : s.oneOf = [] := congrArg Schema.oneOf hother
      simp [discriminatorBranches, Choice.slots, hone]
  have hemits : emitsDiscriminator s = true := by
    simp [emitsDiscriminator, named.names.hasDiscriminator, hbranches, hlength, hne]
  simp [branchRun, href, hemits, hbranches, horder]

end Named

def catRef : SchemaTree :=
  .node { ref := some (.ofString "#/components/schemas/Cat"), refResolved := some catSchema }

def dogRef : SchemaTree :=
  .node { ref := some (.ofString "#/components/schemas/Dog"), refResolved := some dogSchema }

/-- `{"discriminator": {"propertyName": "petType", "mapping": {"dog": "#/components/schemas/Dog",
"cat": "#/components/schemas/Cat"}}, "oneOf": [Cat, Dog]}` -/
def swapped : SchemaTree :=
  .node { discriminatorProperty := some (.ofString "petType"),
          discriminatorMapping :=
            [⟨.ofString "dog", some (.ofString "#/components/schemas/Dog")⟩,
             ⟨.ofString "cat", some (.ofString "#/components/schemas/Cat")⟩],
          oneOf := [some catRef, some dogRef] }

/-- `{"petType": "dog", "barks": true}` -/
def dogValue : Json := .obj [(ascii "petType", .str (ascii "dog")), (ascii "barks", .bool true)]

def dogNamed : NamedBranch SchemaTree.memory (SchemaTree.memory swapped) .oneOf dogValue where
  mapped := by
    refine ⟨?_, List.Perm.swap _ _ _, by decide⟩
    intro slot hslot
    simp only [swapped, SchemaTree.memory_node, Choice.slots, List.mem_cons, List.not_mem_nil,
      or_false] at hslot
    rcases hslot with rfl | rfl <;> rfl
  place := 0
  names := ⟨.ofString "petType", rfl, by decide⟩
  branch := dogRef
  offered := List.mem_cons_of_mem _ List.mem_cons_self
  refers := ⟨_, rfl, rfl⟩

def swappedCompiled : CompiledSchema :=
  ⟨[.discriminator (.ofString "petType"), .nopCount 2, .nopName (some (.ofString "dog")),
    .nopName (some (.ofString "cat")), .checkType typeObject, .checkRequired (some (.ofString "meows")),
    .endOp, .checkType typeObject, .checkRequired (some (.ofString "barks")), .endOp, .endOp], none⟩

theorem ref_steady {t : SchemaTree} {s : Schema SchemaTree} (href : s.refResolved = some t)
    (h : AllSteady SchemaTree.memory none t) : SteadyNode SchemaTree.memory none s := by
  constructor
  · intro hnone
    rw [href] at hnone
    cases hnone
  · intro b hb
    rw [followed, href, List.mem_singleton] at hb
    exact hb ▸ h

theorem swapped_steady : AllSteady SchemaTree.memory none swapped := by
  refine SteadyNode.intro ⟨fun _ => ⟨by decide, by decide, by decide, ?_⟩, ?_⟩
  · intro b hb
    cases hb
  · intro b hb
    have hbranch : b = catRef ∨ b = dogRef := by
      simpa [followed, swapped, applied, skippable, composed, choices, emitsDiscriminator,
        hasDiscriminator, discriminatorBranches, List.reduceOption] using hb
    rcases hbranch with rfl | rfl
    · exact SteadyNode.intro (ref_steady rfl catSchema_steady)
    · exact SteadyNode.intro (ref_steady rfl dogSchema_steady)

end Liboas
