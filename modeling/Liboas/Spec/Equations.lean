import Liboas.Spec.Verdict

/-!
# Schemas as equations

A schema says what it accepts in terms of the schemas below it, and one with a resolved `$ref`
accepts what its target does. Whatever solves these equations is what the compiled programs decide,
in trees and in graphs alike, compositions, references and directions included.
-/

namespace Liboas

open Machine Outcome Schema

namespace Spec

/-- `readOnly` and `writeOnly` allow the direction. -/
structure Allows (k : Keywords) (direction : Direction) : Prop where
  readOnly : k.readOnly = true → direction ≠ .request
  writeOnly : k.writeOnly = true → direction ≠ .response

/-- `accepts` solves the equations of the schemas in memory. -/
structure Solves {α : Type} (σ : Setting) (direction : Direction) (mem : Memory α)
    (accepts : α → Json → Prop) : Prop where
  ref : ∀ a target, (mem a).refResolved = some target → ∀ v, accepts a v ↔ accepts target v
  node : ∀ a, (mem a).refResolved = none → ∀ v, accepts a v ↔
    Holds σ ((mem a).map accepts) v ∧ Allows (mem a).toKeywords direction

/-- No discriminator, no keyword that the compiler leaves out, and no composition where
`skip_to_end` would have to pass it. -/
structure Ordinary {α : Type} (mem : Memory α) (config : Option CompilerConfig) (s : Schema α) :
    Prop where
  names : NamesSet s.toKeywords
  discriminator : hasDiscriminator s.toKeywords = false
  additionalProperties : s.additionalProperties = none
  unevaluatedProperties : s.unevaluatedProperties = none
  unevaluatedItems : s.unevaluatedItems = none
  prefixItems : PrefixRegular s
  allOf : s.allOf.length < 65536
  anyOf : s.anyOf.length < 65536
  oneOf : s.oneOf.length < 65536
  applied : ∀ a ∈ skippable config s, Flat mem config a

section Node

variable {α : Type} {mem : Memory α} {m : Machine} {config : Option CompilerConfig} {s : Schema α}
  {acc : α → Json → Bool} {ref : α → Json → Prop} {v : Json}

theorem Ordinary.regular (h : Ordinary mem config s) : Regular mem config s where
  noDiscriminator := by simp [emitsDiscriminator, h.discriminator]
  allOf := h.allOf
  anyOf _ := h.anyOf
  oneOf _ := h.oneOf
  skippable := h.applied

theorem accessAccepts_iff {k : Keywords} : m.accessAccepts k v = true ↔ Allows k m.direction := by
  simp only [accessAccepts, Bool.and_eq_true, checkIf_iff, checkOp, failIf_eq_none,
    beq_eq_false_iff_ne]
  exact ⟨fun h => ⟨h.1, h.2⟩, fun h => ⟨h.readOnly, h.writeOnly⟩⟩

/-- One schema: its keywords, and its access. -/
theorem ordinary_node (hregex : m.regex = backend config) (hs : Ordinary mem config s)
    (href : s.refResolved = none)
    (h : ∀ a ∈ followed config s, ∀ w, w.KeysPlain → (acc a w = true ↔ ref a w))
    (hv : v.KeysPlain) :
    m.keywordsAccept config (s.map acc) v = true ↔
      Holds (setting m config) (s.map ref) v ∧ Allows s.toKeywords m.direction := by
  have hskip : ∀ a ∈ skippable config s, ∀ w, w.KeysPlain → (acc a w = true ↔ ref a w) :=
    fun a ha => h a (by simp [followed, href, applied, ha])
  cases haccess : m.accessAccepts s.toKeywords v with
  | false =>
    have hnot : ¬ Allows s.toKeywords m.direction := by
      rw [← accessAccepts_iff (v := v), haccess]
      simp
    refine iff_of_false ?_ (fun hboth => hnot hboth.2)
    have haccess' : m.accessAccepts (s.map acc).toKeywords v = false := haccess
    rw [keywordsAccept_eq, haccess', Bool.and_false]
    simp
  | true =>
    rw [and_iff_left (accessAccepts_iff.mp haccess)]
    refine keywordsAccept_iff haccess hs.names ?_ ?_ ?_ ?_ ?_
    · rintro values rfl
      exact itemsAccept_iff hs.prefixItems (fun a ha x hx => hskip a ha x (hv.item hx))
    · rintro members rfl
      exact membersAccept_iff hregex hv hskip
    · refine compositionAccepts_iff hs.discriminator (fun a ha => h a ?_ v hv)
      simp [followed, href, List.reduceOption_mem_iff, ha]
    · intro a ha
      exact h a (by simp [followed, href, applied, ha]) v hv
    · exact conditionalAccepts_iff (fun a ha => hskip a ha v hv)

end Node

section Whole

variable {α : Type} {mem : Memory α} {config : Option CompilerConfig}

/-- By induction on the nesting of the calls of `compile_schema`. -/
theorem programAccepts_solves {m : Machine} {accepts : α → Json → Prop}
    (hregex : m.regex = backend config)
    (hsolves : Solves (setting m config) m.direction mem accepts) (depth : Nat) (a : α)
    (hordinary : ∀ b, Compiles mem config a b → (mem b).refResolved = none →
      Ordinary mem config (mem b)) (code : List Instr)
    (hcode : compileSchema mem config depth a = .ok code) (v : Json) (hv : v.KeysPlain) :
    m.programAccepts mem config depth a v = true ↔ accepts a v := by
  induction depth generalizing a code v with
  | zero => cases hcode
  | succ depth ih =>
    have hbelow : ∀ b ∈ followed config (mem a), ∀ w, w.KeysPlain →
        (m.programAccepts mem config depth b w = true ↔ accepts b w) := by
      intro b hb w hw
      obtain ⟨body, hbody⟩ := ok_of_followed hcode hb
      exact ih b (fun c hc => hordinary c (.step hb hc)) body hbody w hw
    rw [programAccepts]
    cases href : (mem a).refResolved with
    | some target =>
      rw [hsolves.ref a target href v]
      exact hbelow target (by simp [followed, href]) v hv
    | none =>
      rw [hsolves.node a href v]
      exact ordinary_node hregex (hordinary a (.refl a) href) href hbelow hv

section Program

variable {depth : Nat} {a : α} {compiled : CompiledSchema}

theorem ordinary_run (hcompile : oasSchemaCompile mem config depth (some a) = .ok compiled)
    (hordinary : ∀ b, Compiles mem config a b → (mem b).refResolved = none →
      Ordinary mem config (mem b)) (rt : Runtime) (direction : Direction) (v : Json)
    (result : Result) (arena : Bool) :
    ∃ r, oasValidateWithDirection rt compiled v direction result arena = .ok (0, r) ∧
      r.valid = (compiled.machine rt direction).programAccepts mem config depth a v := by
  obtain ⟨_, _, heq⟩ := bind_eq_ok.mp hcompile
  have hbackend : compiled.regex = backend config := by
    cases heq
    rfl
  exact validate_of_means hcompile (compileSchema_meaning (m := compiled.machine rt direction)
    hbackend depth a (fun b hb href => (hordinary b hb href).regular)) v result arena

theorem machine_solves (hcompile : oasSchemaCompile mem config depth (some a) = .ok compiled)
    (hordinary : ∀ b, Compiles mem config a b → (mem b).refResolved = none →
      Ordinary mem config (mem b)) {rt : Runtime} {direction : Direction}
    {accepts : α → Json → Prop}
    (hsolves : Solves ⟨rt, backend config, checkedFormat config⟩ direction mem accepts) {v : Json}
    (hv : v.KeysPlain) :
    (compiled.machine rt direction).programAccepts mem config depth a v = true ↔ accepts a v := by
  obtain ⟨code, hcode, heq⟩ := bind_eq_ok.mp hcompile
  have hbackend : compiled.regex = backend config := by
    cases heq
    rfl
  have hsetting : setting (compiled.machine rt direction) config =
      ⟨rt, backend config, checkedFormat config⟩ := by
    simp [setting, CompiledSchema.machine, hbackend]
  rw [← hsetting] at hsolves
  exact programAccepts_solves hbackend hsolves depth a hordinary code hcode v hv

/-- `oas_validate_with_direction` decides every solution of the equations. -/
theorem verdict_solves (hcompile : oasSchemaCompile mem config depth (some a) = .ok compiled)
    (hordinary : ∀ b, Compiles mem config a b → (mem b).refResolved = none →
      Ordinary mem config (mem b)) {rt : Runtime} {direction : Direction}
    {accepts : α → Json → Prop}
    (hsolves : Solves ⟨rt, backend config, checkedFormat config⟩ direction mem accepts) (v : Json)
    (hv : v.KeysPlain) (result : Result) (arena : Bool) :
    ∃ r, oasValidateWithDirection rt compiled v direction result arena = .ok (0, r) ∧
      (r.valid = true ↔ accepts a v) := by
  obtain ⟨r, hrun, hvalid⟩ := ordinary_run hcompile hordinary rt direction v result arena
  refine ⟨r, hrun, ?_⟩
  rw [hvalid]
  exact machine_solves hcompile hordinary hsolves hv

end Program

end Whole

/-! ## Trees have a solution -/

/-- What a schema tree accepts in a direction. -/
def AcceptsIn (σ : Setting) (direction : Direction) : SchemaTree → Json → Prop :=
  Tree.fold (fun s => s.refResolved.getD (fun v => Holds σ s v ∧ Allows s.toKeywords direction))
    Empty.elim

theorem acceptsIn_solves (σ : Setting) (direction : Direction) :
    Solves σ direction SchemaTree.memory (AcceptsIn σ direction) where
  ref a target href v := by
    cases a with
    | shared i => exact i.elim
    | node s =>
      have hmap : (s.map (AcceptsIn σ direction)).refResolved = some (AcceptsIn σ direction target) :=
        congrArg (Option.map _) href
      have hnode : AcceptsIn σ direction (.node s) = AcceptsIn σ direction target := by
        rw [AcceptsIn, Tree.fold_node]
        exact congrArg (Option.getD · _) hmap
      rw [hnode]
  node a href v := by
    cases a with
    | shared i => exact i.elim
    | node s =>
      have hmap : (s.map (AcceptsIn σ direction)).refResolved = none :=
        congrArg (Option.map _) href
      have hnode : AcceptsIn σ direction (.node s) = fun v =>
          Holds σ (s.map (AcceptsIn σ direction)) v ∧ Allows s.toKeywords direction := by
        rw [AcceptsIn, Tree.fold_node]
        exact congrArg (Option.getD · _) hmap
      rw [hnode]
      rfl

/-- A reference to `{"allOf": [{"type": "object"}], "properties": {"id": {"readOnly": true}}}` -/
def referredTree : SchemaTree :=
  .node { refResolved := some (.node {
    allOf := [some (.node { typeMask := typeObject })]
    properties := [⟨.ofString "id", some (.node { readOnly := true })⟩] }) }

theorem compiles_leaf {α : Type} {mem : Memory α} {config : Option CompilerConfig} {a b : α}
    (hleaf : followed config (mem a) = []) (h : Compiles mem config a b) : b = a := by
  cases h with
  | refl => rfl
  | step hstep _ =>
    rw [hleaf] at hstep
    cases hstep

theorem ordinary_leaf {α : Type} {mem : Memory α} {config : Option CompilerConfig} (k : Keywords)
    (hnames : NamesSet k) (hdiscriminator : hasDiscriminator k = false) :
    Ordinary mem config { toKeywords := k } := by
  refine ⟨hnames, hdiscriminator, rfl, rfl, rfl, ⟨?_, ?_⟩, ?_, ?_, ?_, ?_⟩ <;>
    simp [skippable, List.reduceOption]

theorem verdict_solves_referredTree :
    ∃ r, oasValidateWithDirection (.knowing [])
        ⟨[.enterProperty (.ofString "id"), .checkReadOnly, .endOp, .branchAllOf 1,
          .checkType typeObject, .endOp, .endOp], none⟩
        (.obj [(ascii "id", .str [])]) .request ⟨false, none⟩ false = .ok (0, r) ∧
      (r.valid = true ↔ AcceptsIn ⟨.knowing [], none, checkedFormat none⟩ .request referredTree
        (.obj [(ascii "id", .str [])])) := by
  refine @verdict_solves _ SchemaTree.memory none 3 _ _ rfl ?_ _ _ _ (acceptsIn_solves _ _) _ ?_
    ⟨false, none⟩ false
  · have hnames : ∀ k : Keywords, k.required = [] → k.dependentRequired = [] → NamesSet k :=
      fun k hrequired hdependent => ⟨by simp [hrequired], by simp [hdependent]⟩
    intro b hb href
    cases hb with
    | refl => cases href
    | step hstep hrest =>
      cases List.mem_singleton.mp hstep
      cases hrest with
      | refl =>
        refine ⟨hnames _ rfl rfl, rfl, rfl, rfl, rfl, ⟨by decide, by simp⟩, by decide, by decide,
          by decide, ?_⟩
        refine List.forall_mem_singleton.mpr fun c hc => ?_
        rw [compiles_leaf rfl hc]
        rfl
      | step hstep hrest =>
        rcases List.mem_pair.mp hstep with rfl | rfl
        · rw [compiles_leaf rfl hrest]
          exact ordinary_leaf _ (hnames _ rfl rfl) rfl
        · rw [compiles_leaf rfl hrest]
          exact ordinary_leaf _ (hnames _ rfl rfl) rfl
  · refine .obj _ (by simp) ?_ ?_
    · simp [ascii]
    · simp [Json.KeysPlain.str]

end Spec

end Liboas
