import Liboas.Validator.Simulation

/-!
# What a discriminator decides

DISCRIMINATOR runs the branch in the place that the key has among the keys of the mapping.
With that rule, `compileSchema_verdict` reads the verdict of a program off its schema,
discriminators included.
-/

namespace Liboas

open Outcome Emit Schema

namespace Machine

variable {m : Machine}

/-! ## The instruction -/

/-- The place of the key that the value names. -/
def selected (property : CStr) (keys : List CStr) (v : Json) : Option Nat :=
  match v.objGet (some property) with
  | some (.str wanted) => keys.findIdx? (fun key => key == CStr.ofBytes wanted)
  | _ => none

def dispatches (property : CStr) (keys : List CStr) (accs : List (Json → Bool)) (v : Json) : Bool :=
  ((selected property keys v).bind (fun i => accs[i]?)).any (fun c => c v)

/-- Bodies are passed, whatever they say. -/
theorem passBodies_run {bodies : List (List Instr)} {accs : List (Json → Bool)} (silent : Bool)
    (h : List.Forall₂ m.Meaning bodies accs) (vm : Vm) (rest : List Instr)
    (hdrop : m.code.drop vm.ip = bodiesCode bodies ++ rest) :
    ∃ errors, passBodies m.execute silent bodies.length vm =
      .ok ⟨vm.value, vm.ip + (bodiesCode bodies).length, errors, vm.valid⟩ := by
  induction h generalizing vm with
  | nil => exact ⟨vm.errors, rfl⟩
  | @cons body c bodies accs hbody _ ih =>
    have hbody' : m.code.drop vm.ip = body ++ .endOp :: (bodiesCode bodies ++ rest) := by
      simpa [bodiesCode] using hdrop
    have hquiet : m.code.drop (if silent then vm.quiet else vm).ip =
        body ++ .endOp :: (bodiesCode bodies ++ rest) := by
      cases silent <;> exact hbody'
    obtain ⟨errors, hrun⟩ := hbody.ends (if silent then vm.quiet else vm) _ hquiet
    generalize hsub : Vm.past _ _ errors _ = sub at hrun
    have hip : sub.ip = vm.ip + (body.length + 1) := by
      rw [← hsub]
      cases silent <;> rfl
    have hrest : m.code.drop sub.ip = bodiesCode bodies ++ rest := by
      have := drop_of_drop (x := body ++ [.endOp]) (by simpa using hbody')
      simpa [hip] using this
    obtain ⟨errors', hrun'⟩ :=
      ih { vm with ip := sub.ip, errors := if silent then vm.errors else sub.errors } hrest
    refine ⟨errors', ?_⟩
    have hlength : sub.ip + (bodiesCode bodies).length =
        vm.ip + (bodiesCode (body :: bodies)).length := by
      simp [bodiesCode, hip]
      omega
    rw [List.length_cons, passBodies, hrun, ← hlength]
    exact hrun'

theorem forall₂_split {β γ : Type} {R : β → γ → Prop} {l : List β} {l' : List γ}
    (h : List.Forall₂ R l l') {i : Nat} (hi : i < l.length) :
    ∃ x a y x' b y', l = x ++ a :: y ∧ l' = x' ++ b :: y' ∧ x.length = i ∧ x'.length = i ∧
      List.Forall₂ R x x' ∧ R a b ∧ List.Forall₂ R y y' := by
  induction h generalizing i with
  | nil => cases hi
  | @cons a b l l' hab hl ih =>
    cases i with
    | zero => exact ⟨[], a, l, [], b, l', rfl, rfl, rfl, rfl, .nil, hab, hl⟩
    | succ i =>
      obtain ⟨x, c, y, x', d, y', rfl, rfl, hx, hx', hxx, hcd, hyy⟩ := ih (Nat.lt_of_succ_lt_succ hi)
      exact ⟨a :: x, c, y, b :: x', d, y', rfl, rfl, by simp [hx], by simp [hx'], .cons hab hxx,
        hcd, hyy⟩

theorem bodiesCode_append (x y : List (List Instr)) :
    bodiesCode (x ++ y) = bodiesCode x ++ bodiesCode y := List.flatMap_append

/-- Behind the keys, the body in the selected place decides. -/
theorem dispatchOn_run {bodies : List (List Instr)} {accs : List (Json → Bool)} {keys : List CStr}
    (h : List.Forall₂ m.Meaning bodies accs) (hlen : keys.length = bodies.length) (property : CStr)
    (start : Nat) (vm : Vm) (rest : List Instr)
    (hkeys : m.code.drop start =
      keys.map (fun key => .nopName (some key)) ++ (bodiesCode bodies ++ rest))
    (hdrop : m.code.drop vm.ip = bodiesCode bodies ++ rest) :
    ∃ errors, m.dispatchOn m.execute property start keys.length vm =
      .ok (vm.past (bodiesCode bodies).length errors (dispatches property keys accs vm.value)) := by
  obtain ⟨errors, hpass⟩ := passBodies_run false h vm rest hdrop
  rw [← hlen] at hpass
  -- Without a place, the bodies are passed, and there is an error.
  have hfail : selected property keys vm.value = none → ∀ message, ∃ errors,
      (do
        let vm ← passBodies m.execute false keys.length vm
        return vm.addError message) = (.ok (vm.past (bodiesCode bodies).length errors
          (dispatches property keys accs vm.value)) : Except Fault Vm) := by
    intro hnone message
    rw [hpass, dispatches, hnone]
    refine ⟨errors.add .constraint [] (printInto 256 message), ?_⟩
    simp [bind, Except.bind, pure, Except.pure, Vm.addError, Vm.past]
  unfold dispatchOn
  split
  · rename_i members hvalue
    split
    · rename_i wanted hwanted
      have hfind := m.findKey_ok start (CStr.ofBytes wanted) keys (bodiesCode bodies ++ rest) 0 hkeys
      simp only [Nat.add_zero, Option.map_id'] at hfind
      have hselected : selected property keys vm.value =
          keys.findIdx? (fun key => key == CStr.ofBytes wanted) := by rw [selected, hwanted]
      rw [hfind, ← hselected]
      cases hindex : selected property keys vm.value with
      | none => exact hfail hindex _
      | some i =>
        have hi : i < bodies.length := by
          rw [hselected] at hindex
          rw [← hlen]
          exact (List.findIdx?_eq_some_iff_findIdx_eq.mp hindex).1
        obtain ⟨x, body, y, x', c, y', rfl, rfl, hx, hx', hxx, hbody, hyy⟩ := forall₂_split h hi
        have hsplit : m.code.drop vm.ip =
            bodiesCode x ++ (body ++ .endOp :: (bodiesCode y ++ rest)) := by
          rw [hdrop, bodiesCode_append]
          simp [bodiesCode]
        obtain ⟨errors₁, hbefore⟩ := passBodies_run true hxx vm _ hsplit
        rw [hx] at hbefore
        obtain ⟨errors₂, hrun⟩ := hbody.ends ⟨vm.value, vm.ip + (bodiesCode x).length, errors₁,
          vm.valid⟩ (bodiesCode y ++ rest) (drop_of_drop hsplit)
        generalize hsub : Vm.past _ _ errors₂ _ = sub at hrun
        have hip : sub.ip = vm.ip + (bodiesCode x).length + (body.length + 1) := by
          rw [← hsub]
          rfl
        have hvalid : sub.valid = (vm.valid && c vm.value) := by
          rw [← hsub]
          rfl
        have hafter : m.code.drop sub.ip = bodiesCode y ++ rest := by
          have := drop_of_drop (x := bodiesCode x ++ (body ++ [.endOp])) (by simpa using hsplit)
          simpa [hip, Nat.add_assoc] using this
        obtain ⟨errors₃, hlast⟩ := passBodies_run true hyy
          ⟨vm.value, sub.ip, sub.errors, vm.valid && sub.valid⟩ rest hafter
        have hcount : keys.length - (i + 1) = y.length := by
          rw [hlen]
          simp [hx]
          omega
        refine ⟨errors₃, ?_⟩
        simp only [bind, Except.bind, hbefore, hrun, hcount]
        refine hlast.trans ?_
        have hget : (x' ++ c :: y')[i]? = some c := by simp [← hx']
        have hdispatches : dispatches property keys (x' ++ c :: y') vm.value = c vm.value := by
          rw [dispatches, hindex, Option.bind_some, hget]
          rfl
        rw [hdispatches, bodiesCode_append]
        simp [Vm.past, bodiesCode, hip, hvalid]
        omega
    · rename_i hnot
      refine hfail ?_ _
      unfold selected
      split
      · rename_i wanted hwanted
        exact absurd hwanted (hnot wanted)
      · rfl
  · rename_i hnot
    refine hfail ?_ _
    have hget : vm.value.objGet (some property) = none := by
      cases hv : vm.value with
      | obj members => exact absurd hv (hnot members)
      | _ => rfl
    rw [selected, hget]

theorem Meaning.discriminator {bodies : List (List Instr)} {accs : List (Json → Bool)}
    (h : List.Forall₂ m.Meaning bodies accs) (property : CStr) (keys : List CStr)
    (hlen : keys.length = bodies.length) :
    m.Meaning (.discriminator property :: (.nopCount keys.length ::
      keys.map (fun key => .nopName (some key)) ++ bodiesCode bodies))
      (dispatches property keys accs) := by
  refine Meaning.of_dispatch (by simp) ⟨rfl, rfl⟩ ?_
  intro vm rest hdrop _
  have hcount : m.code.drop (vm.ip + 1) = .nopCount keys.length ::
      (keys.map (fun key => .nopName (some key)) ++ (bodiesCode bodies ++ rest)) := by
    have := drop_of_drop (x := [Instr.discriminator property]) hdrop
    simpa using this
  have hkeys : m.code.drop (vm.ip + 1 + 1) =
      keys.map (fun key => .nopName (some key)) ++ (bodiesCode bodies ++ rest) :=
    drop_of_drop (x := [Instr.nopCount keys.length]) hcount
  have hlt := (List.getElem?_eq_some_iff.mp (getElem?_of_drop hcount)).1
  have hadvance := advance_ok { vm with ip := vm.ip + 1 + 1 } hkeys hlt
  rw [List.length_map] at hadvance
  have hbodies := drop_of_drop hkeys
  rw [List.length_map] at hbodies
  obtain ⟨errors, hrun⟩ := dispatchOn_run h hlen property (vm.ip + 1 + 1)
    { vm with ip := vm.ip + 1 + 1 + keys.length } rest hkeys hbodies
  refine ⟨errors, ?_⟩
  simp only [dispatch, readCount_ok { vm with ip := vm.ip + 1 } hcount, bind, Except.bind, hadvance,
    Int.toNat_natCast, hrun]
  simp [Vm.past]
  omega

/-! ## The composition of a schema -/

/-- What the discriminator of a schema asks for, if one is compiled. -/
def discriminatorAccepts (s : Schema (Json → Bool)) (v : Json) : Bool :=
  !emitsDiscriminator s || s.discriminatorProperty.all (fun property =>
    dispatches property (s.discriminatorMapping.map (·.key))
      ((discriminatorBranches s).map slotAccepts) v)

section Composition

variable {α : Type} {s : Schema α} {f : α → Emit} {acc : α → Json → Bool}

theorem emitsDiscriminator_map {β : Type} (g : α → β) :
    emitsDiscriminator (s.map g) = emitsDiscriminator s := by
  simp only [emitsDiscriminator, discriminatorBranches_map, List.isEmpty_map, List.length_map]
  rfl

theorem allOf_meaning (hall : s.allOf.length < 65536)
    (h : ∀ a, some a ∈ s.allOf → m.Means (f a) (acc a)) :
    m.Means (compileComposition .branchAllOf (s.map f).allOf)
      (fun v => (s.map acc).allOf.all (fun slot => slotAccepts slot v)) := by
  refine means_congr (compileComposition_meaning (fun accs v => accs.all (fun c => c v))
    Meaning.branchAllOf hall h) ?_
  intro v
  cases hs : s.allOf <;> simp [Schema.map, hs, Function.comp_def]

theorem emitDiscriminator_meaning {property : CStr} (hdisc : emitsDiscriminator s = true)
    (hproperty : s.discriminatorProperty = some property)
    (h : ∀ a, some a ∈ discriminatorBranches s → m.Means (f a) (acc a)) :
    m.Means (emitDiscriminator (s.map f) property) (discriminatorAccepts (s.map acc)) := by
  have hemits : (!(discriminatorBranches (s.map f)).isEmpty &&
      (discriminatorBranches (s.map f)).length == (s.map f).discriminatorMapping.length) = true := by
    have := emitsDiscriminator_map (s := s) f
    rw [hdisc] at this
    simp only [emitsDiscriminator, Bool.and_eq_true] at this
    simp only [Bool.and_eq_true]
    exact ⟨this.1.2, this.2⟩
  intro code hcode
  rw [emitDiscriminator, if_pos hemits] at hcode
  obtain ⟨x, y, hx, hy, rfl⟩ := append_eq_ok.mp hcode
  cases hx
  rw [discriminatorBranches_map] at hy
  obtain ⟨bodies, hbodies, rfl⟩ := emitBodies_ok.mp hy
  have hlength : (s.discriminatorMapping.map (·.key)).length = bodies.length := by
    have hbranches := hbodies.length_eq
    simp only [emitsDiscriminator, Bool.and_eq_true, beq_iff_eq] at hdisc
    rw [List.length_map, ← hdisc.2, ← hbranches, List.length_map]
  have hrule := Meaning.discriminator (bodies_meaning h hbodies) property
    (s.discriminatorMapping.map (·.key)) hlength
  have hcode : (.discriminator property :: .nopCount (s.map f).discriminatorMapping.length ::
      (s.map f).discriminatorMapping.map (fun m => .nopName (some m.key))) ++ bodiesCode bodies =
      (.discriminator property :: (.nopCount (s.discriminatorMapping.map (·.key)).length ::
        (s.discriminatorMapping.map (·.key)).map (fun key => .nopName (some key)) ++
          bodiesCode bodies)) := by
    simp [Schema.map]
  refine (hcode ▸ hrule).congr (fun v => ?_)
  have hproperty' : (s.map acc).discriminatorProperty = some property := hproperty
  rw [discriminatorAccepts, emitsDiscriminator_map, hdisc, hproperty', discriminatorBranches_map,
    List.map_map]
  simp [Schema.map, Function.comp_def]

theorem emitComposition_verdict (hall : s.allOf.length < 65536)
    (hany : hasDiscriminator s.toKeywords = false → s.anyOf.length < 65536)
    (hone : hasDiscriminator s.toKeywords = false → s.oneOf.length < 65536)
    (h : ∀ a, some a ∈ composed s → m.Means (f a) (acc a)) :
    m.Means (emitComposition (s.map f))
      (fun v => compositionAccepts (s.map acc) v && discriminatorAccepts (s.map acc) v) := by
  cases hdisc : emitsDiscriminator s with
  | false =>
    refine means_congr (emitComposition_meaning hdisc hall hany hone h) (fun v => ?_)
    rw [discriminatorAccepts, emitsDiscriminator_map, hdisc]
    simp
  | true =>
    have hhas : hasDiscriminator s.toKeywords = true := by
      simp only [emitsDiscriminator, Bool.and_eq_true] at hdisc
      exact hdisc.1.1
    obtain ⟨property, hproperty⟩ : ∃ property, s.discriminatorProperty = some property := by
      simp only [hasDiscriminator, Bool.and_eq_true] at hhas
      exact Option.isSome_iff_exists.mp hhas.1
    have hbranches : ∀ a, some a ∈ discriminatorBranches s → m.Means (f a) (acc a) :=
      fun a ha => h a (by simp [composed, choices, hhas, hdisc, ha])
    have hcode : emitComposition (s.map f) = compileComposition .branchAllOf (s.map f).allOf ++
        emitDiscriminator (s.map f) property := by
      have hhas' : hasDiscriminator (s.map f).toKeywords = true := hhas
      have hproperty' : (s.map f).discriminatorProperty = some property := hproperty
      rw [emitComposition, hhas', hproperty']
    rw [hcode]
    refine means_congr (means_append
      (allOf_meaning hall (fun a ha => h a (List.mem_append_left _ ha)))
      (emitDiscriminator_meaning hdisc hproperty hbranches)) (fun v => ?_)
    have hhas' : hasDiscriminator (s.map acc).toKeywords = true := hhas
    rw [compositionAccepts, hhas', Bool.true_or, Bool.and_true]

end Composition

/-! ## Whole schemas -/

section Whole

variable {α : Type} {mem : Memory α} {config : Option CompilerConfig}

/-- What the code of one schema decides, on the verdicts of the schemas below it. -/
def nodeVerdict (m : Machine) (config : Option CompilerConfig) (s : Schema (Json → Bool))
    (v : Json) : Bool :=
  match s.refResolved with
  | some target => target v
  | none => m.keywordsAccept config s v && discriminatorAccepts s v

theorem nodeVerdict_map (m : Machine) (acc : α → Json → Bool) (s : Schema α) (v : Json) :
    m.nodeVerdict config (s.map acc) v =
      match s.refResolved with
      | some target => acc target v
      | none => m.keywordsAccept config (s.map acc) v && discriminatorAccepts (s.map acc) v := by
  cases href : s.refResolved <;> simp [nodeVerdict, Schema.map, href]

/-- The verdict of the code of a schema, with discriminators. -/
def programVerdict (m : Machine) (mem : Memory α) (config : Option CompilerConfig) :
    Nat → α → Json → Bool
  | 0, _ => fun _ => true
  | depth + 1, a => m.nodeVerdict config ((mem a).map (programVerdict m mem config depth))

/-- No count has more than 16 bits, and `skip_to_end` has to pass no composition. -/
structure Steady (mem : Memory α) (config : Option CompilerConfig) (s : Schema α) : Prop where
  allOf : s.allOf.length < 65536
  anyOf : hasDiscriminator s.toKeywords = false → s.anyOf.length < 65536
  oneOf : hasDiscriminator s.toKeywords = false → s.oneOf.length < 65536
  skippable : ∀ a ∈ skippable config s, Flat mem config a

/-- So it is in every schema that is compiled. -/
def AllSteady (mem : Memory α) (config : Option CompilerConfig) (a : α) : Prop :=
  ∀ b, Compiles mem config a b → (mem b).refResolved = none → Steady mem config (mem b)

/-- The same of a schema wherever it is held. -/
structure SteadyNode (mem : Memory α) (config : Option CompilerConfig) (s : Schema α) : Prop where
  node : s.refResolved = none → Steady mem config s
  below : ∀ b ∈ followed config s, AllSteady mem config b

theorem AllSteady.node {a : α} (h : AllSteady mem config a) : SteadyNode mem config (mem a) where
  node := h a (.refl a)
  below _ hb c hc := h c (.step hb hc)

theorem SteadyNode.intro {a : α} (h : SteadyNode mem config (mem a)) : AllSteady mem config a := by
  intro b hb
  cases hb with
  | refl => exact h.node
  | step hc hb => exact h.below _ hc b hb

theorem compileNode_verdict (hregex : m.regex = backend config) {depth : Nat} {s : Schema α}
    {acc : α → Json → Bool} (hsteady : SteadyNode mem config s)
    (hnext : ∀ b ∈ followed config s, m.Means (compileSchema mem config depth b) (acc b)) :
    m.Means (compileNode config (s.map (compileSchema mem config depth)))
      (m.nodeVerdict config (s.map acc)) := by
  rw [compileNode_map]
  cases href : s.refResolved with
  | some target =>
    refine means_congr (hnext target (by simp [followed, href])) (fun v => ?_)
    rw [nodeVerdict_map, href]
  | none =>
    dsimp only
    split
    · exact Permits.error
    · have hs := hsteady.node href
      have happlied : ∀ b ∈ applied config s, m.Means (compileSchema mem config depth b) (acc b) :=
        fun b hb => hnext b (by simp [followed, href, hb])
      have hcomposition := emitComposition_verdict hs.allOf hs.anyOf hs.oneOf
        (fun b hb => hnext b (by simp [followed, href, List.reduceOption_mem_iff, hb]))
      refine means_congr (node_meaning hregex hs.skippable happlied hcomposition) (fun v => ?_)
      rw [nodeVerdict_map, href]

/-- What compiling a schema emits decides `programVerdict`. -/
theorem compileSchema_verdict (hregex : m.regex = backend config) (depth : Nat) (a : α)
    (hsteady : AllSteady mem config a) :
    m.Means (compileSchema mem config depth a) (m.programVerdict mem config depth a) := by
  induction depth generalizing a with
  | zero => exact Permits.error
  | succ depth ih =>
    exact compileNode_verdict hregex hsteady.node (fun b hb => ih b (hsteady.node.below b hb))

end Whole

end Machine

end Liboas
