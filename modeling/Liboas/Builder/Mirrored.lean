import Liboas.Builder.RoundTrip
import Liboas.Compiler.Patterns
import Liboas.Validator.Recompiled
import Liboas.Validator.Tuple

/-!
# What is built answers like what comes back

A schema that was built compiles just when the one compiles that comes back, and both programs
accept the same values.
-/

namespace Liboas

open Machine Schema Outcome Emitter

/-! ## One schema -/

section Node

variable {α β : Type} {m : Machine} {config : Option CompilerConfig}

/-- A bound that is dropped was no bound. -/
theorem checkBound_after (op : Int → Instr) (n : Int) (v : Json) :
    m.checkBound op (boundAfter n) v = m.checkBound op n v := by
  unfold checkBound boundAfter
  split
  · rfl
  · rename_i hneg
    simp [checkIf, hneg]

theorem keywordsAccept_comesBack (s : Schema (Json → Bool)) (v : Json) :
    m.keywordsAccept config (comesBack s) v = m.keywordsAccept config s v := by
  have hstring : m.stringAccepts config (comesBack s).toKeywords v =
      m.stringAccepts config s.toKeywords v := by
    unfold stringAccepts comesBack
    dsimp only
    rw [checkBound_after, checkBound_after]
  have hobject : m.objectAccepts (comesBack s) v = m.objectAccepts s v := by
    unfold objectAccepts comesBack
    dsimp only
    rw [List.all_reverse]
  unfold keywordsAccept
  rw [hstring, hobject]
  rfl

theorem nodeVerdict_comesBack (s : Schema (Json → Bool)) (v : Json) :
    m.nodeVerdict config (comesBack s) v = m.nodeVerdict config s v := by
  have href : (comesBack s).refResolved = s.refResolved := rfl
  have hdiscriminator : discriminatorAccepts (comesBack s) v = discriminatorAccepts s v := rfl
  unfold nodeVerdict
  rw [href, keywordsAccept_comesBack, hdiscriminator]

theorem comesBack_map (s : Schema α) (f : α → β) : comesBack (s.map f) = (comesBack s).map f := by
  unfold comesBack Schema.map
  dsimp only
  rw [List.map_reverse]

theorem Built.noRef {s : Schema α} (h : Built s) : s.refResolved = none ∧ s.ref = none :=
  ⟨congrArg (·.refResolved) h.only.symm, congrArg (·.ref) h.only.symm⟩

/-- The compiler goes on to the items, the properties and the additional properties. -/
theorem followed_built {s : Schema α} (h : Built s) : followed config s =
    s.items.toList ++ (s.properties.map Entry.schema).reduceOption ++ s.additionalProperties.toList := by
  have honly : followed config (ofBuilder s) = s.items.toList ++
      (s.properties.map Entry.schema).reduceOption ++ s.additionalProperties.toList := by
    simp [followed, applied, skippable, composed, choices, hasDiscriminator, ofBuilder,
      oasSchemaCreate]
  rwa [h.only] at honly

theorem followed_comesBack {s : Schema α} (h : Built s) : followed config (comesBack s) =
    s.items.toList ++ (s.properties.reverse.map Entry.schema).reduceOption ++
      s.additionalProperties.toList := by
  have honly : followed config (comesBack (ofBuilder s)) = s.items.toList ++
      (s.properties.reverse.map Entry.schema).reduceOption ++ s.additionalProperties.toList := by
    simp [followed, applied, skippable, composed, choices, hasDiscriminator, comesBack, ofBuilder,
      oasSchemaCreate]
  rwa [h.only] at honly

theorem mem_followed_comesBack {s : Schema α} (h : Built s) (g : α → β) {b : β}
    (hb : b ∈ followed config (comesBack (s.map g))) : ∃ a ∈ followed config s, g a = b := by
  have hmap : followed config (comesBack (s.map g)) = (followed config (comesBack s)).map g := by
    rw [followed_comesBack (h.map g), followed_comesBack h, List.map_append, List.map_append,
      ← Option.toList_map, ← Option.toList_map, ← List.reduceOption_map, List.map_map, List.map_reverse,
      List.map_reverse, Schema.map]
    dsimp only
    rw [List.map_map]
    rfl
  rw [hmap] at hb
  obtain ⟨a, ha, rfl⟩ := List.mem_map.mp hb
  rw [followed_comesBack h] at ha
  rw [followed_built h]
  refine ⟨a, ?_, rfl⟩
  simpa [List.reduceOption_mem_iff] using ha

theorem emitsBranches_built {s : Schema α} (h : Built s) :
    emitsBranches s = false ∧ emitsBranches (comesBack s) = false := by
  have honly : emitsBranches (ofBuilder s) = false ∧ emitsBranches (comesBack (ofBuilder s)) = false := by
    simp [emitsBranches, composed, choices, hasDiscriminator, comesBack, ofBuilder, oasSchemaCreate]
  rwa [h.only] at honly

theorem takesPatterns_comesBack {s : Schema α} (h : Built s) (g : α → β)
    (htakes : TakesPatterns config s) : TakesPatterns config (comesBack (s.map g)) where
  pattern := htakes.pattern
  patternProperties := by
    have hnone : (comesBack (s.map g)).patternProperties = [] :=
      congrArg (fun s => (s.map g).patternProperties) h.only.symm
    rw [hnone]
    exact List.forall_mem_nil _

end Node

/-! ## Memories -/

/-- The schemas behind `R`-related pointers were built, and come back. -/
structure Mirrors {α β : Type} (mem : Memory α) (mem' : Memory β) (R : α → β → Prop) : Prop where
  built : ∀ a b, R a b → Built (mem a)
  back : ∀ a b, R a b → ∃ g : α → β, mem' b = comesBack ((mem a).map g) ∧
    ∀ c ∈ (mem a).children, R c (g c)

section Mirrors

variable {α β : Type} {mem : Memory α} {mem' : Memory β} {R : α → β → Prop}
  {config : Option CompilerConfig} {a : α} {b : β}

/-- Where the compiler goes for what comes back, it goes for what was built. -/
theorem Mirrors.followed (h : Mirrors mem mem' R) (hab : R a b) {d : β}
    (hd : d ∈ followed config (mem' b)) : ∃ c ∈ Schema.followed config (mem a), R c d := by
  obtain ⟨g, hback, hbelow⟩ := h.back a b hab
  rw [hback] at hd
  obtain ⟨c, hc, rfl⟩ := mem_followed_comesBack (h.built a b hab) g hd
  exact ⟨c, hc, hbelow c (mem_children_of_followed config (mem a) hc)⟩

theorem Mirrors.flat (h : Mirrors mem mem' R) (hab : R a b) :
    Flat mem config a ∧ Flat mem' config b := by
  constructor
  · intro c hc
    obtain ⟨d, hcd⟩ : ∃ d, R c d := by
      refine Reaches.induct (P := fun c => ∃ d, R c d) hc ⟨b, hab⟩ ?_
      rintro x ⟨y, hxy⟩ z hz
      obtain ⟨g, -, hbelow⟩ := h.back x y hxy
      exact ⟨g z, hbelow z (mem_children_of_followed config (mem x) hz)⟩
    exact (emitsBranches_built (h.built c d hcd)).1
  · intro d hd
    obtain ⟨c, hcd⟩ : ∃ c, R c d := by
      refine Reaches.induct (P := fun d => ∃ c, R c d) hd ⟨a, hab⟩ ?_
      rintro y ⟨x, hxy⟩ z hz
      obtain ⟨w, -, hwz⟩ := h.followed hxy hz
      exact ⟨w, hwz⟩
    obtain ⟨g, hback, -⟩ := h.back c d hcd
    rw [hback]
    exact (emitsBranches_built ((h.built c d hcd).map g)).2

/-- A schema compiles when its own code does, and all that the compiler goes on to. -/
theorem compileSchema_ok_iff {depth : Nat} :
    (∃ code, compileSchema mem config (depth + 1) a = .ok code) ↔
      (∀ code, .own code ∈ (mem a).steps config → ∃ c, code = .ok c) ∧
        ∀ b, .body b ∈ (mem a).steps config → ∃ code, compileSchema mem config depth b = .ok code := by
  rw [← status_eq_ok, status_compileSchema, passAll_ok]
  constructor
  · intro h
    exact ⟨fun code hcode => h _ hcode, fun b hb => h _ hb⟩
  · rintro ⟨hown, hbody⟩ (code | b) hstep
    · exact hown code hstep
    · exact hbody b hstep

/-- By induction on the nesting of the calls of `compile_schema`. -/
theorem Mirrors.compiles (h : Mirrors mem mem' R) (depth : Nat) (hab : R a b)
    (hcode : ∃ code, compileSchema mem config depth a = .ok code) :
    ∃ code, compileSchema mem' config depth b = .ok code := by
  induction depth generalizing a b with
  | zero =>
    obtain ⟨code, hcode⟩ := hcode
    cases hcode
  | succ depth ih =>
    have hbuilt := h.built a b hab
    obtain ⟨code, hcode'⟩ := hcode
    obtain ⟨hown, hbody⟩ := compileSchema_ok_iff.mp ⟨code, hcode'⟩
    obtain ⟨-, htakes⟩ := own_ok_iff.mp hown hbuilt.noRef.1
    obtain ⟨g, hback, -⟩ := h.back a b hab
    refine compileSchema_ok_iff.mpr ⟨own_ok_iff.mpr (fun _ => ?_), fun d hd => ?_⟩
    · rw [hback]
      exact ⟨hbuilt.noRef.2, takesPatterns_comesBack hbuilt g htakes⟩
    · obtain ⟨c, hc, hcd⟩ := h.followed hab (followed_of_body hd)
      exact ih hcd (ok_of_followed hcode' hc)

/-- By induction on the nesting of the calls of `compile_schema`. -/
theorem Mirrors.programVerdict (h : Mirrors mem mem' R) (m : Machine) (depth : Nat) (hab : R a b) :
    m.programVerdict mem' config depth b = m.programVerdict mem config depth a := by
  induction depth generalizing a b with
  | zero => rfl
  | succ depth ih =>
    obtain ⟨g, hback, hbelow⟩ := h.back a b hab
    have hchildren : (mem a).map (fun c => m.programVerdict mem' config depth (g c)) =
        (mem a).map (m.programVerdict mem config depth) :=
      map_congr (fun c hc => ih (hbelow c hc))
    have hmap : (comesBack ((mem a).map g)).map (m.programVerdict mem' config depth) =
        comesBack ((mem a).map (m.programVerdict mem config depth)) := by
      rw [← hchildren, ← comesBack_map, map_map]
      rfl
    funext v
    rw [Machine.programVerdict, Machine.programVerdict, hback, hmap, nodeVerdict_comesBack]

theorem accepts_judge {depth : Nat} {code : List Instr}
    (hcode : compileSchema mem config depth a = .ok code) (hflat : Flat mem config a) {rt : Runtime}
    {direction : Direction} {v : Json} :
    CompiledSchema.accepts ⟨code ++ [.endOp], backend config⟩ rt direction v =
      (judge config rt direction).programVerdict mem config depth a v := by
  have hmeans := compileSchema_verdict
    (m := CompiledSchema.machine ⟨code ++ [.endOp], backend config⟩ rt direction) rfl depth a
    hflat.allSteady code hcode
  rw [accepts_of_meaning hmeans v]
  exact congrFun (programVerdict_code (judge config rt direction) (code ++ [.endOp]) depth a) v

/-- Its program answers like the one of what was built. -/
theorem Mirrors.recompiles (h : Mirrors mem mem' R) {cs : CompiledSchema} {depth : Nat} (hab : R a b)
    (hcompile : oasSchemaCompile mem config depth (some a) = .ok cs) :
    ∃ cs', oasSchemaCompile mem' config depth (some b) = .ok cs' ∧ cs.Alike cs' := by
  obtain ⟨code, hcode, heq⟩ := bind_eq_ok.mp hcompile
  obtain ⟨code', hcode'⟩ := h.compiles depth hab ⟨code, hcode⟩
  have hcompile' : oasSchemaCompile mem' config depth (some b) =
      .ok ⟨code' ++ [.endOp], backend config⟩ := by
    rw [oasSchemaCompile, hcode']
    rfl
  refine ⟨_, hcompile', alike_of_accepts (oasSchemaCompile_sound hcompile)
    (oasSchemaCompile_sound hcompile') (fun rt direction v => ?_)⟩
  obtain ⟨hflat, hflat'⟩ := h.flat hab
  cases heq
  rw [accepts_judge hcode hflat, accepts_judge hcode' hflat', h.programVerdict _ depth hab]

end Mirrors

end Liboas
