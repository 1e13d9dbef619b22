import Liboas.Compiler.Layout
import Liboas.Compiler.Storage

/-!
# The compiler and its storage

With its storage, `oas_schema_compile` emits the program of `oasSchemaCompile`, or stops for the
same reason, or runs out of memory. It never makes another program.
-/

namespace Liboas

open Ownership

/-! ## Blocks -/

theorem yields_free (block : Option Nat) : Yields (free block) (fun _ _ => True) := by
  cases block with
  | none => exact Yields.pure (fun _ => trivial)
  | some n => exact Yields.release _

/-- Null only when something is refused. -/
def Refusable (granted : Nat → Bool) (block : Option Nat) : Prop :=
  block = none → ∃ k, granted k = false

theorem yields_malloc : Yields malloc Refusable := by
  refine Yields.bind Yields.request ?_
  rintro (_ | n) -
  · exact Yields.pure (fun _ h => h)
  · exact Yields.bind (Yields.acquire _) (fun _ _ => Yields.pure (fun _ _ _ => nofun))

theorem yields_realloc (block : Option Nat) : Yields (realloc block) Refusable := by
  refine Yields.bind Yields.request ?_
  rintro (_ | n) -
  · exact Yields.pure (fun _ h => h)
  · exact Yields.bind (yields_free block) (fun _ _ => Yields.bind (Yields.acquire _)
      (fun _ _ => Yields.pure (fun _ _ _ _ => nofun)))

/-- What a push gives, and when it is refused. -/
structure PushedTo {β : Type} (a : Growable β) (x : β) (granted : Nat → Bool)
    (out : Bool × Growable β) : Prop where
  pushed : out.1 = true → out.2.items = a.items ++ [x]
  refused : out.1 = false → ∃ k, granted k = false

theorem yields_push {β : Type} (initial : Nat) (a : Growable β) (x : β) :
    Yields (a.push initial x) (PushedTo a x) := by
  unfold Growable.push
  split
  · refine Yields.bind (yields_realloc a.block) ?_
    rintro (_ | n) -
    · exact Yields.pure (fun _ h => ⟨nofun, fun _ => h rfl⟩)
    · exact Yields.pure (fun _ _ => ⟨fun _ => rfl, nofun⟩)
  · exact Yields.pure (fun _ => ⟨fun _ => rfl, nofun⟩)

/-! ## Emitting -/

namespace Compiling

variable {config : Option CompilerConfig}

/-- How a function ends that is to emit `e`. -/
inductive Follows (e : Emit) (cs : SchemaObject) (granted : Nat → Bool) :
    Except Stop Unit × SchemaObject → Prop where
  | ok (code : List Instr) (cs' : SchemaObject) : e = .ok code →
      cs'.program.items = cs.program.items ++ code → cs'.regex = cs.regex →
      Follows e cs granted (.ok (), cs')
  | fail (f : CompileFail) (cs' : SchemaObject) : e = .error f →
      Follows e cs granted (.error (.fail f), cs')
  | noMemory (cs' : SchemaObject) : (∃ k, granted k = false) →
      Follows e cs granted (.error .noMemory, cs')

def Agrees (config : Option CompilerConfig) (m : Compiling) (e : Emit) : Prop :=
  ∀ cs, cs.regex = backend config → Yields (m.run.run cs) (Follows e cs)

theorem agrees_pure : Agrees config (pure ()) (Emit.emit []) :=
  fun cs _ => Yields.pure (fun _ => .ok [] cs rfl (List.append_nil _).symm rfl)

theorem agrees_throw (f : CompileFail) : Agrees config (throw (.fail f)) (.error f) :=
  fun cs _ => Yields.pure (fun _ => .fail f cs rfl)

theorem agrees_bind {m m' : Compiling} {e e' : Emit} (h : Agrees config m e)
    (h' : Agrees config m' e') : Agrees config (m >>= fun _ => m') (e ++ e') := by
  intro cs hcs
  rw [run_bind]
  refine Yields.bind (h cs hcs) ?_
  rintro ⟨result, cs'⟩ ⟨_, hfirst⟩
  cases result with
  | ok _ =>
    cases hfirst with
    | ok code _ hcode hitems hregex =>
      refine (h' cs' (hregex.trans hcs)).mono ?_
      rintro granted _ hsecond -
      cases hsecond with
      | ok code' cs'' hcode' hitems' hregex' =>
        refine .ok (code ++ code') cs'' (by rw [hcode, hcode']; rfl) ?_ (hregex'.trans hregex)
        rw [hitems', hitems, List.append_assoc]
      | fail f cs'' hf => exact .fail f cs'' (by rw [hcode, hf]; rfl)
      | noMemory cs'' hrefused => exact .noMemory cs'' hrefused
  | error stop =>
    refine Yields.pure (fun granted hfirst => ?_)
    cases hfirst with
    | fail f _ hf => exact .fail f cs' (by rw [hf]; rfl)
    | noMemory _ hrefused => exact .noMemory cs' hrefused

theorem agrees_emit (i : Instr) : Agrees config (oasProgramEmit i) (Emit.emit [i]) := by
  intro cs _
  refine Yields.bind (yields_push 32 cs.program i) ?_
  rintro ⟨emitted, program⟩ -
  refine Yields.pure (fun granted hpushed => ?_)
  cases emitted with
  | true => exact .ok [i] _ rfl (hpushed.pushed rfl) rfl
  | false => exact .noMemory _ (hpushed.refused rfl)

theorem agrees_forM {β γ : Type} {f : β → Compiling} {g : γ → Emit} {l : List β} {l' : List γ}
    (h : List.Forall₂ (fun x y => Agrees config (f x) (g y)) l l') :
    Agrees config (l.forM f) (Emit.emitEach g l') := by
  induction h with
  | nil => exact agrees_pure
  | cons hxy _ ih => exact agrees_bind hxy ih

theorem agrees_emitMany (code : List Instr) : Agrees config (emitMany code) (Emit.emit code) := by
  have heach : ∀ code : List Instr, Emit.emitEach (fun i => Emit.emit [i]) code = Emit.emit code := by
    intro code
    induction code with
    | nil => rfl
    | cons i code ih =>
      rw [Emit.emitEach_cons, ih]
      rfl
  rw [← heach]
  exact agrees_forM (List.forall₂_same.mpr (fun i _ => agrees_emit i))

theorem agrees_emitOwn (e : Emit) : Agrees config (emitOwn e) e := by
  cases e with
  | ok code => exact agrees_emitMany code
  | error f => exact agrees_throw f

/-! ## Patterns -/

/-- How `backend->compile` ends. -/
inductive Attempt (regex : Regex) (failure : String) (pattern : CStr) (granted : Nat → Bool) :
    Except Stop Nat → Prop where
  | ok (n : Nat) : ¬ regex.compile pattern < 0 → Attempt regex failure pattern granted (.ok n)
  | rejected : regex.compile pattern < 0 → Attempt regex failure pattern granted
      (.error (.fail (.pattern (regex.compile pattern) (ascii failure ++ pattern.bytes))))
  | noMemory : (∃ k, granted k = false) → Attempt regex failure pattern granted (.error .noMemory)

theorem yields_compilePattern (regex : Regex) (failure : String) (pattern : CStr) :
    Yields (compilePattern regex failure pattern) (Attempt regex failure pattern) := by
  refine Yields.bind (Yields.touch _) (fun _ _ => ?_)
  split
  · rename_i hrejected
    exact Yields.pure (fun _ _ => .rejected hrejected)
  · rename_i hcompiles
    refine Yields.bind Yields.request ?_
    rintro (_ | n) -
    · exact Yields.pure (fun _ hrefused _ => .noMemory (hrefused rfl))
    · exact Yields.bind (Yields.acquire _) (fun _ _ => Yields.pure (fun _ _ _ _ => .ok n hcompiles))

theorem yields_freePattern (n : Nat) : Yields (freePattern n) (fun _ _ => True) :=
  Yields.bind (Yields.touch _) (fun _ _ => (Yields.release _).mono (fun _ _ _ _ => trivial))

theorem agrees_trackPattern (n : Nat) : Agrees config (trackPattern n) (Emit.emit []) := by
  intro cs _
  refine Yields.bind (yields_push 8 cs.patterns n) ?_
  rintro ⟨tracked, patterns⟩ -
  cases tracked with
  | true => exact Yields.pure (fun _ _ => .ok [] _ rfl (List.append_nil _).symm rfl)
  | false =>
    refine Yields.bind (yields_freePattern n) (fun _ _ => Yields.pure (fun _ _ hpushed => ?_))
    exact .noMemory _ (hpushed.refused rfl)

/-- A pattern that the backend takes, or the reason why it does not. -/
def kept (regex : Regex) (failure : String) (pattern : CStr) : Emit :=
  if regex.compile pattern < 0 then
    .error (.pattern (regex.compile pattern) (ascii failure ++ pattern.bytes))
  else Emit.emit []

theorem agrees_keepPattern (failure : String) (pattern : CStr) (regex : Regex) :
    Agrees config (withPattern.keepPattern failure pattern regex) (kept regex failure pattern) := by
  intro cs hcs
  refine Yields.bind (yields_compilePattern regex failure pattern) ?_
  rintro result ⟨_, hattempt⟩
  cases hattempt with
  | ok n hcompiles =>
    refine (agrees_trackPattern n cs hcs).mono (fun granted out hfollows _ => ?_)
    rw [kept, if_neg hcompiles]
    exact hfollows
  | rejected hrejected =>
    refine Yields.pure (fun granted _ => .fail _ cs ?_)
    rw [kept, if_pos hrejected]
  | noMemory _ =>
    refine Yields.pure (fun granted hattempt => ?_)
    cases hattempt with
    | noMemory hrefused => exact .noMemory cs hrefused

theorem agrees_withPattern {failure : String} {pattern : CStr} {rest : Compiling} {e : Emit}
    (h : Agrees config rest e) :
    Agrees config (withPattern failure pattern rest) (Liboas.withPattern config failure pattern e) := by
  intro cs hcs
  unfold withPattern Liboas.withPattern
  rw [run_inspect, hcs]
  cases hbackend : backend config with
  | none => exact @agrees_pure config cs hcs
  | some regex =>
    have hkept : (if regex.compile pattern < 0 then
        .error (.pattern (regex.compile pattern) (ascii failure ++ pattern.bytes)) else e) =
        kept regex failure pattern ++ e := by
      unfold kept
      split
      · rfl
      · exact (Emit.emit_nil_append e).symm
    dsimp only
    rw [hkept]
    exact agrees_bind (agrees_keepPattern failure pattern regex) h cs hcs

/-! ## The parts of a schema -/

theorem agrees_orNull {body : Option Compiling} {e : Option Emit}
    (h : Option.Rel (Agrees config) body e) : Agrees config (orNull body) (Emit.orNull e) := by
  cases h with
  | some h => exact h
  | none => exact agrees_pure

theorem agrees_nested {head : Instr} {body : Compiling} {e : Emit} (h : Agrees config body e) :
    Agrees config (nested head body) (Emit.nested [head] e) := by
  rw [Emit.nested, Emit.append_assoc]
  exact agrees_bind (agrees_emit head) (agrees_bind h (agrees_emit .endOp))

theorem agrees_nestedOption {op : Instr} {body : Option Compiling} {e : Option Emit}
    (h : Option.Rel (Agrees config) body e) :
    Agrees config (nestedOption op body) (Emit.nestedOption op e) := by
  cases h with
  | some h => exact agrees_nested h
  | none => exact agrees_pure

theorem agrees_compileBody {body : Option Compiling} {e : Option Emit}
    (h : Option.Rel (Agrees config) body e) : Agrees config (compileBody body) (emitBody e) :=
  agrees_bind (agrees_orNull h) (agrees_emit .endOp)

section Parts

variable {α : Type} {s : Schema α} {f : α → Compiling} {g : α → Emit}

theorem rel_mapped {slot : Option α} (h : ∀ a, slot = some a → Agrees config (f a) (g a)) :
    Option.Rel (Agrees config) (slot.map f) (slot.map g) := by
  cases slot with
  | none => exact .none
  | some a => exact .some (h a rfl)

theorem agrees_bodies {slots : List (Option α)} (h : ∀ a, some a ∈ slots → Agrees config (f a) (g a)) :
    Agrees config ((slots.map (Option.map f)).forM compileBody)
      (Emit.emitEach emitBody (slots.map (Option.map g))) := by
  refine agrees_forM (List.forall₂_map_left_iff.mpr (List.forall₂_map_right_iff.mpr ?_))
  refine List.forall₂_same.mpr (fun slot hslot => agrees_compileBody (rel_mapped ?_))
  rintro a rfl
  exact h a hslot

theorem agrees_entries {es : List (Entry α)} {f' : Entry Compiling → Compiling}
    {g' : Entry Emit → Emit} (h : ∀ e ∈ es, ∀ a, e.schema = some a → Agrees config (f a) (g a))
    (heach : ∀ e : Entry α, Option.Rel (Agrees config) (e.schema.map f) (e.schema.map g) →
      Agrees config (f' (e.map f)) (g' (e.map g))) :
    Agrees config ((es.map (Entry.map f)).forM f') (Emit.emitEach g' (es.map (Entry.map g))) := by
  refine agrees_forM (List.forall₂_map_left_iff.mpr (List.forall₂_map_right_iff.mpr ?_))
  exact List.forall₂_same.mpr (fun e he => heach e (rel_mapped (h e he)))

theorem agrees_compileComposition (op : UInt16 → Instr) {slots : List (Option α)}
    (h : ∀ a, some a ∈ slots → Agrees config (f a) (g a)) :
    Agrees config (compileComposition op (slots.map (Option.map f)))
      (Liboas.compileComposition op (slots.map (Option.map g))) := by
  unfold compileComposition Liboas.compileComposition
  simp only [List.isEmpty_map, List.length_map]
  split
  · exact agrees_pure
  · exact agrees_bind (agrees_emit _) (agrees_bodies h)

theorem agrees_compileString (k : Keywords) : Agrees config (compileString config k)
    (emitString config k) := by
  have hpattern : Agrees config (emitPattern k) (Liboas.emitPattern config k) := by
    unfold emitPattern Liboas.emitPattern
    cases k.pattern with
    | none => exact agrees_pure
    | some p => exact agrees_withPattern (agrees_emit _)
  simp only [emitString, Emit.append_assoc]
  exact agrees_bind (agrees_emitOwn _) (agrees_bind (agrees_emitOwn _)
    (agrees_bind hpattern (agrees_emitOwn _)))

variable (h : s.Below (fun a => Agrees config (f a) (g a)))
include h

theorem agrees_compileArray : Agrees config (compileArray (s.map f)) (emitArray (s.map g)) := by
  have hprefix : Agrees config
      ((s.map f).prefixItems.zipIdx.forM
        fun e => nested (.enterPrefixItem e.2.toUInt16) (orNull e.1))
      (Emit.emitEach emitPrefixItem (s.map g).prefixItems.zipIdx) := by
    simp only [Schema.map, List.zipIdx_map]
    refine agrees_forM (List.forall₂_map_left_iff.mpr (List.forall₂_map_right_iff.mpr ?_))
    refine List.forall₂_same.mpr (fun e he => agrees_nested (agrees_orNull (rel_mapped ?_)))
    intro a ha
    refine h.prefixItems a ?_
    rw [← ha]
    exact List.mem_of_getElem? (List.mem_zipIdx_iff_getElem?.mp he)
  simp only [emitArray, Emit.append_assoc]
  exact agrees_bind (agrees_emitOwn _) (agrees_bind (agrees_emitOwn _) (agrees_bind (agrees_emitOwn _)
    (agrees_bind hprefix (agrees_nestedOption (rel_mapped h.items)))))

theorem agrees_compileObject :
    Agrees config (compileObject (s.map f)) (emitObject config (s.map g)) := by
  have hpattern : ∀ e : Entry α, Option.Rel (Agrees config) (e.schema.map f) (e.schema.map g) →
      Agrees config (compilePatternProperty (e.map f)) (emitPatternProperty config (e.map g)) := by
    intro e he
    unfold compilePatternProperty emitPatternProperty
    simp only [Entry.map_schema, Entry.map_name]
    cases hslot : e.schema with
    | none => exact agrees_pure
    | some a =>
      rw [hslot] at he
      cases he with
      | some hbody => exact agrees_withPattern (agrees_nested hbody)
  simp only [emitObject, Emit.append_assoc]
  exact agrees_bind (agrees_emitMany _) (agrees_bind (agrees_entries h.properties
    (fun e he => agrees_nested (agrees_orNull he)))
    (agrees_bind (agrees_nestedOption (rel_mapped h.additionalProperties))
    (agrees_bind (agrees_emitOwn _) (agrees_bind (agrees_emitOwn _)
    (agrees_bind (agrees_nestedOption (rel_mapped h.propertyNames))
    (agrees_bind (agrees_entries h.patternProperties hpattern)
    (agrees_bind (agrees_emitOwn _)
    (agrees_entries h.dependentSchemas (fun e he => agrees_nestedOption he)))))))))

theorem agrees_compileContains :
    Agrees config (compileContains (s.map f)) (emitContains (s.map g)) := by
  unfold compileContains emitContains
  have hcontains := rel_mapped h.contains
  simp only [Schema.map] at hcontains ⊢
  cases hslot : s.contains with
  | none => exact agrees_pure
  | some a =>
    simp only [Option.map_some, Emit.nested, Emit.append_assoc]
    exact agrees_bind (agrees_emitMany _) (agrees_bind (h.contains a hslot) (agrees_emit .endOp))

theorem agrees_compileCompositions :
    Agrees config (compileCompositions (s.map f)) (emitComposition (s.map g)) := by
  refine agrees_bind (agrees_compileComposition _ h.allOf) ?_
  have hbranches : ∀ a, some a ∈ discriminatorBranches s → Agrees config (f a) (g a) := by
    intro a ha
    unfold discriminatorBranches at ha
    split at ha
    · exact h.anyOf a ha
    · exact h.oneOf a ha
  have hothers := agrees_bind (agrees_compileComposition .branchAnyOf h.anyOf)
    (agrees_compileComposition .branchOneOf h.oneOf)
  unfold compileChoice
  simp only [Schema.map_toKeywords]
  cases s.discriminatorProperty with
  | none => exact hothers
  | some property =>
    cases hasDiscriminator s.toKeywords with
    | false => exact hothers
    | true =>
      simp only [compileDiscriminator, emitDiscriminator, discriminatorBranches_map,
        List.isEmpty_map, List.length_map, Schema.map_toKeywords]
      split
      · exact agrees_bind (agrees_emitMany _) (agrees_bodies hbranches)
      · exact agrees_pure

theorem agrees_compileConditional :
    Agrees config (compileConditional (s.map f)) (emitConditional (s.map g)) := by
  unfold compileConditional emitConditional
  simp only [Schema.map, Option.isSome_map, Emit.append_assoc]
  split
  · exact agrees_bind (agrees_nestedOption (rel_mapped h.ifSchema))
      (agrees_bind (agrees_nestedOption (rel_mapped h.thenSchema))
        (agrees_nestedOption (rel_mapped h.elseSchema)))
  · exact agrees_pure

theorem agrees_compileKeywords :
    Agrees config (compileKeywords config (s.map f)) (Liboas.compileKeywords config (s.map g)) := by
  simp only [Liboas.compileKeywords, Emit.append_assoc]
  refine agrees_bind (agrees_emitOwn _) ?_
  refine agrees_bind (agrees_compileString _) ?_
  refine agrees_bind (agrees_emitOwn _) ?_
  refine agrees_bind (agrees_compileArray h) ?_
  refine agrees_bind (agrees_compileObject h) ?_
  refine agrees_bind (agrees_compileContains h) ?_
  refine agrees_bind (agrees_compileCompositions h) ?_
  refine agrees_bind (agrees_nestedOption (rel_mapped h.notSchema)) ?_
  refine agrees_bind (agrees_compileConditional h) ?_
  exact agrees_bind (agrees_emitOwn _) (agrees_emitOwn _)

theorem agrees_compileNode (href : ∀ a, s.refResolved = some a → Agrees config (f a) (g a)) :
    Agrees config (compileNode config (s.map f)) (Liboas.compileNode config (s.map g)) := by
  have hmap : ∀ {β : Type} (h : α → β), (s.map h).refResolved = s.refResolved.map h := fun h => rfl
  unfold compileNode Liboas.compileNode
  rw [hmap, hmap]
  cases hresolved : s.refResolved with
  | some target => exact href target hresolved
  | none =>
    cases hname : s.ref with
    | some name =>
      have hsome : ∀ {β : Type} (h : α → β), (s.map h).ref.isSome = true :=
        fun h => congrArg Option.isSome hname
      dsimp only [Option.map_none]
      rw [if_pos (hsome f), if_pos (hsome g)]
      exact agrees_throw _
    | none =>
      have hnone : ∀ {β : Type} (h : α → β), ¬ (s.map h).ref.isSome = true := by
        intro β h hsome
        have hsome' : s.ref.isSome = true := hsome
        rw [hname] at hsome'
        cases hsome'
      dsimp only [Option.map_none]
      rw [if_neg (hnone f), if_neg (hnone g)]
      exact agrees_compileKeywords h

end Parts

/-- By induction on the nesting of the calls. -/
theorem agrees_compileSchema {α : Type} (mem : Memory α) (depth : Nat) (a : α) :
    Agrees config (compileSchema mem config depth a) (Liboas.compileSchema mem config depth a) := by
  induction depth generalizing a with
  | zero => exact agrees_throw _
  | succ depth ih =>
    obtain ⟨hbelow, href⟩ := Schema.children_iff.mp (fun b (_ : b ∈ (mem a).children) => ih b)
    exact agrees_compileNode hbelow href

end Compiling

/-! ## Whole schemas -/

theorem yields_forM {β : Type} {f : β → Custody Resource PUnit} (l : List β)
    (h : ∀ b ∈ l, Yields (f b) (fun _ _ => True)) : Yields (l.forM f) (fun _ _ => True) := by
  induction l with
  | nil => exact Yields.pure (fun _ => trivial)
  | cons b l ih =>
    refine Yields.bind (h b List.mem_cons_self) (fun _ _ => ?_)
    exact (ih (fun c hc => h c (List.mem_cons_of_mem b hc))).mono (fun _ _ h _ => h)

theorem yields_destroy (cs : SchemaObject) : Yields cs.destroy (fun _ _ => True) := by
  have hblocks : Yields (do free cs.patterns.block; free cs.program.block; free (some cs.self))
      (fun _ _ => True) :=
    Yields.bind (yields_free _) (fun _ _ => Yields.bind (yields_free _) (fun _ _ =>
      (yields_free _).mono (fun _ _ _ _ _ => trivial)))
  unfold SchemaObject.destroy
  split
  · exact Yields.bind (yields_forM _ (fun n _ => Compiling.yields_freePattern n))
      (fun _ _ => hblocks.mono (fun _ _ h _ => h))
  · exact hblocks

/-- How a compilation ends that is to give `expected`. -/
inductive Gives (expected : Except CompileFail CompiledSchema) (granted : Nat → Bool) :
    Except Stop SchemaObject → Prop where
  | ok (cs : SchemaObject) : expected = .ok cs.compiled → Gives expected granted (.ok cs)
  | fail (f : CompileFail) : expected = .error f → Gives expected granted (.error (.fail f))
  | noMemory : (∃ k, granted k = false) → Gives expected granted (.error .noMemory)

theorem yields_storedSchemaCompile {α : Type} (mem : Memory α) (config : Option CompilerConfig)
    (depth : Nat) (schema : Option α) :
    Yields (storedSchemaCompile mem config depth schema)
      (Gives (oasSchemaCompile mem config depth schema)) := by
  cases schema with
  | none => exact Yields.pure (fun _ => .fail _ rfl)
  | some a =>
    refine Yields.bind yields_malloc ?_
    rintro (_ | self) -
    · exact Yields.pure (fun _ hrefused => .noMemory (hrefused rfl))
    · have hagrees : Compiling.Agrees config (do
          Compiling.compileSchema mem config depth a
          Compiling.oasProgramEmit .endOp) (compileSchema mem config depth a ++ Emit.emit [.endOp]) :=
        Compiling.agrees_bind (Compiling.agrees_compileSchema mem depth a) (Compiling.agrees_emit _)
      refine Yields.bind (hagrees ⟨self, .empty, backend config, .empty⟩ rfl) ?_
      have hcompile : oasSchemaCompile mem config depth (some a) =
          (compileSchema mem config depth a ++ Emit.emit [.endOp]).map (fun c => ⟨c, backend config⟩) := by
        dsimp only [oasSchemaCompile]
        cases compileSchema mem config depth a <;> rfl
      rintro ⟨result, cs⟩ ⟨_, hfollows⟩
      cases result with
      | ok _ =>
        refine Yields.pure (fun granted hfollows _ => ?_)
        cases hfollows with
        | ok code _ hcode hitems hregex =>
          refine .ok cs ?_
          rw [hcompile, hcode, SchemaObject.compiled, hitems, hregex]
          rfl
      | error stop =>
        refine Yields.bind (yields_destroy cs) (fun _ _ => Yields.pure (fun granted _ hfollows _ => ?_))
        cases hfollows with
        | fail f _ hf =>
          refine .fail f ?_
          rw [hcompile, hf]
          rfl
        | noMemory _ hrefused => exact .noMemory hrefused

end Liboas
