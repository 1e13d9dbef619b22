import Liboas.Compiler.Storage
import Mathlib.Algebra.Order.Group.Multiset
import Mathlib.Tactic.Abel

/-!
# The compiler loses nothing and frees nothing twice

Whatever allocations fail, a compiled schema owns its blocks and the patterns that it lists, and
gives back each of them once, while the backend is there.
-/

namespace Liboas

open Ownership

/-! ## Blocks -/

/-- The block that a pointer owns. -/
def blockOf (block : Option Nat) : Multiset Resource := block.elim 0 (fun n => {.block n})

section Blocks

variable {pre : Multiset Resource}

theorem triple_malloc : Triple pre malloc (fun block owned => owned = blockOf block + pre) := by
  refine Triple.bind Triple.request ?_
  rintro (_ | n) owned rfl
  · exact Triple.pure (Multiset.zero_add _).symm
  · refine Triple.bind (Triple.acquire _) ?_
    rintro _ _ rfl
    exact Triple.pure rfl

theorem triple_free (block : Option Nat) :
    Triple (blockOf block + pre) (free block) (fun _ owned => owned = pre) := by
  cases block with
  | none => exact Triple.pure (Multiset.zero_add _)
  | some n => exact Triple.release _

theorem triple_realloc (block : Option Nat) : Triple (blockOf block + pre) (realloc block)
    (fun moved owned => owned = blockOf (moved <|> block) + pre) := by
  refine Triple.bind Triple.request ?_
  rintro (_ | n) owned rfl
  · exact Triple.pure rfl
  · refine Triple.bind (triple_free block) ?_
    rintro _ _ rfl
    refine Triple.bind (Triple.acquire _) ?_
    rintro _ _ rfl
    exact Triple.pure rfl

end Blocks

namespace Growable

variable {β : Type}

/-- The items are within the block. -/
structure Fits (a : Growable β) : Prop where
  room : a.items.length ≤ a.capacity
  held : a.capacity ≠ 0 → a.block.isSome = true

theorem fits_empty : (empty : Growable β).Fits := ⟨Nat.le_refl 0, fun h => absurd rfl h⟩

theorem Fits.isSome {a : Growable β} (h : a.Fits) (hne : a.items ≠ []) : a.block.isSome = true := by
  refine h.held (fun hzero => hne ?_)
  have hroom := h.room
  rw [hzero] at hroom
  exact List.length_eq_zero_iff.mp (Nat.le_zero.mp hroom)

/-- What a push leaves. -/
structure Pushed (a : Growable β) (x : β) (out : Bool × Growable β) : Prop where
  fits : out.2.Fits
  pushed : out.1 = true → out.2.items = a.items ++ [x]
  refused : out.1 = false → out.2 = a

theorem triple_push {pre : Multiset Resource} {initial : Nat} (hinitial : initial ≠ 0)
    {a : Growable β} (ha : a.Fits) (x : β) :
    Triple (blockOf a.block + pre) (a.push initial x)
      (fun out owned => owned = blockOf out.2.block + pre ∧ Pushed a x out) := by
  unfold push
  split
  · rename_i hfull
    refine Triple.bind (triple_realloc a.block) ?_
    rintro (_ | n) owned rfl
    · exact Triple.pure ⟨rfl, ha, nofun, fun _ => rfl⟩
    · refine Triple.pure ⟨rfl, ⟨?_, fun _ => rfl⟩, fun _ => rfl, nofun⟩
      have hroom := ha.room
      dsimp only
      rw [List.length_append, List.length_singleton]
      split <;> omega
  · rename_i hroom
    refine Triple.pure ⟨rfl, ⟨?_, ha.held⟩, fun _ => rfl, nofun⟩
    dsimp only
    rw [List.length_append, List.length_singleton]
    omega

end Growable

/-! ## Patterns -/

/-- The backend, while it is lent out. -/
def lent (regex : Option Regex) : Multiset Resource := if regex.isSome then {.backend} else 0

/-- What the handles in a list stand for. -/
def patternsOf (handles : List Nat) : Multiset Resource := (handles.map Resource.pattern : List Resource)

theorem patternsOf_append (x y : List Nat) : patternsOf (x ++ y) = patternsOf x + patternsOf y := by
  rw [patternsOf, List.map_append, ← Multiset.coe_add]
  rfl

section Patterns

variable {pre : Multiset Resource}

theorem triple_compilePattern (regex : Regex) (failure : String) (pattern : CStr)
    (hbackend : Resource.backend ∈ pre) : Triple pre (compilePattern regex failure pattern)
      (fun out owned => owned = patternsOf out.toOption.toList + pre) := by
  have hnone : ∀ e : Stop, patternsOf (Except.error e : Except Stop Nat).toOption.toList + pre = pre :=
    fun _ => Multiset.zero_add _
  refine Triple.bind (Triple.touch hbackend) ?_
  rintro _ _ rfl
  split
  · exact Triple.pure (hnone _).symm
  · refine Triple.bind Triple.request ?_
    rintro (_ | n) _ rfl
    · exact Triple.pure (hnone _).symm
    · refine Triple.bind (Triple.acquire _) ?_
      rintro _ _ rfl
      exact Triple.pure rfl

theorem triple_freePattern (n : Nat) (hbackend : Resource.backend ∈ pre) :
    Triple (patternsOf [n] + pre) (freePattern n) (fun _ owned => owned = pre) := by
  refine Triple.bind (Triple.touch (Multiset.mem_add.mpr (.inr hbackend))) ?_
  rintro _ _ rfl
  exact Triple.release _

theorem triple_freePatterns (handles : List Nat) (hbackend : handles ≠ [] → Resource.backend ∈ pre) :
    Triple (patternsOf handles + pre) (handles.forM freePattern) (fun _ owned => owned = pre) := by
  induction handles with
  | nil => exact Triple.pure (Multiset.zero_add _)
  | cons n handles ih =>
    have hmem := hbackend (by simp)
    rw [show n :: handles = [n] ++ handles from rfl, patternsOf_append, Multiset.add_assoc]
    refine Triple.bind (triple_freePattern n (Multiset.mem_add.mpr (.inr hmem))) ?_
    rintro _ _ rfl
    exact ih (fun _ => hmem)

end Patterns

/-! ## Compiled schemas -/

namespace SchemaObject

def owned (cs : SchemaObject) : Multiset Resource :=
  blockOf cs.program.block + (patternsOf cs.patterns.items + (blockOf cs.patterns.block +
    blockOf (some cs.self)))

/-- The object, and the backend that it works with. -/
def working (cs : SchemaObject) : Multiset Resource := lent cs.regex + cs.owned

structure Valid (regex : Option Regex) (cs : SchemaObject) : Prop where
  sameRegex : cs.regex = regex
  program : cs.program.Fits
  patterns : cs.patterns.Fits
  backend : cs.patterns.items ≠ [] → regex.isSome = true

theorem backend_mem {cs : SchemaObject} {regex : Regex} (h : cs.regex = some regex) :
    Resource.backend ∈ cs.working := by
  rw [working, lent, h]
  exact Multiset.mem_add.mpr (.inl (Multiset.mem_singleton_self _))

end SchemaObject

namespace Compiling

open SchemaObject

variable {regex : Option Regex}

/-- Whatever the result, the object is valid and owns what it lists. -/
abbrev Safe (regex : Option Regex) (m : Compiling) : Prop := Keeps working (Valid regex) m

theorem safe_emit (i : Instr) : Safe regex (oasProgramEmit i) := by
  refine Keeps.step (fun cs hcs => ?_)
  have hpre : cs.working = blockOf cs.program.block + (lent cs.regex + (patternsOf cs.patterns.items +
      (blockOf cs.patterns.block + blockOf (some cs.self)))) := by
    rw [working, owned]
    abel
  rw [hpre]
  refine Triple.bind (Growable.triple_push (by decide) hcs.program i) ?_
  rintro ⟨emitted, program⟩ _ ⟨rfl, hpushed⟩
  refine Triple.pure ⟨?_, { hcs with program := hpushed.fits }⟩
  rw [working, owned]
  dsimp only
  abel

theorem safe_trackPattern {r : Regex} (n : Nat) (cs : SchemaObject) (hcs : cs.Valid (some r)) :
    Triple (patternsOf [n] + cs.working) ((trackPattern n).run.run cs)
      (fun out owned => owned = out.2.working ∧ out.2.Valid (some r)) := by
  have hpre : patternsOf [n] + cs.working = blockOf cs.patterns.block + (patternsOf [n] +
      (lent cs.regex + (blockOf cs.program.block + (patternsOf cs.patterns.items +
        blockOf (some cs.self))))) := by
    rw [working, owned]
    abel
  rw [hpre]
  refine Triple.bind (Growable.triple_push (by decide) hcs.patterns n) ?_
  rintro ⟨tracked, patterns⟩ _ ⟨rfl, hpushed⟩
  cases tracked with
  | true =>
    refine Triple.pure ⟨?_, { hcs with patterns := hpushed.fits, backend := fun _ => rfl }⟩
    rw [working, owned]
    dsimp only
    rw [hpushed.pushed rfl, patternsOf_append]
    abel
  | false =>
    have hsame := hpushed.refused rfl
    dsimp only at hsame
    rw [hsame, ← hpre]
    refine Triple.bind (triple_freePattern n (backend_mem hcs.sameRegex)) ?_
    rintro _ _ rfl
    exact Triple.pure ⟨rfl, hcs⟩

theorem safe_keepPattern (failure : String) (pattern : CStr) (r : Regex) :
    Safe (some r) (withPattern.keepPattern failure pattern r) := by
  refine Keeps.step (fun cs hcs => ?_)
  refine Triple.bind (triple_compilePattern r failure pattern (backend_mem hcs.sameRegex)) ?_
  rintro (e | n) _ rfl
  · exact Triple.pure ⟨Multiset.zero_add _, hcs⟩
  · exact safe_trackPattern n cs hcs

theorem safe_withPattern {failure : String} {pattern : CStr} {rest : Compiling}
    (h : Safe regex rest) : Safe regex (withPattern failure pattern rest) := by
  refine Keeps.inspect (fun cs hcs => ?_)
  cases hregex : cs.regex with
  | none => exact Keeps.pure _
  | some r =>
    have hsame : regex = some r := hcs.sameRegex.symm.trans hregex
    subst hsame
    exact Keeps.bind (safe_keepPattern failure pattern r) (fun _ => h)

theorem safe_emitMany (code : List Instr) : Safe regex (emitMany code) :=
  Keeps.forM code (fun i _ => safe_emit i)

theorem safe_emitOwn (code : Emit) : Safe regex (emitOwn code) := by
  cases code with
  | ok code => exact safe_emitMany code
  | error fail => exact Keeps.throw _

theorem safe_nested {head : Instr} {body : Compiling} (h : Safe regex body) :
    Safe regex (nested head body) :=
  Keeps.bind (safe_emit _) (fun _ => Keeps.bind h (fun _ => safe_emit _))

theorem safe_orNull {body : Option Compiling} (h : ∀ m, body = some m → Safe regex m) :
    Safe regex (orNull body) := by
  cases body with
  | none => exact Keeps.pure _
  | some m => exact h m rfl

theorem safe_nestedOption {op : Instr} {body : Option Compiling}
    (h : ∀ m, body = some m → Safe regex m) : Safe regex (nestedOption op body) := by
  cases body with
  | none => exact Keeps.pure _
  | some m => exact safe_nested (h m rfl)

theorem safe_compileBody {body : Option Compiling} (h : ∀ m, body = some m → Safe regex m) :
    Safe regex (compileBody body) :=
  Keeps.bind (safe_orNull h) (fun _ => safe_emit _)

theorem safe_compileComposition {op : UInt16 → Instr} {schemas : List (Option Compiling)}
    (h : ∀ m, some m ∈ schemas → Safe regex m) : Safe regex (compileComposition op schemas) := by
  unfold compileComposition
  split
  · exact Keeps.pure _
  · refine Keeps.bind (safe_emit _) (fun _ => Keeps.forM schemas (fun slot hslot => ?_))
    exact safe_compileBody (fun m hm => h m (hm ▸ hslot))

section Parts

variable {config : Option CompilerConfig} {s : Schema Compiling}

theorem safe_compileString (k : Keywords) : Safe regex (compileString config k) := by
  have hpattern : Safe regex (emitPattern k) := by
    unfold emitPattern
    split
    · exact Keeps.pure _
    · exact safe_withPattern (safe_emit _)
  exact Keeps.bind (safe_emitOwn _) (fun _ => Keeps.bind (safe_emitOwn _) (fun _ =>
    Keeps.bind hpattern (fun _ => safe_emitOwn _)))

theorem safe_compileArray (h : s.Below (Safe regex)) : Safe regex (compileArray s) := by
  have hprefix : ∀ e ∈ s.prefixItems.zipIdx,
      Safe regex (nested (.enterPrefixItem e.2.toUInt16) (orNull e.1)) := by
    intro e he
    refine safe_nested (safe_orNull (fun m hm => h.prefixItems m ?_))
    rw [← hm]
    exact List.mem_of_getElem? (List.mem_zipIdx_iff_getElem?.mp he)
  refine Keeps.bind (safe_emitOwn _) (fun _ => ?_)
  refine Keeps.bind (safe_emitOwn _) (fun _ => ?_)
  refine Keeps.bind (safe_emitOwn _) (fun _ => ?_)
  exact Keeps.bind (Keeps.forM _ hprefix) (fun _ => safe_nestedOption h.items)

theorem safe_compileObject (h : s.Below (Safe regex)) : Safe regex (compileObject s) := by
  have hpattern : ∀ e ∈ s.patternProperties, Safe regex (compilePatternProperty e) := by
    intro e he
    unfold compilePatternProperty
    split
    · exact Keeps.pure _
    · rename_i body hbody
      exact safe_withPattern (safe_nested (h.patternProperties e he body hbody))
  refine Keeps.bind (safe_emitMany _) (fun _ => ?_)
  refine Keeps.bind (Keeps.forM _ (fun e he => safe_nested (safe_orNull (h.properties e he))))
    (fun _ => ?_)
  refine Keeps.bind (safe_nestedOption h.additionalProperties) (fun _ => ?_)
  refine Keeps.bind (safe_emitOwn _) (fun _ => ?_)
  refine Keeps.bind (safe_emitOwn _) (fun _ => ?_)
  refine Keeps.bind (safe_nestedOption h.propertyNames) (fun _ => ?_)
  refine Keeps.bind (Keeps.forM _ hpattern) (fun _ => ?_)
  refine Keeps.bind (safe_emitOwn _) (fun _ => ?_)
  exact Keeps.forM _ (fun e he => safe_nestedOption (h.dependentSchemas e he))

theorem safe_compileContains (h : s.Below (Safe regex)) : Safe regex (compileContains s) := by
  unfold compileContains
  split
  · exact Keeps.pure _
  · rename_i body hbody
    exact Keeps.bind (safe_emitMany _) (fun _ => Keeps.bind (h.contains body hbody)
      (fun _ => safe_emit _))

theorem safe_compileChoice (h : s.Below (Safe regex)) : Safe regex (compileChoice s) := by
  have hbranches : ∀ m, some m ∈ discriminatorBranches s → Safe regex m := by
    intro m hm
    unfold discriminatorBranches at hm
    split at hm
    · exact h.anyOf m hm
    · exact h.oneOf m hm
  unfold compileChoice
  split
  · unfold compileDiscriminator
    dsimp only
    split
    · refine Keeps.bind (safe_emitMany _) (fun _ => Keeps.forM _ (fun slot hslot => ?_))
      exact safe_compileBody (fun m hm => hbranches m (hm ▸ hslot))
    · exact Keeps.pure _
  · exact Keeps.bind (safe_compileComposition h.anyOf) (fun _ => safe_compileComposition h.oneOf)

theorem safe_compileCompositions (h : s.Below (Safe regex)) : Safe regex (compileCompositions s) :=
  Keeps.bind (safe_compileComposition h.allOf) (fun _ => safe_compileChoice h)

theorem safe_compileConditional (h : s.Below (Safe regex)) : Safe regex (compileConditional s) := by
  unfold compileConditional
  split
  · exact Keeps.bind (safe_nestedOption h.ifSchema) (fun _ =>
      Keeps.bind (safe_nestedOption h.thenSchema) (fun _ => safe_nestedOption h.elseSchema))
  · exact Keeps.pure _

theorem safe_compileKeywords (h : s.Below (Safe regex)) : Safe regex (compileKeywords config s) := by
  refine Keeps.bind (safe_emitOwn _) (fun _ => ?_)
  refine Keeps.bind (safe_compileString _) (fun _ => ?_)
  refine Keeps.bind (safe_emitOwn _) (fun _ => ?_)
  refine Keeps.bind (safe_compileArray h) (fun _ => ?_)
  refine Keeps.bind (safe_compileObject h) (fun _ => ?_)
  refine Keeps.bind (safe_compileContains h) (fun _ => ?_)
  refine Keeps.bind (safe_compileCompositions h) (fun _ => ?_)
  refine Keeps.bind (safe_nestedOption h.notSchema) (fun _ => ?_)
  refine Keeps.bind (safe_compileConditional h) (fun _ => ?_)
  exact Keeps.bind (safe_emitOwn _) (fun _ => safe_emitOwn _)

end Parts

/-- By induction on the nesting of the calls. -/
theorem safe_compileSchema {α : Type} (mem : Memory α) (config : Option CompilerConfig) (depth : Nat)
    (a : α) : Safe regex (compileSchema mem config depth a) := by
  induction depth generalizing a with
  | zero => exact Keeps.throw _
  | succ depth ih =>
    have hchildren : ∀ m ∈ ((mem a).map (compileSchema mem config depth)).children,
        Safe regex m := by
      rw [Schema.children_map]
      exact List.forall_mem_map.mpr (fun b _ => ih b)
    obtain ⟨hbelow, href⟩ := Schema.children_iff.mp hchildren
    unfold compileSchema compileNode
    split
    · rename_i target htarget
      exact href target htarget
    · split
      · exact Keeps.throw _
      · exact safe_compileKeywords hbelow

end Compiling

/-! ## Whole schemas -/

section Whole

open SchemaObject

variable {pre : Multiset Resource} {regex : Option Regex}

theorem lent_mem (hregex : regex.isSome = true) : Resource.backend ∈ lent regex := by
  rw [lent, hregex]
  exact Multiset.mem_singleton_self _

/-- Everything that a compiled schema owns is given back, while the backend is there. -/
theorem triple_destroy {cs : SchemaObject} (hcs : cs.Valid regex) :
    Triple (cs.owned + (lent regex + pre)) cs.destroy (fun _ owned => owned = lent regex + pre) := by
  have hpre : cs.owned + (lent regex + pre) = patternsOf cs.patterns.items +
      (blockOf cs.patterns.block + (blockOf cs.program.block + (blockOf (some cs.self) +
        (lent regex + pre)))) := by
    rw [owned]
    abel
  have hblocks : Triple (blockOf cs.patterns.block + (blockOf cs.program.block +
      (blockOf (some cs.self) + (lent regex + pre))))
      (do free cs.patterns.block; free cs.program.block; free (some cs.self))
      (fun _ owned => owned = lent regex + pre) := by
    refine Triple.bind (triple_free _) ?_
    rintro _ _ rfl
    refine Triple.bind (triple_free _) ?_
    rintro _ _ rfl
    exact triple_free _
  rw [hpre]
  unfold destroy
  split
  · refine Triple.bind (triple_freePatterns _ (fun hne => ?_)) ?_
    · have hbackend := lent_mem (hcs.backend hne)
      simp only [Multiset.mem_add]
      exact .inr (.inr (.inr (.inl hbackend)))
    · rintro _ _ rfl
      exact hblocks
  · rename_i hnot
    have hnil : cs.patterns.items = [] := by
      by_contra hne
      refine hnot ?_
      rw [hcs.sameRegex, hcs.backend hne, hcs.patterns.isSome hne]
      rfl
    rw [hnil]
    exact (Multiset.zero_add _).symm ▸ hblocks

/-- What a result owns. -/
def ownedBy (result : Except Stop SchemaObject) : Multiset Resource :=
  result.toOption.elim 0 SchemaObject.owned

/-- `oas_schema_compile` leaves what its result owns, and nothing when it fails. -/
theorem triple_storedSchemaCompile {α : Type} (mem : Memory α) (config : Option CompilerConfig)
    (depth : Nat) (schema : Option α) :
    Triple (lent (backend config) + pre) (storedSchemaCompile mem config depth schema)
      (fun result owned => owned = ownedBy result + (lent (backend config) + pre) ∧
        ∀ cs, result = .ok cs → cs.Valid (backend config)) := by
  have hfailed : ∀ e : Stop, lent (backend config) + pre =
      ownedBy (.error e) + (lent (backend config) + pre) := fun _ => (Multiset.zero_add _).symm
  cases schema with
  | none => exact Triple.pure ⟨hfailed _, nofun⟩
  | some a =>
    refine Triple.bind triple_malloc ?_
    rintro (_ | self) _ rfl
    · exact Triple.pure ⟨by rw [← hfailed]; exact Multiset.zero_add _, nofun⟩
    · have hvalid : Valid (backend config) ⟨self, .empty, backend config, .empty⟩ :=
        ⟨rfl, Growable.fits_empty, Growable.fits_empty, fun h => absurd rfl h⟩
      have hpre : blockOf (some self) + (lent (backend config) + pre) =
          working ⟨self, .empty, backend config, .empty⟩ + pre := by
        rw [working, owned]
        show _ = lent (backend config) + (0 + (0 + (0 + blockOf (some self)))) + pre
        abel
      have hsafe : Compiling.Safe (backend config) (do
          Compiling.compileSchema mem config depth a
          Compiling.oasProgramEmit .endOp) :=
        Keeps.bind (Compiling.safe_compileSchema mem config depth a) (fun _ => Compiling.safe_emit _)
      rw [hpre]
      refine Triple.bind ((hsafe _ hvalid).frame pre) ?_
      rintro ⟨result, cs⟩ _ ⟨_, ⟨rfl, hcs⟩, rfl⟩
      have hback : cs.working + pre = cs.owned + (lent (backend config) + pre) := by
        rw [working, hcs.sameRegex]
        abel
      dsimp only at hcs ⊢
      rw [hback]
      cases result with
      | ok _ => 
        refine Triple.pure ⟨rfl, ?_⟩
        rintro _ ⟨⟩
        exact hcs
      | error e =>
        refine Triple.bind (triple_destroy hcs) ?_
        rintro _ _ rfl
        exact Triple.pure ⟨hfailed e, nofun⟩

end Whole

end Liboas
