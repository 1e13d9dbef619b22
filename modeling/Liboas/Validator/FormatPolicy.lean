import Liboas.Compiler.FormatChecks
import Liboas.Formats.DateTime
import Liboas.Validator.Asserted
import Liboas.Validator.Linked
import Mathlib.Data.List.Chain

/-!
# The format policy

With `OAS_FORMAT_WARN` the compiler emits the same CHECK_FORMAT as with `OAS_FORMAT_ENFORCE`. A
program runs as it does without its format checks as long as no format is refused.
-/

namespace Liboas

open Outcome Brackets Emit Machine

/-! ## THEN and ELSE stand behind an END -/

def Joins (i j : Instr) : Prop := isThen j = true ∨ isElse j = true → i = .endOp

/-- Each THEN and ELSE is behind an END, also if the code is put behind other code. -/
structure Joined (code : List Instr) : Prop where
  chain : List.IsChain Joins code
  lead : NoPart code

section Joined

variable {x y code head body : List Instr} {i : Instr}

theorem joins_noPart (hy : NoPart y) : ∀ i, ∀ j ∈ y.head?, Joins i j := by
  rintro i j hj (h | h)
  · rw [(hy j hj).1] at h
    cases h
  · rw [(hy j hj).2] at h
    cases h

theorem Joined.append (hx : Joined x) (hy : Joined y) : Joined (x ++ y) where
  chain := List.isChain_append.mpr ⟨hx.chain, hy.chain, fun i _ => joins_noPart hy.lead i⟩
  lead := noPart_append hx.lead hy.lead

theorem joined_all (h : ∀ i ∈ code, isThen i = false ∧ isElse i = false) : Joined code := by
  have hsuffix : ∀ {rest : List Instr}, rest <:+ code → NoPart rest := by
    intro rest hrest i hi
    exact h i (hrest.subset (List.mem_of_mem_head? hi))
  refine ⟨?_, hsuffix List.suffix_rfl⟩
  induction code with
  | nil => exact .nil
  | cons i code ih =>
    apply List.isChain_cons.mpr
    refine ⟨joins_noPart (hsuffix (List.suffix_cons i code)) i, ?_⟩
    exact ih (fun j hj => h j (List.mem_cons_of_mem i hj))
      (fun hrest => hsuffix (hrest.trans (List.suffix_cons i code)))

theorem isCheck_noPart (h : i.isCheck = true) : isThen i = false ∧ isElse i = false := by
  cases i <;> first | exact ⟨rfl, rfl⟩ | cases h

theorem joined_plain (h : PlainCode code) : Joined code := by
  induction h with
  | nil => exact joined_all (by simp)
  | @check i code hi _ ih =>
    have hone : Joined [i] := joined_all (fun j hj => List.mem_singleton.mp hj ▸ isCheck_noPart hi)
    exact Joined.append hone ih
  | dependent trigger names _ ih =>
    exact Joined.append (joined_all (by simp [isThen, isElse])) ih

theorem joined_end (hbody : Joined body) : Joined (body ++ [.endOp]) :=
  hbody.append (joined_all (by simp [isThen, isElse]))

/-- A body with its head, in itself. -/
theorem chain_nested (hhead : NestedHead head) (hbody : Joined body) :
    List.IsChain Joins (head ++ (body ++ [.endOp])) := by
  have hend := joined_end hbody
  refine List.isChain_append.mpr ⟨?_, hend.chain, fun i _ => joins_noPart hend.lead i⟩
  cases hhead with
  | single hi => exact .singleton _
  | contains min max => exact (joined_all (by simp [isThen, isElse])).chain

theorem joined_nested (hhead : NestedHead head) (hlead : NoPart head) (hbody : Joined body) :
    Joined (head ++ (body ++ [.endOp])) :=
  ⟨chain_nested hhead hbody, noPart_append hlead (joined_end hbody).lead⟩

theorem joined_branches {bodies : List (List Instr)} (hhead : BranchHead bodies.length head)
    (hbodies : ∀ body ∈ bodies, Joined body) : Joined (head ++ bodies.flatMap (· ++ [.endOp])) := by
  apply Joined.append
  · apply joined_all
    cases hhead <;> simp [isThen, isElse]
  · clear hhead
    induction bodies with
    | nil => exact joined_all (by simp)
    | cons body bodies ih =>
      rw [List.flatMap_cons]
      apply Joined.append (joined_end (hbodies body List.mem_cons_self))
      exact ih (fun b hb => hbodies b (List.mem_cons_of_mem body hb))

/-- What is put behind an END may begin with THEN or ELSE. -/
theorem Joined.append_end (hx : Joined x) (hend : x.getLast? = some .endOp)
    (hy : List.IsChain Joins y) (hyend : y = [] ∨ y.getLast? = some .endOp) :
    Joined (x ++ y) ∧ (x ++ y).getLast? = some .endOp := by
  rcases hyend with rfl | hyend
  · rw [List.append_nil]
    exact ⟨hx, hend⟩
  · refine ⟨⟨List.isChain_append.mpr ⟨hx.chain, hy, ?_⟩, ?_⟩, ?_⟩
    · intro i hi j _ _
      rw [hend] at hi
      exact (Option.some_inj.mp hi).symm
    · cases x with
      | nil => cases hend
      | cons i x => exact hx.lead
    · rw [List.getLast?_append, hyend]
      rfl

end Joined

/-! ## The code of a schema is joined -/

/-- The head of a part is no THEN or ELSE. -/
def Part.Leads {α : Type} : Part α → Prop
  | .nested head _ => Permits head NoPart
  | _ => True

section Layout

variable {α : Type} {config : Option CompilerConfig} {s : Schema α} {f : α → Emit} {p : Part α}

theorem joined_slot (hf : ∀ a, Permits (f a) Joined) (slot : Option α) :
    Permits (orNull (slot.map f)) Joined := by
  cases slot with
  | none => exact permits_emit (joined_all (by simp))
  | some a => exact hf a

theorem joined_part (hshape : p.Shape) (hleads : p.Leads) (hf : ∀ a, Permits (f a) Joined) :
    Permits (p.code f) Joined := by
  cases p with
  | plain code => exact hshape.mono (fun _ h => joined_plain h)
  | nested head slot =>
    intro code hcode
    obtain ⟨x, y, hx, hy, rfl⟩ := append_eq_ok.mp hcode
    obtain ⟨body, hbody, rfl⟩ := emitBody_ok.mp hy
    exact joined_nested (hshape x hx) (hleads x hx) (joined_slot hf slot body hbody)
  | branches head slots =>
    intro code hcode
    obtain ⟨x, y, hx, hy, rfl⟩ := append_eq_ok.mp hcode
    cases hx
    obtain ⟨bodies, hbodies, rfl⟩ := emitBodies_ok.mp hy
    have hlen : bodies.length = slots.length := by
      rw [← hbodies.length_eq, List.length_map]
    apply joined_branches (hlen ▸ hshape.2)
    intro body hbody
    obtain ⟨slot, hslot, hok⟩ := Paired.exists_left hbodies hbody
    obtain ⟨a, ha, rfl⟩ := List.mem_map.mp hslot
    exact joined_slot hf a body hok

theorem nestedPart_leads {op : Instr} (h : isThen op = false ∧ isElse op = false) {slot : Option α}
    (hp : p ∈ nestedPart op slot) : p.Leads := by
  unfold nestedPart at hp
  split at hp
  · rw [List.mem_singleton.mp hp]
    exact permits_emit (noPart_cons h.1 h.2)
  · cases hp

theorem compositionPart_leads {op : UInt16 → Instr} {schemas : List (Option α)}
    (hp : p ∈ compositionPart op schemas) : p.Leads := by
  unfold compositionPart at hp
  split at hp
  · cases hp
  · rw [List.mem_singleton.mp hp]
    exact trivial

theorem choicePart_leads (hp : p ∈ choicePart s) : p.Leads := by
  unfold choicePart at hp
  split at hp
  · split at hp
    · rw [List.mem_singleton.mp hp]
      exact trivial
    · cases hp
  · rcases List.mem_append.mp hp with hp | hp
    · exact compositionPart_leads hp
    · exact compositionPart_leads hp

theorem arrayLayout_leads (hp : p ∈ arrayLayout s) : p.Leads := by
  simp only [arrayLayout, List.mem_append, List.mem_singleton, List.mem_map] at hp
  rcases hp with (rfl | ⟨e, _, rfl⟩) | hp
  · exact trivial
  · exact permits_emit (noPart_cons rfl rfl)
  · exact nestedPart_leads ⟨rfl, rfl⟩ hp

theorem patternPropertyPart_leads {e : Entry α} (hp : p ∈ patternPropertyPart config e) :
    p.Leads := by
  unfold patternPropertyPart at hp
  split at hp
  · rw [List.mem_singleton.mp hp]
    exact permits_withPattern (joined_all (by simp)).lead (permits_emit (noPart_cons rfl rfl))
  · cases hp

theorem objectLayout_leads (hp : p ∈ objectLayout config s) : p.Leads := by
  simp only [objectLayout, List.mem_append, List.mem_singleton, List.mem_map,
    List.mem_flatMap] at hp
  rcases hp with ((((((rfl | ⟨e, _, rfl⟩) | hp) | rfl) | hp) | ⟨e, _, hp⟩) | rfl) | ⟨e, _, hp⟩
  · exact trivial
  · exact permits_emit (noPart_cons rfl rfl)
  · exact nestedPart_leads ⟨rfl, rfl⟩ hp
  · exact trivial
  · exact nestedPart_leads ⟨rfl, rfl⟩ hp
  · exact patternPropertyPart_leads hp
  · exact trivial
  · exact nestedPart_leads ⟨rfl, rfl⟩ hp

theorem containsPart_leads (hp : p ∈ containsPart s) : p.Leads := by
  unfold containsPart at hp
  split at hp
  · rw [List.mem_singleton.mp hp]
    exact permits_emit (noPart_cons rfl rfl)
  · cases hp

/-- Only the parts of `if` have THEN and ELSE for a head. -/
theorem layout_split (config : Option CompilerConfig) (s : Schema α) :
    ∃ front back, layout config s = front ++ conditionalPart s ++ back ∧
      (∀ p ∈ front, p.Leads) ∧ ∀ p ∈ back, p.Leads := by
  refine ⟨_, _, rfl, ?_, ?_⟩
  · intro p hp
    simp only [List.mem_append, List.mem_singleton] at hp
    rcases hp with ((((((rfl | hp) | hp) | hp) | hp) | hp) | hp)
    · exact trivial
    · exact arrayLayout_leads hp
    · exact objectLayout_leads hp
    · exact containsPart_leads hp
    · exact compositionPart_leads hp
    · exact choicePart_leads hp
    · exact nestedPart_leads ⟨rfl, rfl⟩ hp
  · intro p hp
    rw [List.mem_singleton.mp hp]
    exact trivial

theorem chain_nestedOption {op : Instr} (h : op.opensBody = true) (hf : ∀ a, Permits (f a) Joined)
    (slot : Option α) : Permits (nestedOption op (slot.map f))
      (fun code => List.IsChain Joins code ∧ (code = [] ∨ code.getLast? = some .endOp)) := by
  cases slot with
  | none => exact permits_emit ⟨.nil, .inl rfl⟩
  | some a =>
    intro code hcode
    obtain ⟨body, hbody, rfl⟩ := nested_ok.mp hcode
    refine ⟨chain_nested (.single h) (hf a body hbody), .inr ?_⟩
    rw [← List.append_assoc, List.getLast?_append]
    rfl

/-- THEN and ELSE are emitted behind the body of IF. -/
theorem joined_conditional (hf : ∀ a, Permits (f a) Joined) :
    Permits (emitEach (Part.code f) (conditionalPart s)) Joined := by
  rw [conditionalPart_code]
  unfold emitConditional
  cases hif : s.ifSchema with
  | none =>
    simp only [Schema.map, hif]
    exact permits_emit (joined_all (by simp))
  | some a =>
    have hsome : (s.map f).ifSchema = some (f a) := by simp [Schema.map, hif]
    rw [hsome]
    intro code hcode
    obtain ⟨xy, z, hxy, hz, rfl⟩ := append_eq_ok.mp hcode
    obtain ⟨x, y, hx, hy, rfl⟩ := append_eq_ok.mp hxy
    obtain ⟨hychain, hyend⟩ := chain_nestedOption rfl hf s.thenSchema y hy
    obtain ⟨hzchain, hzend⟩ := chain_nestedOption rfl hf s.elseSchema z hz
    obtain ⟨body, hbody, rfl⟩ := nested_ok.mp hx
    have hlead : NoPart [Instr.condIf] := noPart_cons rfl rfl
    have hjoined := joined_nested (.single rfl) hlead (hf a body hbody)
    have hend : ([Instr.condIf] ++ (body ++ [Instr.endOp])).getLast? = some Instr.endOp := by
      rw [← List.append_assoc, List.getLast?_append]
      rfl
    obtain ⟨hthen, hthenEnd⟩ := hjoined.append_end hend hychain hyend
    exact (hthen.append_end hthenEnd hzchain hzend).1

theorem joined_keywords (hf : ∀ a, Permits (f a) Joined) :
    Permits (compileKeywords config (s.map f)) Joined := by
  obtain ⟨front, back, hlayout, hfront, hback⟩ := layout_split config s
  have hparts : ∀ parts, (∀ p ∈ parts, p ∈ layout config s ∧ p.Leads) →
      Permits (emitEach (Part.code f) parts) Joined := by
    intro parts h
    apply permits_emitEach (joined_all (by simp)) (fun _ _ => Joined.append)
    exact fun p hp => joined_part (layout_shape (h p hp).1) (h p hp).2 hf
  rw [compileKeywords_eq]
  rw [hlayout] at hparts ⊢
  rw [emitEach_append, emitEach_append]
  refine permits_append (permits_append (hparts front ?_) (joined_conditional hf)
    (fun _ _ => Joined.append)) (hparts back ?_) (fun _ _ => Joined.append)
  · exact fun p hp => ⟨by simp [hp], hfront p hp⟩
  · exact fun p hp => ⟨by simp [hp], hback p hp⟩

end Layout

section Whole

variable {α : Type} {mem : Memory α} {config : Option CompilerConfig}

theorem compileSchema_joined (depth : Nat) (a : α) :
    Permits (compileSchema mem config depth a) Joined := by
  induction depth generalizing a with
  | zero => exact Permits.error
  | succ depth ih =>
    rw [compileSchema_succ]
    split
    · exact ih _
    · split
      · exact Permits.error
      · exact joined_keywords ih

theorem oasSchemaCompile_joined {depth : Nat} {schema : Option α} {compiled : CompiledSchema}
    (h : oasSchemaCompile mem config depth schema = .ok compiled) : Joined compiled.program := by
  cases schema with
  | none => cases h
  | some a =>
    obtain ⟨code, hcode, h⟩ := bind_eq_ok.mp h
    cases h
    exact joined_end (compileSchema_joined depth a code hcode)

end Whole

/-! ## Frames with and without the format checks -/

namespace Machine

/-- The first program may have format checks alone. The values are those with `met`. -/
def formatBond (met : Json → Prop) : Bond where
  ahead := fun x y => y = thinned x ∧ List.IsChain Joins x
  errors := fun _ _ => True
  met := met
  special := fun i => i.isFormatCheck = true

section Formats

variable {x : List Instr} {i : Instr}

theorem thinned_cons (h : i.isFormatCheck = false) : thinned (i :: x) = i :: thinned x :=
  List.filter_cons_of_pos (by simp [h])

theorem thinned_skip (h : i.isFormatCheck = true) : thinned (i :: x) = thinned x :=
  List.filter_cons_of_neg (by simp [h])

/-- No END is left out. -/
theorem noPart_thinned (hi : i.isFormatCheck = true) (h : List.IsChain Joins (i :: x)) :
    NoPart (thinned x) := by
  induction x generalizing i with
  | nil => exact noPart_nil
  | cons j x ih =>
    obtain ⟨hjoins, hrest⟩ := List.isChain_cons.mp h
    cases hj : j.isFormatCheck with
    | true =>
      rw [thinned_skip hj]
      exact ih hj hrest
    | false =>
      rw [thinned_cons hj]
      have hends : ¬ (isThen j = true ∨ isElse j = true) := by
        intro hpart
        rw [hjoins j rfl hpart] at hi
        cases hi
      simp only [not_or, Bool.not_eq_true] at hends
      exact noPart_cons hends.1 hends.2

end Formats

theorem formatBond_lawful {met : Json → Prop}
    (hitem : ∀ items, met (.arr items) → ∀ v ∈ items, met v)
    (hmember : ∀ members, met (.obj members) →
      ∀ m ∈ members, met m.2 ∧ met (.str (CStr.ofBytes m.1).bytes)) :
    (formatBond met).Lawful where
  inert i h := by
    have hi : i.isFormatCheck = true := h
    refine ⟨?_, ?_, ?_, ?_, ?_⟩
    · cases i <;> first | rfl | cases hi
    · cases i <;> first | rfl | cases hi
    · cases i <;> first | rfl | cases hi
    · cases i <;> first | rfl | cases hi
    · rintro rfl
      cases hi
  nil _ h := h.1
  uncons i x y hi h := by
    have hi : i.isFormatCheck = false := Bool.not_eq_true _ ▸ hi
    obtain ⟨rfl, hchain⟩ := h
    exact ⟨thinned x, thinned_cons hi, rfl, (List.isChain_cons.mp hchain).2⟩
  noPart i x y hi h := by
    have hi : i.isFormatCheck = true := hi
    rw [h.1, thinned_skip hi]
    exact noPart_thinned hi h.2
  skip x y d h := by
    obtain ⟨rfl, hchain⟩ := h
    refine ⟨(drop_skip_filter ?_ x d).symm, hchain.drop _⟩
    intro i hi
    cases i <;> first | rfl | cases hi
  quiet := trivial
  add _ _ _ _ := trivial
  item := hitem
  member members h m hm := (hmember members h m hm).1
  name members h m hm := (hmember members h m hm).2

section Round

variable {m : Machine} {met : Json → Prop} {f : Vm → Except Fault Vm} {vm vm' : Vm}

/-- A format check that does not change the flag goes on where the second program is. -/
theorem formatCheck_linked (hf : Follow (formatBond met) m (thinned m.code) f
      (m.on (thinned m.code)).execute)
    (h : Linked (formatBond met) m (thinned m.code) vm vm') {i : Instr}
    (hget : m.code[vm.ip]? = some i) (hi : i.isFormatCheck = true)
    (hsame : checkOp m vm.value i = none ∨ vm.valid = false) :
    Relates (m.dispatch f { vm with ip := vm.ip + 1 } i >>= f)
      ((m.on (thinned m.code)).execute vm') (Linked (formatBond met) m (thinned m.code)) := by
  obtain ⟨x, hx⟩ : ∃ x, m.code.drop vm.ip = i :: x :=
    List.head?_eq_some_iff.mp (by rw [List.head?_drop, hget])
  have hdrop : m.code.drop (vm.ip + 1) = x := drop_of_drop (x := [_]) hx
  obtain ⟨hthinned, hchain⟩ := h.ahead
  rw [hx] at hthinned hchain
  have hround : m.dispatch f { vm with ip := vm.ip + 1 } i =
      .ok ({ vm with ip := vm.ip + 1 }.check (checkOp m vm.value i)) := by
    cases i <;> first | rfl | cases hi
  rw [hround]
  apply hf
  obtain ⟨errors, hcheck⟩ := check_eq { vm with ip := vm.ip + 1 } (checkOp m vm.value i)
  have hflag : (vm.valid && (checkOp m vm.value i).isNone) = vm.valid := by
    rcases hsame with hpass | hdown
    · rw [hpass, Option.isNone_none, Bool.and_true]
    · rw [hdown, Bool.false_and]
  rw [hcheck]
  refine ⟨h.value, h.met, trivial, h.valid.trans hflag.symm, ?_, ?_⟩
  · dsimp only
    rw [hdrop, hthinned, thinned_skip hi]
  · dsimp only
    rw [hdrop]
    exact (List.isChain_cons.mp hchain).2

/-- A frame, where a format check does not change the flag. -/
theorem frame_thinned (hB : (formatBond met).Lawful) (hcode : Tokenised m.code)
    (hf : Follow (formatBond met) m (thinned m.code) f (m.on (thinned m.code)).execute)
    (h : Linked (formatBond met) m (thinned m.code) vm vm')
    (hsame : ∀ i, m.code[vm.ip]? = some i → i.isFormatCheck = true →
      checkOp m vm.value i = none ∨ vm.valid = false) :
    Relates (m.frame (fun _ => true) f vm) ((m.on (thinned m.code)).execute vm')
      (Linked (formatBond met) m (thinned m.code)) := by
  apply frame_linked hB hcode hf h
  intro i hget hi
  exact formatCheck_linked hf h hget hi (hsame i hget hi)

/-- A string is not refused by its format, or the frame has already refused the value. -/
def formatHolds (m : Machine) (vm : Vm) : Bool :=
  m.code[vm.ip]?.all (fun i => !i.isFormatCheck || (checkOp m vm.value i).isNone || !vm.valid)

theorem formatHolds_spec (h : m.formatHolds vm = true) {i : Instr} (hget : m.code[vm.ip]? = some i)
    (hi : i.isFormatCheck = true) : checkOp m vm.value i = none ∨ vm.valid = false := by
  unfold formatHolds at h
  rw [hget, Option.all_some, hi] at h
  simpa using h

/-- Frames in which no format check lowers a flag do what the frames without them do. -/
theorem guarded_linked (hcode : Tokenised m.code) (k : Nat) :
    Follow (formatBond fun _ => True) m (thinned m.code)
      (Fuel.iterate (m.guardedFrame m.formatHolds) (fun _ => .error .depth) k)
      (m.on (thinned m.code)).execute := by
  apply Fuel.iterate_keeps
    (P := fun f => Follow (formatBond fun _ => True) m (thinned m.code) f
      (m.on (thinned m.code)).execute)
  · exact fun _ _ _ => Relates.error
  · intro f hf vm vm' h
    have hB : (formatBond fun _ => True).Lawful :=
      formatBond_lawful (fun _ _ _ _ => trivial) (fun _ _ _ _ => ⟨trivial, trivial⟩)
    unfold guardedFrame
    split
    · rename_i hholds
      apply frame_thinned hB hcode hf h
      exact fun i hget hi => formatHolds_spec hholds hget hi
    · exact Relates.error

end Round

end Machine

/-! ## Verdicts -/

section Verdicts

variable {α : Type} {mem : Memory α} {c : CompilerConfig} {depth : Nat} {schema : Option α}
  {warned ignored : CompiledSchema}

/-- When no format check of the run lowers a flag, the policy that warns gives the verdict of the one
that ignores formats. -/
theorem warn_eq_ignore
    (hwarned : oasSchemaCompile mem (some (c.withPolicy .warn)) depth schema = .ok warned)
    (hignored : oasSchemaCompile mem (some (c.withPolicy .ignore)) depth schema = .ok ignored)
    (rt : Runtime) (direction : Direction) (value : Json) (errors : ErrorList) {vm : Vm}
    (hrun : (warned.machine rt direction).executeGuarded (warned.machine rt direction).formatHolds
      ⟨value, 0, errors, true⟩ = .ok vm) :
    warned.accepts rt direction value = ignored.accepts rt direction value := by
  have hthinned : ignored = ⟨thinned warned.program, warned.regex⟩ := by
    have h := @oasSchemaCompile_ignore α mem (c.withPolicy .warn) depth schema
    rw [hwarned] at h
    exact Except.ok.inj (hignored.symm.trans h)
  have hsound := oasSchemaCompile_sound hwarned
  obtain ⟨vm₁, hvm₁, haccepts₁⟩ := hsound.run rt direction value errors
  obtain ⟨vm₂, hvm₂, haccepts₂⟩ := (oasSchemaCompile_sound hignored).run rt direction value errors
  have hsame : vm = vm₁ := by
    have h := executeGuarded_below _ _ _ _ hrun
    rw [hvm₁] at h
    exact (Except.ok.inj h).symm
  have hstart : Machine.Linked (formatBond fun _ => True) (warned.machine rt direction)
      (thinned warned.program) ⟨value, 0, errors, true⟩ ⟨value, 0, errors, true⟩ :=
    ⟨rfl, trivial, trivial, rfl, rfl, (oasSchemaCompile_joined hwarned).chain⟩
  rw [hthinned] at hvm₂
  have hlinked := guarded_linked hsound.tokenised _ _ _ hstart vm vm₂ hrun hvm₂
  rw [haccepts₁, haccepts₂, ← hsame, hlinked.valid]

end Verdicts

/-- A runtime with the format `date` of the code. -/
def datingRuntime : Runtime :=
  { Runtime.knowing [] with format := fun f s => f != .date || (oasFormatDate s).getD false }

/-- `{"type": "string", "format": "date"}`. -/
def dateSchema : Memory Unit :=
  fun _ => { typeMask := typeString, format := some (.ofString "date") }

/-- A configuration without a regex backend. -/
def formatConfig : CompilerConfig := { regex := none, formatPolicy := .enforce }

/-- With the policy that warns, a text that is no date is refused. -/
theorem warn_rejects_date : ∃ warned ignored,
    oasSchemaCompile dateSchema (some (formatConfig.withPolicy .warn)) 1 (some ()) = .ok warned ∧
    oasSchemaCompile dateSchema (some (formatConfig.withPolicy .ignore)) 1 (some ()) = .ok ignored ∧
    warned.accepts datingRuntime .none (.str (ascii "x")) = false ∧
    ignored.accepts datingRuntime .none (.str (ascii "x")) = true := by
  refine ⟨_, _, rfl, rfl, ?_, ?_⟩
  · decide
  · decide

/-- A leap day. -/
theorem warn_eq_ignore_leapDay : ∃ warned ignored,
    oasSchemaCompile dateSchema (some (formatConfig.withPolicy .warn)) 1 (some ()) = .ok warned ∧
    oasSchemaCompile dateSchema (some (formatConfig.withPolicy .ignore)) 1 (some ()) = .ok ignored ∧
    warned.accepts datingRuntime .none (.str (ascii "2024-02-29")) =
      ignored.accepts datingRuntime .none (.str (ascii "2024-02-29")) := by
  refine ⟨_, _, rfl, rfl, ?_⟩
  exact @warn_eq_ignore Unit dateSchema formatConfig 1 (some ()) _ _ rfl rfl datingRuntime .none
    (.str (ascii "2024-02-29")) none ⟨_, 3, none, true⟩ (by rfl)

end Liboas
