import Liboas.Validator.Simulation

/-!
# Where bodies end

`execute` ends behind the END of a body when the body nests no composition, and so does
`skip_to_end`. A composition has an END for each branch, but is no bracket to
`is_nesting_op`: then `skip_to_end` stops too early.
-/

namespace Liboas

open Outcome Emit Schema Brackets

/-! ## Bodies in the code -/

section Bodies

variable {α : Type} (mem : Memory α) (config : Option CompilerConfig)

def Emits (a : α) (code : List Instr) : Prop :=
  ∃ depth, compileSchema mem config depth a = .ok code

def EmitsParts (parts : List (Part α)) (code : List Instr) : Prop :=
  ∃ depth, emitEach (Part.code (compileSchema mem config depth)) parts = .ok code

/-- The body of a slot, without its END. That of a null slot is empty. -/
def EmitsSlot (slot : Option α) (body : List Instr) : Prop :=
  ∃ depth, orNull (slot.map (compileSchema mem config depth)) = .ok body

def EmitsBodies (slots : List (Option α)) (code : List Instr) : Prop :=
  ∃ depth, emitEach emitBody (slots.map (Option.map (compileSchema mem config depth))) = .ok code

/-- In the code of `a`, the body of the slot stands between `pre` and an END with `rest`
behind it. -/
inductive BodyAt : α → List Instr → Option α → List Instr → Prop where
  | target {a target : α} {pre rest : List Instr} {slot : Option α} :
      (mem a).refResolved = some target → BodyAt target pre slot rest → BodyAt a pre slot rest
  | nested {a : α} {parts parts' : List (Part α)} {head : Emit} {slot : Option α}
      {x h y : List Instr} :
      (mem a).refResolved = none → layout config (mem a) = parts ++ .nested head slot :: parts' →
      EmitsParts mem config parts x → head = .ok h → EmitsParts mem config parts' y →
      BodyAt a (x ++ h) slot y
  | branch {a : α} {parts parts' : List (Part α)} {head : List Instr}
      {slots slots' : List (Option α)} {slot : Option α} {x b b' y : List Instr} :
      (mem a).refResolved = none →
      layout config (mem a) = parts ++ .branches head (slots ++ slot :: slots') :: parts' →
      EmitsParts mem config parts x → EmitsBodies mem config slots b →
      EmitsBodies mem config slots' b' → EmitsParts mem config parts' y →
      BodyAt a (x ++ head ++ b) slot (b' ++ y)
  | inside {a c : α} {pre rest pre' rest' : List Instr} {slot : Option α} :
      BodyAt a pre (some c) rest → BodyAt c pre' slot rest' →
      BodyAt a (pre ++ pre') slot (rest' ++ .endOp :: rest)

/-- The code of `y` is a body, at some depth, in the code of `a`. -/
def IsBody (a y : α) : Prop :=
  ∃ x, Compiles mem config a x ∧ (mem x).refResolved = none ∧
    (y ∈ applied config (mem x) ∨ some y ∈ composed (mem x))

end Bodies

section Split

variable {α : Type} {mem : Memory α} {config : Option CompilerConfig}

theorem slot_chain (mem : Memory α) (config : Option CompilerConfig) (slot : Option α) :
    Chain (fun depth => orNull (slot.map (compileSchema mem config depth))) := by
  intro depth
  cases slot with
  | none => exact .inr rfl
  | some a => exact compileSchema_below mem config depth a

theorem bodies_chain (mem : Memory α) (config : Option CompilerConfig) (slots : List (Option α)) :
    Chain (fun depth =>
      emitEach emitBody (slots.map (Option.map (compileSchema mem config depth)))) := by
  intro depth
  simp only [emitEach_map]
  refine Below.emitEach ?_
  intro slot _
  exact Below.append (slot_chain mem config slot depth) (.inr rfl)

/-- The code around a body. -/
theorem BodyAt.split {a : α} {pre rest code : List Instr} {slot : Option α}
    (h : BodyAt mem config a pre slot rest) (hcode : Emits mem config a code) :
    ∃ body, EmitsSlot mem config slot body ∧ code = pre ++ (body ++ .endOp :: rest) := by
  induction h generalizing code with
  | target href _ ih =>
    obtain ⟨depth, hcode⟩ := hcode
    cases depth with
    | zero => cases hcode
    | succ depth =>
      rw [compileSchema_succ, href] at hcode
      exact ih ⟨depth, hcode⟩
  | @nested a parts parts' head slot x h y href hlayout hx hhead hy =>
    obtain ⟨depth, hcode⟩ := hcode
    obtain ⟨dx, hx⟩ := hx
    obtain ⟨dy, hy⟩ := hy
    cases depth with
    | zero => cases hcode
    | succ depth =>
      rw [compileSchema_succ, href] at hcode
      dsimp only at hcode
      split at hcode
      · cases hcode
      · rw [compileKeywords_eq, hlayout, emitEach_append, append_eq_ok] at hcode
        obtain ⟨x', z, hx', hz, rfl⟩ := hcode
        obtain ⟨p, y', hp, hy', rfl⟩ := append_eq_ok.mp hz
        obtain ⟨h', q, hh', hq, rfl⟩ := append_eq_ok.mp hp
        obtain ⟨body, hbody, rfl⟩ := emitBody_ok.mp hq
        rw [hhead] at hh'
        cases hh'
        rw [← (parts_chain mem config parts).unique hx' hx,
          ← (parts_chain mem config parts').unique hy' hy]
        exact ⟨body, ⟨depth, hbody⟩, by simp⟩
  | @branch a parts parts' head slots slots' slot x b b' y href hlayout hx hb hb' hy =>
    obtain ⟨depth, hcode⟩ := hcode
    obtain ⟨dx, hx⟩ := hx
    obtain ⟨dy, hy⟩ := hy
    obtain ⟨db, hb⟩ := hb
    obtain ⟨db', hb'⟩ := hb'
    cases depth with
    | zero => cases hcode
    | succ depth =>
      rw [compileSchema_succ, href] at hcode
      dsimp only at hcode
      split at hcode
      · cases hcode
      · rw [compileKeywords_eq, hlayout, emitEach_append, append_eq_ok] at hcode
        obtain ⟨x', z, hx', hz, rfl⟩ := hcode
        obtain ⟨p, y', hp, hy', rfl⟩ := append_eq_ok.mp hz
        obtain ⟨h', q, hh', hq, rfl⟩ := append_eq_ok.mp hp
        cases hh'
        rw [List.map_append, emitEach_append, append_eq_ok] at hq
        obtain ⟨c, q', hc, hq', rfl⟩ := hq
        obtain ⟨q'', c', hq'', hc', rfl⟩ := append_eq_ok.mp hq'
        obtain ⟨body, hbody, rfl⟩ := emitBody_ok.mp hq''
        rw [← (parts_chain mem config parts).unique hx' hx,
          ← (parts_chain mem config parts').unique hy' hy,
          ← (bodies_chain mem config slots).unique hc hb,
          ← (bodies_chain mem config slots').unique hc' hb']
        exact ⟨body, ⟨depth, hbody⟩, by simp⟩
  | inside _ _ ih ih' =>
    obtain ⟨outer, houter, rfl⟩ := ih hcode
    obtain ⟨body, hbody, rfl⟩ := ih' houter
    exact ⟨body, hbody, by simp⟩

/-- The compiler goes on to a body of its own or to a branch, where there is no `$ref`. -/
theorem mem_followed {a y : α} (href : (mem a).refResolved = none) :
    y ∈ followed config (mem a) ↔ y ∈ applied config (mem a) ∨ some y ∈ composed (mem a) := by
  simp [followed, href, List.reduceOption_mem_iff]

theorem IsBody.of_compiles {a b y : α} (h : Compiles mem config a b) (hy : IsBody mem config b y) :
    IsBody mem config a y := by
  obtain ⟨x, hx, hbody⟩ := hy
  exact ⟨x, h.trans hx, hbody⟩

theorem IsBody.compiles {a y : α} (h : IsBody mem config a y) : Compiles mem config a y := by
  obtain ⟨x, hx, href, hbody⟩ := h
  exact hx.trans (.single ((mem_followed href).mpr hbody))

theorem BodyAt.isBody {a y : α} {pre rest : List Instr}
    (h : BodyAt mem config a pre (some y) rest) : IsBody mem config a y := by
  generalize hslot : some y = slot at h
  induction h generalizing y with
  | target href _ ih =>
    refine IsBody.of_compiles (.single ?_) (ih hslot)
    simp [followed, href]
  | @nested a parts parts' head slot x h z href hlayout _ _ _ =>
    subst hslot
    refine ⟨a, .refl a, href, .inl (nests_layout.mp ⟨.nested head (some y), ?_, rfl, ?_⟩)⟩
    · rw [hlayout]
      exact List.mem_append_right _ List.mem_cons_self
    · exact List.mem_cons_self
  | @branch a parts parts' head slots slots' slot x b b' z href hlayout _ _ _ _ =>
    subst hslot
    have hbranch : Branches (layout config (mem a)) (some y) := by
      refine ⟨.branches head (slots ++ some y :: slots'), ?_, rfl, ?_⟩
      · rw [hlayout]
        exact List.mem_append_right _ List.mem_cons_self
      · exact List.mem_append_right _ List.mem_cons_self
    exact ⟨a, .refl a, href, .inr (branches_layout.mp hbranch)⟩
  | inside _ _ ih ih' => exact IsBody.of_compiles (ih rfl).compiles (ih' hslot)

/-- A schema that the code goes on to from here has its body in the code. -/
theorem bodyAt_direct {a y : α} {code : List Instr} (hcode : Emits mem config a code)
    (href : (mem a).refResolved = none) (hy : y ∈ followed config (mem a)) :
    ∃ pre rest, BodyAt mem config a pre (some y) rest := by
  obtain ⟨depth, hcode⟩ := hcode
  have hpart : ∃ p ∈ layout config (mem a), some y ∈ p.slots := by
    rcases (mem_followed href).mp hy with hy | hy
    · obtain ⟨p, hp, -, hslot⟩ := nests_layout.mpr hy
      exact ⟨p, hp, hslot⟩
    · obtain ⟨p, hp, -, hslot⟩ := branches_layout.mpr hy
      exact ⟨p, hp, hslot⟩
  obtain ⟨p, hp, hslot⟩ := hpart
  obtain ⟨parts, parts', hlayout⟩ := List.append_of_mem hp
  cases depth with
  | zero => cases hcode
  | succ depth =>
    rw [compileSchema_succ, href] at hcode
    dsimp only at hcode
    split at hcode
    · cases hcode
    · rw [compileKeywords_eq, hlayout, emitEach_append, append_eq_ok] at hcode
      obtain ⟨x, z, hx, hz, rfl⟩ := hcode
      obtain ⟨c, w, hc, hw, rfl⟩ := append_eq_ok.mp hz
      cases p with
      | plain code => cases hslot
      | nested head slot =>
        rw [Part.slots, List.mem_singleton] at hslot
        subst hslot
        obtain ⟨h, q, hh, hq, rfl⟩ := append_eq_ok.mp hc
        exact ⟨x ++ h, w, .nested href hlayout ⟨depth, hx⟩ hh ⟨depth, hw⟩⟩
      | branches head slots =>
        obtain ⟨slots₁, slots₂, rfl⟩ := List.append_of_mem hslot
        obtain ⟨h, q, hh, hq, rfl⟩ := append_eq_ok.mp hc
        rw [List.map_append, emitEach_append, append_eq_ok] at hq
        obtain ⟨b, q', hb, hq', rfl⟩ := hq
        obtain ⟨q'', b', _, hb', rfl⟩ := append_eq_ok.mp hq'
        exact ⟨x ++ head ++ b, b' ++ w,
          .branch href hlayout ⟨depth, hx⟩ ⟨depth, hb⟩ ⟨depth, hb'⟩ ⟨depth, hw⟩⟩

theorem Emits.followed {a b : α} {code : List Instr} (h : Emits mem config a code)
    (hb : b ∈ followed config (mem a)) : ∃ code', Emits mem config b code' := by
  obtain ⟨depth, h⟩ := h
  cases depth with
  | zero => cases h
  | succ depth =>
    obtain ⟨code', hcode'⟩ := ok_of_followed h hb
    exact ⟨code', depth, hcode'⟩

/-- Every body that the schema calls for is in the code. -/
theorem IsBody.exists_bodyAt {a y : α} (hy : IsBody mem config a y) {code : List Instr}
    (hcode : Emits mem config a code) : ∃ pre rest, BodyAt mem config a pre (some y) rest := by
  obtain ⟨x, hx, href, hbody⟩ := hy
  induction hx generalizing code with
  | refl a => exact bodyAt_direct hcode href ((mem_followed href).mpr hbody)
  | @step a b x hb _ ih =>
    obtain ⟨code', hcode'⟩ := hcode.followed hb
    obtain ⟨pre', rest', hinner⟩ := ih hcode' href hbody
    cases hself : (mem a).refResolved with
    | some target =>
      have hb : b = target := by simpa [Schema.followed, hself] using hb
      exact ⟨pre', rest', .target hself (hb ▸ hinner)⟩
    | none =>
      obtain ⟨pre, rest, houter⟩ := bodyAt_direct hcode hself hb
      exact ⟨_, _, .inside houter hinner⟩

end Split

/-! ## Compositions close more than they open -/

section Net

variable {α : Type} {mem : Memory α} {config : Option CompilerConfig}

theorem net_plain {code : List Instr} (h : ∀ i ∈ code, depthKind i = .plain) :
    net depthKind code = 0 := by
  induction code with
  | nil => rfl
  | cons i code ih =>
    rw [net_cons, h i List.mem_cons_self, ih (fun j hj => h j (List.mem_cons_of_mem _ hj))]
    rfl

theorem net_head {head : List Instr} (h : NestedHead head) : net depthKind head = 1 := by
  cases h with
  | @single i hi => cases i <;> first | rfl | cases hi
  | contains min max => rfl

theorem net_branchHead {n : Nat} {head : List Instr} (h : BranchHead n head) :
    net depthKind head = 0 := by
  cases h with
  | discriminator property keys hlen =>
    refine net_plain ?_
    intro i hi
    simp only [List.mem_cons, List.mem_map] at hi
    rcases hi with rfl | rfl | ⟨key, _, rfl⟩ <;> rfl
  | _ => rfl

theorem net_bodies {bodies : List (List Instr)} (h : ∀ body ∈ bodies, net depthKind body ≤ 0) :
    net depthKind (bodies.flatMap (· ++ [.endOp])) ≤ -bodies.length := by
  induction bodies with
  | nil => simp
  | cons body bodies ih =>
    have hbody := h body List.mem_cons_self
    have htail := ih (fun b hb => h b (List.mem_cons_of_mem _ hb))
    simp only [List.flatMap_cons, net_append, net_cons, net_nil, List.length_cons]
    have hend : (depthKind .endOp).weight = -1 := rfl
    omega

theorem net_invariant : CodeInvariant (fun code => net depthKind code ≤ 0) where
  append hx hy := by
    rw [net_append]
    omega
  plain h := by
    exact Int.le_of_eq (net_plain (Machine.plain_depthKind h))
  nested hhead hbody := by
    have hend : (depthKind .endOp).weight = -1 := rfl
    simp only [net_append, net_head hhead, net_cons, net_nil]
    omega

theorem net_branches : BranchInvariant (fun code => net depthKind code ≤ 0) := by
  intro head bodies hhead hbodies
  have := net_bodies hbodies
  rw [net_append, net_branchHead hhead]
  omega

theorem Emits.net_le {a : α} {code : List Instr} (h : Emits mem config a code) :
    net depthKind code ≤ 0 := by
  obtain ⟨depth, h⟩ := h
  exact compileSchema_permits net_invariant net_branches depth a code h

theorem net_emitEach {β : Type} {f : β → Emit} {l : List β} {code : List Instr}
    (hcode : emitEach f l = .ok code)
    (hle : ∀ x ∈ l, Permits (f x) (fun c => net depthKind c ≤ 0)) {x : β} (hx : x ∈ l)
    (hlt : Permits (f x) (fun c => net depthKind c < 0)) : net depthKind code < 0 := by
  induction l generalizing code with
  | nil => cases hx
  | cons y l ih =>
    obtain ⟨c, c', hc, hc', rfl⟩ := append_eq_ok.mp hcode
    have htail := fun z hz => hle z (List.mem_cons_of_mem _ hz)
    rw [net_append]
    rcases List.mem_cons.mp hx with rfl | hx
    · have hhead := hlt c hc
      have hrest : net depthKind c' ≤ 0 :=
        permits_emitEach (P := fun c => net depthKind c ≤ 0) net_invariant.nil
          (fun _ _ => net_invariant.append) htail c' hc'
      omega
    · have hhead := hle y List.mem_cons_self c hc
      have hrest := ih hc' htail hx
      omega

/-- The code of a part closes more than it opens, if the part is a composition or if one of
its bodies does. -/
theorem net_part {p : Part α} {f : α → Emit} (hshape : p.Shape)
    (hle : ∀ a, Permits (f a) (fun c => net depthKind c ≤ 0))
    (h : p.isBranches = true ∨
      ∃ a, some a ∈ p.slots ∧ Permits (f a) (fun c => net depthKind c < 0)) :
    Permits (p.code f) (fun c => net depthKind c < 0) := by
  intro code hcode
  have hend : (depthKind .endOp).weight = -1 := rfl
  cases p with
  | plain code => rcases h with h | ⟨a, ha, -⟩ <;> cases ‹_›
  | nested head slot =>
    rcases h with h | ⟨a, ha, hlt⟩
    · cases h
    · rw [Part.slots, List.mem_singleton] at ha
      subst ha
      obtain ⟨x, y, hx, hy, rfl⟩ := append_eq_ok.mp hcode
      obtain ⟨body, hbody, rfl⟩ := emitBody_ok.mp hy
      have hnet := hlt body hbody
      simp only [net_append, net_head (hshape x hx), net_cons, net_nil]
      omega
  | branches head slots =>
    obtain ⟨x, y, hx, hy, rfl⟩ := append_eq_ok.mp hcode
    cases hx
    obtain ⟨bodies, hbodies, rfl⟩ := emitBodies_ok.mp hy
    have hlen : bodies.length = slots.length := by
      rw [← hbodies.length_eq, List.length_map]
    have hnet : ∀ body ∈ bodies, net depthKind body ≤ 0 := by
      intro body hbody
      obtain ⟨slot, hslot, hok⟩ := Paired.exists_left hbodies hbody
      obtain ⟨a, ha, rfl⟩ := List.mem_map.mp hslot
      exact permits_orNull net_invariant (fun b _ => hle b) body hok
    have hsum := net_bodies hnet
    have hpos : 0 < slots.length := List.length_pos_iff.mpr hshape.1
    rw [net_append, net_branchHead hshape.2]
    omega

/-- A slot of the layout. -/
theorem exists_part {a b : α} (href : (mem a).refResolved = none)
    (hb : b ∈ followed config (mem a)) :
    ∃ p ∈ layout config (mem a), some b ∈ p.slots := by
  rcases (mem_followed href).mp hb with hb | hb
  · obtain ⟨p, hp, -, hslot⟩ := nests_layout.mpr hb
    exact ⟨p, hp, hslot⟩
  · obtain ⟨p, hp, -, hslot⟩ := branches_layout.mpr hb
    exact ⟨p, hp, hslot⟩

/-- The code of a schema from which the compiler gets to a composition. -/
theorem Emits.net_lt {a z : α} (hz : Compiles mem config a z)
    (hbranch : emitsBranches (mem z) = true) {code : List Instr} (hcode : Emits mem config a code) :
    net depthKind code < 0 := by
  have hle : ∀ depth b, Permits (compileSchema mem config depth b)
      (fun c => net depthKind c ≤ 0) := fun depth b c hc => Emits.net_le ⟨depth, hc⟩
  have hpart : ∀ {a : α} {depth : Nat} {code : List Instr} {p : Part α},
      (mem a).refResolved = none → compileSchema mem config (depth + 1) a = .ok code →
      p ∈ layout config (mem a) → (p.isBranches = true ∨ ∃ b, some b ∈ p.slots ∧
        Permits (compileSchema mem config depth b) (fun c => net depthKind c < 0)) →
      net depthKind code < 0 := by
    intro a depth code p href hcode hp h
    rw [compileSchema_succ, href] at hcode
    dsimp only at hcode
    split at hcode
    · cases hcode
    · rw [compileKeywords_eq] at hcode
      refine net_emitEach hcode ?_ hp (net_part (layout_shape hp) (hle depth) h)
      intro q hq
      exact permits_part net_invariant (layout_shape hq) (fun _ => net_branches)
        (fun b _ => hle depth b)
  induction hz generalizing code with
  | refl a =>
    simp only [emitsBranches, Bool.and_eq_true, Option.isNone_iff_eq_none] at hbranch
    obtain ⟨href, hne⟩ := hbranch
    obtain ⟨slot, hslot⟩ := List.exists_mem_of_ne_nil (composed (mem a)) (by simpa using hne)
    obtain ⟨p, hp, hisBranches, -⟩ := branches_layout.mpr hslot
    obtain ⟨depth, hcode⟩ := hcode
    cases depth with
    | zero => cases hcode
    | succ depth => exact hpart href hcode hp (.inl hisBranches)
  | @step a b z hb _ ih =>
    obtain ⟨depth, hcode⟩ := hcode
    cases depth with
    | zero => cases hcode
    | succ depth =>
      cases href : (mem a).refResolved with
      | some target =>
        rw [compileSchema_succ, href] at hcode
        have hb : b = target := by simpa [Schema.followed, href] using hb
        exact ih hbranch ⟨depth, hb ▸ hcode⟩
      | none =>
        obtain ⟨p, hp, hslot⟩ := exists_part href hb
        exact hpart href hcode hp
          (.inr ⟨b, hslot, fun c hc => ih hbranch ⟨depth, hc⟩⟩)

end Net

/-! ## Alignment -/

/-- Every body of the program, with its END, is what `skip_to_end` passes and what a frame of
`execute` runs, for every value. -/
def Aligned {α : Type} (mem : Memory α) (config : Option CompilerConfig) (root : α)
    (compiled : CompiledSchema) : Prop :=
  ∀ pre slot rest body, BodyAt mem config root pre slot rest → EmitsSlot mem config slot body →
    ∀ (rt : Runtime) (direction : Direction) (value : Json) (errors : ErrorList) (valid : Bool),
      ((compiled.machine rt direction).skipToEnd ⟨value, pre.length, errors, valid⟩).ip =
        pre.length + (body.length + 1) ∧
      ∃ vm, (compiled.machine rt direction).execute ⟨value, pre.length, errors, valid⟩ = .ok vm ∧
        vm.ip = pre.length + (body.length + 1)

section Alignment

variable {α : Type} {mem : Memory α} {config : Option CompilerConfig}

/-- Where the body of a slot stands in a program. -/
theorem BodyAt.drop {root : α} {depth : Nat} {compiled : CompiledSchema}
    {pre rest body : List Instr} {slot : Option α}
    (hcompile : oasSchemaCompile mem config depth (some root) = .ok compiled)
    (h : BodyAt mem config root pre slot rest) (hbody : EmitsSlot mem config slot body) :
    compiled.program.drop pre.length = body ++ .endOp :: (rest ++ [.endOp]) ∧
      compiled.regex = backend config := by
  obtain ⟨code, hcode, heq⟩ := bind_eq_ok.mp hcompile
  cases heq
  obtain ⟨body', hbody', rfl⟩ := h.split ⟨depth, hcode⟩
  obtain ⟨d, hbody⟩ := hbody
  obtain ⟨d', hbody'⟩ := hbody'
  rw [(slot_chain mem config slot).unique hbody hbody']
  exact ⟨by simp, rfl⟩

/-- Without a composition in the slot, its body ends where it should. -/
theorem flat_slot_body {m : Machine} (hregex : m.regex = backend config) {slot : Option α}
    {body : List Instr} (hflat : ∀ y, slot = some y → Flat mem config y)
    (hbody : EmitsSlot mem config slot body) : ∃ accepts, m.Body body accepts := by
  obtain ⟨depth, hbody⟩ := hbody
  cases slot with
  | none =>
    cases hbody
    exact ⟨_, Machine.Meaning.nil.toBody balanced_nil⟩
  | some y =>
    have hy := hflat y rfl
    exact ⟨_, (Machine.compileSchema_meaning hregex depth y (Machine.Flat.regular hy) body hbody).toBody
      (compileSchema_flat Machine.balanced_invariant depth y hy body hbody)⟩

/-- A composition in a body: the walk stops inside the body, whatever the value is. -/
theorem not_aligned {root y z : α} {depth : Nat} {compiled : CompiledSchema}
    (hcompile : oasSchemaCompile mem config depth (some root) = .ok compiled)
    (hy : IsBody mem config root y) (hz : Compiles mem config y z)
    (hbranch : emitsBranches (mem z) = true) : ¬ Aligned mem config root compiled := by
  intro haligned
  obtain ⟨code, hcode, -⟩ := bind_eq_ok.mp hcompile
  obtain ⟨pre, rest, hat⟩ := hy.exists_bodyAt ⟨depth, hcode⟩
  obtain ⟨body, hbody, -⟩ := hat.split ⟨depth, hcode⟩
  have hnet : net depthKind body < 0 := Emits.net_lt hz hbranch hbody
  have hstop : skip depthKind (body ++ .endOp :: (rest ++ [.endOp])) 1 ≤ body.length :=
    skip_of_net body _ 1 (by omega)
  obtain ⟨hskip, -⟩ := haligned pre (some y) rest body hat hbody default .none .null none true
  have hskip' : pre.length + skip depthKind (compiled.program.drop pre.length) 1 =
      pre.length + (body.length + 1) := hskip
  rw [(hat.drop hcompile hbody).1] at hskip'
  omega

theorem aligned_of_flat {root : α} {depth : Nat} {compiled : CompiledSchema}
    (hcompile : oasSchemaCompile mem config depth (some root) = .ok compiled)
    (hflat : ∀ y, IsBody mem config root y → Flat mem config y) :
    Aligned mem config root compiled := by
  intro pre slot rest body hat hbody rt direction value errors valid
  obtain ⟨hdrop, hregex⟩ := hat.drop hcompile hbody
  have hslot : ∀ y, slot = some y → Flat mem config y := by
    rintro y rfl
    exact hflat y hat.isBody
  obtain ⟨accepts, hb⟩ : ∃ accepts, (compiled.machine rt direction).Body body accepts :=
    flat_slot_body hregex hslot hbody
  refine ⟨?_, ?_⟩
  · rw [Machine.skip_body hb.balanced ⟨value, pre.length, errors, valid⟩ _ hdrop]
  · obtain ⟨errors', hrun⟩ := hb.ends ⟨value, pre.length, errors, valid⟩ _ hdrop
    exact ⟨_, hrun, rfl⟩

/-- Bodies end where they should exactly when no body has a composition in it. -/
theorem compiled_aligned_iff (mem : Memory α) (config : Option CompilerConfig) (depth : Nat)
    (root : α) (compiled : CompiledSchema)
    (hcompile : oasSchemaCompile mem config depth (some root) = .ok compiled) :
    Aligned mem config root compiled ↔
      ∀ y, IsBody mem config root y → Flat mem config y := by
  constructor
  · intro haligned y hy z hz
    rw [Bool.eq_false_iff]
    intro hbranch
    exact not_aligned hcompile hy hz hbranch haligned
  · exact aligned_of_flat hcompile

end Alignment

def typeOnly (mask : UInt8) : SchemaTree := .node { typeMask := mask }

/-- `{"properties": {"p": {"allOf": [{"type": "string"}]}}}` -/
def allOfInProperty : SchemaTree :=
  .node { properties := [⟨.ofString "p", some (.node { allOf := [some (typeOnly typeString)] })⟩] }

def allOfInPropertyProgram : CompiledSchema where
  program := [.enterProperty (.ofString "p"), .branchAllOf 1, .checkType typeString, .endOp, .endOp,
    .endOp]
  regex := none

theorem compiled_aligned_iff_allOfInProperty :
    Aligned SchemaTree.memory none allOfInProperty allOfInPropertyProgram ↔
      ∀ y, IsBody SchemaTree.memory none allOfInProperty y → Flat SchemaTree.memory none y :=
  compiled_aligned_iff SchemaTree.memory none 3 allOfInProperty allOfInPropertyProgram rfl

/-- `skip_to_end` stops behind the END of the branch, at the END of the property. -/
theorem allOfInProperty_not_aligned :
    oasSchemaCompile SchemaTree.memory none 3 (some allOfInProperty) =
        .ok allOfInPropertyProgram ∧
      ¬ Aligned SchemaTree.memory none allOfInProperty allOfInPropertyProgram := by
  have hcompile : oasSchemaCompile SchemaTree.memory none 3 (some allOfInProperty) =
      .ok allOfInPropertyProgram := rfl
  have hbody : IsBody SchemaTree.memory none allOfInProperty
      (.node { allOf := [some (typeOnly typeString)] }) :=
    ⟨allOfInProperty, .refl _, rfl, .inl List.mem_cons_self⟩
  exact ⟨hcompile, not_aligned hcompile hbody (.refl _) rfl⟩

end Liboas
