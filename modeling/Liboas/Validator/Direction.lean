import Liboas.Validator.Alongside
import Liboas.Validator.Silence
import Liboas.Compiler.Followed

/-!
# Requests, responses and neither

`readOnly` and `writeOnly` only ever reject more, in programs where a failure cannot turn
into a success: without `not`, `oneOf`, `if` and an upper bound for `contains`. The frames
of both runs go the same way, and the flag of one is below that of the other.
-/

namespace Liboas

open Outcome Emit

/-! ## Programs in which a failure stays one -/

/-- The instruction passes a failure on. -/
def Instr.passesOn : Instr → Bool
  | .branchOneOf _ | .negate | .condIf => false
  | _ => true

/-- Every instruction passes failures on, and `contains` has no upper bound. -/
structure PassesOn (code : List Instr) : Prop where
  each : ∀ (i : Nat) (instr : Instr), code[i]? = some instr → instr.passesOn = true
  unbounded : ∀ (i : Nat) (min : Int) (next : Instr) (n : Int), code[i]? = some (.checkContains min) → code[i + 1]? = some next →
    next.operandI64 = some n → n < 0

namespace Machine

/-- The machine for a value that is neither in a request nor in a response. -/
def undirected (m : Machine) : Machine := { m with direction := .none }

/-- The same place, and a flag that is below the other. -/
structure Le (vm vm' : Vm) : Prop where
  value : vm'.value = vm.value
  ip : vm'.ip = vm.ip
  valid : vm.valid = true → vm'.valid = true

/-- Two functions that keep the flags in order. -/
def Ordered (f g : Vm → Except Fault Vm) : Prop :=
  ∀ vm vm', Le vm vm' → Relates (f vm) (g vm') Le

variable {m : Machine} {f g : Vm → Except Fault Vm} {vm vm' : Vm}

theorem checkOp_undirected (v : Json) (instr : Instr) (h : checkOp m v instr = none) :
    checkOp m.undirected v instr = none := by
  cases instr with
  | checkReadOnly | checkWriteOnly => rfl
  | _ => exact h

theorem Le.check (h : Le vm vm') {failure failure' : Option Bytes}
    (hfailure : failure = none → failure' = none) : Le (vm.check failure) (vm'.check failure') where
  value := by simp [h.value]
  ip := by simp [h.ip]
  valid := by
    cases failure with
    | none =>
      rw [hfailure rfl]
      exact h.valid
    | some message => intro hvalid; cases hvalid

theorem failIf_le {c c' : Bool} {message message' : Bytes} (h : c' = true → c = true) :
    failIf c message = none → failIf c' message' = none := by
  cases c <;> cases c' <;> simp_all [failIf]

theorem Le.merge (h : Le vm vm') {sub sub' : Vm} (hsub : Le sub sub') :
    Le (vm.merge sub) (vm'.merge sub') where
  value := h.value
  ip := h.ip
  valid := by
    show (vm.valid && sub.valid) = true → (vm'.valid && sub'.valid) = true
    rw [Bool.and_eq_true, Bool.and_eq_true]
    rintro ⟨hvm, hs⟩
    exact ⟨h.valid hvm, hsub.valid hs⟩

theorem Le.at (h : Le vm vm') {ip ip' : Nat} (hip : ip' = ip) :
    Le { vm with ip := ip } { vm' with ip := ip' } := ⟨h.value, hip, h.valid⟩

theorem Le.quiet (h : Le vm vm') : Le vm.quiet vm'.quiet := ⟨h.value, h.ip, h.valid⟩

theorem le_alongside : Alongside Le where
  value h := h.value
  ip h := h.ip
  move h _ _ := ⟨rfl, rfl, h.valid⟩
  addError h _ := ⟨h.value, h.ip, fun hvalid => by cases hvalid⟩
  merge h hsub := h.merge hsub

theorem undirected_twin (m : Machine) : m.Twin m.undirected := ⟨rfl, rfl⟩

theorem onProp_ordered (hfg : Ordered f g) (hip : vm'.ip = vm.ip) {acc acc' : Vm}
    (h : Le acc acc') (name : Bytes) :
    Relates (onProp f vm acc name) (onProp g vm' acc' name) Le := by
  refine Relates.bind (hfg { acc with value := .str (CStr.ofBytes name).bytes, ip := vm.ip }
    { acc' with value := .str (CStr.ofBytes name).bytes, ip := vm'.ip } ⟨rfl, hip, h.valid⟩) ?_
  intro sub sub' hsub
  apply Relates.pure
  cases hs : sub.valid with
  | true =>
    rw [hsub.valid hs]
    exact ⟨h.value, h.ip, h.valid⟩
  | false =>
    refine ⟨?_, ?_, ?_⟩
    · split <;> exact h.value
    · split <;> exact h.ip
    · intro hvalid
      cases hvalid

/-- With a lower flag no more values pass. -/
theorem countMatches_ordered (hfg : Ordered f g) (h : Le vm vm') (values : List Json) :
    Relates (countMatches f vm values) (countMatches g vm' values) (fun n n' => n ≤ n') := by
  apply Relates.foldlM values _ (Nat.le_refl 0)
  intro n n' hn value
  refine Relates.bind (hfg { vm.quiet with value := value } { vm'.quiet with value := value }
    ⟨rfl, h.ip, h.valid⟩) ?_
  intro sub sub' hsub
  apply Relates.pure
  have hvalid := hsub.valid
  cases hs : sub.valid with
  | true =>
    rw [hvalid hs]
    simpa using hn
  | false =>
    simp only [Bool.false_eq_true, if_false]
    split
    · omega
    · exact hn

theorem branchCount_ordered (hfg : Ordered f g) (n : Nat) (h : Le vm vm') {passed passed' : Nat}
    (hpassed : passed ≤ passed') :
    Relates (branchCount f n vm passed) (branchCount g n vm' passed')
      (fun r r' => Le r.1 r'.1 ∧ r.2 ≤ r'.2) := by
  induction n generalizing vm vm' passed passed' with
  | zero => exact Relates.ok ⟨h, hpassed⟩
  | succ n ih =>
    refine Relates.bind (hfg vm.quiet vm'.quiet h.quiet) ?_
    intro sub sub' hsub
    apply ih (h.at hsub.ip)
    have hvalid := hsub.valid
    cases hs : sub.valid with
    | true =>
      rw [hvalid hs]
      simpa using hpassed
    | false =>
      simp only [Bool.false_eq_true, if_false]
      split
      · omega
      · exact hpassed

theorem passBodies_ordered (hfg : Ordered f g) (silent : Bool) (n : Nat) (h : Le vm vm') :
    Relates (passBodies f silent n vm) (passBodies g silent n vm') Le := by
  induction n generalizing vm vm' with
  | zero => exact Relates.ok h
  | succ n ih =>
    have hstart : Le (if silent then vm.quiet else vm) (if silent then vm'.quiet else vm') := by
      cases silent
      · exact h
      · exact h.quiet
    refine Relates.bind (hfg _ _ hstart) ?_
    intro sub sub' hsub
    exact ih ⟨h.value, hsub.ip, h.valid⟩

theorem findKey_undirected (start : Nat) (wanted : CStr) (n i : Nat) :
    m.undirected.findKey start wanted n i = m.findKey start wanted n i := by
  induction n generalizing i with
  | zero => rfl
  | succ n ih =>
    unfold findKey
    simp only [ih]
    rfl

theorem dispatchOn_ordered (hfg : Ordered f g) (property : CStr) (start count : Nat)
    (h : Le vm vm') :
    Relates (m.dispatchOn f property start count vm)
      (m.undirected.dispatchOn g property start count vm') Le := by
  have hpass : ∀ message, Relates
      (passBodies f false count vm >>= fun vm => pure (vm.addError message))
      (passBodies g false count vm' >>= fun vm => pure (vm.addError message)) Le := by
    intro message
    refine Relates.bind (passBodies_ordered hfg false count h) ?_
    intro vm₁ vm₁' h₁
    exact Relates.pure ⟨h₁.value, h₁.ip, fun hvalid => by cases hvalid⟩
  unfold dispatchOn
  simp only [findKey_undirected]
  rw [h.value]
  split
  · split
    · refine Relates.same_bind (fun found => ?_)
      cases found with
      | none => exact hpass _
      | some i =>
        refine Relates.bind (passBodies_ordered hfg true i h) ?_
        intro vm₁ vm₁' h₁
        refine Relates.bind (hfg vm₁ vm₁' h₁) ?_
        intro sub sub' hsub
        exact passBodies_ordered hfg true _ ((h₁.merge hsub).at hsub.ip)
    · exact hpass _
  · exact hpass _

/-- The bound that `contains` reads behind it. -/
theorem readCount_unbounded (hcode : PassesOn m.code) {i : Nat} {min : Int}
    (hinstr : m.code[i]? = some (.checkContains min)) (hip : vm.ip = i + 1) :
    Permits (m.readCount (-1) vm) (fun r => r.1 < 0) := by
  unfold readCount
  split
  · rename_i hlt
    have hread : Permits (m.read vm.ip) (fun next => m.code[i + 1]? = some next) := by
      unfold read
      rw [hip]
      split
      · rename_i next hnext
        exact Permits.ok hnext
      · exact Permits.error
    refine Permits.bind hread ?_
    intro next hnext
    split
    · rename_i n hoperand
      exact Permits.ok (hcode.unbounded i min next n hinstr hnext hoperand)
    · exact Permits.error
  · exact Permits.ok (show (-1 : Int) < 0 by decide)

theorem checkContainsBounds_le (h : Le vm vm') {min max : Int} (hmax : max < 0) {n n' : Nat}
    (hn : n ≤ n') : Le (checkContainsBounds vm min max n) (checkContainsBounds vm' min max n') := by
  unfold checkContainsBounds
  apply (h.check _).check
  · apply failIf_le
    simp
    omega
  · apply failIf_le
    simp
    omega

theorem dispatch_ordered (hcode : PassesOn m.code) (hfg : Ordered f g) {i : Nat} {instr : Instr}
    (hinstr : m.code[i]? = some instr) (hip : vm.ip = i + 1) (h : Le vm vm') :
    Relates (m.dispatch f vm instr) (m.undirected.dispatch g vm' instr) Le := by
  have hpasses := hcode.each i instr hinstr
  have hm := m.undirected_twin
  have hskip : Relates (.ok (m.skipToEnd vm) : Except Fault Vm) (.ok (m.undirected.skipToEnd vm'))
      Le := Relates.ok (le_alongside.skip hm h)
  cases instr with
  | branchOneOf | negate | condIf => cases hpasses
  | checkPropNames =>
    simp only [dispatch]
    rw [h.value]
    split
    · apply skip_alongside le_alongside hm
      exact Relates.foldlM (S := Le) _
        (fun _ _ hacc name => onProp_ordered hfg h.ip hacc name) h
    · exact hskip
  | branchAnyOf count =>
    refine Relates.bind (branchCount_ordered hfg _ h (Nat.le_refl 0)) ?_
    rintro r r' ⟨hle, hpassed⟩
    apply Relates.pure
    apply hle.check
    apply failIf_le
    simp
    omega
  | checkContains min =>
    simp only [dispatch]
    rw [h.value]
    split
    · have hboth : Relates (m.readCount (-1) vm) (m.undirected.readCount (-1) vm')
          (fun r r' => (r'.1 = r.1 ∧ Le r.2 r'.2) ∧ r.1 < 0) := by
        intro r r' hr hr'
        exact ⟨readCount_alongside le_alongside hm (-1) h r r' hr hr',
          readCount_unbounded hcode hinstr hip r hr⟩
      refine Relates.bind hboth ?_
      rintro r r' ⟨⟨hmax, hle⟩, hneg⟩
      refine Relates.bind (countMatches_ordered hfg hle _) ?_
      intro n n' hn
      rw [hmax]
      exact Relates.pure (le_alongside.skip hm (checkContainsBounds_le hle hneg hn))
    · exact hskip
  | discriminator property =>
    refine Relates.bind (readCount_alongside le_alongside hm 0 h) ?_
    rintro r r' ⟨hcount, hle⟩
    dsimp only
    rw [hle.ip, hcount]
    refine Relates.bind (advance_alongside le_alongside hm _ hle) ?_
    intro vm₁ vm₁' h₁
    exact dispatchOn_ordered hfg property _ _ h₁
  | _ =>
    apply dispatch_alongside le_alongside hm hfg rfl _ h
    apply h.check
    rw [h.value]
    exact checkOp_undirected _ _

theorem frame_ordered (hcode : PassesOn m.code) (watch : Nat → Bool) (hfg : Ordered f g) :
    Ordered (m.frame watch f) (m.undirected.frame watch g) := by
  intro vm vm' h
  unfold frame
  rw [h.ip, show m.undirected.code = m.code from rfl]
  refine Relates.ite Iff.rfl ?_ Relates.error
  split
  · exact Relates.ok h
  · exact Relates.ok (h.at rfl)
  · rename_i instr _ hinstr
    refine Relates.bind (dispatch_ordered hcode hfg hinstr rfl (h.at rfl)) ?_
    exact fun vm₁ vm₁' h₁ => hfg vm₁ vm₁' h₁

theorem execute_ordered (m : Machine) (hcode : PassesOn m.code) :
    Ordered m.execute m.undirected.execute := by
  have hiterate : ∀ k, Ordered
      (Fuel.iterate (m.frame (fun _ => true)) (fun _ => .error .depth) k)
      (Fuel.iterate (m.undirected.frame (fun _ => true)) (fun _ => .error .depth) k) := by
    intro k
    induction k with
    | zero => exact fun _ _ _ => Relates.error
    | succ k ih => exact frame_ordered hcode _ ih
  intro vm vm' h
  have hleft : m.undirected.left vm' = m.left vm := by
    unfold left
    rw [h.ip]
    rfl
  unfold execute executeWatched Fuel.run
  rw [hleft]
  exact hiterate _ vm vm' h

end Machine

/-! ## Schemas in which a failure stays one -/

namespace Schema

/-- The schema itself has no `not`, no `oneOf`, no `if` and no `maxContains`. -/
structure PassesOn {α : Type} (s : Schema α) : Prop where
  notSchema : s.notSchema = none
  oneOf : s.oneOf = []
  ifSchema : s.ifSchema = none
  maxContains : s.maxContains < 0

end Schema

/-- Code of which every part passes failures on. -/
inductive PassingCode : List Instr → Prop where
  | nil : PassingCode []
  | cons {i : Instr} {code : List Instr} : i.passesOn = true → (∀ min, i ≠ .checkContains min) →
      PassingCode code → PassingCode (i :: code)
  | contains (min : Int) {max : Int} {code : List Instr} : max < 0 → PassingCode code →
      PassingCode (.checkContains min :: .nopCount max :: code)

namespace PassingCode

theorem append {x y : List Instr} (hx : PassingCode x) (hy : PassingCode y) :
    PassingCode (x ++ y) := by
  induction hx with
  | nil => exact hy
  | cons hi hne _ ih => exact cons hi hne ih
  | contains min hmax _ ih => exact contains min hmax ih

theorem single {i : Instr} (hi : i.passesOn = true) (hne : ∀ min, i ≠ .checkContains min) :
    PassingCode [i] := cons hi hne nil

theorem ofNames (names : List (Option CStr)) : PassingCode (names.map .nopName) := by
  induction names with
  | nil => exact nil
  | cons name names ih => exact cons rfl (fun _ => by simp) ih

theorem ofPlain {code : List Instr} (h : PlainCode code) : PassingCode code := by
  induction h with
  | nil => exact nil
  | @check i code hi _ ih =>
    apply cons _ _ ih
    · cases i <;> first | rfl | cases hi
    · rintro min rfl
      cases hi
  | dependent trigger names _ ih =>
    exact cons rfl (fun _ => by simp) (cons rfl (fun _ => by simp) ((ofNames names).append ih))

theorem passesOn {code : List Instr} (h : PassingCode code) : PassesOn code := by
  induction h with
  | nil => exact ⟨fun i instr h => by simp at h, fun i min next n h => by simp at h⟩
  | @cons i code hi hne _ ih =>
    constructor
    · intro j instr hj
      cases j with
      | zero =>
        cases hj
        exact hi
      | succ j => exact ih.each j instr hj
    · intro j min next n hj
      cases j with
      | zero =>
        cases hj
        exact absurd rfl (hne min)
      | succ j => exact ih.unbounded j min next n hj
  | @contains min max code hmax _ ih =>
    constructor
    · intro j instr hj
      match j with
      | 0 => cases hj; rfl
      | 1 => cases hj; rfl
      | j + 2 => exact ih.each j instr hj
    · intro j min' next n hj hnext hn
      match j with
      | 0 =>
        cases hnext
        cases hn
        exact hmax
      | 1 => cases hj
      | j + 2 => exact ih.unbounded j min' next n hj hnext hn

end PassingCode

/-- The head of a part, or its plain code, passes failures on. -/
def Part.Passing {α : Type} : Part α → Prop
  | plain code => Permits code PassingCode
  | nested head _ => Permits head PassingCode
  | branches head _ => PassingCode head

section Passing

variable {α : Type} {config : Option CompilerConfig} {s : Schema α} {p : Part α}

theorem nestedPart_passing {op : Instr} (hop : op.passesOn = true)
    (hne : ∀ min, op ≠ .checkContains min) {slot : Option α} (hp : p ∈ nestedPart op slot) :
    p.Passing := by
  unfold nestedPart at hp
  split at hp
  · rw [List.mem_singleton.mp hp]
    exact permits_emit (.single hop hne)
  · cases hp

theorem plain_passing {code : Emit} (hp : .plain code ∈ layout config s) :
    Permits code PassingCode :=
  (layout_shape hp : Permits code PlainCode).mono (fun _ h => .ofPlain h)

theorem branches_passing {op : UInt16 → Instr} (hop : ∀ n, (op n).passesOn = true)
    (hne : ∀ n min, op n ≠ .checkContains min) {schemas : List (Option α)}
    (hp : p ∈ compositionPart op schemas) : p.Passing := by
  unfold compositionPart at hp
  split at hp
  · cases hp
  · rw [List.mem_singleton.mp hp]
    exact .single (hop _) (hne _)

theorem choicePart_passing (honeOf : s.oneOf = []) (hp : p ∈ choicePart s) : p.Passing := by
  unfold choicePart at hp
  split at hp
  · split at hp
    · rw [List.mem_singleton.mp hp]
      unfold Part.Passing discriminatorHead
      have hnames := PassingCode.ofNames (s.discriminatorMapping.map (fun m => some m.key))
      rw [List.map_map] at hnames
      exact .cons rfl (fun _ => by simp) (.cons rfl (fun _ => by simp) hnames)
    · cases hp
  · rcases List.mem_append.mp hp with hp | hp
    · exact branches_passing (fun _ => rfl) (fun _ _ => by simp) hp
    · simp [honeOf, compositionPart] at hp

theorem arrayLayout_passing (hp : p ∈ arrayLayout s) (hlayout : p ∈ layout config s) :
    p.Passing := by
  simp only [arrayLayout, List.mem_append, List.mem_singleton, List.mem_map] at hp
  rcases hp with (rfl | ⟨e, _, rfl⟩) | hp
  · exact plain_passing hlayout
  · exact permits_emit (.single rfl (fun _ => by simp))
  · exact nestedPart_passing rfl (fun _ => by simp) hp

theorem objectLayout_passing (hp : p ∈ objectLayout config s) (hlayout : p ∈ layout config s) :
    p.Passing := by
  simp only [objectLayout, List.mem_append, List.mem_singleton, List.mem_map,
    List.mem_flatMap] at hp
  rcases hp with ((((((rfl | ⟨e, _, rfl⟩) | hp) | rfl) | hp) | ⟨e, _, hp⟩) | rfl) | ⟨e, _, hp⟩
  · exact plain_passing hlayout
  · exact permits_emit (.single rfl (fun _ => by simp))
  · exact nestedPart_passing rfl (fun _ => by simp) hp
  · exact plain_passing hlayout
  · exact nestedPart_passing rfl (fun _ => by simp) hp
  · unfold patternPropertyPart at hp
    split at hp
    · rw [List.mem_singleton.mp hp]
      exact permits_withPattern .nil (permits_emit (.single rfl (fun _ => by simp)))
    · cases hp
  · exact plain_passing hlayout
  · exact nestedPart_passing rfl (fun _ => by simp) hp

theorem layout_passing (hs : s.PassesOn) (hp : p ∈ layout config s) : p.Passing := by
  have hlayout := hp
  simp only [layout, List.mem_append, List.mem_singleton] at hp
  rcases hp with (((((((rfl | hp) | hp) | hp) | hp) | hp) | hp) | hp) | rfl
  · exact plain_passing hlayout
  · exact arrayLayout_passing hp hlayout
  · exact objectLayout_passing hp hlayout
  · unfold containsPart at hp
    split at hp
    · rw [List.mem_singleton.mp hp]
      exact permits_emit (.contains _ hs.maxContains .nil)
    · cases hp
  · exact branches_passing (fun _ => rfl) (fun _ _ => by simp) hp
  · exact choicePart_passing hs.oneOf hp
  · simp [nestedPart, hs.notSchema] at hp
  · simp [conditionalPart, hs.ifSchema] at hp
  · exact plain_passing hlayout

theorem part_passing {f : α → Emit} (hpart : p.Passing)
    (hf : ∀ a, some a ∈ p.slots → Permits (f a) PassingCode) : Permits (p.code f) PassingCode := by
  have hbody : ∀ slot ∈ p.slots, Permits (emitBody (slot.map f)) PassingCode := by
    intro slot hslot code hcode
    obtain ⟨body, hbody, rfl⟩ := emitBody_ok.mp hcode
    apply PassingCode.append _ (.single rfl (fun _ => by simp))
    cases slot with
    | none =>
      cases hbody
      exact .nil
    | some a => exact hf a hslot body hbody
  cases p with
  | plain code => exact hpart
  | nested head slot =>
    exact permits_append hpart (hbody slot List.mem_cons_self) (fun _ _ hx hy => hx.append hy)
  | branches head slots =>
    refine permits_append (permits_emit hpart) ?_ (fun _ _ hx hy => hx.append hy)
    rw [emitEach_map]
    exact permits_emitEach .nil (fun _ _ hx hy => hx.append hy) hbody

end Passing

/-- No schema that is compiled into this one has a `not`, `oneOf`, `if` or `maxContains`. -/
def PassesOnBelow {α : Type} (mem : Memory α) (config : Option CompilerConfig) (a : α) : Prop :=
  ∀ b, Compiles mem config a b → (mem b).PassesOn

theorem compileSchema_passing {α : Type} {mem : Memory α} {config : Option CompilerConfig}
    (depth : Nat) (a : α) (ha : PassesOnBelow mem config a) :
    Permits (compileSchema mem config depth a) PassingCode := by
  induction depth generalizing a with
  | zero => exact Permits.error
  | succ depth ih =>
    have hbelow : ∀ b ∈ Schema.followed config (mem a),
        Permits (compileSchema mem config depth b) PassingCode :=
      fun b hb => ih b (fun c hc => ha c (.step hb hc))
    rw [compileSchema_succ]
    split
    · rename_i target htarget
      exact hbelow target (by simp [Schema.followed, htarget])
    · rename_i hnone
      split
      · exact Permits.error
      · rw [compileKeywords_eq]
        refine permits_emitEach .nil (fun _ _ hx hy => hx.append hy) ?_
        intro p hp
        apply part_passing (layout_passing (ha a (.refl a)) hp)
        intro b hb
        apply hbelow
        rcases mem_layout_slots hp hb with ⟨-, hb⟩ | ⟨-, hb⟩
        · simp [Schema.followed, hnone, hb]
        · simp [Schema.followed, hnone, Schema.composed, List.reduceOption_mem_iff] at hb ⊢
          exact .inr hb

/-- The verdict in a direction, and without one. -/
theorem accepts_undirected {compiled : CompiledSchema} (hsound : compiled.Sound)
    (hcode : PassesOn compiled.program) (rt : Runtime) (direction : Direction) (value : Json)
    (h : compiled.accepts rt direction value = true) : compiled.accepts rt .none value = true := by
  obtain ⟨vm, hvm, haccepts⟩ := hsound.run rt direction value none
  obtain ⟨vm', hvm', haccepts'⟩ := hsound.run rt .none value none
  rw [haccepts] at h
  rw [haccepts']
  have hordered := Machine.execute_ordered (compiled.machine rt direction) hcode
    ⟨value, 0, none, true⟩ ⟨value, 0, none, true⟩ ⟨rfl, rfl, id⟩ vm vm' hvm hvm'
  exact hordered.valid h

/-- A value that is valid in a request or in a response is valid without a direction. -/
theorem direction_monotone {α : Type} {mem : Memory α} {config : Option CompilerConfig}
    {depth : Nat} {schema : α} {compiled : CompiledSchema}
    (hcompile : oasSchemaCompile mem config depth (some schema) = .ok compiled)
    (hschema : PassesOnBelow mem config schema) (rt : Runtime) (value : Json)
    (direction : Direction) (r r' : Result) (arena arena' : Bool) {result : Result}
    (h : oasValidateWithDirection rt compiled value direction r arena = .ok (0, result))
    (hvalid : result.valid = true) :
    ∃ result', oasValidateWithDirection rt compiled value .none r' arena' = .ok (0, result') ∧
      result'.valid = true := by
  have hsound := oasSchemaCompile_sound hcompile
  have hcode : PassesOn compiled.program := by
    obtain ⟨code, hcode, hcompiled⟩ := bind_eq_ok.mp hcompile
    cases hcompiled
    exact ((compileSchema_passing depth schema hschema code hcode).append
      (.single rfl (fun _ => by simp))).passesOn
  obtain ⟨errors, hspec⟩ := validate_spec hsound rt value direction r arena
  obtain ⟨errors', hspec'⟩ := validate_spec hsound rt value .none r' arena'
  rw [hspec] at h
  cases h
  refine ⟨_, hspec', ?_⟩
  exact accepts_undirected hsound hcode rt direction value hvalid

/-- `{"readOnly": true, "properties": {"id": {"readOnly": true}}}` -/
def readOnlyId : SchemaTree :=
  .node { properties := [⟨.ofString "id", some (.node { readOnly := true })⟩], readOnly := true }

theorem direction_monotone_readOnlyId :
    ∃ result', oasValidateWithDirection (.knowing [])
        ⟨[.enterProperty (.ofString "id"), .checkReadOnly, .endOp, .checkReadOnly, .endOp], none⟩
        (.obj [(ascii "id", .str [])]) .none ⟨false, none⟩ false = .ok (0, result') ∧
      result'.valid = true := by
  apply @direction_monotone _ SchemaTree.memory none 2 readOnlyId _ rfl _ (.knowing [])
    (.obj [(ascii "id", .str [])]) .response ⟨false, none⟩ ⟨false, none⟩ false false ⟨true, none⟩
  · rfl
  · rfl
  · intro b hb
    cases hb with
    | refl => exact ⟨rfl, rfl, rfl, by decide⟩
    | step hstep hrest =>
      have hchild : Schema.followed none (SchemaTree.memory readOnlyId) =
          [.node { readOnly := true }] := rfl
      rw [hchild, List.mem_singleton] at hstep
      subst hstep
      cases hrest with
      | refl => exact ⟨rfl, rfl, rfl, by decide⟩
      | step hstep _ => cases hstep

end Liboas
