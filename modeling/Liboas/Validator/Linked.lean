import Liboas.Validator.Meaning
import Liboas.Validator.Silence

/-!
# Two programs in step

Two programs that have the same code ahead, but for some instructions of the first, run in step.
Where the first comes to such an instruction, it takes a round alone.
-/

namespace Liboas

open Outcome Brackets

namespace Machine

/-! ## What stays related -/

/-- How two states are related: the code ahead of them, what they report, and the values that
they may have. The `special` instructions are those that may stand in the first code alone. -/
structure Bond where
  ahead : List Instr → List Instr → Prop
  errors : ErrorList → ErrorList → Prop
  met : Json → Prop
  special : Instr → Prop

/-- What the machine relies on. -/
structure Bond.Lawful (B : Bond) : Prop where
  /-- No special instruction is looked at by another one. -/
  inert : ∀ i, B.special i → isThen i = false ∧ isElse i = false ∧ i.operandI64 = none ∧
    i.operandStr = none ∧ i ≠ .endOp
  nil : ∀ y, B.ahead [] y → y = []
  uncons : ∀ i x y, ¬ B.special i → B.ahead (i :: x) y → ∃ z, y = i :: z ∧ B.ahead x z
  /-- Where a special instruction is passed, no THEN or ELSE follows in the second code. -/
  noPart : ∀ i x y, B.special i → B.ahead (i :: x) y → NoPart y
  skip : ∀ x y d, B.ahead x y →
    B.ahead (x.drop (skip depthKind x d)) (y.drop (skip depthKind y d))
  quiet : B.errors none none
  add : ∀ e e' message, B.errors e e' →
    B.errors (e.add .constraint [] message) (e'.add .constraint [] message)
  item : ∀ items, B.met (.arr items) → ∀ v ∈ items, B.met v
  member : ∀ members, B.met (.obj members) → ∀ m ∈ members, B.met m.2
  name : ∀ members, B.met (.obj members) → ∀ m ∈ members, B.met (.str (CStr.ofBytes m.1).bytes)

/-- The machine with other code. -/
def on (m : Machine) (code : List Instr) : Machine := { m with code := code }

/-- The same state, at places with related code ahead. -/
structure Linked (B : Bond) (m : Machine) (code : List Instr) (vm vm' : Vm) : Prop where
  value : vm'.value = vm.value
  met : B.met vm.value
  errors : B.errors vm.errors vm'.errors
  valid : vm'.valid = vm.valid
  ahead : B.ahead (m.code.drop vm.ip) (code.drop vm'.ip)

/-- Two functions that keep the states linked. -/
def Follow (B : Bond) (m : Machine) (code : List Instr) (f g : Vm → Except Fault Vm) : Prop :=
  ∀ vm vm', Linked B m code vm vm' → Relates (f vm) (g vm') (Linked B m code)

/-! ## The instructions that run other frames -/

section Frames

variable {B : Bond} {m : Machine} {code x y : List Instr} {f g : Vm → Except Fault Vm} {vm vm' : Vm}

theorem Bond.Lawful.unappend (hB : B.Lawful) (token : List Instr) (htoken : ∀ i ∈ token, ¬ B.special i)
    (h : B.ahead (token ++ x) y) : ∃ z, y = token ++ z ∧ B.ahead x z := by
  induction token generalizing y with
  | nil => exact ⟨y, rfl, h⟩
  | cons i token ih =>
    obtain ⟨z, rfl, hz⟩ := hB.uncons i _ _ (htoken i List.mem_cons_self) h
    obtain ⟨w, rfl, hw⟩ := ih (fun j hj => htoken j (List.mem_cons_of_mem i hj)) hz
    exact ⟨w, rfl, hw⟩

theorem checkOp_on (v : Json) (instr : Instr) : checkOp (m.on code) v instr = checkOp m v instr := by
  cases instr <;> rfl

theorem Linked.at (h : Linked B m code vm vm') {ip ip' : Nat}
    (hahead : B.ahead (m.code.drop ip) (code.drop ip')) :
    Linked B m code { vm with ip := ip } { vm' with ip := ip' } :=
  ⟨h.value, h.met, h.errors, h.valid, hahead⟩

/-- The same on other values that may be met. -/
theorem Linked.on (h : Linked B m code vm vm') {v : Json} (hv : B.met v) {ip ip' : Nat}
    (hahead : B.ahead (m.code.drop ip) (code.drop ip')) :
    Linked B m code { vm with value := v, ip := ip } { vm' with value := v, ip := ip' } :=
  ⟨rfl, hv, h.errors, h.valid, hahead⟩

theorem Linked.quiet (hB : B.Lawful) (h : Linked B m code vm vm') :
    Linked B m code vm.quiet vm'.quiet :=
  ⟨h.value, h.met, hB.quiet, h.valid, h.ahead⟩

theorem Linked.addError (hB : B.Lawful) (h : Linked B m code vm vm') (message : Bytes) :
    Linked B m code (vm.addError message) (vm'.addError message) :=
  ⟨h.value, h.met, hB.add _ _ _ h.errors, rfl, h.ahead⟩

theorem Linked.check (hB : B.Lawful) (h : Linked B m code vm vm') (failure : Option Bytes) :
    Linked B m code (vm.check failure) (vm'.check failure) := by
  cases failure with
  | none => exact h
  | some message => exact h.addError hB message

theorem Linked.merge (h : Linked B m code vm vm') {sub sub' : Vm}
    (hsub : Linked B m code sub sub') : Linked B m code (vm.merge sub) (vm'.merge sub') := by
  refine ⟨h.value, h.met, hsub.errors, ?_, h.ahead⟩
  unfold Vm.merge
  dsimp only
  rw [h.valid, hsub.valid]

theorem Linked.skip (hB : B.Lawful) (h : Linked B m code vm vm') :
    Linked B m code (m.skipToEnd vm) ((m.on code).skipToEnd vm') := by
  apply h.at
  rw [← List.drop_drop, ← List.drop_drop]
  exact hB.skip _ _ 1 h.ahead

theorem runOn_linked (hfg : Follow B m code f g)
    (hahead : B.ahead (m.code.drop vm.ip) (code.drop vm'.ip)) {acc acc' : Vm}
    (h : Linked B m code acc acc') (value : Json) (hvalue : B.met value) :
    Relates (runOn f vm acc value) (runOn g vm' acc' value) (Linked B m code) := by
  refine Relates.bind (hfg _ _ (h.on hvalue hahead)) ?_
  intro sub sub' hsub
  exact Relates.pure (h.merge hsub)

theorem onProp_linked (hB : B.Lawful) (hfg : Follow B m code f g)
    (hahead : B.ahead (m.code.drop vm.ip) (code.drop vm'.ip)) {acc acc' : Vm}
    (h : Linked B m code acc acc') {name : Bytes}
    (hname : B.met (.str (CStr.ofBytes name).bytes)) :
    Relates (onProp f vm acc name) (onProp g vm' acc' name) (Linked B m code) := by
  refine Relates.bind (hfg _ _ (h.on hname hahead)) ?_
  intro sub sub' hsub
  have hacc : Linked B m code { acc with errors := sub.errors }
      { acc' with errors := sub'.errors } := ⟨h.value, h.met, hsub.errors, h.valid, h.ahead⟩
  apply Relates.pure
  rw [hsub.valid]
  cases sub.valid with
  | true => exact hacc
  | false => exact hacc.addError hB _

theorem countMatches_linked (hB : B.Lawful) (hfg : Follow B m code f g)
    (h : Linked B m code vm vm') {values : List Json} (hvalues : ∀ v ∈ values, B.met v) :
    Relates (countMatches f vm values) (countMatches g vm' values) (fun n n' => n' = n) := by
  refine Relates.foldlM_mem (S := fun n n' => n' = n) values ?_ rfl
  rintro n n' rfl value hmem
  refine Relates.bind (hfg _ _ ((h.quiet hB).on (hvalues value hmem) h.ahead)) ?_
  intro sub sub' hsub
  apply Relates.pure
  rw [hsub.valid]

theorem branchAll_linked (hfg : Follow B m code f g) (n : Nat) (h : Linked B m code vm vm') :
    Relates (branchAll f n vm) (branchAll g n vm') (Linked B m code) := by
  induction n generalizing vm vm' with
  | zero => exact Relates.ok h
  | succ n ih =>
    refine Relates.bind (hfg vm vm' h) ?_
    intro sub sub' hsub
    exact ih ((h.merge hsub).at hsub.ahead)

theorem branchCount_linked (hB : B.Lawful) (hfg : Follow B m code f g) (n passed : Nat)
    (h : Linked B m code vm vm') :
    Relates (branchCount f n vm passed) (branchCount g n vm' passed)
      (fun r r' => Linked B m code r.1 r'.1 ∧ r'.2 = r.2) := by
  induction n generalizing vm vm' passed with
  | zero => exact Relates.ok ⟨h, rfl⟩
  | succ n ih =>
    refine Relates.bind (hfg vm.quiet vm'.quiet (h.quiet hB)) ?_
    intro sub sub' hsub
    rw [hsub.valid]
    exact ih _ (h.at hsub.ahead)

theorem passBodies_linked (hB : B.Lawful) (hfg : Follow B m code f g) (silent : Bool) (n : Nat)
    (h : Linked B m code vm vm') :
    Relates (passBodies f silent n vm) (passBodies g silent n vm') (Linked B m code) := by
  induction n generalizing vm vm' with
  | zero => exact Relates.ok h
  | succ n ih =>
    have hstart : Linked B m code (if silent then vm.quiet else vm)
        (if silent then vm'.quiet else vm') := by
      cases silent
      · exact h
      · exact h.quiet hB
    refine Relates.bind (hfg _ _ hstart) ?_
    intro sub sub' hsub
    apply ih
    refine ⟨h.value, h.met, ?_, h.valid, hsub.ahead⟩
    cases silent
    · exact hsub.errors
    · exact h.errors

/-- What the codes go on with: nothing, a special instruction in the first, or the same one. -/
theorem Bond.Lawful.next (hB : B.Lawful) {n n' : Nat} (h : B.ahead (m.code.drop n) (code.drop n')) :
    (m.code[n]? = none ∧ code[n']? = none) ∨ ∃ i, m.code[n]? = some i ∧
      ((B.special i ∧ NoPart (code.drop n')) ∨
        (code[n']? = some i ∧ B.ahead (m.code.drop (n + 1)) (code.drop (n' + 1)))) := by
  cases hx : m.code.drop n with
  | nil =>
    rw [hx] at h
    left
    rw [List.getElem?_eq_none_iff, List.getElem?_eq_none_iff]
    exact ⟨List.drop_eq_nil_iff.mp hx, List.drop_eq_nil_iff.mp (hB.nil _ h)⟩
  | cons i x =>
    rw [hx] at h
    refine .inr ⟨i, getElem?_of_drop hx, ?_⟩
    by_cases hi : B.special i
    · exact .inl ⟨hi, hB.noPart i x _ hi h⟩
    · obtain ⟨z, hz, hnext⟩ := hB.uncons i x _ hi h
      have hdrop : m.code.drop (n + 1) = x := drop_of_drop (x := [i]) hx
      have hdrop' : code.drop (n' + 1) = z := drop_of_drop (x := [i]) hz
      refine .inr ⟨getElem?_of_drop hz, ?_⟩
      rw [hdrop, hdrop']
      exact hnext

theorem condPart_linked (hB : B.Lawful) (hfg : Follow B m code f g) {isPart : Instr → Bool}
    (hpart : isPart = isThen ∨ isPart = isElse) (taken : Bool) (h : Linked B m code vm vm') :
    Relates (m.condPart f isPart taken vm) ((m.on code).condPart g isPart taken vm')
      (Linked B m code) := by
  have hnone : ∀ i, isThen i = false ∧ isElse i = false → isPart i = false := by
    rintro i ⟨hthen, helse⟩
    rcases hpart with rfl | rfl
    · exact hthen
    · exact helse
  have hcode : (m.on code).code[vm'.ip]? = code[vm'.ip]? := rfl
  unfold condPart
  rw [hcode]
  rcases hB.next h.ahead with ⟨hend, hend'⟩ | ⟨i, hi, ⟨hspecial, hright⟩ | ⟨hi', hnext⟩⟩
  · rw [hend, hend']
    exact Relates.ok h
  · have hinert := hB.inert i hspecial
    rw [hi]
    simp only [hnone i ⟨hinert.1, hinert.2.1⟩, Bool.false_eq_true, if_false]
    split
    · rename_i j hj
      rw [hnone j (hright j (by rw [List.head?_drop, hj]))]
      exact Relates.ok h
    · exact Relates.ok h
  · rw [hi, hi']
    refine Relates.ite Iff.rfl ?_ (Relates.ok h)
    refine Relates.ite Iff.rfl ?_ ?_
    · exact hfg _ _ (h.at hnext)
    · exact Relates.ok ((h.at hnext).skip hB)

theorem readCount_linked (hB : B.Lawful) (atEnd : Int) (h : Linked B m code vm vm') :
    Relates (m.readCount atEnd vm) ((m.on code).readCount atEnd vm')
      (fun r r' => r'.1 = r.1 ∧ Linked B m code r.2 r'.2) := by
  have hcode : (m.on code).code = code := rfl
  unfold readCount read
  rw [hcode]
  rcases hB.next h.ahead with ⟨hend, hend'⟩ | ⟨i, hi, hcases⟩
  · rw [if_neg (Nat.not_lt.mpr (List.getElem?_eq_none_iff.mp hend)),
      if_neg (Nat.not_lt.mpr (List.getElem?_eq_none_iff.mp hend'))]
    exact Relates.pure ⟨rfl, h⟩
  · rw [if_pos (List.getElem?_eq_some_iff.mp hi).1, hi]
    rcases hcases with ⟨hspecial, -⟩ | ⟨hi', hnext⟩
    · have hnone := (hB.inert i hspecial).2.2.1
      dsimp only [bind, Except.bind]
      rw [hnone]
      exact Relates.error
    · rw [if_pos (List.getElem?_eq_some_iff.mp hi').1, hi']
      refine Relates.bind (Relates.ok (R := fun a c => a = i ∧ c = i) ⟨rfl, rfl⟩) ?_
      rintro _ _ ⟨rfl, rfl⟩
      split
      · exact Relates.pure ⟨rfl, h.at hnext⟩
      · exact Relates.error

theorem advance_linked (hB : B.Lawful) {names : List (Option CStr)} {rest : List Instr}
    (hdrop : m.code.drop vm.ip = names.map .nopName ++ rest) (h : Linked B m code vm vm') :
    Relates (m.advance names.length vm) ((m.on code).advance names.length vm')
      (Linked B m code) := by
  have htoken : ∀ i ∈ names.map Instr.nopName, ¬ B.special i := by
    intro i hi hspecial
    obtain ⟨name, -, rfl⟩ := List.mem_map.mp hi
    cases (hB.inert _ hspecial).2.2.2.1
  have hahead := h.ahead
  rw [hdrop] at hahead
  obtain ⟨z, hz, hnext⟩ := hB.unappend _ htoken hahead
  have hdrop₁ := drop_of_drop hdrop
  have hdrop₂ := drop_of_drop hz
  rw [List.length_map] at hdrop₁ hdrop₂
  unfold advance
  split
  · split
    · apply Relates.ok
      apply h.at
      rw [Int.toNat_natCast, hdrop₁, hdrop₂]
      exact hnext
    · rintro a c _ ⟨⟩
  · exact Relates.error

theorem requireNames_linked (hB : B.Lawful) (trigger : CStr) (n : Nat)
    (h : Linked B m code vm vm') :
    Relates (m.requireNames trigger n vm) ((m.on code).requireNames trigger n vm')
      (Linked B m code) := by
  induction n generalizing vm vm' with
  | zero => exact Relates.ok h
  | succ n ih =>
    have hcode : (m.on code).code[vm'.ip]? = code[vm'.ip]? := rfl
    unfold requireNames
    rw [hcode]
    rcases hB.next h.ahead with ⟨hend, hend'⟩ | ⟨i, hi, ⟨hspecial, -⟩ | ⟨hi', hnext⟩⟩
    · rw [hend, hend']
      exact Relates.ok h
    · rw [hi]
      dsimp only
      rw [(hB.inert i hspecial).2.2.2.1]
      exact Relates.error
    · rw [hi, hi']
      dsimp only
      split
      · exact Relates.error
      · apply ih
        have hafter := h.at hnext
        rw [h.value] at hafter ⊢
        exact hafter.check hB _

theorem findKey_linked (hB : B.Lawful) {start start' : Nat} (wanted : CStr) (n i : Nat)
    (h : B.ahead (m.code.drop (start + i)) (code.drop (start' + i))) :
    Relates (m.findKey start wanted n i) ((m.on code).findKey start' wanted n i)
      (fun r r' => r' = r) := by
  induction n generalizing i with
  | zero => exact Relates.ok rfl
  | succ n ih =>
    have hcode : (m.on code).code[start' + i]? = code[start' + i]? := rfl
    unfold findKey read
    rw [hcode]
    rcases hB.next h with ⟨hend, -⟩ | ⟨j, hj, ⟨hspecial, -⟩ | ⟨hj', hnext⟩⟩
    · rw [hend]
      exact Relates.error
    · rw [hj]
      have hnone := (hB.inert j hspecial).2.2.2.1
      dsimp only [bind, Except.bind]
      rw [hnone]
      exact Relates.error
    · rw [hj, hj']
      refine Relates.bind (Relates.ok (R := fun a c => a = j ∧ c = j) ⟨rfl, rfl⟩) ?_
      rintro _ _ ⟨rfl, rfl⟩
      split
      · exact Relates.ite Iff.rfl (Relates.pure rfl) (ih (i + 1) hnext)
      · exact Relates.error

theorem dispatchOn_linked (hB : B.Lawful) (hfg : Follow B m code f g) (property : CStr)
    {start start' : Nat} (count : Nat)
    (hstart : B.ahead (m.code.drop start) (code.drop start')) (h : Linked B m code vm vm') :
    Relates (m.dispatchOn f property start count vm)
      ((m.on code).dispatchOn g property start' count vm') (Linked B m code) := by
  have hpass : ∀ message, Relates
      (passBodies f false count vm >>= fun vm => pure (vm.addError message))
      (passBodies g false count vm' >>= fun vm => pure (vm.addError message))
      (Linked B m code) := by
    intro message
    refine Relates.bind (passBodies_linked hB hfg false count h) ?_
    intro vm₁ vm₁' h₁
    exact Relates.pure (h₁.addError hB message)
  unfold dispatchOn
  rw [h.value]
  split
  · split
    · refine Relates.bind (findKey_linked hB _ count 0 hstart) ?_
      rintro found found' hfound
      rw [hfound]
      cases found with
      | none => exact hpass _
      | some i =>
        refine Relates.bind (passBodies_linked hB hfg true i h) ?_
        intro vm₁ vm₁' h₁
        refine Relates.bind (hfg vm₁ vm₁' h₁) ?_
        intro sub sub' hsub
        exact passBodies_linked hB hfg true _ ((h₁.merge hsub).at hsub.ahead)
    · exact hpass _
  · exact hpass _

/-- Both codes have the inline list of an instruction, so both read its count. -/
theorem inlineCount_linked (hB : B.Lawful) (hcode : Tokenised m.code) {i : Nat} {instr : Instr}
    {keys : Bool} (hinstr : m.code[i]? = some instr)
    (hstep : Pending.step Pending.start instr = some (.count keys)) (hip : vm.ip = i + 1)
    (h : Linked B m code vm vm') :
    ∃ (names : List (Option CStr)) (rest : List Instr),
      m.code.drop (vm.ip + 1) = names.map .nopName ++ rest ∧
      Relates (m.readCount 0 vm) ((m.on code).readCount 0 vm') (fun r r' =>
        r = (↑names.length, { vm with ip := vm.ip + 1 }) ∧ r'.1 = names.length ∧
          Linked B m code r.2 r'.2) := by
  have hi : Boundary m.code i := by
    apply boundary_of_instr hcode hinstr
    · rintro n rfl
      cases hstep
    · rintro name rfl
      cases hstep
  obtain ⟨names, rest, hdrop, -⟩ := inline_list hcode hi hinstr hstep
  rw [← hip] at hdrop
  refine ⟨names, rest, drop_of_drop (x := [.nopCount names.length]) hdrop, ?_⟩
  intro r r' hr hr'
  have hok : m.readCount 0 vm = _ := readCount_ok vm hdrop
  obtain ⟨hcount, hlinked⟩ := readCount_linked hB 0 h r r' hr hr'
  rw [hok] at hr
  cases hr
  exact ⟨rfl, hcount, hlinked⟩

/-- One instruction that stands in both codes. -/
theorem dispatch_linked (hB : B.Lawful) (hcode : Tokenised m.code) (hfg : Follow B m code f g)
    {i : Nat} {instr : Instr} (hinstr : m.code[i]? = some instr) (hip : vm.ip = i + 1)
    (h : Linked B m code vm vm') :
    Relates (m.dispatch f vm instr) ((m.on code).dispatch g vm' instr) (Linked B m code) := by
  have hskip : Relates (.ok (m.skipToEnd vm) : Except Fault Vm) (.ok ((m.on code).skipToEnd vm'))
      (Linked B m code) := Relates.ok (h.skip hB)
  have hrun : ∀ values : List Json, (∀ v ∈ values, B.met v) → Relates
      (values.foldlM (runOn f vm) vm >>= fun vm => pure (m.skipToEnd vm))
      (values.foldlM (runOn g vm') vm' >>= fun vm => pure ((m.on code).skipToEnd vm))
      (Linked B m code) := by
    intro values hvalues
    refine Relates.bind (Relates.foldlM_mem (S := Linked B m code) values
      (fun _ _ hacc v hv => runOn_linked hfg h.ahead hacc v (hvalues v hv)) h) ?_
    exact fun _ _ h' => Relates.pure (h'.skip hB)
  have hmet := h.met
  cases instr with
  | enterItems =>
    simp only [dispatch]
    rw [h.value]
    split
    · rename_i items hitems
      rw [hitems] at hmet
      exact hrun _ (hB.item items hmet)
    · exact hskip
  | enterPrefixItem index =>
    simp only [dispatch]
    rw [h.value]
    split
    · rename_i items hitems
      rw [hitems] at hmet
      refine hrun _ (fun v hv => hB.item items hmet v ?_)
      exact List.mem_of_getElem? (Option.mem_toList.mp hv)
    · exact hskip
  | enterProperty name =>
    simp only [dispatch]
    rw [h.value]
    split
    · rename_i members hmembers
      rw [hmembers] at hmet
      refine hrun _ (fun v hv => ?_)
      rw [hmembers] at hv
      obtain ⟨member, hmember, rfl⟩ := Json.mem_of_objGet (Option.mem_toList.mp hv)
      exact hB.member members hmet member hmember
    · exact hskip
  | checkPatternProps =>
    simp only [dispatch]
    rw [h.value, show (m.on code).regex = m.regex from rfl]
    split
    · rename_i members regex hmembers _
      rw [hmembers] at hmet
      refine hrun _ (fun v hv => ?_)
      obtain ⟨member, hmember, rfl⟩ := List.mem_map.mp hv
      exact hB.member members hmet member (List.mem_filter.mp hmember).1
    · exact hskip
  | checkPropNames =>
    simp only [dispatch]
    rw [h.value]
    split
    · rename_i members hmembers
      rw [hmembers] at hmet
      refine Relates.bind (Relates.foldlM_mem (S := Linked B m code) _ ?_ h) ?_
      · intro acc acc' hacc name hname
        obtain ⟨member, hmember, rfl⟩ := List.mem_map.mp hname
        exact onProp_linked hB hfg h.ahead hacc (hB.name members hmet member hmember)
      · exact fun _ _ h' => Relates.pure (h'.skip hB)
    · exact hskip
  | enterAdditional => exact hskip
  | branchAllOf count => exact branchAll_linked hfg _ h
  | branchAnyOf count | branchOneOf count =>
    refine Relates.bind (branchCount_linked hB hfg _ 0 h) ?_
    rintro r r' ⟨hlinked, hpassed⟩
    apply Relates.pure
    rw [hpassed]
    exact hlinked.check hB _
  | negate =>
    refine Relates.bind (hfg vm.quiet vm'.quiet (h.quiet hB)) ?_
    intro sub sub' hsub
    apply Relates.pure
    rw [hsub.valid]
    exact (h.at hsub.ahead).check hB _
  | condIf =>
    refine Relates.bind (hfg vm.quiet vm'.quiet (h.quiet hB)) ?_
    intro sub sub' hsub
    rw [hsub.valid]
    refine Relates.bind (condPart_linked hB hfg (.inl rfl) _ (h.at hsub.ahead)) ?_
    intro vm₁ vm₁' h₁
    exact condPart_linked hB hfg (.inr rfl) _ h₁
  | checkDepRequired trigger =>
    obtain ⟨names, rest, hnames, hcount⟩ := inlineCount_linked hB hcode hinstr rfl hip h
    refine Relates.bind hcount ?_
    rintro _ r' ⟨rfl, hlength, hlinked⟩
    dsimp only
    rw [hlength]
    refine Relates.ite ?_ ?_ ?_
    · rw [hlinked.value]
    · exact requireNames_linked hB trigger _ hlinked
    · exact advance_linked hB hnames hlinked
  | checkDepSchema trigger =>
    simp only [dispatch]
    rw [h.value]
    refine Relates.ite Iff.rfl ?_ hskip
    refine Relates.bind (hfg vm vm' h) ?_
    intro sub sub' hsub
    exact Relates.pure ((h.merge hsub).at hsub.ahead)
  | checkContains min =>
    simp only [dispatch]
    rw [h.value]
    split
    · rename_i items hitems
      rw [hitems] at hmet
      refine Relates.bind (readCount_linked hB (-1) h) ?_
      rintro r r' ⟨hmax, hlinked⟩
      refine Relates.bind (countMatches_linked hB hfg hlinked (hB.item items hmet)) ?_
      rintro n _ rfl
      rw [hmax]
      exact Relates.pure (((hlinked.check hB _).check hB _).skip hB)
    · exact hskip
  | discriminator property =>
    obtain ⟨names, rest, hnames, hcount⟩ := inlineCount_linked hB hcode hinstr rfl hip h
    refine Relates.bind hcount ?_
    rintro _ r' ⟨rfl, hlength, hlinked⟩
    dsimp only
    rw [hlength]
    refine Relates.bind (advance_linked hB hnames hlinked) ?_
    intro vm₁ vm₁' h₁
    exact dispatchOn_linked hB hfg property _ hlinked.ahead h₁
  | _ =>
    apply Relates.ok
    rw [checkOp_on, h.value]
    exact h.check hB _

/-- A frame of the first program, with any frames below it, does what `execute` does on the second.
`hspecial` is the round that it takes alone. -/
theorem frame_linked (hB : B.Lawful) (hcode : Tokenised m.code)
    (hf : Follow B m code f (m.on code).execute) (h : Linked B m code vm vm')
    (hspecial : ∀ i, m.code[vm.ip]? = some i → B.special i →
      Relates (m.dispatch f { vm with ip := vm.ip + 1 } i >>= f) ((m.on code).execute vm')
        (Linked B m code)) :
    Relates (m.frame (fun _ => true) f vm) ((m.on code).execute vm') (Linked B m code) := by
  unfold frame
  rw [if_pos rfl]
  rcases hB.next h.ahead with ⟨hend, hend'⟩ | ⟨i, hi, ⟨hs, -⟩ | ⟨hi', hnext⟩⟩
  · have hpast : (m.on code).code[vm'.ip]? = none := hend'
    rw [hend, execute_past _ hpast]
    exact Relates.ok h
  · have hopen : i ≠ .endOp := (hB.inert i hs).2.2.2.2
    rw [hi]
    split
    · rename_i hnone
      cases hnone
    · rename_i hclose
      exact absurd (Option.some_inj.mp hclose) hopen
    · rename_i j hj hsome
      cases hsome
      exact hspecial _ hi hs
  · have hget : (m.on code).code[vm'.ip]? = some i := hi'
    rw [hi]
    split
    · rename_i hnone
      cases hnone
    · rename_i hclose
      cases hclose
      rw [execute_end _ _ hget]
      exact Relates.ok (h.at hnext)
    · rename_i j hopen hsome
      cases hsome
      rw [execute_step _ hget hopen]
      refine Relates.bind (dispatch_linked hB hcode hf hi rfl (h.at hnext)) ?_
      exact fun vm₁ vm₁' h₁ => hf vm₁ vm₁' h₁

end Frames

end Machine

end Liboas
