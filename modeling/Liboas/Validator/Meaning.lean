import Liboas.Validator.Run
import Mathlib.Data.List.Forall2

/-!
# What a stretch of code decides

`m.Meaning code accepts` says that `execute` runs through `code` and then goes on behind it,
with the verdict `accepts` of the value added to its own. An inherited failure stays a
failure, whatever the code does. There is one rule for each instruction.
-/

namespace Liboas

open Brackets

/-- The state `n` instructions further on, with one more verdict. -/
def Vm.past (vm : Vm) (n : Nat) (errors : ErrorList) (verdict : Bool) : Vm :=
  ⟨vm.value, vm.ip + n, errors, vm.valid && verdict⟩

namespace Machine

/-- The code does not go on with THEN or ELSE. -/
def NoPart (code : List Instr) : Prop :=
  ∀ i, code.head? = some i → isThen i = false ∧ isElse i = false

structure Meaning (m : Machine) (code : List Instr) (accepts : Json → Bool) : Prop where
  lead : NoPart code
  run : ∀ vm rest, m.code.drop vm.ip = code ++ rest → NoPart rest →
    ∃ errors, m.execute vm = m.execute (vm.past code.length errors (accepts vm.value))

/-- A frame on a body ends behind its END. -/
def Ends (m : Machine) (body : List Instr) (accepts : Json → Bool) : Prop :=
  ∀ (vm : Vm) (rest : List Instr), m.code.drop vm.ip = body ++ .endOp :: rest →
    ∃ errors, m.execute vm = .ok (vm.past (body.length + 1) errors (accepts vm.value))

/-- And `skip_to_end` gets there as well. -/
structure Body (m : Machine) (body : List Instr) (accepts : Json → Bool) : Prop where
  balanced : Balanced depthKind body
  ends : m.Ends body accepts

variable {m : Machine} {x y body : List Instr} {a b : Json → Bool}

theorem noPart_nil : NoPart [] := by
  rintro i ⟨⟩

theorem noPart_append (hx : NoPart x) (hy : NoPart y) : NoPart (x ++ y) := by
  cases x with
  | nil => exact hy
  | cons i x => exact hx

theorem noPart_cons {i : Instr} (h : isThen i = false) (h' : isElse i = false) :
    NoPart (i :: x) := by
  rintro j ⟨⟩
  exact ⟨h, h'⟩

theorem noPart_check {i : Instr} (h : i.isCheck = true) : NoPart (i :: x) := by
  cases i <;> first | exact noPart_cons rfl rfl | cases h

theorem past_past (vm : Vm) (n k : Nat) (errors errors' : ErrorList) (c d : Bool) :
    (vm.past n errors c).past k errors' d = vm.past (n + k) errors' (c && d) := by
  simp [Vm.past, Nat.add_assoc, Bool.and_assoc]

namespace Meaning

theorem congr (h : m.Meaning x a) (hab : ∀ v, a v = b v) : m.Meaning x b := by
  have : a = b := funext hab
  exact this ▸ h

theorem nil : m.Meaning [] (fun _ => true) where
  lead := by rintro i ⟨⟩
  run vm rest _ _ := ⟨vm.errors, by simp [Vm.past]⟩

theorem append (hx : m.Meaning x a) (hy : m.Meaning y b) :
    m.Meaning (x ++ y) (fun v => a v && b v) where
  lead := noPart_append hx.lead hy.lead
  run vm rest hdrop hrest := by
    rw [List.append_assoc] at hdrop
    obtain ⟨errors, hrun⟩ := hx.run vm (y ++ rest) hdrop (noPart_append hy.lead hrest)
    obtain ⟨errors', hrun'⟩ := hy.run (vm.past x.length errors (a vm.value)) rest
      (drop_of_drop hdrop) hrest
    refine ⟨errors', ?_⟩
    rw [hrun, hrun', past_past, List.length_append]
    rfl

/-- In front of an END, the code is what a frame runs. -/
theorem ends (h : m.Meaning x a) : m.Ends x a := by
  intro vm rest hdrop
  obtain ⟨errors, hrun⟩ := h.run vm (.endOp :: rest) hdrop (noPart_cons rfl rfl)
  refine ⟨errors, ?_⟩
  have hget : m.code[vm.ip + x.length]? = some .endOp := getElem?_of_drop (drop_of_drop hdrop)
  rw [hrun, execute_end m (vm.past x.length errors (a vm.value)) hget]
  rfl

theorem toBody (h : m.Meaning x a) (hx : Balanced depthKind x) : m.Body x a := ⟨hx, h.ends⟩

/-- The meaning of an instruction with what belongs to it is what its case of the `switch`
does. -/
theorem of_dispatch {instr : Instr} {tail : List Instr} (hend : instr ≠ .endOp)
    (hlead : isThen instr = false ∧ isElse instr = false)
    (h : ∀ (vm : Vm) rest, m.code.drop vm.ip = instr :: (tail ++ rest) → NoPart rest →
      ∃ errors, m.dispatch m.execute { vm with ip := vm.ip + 1 } instr =
        .ok (vm.past (tail.length + 1) errors (a vm.value))) :
    m.Meaning (instr :: tail) a where
  lead := noPart_cons hlead.1 hlead.2
  run vm rest hdrop hrest := by
    obtain ⟨errors, hok⟩ := h vm rest hdrop hrest
    refine ⟨errors, ?_⟩
    rw [execute_step m (getElem?_of_drop hdrop) hend, hok]
    rfl

end Meaning

/-! ## Checks -/

@[simp] theorem failIf_isNone (failed : Bool) (message : Bytes) :
    (failIf failed message).isNone = !failed := by
  cases failed <;> rfl

theorem check_eq (vm : Vm) (failure : Option Bytes) :
    ∃ errors, vm.check failure = ⟨vm.value, vm.ip, errors, vm.valid && failure.isNone⟩ := by
  cases failure with
  | none => exact ⟨vm.errors, by simp [Vm.check]⟩
  | some message =>
    exact ⟨vm.errors.add .constraint [] (printInto 256 message), by simp [Vm.check, Vm.addError]⟩

theorem Meaning.check {i : Instr} (h : i.isCheck = true) :
    m.Meaning [i] (fun v => (checkOp m v i).isNone) := by
  have hlead := noPart_check (x := []) h i rfl
  refine Meaning.of_dispatch (by rintro rfl; cases h) hlead ?_
  intro vm rest _ _
  obtain ⟨errors, hcheck⟩ := check_eq { vm with ip := vm.ip + 1 } (checkOp m vm.value i)
  refine ⟨errors, ?_⟩
  cases i <;> first | exact congrArg Except.ok hcheck | cases h

/-! ## One body, on other values -/

theorem skip_body (hbody : Balanced depthKind body) (vm : Vm) (rest : List Instr)
    (hdrop : m.code.drop vm.ip = body ++ .endOp :: rest) :
    m.skipToEnd vm = { vm with ip := vm.ip + (body.length + 1) } := by
  rw [skipToEnd, hdrop, skip_to_close hbody rfl]

theorem runOn_fold (h : m.Body body a) (vm : Vm) (rest : List Instr)
    (hdrop : m.code.drop vm.ip = body ++ .endOp :: rest) (values : List Json) (acc : Vm) :
    ∃ errors, values.foldlM (runOn m.execute vm) acc =
      .ok ⟨acc.value, acc.ip, errors, acc.valid && values.all a⟩ := by
  induction values generalizing acc with
  | nil => exact ⟨acc.errors, by simp [pure, Except.pure]⟩
  | cons value values ih =>
    obtain ⟨errors, hrun⟩ := h.ends { acc with value := value, ip := vm.ip } rest hdrop
    obtain ⟨errors', hrest⟩ := ih ⟨acc.value, acc.ip, errors, acc.valid && a value⟩
    refine ⟨errors', ?_⟩
    rw [List.foldlM_cons, runOn, hrun]
    simp only [bind, Except.bind, pure, Except.pure, Vm.merge, Vm.past]
    rw [← Bool.and_assoc, Bool.and_self, hrest, List.all_cons, Bool.and_assoc]

theorem onProp_fold (h : m.Body body a) (vm : Vm) (rest : List Instr)
    (hdrop : m.code.drop vm.ip = body ++ .endOp :: rest) (names : List Bytes) (acc : Vm) :
    ∃ errors, names.foldlM (onProp m.execute vm) acc =
      .ok ⟨acc.value, acc.ip, errors,
        acc.valid && names.all (fun name => a (.str (CStr.ofBytes name).bytes))⟩ := by
  induction names generalizing acc with
  | nil => exact ⟨acc.errors, by simp [pure, Except.pure]⟩
  | cons name names ih =>
    obtain ⟨errors, hrun⟩ :=
      h.ends { acc with value := .str (CStr.ofBytes name).bytes, ip := vm.ip } rest hdrop
    have hstep : ∃ errors, onProp m.execute vm acc name = .ok ⟨acc.value, acc.ip, errors,
        acc.valid && a (.str (CStr.ofBytes name).bytes)⟩ := by
      generalize hsub : Vm.past _ _ errors _ = sub at hrun
      have hvalid : (acc.valid && a (.str (CStr.ofBytes name).bytes)) = sub.valid := by
        rw [← hsub]
        rfl
      rw [onProp, hrun, hvalid]
      simp only [bind, Except.bind, pure, Except.pure]
      split
      · rename_i hv
        rw [hv] at hvalid ⊢
        rw [(Bool.and_eq_true_iff.mp hvalid).1]
        exact ⟨sub.errors, rfl⟩
      · rename_i hv
        rw [Bool.eq_false_iff.mpr hv]
        exact ⟨_, rfl⟩
    obtain ⟨errors₁, hone⟩ := hstep
    obtain ⟨errors₂, hrest⟩ := ih ⟨acc.value, acc.ip, errors₁,
      acc.valid && a (.str (CStr.ofBytes name).bytes)⟩
    refine ⟨errors₂, ?_⟩
    rw [List.foldlM_cons, hone]
    simp only [bind, Except.bind]
    rw [hrest, List.all_cons, Bool.and_assoc]

/-- A frame that has failed already counts no value. -/
theorem countMatches_run (h : m.Body body a) (vm : Vm) (rest : List Instr)
    (hdrop : m.code.drop vm.ip = body ++ .endOp :: rest) (values : List Json) :
    countMatches m.execute vm values = .ok (values.countP (fun v => vm.valid && a v)) := by
  have hstep : ∀ (n : Nat) (value : Json), (do
      let sub ← m.execute { vm.quiet with value := value }
      return if sub.valid then n + 1 else n) =
        (.ok (if vm.valid && a value then n + 1 else n) : Except Fault Nat) := by
    intro n value
    obtain ⟨errors, hrun⟩ := h.ends { vm.quiet with value := value } rest hdrop
    rw [hrun]
    rfl
  have hfold : ∀ (values : List Json) (n : Nat), values.foldlM (fun n value => do
      let sub ← m.execute { vm.quiet with value := value }
      return if sub.valid then n + 1 else n) n =
        (.ok (n + values.countP (fun v => vm.valid && a v)) : Except Fault Nat) := by
    intro values
    induction values with
    | nil => intro n; rfl
    | cons value values ih =>
      intro n
      rw [List.foldlM_cons, hstep, List.countP_cons]
      refine (ih _).trans ?_
      split <;> simp [Nat.add_assoc, Nat.add_comm]
  rw [countMatches, hfold, Nat.zero_add]

/-- What is common to the instructions that run their body on some values. -/
theorem Meaning.enter {instr : Instr} (hend : instr ≠ .endOp)
    (hlead : isThen instr = false ∧ isElse instr = false) (h : m.Body body a)
    (hrun : ∀ (vm : Vm) rest, m.code.drop vm.ip = body ++ .endOp :: rest →
      m.dispatch m.execute vm instr = .ok (m.skipToEnd vm) ∧ b vm.value = true ∨
      ∃ errors, m.dispatch m.execute vm instr =
        .ok (m.skipToEnd ⟨vm.value, vm.ip, errors, vm.valid && b vm.value⟩)) :
    m.Meaning (instr :: (body ++ [.endOp])) b := by
  refine Meaning.of_dispatch hend hlead ?_
  intro vm rest hdrop _
  rw [List.append_assoc] at hdrop
  have hbody : m.code.drop (vm.ip + 1) = body ++ .endOp :: rest :=
    drop_of_drop (x := [instr]) hdrop
  rcases hrun { vm with ip := vm.ip + 1 } rest hbody with ⟨hok, htrue⟩ | ⟨errors, hok⟩
  · refine ⟨vm.errors, ?_⟩
    rw [hok, skip_body h.balanced { vm with ip := vm.ip + 1 } rest hbody]
    dsimp only at htrue
    simp [Vm.past, htrue]
    omega
  · refine ⟨errors, ?_⟩
    rw [hok, skip_body h.balanced _ rest hbody]
    simp [Vm.past]
    omega

def itemsAccepts (a : Json → Bool) : Json → Bool
  | .arr items => items.all a
  | _ => true

def prefixItemAccepts (index : UInt16) (a : Json → Bool) : Json → Bool
  | .arr items => items[index.toNat]?.toList.all a
  | _ => true

def propertyAccepts (name : CStr) (a : Json → Bool) (v : Json) : Bool :=
  (v.objGet (some name)).toList.all a

def propertyNamesAccepts (a : Json → Bool) : Json → Bool
  | .obj members => (members.map (·.1)).all (fun name => a (.str (CStr.ofBytes name).bytes))
  | _ => true

def patternPropertyAccepts (regex : Option Regex) (pattern : CStr) (a : Json → Bool) :
    Json → Bool
  | .obj members => match regex with
    | some regex => ((members.filter (fun e => regex.isMatch pattern e.1)).map (·.2)).all a
    | none => true
  | _ => true

def dependentSchemaAccepts (trigger : CStr) (a : Json → Bool) (v : Json) : Bool :=
  (v.objGet (some trigger)).isNone || a v

def containsAccepts (min max : Int) (a : Json → Bool) : Json → Bool
  | .arr items =>
    decide (min ≤ items.countP a) && (decide (max < 0) || decide (items.countP a ≤ max))
  | _ => true

def dependentRequiredAccepts (d : DependentRequired) (v : Json) : Bool :=
  (v.objGet (some d.property)).isNone || d.required.all (fun name => (v.objGet name).isSome)

theorem Meaning.enterItems (h : m.Body body a) :
    m.Meaning (.enterItems :: (body ++ [.endOp])) (itemsAccepts a) := by
  refine Meaning.enter (by simp) ⟨rfl, rfl⟩ h ?_
  intro vm rest hdrop
  simp only [dispatch]
  split
  · rename_i items hvalue
    obtain ⟨errors, hfold⟩ := runOn_fold h vm rest hdrop items vm
    exact .inr ⟨errors, by rw [hfold, hvalue]; rfl⟩
  · rename_i hvalue
    refine .inl ⟨rfl, ?_⟩
    unfold itemsAccepts
    split
    · rename_i items harr
      exact absurd harr (hvalue items)
    · rfl

theorem Meaning.enterPrefixItem (index : UInt16) (h : m.Body body a) :
    m.Meaning (.enterPrefixItem index :: (body ++ [.endOp])) (prefixItemAccepts index a) := by
  refine Meaning.enter (by simp) ⟨rfl, rfl⟩ h ?_
  intro vm rest hdrop
  simp only [dispatch]
  split
  · rename_i items hvalue
    obtain ⟨errors, hfold⟩ := runOn_fold h vm rest hdrop items[index.toNat]?.toList vm
    exact .inr ⟨errors, by rw [hfold, hvalue]; rfl⟩
  · rename_i hvalue
    refine .inl ⟨rfl, ?_⟩
    unfold prefixItemAccepts
    split
    · rename_i items harr
      exact absurd harr (hvalue items)
    · rfl

theorem Meaning.enterProperty (name : CStr) (h : m.Body body a) :
    m.Meaning (.enterProperty name :: (body ++ [.endOp])) (propertyAccepts name a) := by
  refine Meaning.enter (by simp) ⟨rfl, rfl⟩ h ?_
  intro vm rest hdrop
  simp only [dispatch]
  split
  · obtain ⟨errors, hfold⟩ :=
      runOn_fold h vm rest hdrop (vm.value.objGet (some name)).toList vm
    exact .inr ⟨errors, by rw [hfold]; rfl⟩
  · rename_i hvalue
    refine .inl ⟨rfl, ?_⟩
    cases hv : vm.value with
    | obj members => exact absurd hv (hvalue members)
    | _ => rfl

/-- The body of ENTER_ADDITIONAL is skipped. -/
theorem Meaning.enterAdditional (h : m.Body body a) :
    m.Meaning (.enterAdditional :: (body ++ [.endOp])) (fun _ => true) := by
  refine Meaning.enter (by simp) ⟨rfl, rfl⟩ h ?_
  intro vm rest _
  exact .inl ⟨rfl, rfl⟩

theorem Meaning.checkPropNames (h : m.Body body a) :
    m.Meaning (.checkPropNames :: (body ++ [.endOp])) (propertyNamesAccepts a) := by
  refine Meaning.enter (by simp) ⟨rfl, rfl⟩ h ?_
  intro vm rest hdrop
  simp only [dispatch]
  split
  · rename_i members hvalue
    obtain ⟨errors, hfold⟩ := onProp_fold h vm rest hdrop (members.map (·.1)) vm
    exact .inr ⟨errors, by rw [hfold, hvalue]; rfl⟩
  · rename_i hvalue
    refine .inl ⟨rfl, ?_⟩
    cases hv : vm.value with
    | obj members => exact absurd hv (hvalue members)
    | _ => rfl

theorem Meaning.checkPatternProps (pattern : CStr) (h : m.Body body a) :
    m.Meaning (.checkPatternProps pattern :: (body ++ [.endOp]))
      (patternPropertyAccepts m.regex pattern a) := by
  refine Meaning.enter (by simp) ⟨rfl, rfl⟩ h ?_
  intro vm rest hdrop
  simp only [dispatch]
  split
  · rename_i members regex hvalue hregex
    obtain ⟨errors, hfold⟩ := runOn_fold h vm rest hdrop
      ((members.filter (fun e => regex.isMatch pattern e.1)).map (·.2)) vm
    exact .inr ⟨errors, by rw [hfold, hvalue, hregex]; rfl⟩
  · rename_i hvalue
    refine .inl ⟨rfl, ?_⟩
    cases hv : vm.value with
    | obj members =>
      cases hr : m.regex with
      | none => rfl
      | some regex => exact absurd hr (hvalue members regex hv)
    | _ => rfl

/-! ## One body, on the same value -/

theorem Meaning.checkDepSchema (trigger : CStr) (h : m.Body body a) :
    m.Meaning (.checkDepSchema trigger :: (body ++ [.endOp]))
      (dependentSchemaAccepts trigger a) := by
  refine Meaning.of_dispatch (by simp) ⟨rfl, rfl⟩ ?_
  intro vm rest hdrop _
  rw [List.append_assoc] at hdrop
  have hbody : m.code.drop (vm.ip + 1) = body ++ .endOp :: rest :=
    drop_of_drop (x := [Instr.checkDepSchema trigger]) hdrop
  simp only [dispatch, dependentSchemaAccepts]
  cases hget : vm.value.objGet (some trigger) with
  | none =>
    refine ⟨vm.errors, ?_⟩
    rw [skip_body h.balanced { vm with ip := vm.ip + 1 } rest hbody]
    simp [Vm.past]
    omega
  | some w =>
    obtain ⟨errors, hrun⟩ := h.ends { vm with ip := vm.ip + 1 } rest hbody
    refine ⟨errors, ?_⟩
    simp only [Option.isSome_some, if_true, hrun]
    simp [Vm.past, Vm.merge, bind, Except.bind, pure, Except.pure]
    omega

theorem Meaning.negate (h : m.Ends body a) :
    m.Meaning (.negate :: (body ++ [.endOp])) (fun v => !a v) := by
  refine Meaning.of_dispatch (by simp) ⟨rfl, rfl⟩ ?_
  intro vm rest hdrop _
  rw [List.append_assoc] at hdrop
  obtain ⟨errors, hrun⟩ := h ({ vm with ip := vm.ip + 1 } : Vm).quiet rest
    (drop_of_drop (x := [Instr.negate]) hdrop)
  simp only [dispatch, hrun, bind, Except.bind, pure, Except.pure]
  generalize hfailure : failIf _ _ = failure
  obtain ⟨errors', hcheck⟩ := check_eq
    { vm with ip := vm.ip + 1 + (body.length + 1) } failure
  refine ⟨errors', (congrArg Except.ok hcheck).trans ?_⟩
  -- A frame that has failed already fails in the body too, and is left as it is.
  have hvalid : (vm.valid && failure.isNone) = (vm.valid && !a vm.value) := by
    rw [← hfailure, failIf_isNone]
    cases vm.valid <;> simp [Vm.past, Vm.quiet]
  simp [Vm.past, hvalid]
  omega

theorem Meaning.checkContains (min max : Int) (h : m.Body body a) :
    m.Meaning (.checkContains min :: (.nopCount max :: (body ++ [.endOp])))
      (containsAccepts min max a) := by
  refine Meaning.of_dispatch (by simp) ⟨rfl, rfl⟩ ?_
  intro vm rest hdrop _
  have hmax : m.code.drop (vm.ip + 1) = .nopCount max :: (body ++ .endOp :: rest) := by
    have := drop_of_drop (x := [Instr.checkContains min]) hdrop
    simpa using this
  have hbody : m.code.drop (vm.ip + 1 + 1) = body ++ .endOp :: rest :=
    drop_of_drop (x := [Instr.nopCount max]) hmax
  simp only [dispatch, readCount_ok { vm with ip := vm.ip + 1 } hmax]
  split
  · rename_i items hvalue
    simp only [bind, Except.bind, pure, Except.pure,
      countMatches_run h { vm with ip := vm.ip + 1 + 1 } rest hbody]
    generalize hcount : items.countP _ = count
    rw [checkContainsBounds]
    generalize htooFew : failIf (decide ((count : Int) < min)) _ = tooFew
    generalize htooMany : failIf (decide (0 ≤ max ∧ (count : Int) > max)) _ = tooMany
    obtain ⟨errors, hfew⟩ := check_eq { vm with ip := vm.ip + 1 + 1 } tooFew
    obtain ⟨errors', hmany⟩ := check_eq ⟨vm.value, vm.ip + 1 + 1, errors,
      vm.valid && tooFew.isNone⟩ tooMany
    have hverdict : (vm.valid && tooFew.isNone && tooMany.isNone) =
        (vm.valid && containsAccepts min max a vm.value) := by
      rw [← htooFew, ← htooMany, failIf_isNone, failIf_isNone, hvalue, containsAccepts]
      cases hv : vm.valid with
      | false => rfl
      | true =>
        have hall : items.countP a = count := by simpa [hv] using hcount
        rw [hall, Bool.eq_iff_iff]
        simp
    refine ⟨errors', ?_⟩
    rw [hfew, hmany, skip_body h.balanced _ rest hbody]
    simp [Vm.past, hverdict]
    omega
  · rename_i hvalue
    have htrue : containsAccepts min max a vm.value = true := by
      cases hv : vm.value with
      | arr items => exact absurd hv (hvalue items)
      | _ => rfl
    have hskip : m.skipToEnd { vm with ip := vm.ip + 1 } =
        m.skipToEnd { vm with ip := vm.ip + 1 + 1 } := by
      simp only [skipToEnd, hmax, hbody, Brackets.skip, depthKind, isNestingOp]
      simp
      omega
    refine ⟨vm.errors, ?_⟩
    rw [hskip, skip_body h.balanced { vm with ip := vm.ip + 1 + 1 } rest hbody]
    simp [Vm.past, htrue]
    omega

/-! ## Names in the code -/

theorem Meaning.checkDepRequired (d : DependentRequired) :
    m.Meaning (.checkDepRequired d.property ::
      (.nopCount d.required.length :: d.required.map .nopName)) (dependentRequiredAccepts d) := by
  refine Meaning.of_dispatch (by simp) ⟨rfl, rfl⟩ ?_
  intro vm rest hdrop _
  have hcount : m.code.drop (vm.ip + 1) =
      .nopCount d.required.length :: (d.required.map .nopName ++ rest) :=
    drop_of_drop (x := [Instr.checkDepRequired d.property]) hdrop
  have hnames : m.code.drop (vm.ip + 1 + 1) = d.required.map .nopName ++ rest :=
    drop_of_drop (x := [Instr.nopCount d.required.length]) hcount
  simp only [dispatch, readCount_ok { vm with ip := vm.ip + 1 } hcount, bind, Except.bind,
    dependentRequiredAccepts]
  cases hget : vm.value.objGet (some d.property) with
  | none =>
    have hlt := (List.getElem?_eq_some_iff.mp (getElem?_of_drop hcount)).1
    have hok := advance_ok { vm with ip := vm.ip + 1 + 1 } hnames hlt
    rw [List.length_map] at hok
    refine ⟨vm.errors, ?_⟩
    simp only [Option.isSome_none, Bool.false_eq_true, if_false, hok]
    simp [Vm.past]
    omega
  | some w =>
    obtain ⟨errors, hok⟩ := requireNames_ok d.property d.required rest
      { vm with ip := vm.ip + 1 + 1 } hnames
    refine ⟨errors, ?_⟩
    simp only [Option.isSome_some, if_true, Int.toNat_natCast, hok]
    simp [Vm.past]
    omega

/-! ## IF, THEN and ELSE -/

/-- THEN or ELSE with its body, if there is one. -/
def partCode (op : Instr) : Option (List Instr) → List Instr
  | some body => op :: (body ++ [.endOp])
  | none => []

theorem condPart_run {op : Instr} (isPart : Instr → Bool) (hop : isPart op = true)
    {slot : Option (List Instr)} {c : Json → Bool}
    (hbody : ∀ body, slot = some body → m.Body body c) (hnone : slot = none → ∀ v, c v = true)
    (taken : Bool) (vm : Vm) (rest : List Instr)
    (hdrop : m.code.drop vm.ip = partCode op slot ++ rest)
    (hrest : ∀ i, rest.head? = some i → isPart i = false) :
    ∃ errors, m.condPart m.execute isPart taken vm =
      .ok (vm.past (partCode op slot).length errors (!taken || c vm.value)) := by
  cases slot with
  | none =>
    refine ⟨vm.errors, ?_⟩
    have hget : m.code[vm.ip]? = rest.head? := by rw [← List.head?_drop, hdrop]; rfl
    rw [condPart, hget]
    cases hhead : rest.head? with
    | none => simp [Vm.past, partCode, hnone rfl]
    | some i => simp [Vm.past, partCode, hnone rfl, hrest i hhead]
  | some body =>
    have h := hbody body rfl
    have hget : m.code[vm.ip]? = some op := getElem?_of_drop hdrop
    have hdrop' : m.code.drop (vm.ip + 1) = body ++ .endOp :: rest := by
      have := drop_of_drop (x := [op]) hdrop
      simpa using this
    rw [condPart, hget]
    simp only [hop, if_true]
    cases taken with
    | false =>
      refine ⟨vm.errors, ?_⟩
      rw [skip_body h.balanced { vm with ip := vm.ip + 1 } rest hdrop']
      simp [Vm.past, partCode]
      omega
    | true =>
      obtain ⟨errors, hrun⟩ := h.ends { vm with ip := vm.ip + 1 } rest hdrop'
      refine ⟨errors, ?_⟩
      rw [if_pos rfl, hrun]
      simp [Vm.past, partCode]
      omega

theorem Meaning.conditional {test : List Instr} {thenSlot elseSlot : Option (List Instr)}
    {t e : Json → Bool} (htest : m.Body test a)
    (hthen : ∀ body, thenSlot = some body → m.Body body t)
    (hthenNone : thenSlot = none → ∀ v, t v = true)
    (helse : ∀ body, elseSlot = some body → m.Body body e)
    (helseNone : elseSlot = none → ∀ v, e v = true) :
    m.Meaning (.condIf :: (test ++ [.endOp] ++ partCode .condThen thenSlot ++
      partCode .condElse elseSlot)) (fun v => if a v then t v else e v) := by
  refine Meaning.of_dispatch (by simp) ⟨rfl, rfl⟩ ?_
  intro vm rest hdrop hrest
  have htest' : m.code.drop (vm.ip + 1) = test ++ .endOp ::
      (partCode .condThen thenSlot ++ (partCode .condElse elseSlot ++ rest)) := by
    have := drop_of_drop (x := [Instr.condIf]) hdrop
    simpa using this
  obtain ⟨errors₁, hrun⟩ := htest.ends ({ vm with ip := vm.ip + 1 } : Vm).quiet _ htest'
  generalize hsub : Vm.past _ _ errors₁ _ = sub at hrun
  have hip : sub.ip = vm.ip + 1 + (test.length + 1) := by rw [← hsub]; rfl
  have hvalid : sub.valid = (vm.valid && a vm.value) := by rw [← hsub]; rfl
  have hthen' : m.code.drop sub.ip =
      partCode .condThen thenSlot ++ (partCode .condElse elseSlot ++ rest) := by
    have := drop_of_drop (x := test ++ [.endOp]) (by simpa using htest')
    simpa [hip] using this
  have hnotThen : ∀ i, (partCode .condElse elseSlot ++ rest).head? = some i →
      isThen i = false := by
    intro i hi
    cases elseSlot with
    | none => exact (hrest i hi).1
    | some body =>
      cases hi
      rfl
  obtain ⟨errors₂, hrunThen⟩ := condPart_run isThen rfl hthen hthenNone sub.valid
    { vm with ip := sub.ip } _ hthen' hnotThen
  obtain ⟨errors₃, hrunElse⟩ := condPart_run isElse rfl helse helseNone (!sub.valid)
    (Vm.past { vm with ip := sub.ip } (partCode .condThen thenSlot).length errors₂
      (!sub.valid || t vm.value)) rest (drop_of_drop hthen') (fun i hi => (hrest i hi).2)
  refine ⟨errors₃, ?_⟩
  simp only [dispatch, hrun, bind, Except.bind, hrunThen, hrunElse, past_past]
  -- Of a frame that has failed already the test fails too, and ELSE is run in vain.
  have hverdict : (vm.valid && ((!sub.valid || t vm.value) && (!!sub.valid || e vm.value))) =
      (vm.valid && if a vm.value then t vm.value else e vm.value) := by
    rw [hvalid]
    cases vm.valid <;> cases a vm.value <;> simp
  rw [Vm.past, Vm.past, hip]
  refine congrArg Except.ok (Vm.mk.injEq .. ▸ ⟨rfl, ?_, rfl, hverdict⟩)
  simp
  omega

/-! ## Branches -/

/-- Bodies one behind the other. -/
def bodiesCode (bodies : List (List Instr)) : List Instr := bodies.flatMap (· ++ [.endOp])

theorem branchAll_run {bodies : List (List Instr)} {accs : List (Json → Bool)}
    (h : List.Forall₂ m.Meaning bodies accs) (vm : Vm) (rest : List Instr)
    (hdrop : m.code.drop vm.ip = bodiesCode bodies ++ rest) :
    ∃ errors, branchAll m.execute bodies.length vm =
      .ok (vm.past (bodiesCode bodies).length errors (accs.all (fun c => c vm.value))) := by
  induction h generalizing vm with
  | nil => exact ⟨vm.errors, by simp [branchAll, Vm.past, bodiesCode]⟩
  | @cons body c bodies accs hbody _ ih =>
    have hbody' : m.code.drop vm.ip = body ++ .endOp :: (bodiesCode bodies ++ rest) := by
      simpa [bodiesCode] using hdrop
    obtain ⟨errors, hrun⟩ := hbody.ends vm _ hbody'
    have hrest : m.code.drop (vm.ip + (body.length + 1)) = bodiesCode bodies ++ rest := by
      have := drop_of_drop (x := body ++ [.endOp]) (by simpa using hbody')
      simpa using this
    obtain ⟨errors', hrun'⟩ := ih (vm.past (body.length + 1) errors (c vm.value)) hrest
    refine ⟨errors', ?_⟩
    have hmerge : ({ vm.merge (vm.past (body.length + 1) errors (c vm.value)) with
        ip := (vm.past (body.length + 1) errors (c vm.value)).ip } : Vm) =
        vm.past (body.length + 1) errors (c vm.value) := by
      simp [Vm.merge, Vm.past]
    rw [List.length_cons, branchAll, hrun]
    refine Eq.trans ?_ (hrun'.trans ?_)
    · simp only [bind, Except.bind]
      rw [hmerge]
    · rw [past_past]
      simp [Vm.past, bodiesCode]
      omega

theorem branchCount_run {bodies : List (List Instr)} {accs : List (Json → Bool)}
    (h : List.Forall₂ m.Meaning bodies accs) (vm : Vm) (rest : List Instr)
    (hdrop : m.code.drop vm.ip = bodiesCode bodies ++ rest) (passed : Nat) :
    branchCount m.execute bodies.length vm passed =
      .ok ({ vm with ip := vm.ip + (bodiesCode bodies).length },
        passed + accs.countP (fun c => vm.valid && c vm.value)) := by
  induction h generalizing vm passed with
  | nil => simp [branchCount, bodiesCode]
  | @cons body c bodies accs hbody _ ih =>
    have hbody' : m.code.drop vm.ip = body ++ .endOp :: (bodiesCode bodies ++ rest) := by
      simpa [bodiesCode] using hdrop
    obtain ⟨errors, hrun⟩ := hbody.ends vm.quiet _ hbody'
    generalize hsub : Vm.past _ _ errors _ = sub at hrun
    have hip : sub.ip = vm.ip + (body.length + 1) := by rw [← hsub]; rfl
    have hvalid : sub.valid = (vm.valid && c vm.value) := by rw [← hsub]; rfl
    have hrest : m.code.drop sub.ip = bodiesCode bodies ++ rest := by
      have := drop_of_drop (x := body ++ [.endOp]) (by simpa using hbody')
      simpa [hip] using this
    have hlength : sub.ip + (bodiesCode bodies).length =
        vm.ip + (bodiesCode (body :: bodies)).length := by
      simp [bodiesCode, hip]
      omega
    rw [List.length_cons, branchCount, hrun, List.countP_cons, ← hvalid]
    refine (ih { vm with ip := sub.ip } hrest _).trans ?_
    rw [← hlength]
    cases sub.valid <;> simp [Nat.add_assoc, Nat.add_comm]

theorem toUInt16_toNat {n : Nat} (h : n < 65536) : n.toUInt16.toNat = n :=
  UInt16.toNat_ofNat_of_lt h

theorem Meaning.branchAllOf {bodies : List (List Instr)} {accs : List (Json → Bool)}
    (h : List.Forall₂ m.Meaning bodies accs) (hlen : bodies.length < 65536) :
    m.Meaning (.branchAllOf bodies.length.toUInt16 :: bodiesCode bodies)
      (fun v => accs.all (fun c => c v)) := by
  refine Meaning.of_dispatch (by simp) ⟨rfl, rfl⟩ ?_
  intro vm rest hdrop _
  obtain ⟨errors, hrun⟩ := branchAll_run h { vm with ip := vm.ip + 1 } rest
    (drop_of_drop (x := [Instr.branchAllOf bodies.length.toUInt16]) hdrop)
  refine ⟨errors, ?_⟩
  rw [dispatch, toUInt16_toNat hlen, hrun]
  simp [Vm.past]
  omega

/-- What is common to BRANCH_ANYOF and BRANCH_ONEOF: a test of the number of branches that
pass. That number is 0 in a frame that has failed. -/
theorem branchCount_check {bodies : List (List Instr)} {accs : List (Json → Bool)}
    (h : List.Forall₂ m.Meaning bodies accs) (vm : Vm) (rest : List Instr)
    (hdrop : m.code.drop (vm.ip + 1) = bodiesCode bodies ++ rest) (failure : Nat → Option Bytes) :
    ∃ errors, (do
        let (vm, passed) ← branchCount m.execute bodies.length { vm with ip := vm.ip + 1 } 0
        return vm.check (failure passed)) =
      (.ok (vm.past ((bodiesCode bodies).length + 1) errors
        (failure (accs.countP (fun c => c vm.value))).isNone) : Except Fault Vm) := by
  have hrun := branchCount_run h { vm with ip := vm.ip + 1 } rest hdrop 0
  obtain ⟨errors, hcheck⟩ := check_eq
    ⟨vm.value, vm.ip + 1 + (bodiesCode bodies).length, vm.errors, vm.valid⟩
    (failure (0 + accs.countP (fun c => vm.valid && c vm.value)))
  refine ⟨errors, ?_⟩
  rw [hrun]
  simp only [bind, Except.bind, pure, Except.pure]
  rw [hcheck]
  cases hv : vm.valid <;> simp [Vm.past, hv] <;> omega

theorem Meaning.branchAnyOf {bodies : List (List Instr)} {accs : List (Json → Bool)}
    (h : List.Forall₂ m.Meaning bodies accs) (hlen : bodies.length < 65536) :
    m.Meaning (.branchAnyOf bodies.length.toUInt16 :: bodiesCode bodies)
      (fun v => accs.any (fun c => c v)) := by
  refine Meaning.of_dispatch (by simp) ⟨rfl, rfl⟩ ?_
  intro vm rest hdrop _
  obtain ⟨errors, hrun⟩ := branchCount_check h vm rest
    (drop_of_drop (x := [Instr.branchAnyOf bodies.length.toUInt16]) hdrop)
    (fun passed => failIf (passed == 0) (ascii "no anyOf branch matched"))
  refine ⟨errors, ?_⟩
  rw [dispatch, toUInt16_toNat hlen]
  refine hrun.trans ?_
  have hany : (failIf (accs.countP (fun c => c vm.value) == 0)
      (ascii "no anyOf branch matched")).isNone = accs.any (fun c => c vm.value) := by
    rw [failIf_isNone, Bool.eq_iff_iff]
    simp [List.countP_eq_zero]
  rw [hany]

theorem Meaning.branchOneOf {bodies : List (List Instr)} {accs : List (Json → Bool)}
    (h : List.Forall₂ m.Meaning bodies accs) (hlen : bodies.length < 65536) :
    m.Meaning (.branchOneOf bodies.length.toUInt16 :: bodiesCode bodies)
      (fun v => accs.countP (fun c => c v) == 1) := by
  refine Meaning.of_dispatch (by simp) ⟨rfl, rfl⟩ ?_
  intro vm rest hdrop _
  obtain ⟨errors, hrun⟩ := branchCount_check h vm rest
    (drop_of_drop (x := [Instr.branchOneOf bodies.length.toUInt16]) hdrop)
    (fun passed => failIf (passed != 1)
      (ascii "oneOf: expected exactly 1 match, got " ++ decimal passed))
  refine ⟨errors, ?_⟩
  rw [dispatch, toUInt16_toNat hlen]
  refine hrun.trans ?_
  rw [failIf_isNone]
  simp [bne]

end Machine

end Liboas
