import Liboas.Validator.Run

/-!
# Two runs at the same place

States of two machines that stand at the same place of the same code. An instruction that asks no
frame for its flag keeps them related in every way that the operations on states keep.
-/

namespace Liboas

open Outcome

/-- What the instruction does depends on the flag of another frame, or on a quiet frame. -/
def Instr.asks : Instr → Bool
  | .branchAnyOf _ | .branchOneOf _ | .negate | .condIf | .checkPropNames | .checkContains _
  | .discriminator _ => true
  | _ => false

namespace Machine

/-- The relation is one of states at the same place, and the operations on states keep it. -/
structure Alongside (R : Vm → Vm → Prop) : Prop where
  value : ∀ {vm vm'}, R vm vm' → vm'.value = vm.value
  ip : ∀ {vm vm'}, R vm vm' → vm'.ip = vm.ip
  move : ∀ {vm vm'}, R vm vm' → ∀ value ip,
    R { vm with value := value, ip := ip } { vm' with value := value, ip := ip }
  addError : ∀ {vm vm'}, R vm vm' → ∀ message, R (vm.addError message) (vm'.addError message)
  merge : ∀ {vm vm' sub sub'}, R vm vm' → R sub sub' → R (vm.merge sub) (vm'.merge sub')

/-- Two functions that keep the states related. -/
def Together (R : Vm → Vm → Prop) (f g : Vm → Except Fault Vm) : Prop :=
  ∀ vm vm', R vm vm' → Relates (f vm) (g vm') R

/-- The same code, and the same regular expressions. -/
structure Twin (m m' : Machine) : Prop where
  code : m'.code = m.code
  regex : m'.regex = m.regex

theorem Twin.refl (m : Machine) : m.Twin m := ⟨rfl, rfl⟩

variable {R : Vm → Vm → Prop} {m m' : Machine} {f g : Vm → Except Fault Vm} {vm vm' : Vm}

theorem Alongside.at (hR : Alongside R) (h : R vm vm') (ip : Nat) :
    R { vm with ip := ip } { vm' with ip := ip } := by
  rw [hR.value h]
  exact hR.move h vm.value ip

theorem Alongside.check (hR : Alongside R) (h : R vm vm') (failure : Option Bytes) :
    R (vm.check failure) (vm'.check failure) := by
  cases failure with
  | none => exact h
  | some message => exact hR.addError h message

/-- The merged state goes on where the other frame ended. -/
theorem Alongside.merged (hR : Alongside R) (h : R vm vm') {sub sub' : Vm} (hsub : R sub sub') :
    R { vm.merge sub with ip := sub.ip } { vm'.merge sub' with ip := sub'.ip } := by
  rw [hR.ip hsub]
  exact hR.at (hR.merge h hsub) sub.ip

theorem Alongside.skip (hR : Alongside R) (hm : m.Twin m') (h : R vm vm') :
    R (m.skipToEnd vm) (m'.skipToEnd vm') := by
  unfold skipToEnd
  rw [hR.ip h, hm.code]
  exact hR.at h _

section Frames

variable (hR : Alongside R)
include hR

theorem skip_alongside (hm : m.Twin m') {x y : Except Fault Vm} (h : Relates x y R) :
    Relates (x >>= fun vm => pure (m.skipToEnd vm)) (y >>= fun vm => pure (m'.skipToEnd vm)) R :=
  Relates.bind h (fun _ _ h => Relates.pure (hR.skip hm h))

theorem runOn_alongside (hfg : Together R f g) (hip : vm'.ip = vm.ip) {acc acc' : Vm}
    (h : R acc acc') (value : Json) :
    Relates (runOn f vm acc value) (runOn g vm' acc' value) R := by
  unfold runOn
  rw [hip]
  refine Relates.bind (hfg _ _ (hR.move h value vm.ip)) ?_
  intro sub sub' hsub
  exact Relates.pure (hR.merge h hsub)

theorem branchAll_alongside (hfg : Together R f g) (n : Nat) (h : R vm vm') :
    Relates (branchAll f n vm) (branchAll g n vm') R := by
  induction n generalizing vm vm' with
  | zero => exact Relates.ok h
  | succ n ih =>
    refine Relates.bind (hfg vm vm' h) ?_
    intro sub sub' hsub
    exact ih (hR.merged h hsub)

theorem readCount_alongside (hm : m.Twin m') (atEnd : Int) (h : R vm vm') :
    Relates (m.readCount atEnd vm) (m'.readCount atEnd vm') (fun r r' => r'.1 = r.1 ∧ R r.2 r'.2) := by
  unfold readCount read
  rw [hR.ip h, hm.code]
  refine Relates.ite Iff.rfl ?_ (Relates.pure ⟨rfl, h⟩)
  refine Relates.same_bind (fun instr => ?_)
  split
  · exact Relates.pure ⟨rfl, hR.at h _⟩
  · exact Relates.error

theorem advance_alongside (hm : m.Twin m') (n : Int) (h : R vm vm') :
    Relates (m.advance n vm) (m'.advance n vm') R := by
  unfold advance
  rw [hR.ip h, hm.code]
  exact Relates.ite Iff.rfl (Relates.ok (hR.at h _)) Relates.error

theorem requireNames_alongside (hm : m.Twin m') (trigger : CStr) (n : Nat) (h : R vm vm') :
    Relates (m.requireNames trigger n vm) (m'.requireNames trigger n vm') R := by
  induction n generalizing vm vm' with
  | zero => exact Relates.ok h
  | succ n ih =>
    unfold requireNames
    rw [hR.ip h, hR.value h, hm.code]
    split
    · exact Relates.ok h
    · split
      · exact Relates.error
      · apply ih
        have hnext := hR.move h vm.value (vm.ip + 1)
        exact hR.check hnext _

/-- One instruction that asks no frame. -/
theorem dispatch_alongside (hm : m.Twin m') (hfg : Together R f g) {instr : Instr}
    (hasks : instr.asks = false)
    (hcheck : R (vm.check (checkOp m vm.value instr)) (vm'.check (checkOp m' vm'.value instr)))
    (h : R vm vm') : Relates (m.dispatch f vm instr) (m'.dispatch g vm' instr) R := by
  have hskip : Relates (.ok (m.skipToEnd vm) : Except Fault Vm) (.ok (m'.skipToEnd vm')) R :=
    Relates.ok (hR.skip hm h)
  have hrun : ∀ values : List Json, Relates
      (values.foldlM (runOn f vm) vm >>= fun vm => pure (m.skipToEnd vm))
      (values.foldlM (runOn g vm') vm' >>= fun vm => pure (m'.skipToEnd vm)) R := by
    intro values
    apply skip_alongside hR hm
    exact Relates.foldlM (S := R) values
      (fun _ _ hacc v => runOn_alongside hR hfg (hR.ip h) hacc v) h
  cases instr with
  | branchAnyOf | branchOneOf | negate | condIf | checkPropNames | checkContains | discriminator =>
    cases hasks
  | enterItems | enterPrefixItem | enterProperty =>
    simp only [dispatch]
    rw [hR.value h]
    split
    · exact hrun _
    · exact hskip
  | checkPatternProps =>
    simp only [dispatch]
    rw [hR.value h, hm.regex]
    split
    · exact hrun _
    · exact hskip
  | enterAdditional => exact hskip
  | branchAllOf count => exact branchAll_alongside hR hfg _ h
  | checkDepRequired trigger =>
    refine Relates.bind (readCount_alongside hR hm 0 h) ?_
    rintro r r' ⟨hcount, hr⟩
    dsimp only
    rw [hR.value hr, hcount]
    refine Relates.ite Iff.rfl ?_ ?_
    · exact requireNames_alongside hR hm trigger _ hr
    · exact advance_alongside hR hm _ hr
  | checkDepSchema trigger =>
    simp only [dispatch]
    rw [hR.value h]
    refine Relates.ite Iff.rfl ?_ hskip
    refine Relates.bind (hfg vm vm' h) ?_
    intro sub sub' hsub
    exact Relates.pure (hR.merged h hsub)
  | _ => exact Relates.ok hcheck

end Frames

end Machine

end Liboas
