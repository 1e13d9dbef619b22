import Liboas.Lib.Gathering
import Liboas.Validator.Spellings

/-!
# Equal values

The JSON library takes two values for equal when their objects have the same members, in any order.
A program cannot tell such values apart: frames on them take the same way, and where they visit the
members of an object one after the other, the order shows in the errors only.
-/

namespace Liboas

open Outcome

namespace Json

/-- Values that write no key twice, and that are equal. -/
structure Same (a b : Json) : Prop where
  left : DistinctKeys a
  right : DistinctKeys b
  equal : deepEquals a b = true

namespace Same

variable {a b c : Json}

theorem items {xs : List Json} (h : Same (.arr xs) b) : ∃ ys, b = .arr ys ∧ List.Forall₂ Same xs ys := by
  obtain ⟨hleft, hright, hequal⟩ := h
  cases b with
  | arr ys =>
    refine ⟨ys, rfl, ?_⟩
    rw [deepEquals_arr] at hequal
    refine List.forall₂_iff_get.mpr ⟨hequal.length_eq, fun i hi hi' => ?_⟩
    exact ⟨hleft.item _ (List.get_mem _ _), hright.item _ (List.get_mem _ _), hequal.get hi hi'⟩
  | _ => simp [deepEquals] at hequal

theorem members {ms : List (Bytes × Json)} (h : Same (.obj ms) b) : ∃ ns ns', b = .obj ns ∧
    ns'.Perm ns ∧ List.Forall₂ (fun m n => m.1 = n.1 ∧ Same m.2 n.2) ms ns' := by
  obtain ⟨hleft, hright, hequal⟩ := h
  cases b with
  | obj ns =>
    obtain ⟨ns', hperm, hequal⟩ := (deepEquals_perm hleft.nodup hright.nodup).mp hequal
    refine ⟨ns, ns', rfl, hperm, ?_⟩
    refine List.forall₂_iff_get.mpr ⟨hequal.length_eq, fun i hi hi' => ?_⟩
    obtain ⟨hkey, hvalue⟩ := hequal.get hi hi'
    exact ⟨hkey, hleft.member _ (List.get_mem _ _),
      hright.member _ (hperm.mem_iff.mp (List.get_mem _ _)), hvalue⟩
  | _ => simp [deepEquals] at hequal

end Same

end Json

/-- The values that an instruction compares with. -/
def Instr.constants : Instr → List Json
  | .checkEnum (.arr items) => items
  | .checkConst x => [x]
  | _ => []

/-- The values that a program compares with. -/
def CompiledSchema.constants (compiled : CompiledSchema) : List Json :=
  compiled.program.flatMap Instr.constants

/-- What the libraries do with equal values: `yyjson_equals`, and the number that an integer is
read as, which does not depend on its sign. -/
structure Runtime.Discerns (rt : Runtime) : Prop where
  equals : EqualsAsRead rt
  getNum : ∀ n n' : Num, n.identical n' = true → rt.getNum n = rt.getNum n'

namespace Json

theorem Same.arrays {a b : Json} (h : Same a b) :
    (∃ xs ys, a = .arr xs ∧ b = .arr ys ∧ List.Forall₂ Same xs ys) ∨
      ((∀ xs, a ≠ .arr xs) ∧ ∀ ys, b ≠ .arr ys) := by
  cases a with
  | arr xs =>
    obtain ⟨ys, rfl, hitems⟩ := h.items
    exact .inl ⟨xs, ys, rfl, rfl, hitems⟩
  | _ =>
    obtain ⟨-, -, hequal⟩ := h
    cases b <;> first
      | (simp [deepEquals] at hequal; done)
      | exact .inr ⟨by simp, by simp⟩

theorem Same.objects {a b : Json} (h : Same a b) :
    (∃ ms ns, a = .obj ms ∧ b = .obj ns ∧
      Gathering.Covers (fun m n => m.1 = n.1 ∧ Same m.2 n.2) ms ns) ∨
      ((∀ ms, a ≠ .obj ms) ∧ ∀ ns, b ≠ .obj ns) := by
  cases a with
  | obj ms =>
    obtain ⟨ns, ns', rfl, hperm, hmembers⟩ := h.members
    exact .inl ⟨ms, ns, rfl, rfl, (Gathering.Covers.of_forall₂ hmembers).perm hperm⟩
  | _ =>
    obtain ⟨-, -, hequal⟩ := h
    cases b <;> first
      | (simp [deepEquals] at hequal; done)
      | exact .inr ⟨by simp, by simp⟩

theorem Same.strings {a b : Json} (h : Same a b) :
    (∃ s, a = .str s ∧ b = .str s) ∨ ((∀ s, a ≠ .str s) ∧ ∀ s, b ≠ .str s) := by
  obtain ⟨-, -, hequal⟩ := h
  cases a with
  | str s =>
    cases b with
    | str t =>
      rw [deepEquals, beq_iff_eq] at hequal
      exact .inl ⟨s, rfl, congrArg Json.str hequal.symm⟩
    | _ => simp [deepEquals] at hequal
  | _ =>
    cases b <;> first
      | (simp [deepEquals] at hequal; done)
      | exact .inr ⟨by simp, by simp⟩

theorem Same.lookup {a b : Json} (h : Same a b) (name : Option CStr) :
    (a.objGet name = none ∧ b.objGet name = none) ∨
      ∃ v w, a.objGet name = some v ∧ b.objGet name = some w ∧ Same v w := by
  cases a with
  | obj ms =>
    obtain ⟨ns, ns', rfl, hperm, hpairs⟩ := h.members
    cases name with
    | none => exact .inl ⟨rfl, rfl⟩
    | some name =>
      have hcovers := (Gathering.Covers.of_forall₂ hpairs).perm hperm
      cases hget : (Json.obj ms).objGet (some name) with
      | none =>
        left
        refine ⟨rfl, ?_⟩
        by_contra hne
        obtain ⟨w, hw⟩ := Option.ne_none_iff_exists'.mp hne
        obtain ⟨m, hm, hkey, -⟩ := hcovers.right _ (lookup_mem hw)
        have hnone : Json.lookup ms name.bytes = none := hget
        have hsome := lookup_isSome.mpr ⟨m.2, hm⟩
        rw [show m.1 = name.bytes from hkey, hnone] at hsome
        cases hsome
      | some v =>
        right
        obtain ⟨n, hn, hkey, hsame⟩ := hcovers.left _ (lookup_mem hget)
        refine ⟨v, n.2, rfl, ?_, hsame⟩
        have hfound := (lookup_eq h.right.nodup).mpr hn
        rwa [show n.1 = name.bytes from hkey.symm] at hfound
  | _ =>
    obtain ⟨-, -, hequal⟩ := h
    cases b <;> first | exact .inl ⟨rfl, rfl⟩ | simp [deepEquals] at hequal

end Json

section Checks

variable {m : Machine} {v v' a a' b b' : Json}

theorem failIf_isSome (failed : Bool) (message : Bytes) : (failIf failed message).isSome = failed := by
  cases failed <;> rfl

theorem Json.Same.refl (ha : Json.DistinctKeys a) : Json.Same a a := ⟨ha, ha, Json.deepEquals_refl ha⟩

theorem Json.Same.equals_eq {rt : Runtime} (hequals : EqualsAsRead rt) (ha : Json.Same a a')
    (hb : Json.Same b b') : rt.equals a' b' = rt.equals a b := by
  rw [hequals a' b' ha.right hb.right, hequals a b ha.left hb.left, Bool.eq_iff_iff]
  have hback := Json.deepEquals_symm hb.left hb.right hb.equal
  constructor
  · intro h
    exact Json.deepEquals_trans (Json.deepEquals_trans ha.equal h) hback
  · intro h
    have hfirst := Json.deepEquals_symm ha.left ha.right ha.equal
    exact Json.deepEquals_trans (Json.deepEquals_trans hfirst h) hb.equal

theorem any_same {p q : Json → Bool} {xs ys : List Json} (h : List.Forall₂ Json.Same xs ys)
    (hpq : ∀ x y, Json.Same x y → q y = p x) : ys.any q = xs.any p := by
  induction h with
  | nil => rfl
  | cons hxy _ ih => rw [List.any_cons, List.any_cons, hpq _ _ hxy, ih]

theorem hasDuplicateItems_same {rt : Runtime} (hrt : rt.Discerns) {xs ys : List Json}
    (h : List.Forall₂ Json.Same xs ys) : hasDuplicateItems rt ys = hasDuplicateItems rt xs := by
  induction h with
  | nil => rfl
  | cons hxy hrest ih =>
    rw [hasDuplicateItems, hasDuplicateItems, ih]
    rw [any_same hrest (fun x y h => hxy.equals_eq hrt.equals h)]

theorem typeMask_same {rt : Runtime} {n n' : Num} (h : n.identical n' = true) :
    yyjsonToTypeMask rt (.num n') = yyjsonToTypeMask rt (.num n) := by
  rcases Num.identical_iff.mp h with ⟨x, hn, hn'⟩ | ⟨d, rfl, rfl⟩
  · cases n <;> cases n' <;> first | rfl | simp [Num.integer] at hn hn'
  · rfl

/-- The checks that compare the value with others. -/
theorem checkOp_compared (hrt : m.rt.Discerns) {instr : Instr}
    (hconstants : ∀ c ∈ instr.constants, Json.DistinctKeys c)
    (hinstr : (∃ values, instr = .checkEnum values) ∨ ∃ x, instr = .checkConst x)
    (h : Json.Same v v') : (checkOp m v' instr).isSome = (checkOp m v instr).isSome := by
  rcases hinstr with ⟨values, rfl⟩ | ⟨x, rfl⟩
  · cases values with
    | arr items =>
      simp only [checkOp, failIf_isSome]
      have hitems : List.Forall₂ Json.Same items items :=
        List.forall₂_same.mpr (fun c hc => .refl (hconstants c hc))
      rw [any_same hitems (fun x y hxy => h.equals_eq hrt.equals hxy)]
    | _ => rfl
  · simp only [checkOp, failIf_isSome]
    rw [h.equals_eq hrt.equals (.refl (hconstants x List.mem_cons_self))]

theorem checkOp_same (hrt : m.rt.Discerns) {instr : Instr}
    (hconstants : ∀ c ∈ instr.constants, Json.DistinctKeys c) (h : Json.Same v v') :
    (checkOp m v' instr).isSome = (checkOp m v instr).isSome := by
  by_cases hinstr : (∃ values, instr = .checkEnum values) ∨ ∃ x, instr = .checkConst x
  · exact checkOp_compared hrt hconstants hinstr h
  rw [not_or] at hinstr
  obtain ⟨henum, hconst⟩ := hinstr
  push Not at henum hconst
  cases v with
  | null | bool | str =>
    obtain ⟨-, -, hequal⟩ := h
    cases v' <;> simp [Json.deepEquals] at hequal
    all_goals first | rw [hequal] | rfl
  | num n =>
    obtain ⟨-, -, hequal⟩ := h
    cases v' with
    | num n' =>
      rw [Json.deepEquals] at hequal
      cases instr with
      | checkEnum values => exact absurd rfl (henum values)
      | checkConst x => exact absurd rfl (hconst x)
      | checkType => simp only [checkOp, typeMask_same hequal]
      | _ => simp only [checkOp, hrt.getNum n n' hequal]
    | _ => simp [Json.deepEquals] at hequal
  | arr items =>
    obtain ⟨items', rfl, hitems⟩ := h.items
    cases instr with
    | checkEnum values => exact absurd rfl (henum values)
    | checkConst x => exact absurd rfl (hconst x)
    | checkUnique => simp only [checkOp, hasDuplicateItems_same hrt hitems]
    | _ => simp only [checkOp, hitems.length_eq, yyjsonToTypeMask]
  | obj members =>
    obtain ⟨members', members'', rfl, hperm, hmembers⟩ := h.members
    have hlength : members'.length = members.length := by
      rw [← hperm.length_eq, hmembers.length_eq]
    cases instr with
    | checkEnum values => exact absurd rfl (henum values)
    | checkConst x => exact absurd rfl (hconst x)
    | checkRequired name =>
      simp only [checkOp, failIf_isSome]
      rcases h.lookup name with ⟨hleft, hright⟩ | ⟨w, w', hleft, hright, -⟩
      · rw [hleft, hright]
      · rw [hleft, hright]
        rfl
    | _ => simp only [checkOp, hlength, yyjsonToTypeMask]

end Checks

namespace Machine

variable {m : Machine} {f g : Vm → Except Fault Vm} {vm vm' : Vm}

/-- States of two frames at the same place, on equal values. -/
structure Peers (vm vm' : Vm) : Prop where
  value : Json.Same vm.value vm'.value
  ip : vm'.ip = vm.ip
  valid : vm'.valid = vm.valid

/-- Two functions that keep the states so. -/
def Pace (f g : Vm → Except Fault Vm) : Prop :=
  ∀ vm vm', Peers vm vm' → Relates (f vm) (g vm') Peers

theorem Peers.at (h : Peers vm vm') (ip : Nat) : Peers { vm with ip := ip } { vm' with ip := ip } :=
  ⟨h.value, rfl, h.valid⟩

theorem Peers.quiet (h : Peers vm vm') : Peers vm.quiet vm'.quiet := ⟨h.value, h.ip, h.valid⟩

theorem Peers.merge (h : Peers vm vm') {sub sub' : Vm} (hsub : Peers sub sub') :
    Peers (vm.merge sub) (vm'.merge sub') := by
  refine ⟨h.value, h.ip, ?_⟩
  unfold Vm.merge
  dsimp only
  rw [h.valid, hsub.valid]

/-- The merged state goes on where the other frame ended. -/
theorem Peers.merged (h : Peers vm vm') {sub sub' : Vm} (hsub : Peers sub sub') :
    Peers { vm.merge sub with ip := sub.ip } { vm'.merge sub' with ip := sub'.ip } := by
  rw [hsub.ip]
  exact (h.merge hsub).at sub.ip

theorem Peers.addError (h : Peers vm vm') (message message' : Bytes) :
    Peers (vm.addError message) (vm'.addError message') := ⟨h.value, h.ip, rfl⟩

theorem Peers.check (h : Peers vm vm') {failure failure' : Option Bytes}
    (hsame : failure'.isSome = failure.isSome) :
    Peers (vm.check failure) (vm'.check failure') := by
  cases failure with
  | none =>
    cases failure' with
    | none => exact h
    | some _ => cases hsame
  | some message =>
    cases failure' with
    | none => cases hsame
    | some message' => exact h.addError message message'

theorem Peers.skip (h : Peers vm vm') : Peers (m.skipToEnd vm) (m.skipToEnd vm') := by
  unfold skipToEnd
  rw [h.ip]
  exact h.at _

/-! ## Frames on one value each -/

/-- A frame on the value ends with this flag. -/
def Ran (f : Vm → Except Fault Vm) (ip : Nat) (value : Json) (valid : Bool) : Prop :=
  ∃ errors sub, f ⟨value, ip, errors, true⟩ = .ok sub ∧ sub.valid = valid

theorem Pace.ran (hfg : Pace f g) {ip : Nat} {a b : Json} {c d : Bool} (h : Json.Same a b)
    (ha : Ran f ip a c) (hb : Ran g ip b d) : d = c := by
  obtain ⟨errors, sub, hsub, rfl⟩ := ha
  obtain ⟨errors', sub', hsub', rfl⟩ := hb
  exact (hfg ⟨a, ip, errors, true⟩ ⟨b, ip, errors', true⟩ ⟨h, rfl, rfl⟩ sub sub' hsub hsub').valid

/-- The state is still on this value, at this place. -/
def Stands (vm acc : Vm) : Prop := acc.value = vm.value ∧ acc.ip = vm.ip

theorem runOn_judged {acc : Vm} (hacc : Stands vm acc) (value : Json) :
    Permits (runOn f vm acc value) (fun acc' => Stands vm acc' ∧
      Gathering.Judged (Ran f vm.ip) [value] acc.valid acc'.valid) := by
  intro acc' hrun
  obtain ⟨sub, hsub, hacc'⟩ := bind_eq_ok.mp hrun
  cases hacc'
  refine ⟨hacc, .and fun hstart => ⟨acc.errors, sub, ?_, rfl⟩⟩
  rwa [hstart] at hsub

/-- A frame on the name, as a string, ends with this flag. -/
def NameRan (f : Vm → Except Fault Vm) (ip : Nat) (name : Bytes) (valid : Bool) : Prop :=
  Ran f ip (.str (CStr.ofBytes name).bytes) valid

theorem onProp_judged {acc : Vm} (hacc : Stands vm acc) (name : Bytes) :
    Permits (onProp f vm acc name) (fun acc' => Stands vm acc' ∧
      Gathering.Judged (NameRan f vm.ip) [name] acc.valid acc'.valid) := by
  intro acc' hrun
  obtain ⟨sub, hsub, hacc'⟩ := bind_eq_ok.mp hrun
  cases hacc'
  have hran : acc.valid = true → NameRan f vm.ip name sub.valid := by
    intro hstart
    rw [hstart] at hsub
    exact ⟨acc.errors, sub, hsub, rfl⟩
  have hjudged := Gathering.Judged.and hran
  cases hsub : sub.valid with
  | true =>
    rw [hsub, Bool.and_true] at hjudged
    exact ⟨hacc, hjudged⟩
  | false =>
    rw [hsub, Bool.and_false] at hjudged
    exact ⟨hacc, hjudged⟩

/-- The frames on lists of values that are the same up to their order. -/
theorem runOn_pace (hfg : Pace f g) (h : Peers vm vm') {values values' : List Json}
    (hvalues : Gathering.Covers Json.Same values values') :
    Relates (values.foldlM (runOn f vm) vm) (values'.foldlM (runOn g vm') vm') Peers := by
  intro r r' hr hr'
  obtain ⟨hstands, hjudged⟩ :=
    Gathering.Judged.foldlM (fun _ value hacc => runOn_judged hacc value) values ⟨rfl, rfl⟩ r hr
  obtain ⟨hstands', hjudged'⟩ :=
    Gathering.Judged.foldlM (fun _ value hacc => runOn_judged hacc value) values' ⟨rfl, rfl⟩ r' hr'
  rw [h.valid, h.ip] at hjudged'
  refine ⟨?_, ?_, Gathering.Judged.agree hvalues (fun _ _ _ _ => hfg.ran) hjudged hjudged'⟩
  · rw [hstands.1, hstands'.1]
    exact h.value
  · rw [hstands.2, hstands'.2, h.ip]

theorem onProp_pace (hfg : Pace f g) (h : Peers vm vm') {names names' : List Bytes}
    (hnames : Gathering.Covers (fun a b => b = a) names names') :
    Relates (names.foldlM (onProp f vm) vm) (names'.foldlM (onProp g vm') vm') Peers := by
  intro r r' hr hr'
  obtain ⟨hstands, hjudged⟩ :=
    Gathering.Judged.foldlM (fun _ name hacc => onProp_judged hacc name) names ⟨rfl, rfl⟩ r hr
  obtain ⟨hstands', hjudged'⟩ :=
    Gathering.Judged.foldlM (fun _ name hacc => onProp_judged hacc name) names' ⟨rfl, rfl⟩ r' hr'
  rw [h.valid, h.ip] at hjudged'
  have hagree : ∀ a b c d, b = a → NameRan f vm.ip a c → NameRan g vm.ip b d → d = c := by
    rintro a b c d rfl
    exact hfg.ran (.refl (.str _))
  refine ⟨?_, ?_, Gathering.Judged.agree hnames hagree hjudged hjudged'⟩
  · rw [hstands.1, hstands'.1]
    exact h.value
  · rw [hstands.2, hstands'.2, h.ip]

/-- As many values pass. -/
theorem countMatches_pace (hfg : Pace f g) (h : Peers vm vm') {values values' : List Json}
    (hvalues : List.Forall₂ Json.Same values values') :
    Relates (countMatches f vm values) (countMatches g vm' values') (fun n n' => n' = n) := by
  refine Gathering.relates_foldlM hvalues ?_ rfl
  rintro n _ value value' rfl hvalue
  refine Relates.bind (hfg { vm.quiet with value := value } { vm'.quiet with value := value' }
    ⟨hvalue, h.ip, h.valid⟩) ?_
  intro sub sub' hsub
  rw [hsub.valid]
  exact Relates.pure rfl

theorem branchAll_pace (hfg : Pace f g) (n : Nat) (h : Peers vm vm') :
    Relates (branchAll f n vm) (branchAll g n vm') Peers := by
  induction n generalizing vm vm' with
  | zero => exact Relates.ok h
  | succ n ih =>
    refine Relates.bind (hfg vm vm' h) ?_
    intro sub sub' hsub
    exact ih (h.merged hsub)

theorem branchCount_pace (hfg : Pace f g) (n : Nat) (h : Peers vm vm') (passed : Nat) :
    Relates (branchCount f n vm passed) (branchCount g n vm' passed)
      (fun r r' => Peers r.1 r'.1 ∧ r'.2 = r.2) := by
  induction n generalizing vm vm' passed with
  | zero => exact Relates.ok ⟨h, rfl⟩
  | succ n ih =>
    refine Relates.bind (hfg vm.quiet vm'.quiet h.quiet) ?_
    intro sub sub' hsub
    rw [hsub.ip, hsub.valid]
    exact ih (h.at sub.ip) _

theorem passBodies_pace (hfg : Pace f g) (silent : Bool) (n : Nat) (h : Peers vm vm') :
    Relates (passBodies f silent n vm) (passBodies g silent n vm') Peers := by
  induction n generalizing vm vm' with
  | zero => exact Relates.ok h
  | succ n ih =>
    have hstart : Peers (if silent then vm.quiet else vm) (if silent then vm'.quiet else vm') := by
      cases silent
      · exact h
      · exact h.quiet
    refine Relates.bind (hfg _ _ hstart) ?_
    intro sub sub' hsub
    exact ih ⟨h.value, hsub.ip, h.valid⟩

theorem condPart_pace (hfg : Pace f g) (isPart : Instr → Bool) (taken : Bool) (h : Peers vm vm') :
    Relates (m.condPart f isPart taken vm) (m.condPart g isPart taken vm') Peers := by
  unfold condPart
  rw [h.ip]
  split
  · refine Relates.ite Iff.rfl ?_ (Relates.ok h)
    cases taken with
    | true => exact hfg _ _ (h.at (vm.ip + 1))
    | false => exact Relates.ok (h.at (vm.ip + 1)).skip
  · exact Relates.ok h

theorem readCount_pace (atEnd : Int) (h : Peers vm vm') :
    Relates (m.readCount atEnd vm) (m.readCount atEnd vm')
      (fun r r' => r'.1 = r.1 ∧ Peers r.2 r'.2) := by
  unfold readCount
  rw [h.ip]
  refine Relates.ite Iff.rfl ?_ (Relates.pure ⟨rfl, h⟩)
  refine Relates.same_bind (fun instr => ?_)
  split
  · exact Relates.pure ⟨rfl, h.at _⟩
  · exact Relates.error

theorem advance_pace (n : Int) (h : Peers vm vm') :
    Relates (m.advance n vm) (m.advance n vm') Peers := by
  unfold advance
  rw [h.ip]
  exact Relates.ite Iff.rfl (Relates.ok (h.at _)) Relates.error

/-- Equal values have members of the same names. -/
theorem Peers.has (h : Peers vm vm') (name : Option CStr) :
    (vm'.value.objGet name).isSome = (vm.value.objGet name).isSome := by
  rcases h.value.lookup name with ⟨hleft, hright⟩ | ⟨v, w, hleft, hright, -⟩
  · rw [hleft, hright]
  · rw [hleft, hright]
    rfl

theorem requireNames_pace (trigger : CStr) (n : Nat) (h : Peers vm vm') :
    Relates (m.requireNames trigger n vm) (m.requireNames trigger n vm') Peers := by
  induction n generalizing vm vm' with
  | zero => exact Relates.ok h
  | succ n ih =>
    unfold requireNames
    rw [h.ip]
    split
    · exact Relates.ok h
    · split
      · exact Relates.error
      · rename_i name _
        apply ih
        apply (h.at (vm.ip + 1)).check
        rw [failIf_isSome, failIf_isSome, ← Option.not_isSome, ← Option.not_isSome, h.has name]

theorem dispatchOn_pace (hfg : Pace f g) (property : CStr) (start count : Nat) (h : Peers vm vm') :
    Relates (m.dispatchOn f property start count vm) (m.dispatchOn g property start count vm')
      Peers := by
  have hpass : ∀ message, Relates
      (passBodies f false count vm >>= fun vm => pure (vm.addError message))
      (passBodies g false count vm' >>= fun vm => pure (vm.addError message)) Peers := by
    intro message
    refine Relates.bind (passBodies_pace hfg false count h) ?_
    intro vm₁ vm₁' h₁
    exact Relates.pure (h₁.addError message message)
  unfold dispatchOn
  rcases h.value.objects with ⟨ms, ns, hms, hns, -⟩ | ⟨hleft, hright⟩
  · rw [hms, hns]
    dsimp only
    rw [← hms, ← hns]
    rcases h.value.lookup (some property) with ⟨hget, hget'⟩ | ⟨v, w, hget, hget', hsame⟩
    · rw [hget, hget']
      exact hpass _
    · rw [hget, hget']
      rcases hsame.strings with ⟨wanted, rfl, rfl⟩ | ⟨hv, hw⟩
      · refine Relates.same_bind (fun found => ?_)
        cases found with
        | none => exact hpass _
        | some i =>
          refine Relates.bind (passBodies_pace hfg true i h) ?_
          intro vm₁ vm₁' h₁
          refine Relates.bind (hfg vm₁ vm₁' h₁) ?_
          intro sub sub' hsub
          exact passBodies_pace hfg true _ (h₁.merged hsub)
      · split
        · rename_i wanted heq
          exact absurd (Option.some.inj heq) (hv wanted)
        · split
          · rename_i wanted heq
            exact absurd (Option.some.inj heq) (hw wanted)
          · exact hpass _
  · split
    · rename_i ms hms
      exact absurd hms (hleft ms)
    · exact hpass _

theorem checkContainsBounds_pace (h : Peers vm vm') (min max : Int) (count : Nat) :
    Peers (checkContainsBounds vm min max count) (checkContainsBounds vm' min max count) :=
  (h.check rfl).check rfl

/-- Frames on the values of both, and then past their body. -/
theorem skip_pace (hfg : Pace f g) (h : Peers vm vm') {values values' : List Json}
    (hvalues : Gathering.Covers Json.Same values values') :
    Relates (values.foldlM (runOn f vm) vm >>= fun vm => pure (m.skipToEnd vm))
      (values'.foldlM (runOn g vm') vm' >>= fun vm => pure (m.skipToEnd vm)) Peers :=
  Relates.bind (runOn_pace hfg h hvalues) (fun _ _ h => Relates.pure h.skip)

theorem itemAt_same {xs ys : List Json} (h : List.Forall₂ Json.Same xs ys) (i : Nat) :
    List.Forall₂ Json.Same xs[i]?.toList ys[i]?.toList := by
  by_cases hi : i < xs.length
  · have hi' : i < ys.length := h.length_eq ▸ hi
    rw [List.getElem?_eq_getElem hi, List.getElem?_eq_getElem hi']
    exact .cons (h.get hi hi') .nil
  · have hi' : ¬ i < ys.length := h.length_eq ▸ hi
    rw [List.getElem?_eq_none (not_lt.mp hi), List.getElem?_eq_none (not_lt.mp hi')]
    exact .nil

theorem dispatch_pace (hrt : m.rt.Discerns) (hfg : Pace f g) {instr : Instr}
    (hconstants : ∀ c ∈ instr.constants, Json.DistinctKeys c) (h : Peers vm vm') :
    Relates (m.dispatch f vm instr) (m.dispatch g vm' instr) Peers := by
  have hskip : Relates (.ok (m.skipToEnd vm) : Except Fault Vm) (.ok (m.skipToEnd vm')) Peers :=
    Relates.ok h.skip
  have harrays := h.value.arrays
  have hobjects := h.value.objects
  cases instr with
  | enterItems =>
    simp only [dispatch]
    rcases harrays with ⟨xs, ys, hxs, hys, hitems⟩ | ⟨hleft, hright⟩
    · rw [hxs, hys]
      exact skip_pace hfg h (.of_forall₂ hitems)
    · simpa only [hleft, hright] using hskip
  | enterPrefixItem index =>
    simp only [dispatch]
    rcases harrays with ⟨xs, ys, hxs, hys, hitems⟩ | ⟨hleft, hright⟩
    · rw [hxs, hys]
      apply skip_pace hfg h
      exact .of_forall₂ (itemAt_same hitems index.toNat)
    · simpa only [hleft, hright] using hskip
  | enterProperty name =>
    simp only [dispatch]
    rcases hobjects with ⟨ms, ns, hms, hns, -⟩ | ⟨hleft, hright⟩
    · rw [hms, hns]
      dsimp only
      rw [← hms, ← hns]
      apply skip_pace hfg h
      rcases h.value.lookup (some name) with ⟨hget, hget'⟩ | ⟨v, w, hget, hget', hsame⟩
      · rw [hget, hget']
        exact .of_forall₂ .nil
      · rw [hget, hget']
        exact .of_forall₂ (.cons hsame .nil)
    · simpa only [hleft, hright] using hskip
  | enterAdditional => exact hskip
  | branchAllOf count => exact branchAll_pace hfg _ h
  | branchAnyOf count | branchOneOf count =>
    refine Relates.bind (branchCount_pace hfg _ h 0) ?_
    rintro r r' ⟨hpeers, hpassed⟩
    apply Relates.pure
    apply hpeers.check
    rw [failIf_isSome, failIf_isSome, hpassed]
  | negate =>
    refine Relates.bind (hfg _ _ h.quiet) ?_
    intro sub sub' hsub
    rw [hsub.ip, hsub.valid]
    exact Relates.pure ((h.at sub.ip).check rfl)
  | condIf =>
    refine Relates.bind (hfg _ _ h.quiet) ?_
    intro sub sub' hsub
    rw [hsub.ip, hsub.valid]
    refine Relates.bind (condPart_pace hfg _ _ (h.at sub.ip)) ?_
    intro vm₁ vm₁' h₁
    exact condPart_pace hfg _ _ h₁
  | checkPropNames =>
    simp only [dispatch]
    rcases hobjects with ⟨ms, ns, hms, hns, hmembers⟩ | ⟨hleft, hright⟩
    · rw [hms, hns]
      have hnames : Gathering.Covers (fun a b => b = a) (ms.map (·.1)) (ns.map (·.1)) :=
        hmembers.map _ _ (fun _ _ h => h.1.symm)
      exact Relates.bind (onProp_pace hfg h hnames) (fun _ _ h => Relates.pure h.skip)
    · simpa only [hleft, hright] using hskip
  | checkPatternProps pattern =>
    simp only [dispatch]
    cases m.regex with
    | none => simpa using hskip
    | some regex =>
      rcases hobjects with ⟨ms, ns, hms, hns, hmembers⟩ | ⟨hleft, hright⟩
      · rw [hms, hns]
        have hmatching : Gathering.Covers (fun m n => m.1 = n.1 ∧ Json.Same m.2 n.2)
            (ms.filter (fun e => regex.isMatch pattern e.1))
            (ns.filter (fun e => regex.isMatch pattern e.1)) :=
          hmembers.filter (fun _ _ h => by rw [h.1])
        exact skip_pace hfg h (hmatching.map _ _ (fun _ _ h => h.2))
      · split
        · rename_i ms _ hms _
          exact absurd hms (hleft ms)
        · split
          · rename_i ns _ hns _
            exact absurd hns (hright ns)
          · exact hskip
  | checkDepRequired trigger =>
    refine Relates.bind (readCount_pace 0 h) ?_
    rintro r r' ⟨hcount, hr⟩
    dsimp only
    rw [hr.has, hcount]
    exact Relates.ite Iff.rfl (requireNames_pace trigger _ hr) (advance_pace _ hr)
  | checkDepSchema trigger =>
    simp only [dispatch]
    rw [h.has]
    refine Relates.ite Iff.rfl ?_ hskip
    refine Relates.bind (hfg vm vm' h) ?_
    intro sub sub' hsub
    exact Relates.pure (h.merged hsub)
  | checkContains min =>
    simp only [dispatch]
    rcases harrays with ⟨xs, ys, hxs, hys, hitems⟩ | ⟨hleft, hright⟩
    · rw [hxs, hys]
      refine Relates.bind (readCount_pace (-1) h) ?_
      rintro r r' ⟨hmax, hr⟩
      refine Relates.bind (countMatches_pace hfg hr hitems) ?_
      rintro n _ rfl
      rw [hmax]
      exact Relates.pure (checkContainsBounds_pace hr _ _ _).skip
    · simpa only [hleft, hright] using hskip
  | discriminator property =>
    refine Relates.bind (readCount_pace 0 h) ?_
    rintro r r' ⟨hcount, hr⟩
    dsimp only
    rw [hr.ip, hcount]
    refine Relates.bind (advance_pace _ hr) ?_
    intro vm₁ vm₁' h₁
    exact dispatchOn_pace hfg property _ _ h₁
  | _ => exact Relates.ok (h.check (checkOp_same hrt hconstants h.value))

theorem frame_pace (hrt : m.rt.Discerns)
    (hcode : ∀ instr ∈ m.code, ∀ c ∈ instr.constants, Json.DistinctKeys c) (watch : Nat → Bool)
    (hfg : Pace f g) : Pace (m.frame watch f) (m.frame watch g) := by
  intro vm vm' h
  unfold frame
  rw [h.ip]
  refine Relates.ite Iff.rfl ?_ Relates.error
  split
  · exact Relates.ok h
  · exact Relates.ok (h.at _)
  · rename_i instr _ hinstr
    have hconstants := hcode instr (List.mem_of_getElem? hinstr)
    refine Relates.bind (dispatch_pace hrt hfg hconstants (h.at _)) ?_
    exact fun vm₁ vm₁' h₁ => hfg vm₁ vm₁' h₁

/-- The rounds of both frames, side by side. -/
theorem execute_pace (hrt : m.rt.Discerns)
    (hcode : ∀ instr ∈ m.code, ∀ c ∈ instr.constants, Json.DistinctKeys c) :
    Pace m.execute m.execute := by
  intro vm vm' h
  have hleft : m.left vm' = m.left vm := by
    unfold left
    rw [h.ip]
  unfold execute executeWatched Fuel.run
  rw [hleft]
  have hbottom : Pace (fun _ => .error .depth) (fun _ => .error .depth) := fun _ _ _ => Relates.error
  have hiterate := Fuel.iterate_keeps (P := fun f => Pace f f) hbottom
    (fun _ => frame_pace hrt hcode (fun _ => true)) (m.left vm + 1)
  exact hiterate vm vm' h

end Machine

/-! ## The verdict -/

theorem accepts_same {compiled : CompiledSchema} (hsound : compiled.Sound) {rt : Runtime}
    (hrt : rt.Discerns) (hconstants : ∀ c ∈ compiled.constants, Json.DistinctKeys c)
    {v v' : Json} (h : Json.Same v v') (direction : Direction) :
    compiled.accepts rt direction v' = compiled.accepts rt direction v := by
  have hcode : ∀ instr ∈ compiled.program, ∀ c ∈ instr.constants, Json.DistinctKeys c :=
    fun instr hinstr c hc => hconstants c (List.mem_flatMap.mpr ⟨instr, hinstr, hc⟩)
  obtain ⟨vm, hvm, haccepts⟩ := hsound.run rt direction v none
  obtain ⟨vm', hvm', haccepts'⟩ := hsound.run rt direction v' none
  have hpeers := Machine.execute_pace (m := compiled.machine rt direction) hrt hcode
    ⟨v, 0, none, true⟩ ⟨v', 0, none, true⟩ ⟨h, rfl, rfl⟩ vm vm' hvm hvm'
  rw [haccepts, haccepts', hpeers.valid]

/-- Values that the JSON library takes for equal get the same verdict, whatever the schema. -/
theorem equal_values_same_verdict {α : Type} {mem : Memory α} {config : Option CompilerConfig}
    {depth : Nat} {schema : Option α} {compiled : CompiledSchema}
    (hcompile : oasSchemaCompile mem config depth schema = .ok compiled) {rt : Runtime}
    (hrt : rt.Discerns) (hconstants : ∀ c ∈ compiled.constants, Json.DistinctKeys c) {v v' : Json}
    (hv : Json.DistinctKeys v) (hv' : Json.DistinctKeys v') (hequal : rt.equals v v' = true)
    (direction : Direction) (result result' : Result) (arena arena' : Bool) :
    ∃ valid errors errors',
      oasValidateWithDirection rt compiled v direction result arena = .ok (0, ⟨valid, errors⟩) ∧
      oasValidateWithDirection rt compiled v' direction result' arena' =
        .ok (0, ⟨valid, errors'⟩) := by
  have hsound := oasSchemaCompile_sound hcompile
  rw [hrt.equals v v' hv hv'] at hequal
  obtain ⟨errors, hspec⟩ := validate_spec hsound rt v direction result arena
  obtain ⟨errors', hspec'⟩ := validate_spec hsound rt v' direction result' arena'
  rw [accepts_same hsound hrt hconstants ⟨hv, hv', hequal⟩] at hspec'
  exact ⟨_, errors, errors', hspec, hspec'⟩

theorem bits_of_toInt {a : UInt64} {b : Int64} (h : (a.toNat : Int) = b.toInt) :
    a = b.toUInt64 := by
  have hpos : 0 ≤ b := by
    rw [Int64.le_iff_toInt_le, ← h]
    exact Int.natCast_nonneg _
  apply UInt64.toNat_inj.mp
  rw [Int64.toNat_toUInt64_of_le hpos, Int64.toNatClampNeg, ← h, Int.toNat_natCast]

theorem comparingRuntime_discerns : comparingRuntime.Discerns where
  equals := comparingRuntime_equals
  getNum n n' h := by
    cases n <;> cases n' <;> simp [Num.identical] at h
    · rw [h]
    · exact congrArg Double.mk (bits_of_toInt h)
    · exact congrArg Double.mk (bits_of_toInt h.symm).symm
    · rw [h]
    · rw [h]

theorem distinct_pair {name name' : Bytes} {a b : Json} (ha : Json.DistinctKeys a)
    (hb : Json.DistinctKeys b) (h : name ≠ name') :
    Json.DistinctKeys (.obj [(name, a), (name', b)]) := by
  refine .obj _ (by simpa using h) ?_
  exact List.forall_mem_cons.mpr ⟨ha, List.forall_mem_singleton.mpr hb⟩

/-- `{"a": true, "b": null}`, written both ways, for `{"required": ["a"], "const": …}`. -/
theorem equal_values_same_verdict_swapped :
    ∃ valid errors errors',
      oasValidateWithDirection comparingRuntime
        ⟨[.checkRequired (some (.ofString "a")),
          .checkConst (.obj [(ascii "a", .bool true), (ascii "b", .null)]), .endOp], none⟩
        (.obj [(ascii "a", .bool true), (ascii "b", .null)]) .none ⟨false, none⟩ true =
          .ok (0, ⟨valid, errors⟩) ∧
      oasValidateWithDirection comparingRuntime
        ⟨[.checkRequired (some (.ofString "a")),
          .checkConst (.obj [(ascii "a", .bool true), (ascii "b", .null)]), .endOp], none⟩
        (.obj [(ascii "b", .null), (ascii "a", .bool true)]) .none ⟨false, none⟩ true =
          .ok (0, ⟨valid, errors'⟩) := by
  apply @equal_values_same_verdict _ SchemaTree.memory none 1
    (some (.node { required := [some (.ofString "a")],
                   constValue := some (.obj [(ascii "a", .bool true), (ascii "b", .null)]) }))
  · rfl
  · exact comparingRuntime_discerns
  · exact List.forall_mem_singleton.mpr (distinct_pair (.bool true) .null (by decide))
  · exact distinct_pair (.bool true) .null (by decide)
  · exact distinct_pair .null (.bool true) (by decide)
  · simp [comparingRuntime, Json.deepEquals, Json.membersEqual, Json.memberEquals, Json.lookup, ascii]

end Liboas
