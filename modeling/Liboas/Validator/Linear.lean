import Liboas.Validator.Alignment
import Liboas.Validator.Bounds
import Liboas.Validator.Counted
import Mathlib.Algebra.Order.BigOperators.Group.List
import Mathlib.Tactic.Ring

/-!
# The VM reads each instruction at most once for each node

A frame on a value that has so many nodes reads no more instructions than it passes, times that.
What makes the frames on the parts of a value fit into this is that `skip_to_end` passes what they
ran: together they are for fewer nodes than the value has, and the skip is for the one that is
left.
-/

namespace Liboas

open Outcome Counting Emit Schema Brackets

/-! ## Nodes -/

namespace Json

mutual

/-- The values and the names of members in a value, itself included. -/
def nodes : Json → Nat
  | .arr items => nodesItems items + 1
  | .obj members => nodesMembers members + 1
  | _ => 1

def nodesItems : List Json → Nat
  | [] => 0
  | v :: items => nodes v + nodesItems items

def nodesMembers : List (Bytes × Json) → Nat
  | [] => 0
  | m :: members => nodesMember m + nodesMembers members

def nodesMember : Bytes × Json → Nat
  | (_, v) => nodes v + 1

end

theorem nodes_arr (items : List Json) :
    (Json.arr items).nodes = (items.map nodes).sum + 1 := by
  rw [nodes, Nat.add_right_cancel_iff]
  induction items with
  | nil => rfl
  | cons v items ih => rw [nodesItems, ih, List.map_cons, List.sum_cons]

theorem nodes_obj (members : List (Bytes × Json)) :
    (Json.obj members).nodes = (members.map (fun m => m.2.nodes + 1)).sum + 1 := by
  rw [nodes, Nat.add_right_cancel_iff]
  induction members with
  | nil => rfl
  | cons m members ih => rw [nodesMembers, nodesMember, ih, List.map_cons, List.sum_cons]

theorem nodes_pos (v : Json) : 0 < v.nodes := by
  cases v <;> simp [nodes]

theorem nodes_slot {items : List Json} {slot : Option Json} (h : ∀ w, slot = some w → w ∈ items) :
    (slot.toList.map nodes).sum ≤ (items.map nodes).sum := by
  cases slot with
  | none => exact Nat.zero_le _
  | some w =>
    have := List.single_le_sum (l := items.map nodes) (fun _ _ => Nat.zero_le _) w.nodes
      (List.mem_map_of_mem (h w rfl))
    simpa using this

theorem nodes_values (members : List (Bytes × Json)) :
    ((members.map (·.2)).map nodes).sum + members.length + 1 = (Json.obj members).nodes := by
  rw [nodes_obj]
  induction members with
  | nil => rfl
  | cons m members ih =>
    simp only [List.map_cons, List.sum_cons, List.length_cons] at ih ⊢
    omega

theorem nodes_filter (members : List (Bytes × Json)) (keep : Bytes × Json → Bool) :
    (((members.filter keep).map (·.2)).map nodes).sum ≤ ((members.map (·.2)).map nodes).sum :=
  List.Sublist.sum_le_sum (((List.filter_sublist).map _).map _) (fun _ _ => Nat.zero_le _)

end Json

/-- What frames on some values cost that pass at most `n` instructions each. -/
theorem sum_price (n : Nat) (values : List Json) :
    (values.map (fun v => n * v.nodes)).sum = n * (values.map Json.nodes).sum := by
  induction values with
  | nil => rfl
  | cons v values ih => simp only [List.map_cons, List.sum_cons, ih, Nat.mul_add]

namespace Machine

/-! ## What is spent on the way -/

/-- From `vm` to `vm'`, no more is counted than one for each place passed and each node. -/
def Spent (vm vm' : Vm) (n : Nat) : Prop :=
  vm'.value = vm.value ∧ ∃ j, vm'.ip = vm.ip + j ∧ n ≤ j * vm.value.nodes

theorem Spent.refl (vm : Vm) : Spent vm vm 0 := ⟨rfl, 0, rfl, Nat.zero_le _⟩

theorem Spent.le {vm vm' : Vm} {n : Nat} (h : Spent vm vm' n) : vm.ip ≤ vm'.ip := by
  obtain ⟨-, j, hj, -⟩ := h
  omega

theorem Spent.trans {vm vm' vm'' : Vm} {n n' : Nat} (h : Spent vm vm' n) (h' : Spent vm' vm'' n') :
    Spent vm vm'' (n + n') := by
  obtain ⟨hv, j, hj, hn⟩ := h
  obtain ⟨hv', j', hj', hn'⟩ := h'
  refine ⟨hv'.trans hv, j + j', by omega, ?_⟩
  rw [hv] at hn'
  rw [Nat.add_mul]
  omega

/-- The same value again, at the place that was reached. -/
theorem Spent.back {vm sub vm' : Vm} {n : Nat} (h : Spent vm sub n) (hv : vm'.value = vm.value)
    (hip : vm'.ip = sub.ip) : Spent vm vm' n := by
  obtain ⟨-, j, hj, hn⟩ := h
  exact ⟨hv, j, hip.trans hj, hn⟩

/-- One for each place passed. -/
theorem Spent.passed {vm vm' : Vm} {n : Nat} (hv : vm'.value = vm.value)
    (hip : vm'.ip = vm.ip + n) : Spent vm vm' n :=
  ⟨hv, n, hip, Nat.le_mul_of_pos_right n vm.value.nodes_pos⟩

theorem Spent.of_check {vm vm' : Vm} {n : Nat} (h : Spent vm vm' n) (failure : Option Bytes) :
    Spent vm (vm'.check failure) n := by
  unfold Spent
  rw [check_ip, check_value]
  exact h

/-- The length of what `skip_to_end` passes. -/
abbrev reach (m : Machine) (i : Nat) : Nat := skip depthKind (m.code.drop i) 1

/-- A body starts at `i`: a frame on it ends where `skip_to_end` gets to, or before. -/
def EndsIn (m : Machine) (i : Nat) : Prop :=
  ∀ vm, vm.ip = i → Permits (m.execute vm) (fun vm' => vm'.ip ≤ i + m.reach i)

/-- The counted frames that start at `b` or later are those of `execute`, and they spend as
`Spent` says. -/
def Frugal (m : Machine) (b : Nat) (self : Vm → Counting Fault Vm) : Prop :=
  ∀ vm, b ≤ vm.ip → Spends (self vm) (fun vm' n => m.execute vm = .ok vm' ∧ Spent vm vm' n)

section Costs

variable {m : Machine} {self : Vm → Counting Fault Vm} {b : Nat}

theorem Frugal.spent (hself : m.Frugal b self) (vm : Vm) (hb : b ≤ vm.ip) :
    Spends (self vm) (Spent vm) :=
  (hself vm hb).mono (fun _ _ h => h.2)

theorem skipToEndCounted_spends (vm : Vm) :
    Spends (m.skipToEndCounted vm)
      (fun vm' n => n = m.reach vm.ip ∧ vm'.value = vm.value ∧ vm'.ip = vm.ip + n) :=
  Spends.after_tick (Spends.pure ⟨rfl, rfl, rfl⟩)

theorem skipToEndCounted_spent (vm : Vm) : Spends (m.skipToEndCounted vm) (Spent vm) :=
  (skipToEndCounted_spends vm).mono (fun _ _ h => Spent.passed h.2.1 h.2.2)

theorem readCountCounted_spends (atEnd : Int) (vm : Vm) :
    Spends (m.readCountCounted atEnd vm) (fun r n => Spent vm r.2 n) := by
  refine Spends.after_tick (Spends.free ?_)
  unfold readCount
  split
  · refine Permits.bind (P := fun _ => True) (fun _ _ => trivial) ?_
    intro instr _
    split
    · exact Permits.pure (Spent.passed rfl rfl)
    · exact Permits.error
  · exact Permits.pure (Spent.refl vm)

theorem advance_passes (n : Int) (vm : Vm) :
    Permits (m.advance n vm) (fun vm' => vm'.value = vm.value ∧ vm'.ip = vm.ip + n.toNat) := by
  unfold advance
  split
  · exact Permits.ok ⟨rfl, rfl⟩
  · exact Permits.error

theorem requireNames_value (trigger : CStr) (n : Nat) (vm : Vm) :
    Permits (m.requireNames trigger n vm) (fun vm' => vm'.value = vm.value) := by
  induction n generalizing vm with
  | zero => exact Permits.ok rfl
  | succ n ih =>
    unfold requireNames
    split
    · exact Permits.ok rfl
    · split
      · exact Permits.error
      · refine (ih _).mono (fun vm' h => h.trans ?_)
        rw [check_value]

theorem requireNamesCounted_spends (trigger : CStr) (n : Nat) (vm : Vm) :
    Spends (m.requireNamesCounted trigger n vm) (Spent vm) := by
  have hrun : Permits (m.requireNames trigger n vm)
      (fun vm' => vm'.value = vm.value ∧ vm.ip ≤ vm'.ip) := by
    intro vm' h
    exact ⟨requireNames_value trigger n vm vm' h, requireNames_after trigger n vm vm' h⟩
  refine Spends.bind (P := fun vm' k => (vm'.value = vm.value ∧ vm.ip ≤ vm'.ip) ∧ k = 0)
    (Spends.free (hrun.mono fun vm' h => ⟨h, rfl⟩)) ?_
  rintro vm' _ ⟨⟨hv, hip⟩, rfl⟩
  refine Spends.after_tick (Spends.pure (Spent.passed hv ?_))
  omega

theorem findKey_lt (start : Nat) (wanted : CStr) (n i : Nat) :
    Permits (m.findKey start wanted n i) (fun found => ∀ k, found = some k → k < i + n) := by
  induction n generalizing i with
  | zero => exact Permits.ok (by simp)
  | succ n ih =>
    unfold findKey
    refine Permits.bind (P := fun _ => True) (fun _ _ => trivial) ?_
    intro instr _
    split
    · split
      · refine Permits.pure ?_
        rintro k ⟨⟩
        omega
      · refine (ih (i + 1)).mono (fun found h k hk => ?_)
        have := h k hk
        omega
    · exact Permits.error

theorem findKeyCounted_spends (start : Nat) (wanted : CStr) (count : Nat) :
    Spends (m.findKeyCounted start wanted count) (fun _ n => n ≤ count) := by
  refine Spends.bind (P := fun found k => (∀ i, found = some i → i < 0 + count) ∧ k = 0)
    (Spends.free ((findKey_lt start wanted count 0).mono fun found h => ⟨h, rfl⟩)) ?_
  rintro found _ ⟨hlt, rfl⟩
  refine Spends.after_tick (Spends.pure ?_)
  cases found with
  | none => simp
  | some i =>
    have := hlt i rfl
    simp only [Option.elim]
    omega

theorem branchAllCounted_spends (hself : m.Frugal b self) (n : Nat) (vm : Vm) (hb : b ≤ vm.ip) :
    Spends (branchAllCounted self n vm) (Spent vm) := by
  induction n generalizing vm with
  | zero => exact Spends.pure (Spent.refl vm)
  | succ n ih =>
    refine Spends.bind (hself.spent vm hb) ?_
    intro sub k hsub
    have hnext : Spent vm { vm.merge sub with ip := sub.ip } k := hsub.back rfl rfl
    refine (ih _ ?_).mono (fun vm' k' h => hnext.trans h)
    exact Nat.le_trans hb hsub.le

theorem branchCountCounted_spends (hself : m.Frugal b self) (n : Nat) (vm : Vm) (passed : Nat)
    (hb : b ≤ vm.ip) : Spends (branchCountCounted self n vm passed) (fun r k => Spent vm r.1 k) := by
  induction n generalizing vm passed with
  | zero => exact Spends.pure (Spent.refl vm)
  | succ n ih =>
    refine Spends.bind (hself.spent vm.quiet hb) ?_
    intro sub k hsub
    have hnext : Spent vm { vm with ip := sub.ip } k := hsub.back rfl rfl
    refine (ih _ _ ?_).mono (fun r k' h => hnext.trans h)
    exact Nat.le_trans hb hsub.le

theorem self_spends (hself : m.Frugal b self) (silent : Bool) (vm : Vm) (hb : b ≤ vm.ip) :
    Spends (self (if silent then vm.quiet else vm)) (Spent vm) := by
  cases silent with
  | false => exact hself.spent vm hb
  | true => exact hself.spent vm.quiet hb

theorem passBodiesCounted_spends (hself : m.Frugal b self) (silent : Bool) (n : Nat) (vm : Vm)
    (hb : b ≤ vm.ip) : Spends (passBodiesCounted self silent n vm) (Spent vm) := by
  induction n generalizing vm with
  | zero => exact Spends.pure (Spent.refl vm)
  | succ n ih =>
    refine Spends.bind (self_spends hself silent vm hb) ?_
    intro sub k hsub
    have hnext : ∀ errors, Spent vm { vm with ip := sub.ip, errors := errors } k :=
      fun _ => hsub.back rfl rfl
    refine (ih _ ?_).mono (fun vm' k' h => (hnext _).trans h)
    exact Nat.le_trans hb hsub.le

theorem condPartCounted_spends (hself : m.Frugal b self) (isPart : Instr → Bool) (taken : Bool)
    (vm : Vm) (hb : b ≤ vm.ip) : Spends (m.condPartCounted self isPart taken vm) (Spent vm) := by
  have hnext : Spent vm { vm with ip := vm.ip + 1 } 1 := Spent.passed rfl rfl
  unfold condPartCounted
  cases m.code[vm.ip]? with
  | none => exact Spends.pure (Spent.refl vm)
  | some instr =>
    dsimp only
    cases isPart instr with
    | false => exact Spends.pure (Spent.refl vm)
    | true =>
      refine Spends.after_tick ?_
      cases taken with
      | true =>
        exact (hself.spent { vm with ip := vm.ip + 1 } (Nat.le_succ_of_le hb)).mono
          (fun vm' k h => hnext.trans h)
      | false => exact (skipToEndCounted_spent _).mono (fun vm' k h => hnext.trans h)

/-- The keys are read twice, but each body is run once. -/
theorem dispatchOnCounted_spends (hself : m.Frugal b self) (property : CStr) (start count : Nat)
    (vm : Vm) (hb : b ≤ vm.ip) :
    Spends (m.dispatchOnCounted self property start count vm)
      (fun vm' n => ∃ k k', n = k + k' ∧ k ≤ count ∧ Spent vm vm' k') := by
  have hpass : ∀ message, Spends
      (passBodiesCounted self false count vm >>= fun vm' => pure (vm'.addError message))
      (Spent vm) := by
    intro message
    refine Spends.bind (passBodiesCounted_spends hself false count vm hb) ?_
    intro vm' k h
    exact Spends.pure h
  have hfail : ∀ message, Spends
      (passBodiesCounted self false count vm >>= fun vm' => pure (vm'.addError message))
      (fun vm' n => ∃ k k', n = k + k' ∧ k ≤ count ∧ Spent vm vm' k') :=
    fun message => (hpass message).mono
      (fun vm' n h => ⟨0, n, (Nat.zero_add n).symm, Nat.zero_le _, h⟩)
  unfold dispatchOnCounted
  split
  · split
    · refine Spends.bind (findKeyCounted_spends start _ count) ?_
      intro found k hk
      suffices h : Spends _ (Spent vm) from h.mono (fun vm' k' h => ⟨k, k', rfl, hk, h⟩)
      split
      · exact hpass _
      · rename_i i
        refine Spends.bind (passBodiesCounted_spends hself true i vm hb) ?_
        intro vm' k' h
        have hb' : b ≤ vm'.ip := Nat.le_trans hb h.le
        refine Spends.bind (hself.spent vm' hb') ?_
        intro sub k'' hsub
        have hnext : Spent vm' { vm'.merge sub with ip := sub.ip } k'' := hsub.back rfl rfl
        refine (passBodiesCounted_spends hself true _ _ ?_).mono ?_
        · exact Nat.le_trans hb' hsub.le
        · intro vm'' l hl
          exact h.trans (hnext.trans hl)
    · exact hfail _
  · exact hfail _

/-! ## Frames on the parts of a value -/

/-- As the value was, and `ip` too. -/
abbrev Still (vm vm' : Vm) : Prop := vm'.value = vm.value ∧ vm'.ip = vm.ip

theorem part_spends (hself : m.Frugal b self) {vm t : Vm} (hb : b ≤ vm.ip) (hends : m.EndsIn vm.ip)
    (ht : t.ip = vm.ip) : Spends (self t) (fun _ n => n ≤ m.reach vm.ip * t.value.nodes) := by
  refine (hself t (ht ▸ hb)).mono ?_
  rintro t' n ⟨hrun, -, j, hj, hn⟩
  have hle := hends t ht t' hrun
  exact Nat.le_trans hn (Nat.mul_le_mul_right _ (by omega))

theorem runOnCounted_fold (hself : m.Frugal b self) {vm : Vm} (hb : b ≤ vm.ip)
    (hends : m.EndsIn vm.ip) (values : List Json) :
    Spends (values.foldlM (runOnCounted self vm) vm)
      (fun vm' n => Still vm vm' ∧ n ≤ m.reach vm.ip * (values.map Json.nodes).sum) := by
  rw [← sum_price]
  refine Spends.foldlM ⟨rfl, rfl⟩ ?_
  intro acc hacc value _
  refine Spends.bind (part_spends hself hb hends rfl) ?_
  intro sub n hn
  exact Spends.pure ⟨hacc, hn⟩

theorem onPropCounted_fold (hself : m.Frugal b self) {vm : Vm} (hb : b ≤ vm.ip)
    (hends : m.EndsIn vm.ip) (names : List Bytes) :
    Spends (names.foldlM (onPropCounted self vm) vm)
      (fun vm' n => Still vm vm' ∧ n ≤ m.reach vm.ip * names.length) := by
  have hsum : m.reach vm.ip * names.length = (names.map (fun _ => m.reach vm.ip)).sum := by
    simp [Nat.mul_comm]
  rw [hsum]
  refine Spends.foldlM ⟨rfl, rfl⟩ ?_
  intro acc hacc name _
  refine Spends.bind (part_spends hself hb hends rfl) ?_
  intro sub n hn
  simp only [Json.nodes, Nat.mul_one] at hn
  refine Spends.pure ⟨?_, hn⟩
  split <;> exact hacc

theorem countMatchesCounted_spends (hself : m.Frugal b self) {vm : Vm} (hb : b ≤ vm.ip)
    (hends : m.EndsIn vm.ip) (values : List Json) :
    Spends (countMatchesCounted self vm values)
      (fun _ n => n ≤ m.reach vm.ip * (values.map Json.nodes).sum) := by
  rw [← sum_price]
  refine (Spends.foldlM (I := fun _ => True) trivial ?_).mono (fun _ _ h => h.2)
  intro count _ value _
  refine Spends.bind (part_spends hself hb hends rfl) ?_
  intro sub n hn
  exact Spends.pure ⟨trivial, hn⟩

/-- The skip is paid for with the node that none of the parts has. -/
theorem parts_spent {vm : Vm} {x : Counting Fault Vm} {s : Nat} (hs : s + 1 ≤ vm.value.nodes)
    (hx : Spends x (fun vm' n => Still vm vm' ∧ n ≤ m.reach vm.ip * s)) :
    Spends (x >>= m.skipToEndCounted) (Spent vm) := by
  refine Spends.bind hx ?_
  rintro vm' n ⟨⟨hv, hip⟩, hn⟩
  refine (skipToEndCounted_spends vm').mono ?_
  rintro vm'' k ⟨rfl, hv', hip'⟩
  rw [hip] at hip'
  refine ⟨hv'.trans hv, m.reach vm.ip, hip', ?_⟩
  calc n + m.reach vm'.ip
      ≤ m.reach vm.ip * s + m.reach vm.ip := by rw [hip]; omega
    _ = m.reach vm.ip * (s + 1) := by ring
    _ ≤ m.reach vm.ip * vm.value.nodes := Nat.mul_le_mul_left _ hs

/-! ## One round of the loop -/

/-- The number of operands between an instruction that runs frames on the parts of a value and
the body that the frames are on. -/
def partOperands : Instr → Option Nat
  | .enterItems | .enterPrefixItem _ | .enterProperty _ | .checkPropNames
  | .checkPatternProps _ => some 0
  | .checkContains _ => some 1
  | _ => none

theorem dispatchCounted_spends (hself : m.Frugal b self) (vm : Vm) (hb : b ≤ vm.ip) (instr : Instr)
    (hparts : ∀ k, partOperands instr = some k →
      vm.ip + k ≤ m.code.length ∧ m.EndsIn (vm.ip + k)) :
    Spends (m.dispatchCounted self vm instr) (Spent vm) := by
  cases instr with
  | enterItems =>
    have hends : m.EndsIn vm.ip := (hparts 0 rfl).2
    simp only [dispatchCounted]
    split
    · rename_i items hv
      exact parts_spent (by rw [hv, Json.nodes_arr]) (runOnCounted_fold hself hb hends items)
    · exact skipToEndCounted_spent vm
  | enterPrefixItem index =>
    have hends : m.EndsIn vm.ip := (hparts 0 rfl).2
    simp only [dispatchCounted]
    split
    · rename_i items hv
      refine parts_spent ?_ (runOnCounted_fold hself hb hends _)
      rw [hv, Json.nodes_arr]
      exact Nat.succ_le_succ (Json.nodes_slot fun w hw => List.mem_of_getElem? hw)
    · exact skipToEndCounted_spent vm
  | enterProperty name =>
    have hends : m.EndsIn vm.ip := (hparts 0 rfl).2
    simp only [dispatchCounted]
    split
    · rename_i members hv
      refine parts_spent ?_ (runOnCounted_fold hself hb hends _)
      have hslot : ((vm.value.objGet (some name)).toList.map Json.nodes).sum ≤
          ((members.map (·.2)).map Json.nodes).sum := by
        refine Json.nodes_slot ?_
        intro w hw
        obtain ⟨e, he, rfl⟩ := Json.mem_of_objGet (hv ▸ hw)
        exact List.mem_map_of_mem he
      have := Json.nodes_values members
      rw [hv] at hslot ⊢
      omega
    · exact skipToEndCounted_spent vm
  | enterAdditional => exact skipToEndCounted_spent vm
  | branchAllOf count => exact branchAllCounted_spends hself _ vm hb
  | branchAnyOf count | branchOneOf count =>
    refine Spends.bind (branchCountCounted_spends hself _ vm 0 hb) ?_
    intro r n h
    exact Spends.pure (h.of_check _)
  | negate =>
    refine Spends.bind (hself.spent vm.quiet hb) ?_
    intro sub n h
    have hnext : Spent vm { vm with ip := sub.ip } n := h.back rfl rfl
    exact Spends.pure (hnext.of_check _)
  | condIf =>
    refine Spends.bind (hself.spent vm.quiet hb) ?_
    intro sub n h
    have hnext : Spent vm { vm with ip := sub.ip } n := h.back rfl rfl
    have hb' : b ≤ sub.ip := Nat.le_trans hb h.le
    refine Spends.bind
      (condPartCounted_spends hself isThen sub.valid { vm with ip := sub.ip } hb') ?_
    intro vm' n' h'
    refine (condPartCounted_spends hself isElse _ vm' (Nat.le_trans hb' h'.le)).mono ?_
    intro vm'' n'' h''
    exact hnext.trans (h'.trans h'')
  | checkPropNames =>
    have hends : m.EndsIn vm.ip := (hparts 0 rfl).2
    simp only [dispatchCounted]
    split
    · rename_i members hv
      refine parts_spent ?_ (onPropCounted_fold hself hb hends _)
      have := Json.nodes_values members
      rw [hv, List.length_map]
      omega
    · exact skipToEndCounted_spent vm
  | checkPatternProps pattern =>
    have hends : m.EndsIn vm.ip := (hparts 0 rfl).2
    simp only [dispatchCounted]
    split
    · rename_i members regex hv _
      refine parts_spent ?_ (runOnCounted_fold hself hb hends _)
      have := Json.nodes_values members
      have := Json.nodes_filter members (fun e => regex.isMatch pattern e.1)
      rw [hv]
      omega
    · exact skipToEndCounted_spent vm
  | checkDepRequired trigger =>
    refine Spends.bind (readCountCounted_spends 0 vm) ?_
    intro r n h
    dsimp only
    split
    · refine (requireNamesCounted_spends trigger _ r.2).mono ?_
      intro vm' k h'
      exact h.trans h'
    · refine Spends.free ((advance_passes r.1 r.2).mono ?_)
      rintro vm' ⟨hv, hip⟩
      exact h.trans ⟨hv, _, hip, Nat.zero_le _⟩
  | checkDepSchema trigger =>
    simp only [dispatchCounted]
    split
    · refine Spends.bind (hself.spent vm hb) ?_
      intro sub n h
      exact Spends.pure (h.back rfl rfl)
    · exact skipToEndCounted_spent vm
  | checkContains min =>
    obtain ⟨hlen, hends⟩ := hparts 1 rfl
    simp only [dispatchCounted]
    split
    · rename_i items hv
      -- The bound is read, and then the array is a value with a body behind `ip`.
      refine Spends.bind (P := fun r n => n = 1 ∧ r.2.value = vm.value ∧ r.2.ip = vm.ip + 1) ?_ ?_
      · unfold readCountCounted readCount
        rw [if_pos (by omega), if_pos (by omega)]
        refine Spends.after_tick (Spends.free ?_)
        refine Permits.bind (P := fun _ => True) (fun _ _ => trivial) ?_
        intro instr _
        split
        · exact Permits.pure ⟨rfl, rfl, rfl⟩
        · exact Permits.error
      · rintro r n ⟨rfl, hrv, hrip⟩
        have hnext : Spent vm r.2 1 := Spent.passed hrv hrip
        rw [← hrip] at hends
        have hcount := countMatchesCounted_spends hself (by omega : b ≤ r.2.ip) hends items
        have hbounds : Spends (countMatchesCounted self r.2 items >>= fun count =>
            pure (checkContainsBounds r.2 min r.1 count))
            (fun vm' n => Still r.2 vm' ∧ n ≤ m.reach r.2.ip * (items.map Json.nodes).sum) := by
          refine Spends.bind hcount ?_
          intro count n hn
          exact Spends.pure ⟨⟨by simp [checkContainsBounds], by simp [checkContainsBounds]⟩, hn⟩
        have hskip := parts_spent (by rw [hrv, hv, Json.nodes_arr]) hbounds
        rw [bind_assoc] at hskip
        refine hskip.mono ?_
        intro vm' n h
        exact hnext.trans h
    · exact skipToEndCounted_spent vm
  | discriminator property =>
    refine Spends.bind (readCountCounted_spends 0 vm) ?_
    intro r n h
    refine Spends.bind
      (P := fun vm' k => k = 0 ∧ vm'.value = r.2.value ∧ vm'.ip = r.2.ip + r.1.toNat)
      (Spends.free ((advance_passes r.1 r.2).mono fun vm' h => ⟨rfl, h⟩)) ?_
    rintro vm' _ ⟨rfl, hv, hip⟩
    have hb' : b ≤ vm'.ip := by
      have := h.le
      omega
    refine (dispatchOnCounted_spends hself property _ _ vm' hb').mono ?_
    rintro vm'' _ ⟨k, k', rfl, hk, hspent⟩
    have hkeys : Spent r.2 vm' k := ⟨hv, r.1.toNat, hip,
      Nat.le_trans hk (Nat.le_mul_of_pos_right _ r.2.value.nodes_pos)⟩
    have := h.trans (hkeys.trans hspent)
    simpa [Nat.add_assoc] using this
  | _ => exact Spends.pure ((Spent.refl vm).of_check _)

end Costs

/-! ## The whole loop -/

/-- Behind an instruction that runs frames on the parts of a value stands the body for them. -/
def Housed (m : Machine) (code : List Instr) : Prop :=
  ∀ i instr k, code[i]? = some instr → partOperands instr = some k →
    ∃ operands body rest accepts, code.drop (i + 1) = operands ++ (body ++ .endOp :: rest) ∧
      operands.length = k ∧ m.Body body accepts

section Runs

variable {m : Machine}

theorem Housed.endsIn (h : m.Housed m.code) {i k : Nat} {instr : Instr}
    (hinstr : m.code[i]? = some instr) (hk : partOperands instr = some k) :
    i + 1 + k ≤ m.code.length ∧ m.EndsIn (i + 1 + k) := by
  obtain ⟨operands, body, rest, accepts, hdrop, rfl, hbody⟩ := h i instr k hinstr hk
  have hat : m.code.drop (i + 1 + operands.length) = body ++ .endOp :: rest := drop_of_drop hdrop
  refine ⟨?_, ?_⟩
  · have hlen := congrArg List.length hdrop
    simp only [List.length_drop, List.length_append, List.length_cons] at hlen
    omega
  · intro vm hvm
    rw [← hvm] at hat ⊢
    obtain ⟨errors, hrun⟩ := hbody.ends vm rest hat
    rw [hrun, reach, hat, skip_to_close hbody.balanced rfl]
    exact Permits.ok (Nat.le_refl _)

theorem frameCounted_spends (hcode : m.Housed m.code) {self : Vm → Counting Fault Vm} (vm : Vm)
    (hself : vm.ip < m.code.length → m.Frugal (vm.ip + 1) self) :
    Spends (m.frameCounted self vm) (Spent vm) := by
  have hnext : Spent vm { vm with ip := vm.ip + 1 } 1 := Spent.passed rfl rfl
  unfold frameCounted
  split
  · exact Spends.pure (Spent.refl vm)
  · exact Spends.after_tick (Spends.pure hnext)
  · rename_i instr _ hinstr
    have hself := hself (List.getElem?_eq_some_iff.mp hinstr).1
    refine Spends.after_tick (Spends.bind (dispatchCounted_spends hself
      { vm with ip := vm.ip + 1 } (Nat.le_refl _) instr (fun k hk => hcode.endsIn hinstr hk)) ?_)
    intro vm' n h
    refine (hself.spent vm' h.le).mono ?_
    intro vm'' n' h'
    exact hnext.trans (h.trans h')

/-- By induction on the rounds that may be left. -/
theorem iterate_spends (hcode : m.Housed m.code) (k : Nat) (vm : Vm) (hk : m.left vm < k) :
    Spends (Fuel.iterate m.frameCounted (fun _ => Counting.free (.error .depth)) k vm)
      (fun vm' n => m.execute vm = .ok vm' ∧ Spent vm vm' n) := by
  induction k generalizing vm with
  | zero => omega
  | succ k ih =>
    have hself : vm.ip < m.code.length → m.Frugal (vm.ip + 1)
        (Fuel.iterate m.frameCounted (fun _ => Counting.free (.error .depth)) k) := by
      intro hlt t ht
      refine ih t ?_
      simp only [left] at hk ⊢
      omega
    have hspent := frameCounted_spends hcode vm hself
    refine (hspent.erased (m.iterate_erases (k + 1) vm)).mono ?_
    rintro vm' n ⟨hrun, h⟩
    refine ⟨?_, h⟩
    rw [← hrun]
    exact Fuel.iterate_stable (m.frame_decreasing _) _ _ vm (Nat.lt_succ_self _) hk

theorem executeCounted_spends (hcode : m.Housed m.code) (vm : Vm) :
    Spends (m.executeCounted vm) (Spent vm) :=
  (iterate_spends hcode _ vm (Nat.lt_succ_self _)).mono (fun _ _ h => h.2)

end Runs

/-! ## Compiled code -/

section Code

variable {m : Machine} {x y : List Instr}

theorem housed_nil : m.Housed [] := by
  intro i instr k h
  simp at h

theorem housed_cons {instr : Instr} (hx : m.Housed x)
    (h : ∀ k, partOperands instr = some k → ∃ operands body rest accepts,
      x = operands ++ (body ++ .endOp :: rest) ∧ operands.length = k ∧ m.Body body accepts) :
    m.Housed (instr :: x) := by
  intro i other k hi hk
  cases i with
  | zero =>
    obtain rfl : instr = other := by simpa using hi
    exact h k hk
  | succ i => exact hx i other k hi hk

theorem housed_other {instr : Instr} (hx : m.Housed x) (h : partOperands instr = none) :
    m.Housed (instr :: x) := by
  refine housed_cons hx ?_
  intro k hk
  rw [h] at hk
  cases hk

theorem housed_append (hx : m.Housed x) (hy : m.Housed y) : m.Housed (x ++ y) := by
  intro i instr k hi hk
  by_cases hlt : i < x.length
  · rw [List.getElem?_append_left hlt] at hi
    obtain ⟨operands, body, rest, accepts, hdrop, hlen, hbody⟩ := hx i instr k hi hk
    refine ⟨operands, body, rest ++ y, accepts, ?_, hlen, hbody⟩
    rw [List.drop_append_of_le_length (by omega), hdrop]
    simp
  · rw [List.getElem?_append_right (by omega)] at hi
    obtain ⟨operands, body, rest, accepts, hdrop, hlen, hbody⟩ := hy _ instr k hi hk
    refine ⟨operands, body, rest, accepts, ?_, hlen, hbody⟩
    rw [← hdrop, List.drop_append, List.drop_of_length_le (by omega), List.nil_append]
    congr 1
    omega

theorem housed_plain (h : PlainCode x) : m.Housed x := by
  induction h with
  | nil => exact housed_nil
  | check hi _ ih =>
    refine housed_other ih ?_
    rename_i instr _ _
    cases instr <;> first | rfl | cases hi
  | dependent trigger names _ ih =>
    refine housed_other (housed_other (housed_append ?_ ih) rfl) rfl
    induction names with
    | nil => exact housed_nil
    | cons name names ih' => exact housed_other ih' rfl

theorem housed_end (hx : m.Housed x) : m.Housed (x ++ [.endOp]) :=
  housed_append hx (housed_other housed_nil rfl)

theorem housed_bodies {bodies : List (List Instr)} (h : ∀ body ∈ bodies, m.Housed body) :
    m.Housed (bodies.flatMap (· ++ [.endOp])) := by
  induction bodies with
  | nil => exact housed_nil
  | cons body bodies ih =>
    rw [List.flatMap_cons]
    exact housed_append (housed_end (h body List.mem_cons_self))
      (ih fun b hb => h b (List.mem_cons_of_mem _ hb))

theorem housed_branchHead {n : Nat} (h : BranchHead n x) : m.Housed x := by
  cases h with
  | allOf | anyOf | oneOf => exact housed_other housed_nil rfl
  | discriminator property keys hkeys =>
    refine housed_other (housed_other ?_ rfl) rfl
    clear hkeys
    induction keys with
    | nil => exact housed_nil
    | cons key keys ih => exact housed_other ih rfl

/-- A body behind its head, which runs it on the parts of a value or not. -/
theorem housed_nested {head body : List Instr} (hhead : NestedHead head) (hbody : m.Housed body)
    (h : head ≠ [.negate] → ∃ accepts, m.Body body accepts) :
    m.Housed (head ++ (body ++ [.endOp])) := by
  cases hhead with
  | @single i hi =>
    refine housed_cons (housed_end hbody) ?_
    intro k hk
    obtain ⟨accepts, hacc⟩ := h (by rintro ⟨⟩; cases hk)
    refine ⟨[], body, [], accepts, rfl, ?_, hacc⟩
    cases i with
    | checkContains => cases hi
    | _ => first | exact Option.some.inj hk | cases hk
  | contains min max =>
    refine housed_cons (housed_other (housed_end hbody) rfl) ?_
    intro k hk
    obtain ⟨accepts, hacc⟩ := h (by simp)
    exact ⟨[.nopCount max], body, [], accepts, rfl, Option.some.inj hk, hacc⟩

end Code

section Compiled

variable {α : Type} {mem : Memory α} {config : Option CompilerConfig} {m : Machine}

/-- Of the bodies that stand alone, only that of NEGATE is never skipped. -/
theorem nested_skippable {s : Schema α} {head : Emit} {slot : Option α}
    (h : .nested head slot ∈ layout config s) :
    head = emit [.negate] ∨ ∀ a, slot = some a → a ∈ skippable config s := by
  have hrest : .nested head slot ∈ layout config { s with notSchema := none } →
      ∀ a, slot = some a → a ∈ skippable config s := by
    rintro hmem a rfl
    have : a ∈ applied config { s with notSchema := none } :=
      nests_layout.mp ⟨_, hmem, rfl, List.mem_singleton_self _⟩
    simpa [applied, skippable] using this
  rcases List.mem_append.mp h with h | hlast
  · rcases List.mem_append.mp h with h | hcond
    · rcases List.mem_append.mp h with hfront | hnegate
      · exact .inr (hrest (List.mem_append_left _ (List.mem_append_left _
          (List.mem_append_left _ hfront))))
      · left
        unfold nestedPart at hnegate
        split at hnegate
        · cases List.mem_singleton.mp hnegate
          rfl
        · cases hnegate
    · exact .inr (hrest (List.mem_append_left _ (List.mem_append_right _ hcond)))
  · exact .inr (hrest (List.mem_append_right _ hlast))

theorem housed_part (hregex : m.regex = backend config) {s : Schema α} {depth : Nat} {p : Part α}
    (hskip : ∀ a ∈ skippable config s, Flat mem config a) (hp : p ∈ layout config s)
    (h : ∀ a, some a ∈ p.slots → Permits (compileSchema mem config depth a) m.Housed) :
    Permits (p.code (compileSchema mem config depth)) m.Housed := by
  have hslot : ∀ {slot : Option α} {body : List Instr}, slot ∈ p.slots →
      orNull (slot.map (compileSchema mem config depth)) = .ok body → m.Housed body := by
    intro slot body hmem hok
    cases slot with
    | none =>
      cases hok
      exact housed_nil
    | some a => exact h a hmem body hok
  have hshape := layout_shape hp
  cases p with
  | plain code => exact hshape.mono (fun _ hcode => housed_plain hcode)
  | nested head slot =>
    intro code hcode
    obtain ⟨x, y, hx, hy, rfl⟩ := append_eq_ok.mp hcode
    obtain ⟨body, hbody, rfl⟩ := emitBody_ok.mp hy
    refine housed_nested (hshape x hx) (hslot (List.mem_singleton_self _) hbody) ?_
    intro hne
    rcases nested_skippable hp with rfl | hskippable
    · exact absurd (Except.ok.inj hx).symm hne
    · exact flat_slot_body hregex (fun a ha => hskip a (hskippable a ha)) ⟨depth, hbody⟩
  | branches head slots =>
    intro code hcode
    obtain ⟨x, y, hx, hy, rfl⟩ := append_eq_ok.mp hcode
    cases hx
    obtain ⟨bodies, hbodies, rfl⟩ := emitBodies_ok.mp hy
    refine housed_append (housed_branchHead hshape.2) (housed_bodies ?_)
    intro body hbody
    obtain ⟨emitted, hmem, hok⟩ := Paired.exists_left hbodies hbody
    obtain ⟨slot, hslots, rfl⟩ := List.mem_map.mp hmem
    exact hslot hslots hok

/-- When no composition has to be skipped, the bodies stand where the frames look for them. -/
theorem compileSchema_housed (hregex : m.regex = backend config) (depth : Nat) (a : α)
    (hskip : ∀ b, Compiles mem config a b → (mem b).refResolved = none →
      ∀ c ∈ skippable config (mem b), Flat mem config c) :
    Permits (compileSchema mem config depth a) m.Housed := by
  induction depth generalizing a with
  | zero => exact Permits.error
  | succ depth ih =>
    rw [compileSchema_succ]
    have hnext : ∀ b ∈ followed config (mem a),
        Permits (compileSchema mem config depth b) m.Housed :=
      fun b hb => ih b (fun c hc => hskip c (.step hb hc))
    cases href : (mem a).refResolved with
    | some target => exact hnext target (by simp [followed, href])
    | none =>
      dsimp only
      split
      · exact Permits.error
      · rw [compileKeywords_eq]
        refine permits_emitEach housed_nil (fun _ _ => housed_append) ?_
        intro p hp
        refine housed_part hregex (hskip a (.refl a) href) hp ?_
        intro b hb
        refine hnext b ?_
        rw [mem_followed href]
        exact (mem_layout_slots hp hb).imp And.right And.right

end Compiled

end Machine

/-- A program reads each of its instructions at most once for each node of the value, if no
composition stands where `skip_to_end` has to pass it. -/
theorem executeCounted_linear {α : Type} (mem : Memory α) (config : Option CompilerConfig)
    (depth : Nat) (root : α) (compiled : CompiledSchema)
    (hcompile : oasSchemaCompile mem config depth (some root) = .ok compiled)
    (hskip : ∀ b, Compiles mem config root b → (mem b).refResolved = none →
      ∀ a ∈ skippable config (mem b), Flat mem config a)
    (rt : Runtime) (direction : Direction) (value : Json) (errors : ErrorList) :
    ∃ vm reads, (compiled.machine rt direction).executeCounted ⟨value, 0, errors, true⟩ 0 =
        .ok (vm, reads) ∧
      (compiled.machine rt direction).execute ⟨value, 0, errors, true⟩ = .ok vm ∧
      reads ≤ compiled.program.length * value.nodes := by
  have hhoused : (compiled.machine rt direction).Housed compiled.program := by
    obtain ⟨code, hcode, heq⟩ := bind_eq_ok.mp hcompile
    cases heq
    exact Machine.housed_end (Machine.compileSchema_housed rfl depth root hskip code hcode)
  obtain ⟨vm, -, hrun, -, hip, -⟩ := Machine.execute_safe (compiled.machine rt direction)
    (oasSchemaCompile_tokenised hcompile) (fun _ => true) (fun _ _ => rfl)
    ⟨value, 0, errors, true⟩ (boundary_zero _)
  have herased := Machine.executeCounted_erases (compiled.machine rt direction)
    ⟨value, 0, errors, true⟩ 0
  rw [hrun] at herased
  cases hcounted : (compiled.machine rt direction).executeCounted ⟨value, 0, errors, true⟩ 0 with
  | error fault =>
    rw [hcounted] at herased
    cases herased
  | ok r =>
    rw [hcounted] at herased
    obtain rfl : r.1 = vm := Except.ok.inj herased
    obtain ⟨n, hn, -, j, hj, hle⟩ :=
      Machine.executeCounted_spends hhoused ⟨value, 0, errors, true⟩ 0 r.1 r.2 hcounted
    refine ⟨r.1, r.2, rfl, hrun, ?_⟩
    calc r.2 = n := by omega
      _ ≤ j * value.nodes := hle
      _ ≤ compiled.program.length * value.nodes := by
        refine Nat.mul_le_mul_right _ ?_
        have hlen : r.1.ip ≤ compiled.program.length := hip
        simp only [Nat.zero_add] at hj
        omega

/-- `{"items": {"type": "string"}}` -/
def stringItems : SchemaTree := .node { items := some (typeOnly typeString) }

theorem executeCounted_linear_stringItems :
    ∃ vm reads, (CompiledSchema.machine ⟨[.enterItems, .checkType typeString, .endOp, .endOp],
        none⟩ (.knowing []) .none).executeCounted ⟨.arr [.null, .str []], 0, none, true⟩ 0 =
        .ok (vm, reads) ∧
      (CompiledSchema.machine ⟨[.enterItems, .checkType typeString, .endOp, .endOp],
        none⟩ (.knowing []) .none).execute ⟨.arr [.null, .str []], 0, none, true⟩ = .ok vm ∧
      reads ≤ 4 * 3 := by
  have hleaf : ∀ b, Compiles SchemaTree.memory none (typeOnly typeString) b →
      b = typeOnly typeString := by
    intro b hb
    cases hb with
    | refl => rfl
    | step hc _ => cases hc
  refine executeCounted_linear SchemaTree.memory none 2 stringItems _ rfl ?_ (.knowing []) .none
    (.arr [.null, .str []]) none
  intro b hb _ a ha c hc
  cases hb with
  | refl =>
    obtain rfl : a = typeOnly typeString := List.mem_singleton.mp ha
    rw [hleaf c hc]
    rfl
  | step hb hrest =>
    obtain rfl := List.mem_singleton.mp hb
    rw [hleaf b hrest] at ha
    cases ha

end Liboas
