import Liboas.Core.Json
import Liboas.Lib.Paired
import Mathlib.Data.List.Nodup
import Mathlib.Data.List.Perm.Subperm

/-!
# The equality of the JSON library

Numbers are compared as they were read: an integer is never equal to a binary64 number. The
members of an object are compared by their keys.
-/

namespace Liboas

namespace Num

/-- The numbers that `yyjson_equals` takes for equal: an integer is never equal to a real. -/
def identical : Num → Num → Bool
  | uint a, uint b => a == b
  | sint a, sint b => a == b
  | uint a, sint b => (a.toNat : Int) == b.toInt
  | sint a, uint b => a.toInt == (b.toNat : Int)
  | real a, real b => a == b
  | _, _ => false

/-- The integer that an integer literal is. -/
def integer : Num → Option Int
  | uint n => some n.toNat
  | sint n => some n.toInt
  | real _ => none

theorem identical_iff {a b : Num} : identical a b = true ↔
    (∃ x, a.integer = some x ∧ b.integer = some x) ∨ ∃ d, a = real d ∧ b = real d := by
  cases a <;> cases b <;> simp [identical, integer]
  · rename_i a b
    constructor
    · rintro rfl
      rfl
    · intro h
      exact (UInt64.toNat_inj.mp (by omega)).symm
  · exact eq_comm
  · exact eq_comm
  · rename_i a b
    constructor
    · rintro rfl
      rfl
    · intro h
      exact (Int64.toInt_inj.mp h).symm
  · exact eq_comm

theorem identical_refl (a : Num) : identical a a = true := by
  cases a <;> simp [identical]

theorem identical_symm {a b : Num} (h : identical a b = true) : identical b a = true := by
  rw [identical_iff] at h ⊢
  rcases h with ⟨x, ha, hb⟩ | ⟨d, ha, hb⟩
  · exact .inl ⟨x, hb, ha⟩
  · exact .inr ⟨d, hb, ha⟩

theorem identical_trans {a b c : Num} (h : identical a b = true) (h' : identical b c = true) :
    identical a c = true := by
  rw [identical_iff] at h h' ⊢
  rcases h with ⟨x, ha, hb⟩ | ⟨d, rfl, rfl⟩
  · rcases h' with ⟨y, hb', hc⟩ | ⟨d, rfl, -⟩
    · rw [hb] at hb'
      cases hb'
      exact .inl ⟨x, ha, hc⟩
    · cases hb
  · rcases h' with ⟨y, hb', -⟩ | ⟨d', hb', rfl⟩
    · cases hb'
    · exact .inr ⟨d, rfl, hb'.symm⟩

end Num

namespace Json

/-! ## Deep equality -/

mutual

/-- `yyjson_equals`. -/
def deepEquals : Json → Json → Bool
  | .null, .null => true
  | .bool a, .bool b => a == b
  | .num a, .num b => a.identical b
  | .str a, .str b => a == b
  | .arr xs, .arr ys => itemsEqual xs ys
  | .obj ms, .obj ns => ms.length == ns.length && membersEqual ms ns
  | _, _ => false

def itemsEqual : List Json → List Json → Bool
  | [], [] => true
  | x :: xs, y :: ys => deepEquals x y && itemsEqual xs ys
  | _, _ => false

def membersEqual : List (Bytes × Json) → List (Bytes × Json) → Bool
  | [], _ => true
  | m :: ms, ns => memberEquals m ns && membersEqual ms ns

def memberEquals : Bytes × Json → List (Bytes × Json) → Bool
  | (key, v), ns => match lookup ns key with
    | some w => deepEquals v w
    | none => false

end

/-- The equality of a value is that of the values in it. -/
@[elab_as_elim]
theorem values_induct {P : Json → Prop} (null : P .null) (bool : ∀ b, P (.bool b))
    (num : ∀ n, P (.num n)) (str : ∀ s, P (.str s))
    (arr : ∀ items : List Json, (∀ v ∈ items, P v) → P (.arr items))
    (obj : ∀ members : List (Bytes × Json), (∀ m ∈ members, P m.2) → P (.obj members))
    (v : Json) : P v := by
  induction hdepth : v.depth using Nat.strongRecOn generalizing v with
  | _ depth ih =>
    subst hdepth
    cases v with
    | null => exact null
    | bool b => exact bool b
    | num n => exact num n
    | str s => exact str s
    | arr items => exact arr items (fun v hv => ih v.depth (depth_item hv) v rfl)
    | obj members => exact obj members (fun m hm => ih m.2.depth (depth_member hm) m.2 rfl)

section DeepEquals

variable {xs ys : List Json} {ms ns : List (Bytes × Json)}

theorem itemsEqual_iff : itemsEqual xs ys = true ↔
    List.Forall₂ (fun x y => deepEquals x y = true) xs ys := by
  induction xs generalizing ys with
  | nil => cases ys <;> simp [itemsEqual]
  | cons x xs ih =>
    cases ys with
    | nil => simp [itemsEqual]
    | cons y ys => rw [itemsEqual, Bool.and_eq_true, ih, List.forall₂_cons]

theorem membersEqual_iff : membersEqual ms ns = true ↔
    ∀ m ∈ ms, ∃ w, lookup ns m.1 = some w ∧ deepEquals m.2 w = true := by
  induction ms with
  | nil => simp [membersEqual]
  | cons m ms ih =>
    rw [membersEqual, Bool.and_eq_true, ih, List.forall_mem_cons]
    refine and_congr_left' ?_
    obtain ⟨key, v⟩ := m
    rw [memberEquals]
    cases lookup ns key <;> simp

theorem deepEquals_arr : deepEquals (.arr xs) (.arr ys) = true ↔
    List.Forall₂ (fun x y => deepEquals x y = true) xs ys := by
  rw [deepEquals, itemsEqual_iff]

theorem deepEquals_obj : deepEquals (.obj ms) (.obj ns) = true ↔ ms.length = ns.length ∧
    ∀ m ∈ ms, ∃ w, lookup ns m.1 = some w ∧ deepEquals m.2 w = true := by
  rw [deepEquals, Bool.and_eq_true, beq_iff_eq, membersEqual_iff]

end DeepEquals

/-- In every object of the value, at any depth, the keys are distinct. -/
inductive DistinctKeys : Json → Prop where
  | null : DistinctKeys .null
  | bool (b : Bool) : DistinctKeys (.bool b)
  | num (n : Num) : DistinctKeys (.num n)
  | str (s : Bytes) : DistinctKeys (.str s)
  | arr (items : List Json) : (∀ v ∈ items, DistinctKeys v) → DistinctKeys (.arr items)
  | obj (members : List (Bytes × Json)) : (members.map (·.1)).Nodup →
      (∀ m ∈ members, DistinctKeys m.2) → DistinctKeys (.obj members)

theorem DistinctKeys.item {items : List Json} (h : DistinctKeys (.arr items)) :
    ∀ v ∈ items, DistinctKeys v := by
  cases h with
  | arr _ h => exact h

theorem DistinctKeys.nodup {members : List (Bytes × Json)} (h : DistinctKeys (.obj members)) :
    (members.map (·.1)).Nodup := by
  cases h with
  | obj _ h _ => exact h

theorem DistinctKeys.member {members : List (Bytes × Json)} (h : DistinctKeys (.obj members)) :
    ∀ m ∈ members, DistinctKeys m.2 := by
  cases h with
  | obj _ _ h => exact h

section Laws

variable {a b c : Json}

theorem deepEquals_refl (ha : DistinctKeys a) :
    deepEquals a a = true := by
  induction a using values_induct with
  | num n =>
    rw [deepEquals]
    exact Num.identical_refl n
  | arr items ih =>
    rw [deepEquals_arr, List.forall₂_same]
    exact fun v hv => ih v hv (ha.item v hv)
  | obj members ih =>
    rw [deepEquals_obj]
    refine ⟨rfl, fun m hm => ⟨m.2, (lookup_eq ha.nodup).mpr hm, ih m hm (ha.member m hm)⟩⟩
  | _ => simp [deepEquals]

/-- Two objects with as many members, of which the one has all the keys of the other. -/
theorem keys_subset {ms ns : List (Bytes × Json)} (hms : (ms.map (·.1)).Nodup)
    (hlength : ms.length = ns.length) (h : ∀ m ∈ ms, ∃ w, lookup ns m.1 = some w) :
    ∀ n ∈ ns, ∃ v, (n.1, v) ∈ ms := by
  have hsubset : ms.map (·.1) ⊆ ns.map (·.1) := by
    intro key hkey
    obtain ⟨m, hm, rfl⟩ := List.mem_map.mp hkey
    obtain ⟨w, hw⟩ := h m hm
    exact List.mem_map.mpr ⟨_, lookup_mem hw, rfl⟩
  have hperm : (ms.map (·.1)).Perm (ns.map (·.1)) := by
    refine (List.subperm_of_subset hms hsubset).perm_of_length_le ?_
    simp [hlength]
  intro n hn
  have hmem := hperm.mem_iff.mpr (List.mem_map_of_mem (f := (·.1)) hn)
  obtain ⟨m, hm, hkey⟩ := List.mem_map.mp hmem
  exact ⟨m.2, hkey ▸ hm⟩

theorem deepEquals_symm (ha : DistinctKeys a) (hb : DistinctKeys b)
    (h : deepEquals a b = true) : deepEquals b a = true := by
  induction a using values_induct generalizing b with
  | arr items ih =>
    cases b with
    | arr items' =>
      rw [deepEquals_arr] at h ⊢
      apply List.Forall₂.flip
      rw [List.forall₂_iff_zip] at h ⊢
      refine ⟨h.1, fun {x y} hzip => ?_⟩
      obtain ⟨hx, hy⟩ := List.of_mem_zip hzip
      exact ih x hx (ha.item x hx) (hb.item y hy) (h.2 hzip)
    | _ => simp [deepEquals] at h
  | obj members ih =>
    cases b with
    | obj members' =>
      rw [deepEquals_obj] at h ⊢
      obtain ⟨hlength, heach⟩ := h
      refine ⟨hlength.symm, fun n hn => ?_⟩
      have hkeys : ∀ m ∈ members, ∃ w, lookup members' m.1 = some w := by
        intro m hm
        obtain ⟨w, hw, -⟩ := heach m hm
        exact ⟨w, hw⟩
      obtain ⟨v, hv⟩ := keys_subset ha.nodup hlength hkeys n hn
      obtain ⟨w, hw, hequal⟩ := heach _ hv
      have hwn : w = n.2 := by
        rw [(lookup_eq hb.nodup).mpr hn] at hw
        exact (Option.some.inj hw).symm
      subst hwn
      exact ⟨v, (lookup_eq ha.nodup).mpr hv, ih _ hv (ha.member _ hv) (hb.member n hn) hequal⟩
    | _ => simp [deepEquals] at h
  | num n =>
    cases b with
    | num n' =>
      rw [deepEquals] at h ⊢
      exact Num.identical_symm h
    | _ => simp [deepEquals] at h
  | _ => cases b <;> simp_all [deepEquals]

theorem deepEquals_trans (hab : deepEquals a b = true)
    (hbc : deepEquals b c = true) : deepEquals a c = true := by
  induction a using values_induct generalizing b c with
  | arr items ih =>
    cases b with
    | arr items' =>
      cases c with
      | arr items'' =>
        rw [deepEquals_arr] at hab hbc ⊢
        exact Paired.trans hab hbc fun x hx _ _ hxy hyz => ih x hx hxy hyz
      | _ => simp [deepEquals] at hbc
    | _ => simp [deepEquals] at hab
  | obj members ih =>
    cases b with
    | obj members' =>
      cases c with
      | obj members'' =>
        rw [deepEquals_obj] at hab hbc ⊢
        refine ⟨hab.1.trans hbc.1, fun m hm => ?_⟩
        obtain ⟨w, hw, hmw⟩ := hab.2 m hm
        obtain ⟨u, hu, hwu⟩ := hbc.2 _ (lookup_mem hw)
        exact ⟨u, hu, ih m hm hmw hwu⟩
      | _ => simp [deepEquals] at hbc
    | _ => simp [deepEquals] at hab
  | num n =>
    cases b with
    | num n' =>
      cases c with
      | num n'' =>
        rw [deepEquals] at hab hbc ⊢
        exact Num.identical_trans hab hbc
      | _ => simp [deepEquals] at hbc
    | _ => simp [deepEquals] at hab
  | _ => cases b <;> cases c <;> simp_all [deepEquals]

/-- Equal objects are equal member by member, once the one is put in the order of the other. -/
theorem deepEquals_perm {ms ns : List (Bytes × Json)} (hms : (ms.map (·.1)).Nodup)
    (hns : (ns.map (·.1)).Nodup) : deepEquals (.obj ms) (.obj ns) = true ↔
      ∃ ns', ns'.Perm ns ∧
        List.Forall₂ (fun m n => m.1 = n.1 ∧ deepEquals m.2 n.2 = true) ms ns' := by
  rw [deepEquals_obj]
  constructor
  · rintro ⟨hlength, heach⟩
    have hpartner : ∀ m ∈ ms, ∃ n : Bytes × Json, n ∈ ns ∧ m.1 = n.1 ∧ deepEquals m.2 n.2 = true := by
      intro m hm
      obtain ⟨w, hw, hequal⟩ := heach m hm
      exact ⟨(m.1, w), lookup_mem hw, rfl, hequal⟩
    obtain ⟨ns', hns'⟩ := Paired.exists_of_forall hpartner
    have hkeys : ms.map (·.1) = ns'.map (·.1) := Paired.map_eq hns' fun _ _ h => h.2.1
    have hsubset : ns' ⊆ ns := by
      intro n hn
      obtain ⟨m, -, h, -⟩ := Paired.exists_left hns' hn
      exact h
    refine ⟨ns', ?_, hns'.imp fun _ _ h => h.2⟩
    refine (List.subperm_of_subset (List.Nodup.of_map _ (hkeys ▸ hms)) hsubset).perm_of_length_le ?_
    rw [← hlength, hns'.length_eq]
  · rintro ⟨ns', hperm, heach⟩
    refine ⟨heach.length_eq.trans hperm.length_eq, fun m hm => ?_⟩
    obtain ⟨n, hn, hkey, hequal⟩ := Paired.exists_right heach hm
    exact ⟨n.2, (lookup_eq hns).mpr (hkey ▸ hperm.mem_iff.mp hn), hequal⟩

end Laws

end Json

end Liboas
