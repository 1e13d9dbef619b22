import Liboas.Core.Json
import Mathlib.Data.List.Basic

/-!
# JSON that is written and read back

The library reads back what it wrote, but it reads every integer that is not negative as
an unsigned one.
-/

namespace Liboas

def Num.reread : Num → Num
  | .sint n => if 0 ≤ n.toInt then .uint n.toUInt64 else .sint n
  | .uint n => .uint n
  | .real d => .real d

namespace Json

mutual

/-- The value that is read where this one was written. -/
def reread : Json → Json
  | .num n => .num n.reread
  | .arr items => .arr (rereadItems items)
  | .obj members => .obj (rereadMembers members)
  | v => v

def rereadItems : List Json → List Json
  | [] => []
  | v :: items => reread v :: rereadItems items

def rereadMembers : List (Bytes × Json) → List (Bytes × Json)
  | [] => []
  | m :: members => rereadMember m :: rereadMembers members

def rereadMember : Bytes × Json → Bytes × Json
  | (key, v) => (key, reread v)

end

theorem rereadItems_eq (items : List Json) : rereadItems items = items.map reread := by
  induction items with
  | nil => rfl
  | cons v items ih => rw [rereadItems, ih, List.map_cons]

theorem rereadMembers_eq (members : List (Bytes × Json)) :
    rereadMembers members = members.map (fun m => (m.1, m.2.reread)) := by
  induction members with
  | nil => rfl
  | cons m members ih => rw [rereadMembers, ih, List.map_cons, rereadMember]

@[simp] theorem reread_null : Json.null.reread = .null := rfl
@[simp] theorem reread_bool (b : Bool) : (Json.bool b).reread = .bool b := rfl
@[simp] theorem reread_num (n : Num) : (Json.num n).reread = .num n.reread := rfl
@[simp] theorem reread_str (s : Bytes) : (Json.str s).reread = .str s := rfl

@[simp] theorem reread_arr (items : List Json) :
    (Json.arr items).reread = .arr (items.map reread) := by
  rw [reread, rereadItems_eq]

@[simp] theorem reread_obj (members : List (Bytes × Json)) :
    (Json.obj members).reread = .obj (members.map (fun m => (m.1, m.2.reread))) := by
  rw [reread, rereadMembers_eq]

@[simp] theorem isObj_reread (v : Json) : v.reread.isObj = v.isObj := by
  cases v <;> simp [isObj]

@[simp] theorem isArr_reread (v : Json) : v.reread.isArr = v.isArr := by
  cases v <;> simp [isArr]

theorem getSint_reread (n : Num) : getSint n.reread = getSint n := by
  cases n with
  | sint n =>
    rw [Num.reread]
    split <;> simp [getSint]
  | _ => rfl

/-- What is read back is read back the same. -/
theorem reread_reread (v : Json) : v.reread.reread = v.reread := by
  have hnum : ∀ n : Num, n.reread.reread = n.reread := by
    intro n
    cases n with
    | sint n =>
      rw [Num.reread]
      split
      · rfl
      · rename_i h
        rw [Num.reread, if_neg h]
    | _ => rfl
  refine @Json.rec (fun v => v.reread.reread = v.reread)
    (fun items => ∀ v ∈ items, v.reread.reread = v.reread)
    (fun members => ∀ m ∈ members, m.2.reread.reread = m.2.reread)
    (fun m => m.2.reread.reread = m.2.reread) rfl (fun _ => rfl) ?_ (fun _ => rfl) ?_ ?_ ?_ ?_ ?_ ?_
    ?_ v
  · intro n
    simp [hnum]
  · intro items h
    simpa using h
  · intro members h
    simpa using fun key v hm => h (key, v) hm
  · simp
  · intro v items hv hitems
    simpa using ⟨hv, hitems⟩
  · simp
  · intro m members hm hmembers
    simpa using ⟨hm, fun key v hkv => hmembers (key, v) hkv⟩
  · intro key v hv
    exact hv

/-! ## Objects with fixed keys -/

/-- The object with these members; those that are null are left out. -/
def ofFields (fields : List (String × Option Json)) : Json :=
  .obj (fields.filterMap (fun f => f.2.map (Prod.mk (ascii f.1))))

/-- The keys are different C strings. -/
def KeysFixed (names : List String) : Prop :=
  (names.map ascii).Nodup ∧ ∀ name ∈ names, (0 : UInt8) ∉ ascii name

instance (names : List String) : Decidable (KeysFixed names) :=
  inferInstanceAs (Decidable (_ ∧ _))

theorem reread_ofFields (fields : List (String × Option Json)) :
    (ofFields fields).reread = ofFields (fields.map (fun f => (f.1, f.2.map reread))) := by
  rw [ofFields, ofFields, reread_obj, List.map_filterMap, List.filterMap_map]
  congr 1
  refine List.filterMap_congr (fun f _ => ?_)
  simp [Function.comp_def]

/-- Each member is found under its key. -/
theorem member_ofFields {fields : List (String × Option Json)}
    (hkeys : KeysFixed (fields.map (·.1))) {name : String} {v : Option Json}
    (hmem : (name, v) ∈ fields) : (ofFields fields).member name = v := by
  obtain ⟨hnodup, hnul⟩ := hkeys
  have hname : (CStr.ofString name).bytes = ascii name :=
    CStr.ofBytes_noNul (hnul name (List.mem_map_of_mem hmem))
  rw [member, ofFields, objGet, hname]
  rw [List.map_map] at hnodup
  clear hnul hname
  induction fields with
  | nil => cases hmem
  | cons f fields ih =>
    rw [List.map_cons, List.nodup_cons] at hnodup
    rcases List.mem_cons.mp hmem with rfl | hmem
    · cases v with
      | some v => simp [lookup]
      | none =>
        rw [List.filterMap_cons_none rfl, lookup, Option.map_eq_none_iff, List.find?_eq_none]
        intro m hm
        obtain ⟨g, hg, hm⟩ := List.mem_filterMap.mp hm
        obtain ⟨w, -, rfl⟩ := Option.map_eq_some_iff.mp hm
        have hne : ascii g.1 ≠ ascii name := fun heq =>
          hnodup.1 (List.mem_map.mpr ⟨g, hg, heq⟩)
        simpa using hne
    · have hne : ascii f.1 ≠ ascii name := fun heq =>
        hnodup.1 (List.mem_map.mpr ⟨_, hmem, heq.symm⟩)
      rw [← ih hmem hnodup.2]
      obtain ⟨key, w⟩ := f
      cases w with
      | none => rfl
      | some w => simp [lookup, hne]

theorem member_ofFields_none {fields : List (String × Option Json)} {name : String}
    (hname : (CStr.ofString name).bytes ∉ (fields.map (·.1)).map ascii) :
    (ofFields fields).member name = none := by
  rw [member, ofFields, objGet, lookup, Option.map_eq_none_iff, List.find?_eq_none]
  intro m hm
  obtain ⟨f, hf, hm⟩ := List.mem_filterMap.mp hm
  obtain ⟨v, -, rfl⟩ := Option.map_eq_some_iff.mp hm
  have hne : ascii f.1 ≠ (CStr.ofString name).bytes := fun heq =>
    hname (List.mem_map.mpr ⟨f.1, List.mem_map_of_mem hf, heq⟩)
  simpa using hne

end Json

/-! ## The writer -/

/-- The library can write this value, and reads it back from the text, which is not empty. -/
def WritesBack (write : Json → Option Bytes) (read : Bytes → Option Json) (v : Json) : Prop :=
  ∃ text, text ≠ [] ∧ write v = some text ∧ read text = some v.reread

end Liboas
