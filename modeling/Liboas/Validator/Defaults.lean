import Liboas.Core.Error
import Liboas.Core.Written
import Liboas.Lib.Growing
import Liboas.Schema.Model

/-!
# Default values (`oas_defaults.c`)

The defaults of a schema are inserted into a JSON text. The walk goes over the properties
of the schema in the order of their list, and changes the object as it goes.
-/

namespace Liboas

namespace Json

/-- Changes the value of the first member with this name. -/
def changeFirst (name : Bytes) (f : Json → Json) : List (Bytes × Json) → List (Bytes × Json)
  | [] => []
  | m :: members =>
    if m.1 == name then (m.1, f m.2) :: members else m :: changeFirst name f members

end Json

/-- `OAS_DEFAULTS_MAX_DEPTH`. -/
def defaultsMaxDepth : Nat := 64

section Defaults

variable {α : Type} (mem : Memory α)

/-- The schema of a property, or where its `ref_resolved` points. -/
def propertySchema (e : Entry α) : Option α :=
  e.schema.map (fun a => (mem a).refResolved.getD a)

/-- One turn of the loop over the properties. -/
def applyProperty (recurse : α → Json → Json) (members : List (Bytes × Json)) (e : Entry α) :
    List (Bytes × Json) :=
  match Json.lookup members e.name.bytes, propertySchema mem e with
  | none, some a =>
    match (mem a).defaultValue with
    | some value => members ++ [(e.name.bytes, value)]
    | none => members
  | some existing, some a =>
    if existing.isObj then Json.changeFirst e.name.bytes (recurse a) members else members
  | _, none => members

/-- `apply_defaults_recursive`, where `left` more levels are within the limit. -/
def applyDefaultsRecursive : Nat → α → Json → Json
  | left + 1, a, .obj members =>
    .obj ((mem a).properties.foldl (applyProperty mem (applyDefaultsRecursive left)) members)
  | _, _, v => v

/-- The value with its defaults: depth 0, and the depths up to the limit. -/
def applyDefaults (a : α) (v : Json) : Json :=
  applyDefaultsRecursive mem (defaultsMaxDepth + 1) a v

/-- `oas_apply_defaults`, with arguments that are not null. `write` is `yyjson_mut_write`. -/
def oasApplyDefaults (rt : Runtime) (write : Json → Option Bytes) (a : α) (json : Bytes) :
    Except Failure Bytes :=
  match rt.read json with
  | none => .error ⟨-EINVAL, EINVAL_neg⟩
  | some root =>
    match write (applyDefaults mem a root) with
    | none => .error ⟨-ENOMEM, ENOMEM_neg⟩
    | some out => .ok out

end Defaults

theorem oasApplyDefaults_ok {α : Type} {mem : Memory α} {rt : Runtime}
    {write : Json → Option Bytes} {a : α} {json out : Bytes} :
    oasApplyDefaults mem rt write a json = .ok out ↔
      ∃ root, rt.read json = some root ∧ write (applyDefaults mem a root) = some out := by
  unfold oasApplyDefaults
  cases rt.read json with
  | none => simp
  | some root =>
    cases hwrite : write (applyDefaults mem a root) with
    | none => simp [hwrite]
    | some text => simp [hwrite]

/-! ## The libraries -/

/-- What is relied on of the reader and the writer. -/
structure Faithful (rt : Runtime) (write : Json → Option Bytes) : Prop where
  /-- What is written is read back. -/
  back : ∀ v text, write v = some text → rt.read text = some v.reread
  /-- What is read back is written as before. -/
  again : ∀ v text, write v = some text → write v.reread = some text
  /-- The reader returns an integer that is not negative as an unsigned one. -/
  canonical : ∀ text v, rt.read text = some v → v.reread = v

/-! ## Members -/

namespace Json

theorem lookup_cons (m : Bytes × Json) (members : List (Bytes × Json)) (name : Bytes) :
    lookup (m :: members) name = if m.1 = name then some m.2 else lookup members name := by
  unfold lookup
  by_cases h : m.1 = name
  · simp [h]
  · simp [h]

theorem lookup_append (members members' : List (Bytes × Json)) (name : Bytes) :
    lookup (members ++ members') name = (lookup members name).or (lookup members' name) := by
  induction members with
  | nil => rfl
  | cons m members ih =>
    rw [List.cons_append, lookup_cons, lookup_cons, ih]
    split <;> rfl

theorem lookup_changeFirst (name : Bytes) (f : Json → Json) (members : List (Bytes × Json))
    (key : Bytes) :
    lookup (changeFirst name f members) key =
      if key = name then (lookup members key).map f else lookup members key := by
  induction members with
  | nil => simp [changeFirst, lookup]
  | cons m members ih =>
    unfold changeFirst
    by_cases hm : m.1 = name
    · simp only [hm, beq_self_eq_true, if_true, lookup_cons]
      by_cases hkey : key = name
      · simp [hkey]
      · simp [hkey, Ne.symm hkey]
    · simp only [beq_iff_eq, hm, if_false, lookup_cons, ih]
      by_cases hkey : key = name
      · simp [hkey, hm]
      · simp [hkey]

theorem lookup_map_reread (members : List (Bytes × Json)) (name : Bytes) :
    lookup (members.map (fun m => (m.1, m.2.reread))) name = (lookup members name).map reread := by
  induction members with
  | nil => rfl
  | cons m members ih =>
    rw [List.map_cons, lookup_cons, lookup_cons, ih]
    split <;> rfl

/-! ## Counting members -/

mutual

/-- The members of objects that are not inside an array. -/
def count : Json → Nat
  | .obj members => countMembers members
  | _ => 0

def countMembers : List (Bytes × Json) → Nat
  | [] => 0
  | m :: members => countMember m + countMembers members

def countMember : Bytes × Json → Nat
  | (_, v) => count v + 1

end

@[simp] theorem count_obj (members : List (Bytes × Json)) :
    (Json.obj members).count = countMembers members := by
  rw [count]

@[simp] theorem countMembers_nil : countMembers [] = 0 := rfl

@[simp] theorem countMembers_cons (m : Bytes × Json) (members : List (Bytes × Json)) :
    countMembers (m :: members) = m.2.count + 1 + countMembers members := by
  rw [countMembers, countMember]

theorem countMembers_append (members members' : List (Bytes × Json)) :
    countMembers (members ++ members') = countMembers members + countMembers members' := by
  induction members with
  | nil => simp
  | cons m members ih =>
    rw [List.cons_append, countMembers_cons, countMembers_cons, ih]
    omega

theorem count_reread (v : Json) : v.reread.count = v.count := by
  refine @Json.rec (fun v => v.reread.count = v.count) (fun _ => True)
    (fun members => countMembers (members.map (fun m => (m.1, m.2.reread))) = countMembers members)
    (fun m => m.2.reread.count = m.2.count) rfl (fun _ => rfl) (fun _ => rfl) (fun _ => rfl) ?_ ?_
    trivial (fun _ _ _ _ => trivial) rfl ?_ (fun _ _ h => h) v
  · intro items _
    simp [count]
  · intro members h
    simpa using h
  · intro m members hm hmembers
    rw [List.map_cons, countMembers_cons, countMembers_cons, hm, hmembers]

/-- Changing the first value grows the members as it grows the value. -/
theorem grows_changeFirst {f : Json → Json} (h : Grows count f) (name : Bytes) :
    Grows countMembers (changeFirst name f) := by
  refine ⟨fun members => ?_, fun members => ?_⟩
  · induction members with
    | nil => exact Nat.le_refl _
    | cons m members ih =>
      unfold changeFirst
      have hle : m.2.count ≤ (f m.2).count := h.le m.2
      split <;> simp only [countMembers_cons] <;> omega
  · induction members with
    | nil => exact fun _ => rfl
    | cons m members ih =>
      unfold changeFirst
      split
      · intro hcount
        simp only [countMembers_cons] at hcount
        rw [h.same m.2 (by omega)]
      · intro hcount
        simp only [countMembers_cons] at hcount
        rw [ih (by omega)]

end Json

/-! ## The walk grows a value or leaves it -/

section Walk

variable {α : Type} {mem : Memory α}

theorem applyDefaultsRecursive_other (left : Nat) (a : α) {v : Json} (h : v.isObj = false) :
    applyDefaultsRecursive mem left a v = v := by
  cases left with
  | zero => rw [applyDefaultsRecursive]; simp
  | succ left =>
    cases v with
    | obj members => cases h
    | _ => rw [applyDefaultsRecursive]; simp

theorem grows_applyProperty {recurse : α → Json → Json} (h : ∀ a, Grows Json.count (recurse a))
    (e : Entry α) : Grows Json.countMembers (fun members => applyProperty mem recurse members e) := by
  have hpush : ∀ (members : List (Bytes × Json)) (value : Json),
      Json.countMembers members < Json.countMembers (members ++ [(e.name.bytes, value)]) := by
    intro members value
    rw [Json.countMembers_append, Json.countMembers_cons]
    omega
  refine ⟨fun members => ?_, fun members hcount => ?_⟩
  · unfold applyProperty
    split
    · split
      · exact Nat.le_of_lt (hpush _ _)
      · exact Nat.le_refl _
    · split
      · exact (Json.grows_changeFirst (h _) _).le members
      · exact Nat.le_refl _
    · exact Nat.le_refl _
  · revert hcount
    unfold applyProperty
    split
    · split
      · intro hcount
        have := hpush members ‹_›
        omega
      · exact fun _ => rfl
    · split
      · exact (Json.grows_changeFirst (h _) _).same members
      · exact fun _ => rfl
    · exact fun _ => rfl

theorem grows_applyDefaultsRecursive (left : Nat) (a : α) :
    Grows Json.count (applyDefaultsRecursive mem left a) := by
  induction left generalizing a with
  | zero =>
    have hid : applyDefaultsRecursive mem 0 a = id := by
      funext v
      rw [applyDefaultsRecursive]
      · rfl
      · simp
    rw [hid]
    exact ⟨fun _ => Nat.le_refl _, fun _ _ => rfl⟩
  | succ left ih =>
    have hloop := Grows.foldl (fun e => @grows_applyProperty α mem _ ih e) (mem a).properties
    refine ⟨fun v => ?_, fun v hv => ?_⟩
    · cases v with
      | obj members =>
        rw [applyDefaultsRecursive, Json.count_obj, Json.count_obj]
        exact hloop.le members
      | _ => rw [applyDefaultsRecursive_other (left + 1) a rfl]
    · cases v with
      | obj members =>
        rw [applyDefaultsRecursive] at hv ⊢
        rw [Json.count_obj, Json.count_obj] at hv
        exact congrArg Json.obj (hloop.same members hv)
      | _ => rw [applyDefaultsRecursive_other (left + 1) a rfl]

/-! ## Nothing to insert -/

/-- The walk finds no property that it could insert. -/
def Settled (mem : Memory α) : Nat → α → Json → Prop
  | left + 1, a, .obj members => ∀ e ∈ (mem a).properties, ∀ b, propertySchema mem e = some b →
      match Json.lookup members e.name.bytes with
      | none => (mem b).defaultValue = none
      | some existing => Settled mem left b existing
  | _, _, _ => True

theorem settled_other (left : Nat) (a : α) {v : Json} (h : v.isObj = false) :
    Settled mem left a v := by
  cases left with
  | zero => trivial
  | succ left =>
    cases v with
    | obj members => cases h
    | _ => trivial

/-- A change of the first value changes nothing just when it leaves that value. -/
theorem changeFirst_eq_self {f : Json → Json} {name : Bytes} {members : List (Bytes × Json)}
    {v : Json} (h : Json.lookup members name = some v) :
    Json.changeFirst name f members = members ↔ f v = v := by
  induction members with
  | nil => cases h
  | cons m members ih =>
    rw [Json.lookup_cons] at h
    unfold Json.changeFirst
    by_cases hm : m.1 = name
    · rw [if_pos hm] at h
      cases h
      obtain ⟨key, value⟩ := m
      dsimp only at hm
      simp [hm]
    · rw [if_neg hm] at h
      simp [hm, ih h]

theorem changeFirst_congr {f g : Json → Json} {name : Bytes} {members : List (Bytes × Json)}
    {v : Json} (h : Json.lookup members name = some v) (hfg : f v = g v) :
    Json.changeFirst name f members = Json.changeFirst name g members := by
  induction members with
  | nil => rfl
  | cons m members ih =>
    rw [Json.lookup_cons] at h
    unfold Json.changeFirst
    by_cases hm : m.1 = name
    · rw [if_pos hm] at h
      cases h
      simp [hm, hfg]
    · rw [if_neg hm] at h
      simp [hm, ih h]

/-- One turn of the loop leaves the members just when it has nothing to insert. -/
theorem applyProperty_eq_self {recurse : α → Json → Json}
    (hother : ∀ a v, v.isObj = false → recurse a v = v) {members : List (Bytes × Json)}
    {e : Entry α} :
    applyProperty mem recurse members e = members ↔
      ∀ b, propertySchema mem e = some b →
        match Json.lookup members e.name.bytes with
        | none => (mem b).defaultValue = none
        | some existing => recurse b existing = existing := by
  unfold applyProperty
  cases hb : propertySchema mem e with
  | none => cases Json.lookup members e.name.bytes <;> simp
  | some b =>
    cases hlookup : Json.lookup members e.name.bytes with
    | none => cases hdefault : (mem b).defaultValue <;> simp [hdefault]
    | some existing =>
      dsimp only
      cases hobj : existing.isObj with
      | true => simp [changeFirst_eq_self hlookup]
      | false => simp [hother b existing hobj]

/-- The walk leaves a value if and only if it has nothing to insert into it. -/
theorem applyDefaultsRecursive_eq_self (left : Nat) (a : α) (v : Json) :
    applyDefaultsRecursive mem left a v = v ↔ Settled mem left a v := by
  induction left generalizing a v with
  | zero => simp [applyDefaultsRecursive, Settled]
  | succ left ih =>
    cases v with
    | obj members =>
      have hgrows : ∀ e, Grows Json.countMembers
          (fun members => applyProperty mem (applyDefaultsRecursive mem left) members e) :=
        grows_applyProperty (grows_applyDefaultsRecursive left)
      rw [applyDefaultsRecursive, Settled, Json.obj.injEq, Grows.foldl_eq_self hgrows]
      refine forall₂_congr (fun e _ => ?_)
      rw [applyProperty_eq_self (fun a v h => applyDefaultsRecursive_other left a h)]
      refine forall₂_congr (fun b _ => ?_)
      cases Json.lookup members e.name.bytes with
      | none => rfl
      | some existing => exact ih b existing
    | _ => exact iff_of_true (applyDefaultsRecursive_other _ a rfl) (settled_other _ a rfl)

theorem settled_reread (left : Nat) (a : α) (v : Json) :
    Settled mem left a v.reread ↔ Settled mem left a v := by
  induction left generalizing a v with
  | zero => rfl
  | succ left ih =>
    cases v with
    | obj members =>
      rw [Json.reread_obj, Settled, Settled]
      refine forall₂_congr (fun e _ => forall₂_congr (fun b _ => ?_))
      rw [Json.lookup_map_reread]
      cases Json.lookup members e.name.bytes with
      | none => rfl
      | some existing => exact ih b existing
    | _ => simp [Settled]

/-! ## What the walk does to one name -/

/-- The schemas of the properties with this name, in the order of the list. -/
def targets (mem : Memory α) (name : Bytes) (a : α) : List α :=
  (mem a).properties.filterMap
    (fun e => if e.name.bytes = name then propertySchema mem e else none)

/-- What a property does to the value that its name has so far. -/
def propertyStep (mem : Memory α) (left : Nat) : Option Json → α → Option Json
  | none, b => (mem b).defaultValue
  | some v, b => some (applyDefaultsRecursive mem left b v)

theorem lookup_applyProperty (left : Nat) (members : List (Bytes × Json)) (e : Entry α)
    (key : Bytes) :
    Json.lookup (applyProperty mem (applyDefaultsRecursive mem left) members e) key =
      (if e.name.bytes = key then propertySchema mem e else none).elim (Json.lookup members key)
        (propertyStep mem left (Json.lookup members key)) := by
  unfold applyProperty
  by_cases hkey : e.name.bytes = key
  · subst hkey
    rw [if_pos rfl]
    cases hb : propertySchema mem e with
    | none => cases hlookup : Json.lookup members e.name.bytes <;> simp [hlookup]
    | some b =>
      cases hlookup : Json.lookup members e.name.bytes with
      | none =>
        cases hdefault : (mem b).defaultValue with
        | none => simp [hlookup, hdefault, propertyStep]
        | some value => simp [Json.lookup_append, Json.lookup_cons, hlookup, hdefault, propertyStep]
      | some existing =>
        cases hobj : existing.isObj with
        | true => simp [hobj, Json.lookup_changeFirst, hlookup, propertyStep]
        | false => simp [hobj, hlookup, propertyStep, applyDefaultsRecursive_other left b hobj]
  · rw [if_neg hkey, Option.elim_none]
    split
    · split
      · rw [Json.lookup_append, Json.lookup_cons, if_neg hkey]
        simp [Json.lookup]
      · rfl
    · split
      · rw [Json.lookup_changeFirst, if_neg (Ne.symm hkey)]
      · rfl
    · rfl

/-- The properties with a name act on its value one after another, and the rest leave it. -/
theorem lookup_foldl (left : Nat) (es : List (Entry α)) (members : List (Bytes × Json))
    (key : Bytes) :
    Json.lookup (es.foldl (applyProperty mem (applyDefaultsRecursive mem left)) members) key =
      (es.filterMap (fun e => if e.name.bytes = key then propertySchema mem e else none)).foldl
        (propertyStep mem left) (Json.lookup members key) := by
  induction es generalizing members with
  | nil => rfl
  | cons e es ih =>
    rw [List.foldl_cons, ih, lookup_applyProperty, List.filterMap_cons]
    cases (if e.name.bytes = key then propertySchema mem e else none) with
    | none => rfl
    | some b => rfl

theorem lookup_applyProperties (left : Nat) (a : α) (members : List (Bytes × Json)) (key : Bytes) :
    Json.lookup ((mem a).properties.foldl (applyProperty mem (applyDefaultsRecursive mem left))
        members) key =
      (targets mem key a).foldl (propertyStep mem left) (Json.lookup members key) :=
  lookup_foldl left (mem a).properties members key

/-- A settled object, name by name. -/
theorem settled_obj {left : Nat} {a : α} {members : List (Bytes × Json)} :
    Settled mem (left + 1) a (.obj members) ↔ ∀ key, ∀ b ∈ targets mem key a,
      match Json.lookup members key with
      | none => (mem b).defaultValue = none
      | some existing => Settled mem left b existing := by
  rw [Settled]
  constructor
  · intro h key b hb
    obtain ⟨e, he, hschema⟩ := List.mem_filterMap.mp hb
    split at hschema
    · rename_i hkey
      rw [← hkey]
      exact h e he b hschema
    · cases hschema
  · intro h e he b hb
    exact h e.name.bytes b (List.mem_filterMap.mpr ⟨e, he, by simpa using hb⟩)

end Walk

end Liboas
