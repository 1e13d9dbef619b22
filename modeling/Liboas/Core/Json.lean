import Liboas.Core.CString

/-!
# JSON values, and what the JSON and math libraries do with them

A value is what the JSON reader returns. Strings are bytes with a length. Numbers
keep the representation that the reader chose.
-/

namespace Liboas

/-- A binary64 number, by its bits. -/
structure Double where
  bits : UInt64
  deriving DecidableEq

inductive Num where
  | uint (n : UInt64)
  | sint (n : Int64)
  | real (d : Double)
  deriving DecidableEq

/-- `yyjson_val`. -/
inductive Json where
  | null
  | bool (b : Bool)
  | num (n : Num)
  | str (s : Bytes)
  | arr (items : List Json)
  | obj (members : List (Bytes × Json))

namespace Json

def isStr : Json → Bool
  | .str _ => true
  | _ => false

def isArr : Json → Bool
  | .arr _ => true
  | _ => false

def isObj : Json → Bool
  | .obj _ => true
  | _ => false

/-- The value of the first member with this name. -/
def lookup (members : List (Bytes × Json)) (name : Bytes) : Option Json :=
  (members.find? (fun m => m.1 == name)).map (·.2)

/-- `yyjson_obj_get`: null for a value that is no object, and for a null name. -/
def objGet (v : Json) (name : Option CStr) : Option Json :=
  match v, name with
  | .obj members, some n => lookup members n.bytes
  | _, _ => none

/-! ## Reading the members of an object -/

/-- `yyjson_get_sint` of an integer: a large unsigned one wraps. -/
def getSint : Num → Option Int
  | .uint n => some n.toInt64.toInt
  | .sint n => some n.toInt
  | .real _ => none

/-- `yyjson_get_str`, read as a C string. -/
def getStr : Json → Option CStr
  | .str s => some (CStr.ofBytes s)
  | _ => none

def member (v : Json) (name : String) : Option Json := v.objGet (some (CStr.ofString name))

def strMember (v : Json) (name : String) : Option CStr := (v.member name).bind getStr

def intMember (v : Json) (name : String) : Option Int :=
  match v.member name with
  | some (.num n) => getSint n
  | _ => none

def numMember (v : Json) (name : String) : Option Num :=
  match v.member name with
  | some (.num n) => some n
  | _ => none

def boolMember (v : Json) (name : String) : Option Bool :=
  match v.member name with
  | some (.bool b) => some b
  | _ => none

def arrMember (v : Json) (name : String) : Option (List Json) :=
  match v.member name with
  | some (.arr items) => some items
  | _ => none

def objMember (v : Json) (name : String) : Option (List (Bytes × Json)) :=
  match v.member name with
  | some (.obj members) => some members
  | _ => none

theorem lookup_mem {members : List (Bytes × Json)} {name : Bytes} {v : Json}
    (h : lookup members name = some v) : (name, v) ∈ members := by
  simp only [lookup, Option.map_eq_some_iff] at h
  obtain ⟨⟨key, w⟩, hfind, rfl⟩ := h
  have hmem := List.mem_of_find?_eq_some hfind
  have hkey : key = name := by simpa using List.find?_some hfind
  exact hkey ▸ hmem

theorem mem_of_objGet {members : List (Bytes × Json)} {name : Option CStr} {w : Json}
    (h : (Json.obj members).objGet name = some w) : ∃ m ∈ members, m.2 = w := by
  cases name with
  | none => cases h
  | some n => exact ⟨_, lookup_mem h, rfl⟩

/-! ## Depth -/

mutual

def depth : Json → Nat
  | .arr items => depthItems items + 1
  | .obj members => depthMembers members + 1
  | _ => 0

def depthItems : List Json → Nat
  | [] => 0
  | v :: items => max (depth v) (depthItems items)

def depthMembers : List (Bytes × Json) → Nat
  | [] => 0
  | m :: members => max (depthMember m) (depthMembers members)

def depthMember : Bytes × Json → Nat
  | (_, v) => depth v

end

theorem depth_item {items : List Json} {v : Json} (h : v ∈ items) :
    v.depth < (Json.arr items).depth := by
  rw [depth, Nat.lt_succ_iff]
  induction items with
  | nil => cases h
  | cons w items ih =>
    rw [depthItems]
    rcases List.mem_cons.mp h with rfl | h
    · exact Nat.le_max_left _ _
    · exact Nat.le_trans (ih h) (Nat.le_max_right _ _)

theorem depth_member {members : List (Bytes × Json)} {m : Bytes × Json} (h : m ∈ members) :
    m.2.depth < (Json.obj members).depth := by
  rw [depth, Nat.lt_succ_iff]
  induction members with
  | nil => cases h
  | cons m' members ih =>
    rw [depthMembers]
    rcases List.mem_cons.mp h with rfl | h
    · rw [depthMember]
      exact Nat.le_max_left _ _
    · exact Nat.le_trans (ih h) (Nat.le_max_right _ _)

theorem depth_of_member {v w : Json} {name : String} (h : v.member name = some w) :
    w.depth < v.depth := by
  cases v with
  | obj members =>
    obtain ⟨m, hm, rfl⟩ := mem_of_objGet h
    exact depth_member hm
  | _ => cases h

theorem depth_of_arrMember {v w : Json} {name : String} {items : List Json}
    (h : v.arrMember name = some items) (hw : w ∈ items) : w.depth < v.depth := by
  unfold arrMember at h
  split at h
  · rename_i items' harr
    cases h
    exact Nat.lt_trans (depth_item hw) (depth_of_member harr)
  · cases h

theorem depth_of_objMember {v : Json} {name : String} {members : List (Bytes × Json)}
    {m : Bytes × Json} (h : v.objMember name = some members) (hm : m ∈ members) :
    m.2.depth < v.depth := by
  unfold objMember at h
  split at h
  · rename_i members' hobj
    cases h
    exact Nat.lt_trans (depth_member hm) (depth_of_member hobj)
  · cases h

/-! ## Plain keys -/

/-- In every object of the value, at any depth, the keys are distinct and hold no NUL. -/
inductive KeysPlain : Json → Prop where
  | null : KeysPlain .null
  | bool (b : Bool) : KeysPlain (.bool b)
  | num (n : Num) : KeysPlain (.num n)
  | str (s : Bytes) : KeysPlain (.str s)
  | arr (items : List Json) : (∀ v ∈ items, KeysPlain v) → KeysPlain (.arr items)
  | obj (members : List (Bytes × Json)) : (members.map (·.1)).Nodup →
      (∀ m ∈ members, (0 : UInt8) ∉ m.1) → (∀ m ∈ members, KeysPlain m.2) →
      KeysPlain (.obj members)

theorem KeysPlain.item {items : List Json} (h : KeysPlain (.arr items)) {v : Json}
    (hv : v ∈ items) : KeysPlain v := by
  cases h with
  | arr _ h => exact h v hv

theorem KeysPlain.nodup {members : List (Bytes × Json)} (h : KeysPlain (.obj members)) :
    (members.map (·.1)).Nodup := by
  cases h with
  | obj _ hnodup _ _ => exact hnodup

theorem KeysPlain.key {members : List (Bytes × Json)} (h : KeysPlain (.obj members))
    {m : Bytes × Json} (hm : m ∈ members) : (0 : UInt8) ∉ m.1 := by
  cases h with
  | obj _ _ hkeys _ => exact hkeys m hm

theorem KeysPlain.member {members : List (Bytes × Json)} (h : KeysPlain (.obj members))
    {m : Bytes × Json} (hm : m ∈ members) : KeysPlain m.2 := by
  cases h with
  | obj _ _ _ hvals => exact hvals m hm

theorem lookup_isSome {members : List (Bytes × Json)} {name : Bytes} :
    (lookup members name).isSome ↔ ∃ v, (name, v) ∈ members := by
  constructor
  · intro h
    obtain ⟨v, hv⟩ := Option.isSome_iff_exists.mp h
    exact ⟨v, lookup_mem hv⟩
  · rintro ⟨v, hv⟩
    rw [lookup, Option.isSome_map, List.find?_isSome]
    exact ⟨(name, v), hv, by simp⟩

/-- With distinct keys, a look-up finds every member. -/
theorem lookup_eq {members : List (Bytes × Json)} (hnodup : (members.map (·.1)).Nodup)
    {name : Bytes} {v : Json} : lookup members name = some v ↔ (name, v) ∈ members := by
  refine ⟨lookup_mem, ?_⟩
  intro hv
  induction members with
  | nil => cases hv
  | cons m members ih =>
    rw [List.map_cons, List.nodup_cons] at hnodup
    rcases List.mem_cons.mp hv with rfl | hv
    · simp [lookup]
    · have hne : m.1 ≠ name := by
        rintro rfl
        exact hnodup.1 (List.mem_map.mpr ⟨_, hv, rfl⟩)
      have := ih hnodup.2 hv
      simpa [lookup, hne] using this

theorem KeysPlain.get {v w : Json} (h : KeysPlain v) {name : Option CStr}
    (hget : v.objGet name = some w) : KeysPlain w := by
  cases v with
  | obj members =>
    cases name with
    | none => simp [objGet] at hget
    | some n => exact h.member (lookup_mem hget)
  | _ => simp [objGet] at hget

end Json

/-! ## The libraries -/

/-- The formats of `oas_format.c`. -/
inductive Format where
  | date | dateTime | time | email | uri | uriReference | uuid | ipv4 | ipv6 | hostname | byte
  | int32 | int64
  deriving DecidableEq

/-- A regex backend. A compiled pattern is known by its source. -/
structure Regex where
  /-- The code of `compile`: negative when the pattern is refused. -/
  compile : CStr → Int
  isMatch : CStr → Bytes → Bool

/-- What the code calls but does not contain: the JSON library, binary64 arithmetic, and
the check of each format. -/
structure Runtime where
  /-- `yyjson_equals`. -/
  equals : Json → Json → Bool
  /-- `yyjson_read` with flags 0. -/
  read : Bytes → Option Json
  /-- The position and the message of a text that `read` refuses. -/
  readError : Bytes → Nat × Bytes
  /-- `yyjson_ptr_getx`. -/
  ptrGet : Json → CStr → Option Json
  /-- The message of a pointer that leads nowhere. -/
  ptrError : Json → CStr → Option CStr
  /-- What a slot of arena memory holds that nothing was written to. -/
  unwritten : Option CStr
  format : Format → Bytes → Bool
  ofU64 : UInt64 → Double
  ofI64 : Int64 → Double
  lt : Double → Double → Bool
  le : Double → Double → Bool
  sub : Double → Double → Double
  fmod : Double → Double → Double
  fabs : Double → Double
  /-- `modf(d, &intpart) == 0.0`. -/
  noFraction : Double → Bool

/-- `yyjson_get_num`. -/
def Runtime.getNum (rt : Runtime) : Num → Double
  | .uint n => rt.ofU64 n
  | .sint n => rt.ofI64 n
  | .real d => d

/-! ## For runs on fixed inputs -/

/-- `yyjson_equals` on values that are not nested. -/
def Json.sameScalar : Json → Json → Bool
  | .null, .null => true
  | .bool a, .bool b => a == b
  | .num a, .num b => a == b
  | .str a, .str b => a == b
  | _, _ => false

/-- Libraries that are enough for a fixed input: the reader knows some texts, values are
not nested where they are compared, and numbers are not computed with. -/
def Runtime.knowing (texts : List (Bytes × Json)) : Runtime where
  equals := Json.sameScalar
  read text := (texts.find? (fun t => t.1 == text)).map (·.2)
  readError _ := (0, [])
  ptrGet _ _ := none
  ptrError _ _ := none
  unwritten := none
  format _ _ := true
  ofU64 n := ⟨n⟩
  ofI64 n := ⟨n.toUInt64⟩
  lt a b := a.bits < b.bits
  le a b := a.bits ≤ b.bits
  sub a _ := a
  fmod a _ := a
  fabs a := a
  noFraction _ := false

theorem Runtime.knowing_read (text : Bytes) (root : Json) (texts : List (Bytes × Json)) :
    (Runtime.knowing ((text, root) :: texts)).read text = some root := by
  simp [knowing]

instance : Inhabited Runtime := ⟨Runtime.knowing []⟩

end Liboas
