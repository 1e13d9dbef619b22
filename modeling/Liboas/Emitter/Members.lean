import Liboas.Core.Written
import Liboas.Schema.Model
import Mathlib.Data.List.ReduceOption

/-!
# Members that are emitted, and how they are read

An object is emitted member by member, in a fixed order. What is null, empty or not set is
left out. Each kind of member comes with a lemma that says what is read back from it.
-/

namespace Liboas.Emitter

open Json

/-! ## Kinds of members -/

def emitStr (s : CStr) : Json := .str s.bytes

/-- A bound that is negative is not set. -/
def emitBound (n : Int) : Option Json := if 0 ≤ n then some (.num (.sint (Int64.ofInt n))) else none

def emitReal (d : Option Double) : Option Json := d.map (fun d => .num (.real d))

def emitTrue (b : Bool) : Option Json := if b then some (.bool true) else none

/-- The strings of an array. A null one is not appended. -/
def emitTexts (texts : List (Option CStr)) : Json := .arr (texts.reduceOption.map emitStr)

/-- What is made of a list, unless it is empty. -/
def unlessEmpty {β : Type} (l : List β) (v : Json) : Option Json := if l.isEmpty then none else some v

/-- The schemas of an array. A null one is not appended. -/
def emitSlots (slots : List (Option Json)) : Option Json := unlessEmpty slots (.arr slots.reduceOption)

def emitEntries (entries : List (Entry Json)) : Option Json :=
  unlessEmpty entries (.obj (entries.filterMap (fun e => e.schema.map (Prod.mk e.name.bytes))))

/-! ## Reading one member -/

section Members

variable {fields : List (String × Option Json)} {name : String}

/-- The object that is read where one with these members was written. -/
def readBack (fields : List (String × Option Json)) : Json := (ofFields fields).reread

theorem isObj_readBack (fields : List (String × Option Json)) : (readBack fields).isObj = true :=
  isObj_reread (ofFields fields)

theorem member_read (hkeys : KeysFixed (fields.map (·.1))) {v : Option Json}
    (h : (name, v) ∈ fields) : (readBack fields).member name = v.map reread := by
  have hkeys' : KeysFixed ((fields.map (fun f => (f.1, f.2.map reread))).map (·.1)) := by
    rw [List.map_map]
    exact hkeys
  rw [readBack, reread_ofFields]
  exact member_ofFields hkeys' (List.mem_map.mpr ⟨_, h, rfl⟩)

theorem member_read_none (h : (CStr.ofString name).bytes ∉ (fields.map (·.1)).map ascii) :
    (readBack fields).member name = none := by
  have hnames : (fields.map (fun f => (f.1, f.2.map reread))).map (·.1) = fields.map (·.1) := by
    rw [List.map_map]
    rfl
  rw [readBack, reread_ofFields]
  exact member_ofFields_none (hnames ▸ h)

theorem getStr_emitStr (x : CStr) : (emitStr x).getStr = some x :=
  congrArg some (CStr.ofBytes_bytes x)

theorem strMember_read (hkeys : KeysFixed (fields.map (·.1))) {x : Option CStr}
    (h : (name, x.map emitStr) ∈ fields) : (readBack fields).strMember name = x := by
  rw [strMember, member_read hkeys h]
  cases x with
  | none => rfl
  | some x => exact getStr_emitStr x

theorem boolMember_read (hkeys : KeysFixed (fields.map (·.1))) {b : Bool}
    (h : (name, emitTrue b) ∈ fields) :
    (readBack fields).boolMember name = if b then some true else none := by
  rw [boolMember, member_read hkeys h]
  cases b <;> rfl

theorem arrMember_read (hkeys : KeysFixed (fields.map (·.1))) {β : Type} {l : List β}
    {items : List Json} (h : (name, unlessEmpty l (.arr items)) ∈ fields) :
    (readBack fields).arrMember name = if l.isEmpty then none else some (items.map reread) := by
  rw [arrMember, member_read hkeys h, unlessEmpty]
  cases l <;> simp

theorem objMember_read (hkeys : KeysFixed (fields.map (·.1))) {β : Type} {l : List β}
    {members : List (Bytes × Json)} (h : (name, unlessEmpty l (.obj members)) ∈ fields) :
    (readBack fields).objMember name =
      if l.isEmpty then none else some (members.map (fun m => (m.1, m.2.reread))) := by
  rw [objMember, member_read hkeys h, unlessEmpty]
  cases l <;> simp

end Members

/-! ## Texts -/

theorem texts_returned (texts : List (Option CStr)) :
    (texts.reduceOption.map emitStr).map reread = texts.reduceOption.map emitStr := by
  rw [List.map_map]
  exact List.map_congr_left (fun _ _ => rfl)

theorem reduceOption_map_some {β : Type} (l : List (Option β)) :
    l.reduceOption.map some = l.filter Option.isSome := by
  induction l with
  | nil => rfl
  | cons x l ih => cases x <;> simp [List.reduceOption_cons_of_some, ih]

theorem filter_isSome_eq {β : Type} {l : List (Option β)} :
    l.filter Option.isSome = l ↔ none ∉ l := by
  rw [List.filter_eq_self]
  constructor
  · exact fun h hnone => by cases h none hnone
  · intro h x hx
    cases x with
    | none => exact absurd hx h
    | some x => rfl

/-- The strings that are read where these were written. -/
theorem getStr_texts (texts : List (Option CStr)) :
    ((texts.reduceOption.map emitStr).map reread).map getStr = texts.filter Option.isSome := by
  rw [texts_returned, ← reduceOption_map_some, List.map_map]
  exact List.map_congr_left (fun x _ => getStr_emitStr x)

end Liboas.Emitter
