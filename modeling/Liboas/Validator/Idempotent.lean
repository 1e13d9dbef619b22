import Liboas.Validator.Defaults

/-!
# Defaults that are applied twice

A default is inserted as it is: the walk does not go on into it. So a second pass can find
something to insert into what the first one has inserted. `InsertsWhole` says when it does
not: every default that a first pass inserts lacks nothing that a second one could insert.
-/

namespace Liboas

section Idempotent

variable {α : Type} {mem : Memory α}

/-- One schema after another is walked over the same value. -/
def applyEach (mem : Memory α) (left : Nat) (schemas : List α) (v : Json) : Json :=
  schemas.foldl (fun v a => applyDefaultsRecursive mem left a v) v

/-- The first default of a list of schemas, and the schemas after it. -/
def firstDefault (mem : Memory α) : List α → Option (Json × List α)
  | [] => none
  | b :: rest =>
    match (mem b).defaultValue with
    | some value => some (value, rest)
    | none => firstDefault mem rest

/-- Where the value is an object, `walked` are the schemas that a first pass walks it with,
and `all` those of a second pass. For a value that the first pass inserts, they differ: it is
walked only with the schemas of properties that come after and have the same name. -/
def InsertsWhole (mem : Memory α) : Nat → List α → List α → Json → Prop
  | left + 1, all, walked, .obj members => ∀ key,
      match Json.lookup members key, firstDefault mem (walked.flatMap (targets mem key)) with
      | some existing, _ =>
        InsertsWhole mem left (all.flatMap (targets mem key)) (walked.flatMap (targets mem key))
          existing
      | none, some (value, after) => InsertsWhole mem left (all.flatMap (targets mem key)) after value
      | none, none => ∀ b ∈ all.flatMap (targets mem key), (mem b).defaultValue = none
  | _, _, _, _ => True

theorem applyEach_other (left : Nat) (schemas : List α) {v : Json} (h : v.isObj = false) :
    applyEach mem left schemas v = v := by
  unfold applyEach
  induction schemas with
  | nil => rfl
  | cons a schemas ih => rw [List.foldl_cons, applyDefaultsRecursive_other left a h, ih]

theorem applyEach_obj (left : Nat) (schemas : List α) (members : List (Bytes × Json)) :
    ∃ members', applyEach mem (left + 1) schemas (.obj members) = .obj members' ∧
      ∀ key, Json.lookup members' key =
        (schemas.flatMap (targets mem key)).foldl (propertyStep mem left)
          (Json.lookup members key) := by
  unfold applyEach
  induction schemas generalizing members with
  | nil => exact ⟨members, rfl, fun _ => rfl⟩
  | cons a schemas ih =>
    rw [List.foldl_cons, applyDefaultsRecursive]
    obtain ⟨members', hmembers, hlookup⟩ := ih
      ((mem a).properties.foldl (applyProperty mem (applyDefaultsRecursive mem left)) members)
    refine ⟨members', hmembers, fun key => ?_⟩
    rw [hlookup, lookup_applyProperties, List.flatMap_cons, List.foldl_append]

theorem propertyStep_some (left : Nat) (schemas : List α) (v : Json) :
    schemas.foldl (propertyStep mem left) (some v) = some (applyEach mem left schemas v) := by
  unfold applyEach
  induction schemas generalizing v with
  | nil => rfl
  | cons a schemas ih => exact ih _

theorem propertyStep_none (left : Nat) (schemas : List α) :
    schemas.foldl (propertyStep mem left) none =
      (firstDefault mem schemas).map (fun found => applyEach mem left found.2 found.1) := by
  induction schemas with
  | nil => rfl
  | cons b schemas ih =>
    rw [List.foldl_cons, propertyStep, firstDefault]
    cases (mem b).defaultValue with
    | none => exact ih
    | some value => exact propertyStep_some left schemas value

theorem settled_objs {left : Nat} {all : List α} {members : List (Bytes × Json)} :
    (∀ a ∈ all, Settled mem (left + 1) a (.obj members)) ↔
      ∀ key, ∀ b ∈ all.flatMap (targets mem key),
        match Json.lookup members key with
        | none => (mem b).defaultValue = none
        | some existing => Settled mem left b existing := by
  simp only [settled_obj, List.forall_mem_flatMap]
  exact ⟨fun h key a ha => h a ha key, fun h a ha key => h key a ha⟩

/-- After the first pass nothing is left to insert if and only if the defaults are whole. -/
theorem settled_applyEach (left : Nat) (all walked : List α) (v : Json) :
    (∀ a ∈ all, Settled mem left a (applyEach mem left walked v)) ↔
      InsertsWhole mem left all walked v := by
  induction left generalizing all walked v with
  | zero => simp [Settled, InsertsWhole]
  | succ left ih =>
    cases v with
    | obj members =>
      obtain ⟨members', hmembers, hlookup⟩ := @applyEach_obj α mem left walked members
      rw [hmembers, settled_objs, InsertsWhole]
      refine forall_congr' (fun key => ?_)
      rw [hlookup]
      cases Json.lookup members key with
      | some existing =>
        rw [propertyStep_some]
        exact ih _ _ _
      | none =>
        rw [propertyStep_none]
        cases firstDefault mem (walked.flatMap (targets mem key)) with
        | none => rfl
        | some found => exact ih _ _ _
    | _ =>
      rw [applyEach_other _ _ rfl]
      exact iff_of_true (fun a _ => settled_other _ a rfl) trivial

end Idempotent

section Runs

/-- The schema of an object with one property. -/
def objectWith (name : String) (property : SchemaTree) : SchemaTree :=
  .node { oasSchemaCreate with properties := [⟨CStr.ofString name, some property⟩] }

def withDefault (value : Json) : SchemaTree :=
  .node { oasSchemaCreate with defaultValue := some value }

/-- `{"a": 5}`. -/
def aFive : Json := .obj [(ascii "a", .num (.uint 5))]

def emptyText : Bytes := ascii "\x7b\x7d"

def aFiveText : Bytes := ascii "\x7b\"a\":5\x7d"

def knowsFive : Runtime := .knowing [(emptyText, .obj []), (aFiveText, aFive)]

def writesFive : Json → Option Bytes
  | .obj [] => some emptyText
  | .obj [(key, .num (.uint n))] => if key = ascii "a" ∧ n = 5 then some aFiveText else none
  | _ => none

theorem writesFive_cases {v : Json} {text : Bytes} (h : writesFive v = some text) :
    v = .obj [] ∧ text = emptyText ∨ v = aFive ∧ text = aFiveText := by
  unfold writesFive at h
  split at h
  · cases h
    exact .inl ⟨rfl, rfl⟩
  · split at h
    · rename_i hkey
      obtain ⟨rfl, rfl⟩ := hkey
      cases h
      exact .inr ⟨rfl, rfl⟩
    · cases h
  · cases h

theorem faithful_five : Faithful knowsFive writesFive where
  back v text h := by
    obtain ⟨rfl, rfl⟩ | ⟨rfl, rfl⟩ := writesFive_cases h
    · rfl
    · rfl
  again v text h := by
    obtain ⟨rfl, rfl⟩ | ⟨rfl, rfl⟩ := writesFive_cases h
    · exact h
    · exact h
  canonical text v h := by
    obtain ⟨t, hmem, rfl⟩ := Option.map_eq_some_iff.mp h
    have hmem := List.mem_of_find?_eq_some hmem
    simp only [List.mem_cons, List.not_mem_nil, or_false] at hmem
    rcases hmem with rfl | rfl <;> rfl

/-- An object that is empty by default, with a property of its own that has a default. -/
def emptyByDefault : SchemaTree :=
  .node { oasSchemaCreate with
    defaultValue := some (.obj [])
    properties := [⟨CStr.ofString "b", some (withDefault (.num (.uint 5)))⟩] }

def aEmptyText : Bytes := ascii "\x7b\"a\":\x7b\x7d\x7d"

def aFilledText : Bytes := ascii "\x7b\"a\":\x7b\"b\":5\x7d\x7d"

/-- `{"a": {"b": 5}}`. -/
def aFilled : Json := .obj [(ascii "a", .obj [(ascii "b", .num (.uint 5))])]

def knowsFilled : Runtime :=
  .knowing [(emptyText, .obj []), (aEmptyText, .obj [(ascii "a", .obj [])]), (aFilledText, aFilled)]

def writesFilled : Json → Option Bytes
  | .obj [(_, .obj [])] => some aEmptyText
  | .obj [(_, .obj [_])] => some aFilledText
  | _ => none

end Runs

end Liboas
