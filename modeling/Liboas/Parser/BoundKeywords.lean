import Liboas.Parser.SchemaFields
import Mathlib.Data.List.Nodup

/-!
# Keywords that set a bound

Each has a number for a value, and a field of its own in the schema. A schema without the
keyword is parsed to the same one, but for this field.
-/

namespace Liboas

open Json

inductive BoundKeyword where
  | minimum
  | maximum
  | exclusiveMinimum
  | exclusiveMaximum
  | minLength
  | maxLength
  | minItems
  | maxItems
  | minProperties
  | maxProperties
  deriving DecidableEq

namespace BoundKeyword

def name : BoundKeyword → String
  | minimum => "minimum"
  | maximum => "maximum"
  | exclusiveMinimum => "exclusiveMinimum"
  | exclusiveMaximum => "exclusiveMaximum"
  | minLength => "minLength"
  | maxLength => "maxLength"
  | minItems => "minItems"
  | maxItems => "maxItems"
  | minProperties => "minProperties"
  | maxProperties => "maxProperties"

def all : List BoundKeyword :=
  [minimum, maximum, exclusiveMinimum, exclusiveMaximum, minLength, maxLength, minItems, maxItems,
    minProperties, maxProperties]

theorem mem_all (kw : BoundKeyword) : kw ∈ all := by
  cases kw <;> decide

theorem name_injective {kw kw' : BoundKeyword}
    (h : CStr.ofString kw.name = CStr.ofString kw'.name) : kw = kw' := by
  have hnodup : (all.map (fun kw => CStr.ofString kw.name)).Nodup := by decide
  exact List.inj_on_of_nodup_map hnodup kw.mem_all kw'.mem_all h

/-- The keyword bounds a number of characters, items or members. -/
def counts : BoundKeyword → Bool
  | minimum | maximum | exclusiveMinimum | exclusiveMaximum => false
  | _ => true

/-- The keyword bounds a number of members. -/
def countsMembers : BoundKeyword → Bool
  | minProperties | maxProperties => true
  | _ => false

/-- The keywords without this one. -/
def clear (k : Keywords) : BoundKeyword → Keywords
  | minimum => { k with minimum := none }
  | maximum => { k with maximum := none }
  | exclusiveMinimum => { k with exclusiveMinimum := none }
  | exclusiveMaximum => { k with exclusiveMaximum := none }
  | minLength => { k with minLength := -1 }
  | maxLength => { k with maxLength := -1 }
  | minItems => { k with minItems := -1 }
  | maxItems => { k with maxItems := -1 }
  | minProperties => { k with minProperties := -1 }
  | maxProperties => { k with maxProperties := -1 }

end BoundKeyword

def Schema.clear {α : Type} (s : Schema α) (kw : BoundKeyword) : Schema α :=
  { s with toKeywords := kw.clear s.toKeywords }

section Parsed

variable {ι : Type} {rt : Runtime} {self : Json → Option (Tree ι)} {val val' : Json}

/-- The schema with other bounds. -/
def Schema.setBounds {α : Type} (s : Schema α) (number : BoundKeyword → Option Double)
    (bound : BoundKeyword → Int) : Schema α :=
  { s with
    minimum := number .minimum
    maximum := number .maximum
    exclusiveMinimum := number .exclusiveMinimum
    exclusiveMaximum := number .exclusiveMaximum
    minLength := bound .minLength
    maxLength := bound .maxLength
    minItems := bound .minItems
    maxItems := bound .maxItems
    minProperties := bound .minProperties
    maxProperties := bound .maxProperties }

theorem setBounds_update {α : Type} (s : Schema α) (number : BoundKeyword → Option Double)
    (bound : BoundKeyword → Int) (kw : BoundKeyword) :
    s.setBounds (Function.update number kw none) (Function.update bound kw (-1)) =
      (s.setBounds number bound).clear kw := by
  cases kw <;> rfl

/-- The other keywords. -/
def otherNames : List String :=
  ["type", "title", "description", "format", "pattern", "multipleOf", "uniqueItems", "required",
    "additionalProperties", "dependentRequired", "minContains", "maxContains", "const", "enum",
    "$ref", "default", "nullable", "readOnly", "writeOnly", "deprecated", "discriminator",
    "unevaluatedProperties", "unevaluatedItems", "items", "prefixItems", "properties",
    "propertyNames", "patternProperties", "dependentSchemas", "contains", "allOf", "anyOf", "oneOf",
    "not", "if", "then", "else"]

theorem parsedSchema_setBounds
    (h : ∀ other ∈ otherNames, val'.member other = val.member other) :
    parsedSchema rt self val' = (parsedSchema rt self val).setBounds
      (fun kw => parsedNumber rt val' kw.name) (fun kw => parsedBound val' kw.name) := by
  simp only [otherNames, List.forall_mem_cons, List.not_mem_nil, false_imp_iff, implies_true,
    and_true] at h
  simp only [parsedSchema, Schema.setBounds, BoundKeyword.name, parsedMask, parsedFlag,
    parsedRequired, parsedAdditional, parsedMapping, parsedDiscriminator, parseDependentRequired,
    parseBelow, parseSchemaArray, parseEntries, parsedBound, parsedNumber, strMember, intMember,
    numMember, boolMember, arrMember, objMember, h]
  rfl

theorem SameBut.others {kw : BoundKeyword} (h : SameBut kw.name val val') :
    ∀ other ∈ otherNames, val'.member other = val.member other := by
  have hdiffer : ∀ other ∈ otherNames, ∀ kw ∈ BoundKeyword.all,
      CStr.ofString other ≠ CStr.ofString kw.name := by
    decide +kernel
  exact fun other hother => h other (hdiffer other hother kw kw.mem_all)

theorem parsedNumber_sameBut {kw : BoundKeyword} (h : SameBut kw.name val val')
    {other : BoundKeyword} (hne : other ≠ kw) :
    parsedNumber rt val' other.name = parsedNumber rt val other.name ∧
      parsedBound val' other.name = parsedBound val other.name := by
  have hname : CStr.ofString other.name ≠ CStr.ofString kw.name :=
    fun hsame => hne (BoundKeyword.name_injective hsame)
  obtain ⟨-, hint, hnum, -⟩ := h.accessors other.name hname
  unfold parsedNumber parsedBound
  rw [hint, hnum]
  exact ⟨rfl, rfl⟩

/-- The schema that is left when the keyword is taken out of the text. -/
theorem parsedSchema_clear {kw : BoundKeyword} (h : SameBut kw.name val val')
    (hnone : val'.member kw.name = none) :
    parsedSchema rt self val' = (parsedSchema rt self val).clear kw := by
  have hnumber : parsedNumber rt val' kw.name = none := by
    unfold parsedNumber numMember
    rw [hnone]
    rfl
  have hbound : parsedBound val' kw.name = -1 := by
    unfold parsedBound intMember
    rw [hnone]
    rfl
  have hnumbers : (fun other : BoundKeyword => parsedNumber rt val' other.name) =
      Function.update (fun other => parsedNumber rt val other.name) kw none := by
    funext other
    by_cases hother : other = kw
    · rw [hother, Function.update_self, hnumber]
    · rw [Function.update_of_ne hother, (parsedNumber_sameBut h hother).1]
  have hbounds : (fun other : BoundKeyword => parsedBound val' other.name) =
      Function.update (fun other => parsedBound val other.name) kw (-1) := by
    funext other
    by_cases hother : other = kw
    · rw [hother, Function.update_self, hbound]
    · rw [Function.update_of_ne hother, (@parsedNumber_sameBut rt _ _ _ h _ hother).2]
  rw [parsedSchema_setBounds h.others, hnumbers, hbounds, setBounds_update]
  rfl

end Parsed

end Liboas
