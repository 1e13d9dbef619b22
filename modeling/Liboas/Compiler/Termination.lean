import Liboas.Compiler.Complete
import Liboas.Parser.DocParser

/-!
# Documents whose compilation comes to an end

The resolver links component schemas to each other, in circles too, and the compiler
follows every link.
-/

namespace Liboas

open Emit

/-! ## Following the first link -/

section Follow

variable {α : Type} {mem : Memory α} {config : Option CompilerConfig}

/-- The first schema that a list of steps goes on to, unless something fails before. -/
def firstBody : List (Step α) → Option α
  | .own (.ok _) :: rest => firstBody rest
  | .body a :: _ => some a
  | _ => none

theorem firstBody_spec {steps : List (Step α)} {b : α} (h : firstBody steps = some b) :
    ∃ before after, steps = before ++ .body b :: after ∧ ∀ s ∈ before, s.Passes mem config := by
  induction steps with
  | nil => cases h
  | cons s rest ih =>
    match s, h with
    | .own (.ok code), h =>
      obtain ⟨before, after, rfl, hbefore⟩ := ih h
      refine ⟨.own (.ok code) :: before, after, rfl, ?_⟩
      exact List.forall_mem_cons.mpr ⟨⟨code, rfl⟩, hbefore⟩
    | .body a, h =>
      cases h
      exact ⟨[], rest, rfl, by simp⟩

/-- Goes to the first schema that is entered, `n` times. -/
def follow (mem : Memory α) (config : Option CompilerConfig) : Nat → α → Option α
  | 0, a => some a
  | n + 1, a => (firstBody ((mem a).steps config)).bind (follow mem config n)

theorem follow_enters {n : Nat} {a b : α} (h : follow mem config (n + 1) a = some b) :
    Relation.TransGen (fun b a => Enters mem config a b) b a := by
  induction n generalizing a with
  | zero =>
    rw [follow] at h
    obtain ⟨c, hc, hcb⟩ := Option.bind_eq_some_iff.mp h
    cases hcb
    exact .single (firstBody_spec hc)
  | succ n ih =>
    rw [follow] at h
    obtain ⟨c, hc, hrest⟩ := Option.bind_eq_some_iff.mp h
    exact .tail (ih hrest) (firstBody_spec hc)

/-- Where following leads back to where it was, compiling does not come to an end. -/
theorem not_finishes_of_follow {n k : Nat} {a b : α} (hab : follow mem config (k + 1) a = some b)
    (hbb : follow mem config (n + 1) b = some b) : ¬ Finishes mem config a := by
  rw [finishes_iff]
  intro hacc
  have hb := (hacc.inv_of_transGen (follow_enters hab)).transGen
  exact absurd (follow_enters hbb) (hb.recOn (fun a _ ih haa => ih a haa haa))

end Follow

/-! ## Documents -/

/-- The compilation of a document, and of each of its schemas, comes to an end if and only
if there is no endless chain of schemas that the compiler enters one from another. -/
theorem compilation_finishes_iff (d : Doc (Tree Nat)) (config : Option CompilerConfig)
    (errors : ErrorList) :
    ((∃ depth, (oasDocCompile d.memory config depth d errors).isSome) ∧
        ∀ t ∈ d.schemas, ∃ depth,
          oasSchemaCompile d.memory config depth (some t) ≠ .error .callDepth) ↔
      ∀ t ∈ d.schemas, Acc (fun b a => Enters d.memory config a b) t := by
  simp only [ne_eq, oasSchemaCompile_callDepth]
  constructor
  · rintro ⟨-, h⟩ t ht
    exact finishes_iff.mp (h t ht)
  · intro h
    have hall : ∀ t ∈ d.schemas, Finishes d.memory config t := fun t ht => finishes_iff.mpr (h t ht)
    refine ⟨?_, hall⟩
    obtain ⟨depth, hfits⟩ := exists_fits hall
    exact ⟨depth, (oasDocCompile_isSome d errors).mpr
      (.inr (fun t ht => hfits t (compiledSchemas_subset ht)))⟩

section Runs

/-- A node that can have a next node, and a path that answers with one. -/
def nodeDocRoot : Json :=
  .obj [(ascii "openapi", .str (ascii "3.1.0")), (ascii "info", .obj []),
    (ascii "paths", .obj [(ascii "/n", .obj [(ascii "get", .obj [(ascii "responses", .obj
      [(ascii "200", .obj [(ascii "content", .obj [(ascii "application/json", .obj
        [(ascii "schema", refToNode)])])])])])])]),
    (ascii "components", .obj [(ascii "schemas", .obj [(ascii "Node", .obj
      [(ascii "properties", .obj [(ascii "next", refToNode)])])])])]
where
  refToNode : Json := .obj [(ascii "$ref", .str (ascii "#/components/schemas/Node"))]

def nodeDocText : Bytes := ascii
  ("\x7b\"openapi\":\"3.1.0\",\"info\":\x7b\x7d,\"paths\":\x7b\"/n\":\x7b\"get\":\x7b" ++
  "\"responses\":\x7b\"200\":\x7b\"content\":\x7b\"application/json\":\x7b\"schema\":" ++
  "\x7b\"$ref\":\"#/components/schemas/Node\"\x7d\x7d\x7d\x7d\x7d\x7d\x7d\x7d," ++
  "\"components\":\x7b\"schemas\":\x7b\"Node\":\x7b\"properties\":\x7b\"next\":" ++
  "\x7b\"$ref\":\"#/components/schemas/Node\"\x7d\x7d\x7d\x7d\x7d\x7d")

/-- Component schema number 0. -/
def isFirstComponent : Option (Tree Nat) → Bool
  | some (.shared 0) => true
  | _ => false

/-- A schema that is compiled leads to component 0, and that leads back to itself. -/
def circles (d : Doc (Tree Nat)) : Bool :=
  d.matcher.isSome &&
    d.compiledSchemas.any (fun t => isFirstComponent (follow d.memory none 1 t)) &&
    isFirstComponent (follow d.memory none 2 (.shared 0))

theorem circles_spec {d : Doc (Tree Nat)} (h : circles d = true) :
    ¬ ∃ depth, (oasDocCompile d.memory none depth d none).isSome := by
  have hfirst : ∀ {slot : Option (Tree Nat)}, isFirstComponent slot = true →
      slot = some (.shared 0) := by
    intro slot hslot
    unfold isFirstComponent at hslot
    split at hslot
    · rfl
    · cases hslot
  simp only [circles, Bool.and_eq_true, List.any_eq_true] at h
  obtain ⟨⟨hmatcher, t, ht, htop⟩, hback⟩ := h
  rintro ⟨depth, hsome⟩
  rcases (oasDocCompile_isSome d none).mp hsome with hnone | hfits
  · rw [hnone] at hmatcher
    cases hmatcher
  · exact not_finishes_of_follow (hfirst htop) (hfirst hback) ⟨depth, hfits t ht⟩

theorem exists_of_any {check : Doc (Tree Nat) → Bool} {rt : Runtime} {json : Bytes}
    (h : (oasDocParse rt json none).1.any check = true) :
    ∃ d errors, oasDocParse rt json none = (some d, errors) ∧ check d = true := by
  obtain ⟨d, hd, hcheck⟩ := (Option.any_eq_true _ _).mp h
  exact ⟨d, (oasDocParse rt json none).2, Prod.ext hd rfl, hcheck⟩

/-- The parser links the node to itself, and then the compiler never comes to an end. -/
theorem recursiveNode_not_finishes :
    ∃ d errors, oasDocParse (.knowing [(nodeDocText, nodeDocRoot)]) nodeDocText none =
        (some d, errors) ∧
      ¬ ((∃ depth, (oasDocCompile d.memory none depth d none).isSome) ∧
        ∀ t ∈ d.schemas, ∃ depth,
          oasSchemaCompile d.memory none depth (some t) ≠ .error .callDepth) := by
  have hcircles : (oasDocParse (.knowing [(nodeDocText, nodeDocRoot)]) nodeDocText none).1.any
      circles = true := by decide +kernel
  obtain ⟨d, errors, hd, hcircle⟩ := exists_of_any hcircles
  exact ⟨d, errors, hd, fun h => circles_spec hcircle h.1⟩

end Runs

end Liboas
