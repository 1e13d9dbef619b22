import Liboas.Doc.Maps
import Liboas.Parser.Resolved
import Liboas.Parser.Resolver

/-!
# Documents without references

The resolver leaves a document in which no schema has a `$ref` as it is.
-/

namespace Liboas

open Traverse

variable {ctx : RefCtx} {st : Progress}

/-- The visit leaves the tree as it is, and says nothing. -/
abbrev Untouched (ctx : RefCtx) (t : Tree Nat) : Prop := ∀ st, (visitTree ctx t).run st = (t, st)

theorem slot_untouched {slot : Option (Tree Nat)} (h : ∀ t, slot = some t → Untouched ctx t) :
    option Visit.run (slot.map (visitTree ctx)) st = (slot, st) := by
  cases slot with
  | none => rfl
  | some t =>
    rw [Option.map_some, option, h t rfl st]

theorem slots_untouched {slots : List (Option (Tree Nat))} (h : ∀ t, some t ∈ slots → Untouched ctx t) :
    list (option Visit.run) (slots.map (Option.map (visitTree ctx))) st = (slots, st) := by
  rw [list_map, @list_idle _ _ _ _ id, List.map_id]
  exact fun slot hslot => slot_untouched fun t ht => h t (ht ▸ hslot)

theorem entries_untouched {es : List (Entry (Tree Nat))}
    (h : ∀ e ∈ es, ∀ t, e.schema = some t → Untouched ctx t) :
    list Visit.runEntry (es.map (Entry.map (visitTree ctx))) st = (es, st) := by
  rw [list_map, @list_idle _ _ _ _ id, List.map_id]
  intro e he
  unfold Visit.runEntry
  rw [Entry.map_schema, slot_untouched (h e he)]
  rfl

theorem visitChildren_untouched {s : Schema (Tree Nat)} (h : s.Below (Untouched ctx)) :
    visitChildren (s.map (visitTree ctx)) st = (s, st) := by
  have hitems := @slot_untouched ctx st _ h.items
  have hslots := @slots_untouched ctx st _ h.prefixItems
  have hproperties := @entries_untouched ctx st _ h.properties
  have hadditional := @slot_untouched ctx st _ h.additionalProperties
  have hall := @slots_untouched ctx st _ h.allOf
  have hany := @slots_untouched ctx st _ h.anyOf
  have hone := @slots_untouched ctx st _ h.oneOf
  have hnot := @slot_untouched ctx st _ h.notSchema
  have hif := @slot_untouched ctx st _ h.ifSchema
  have hthen := @slot_untouched ctx st _ h.thenSchema
  have helse := @slot_untouched ctx st _ h.elseSchema
  unfold visitChildren
  rw [originals]
  simp only [Schema.map, hitems, hslots, hproperties, hadditional, hall, hany, hone, hnot, hif,
    hthen, helse]

theorem Tree.RefFree.untouched {t : Tree Nat} (h : t.RefFree) : Untouched ctx t := by
  induction h with
  | node s href _ ih =>
    intro st
    unfold Visit.run
    split
    · rw [visitTree_original]
    · rw [visitTree_node]
      unfold resolveNode
      simp only [Schema.map_toKeywords, href]
      rw [visitChildren_untouched (Schema.below_iff.mpr ih)]

/-- The resolver leaves a document without references as it is. -/
theorem oasRefResolveAll_refFree {rt : Runtime} {root : Json} {d : Doc (Tree Nat)}
    (h : ∀ t ∈ d.schemas, t.RefFree) (errors : ErrorList) :
    (oasRefResolveAll rt root d errors).2.2 = errors ∧
      (oasRefResolveAll rt root d errors).2.1 = d.map id := by
  have hstate : (resolveDoc (d.refCtx rt root) d ⟨none, errors⟩).2 = ⟨none, errors⟩ := by
    have hidle : list (resolveSchemaRefs (d.refCtx rt root)) d.schemas ⟨none, errors⟩ =
        (d.schemas.map id, ⟨none, errors⟩) := list_idle fun t ht => (h t ht).untouched _
    rw [walkDoc_visits] at hidle
    exact congrArg Prod.snd hidle
  have hlink : ∀ t ∈ d.schemas, link (d.refCtx rt root) t = id t := by
    intro t ht
    have hvisit := @Tree.RefFree.untouched (d.refCtx rt root) t (h t ht) ⟨none, errors⟩
    have htracks := @visitTree_tracks (d.refCtx rt root) t ⟨none, errors⟩
    rw [hvisit] at htracks
    exact (htracks rfl).2.symm
  refine ⟨congrArg Progress.errors hstate, ?_⟩
  rw [← Doc.map_congr hlink]
  have hgood : (resolveDoc (d.refCtx rt root) d ⟨none, errors⟩).2.Good := by
    rw [hstate]
    rfl
  exact (resolveDoc_tracks _ d _ hgood).2

end Liboas
