import Liboas.Parser.DocParser

/-!
# What the resolver leaves unresolved

`resolve_schema_refs` does not go everywhere. `Covered` says of a schema as it was parsed
that it has no `$ref` where the resolver does not go, and `closed_link` that this is just
what it takes for all references to be resolved.
-/

namespace Liboas

open Traverse

/-! ## Resolving does not depend on the errors so far -/

theorem oasJsonptrResolveEx_fst (rt : Runtime) (root : Json) (pointer : CStr)
    (errors errors' : ErrorList) : (oasJsonptrResolveEx rt root pointer errors).1 =
      (oasJsonptrResolveEx rt root pointer errors').1 := by
  unfold oasJsonptrResolveEx
  split
  · rfl
  · split <;> rfl

theorem resolveWithin_fst (rt : Runtime) (root : Json) (room : Nat) (visited : List CStr)
    (ref : CStr) (errors errors' : ErrorList) :
    (resolveWithin rt root room visited ref errors).1 =
      (resolveWithin rt root room visited ref errors').1 := by
  induction room generalizing visited ref errors errors' with
  | zero =>
    unfold resolveWithin
    dsimp only
    split <;> rfl
  | succ room ih =>
    unfold resolveWithin
    dsimp only
    split
    · rfl
    · split
      · have hfst := oasJsonptrResolveEx_fst rt root (oasJsonptrFromRef ref) errors errors'
        generalize oasJsonptrResolveEx rt root (oasJsonptrFromRef ref) errors = r at hfst ⊢
        generalize oasJsonptrResolveEx rt root (oasJsonptrFromRef ref) errors' = r' at hfst ⊢
        obtain ⟨val, e⟩ := r
        obtain ⟨val', e'⟩ := r'
        obtain rfl : val = val' := hfst
        cases val with
        | none => rfl
        | some val =>
          dsimp only
          split
          · exact ih _ _ _ _
          · rfl
      · rfl

/-- What a `$ref` leads to in the JSON document. -/
def RefCtx.target (ctx : RefCtx) (ref : CStr) : Option Json :=
  (oasRefResolve ctx.rt ctx.root ref none).1.toOption

theorem target_of_resolve {ctx : RefCtx} {ref : CStr} {errors : ErrorList} {val : Json}
    (h : (oasRefResolve ctx.rt ctx.root ref errors).1 = .ok val) : ctx.target ref = some val := by
  rw [RefCtx.target, oasRefResolve, resolveWithin_fst _ _ _ _ _ none errors]
  rw [oasRefResolve] at h
  rw [h]
  rfl

/-! ## What the resolver makes of a schema when nothing fails -/

namespace Schema

variable {α β γ : Type}

/-- The schemas below that the resolver visits. -/
def visited (s : Schema α) : List α :=
  s.items.toList ++ s.prefixItems.reduceOption ++ (s.properties.map Entry.schema).reduceOption ++
  s.additionalProperties.toList ++ s.allOf.reduceOption ++ s.anyOf.reduceOption ++
  s.oneOf.reduceOption ++ s.notSchema.toList ++ s.ifSchema.toList ++ s.thenSchema.toList ++
  s.elseSchema.toList

/-- The schemas below that it does not visit. -/
def unvisited (s : Schema α) : List α :=
  s.propertyNames.toList ++ (s.patternProperties.map Entry.schema).reduceOption ++
  (s.dependentSchemas.map Entry.schema).reduceOption ++ s.contains.toList ++
  s.unevaluatedProperties.toList ++ s.unevaluatedItems.toList

theorem forall_mem_below {P : α → Prop} {s : Schema α} :
    (∀ a ∈ s.below, P a) ↔ (∀ a ∈ s.visited, P a) ∧ ∀ a ∈ s.unvisited, P a := by
  simp only [below, visited, unvisited, List.forall_mem_append]
  tauto

/-- Another function for the schemas that are visited. -/
def mapVisited (s : Schema α) (f g : α → β) : Schema β :=
  { s.map g with
    items := s.items.map f
    prefixItems := s.prefixItems.map (Option.map f)
    properties := s.properties.map (Entry.map f)
    additionalProperties := s.additionalProperties.map f
    allOf := s.allOf.map (Option.map f)
    anyOf := s.anyOf.map (Option.map f)
    oneOf := s.oneOf.map (Option.map f)
    notSchema := s.notSchema.map f
    ifSchema := s.ifSchema.map f
    thenSchema := s.thenSchema.map f
    elseSchema := s.elseSchema.map f }

@[simp] theorem mapVisited_toKeywords (s : Schema α) (f g : α → β) :
    (s.mapVisited f g).toKeywords = s.toKeywords := rfl

@[simp] theorem mapVisited_refResolved (s : Schema α) (f g : α → β) :
    (s.mapVisited f g).refResolved = s.refResolved.map g := rfl

theorem mapVisited_map (s : Schema α) (h : α → β) (f g : β → γ) :
    (s.map h).mapVisited f g = s.mapVisited (f ∘ h) (g ∘ h) := by
  simp only [mapVisited, map_map]
  simp only [map, Entry.map_comp, Option.map_map, List.map_map, Option.map_comp_map]

theorem visited_mapVisited (s : Schema α) (f g : α → β) :
    (s.mapVisited f g).visited = s.visited.map f := by
  have hentries : ∀ es : List (Entry α), ((es.map (Entry.map f)).map Entry.schema).reduceOption =
      (es.map Entry.schema).reduceOption.map f := by
    intro es
    rw [← List.reduceOption_map, List.map_map, List.map_map]
    rfl
  simp only [visited, mapVisited, List.map_append, List.reduceOption_map, hentries,
    Option.toList_map]

theorem unvisited_mapVisited (s : Schema α) (f : α → α) :
    (s.mapVisited f id).unvisited = s.unvisited := by
  simp [unvisited, mapVisited, map_id]

end Schema

section Link

variable (ctx : RefCtx)

/-- One schema: `f` says what becomes of the schemas visited below it, and `g` what the
others are. -/
def linkSchema {α : Type} (f g : α → Tree Nat) (s : Schema α) : Schema (Tree Nat) :=
  match s.ref with
  | none => s.mapVisited f g
  | some ref =>
    match ctx.component ref with
    | some i => { s.map g with refResolved := some (.shared i) }
    | none =>
      let target := (ctx.target ref).bind (oasSchemaParse ctx.rt)
      { s.mapVisited f g with
        refResolved := target.orElse (fun _ => (s.map g).refResolved) }

/-- A tree as it is, and what becomes of it. -/
def linkTree : Tree Nat → Tree Nat × Tree Nat :=
  Tree.fold (fun s => (.node (s.map Prod.fst), .node (linkSchema ctx Prod.snd Prod.fst s)))
    (fun i => (.shared i, .shared i))

def link (t : Tree Nat) : Tree Nat := (linkTree ctx t).2

theorem linkTree_fst (t : Tree Nat) : (linkTree ctx t).1 = t := by
  induction t using Tree.induct with
  | node s ih =>
    have h : s.map (Prod.fst ∘ linkTree ctx) = s.map id := Schema.map_congr ih
    rw [linkTree, Tree.fold_node, ← linkTree]
    dsimp only
    rw [Schema.map_map, h, Schema.map_id]
  | shared i => rfl

theorem link_node (s : Schema (Tree Nat)) :
    link ctx (.node s) = .node (linkSchema ctx (link ctx) id s) := by
  have hfst : Prod.fst ∘ linkTree ctx = id := funext (linkTree_fst ctx)
  have hsnd : Prod.snd ∘ linkTree ctx = link ctx := rfl
  have hmap : linkSchema ctx Prod.snd Prod.fst (s.map (linkTree ctx)) =
      linkSchema ctx (link ctx) id s := by
    simp only [linkSchema, Schema.map_toKeywords, Schema.mapVisited_map, Schema.map_map, hfst, hsnd]
  rw [link, linkTree, Tree.fold_node, ← linkTree]
  exact congrArg Tree.node hmap

end Link

/-! ## The walk, when it does not fail -/

section Walk

variable {ctx : RefCtx}

theorem visitTree_node (s : Schema (Tree Nat)) :
    visitTree ctx (.node s) = resolveNode ctx (s.map (visitTree ctx)) :=
  Tree.fold_node _ _ s

theorem visitTree_original (t : Tree Nat) : (visitTree ctx t).original = t := by
  induction t using Tree.induct with
  | node s ih =>
    have h : s.map (Visit.original ∘ visitTree ctx) = s.map id := Schema.map_congr ih
    rw [visitTree_node]
    show Tree.node ((s.map (visitTree ctx)).map Visit.original) = _
    rw [Schema.map_map, h, Schema.map_id]
  | shared i => rfl

theorem originals (s : Schema (Tree Nat)) : (s.map (visitTree ctx)).map Visit.original = s := by
  have h : Visit.original ∘ visitTree ctx = id := funext visitTree_original
  rw [Schema.map_map, h, Schema.map_id]

/-- The walk has not failed. -/
def Progress.Good (st : Progress) : Prop := st.failure = none

/-- The visit of a tree ends well only with the linked tree. -/
abbrev Linked (ctx : RefCtx) (t : Tree Nat) : Prop :=
  Tracks Progress.Good (visitTree ctx t).run (link ctx t)

theorem tracks_slot {slot : Option (Tree Nat)} (h : ∀ t, slot = some t → Linked ctx t) :
    Tracks Progress.Good (option Visit.run (slot.map (visitTree ctx))) (slot.map (link ctx)) := by
  cases slot with
  | none => exact fun st hgood => ⟨hgood, rfl⟩
  | some t => exact (h t rfl).wrap some

theorem tracks_slots {slots : List (Option (Tree Nat))} (h : ∀ t, some t ∈ slots → Linked ctx t) :
    Tracks Progress.Good (list (option Visit.run) (slots.map (Option.map (visitTree ctx))))
      (slots.map (Option.map (link ctx))) := by
  rw [list_map]
  exact tracks_list (fun slot hslot => tracks_slot (fun t ht => h t (ht ▸ hslot)))

theorem tracks_entries {es : List (Entry (Tree Nat))}
    (h : ∀ e ∈ es, ∀ t, e.schema = some t → Linked ctx t) :
    Tracks Progress.Good (list Visit.runEntry (es.map (Entry.map (visitTree ctx))))
      (es.map (Entry.map (link ctx))) := by
  rw [list_map]
  exact tracks_list (fun e he => (tracks_slot (h e he)).wrap (Entry.mk e.name))

theorem visitChildren_tracks {s : Schema (Tree Nat)} (h : ∀ t ∈ s.children, Linked ctx t) :
    Tracks Progress.Good (visitChildren (s.map (visitTree ctx)))
      (s.mapVisited (link ctx) id) := by
  obtain ⟨hbelow, -⟩ := Schema.children_iff.mp h
  intro st hgood
  obtain ⟨h1, e1⟩ := tracks_slot hbelow.elseSchema _ hgood
  obtain ⟨h2, e2⟩ := tracks_slot hbelow.thenSchema _ h1
  obtain ⟨h3, e3⟩ := tracks_slot hbelow.ifSchema _ h2
  obtain ⟨h4, e4⟩ := tracks_slot hbelow.notSchema _ h3
  obtain ⟨h5, e5⟩ := tracks_slots hbelow.oneOf _ h4
  obtain ⟨h6, e6⟩ := tracks_slots hbelow.anyOf _ h5
  obtain ⟨h7, e7⟩ := tracks_slots hbelow.allOf _ h6
  obtain ⟨h8, e8⟩ := tracks_slot hbelow.additionalProperties _ h7
  obtain ⟨h9, e9⟩ := tracks_entries hbelow.properties _ h8
  obtain ⟨h10, e10⟩ := tracks_slots hbelow.prefixItems _ h9
  obtain ⟨h11, e11⟩ := tracks_slot hbelow.items _ h10
  refine ⟨h11, ?_⟩
  simp only [visitChildren, originals, Schema.mapVisited, Schema.map_id]
  rw [← e1, ← e2, ← e3, ← e4, ← e5, ← e6, ← e7, ← e8, ← e9, ← e10, ← e11]
  rfl

/-- When the visit of a tree ends well, the tree is linked. -/
theorem visitTree_tracks (t : Tree Nat) : Linked ctx t := by
  induction t using Tree.induct with
  | shared i =>
    intro st hgood
    unfold Visit.run at hgood ⊢
    split at hgood
    · exact ⟨hgood, by rename_i h; rw [if_pos h]; rfl⟩
    · exact ⟨hgood, by rename_i h; rw [if_neg h]; rfl⟩
  | node s ih =>
    intro st hgood
    have hchildren := visitChildren_tracks ih
    rw [link_node]
    rw [visitTree_node] at hgood ⊢
    unfold Visit.run at hgood ⊢
    split at hgood
    · rename_i hfailed
      rw [Progress.Good] at hgood
      rw [hgood] at hfailed
      exact absurd hfailed (by simp)
    · rename_i hgoing
      rw [if_neg hgoing]
      have hst : st.Good := by simpa [Progress.Good] using hgoing
      refine ⟨hst, ?_⟩
      have hids : s.map id = s := s.map_id
      cases href : s.ref with
      | none =>
        simp only [resolveNode, Schema.map_toKeywords, href] at hgood ⊢
        rw [(hchildren st hgood).2, linkSchema, href]
      | some ref =>
        cases hcomp : ctx.component ref with
        | some i =>
          simp only [resolveNode, Schema.map_toKeywords, href, hcomp, linkSchema, originals,
            Schema.map_id]
        | none =>
          simp only [resolveNode, Schema.map_toKeywords, href, hcomp] at hgood ⊢
          rcases hres : oasRefResolve ctx.rt ctx.root ref st.errors with ⟨_ | val, errors⟩
          · rw [hres] at hgood
            exact absurd hgood (by simp [Progress.Good])
          · have htarget : ctx.target ref = some val := target_of_resolve (by rw [hres])
            rw [hres] at hgood
            simp only [linkSchema, href, hcomp, htarget, Option.bind_some]
            rw [(hchildren _ hgood).2]
            rfl

end Walk

/-! ## Which trees are resolved -/

/-- No `$ref` in the tree. -/
inductive Tree.RefFree {ι : Type} : Tree ι → Prop where
  | node (s : Schema (Tree ι)) : s.ref = none → (∀ t ∈ s.below, t.RefFree) → RefFree (.node s)

/-- Every `$ref` in the tree is resolved. -/
inductive Tree.Closed {ι : Type} : Tree ι → Prop where
  | node (s : Schema (Tree ι)) : (s.ref.isSome → s.refResolved.isSome) →
      (∀ t ∈ s.children, t.Closed) → Closed (.node s)
  | shared (i : ι) : Closed (.shared i)

/-- Every `$ref` in the tree stands where the resolver goes, and leads to a component, or
else to an object that has no `$ref` itself. -/
inductive Covered (ctx : RefCtx) : Tree Nat → Prop where
  | plain (s : Schema (Tree Nat)) : s.ref = none → (∀ t ∈ s.visited, Covered ctx t) →
      (∀ t ∈ s.unvisited, t.RefFree) → Covered ctx (.node s)
  | component (s : Schema (Tree Nat)) (ref : CStr) : s.ref = some ref →
      (ctx.component ref).isSome → (∀ t ∈ s.below, t.RefFree) → Covered ctx (.node s)
  | pointer (s : Schema (Tree Nat)) (ref : CStr) (val : Json) (target : Tree Nat) :
      s.ref = some ref → ctx.component ref = none → ctx.target ref = some val →
      oasSchemaParse ctx.rt val = some target → target.RefFree →
      (∀ t ∈ s.visited, Covered ctx t) → (∀ t ∈ s.unvisited, t.RefFree) → Covered ctx (.node s)

namespace Tree

variable {ι : Type}

theorem closed_node {s : Schema (Tree ι)} :
    (node s).Closed ↔ (s.ref.isSome → s.refResolved.isSome) ∧
      (∀ t ∈ s.below, t.Closed) ∧ ∀ t, s.refResolved = some t → t.Closed := by
  rw [← Schema.below_iff, ← Schema.children_iff]
  constructor
  · intro h
    cases h with
    | node _ href hchildren => exact ⟨href, hchildren⟩
  · rintro ⟨href, hchildren⟩
    exact .node s href hchildren

/-- Of what the parser returns, nothing is resolved. -/
theorem Fresh.closed_iff {t : Tree ι} (h : t.Fresh) : t.Closed ↔ t.RefFree := by
  induction h with
  | node s hresolved _ ih =>
    rw [closed_node, hresolved]
    constructor
    · rintro ⟨href, hbelow, -⟩
      refine .node s ?_ (fun t ht => (ih t ht).mp (hbelow t ht))
      simpa using href
    · intro hfree
      cases hfree with
      | node _ href hbelow => exact ⟨by simp [href], fun t ht => (ih t ht).mpr (hbelow t ht), by simp⟩

end Tree

theorem visited_subset {α : Type} {s : Schema α} {a : α} (h : a ∈ s.visited) : a ∈ s.below :=
  (Schema.forall_mem_below.mp (fun _ hb => hb)).1 a h

theorem unvisited_subset {α : Type} {s : Schema α} {a : α} (h : a ∈ s.unvisited) : a ∈ s.below :=
  (Schema.forall_mem_below.mp (fun _ hb => hb)).2 a h

section Closed

variable {ctx : RefCtx} {s : Schema (Tree Nat)} {f g : Tree Nat → Tree Nat} {ref : CStr}

theorem linkSchema_plain (href : s.ref = none) : linkSchema ctx f g s = s.mapVisited f g := by
  rw [linkSchema, href]

theorem linkSchema_component {i : Nat} (href : s.ref = some ref)
    (hcomp : ctx.component ref = some i) :
    linkSchema ctx f g s = { s.map g with refResolved := some (.shared i) } := by
  simp only [linkSchema, href, hcomp]

theorem linkSchema_pointer (href : s.ref = some ref) (hcomp : ctx.component ref = none)
    (hresolved : s.refResolved = none) :
    linkSchema ctx f g s = { s.mapVisited f g with
      refResolved := (ctx.target ref).bind (oasSchemaParse ctx.rt) } := by
  simp only [linkSchema, href, hcomp, Schema.map, hresolved, Option.map_none]
  cases (ctx.target ref).bind (oasSchemaParse ctx.rt) <;> rfl

theorem mapVisited_closed (hfresh : ∀ t ∈ s.below, t.Fresh)
    (ih : ∀ t ∈ s.below, (link ctx t).Closed ↔ Covered ctx t) :
    (∀ t ∈ (s.mapVisited (link ctx) id).below, t.Closed) ↔
      (∀ t ∈ s.visited, Covered ctx t) ∧ ∀ t ∈ s.unvisited, t.RefFree := by
  rw [Schema.forall_mem_below, Schema.visited_mapVisited, Schema.unvisited_mapVisited,
    List.forall_mem_map]
  refine and_congr (forall₂_congr fun t ht => ih t (visited_subset ht)) ?_
  exact forall₂_congr fun t ht => (hfresh t (unvisited_subset ht)).closed_iff

/-- What the resolver makes of a tree that was just parsed is resolved if and only if the
tree is covered. -/
theorem closed_link {t : Tree Nat} (h : t.Fresh) : (link ctx t).Closed ↔ Covered ctx t := by
  induction h with
  | node s hresolved hfresh ih =>
    have hvisited := mapVisited_closed hfresh ih
    have hbelow : (∀ t ∈ (s.map id).below, t.Closed) ↔ ∀ t ∈ s.below, t.RefFree := by
      rw [Schema.map_id]
      exact forall₂_congr fun t ht => (hfresh t ht).closed_iff
    rw [link_node, Tree.closed_node]
    cases href : s.ref with
    | none =>
      rw [linkSchema_plain href, hvisited]
      constructor
      · rintro ⟨-, ⟨hgone, hleft⟩, -⟩
        exact .plain s href hgone hleft
      · intro hcovered
        cases hcovered with
        | plain _ _ hgone hleft => exact ⟨by simp [href], ⟨hgone, hleft⟩, by simp [hresolved]⟩
        | component _ ref h => rw [href] at h; cases h
        | pointer _ ref _ _ h => rw [href] at h; cases h
    | some ref =>
      cases hcomp : ctx.component ref with
      | some i =>
        rw [linkSchema_component href hcomp]
        constructor
        · rintro ⟨-, hclosed, -⟩
          exact .component s ref href (by simp [hcomp]) (hbelow.mp hclosed)
        · intro hcovered
          cases hcovered with
          | plain _ h => rw [href] at h; cases h
          | component _ _ _ _ hfree =>
            refine ⟨by simp, hbelow.mpr hfree, ?_⟩
            rintro _ ⟨⟩
            exact .shared i
          | pointer _ ref' _ _ h hnone =>
            rw [href] at h
            cases h
            rw [hcomp] at hnone
            cases hnone
      | none =>
        rw [linkSchema_pointer href hcomp hresolved]
        constructor
        · rintro ⟨hsome, hclosed, htarget⟩
          obtain ⟨hgone, hleft⟩ := hvisited.mp hclosed
          obtain ⟨target, hparse⟩ := Option.isSome_iff_exists.mp (hsome (by simp [href]))
          obtain ⟨val, hval, hobj⟩ := Option.bind_eq_some_iff.mp hparse
          refine .pointer s ref val target href hcomp hval hobj ?_ hgone hleft
          exact (oasSchemaParse_fresh hobj).closed_iff.mp (htarget target hparse)
        · intro hcovered
          cases hcovered with
          | plain _ h => rw [href] at h; cases h
          | component _ ref' h hsome =>
            rw [href] at h
            cases h
            rw [hcomp] at hsome
            cases hsome
          | pointer _ ref' val target h _ hval hobj hfree hgone hleft =>
            rw [href] at h
            cases h
            have hparse : (ctx.target ref).bind (oasSchemaParse ctx.rt) = some target := by
              rw [hval]
              exact hobj
            refine ⟨by simp [hparse], hvisited.mpr ⟨hgone, hleft⟩, ?_⟩
            intro t ht
            obtain rfl : target = t := by simpa [hparse] using ht
            exact (oasSchemaParse_fresh hobj).closed_iff.mpr hfree

end Closed

end Liboas
