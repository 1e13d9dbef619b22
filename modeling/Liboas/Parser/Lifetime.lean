import Liboas.Parser.Resolved
import Liboas.Parser.Resolver

/-!
# The lifetime of external documents (`oas_doc_parse_ex`)

The schema parser copies no strings: a schema points into the document that it was parsed
from. `oas_doc_parse_ex` destroys the reference cache, and with it every external document,
while what was parsed from these documents stays reachable.
-/

namespace Liboas

open Traverse

/-! ## What is borrowed -/

/-- A string or a value that is still in the document. -/
def Keywords.borrows (k : Keywords) : Bool :=
  k.title.isSome || k.description.isSome || k.format.isSome || k.pattern.isSome ||
  k.required.any Option.isSome || !k.dependentRequired.isEmpty || k.constValue.isSome ||
  k.enumValues.isSome || k.ref.isSome || k.defaultValue.isSome ||
  k.discriminatorProperty.isSome || !k.discriminatorMapping.isEmpty

/-- A keyword, or a name of a schema below. -/
def Schema.borrows {α : Type} (s : Schema α) : Bool :=
  s.toKeywords.borrows || !s.properties.isEmpty || !s.patternProperties.isEmpty ||
  !s.dependentSchemas.isEmpty

theorem Schema.borrows_map {α β : Type} (f : α → β) (s : Schema α) : (s.map f).borrows = s.borrows := by
  simp [borrows, map]

/-- The document that a schema was parsed from. -/
def source : Tree Pointee → DocId
  | .node _ | .shared (.component _) => .main
  | .shared (.parsed doc _) => doc

/-- What the pointers of a document point to. -/
def Doc.pointees (d : Doc (Tree Pointee)) : Memory (Tree Pointee) :=
  Tree.deref fun
    | .component i =>
      match d.componentSchemas[i]?.bind (·.schema) with
      | some (.node s) => s
      | _ => oasSchemaCreate
    | .parsed doc t => (SchemaTree.memory t).map (fun below => .shared (.parsed doc below))

/-- `a` can be reached from the document. -/
def Doc.Reachable (d : Doc (Tree Pointee)) (a : Tree Pointee) : Prop :=
  ∃ t ∈ d.schemas, Reaches (fun a => (d.pointees a).children) t a

/-- No schema that can be reached borrows from a document that was freed. -/
def ParsedDoc.Live (r : ParsedDoc) : Prop :=
  ∀ d, r.doc = some d → ∀ a, d.Reachable a → (d.pointees a).borrows = true → source a ∉ r.freed

/-! ## The references that are followed -/

section Followed

variable (ctx : ResolverCtx)

/-- The references in a schema that the resolver follows, in its order. -/
def followedRefs : Tree Nat → List CStr :=
  Tree.fold (fun s => match s.ref with
    | none => s.visited.flatten
    | some ref => if (ctx.component ref).isSome then [] else ref :: s.visited.flatten)
    (fun _ => [])

/-- Resolves one reference after another, up to the first that fails. -/
def followAll (refs : List CStr) (st : Walk) : Walk :=
  refs.foldl (fun st ref => if st.failure.isSome then st else (followRef ctx ref st).2) st

/-- The resolver before its first reference. -/
def Walk.start (errors : ErrorList) : Walk := ⟨none, ⟨newCache ctx.options, errors, 0, []⟩, []⟩

/-- The values that the references of a document lead to. -/
def Doc.targets (d : Doc (Tree Nat)) (errors : ErrorList) : List JsonVal :=
  (followAll ctx (d.schemas.flatMap (followedRefs ctx)) (.start ctx errors)).resolved

end Followed

/-! ## What the walk leaves -/

section Walk

variable {ctx : ResolverCtx} {α β σ : Type}

theorem slots_visits (f : α → σ → β × σ) :
    Visits f (list (option f)) List.reduceOption List.reduceOption := by
  have h : ∀ {γ : Type} (l : List (Option γ)), l.reduceOption = l.flatMap Option.toList := by
    intro γ l
    induction l with
    | nil => rfl
    | cons slot l ih => cases slot <;> simp [ih]
  intro l st
  rw [h, h]
  exact (Visits.slot f).list l st

theorem entries_visits (f : α → σ → β × σ) : Visits f (list (walkEntry f))
    (fun es => (es.map Entry.schema).reduceOption) (fun es => (es.map Entry.schema).reduceOption) := by
  have h : ∀ {γ : Type} (es : List (Entry γ)), (es.map Entry.schema).reduceOption =
      es.flatMap (fun e => e.schema.toList) := by
    intro γ es
    induction es with
    | nil => rfl
    | cons e es ih =>
      rw [List.map_cons, List.flatMap_cons, ← ih]
      cases e.schema <;> simp
  intro es st
  dsimp only
  rw [h, h]
  exact walkEntry_visits.list es st

/-- The walk over the schemas below one schema. -/
theorem walkVisited_visits (f : α → σ → β × σ) (g : α → β) :
    Visits f (Schema.walkVisited f g) Schema.visited Schema.visited := by
  intro s st
  have hslot := Visits.slot f
  have hslots := slots_visits f
  simp only [Schema.visited, list_append, hslot s.items st, hslots s.prefixItems,
    entries_visits f s.properties, hslot s.additionalProperties, hslots s.allOf, hslots s.anyOf,
    hslots s.oneOf, hslot s.notSchema, hslot s.ifSchema, hslot s.thenSchema, hslot s.elseSchema]
  rfl

theorem unvisited_map (g : α → β) (s : Schema α) : (s.map g).unvisited = s.unvisited.map g := by
  have hentries : ∀ es : List (Entry α), ((es.map (Entry.map g)).map Entry.schema).reduceOption =
      (es.map Entry.schema).reduceOption.map g := by
    intro es
    rw [← List.reduceOption_map, List.map_map, List.map_map]
    rfl
  simp only [Schema.unvisited, Schema.map, List.map_append, hentries, Option.toList_map]

theorem visited_map (g : α → β) (s : Schema α) : (s.map g).visited = s.visited.map g :=
  Schema.visited_mapVisited s g g

theorem followAll_append (refs refs' : List CStr) (st : Walk) :
    followAll ctx (refs ++ refs') st = followAll ctx refs' (followAll ctx refs st) :=
  List.foldl_append

theorem followAll_failed {st : Walk} (h : st.failure.isSome = true) (refs : List CStr) :
    followAll ctx refs st = st := by
  unfold followAll
  induction refs with
  | nil => rfl
  | cons ref refs ih => rw [List.foldl_cons, if_pos h, ih]

/-- The pointers in a tree to what was parsed. -/
def Tree.parsed : Tree Pointee → List (DocId × SchemaTree) :=
  Tree.fold (fun s => s.refResolved.toList.flatten ++ s.visited.flatten ++ s.unvisited.flatten)
    (fun
      | .component _ => []
      | .parsed doc t => [(doc, t)])

theorem parsed_node (s : Schema (Tree Pointee)) : (Tree.node s).parsed =
    s.refResolved.toList.flatMap Tree.parsed ++ s.visited.flatMap Tree.parsed ++
      s.unvisited.flatMap Tree.parsed := by
  have hresolved : (s.map Tree.parsed).refResolved = s.refResolved.map Tree.parsed := rfl
  rw [Tree.parsed, Tree.fold_node, ← Tree.parsed, visited_map, unvisited_map, hresolved,
    Option.toList_map, List.flatMap_def, List.flatMap_def, List.flatMap_def]

/-- What was parsed for the references so far. -/
def Walk.found (ctx : ResolverCtx) (st : Walk) : List (DocId × SchemaTree) :=
  st.resolved.filterMap (parsedTarget ctx)

/-- A walk that went through its references, and points to what was parsed for them. -/
structure Points (ctx : ResolverCtx) (refs : List CStr) (parsed : List (DocId × SchemaTree))
    (st st' : Walk) : Prop where
  left : st' = followAll ctx refs st
  found : st'.found ctx = st.found ctx ++ parsed

theorem Points.refl (st : Walk) : Points ctx [] [] st st := ⟨rfl, by rw [List.append_nil]⟩

theorem Points.append {refs refs' : List CStr} {parsed parsed' : List (DocId × SchemaTree)}
    {st st' st'' : Walk} (h : Points ctx refs parsed st st') (h' : Points ctx refs' parsed' st' st'') :
    Points ctx (refs ++ refs') (parsed ++ parsed') st st'' where
  left := by rw [followAll_append, ← h.left, h'.left]
  found := by rw [h'.found, h.found, List.append_assoc]

/-- After a failure no reference is followed. -/
theorem Points.failed {st : Walk} (h : st.failure.isSome = true) (refs : List CStr) :
    Points ctx refs [] st st :=
  ⟨(followAll_failed h refs).symm, by rw [List.append_nil]⟩

/-- The visit of the tree goes through its references. -/
abbrev Resolves (ctx : ResolverCtx) (t : Tree Nat) : Prop := ∀ st,
  Points ctx (followedRefs ctx t) (resolveTree ctx t st).1.parsed st (resolveTree ctx t st).2

theorem resolution_node (s : Schema (Tree Nat)) :
    resolution ctx (.node s) = resolutionNode ctx (s.map (resolution ctx)) := Tree.fold_node _ _ s

theorem followedRefs_node (s : Schema (Tree Nat)) : followedRefs ctx (.node s) = match s.ref with
    | none => s.visited.flatMap (followedRefs ctx)
    | some ref => if (ctx.component ref).isSome then []
      else ref :: s.visited.flatMap (followedRefs ctx) := by
  rw [followedRefs, Tree.fold_node, ← followedRefs, visited_map, List.flatMap_def]
  rfl

/-- The same schema with another target. -/
theorem parsed_target (s : Schema (Tree Pointee)) (target : Option (Tree Pointee)) :
    (Tree.node { s with refResolved := target }).parsed =
      target.toList.flatMap Tree.parsed ++ s.visited.flatMap Tree.parsed ++
        s.unvisited.flatMap Tree.parsed := parsed_node _

theorem Points.congr {refs : List CStr} {parsed parsed' : List (DocId × SchemaTree)} {st st' : Walk}
    (h : Points ctx refs parsed st st') (hparsed : parsed' = parsed) : Points ctx refs parsed' st st' :=
  hparsed ▸ h

/-- The schema as it was parsed. -/
abbrev asParsed (ctx : ResolverCtx) (s : Schema (Tree Nat)) : Schema (Tree Pointee) :=
  (s.map (resolution ctx)).map Resolution.original

theorem asParsed_parsed {s : Schema (Tree Nat)}
    (h : ∀ t ∈ s.below, (resolution ctx t).original.parsed = []) :
    (asParsed ctx s).visited.flatMap Tree.parsed = [] ∧
      (asParsed ctx s).unvisited.flatMap Tree.parsed = [] := by
  rw [asParsed, visited_map, visited_map, unvisited_map, unvisited_map, List.map_map, List.map_map,
    List.flatMap_map, List.flatMap_map, List.flatMap_eq_nil_iff, List.flatMap_eq_nil_iff]
  exact ⟨fun t ht => h t (visited_subset ht), fun t ht => h t (unvisited_subset ht)⟩

theorem asParsed_refResolved {s : Schema (Tree Nat)} (h : s.refResolved = none) :
    (asParsed ctx s).refResolved = none := by
  simp [Schema.map, h]

/-- Of what the parser returns, nothing points elsewhere. -/
theorem original_parsed {t : Tree Nat} (h : t.Fresh) : (resolution ctx t).original.parsed = [] := by
  induction h with
  | node s hresolved _ ih =>
    obtain ⟨hvisited, hunvisited⟩ := asParsed_parsed ih
    rw [resolution_node]
    show (Tree.node (asParsed ctx s)).parsed = []
    rw [parsed_node, asParsed_refResolved hresolved, hvisited, hunvisited]
    rfl

theorem list_points {ts : List (Tree Nat)} (h : ∀ t ∈ ts, Resolves ctx t) (st : Walk) :
    Points ctx (ts.flatMap (followedRefs ctx))
      ((list Resolution.run (ts.map (resolution ctx)) st).1.flatMap Tree.parsed) st
      (list Resolution.run (ts.map (resolution ctx)) st).2 := by
  induction ts generalizing st with
  | nil => exact Points.refl st
  | cons t ts ih =>
    have hfirst := h t List.mem_cons_self st
    exact hfirst.append (ih (fun t ht => h t (List.mem_cons_of_mem _ ht)) _)

/-- The schemas below one schema, all resolved. -/
theorem children_points {s : Schema (Tree Nat)} (hfresh : ∀ t ∈ s.below, t.Fresh)
    (hresolved : s.refResolved = none) (h : ∀ t ∈ s.below, Resolves ctx t) (st : Walk) :
    let r := (s.map (resolution ctx)).walkVisited Resolution.run Resolution.original st
    Points ctx (s.visited.flatMap (followedRefs ctx)) (Tree.node r.1).parsed st r.2 := by
  intro r
  have hlist := list_points (fun t ht => h t (visited_subset ht)) st
  have hwalk := walkVisited_visits Resolution.run Resolution.original (s.map (resolution ctx)) st
  rw [visited_map] at hwalk
  rw [hwalk] at hlist
  have hbelow := asParsed_parsed (fun t ht => @original_parsed ctx t (hfresh t ht))
  have hothers : r.1.unvisited.flatMap Tree.parsed = [] := hbelow.2
  have hself : r.1.refResolved = none := asParsed_refResolved hresolved
  rw [parsed_node, hself, hothers]
  simpa using hlist

/-- A reference that is not resolved ends the walk. -/
theorem followRef_failed {ref : CStr} {st st' : Walk} (h : followRef ctx ref st = (none, st')) :
    st'.failure.isSome = true ∧ st'.resolved = st.resolved := by
  unfold followRef at h
  split at h
  · cases h
    exact ⟨rfl, rfl⟩
  · cases h

theorem followRef_resolved {ref : CStr} {st st' : Walk} {val : JsonVal}
    (h : followRef ctx ref st = (some val, st')) : st'.resolved = st.resolved ++ [val] := by
  unfold followRef at h
  split at h
  · cases h
  · cases h
    rfl

/-- A tree as the parser returned it is resolved step by step. -/
theorem resolveTree_points {t : Tree Nat} (h : t.Fresh) : Resolves ctx t := by
  induction h with
  | node s hresolved hfresh ih =>
    intro st
    have hchildren := children_points hfresh hresolved ih
    have horiginal : (Tree.node (asParsed ctx s)).parsed = [] := by
      have := @original_parsed ctx _ (.node s hresolved hfresh)
      rwa [resolution_node] at this
    obtain ⟨hvisited, hunvisited⟩ :=
      asParsed_parsed (fun t ht => @original_parsed ctx t (hfresh t ht))
    unfold resolveTree
    rw [resolution_node]
    unfold Resolution.run
    split
    · rename_i hfailed
      exact (Points.failed hfailed _).congr horiginal
    · rename_i hgoing
      rw [followedRefs_node]
      cases href : s.ref with
      | none =>
        simp only [resolutionNode, Schema.map_toKeywords, href]
        exact hchildren st
      | some ref =>
        cases hcomponent : ctx.component ref with
        | some i =>
          simp only [resolutionNode, Schema.map_toKeywords, href, hcomponent, Option.isSome_some, if_true]
          refine (Points.refl st).congr ((parsed_target (asParsed ctx s) _).trans ?_)
          rw [hvisited, hunvisited]
          rfl
        | none =>
          simp only [resolutionNode, Schema.map_toKeywords, href, hcomponent, Option.isSome_none,
            Bool.false_eq_true, if_false]
          have hfirst : ∀ refs, followAll ctx (ref :: refs) st =
              followAll ctx refs (followRef ctx ref st).2 := by
            intro refs
            rw [followAll, List.foldl_cons, if_neg hgoing]
            rfl
          rcases hfollow : followRef ctx ref st with ⟨_ | val, st'⟩
          · obtain ⟨hfailure, hsame⟩ := followRef_failed hfollow
            refine Points.congr ⟨?_, ?_⟩ horiginal
            · rw [hfirst, hfollow, followAll_failed hfailure]
            · rw [Walk.found, hsame, List.append_nil]
              rfl
          · have hval := followRef_resolved hfollow
            have hrest := hchildren st'
            dsimp only at hrest ⊢
            refine ⟨?_, ?_⟩
            · rw [hfirst, hfollow, hrest.left]
            · rw [hrest.found]
              have hfound : st'.found ctx = st.found ctx ++ (parsedTarget ctx val).toList := by
                unfold Walk.found
                rw [hval, List.filterMap_append]
                refine congrArg _ ?_
                cases h : parsedTarget ctx val <;> simp [h]
              have hself : ((s.map (resolution ctx)).walkVisited Resolution.run Resolution.original
                  st').1.refResolved = none := asParsed_refResolved hresolved
              rw [hfound, parsed_node, hself, List.append_assoc]
              refine congrArg _ (Eq.trans ?_ (parsed_target _ _).symm)
              cases parsedTarget ctx val <;> simp [Tree.parsed, Tree.fold]

/-- What is parsed for the references of a document is what its schemas point to. -/
theorem walkDoc_points {d : Doc (Tree Nat)} (h : ∀ t ∈ d.schemas, t.Fresh) (st : Walk) :
    let r := walkDoc (resolveTree ctx) d st
    Points ctx (d.schemas.flatMap (followedRefs ctx)) (r.1.schemas.flatMap Tree.parsed) st r.2 := by
  intro r
  have hlist := list_points (fun t ht => @resolveTree_points ctx t (h t ht)) st
  rw [list_map] at hlist
  have hwalk := walkDoc_visits (f := resolveTree ctx) d st
  have hsame : list (fun t => Resolution.run (resolution ctx t)) d.schemas st =
      (r.1.schemas, r.2) := hwalk
  rw [hsame] at hlist
  exact hlist

end Walk

/-! ## What is owned -/

section Owned

variable {ctx : ResolverCtx}

/-- What a step of the resolver leaves: a value is in the document that is parsed, or in one
that the cache owns. -/
structure Store.Lends (st : Store) (r : Except Failure JsonVal × Store) : Prop where
  owned : r.2.Owned
  grows : ∀ doc ∈ st.owned, doc ∈ r.2.owned
  returned : ∀ val, r.1 = .ok val → val.doc = .main ∨ val.doc ∈ r.2.owned

theorem Store.Lends.error {st : Store} (h : st.Owned) (rc : Failure) (errors : ErrorList) :
    st.Lends (.error rc, { st with errors := errors }) where
  owned := ⟨h.sound, h.roots, h.kept⟩
  grows _ hdoc := hdoc
  returned _ hval := by cases hval

theorem resolveOutside_lends {st : Store} (h : st.Owned) (ref : CStr) :
    st.Lends (resolveOutside ctx ref st) := by
  unfold resolveOutside
  split
  · exact Store.Lends.error h _ _
  · rename_i hcache
    have hsome : st.cache.isSome := by
      cases hnone : st.cache with
      | none => simp [hnone] at hcache
      | some _ => rfl
    have hkeeps := @Store.resolveExternalDoc_keeps st ctx.rt ctx.out h ctx.options ref
      (oasUriParse ref)
    generalize resolveExternalDoc ctx.rt ctx.out ctx.options ref (oasUriParse ref) st = r at hkeeps
    obtain ⟨howned, hgrows, -, hreturned⟩ := hkeeps
    have hleft : ∀ rc errors, st.Lends (.error rc, { r.2 with errors := errors }) :=
      fun rc errors => ⟨⟨howned.sound, howned.roots, howned.kept⟩, hgrows, by rintro _ ⟨⟩⟩
    rcases r with ⟨rc | root, st'⟩
    · exact hleft rc st'.errors
    · have hroot := hreturned root rfl hsome
      dsimp only
      split
      · refine ⟨howned, hgrows, ?_⟩
        rintro _ ⟨⟩
        exact .inr hroot
      · split
        · exact hleft _ st'.errors
        · split
          · exact hleft _ _
          · refine ⟨⟨howned.sound, howned.roots, howned.kept⟩, hgrows, ?_⟩
            rintro _ ⟨⟩
            exact .inr hroot

theorem resolveDocWithin_lends {st : Store} (h : st.Owned) (room : Nat) (visited : List CStr)
    (ref : CStr) : st.Lends (resolveDocWithin ctx room visited ref st) := by
  induction room generalizing visited ref st with
  | zero =>
    unfold resolveDocWithin
    dsimp only
    split
    · exact Store.Lends.error h _ _
    · exact Store.Lends.error h _ _
  | succ room ih =>
    unfold resolveDocWithin
    dsimp only
    split
    · exact Store.Lends.error h _ _
    · split
      · split
        · exact Store.Lends.error h _ _
        · rename_i val errors _
          have hsame : Store.Owned { st with errors := errors } := ⟨h.sound, h.roots, h.kept⟩
          split
          · have hnested := ih hsame (visited ++ [ref]) ‹_›
            exact ⟨hnested.owned, hnested.grows, hnested.returned⟩
          · refine ⟨hsame, fun _ hdoc => hdoc, ?_⟩
            rintro _ ⟨⟩
            exact .inl rfl
      · exact resolveOutside_lends h ref

theorem Store.Owned.main_not_owned {st : Store} (h : st.Owned) : .main ∉ st.owned := by
  intro hmem
  cases hcache : st.cache with
  | none =>
    rw [Store.owned, hcache] at hmem
    cases hmem
  | some cache =>
    obtain ⟨e, he, hdoc⟩ := (Store.mem_owned hcache).mp hmem
    exact (h.roots cache hcache e he).2 hdoc

/-- Every value that was resolved is in the document that is parsed, or in one that the cache
owns. -/
structure Walk.Backed (st : Walk) : Prop where
  owned : st.store.Owned
  resolved : ∀ v ∈ st.resolved, v.doc = .main ∨ v.doc ∈ st.store.owned

theorem followRef_backed {st : Walk} (h : st.Backed) (ref : CStr) : (followRef ctx ref st).2.Backed := by
  have hlends := @resolveDocWithin_lends ctx _ h.owned maxRefDepth [] ref
  have hbefore : ∀ v ∈ st.resolved, v.doc = .main ∨
      v.doc ∈ (resolveDocWithin ctx maxRefDepth [] ref st.store).2.owned :=
    fun v hv => (h.resolved v hv).imp_right (hlends.grows _)
  unfold followRef
  generalize resolveDocWithin ctx maxRefDepth [] ref st.store = r at hlends hbefore
  rcases r with ⟨rc | val, store⟩
  · exact ⟨hlends.owned, hbefore⟩
  · refine ⟨hlends.owned, ?_⟩
    intro v hv
    rcases List.mem_append.mp hv with hv | hv
    · exact hbefore v hv
    · obtain rfl := List.mem_singleton.mp hv
      exact hlends.returned v rfl

theorem followAll_backed {st : Walk} (h : st.Backed) (refs : List CStr) :
    (followAll ctx refs st).Backed := by
  unfold followAll
  induction refs generalizing st with
  | nil => exact h
  | cons ref refs ih =>
    rw [List.foldl_cons]
    apply ih
    split
    · exact h
    · exact followRef_backed h ref

theorem start_backed (errors : ErrorList)
    (h : ∀ opts, ctx.options = some opts → opts.maxDocuments < 2 ^ 31) :
    (Walk.start ctx errors).Backed where
  owned := by
    have howned := Store.create_owned
      (ctx.options.map (fun opts => if 0 < opts.maxDocuments then opts.maxDocuments else 100)) errors
    rw [Option.map_map] at howned
    apply howned
    intro n hn
    obtain ⟨opts, hopts, rfl⟩ := Option.map_eq_some_iff.mp hn
    have hbound := h opts hopts
    split <;> omega
  resolved _ hv := by cases hv

end Owned

/-! ## What is reached -/

section Reached

variable {d : Doc (Tree Pointee)}

theorem mem_below {α : Type} {s : Schema α} {a : α} : a ∈ s.below ↔ a ∈ s.visited ∨ a ∈ s.unvisited := by
  constructor
  · intro h
    exact (Schema.forall_mem_below (P := fun a => a ∈ s.visited ∨ a ∈ s.unvisited)).mpr
      ⟨fun _ => .inl, fun _ => .inr⟩ a h
  · rintro (h | h)
    · exact visited_subset h
    · exact unvisited_subset h

/-- A pointer below a pointer to what was parsed. -/
theorem parsed_children {doc : DocId} {t : SchemaTree} {b : Tree Pointee} :
    b ∈ (d.pointees (.shared (.parsed doc t))).children ↔
      ∃ c ∈ (SchemaTree.memory t).children, b = .shared (.parsed doc c) := by
  have hchildren : (d.pointees (.shared (.parsed doc t))).children =
      (SchemaTree.memory t).children.map (fun below => .shared (.parsed doc below)) :=
    Schema.children_map _ _
  rw [hchildren, List.mem_map]
  exact exists_congr fun c => and_congr_right fun _ => eq_comm

theorem reaches_parsed {doc : DocId} {t c : SchemaTree}
    (h : Reaches (fun a => (SchemaTree.memory a).children) t c) :
    Reaches (fun a => (d.pointees a).children) (.shared (.parsed doc t)) (.shared (.parsed doc c)) := by
  induction h with
  | refl => exact .refl _
  | step hmem _ ih => exact .step (parsed_children.mpr ⟨_, hmem, rfl⟩) ih

theorem mem_parsed_node {s : Schema (Tree Pointee)} {p : DocId × SchemaTree} :
    p ∈ (Tree.node s).parsed ↔ ∃ b ∈ s.children, p ∈ b.parsed := by
  simp only [parsed_node, Schema.children, List.mem_append, List.mem_flatMap, mem_below]
  constructor
  · rintro ((⟨b, hb, hp⟩ | ⟨b, hb, hp⟩) | ⟨b, hb, hp⟩)
    · exact ⟨b, .inr hb, hp⟩
    · exact ⟨b, .inl (.inl hb), hp⟩
    · exact ⟨b, .inl (.inr hb), hp⟩
  · rintro ⟨b, (hb | hb) | hb, hp⟩
    · exact .inl (.inr ⟨b, hb, hp⟩)
    · exact .inr ⟨b, hb, hp⟩
    · exact .inl (.inl ⟨b, hb, hp⟩)

/-- A tree leads to the pointers in it. -/
theorem reaches_of_parsed {a : Tree Pointee} {doc : DocId} {t : SchemaTree} (h : (doc, t) ∈ a.parsed) :
    Reaches (fun a => (d.pointees a).children) a (.shared (.parsed doc t)) := by
  induction a using Tree.induct with
  | node s ih =>
    obtain ⟨b, hb, hmem⟩ := mem_parsed_node.mp h
    exact .step hb (ih b hb hmem)
  | shared i =>
    cases i with
    | component i => cases h
    | parsed doc' t' =>
      obtain ⟨rfl, rfl⟩ := Prod.mk.inj (List.mem_singleton.mp h)
      exact .refl _

/-- What was parsed and can be reached, comes from a pointer in a tree of the document. -/
theorem parsed_of_reachable {a : Tree Pointee} (h : d.Reachable a) : ∀ p ∈ a.parsed,
    ∃ t, (p.1, t) ∈ d.schemas.flatMap Tree.parsed ∧
      Reaches (fun a => (SchemaTree.memory a).children) t p.2 := by
  obtain ⟨root, hroot, hreaches⟩ := h
  refine hreaches.induct (P := fun a => ∀ p ∈ a.parsed, ∃ t, (p.1, t) ∈ d.schemas.flatMap Tree.parsed ∧
    Reaches (fun a => (SchemaTree.memory a).children) t p.2) ?_ ?_
  · exact fun p hp => ⟨p.2, List.mem_flatMap.mpr ⟨root, hroot, hp⟩, .refl _⟩
  · intro x hx y hy p hp
    cases x with
    | node s => exact hx p (mem_parsed_node.mpr ⟨y, hy, hp⟩)
    | shared i =>
      cases i with
      | component i =>
        have hcreate : ∀ y ∈ (oasSchemaCreate : Schema (Tree Pointee)).children, p ∉ y.parsed := by
          simp [Schema.children, Schema.below, oasSchemaCreate]
        unfold Doc.pointees Tree.deref at hy
        dsimp only at hy
        split at hy
        · rename_i s hs
          have hmem := component_mem_schemas hs
          exact ⟨p.2, List.mem_flatMap.mpr ⟨_, hmem, mem_parsed_node.mpr ⟨y, hy, hp⟩⟩, .refl _⟩
        · exact absurd hp (hcreate y hy)
      | parsed doc t =>
        obtain ⟨c, hc, rfl⟩ := parsed_children.mp hy
        obtain rfl := List.mem_singleton.mp hp
        obtain ⟨t', ht', hreach⟩ := hx (doc, t) List.mem_cons_self
        exact ⟨t', ht', hreach.trans (.single hc)⟩

end Reached

end Liboas
