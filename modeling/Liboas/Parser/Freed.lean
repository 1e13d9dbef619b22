import Liboas.Parser.Lifetime

/-!
# What `oas_doc_parse_ex` frees

The schemas of the returned document are live if and only if no reference leads to a value of
an external document from which the parser keeps something.
-/

namespace Liboas

/-- The parser keeps nothing of the document, here and below. -/
abbrev Plain (t : SchemaTree) : Prop :=
  Everywhere SchemaTree.memory (fun s => s.borrows = false) t

/-- A reference of the document leads to a value of an external document, and the parser keeps
a string or a value of it. -/
def Lends (rt : Runtime) (out : Outside) (json : Bytes) (options : Option RefOptions)
    (errors : ErrorList) : Prop :=
  ∃ root d errors', readDoc rt json errors = (some (root, d), errors') ∧
    ∃ v ∈ d.targets ⟨⟨rt, root, d.componentSchemas⟩, out, options⟩ errors', v.doc ≠ .main ∧
      ∃ t, oasSchemaParse rt v.val = some t ∧ ¬ Plain t

/-- What was parsed from a document that was freed. -/
theorem ParsedDoc.not_live {r : ParsedDoc} {d : Doc (Tree Pointee)} (hd : r.doc = some d) {doc : DocId}
    {t : SchemaTree} (hmem : (doc, t) ∈ d.schemas.flatMap Tree.parsed) (hfreed : doc ∈ r.freed)
    (ht : ¬ Plain t) : ¬ r.Live := by
  intro hlive
  apply ht
  intro c hc
  by_contra hborrows
  obtain ⟨root, hroot, hp⟩ := List.mem_flatMap.mp hmem
  have hreaches := (reaches_of_parsed (d := d) hp).trans (reaches_parsed hc)
  have hlends : (d.pointees (.shared (.parsed doc c))).borrows = true := by
    rw [Bool.not_eq_false] at hborrows
    exact (Schema.borrows_map _ _).trans hborrows
  exact hlive d hd _ ⟨root, hroot, hreaches⟩ hlends hfreed

/-- Nothing that is kept was freed, when what was parsed from the freed documents is plain. -/
theorem ParsedDoc.live_of_plain {r : ParsedDoc} (hmain : ∀ d, r.doc = some d → .main ∉ r.freed)
    (hplain : ∀ d, r.doc = some d → ∀ p ∈ d.schemas.flatMap Tree.parsed, p.1 ≠ .main → Plain p.2) :
    r.Live := by
  intro d hd a ha hborrows hfreed
  have hexternal : source a ≠ .main := fun h => hmain d hd (h ▸ hfreed)
  cases a with
  | node s => exact hexternal rfl
  | shared i =>
    cases i with
    | component i => exact hexternal rfl
    | parsed doc c =>
      obtain ⟨t, ht, hc⟩ := parsed_of_reachable ha (doc, c) List.mem_cons_self
      have hnothing := hplain d hd (doc, t) ht hexternal c hc
      have hsame : (d.pointees (.shared (.parsed doc c))).borrows = (SchemaTree.memory c).borrows :=
        Schema.borrows_map _ _
      rw [hsame, hnothing] at hborrows
      cases hborrows

/-- A document whose references are resolved, and what is freed then. -/
theorem resolved_live_iff {ctx : ResolverCtx} {d : Doc (Tree Nat)} (hfresh : ∀ t ∈ d.schemas, t.Fresh)
    (errors : ErrorList) (hint : ∀ opts, ctx.options = some opts → opts.maxDocuments < 2 ^ 31) :
    let r := walkDoc (resolveTree ctx) d (.start ctx errors)
    (⟨some r.1, r.2.store.errors, r.2.store.freed ++ r.2.store.owned⟩ : ParsedDoc).Live ↔
      ∀ v ∈ d.targets ctx errors, v.doc ≠ .main →
        ∀ t, oasSchemaParse ctx.rt v.val = some t → Plain t := by
  intro r
  have hpoints := @walkDoc_points ctx d hfresh (.start ctx errors)
  have hbacked : r.2.Backed := by
    rw [hpoints.left]
    exact followAll_backed (start_backed errors hint) _
  have htargets : r.2.resolved = d.targets ctx errors := by
    rw [hpoints.left]
    rfl
  have hparsed : r.1.schemas.flatMap Tree.parsed = (d.targets ctx errors).filterMap (parsedTarget ctx) := by
    rw [← htargets]
    exact hpoints.found.symm
  have hmem : ∀ p, p ∈ r.1.schemas.flatMap Tree.parsed ↔
      ∃ v ∈ d.targets ctx errors, oasSchemaParse ctx.rt v.val = some p.2 ∧ v.doc = p.1 := by
    rintro ⟨doc, t⟩
    simp [hparsed, parsedTarget]
  constructor
  · intro hlive v hv hexternal t ht
    by_contra hlent
    have howned : v.doc ∈ r.2.store.owned :=
      (hbacked.resolved v (htargets ▸ hv)).resolve_left hexternal
    exact ParsedDoc.not_live rfl ((hmem (v.doc, t)).mpr ⟨v, hv, ht, rfl⟩)
      (List.mem_append_right _ howned) hlent hlive
  · intro hplain
    apply ParsedDoc.live_of_plain
    · rintro _ ⟨⟩ hfreed
      rcases List.mem_append.mp hfreed with hfreed | howned
      · exact hbacked.owned.kept hfreed
      · exact hbacked.owned.main_not_owned howned
    · rintro _ ⟨⟩ p hp hexternal
      obtain ⟨v, hv, ht, hdoc⟩ := (hmem p).mp hp
      exact hplain v hv (hdoc ▸ hexternal) p.2 ht

/-- The documents that the returned schemas borrow from are live, if and only if none of them
lends anything that is external. -/
theorem external_documents_live_iff (rt : Runtime) (out : Outside) (json : Bytes)
    (options : Option RefOptions) (errors : ErrorList)
    (hint : ∀ opts, options = some opts → opts.maxDocuments < 2 ^ 31) :
    (oasDocParseEx rt out json options errors).Live ↔ ¬ Lends rt out json options errors := by
  unfold oasDocParseEx Lends
  rcases hread : readDoc rt json errors with ⟨_ | ⟨root, d⟩, errors'⟩
  · simp [ParsedDoc.Live]
  · refine (resolved_live_iff (readDoc_fresh rt hread) errors' hint).trans ?_
    constructor
    · rintro h ⟨_, _, _, ⟨⟩, v, hv, hexternal, t, ht, hlent⟩
      exact hlent (h v hv hexternal t ht)
    · intro h v hv hexternal t ht
      by_contra hlent
      exact h ⟨root, d, errors', rfl, v, hv, hexternal, t, ht, hlent⟩

section Runs

/-- `{"openapi": "3.1.0", "info": {}, "components": {"schemas": {"S": {"$ref": file}}}}`. -/
def fileRefRoot (file : String) : Json := .obj
  [(ascii "openapi", .str (ascii "3.1.0")), (ascii "info", .obj []),
    (ascii "components", .obj [(ascii "schemas",
      .obj [(ascii "S", .obj [(ascii "$ref", .str (ascii file))])])])]

def fileRefText (file : String) : Bytes :=
  ascii "\x7b\"openapi\":\"3.1.0\",\"info\":\x7b\x7d,\"components\":" ++
  ascii "\x7b\"schemas\":\x7b\"S\":\x7b\"$ref\":\"" ++ ascii file ++ ascii "\"\x7d\x7d\x7d\x7d"

/-- `{"pattern": "^a$"}`. -/
def patternText : Bytes := ascii "\x7b\"pattern\":\"^a$\"\x7d"

/-- `{"minLength": 2}`. -/
def lengthText : Bytes := ascii "\x7b\"minLength\":2\x7d"

def fileRuntime : Runtime := .knowing
  [(fileRefText "p.json", fileRefRoot "p.json"), (fileRefText "l.json", fileRefRoot "l.json"),
    (patternText, .obj [(ascii "pattern", .str (ascii "^a$"))]),
    (lengthText, .obj [(ascii "minLength", .num (.uint 2))])]

/-- The two files in "/srv". -/
def twoFiles : Outside where
  getcwd := .ok (.ofString "/")
  fopen path :=
    if path = .ofString "/srv/p.json" then .opened (.ok patternText.length) (some patternText)
    else if path = .ofString "/srv/l.json" then .opened (.ok lengthText.length) (some lengthText)
    else .cannotOpen ⟨-ENOENT, ENOENT_neg⟩
  fetchHttp _ _ _ _ := .error ⟨- EIO, EIO_neg⟩
  yaml := false

/-- File references, from "/srv". -/
def fileOptions : RefOptions := { allowFile := true, baseDir := some (.ofString "/srv"), maxDocuments := 8 }

/-- Something that was parsed from a freed document borrows from it. -/
def dangles (r : ParsedDoc) : Bool :=
  match r.doc with
  | none => false
  | some d => (d.schemas.flatMap Tree.parsed).any fun p =>
      r.freed.contains p.1 && (SchemaTree.memory p.2).borrows

theorem not_live_of_dangles {r : ParsedDoc} (h : dangles r = true) : ¬ r.Live := by
  unfold dangles at h
  split at h
  · cases h
  · rename_i d hd
    obtain ⟨⟨doc, t⟩, hmem, h⟩ := List.any_eq_true.mp h
    rw [Bool.and_eq_true, List.contains_iff_mem] at h
    refine ParsedDoc.not_live hd hmem h.1 ?_
    intro hplain
    have hnothing : (SchemaTree.memory t).borrows = false := hplain t (.refl t)
    exact Bool.noConfusion (h.2.symm.trans hnothing)

theorem external_documents_live_iff_length :
    (oasDocParseEx fileRuntime twoFiles (fileRefText "l.json") (some fileOptions) none).freed =
        [.external 0] ∧
      ((oasDocParseEx fileRuntime twoFiles (fileRefText "l.json") (some fileOptions) none).Live ↔
        ¬ Lends fileRuntime twoFiles (fileRefText "l.json") (some fileOptions) none) := by
  refine ⟨by decide +kernel, external_documents_live_iff _ _ _ _ _ ?_⟩
  rintro _ ⟨⟩
  decide

/-- The pattern in the file is freed with the file, and the component schema leads to it. -/
theorem pattern_freed :
    ¬ (oasDocParseEx fileRuntime twoFiles (fileRefText "p.json") (some fileOptions) none).Live := by
  apply not_live_of_dangles
  decide +kernel

end Runs

end Liboas
