import Liboas.Parser.RefCache

/-!
# Who owns which document (`oas_ref.c`, `oas_ref_file.c`)

The external references again, with the documents that are read on the way. `yyjson_read`
makes a document, `yyjson_doc_free` ends it, and a pointer to a value knows the document that
it points into. Without the documents this is `resolveExternalRef`.
-/

namespace Liboas

/-- A `yyjson_doc *`: the document that is parsed, or an external one, by when it was read. -/
inductive DocId where
  | main
  | external (n : Nat)
  deriving DecidableEq

/-- A `yyjson_val *`. -/
structure JsonVal where
  doc : DocId
  val : Json

/-- The resolver's cache and errors, and what became of the documents. -/
structure Store where
  cache : Option (RefTable DocId JsonVal)
  errors : ErrorList
  /-- How many external documents were read. -/
  read : Nat
  /-- What `yyjson_doc_free` was called with. -/
  freed : List DocId

namespace Store

def fail (st : Store) (rc : Failure) (kind : ErrorKind) (path message : Bytes) :
    Except Failure JsonVal × Store :=
  (.error rc, { st with errors := st.errors.add kind path message })

/-- Reads a document and gives it to the cache. What the cache does not take is freed. -/
def adopt (rt : Runtime) (st : Store) (key : CStr) (data path message : Bytes) :
    Except Failure JsonVal × Store :=
  match rt.read data with
  | none => st.fail ⟨-EINVAL, EINVAL_neg⟩ .parse path message
  | some root =>
    let doc : DocId := .external st.read
    let st := { st with read := st.read + 1 }
    match st.cache with
    | none => (.ok ⟨doc, root⟩, st)
    | some cache =>
      let put := cache.oasRefCachePut key doc ⟨doc, root⟩
      let st := { st with cache := some put.cache, freed := st.freed ++ put.freed }
      if h : put.rc < 0 then (.error ⟨put.rc, h⟩, { st with freed := st.freed ++ [doc] })
      else (.ok ⟨doc, root⟩, st)

end Store

/-- Opens the file, reads it, and gives what it holds to the cache. -/
def adoptFile (rt : Runtime) (out : Outside) (path fullPath : CStr) (maxSize : Nat) (st : Store) :
    Except Failure JsonVal × Store :=
  match out.fopen fullPath with
  | .cannotOpen rc => st.fail rc .ref path.bytes (ascii "cannot open file: " ++ fullPath.bytes)
  | .opened (.error rc) _ => (.error rc, st)
  | .opened (.ok length) data =>
    if maxSize < length then
      st.fail ⟨-EFBIG, EFBIG_neg⟩ .ref path.bytes (ascii "file too large: " ++
        decimal length ++ ascii " bytes (max " ++ decimal maxSize ++ ascii ")")
    else
      match data with
      | none => (.error ⟨- EIO, EIO_neg⟩, st)
      | some data => st.adopt rt fullPath data path.bytes
          (ascii "JSON parse error in file: " ++ fullPath.bytes)

/-- `oas_ref_load_file`. -/
def loadFileDoc (rt : Runtime) (out : Outside) (path : CStr) (baseDir : Option CStr)
    (maxSize : Nat) (st : Store) : Except Failure JsonVal × Store :=
  match st.cache with
  | none => (.error ⟨-EINVAL, EINVAL_neg⟩, st)
  | some cache =>
    match buildFullPath out.getcwd path baseDir with
    | .error rc => (.error rc, st)
    | .ok fullPath =>
      if !oasUriPathIsSafe (some fullPath) then
        st.fail ⟨-EINVAL, EINVAL_neg⟩ .ref path.bytes
          (ascii "path traversal blocked: " ++ path.bytes)
      else
        match cache.oasRefCacheGet fullPath with
        | some cached => (.ok cached, st)
        | none =>
          if isYamlExtension fullPath then
            if out.yaml then (.error ⟨-ENOTSUP, ENOTSUP_neg⟩, st)
            else st.fail ⟨-ENOTSUP, ENOTSUP_neg⟩ .ref path.bytes
              (ascii "YAML support not enabled: " ++ path.bytes)
          else adoptFile rt out path fullPath (if maxSize = 0 then defaultMaxSize else maxSize) st

/-- A remote reference: the callback, or else the built-in fetcher for `http`. -/
def fetchDoc (rt : Runtime) (out : Outside) (opts : Option RefOptions) (ref : CStr) (uri : Uri)
    (st : Store) : Except Failure JsonVal × Store :=
  match opts.filter (·.allowRemote) with
  | none => st.fail ⟨-EACCES, EACCES_neg⟩ .ref ref.bytes
      (ascii "remote $ref not allowed: " ++ ref.bytes)
  | some opts =>
    let parsed (data : Bytes) := st.adopt rt (cacheKey ref) data ref.bytes
      (ascii "JSON parse error in fetched: " ++ ref.bytes)
    match opts.fetch with
    | some fetch =>
      match fetch ref with
      | .error rc => (.error rc, st)
      | .ok data => parsed data
    | none =>
      if isHttp uri then
        match out.fetchHttp ref opts.fetchTimeoutMs opts.maxFetchSize opts.maxRedirects with
        | .error rc => st.fail rc .ref ref.bytes (ascii "HTTP fetch failed: " ++ ref.bytes)
        | .ok data => parsed data
      else st.fail ⟨-ENOTSUP, ENOTSUP_neg⟩ .ref ref.bytes
        (ascii "HTTPS requires user fetch callback: " ++ ref.bytes)

/-- `resolve_external_ref`. -/
def resolveExternalDoc (rt : Runtime) (out : Outside) (opts : Option RefOptions) (ref : CStr)
    (uri : Uri) (st : Store) : Except Failure JsonVal × Store :=
  match st.cache.bind (·.oasRefCacheGet (cacheKey ref)) with
  | some cached => (.ok cached, st)
  | none =>
    if isHttp uri || isHttps uri then fetchDoc rt out opts ref uri st
    else if opts.any (!·.allowFile) then
      st.fail ⟨-EACCES, EACCES_neg⟩ .ref ref.bytes (ascii "file $ref not allowed: " ++ ref.bytes)
    else
      match uri.path.filter (!·.bytes.isEmpty) with
      | none => st.fail ⟨-EINVAL, EINVAL_neg⟩ .ref ref.bytes
          (ascii "empty file path in $ref: " ++ ref.bytes)
      | some filePath => loadFileDoc rt out filePath (opts.bind (·.baseDir))
          ((opts.map (·.maxFetchSize)).getD 0) st

/-! ## The cache owns what it returns -/

namespace Store

/-- The cache is sound, each of its roots is in the external document stored with it, and the
document that is parsed was not freed. -/
structure Owned (st : Store) : Prop where
  sound : ∀ cache, st.cache = some cache → cache.Sound
  roots : ∀ cache, st.cache = some cache → ∀ e ∈ OpenAddressing.stored cache.entries,
    e.root.doc = e.doc ∧ e.doc ≠ .main
  kept : .main ∉ st.freed

/-- The documents that the cache owns. -/
def owned (st : Store) : List DocId := (st.cache.map (·.oasRefCacheDestroy)).getD []

/-- What a step leaves: nothing that the cache owns gets lost, and what it returns is in a
document that the cache owns. -/
structure Keeps (st : Store) (r : Except Failure JsonVal × Store) : Prop where
  owned : r.2.Owned
  grows : ∀ doc ∈ st.owned, doc ∈ r.2.owned
  cached : r.2.cache.isSome = st.cache.isSome
  returned : ∀ val, r.1 = .ok val → st.cache.isSome → val.doc ∈ r.2.owned

variable {st : Store} {rt : Runtime} {out : Outside}

/-- A step that leaves the cache and the documents. -/
theorem Keeps.error (h : st.Owned) (rc : Failure) (errors : ErrorList) :
    st.Keeps (.error rc, { st with errors := errors }) where
  owned := ⟨h.sound, h.roots, h.kept⟩
  grows _ hdoc := hdoc
  cached := rfl
  returned _ hval := by cases hval

theorem mem_owned {cache : RefTable DocId JsonVal} (hcache : st.cache = some cache) {doc : DocId} :
    doc ∈ st.owned ↔ ∃ e ∈ OpenAddressing.stored cache.entries, e.doc = doc := by
  simp [Store.owned, hcache, RefTable.oasRefCacheDestroy]

/-- What is found in the cache. -/
theorem Keeps.hit (h : st.Owned) {cache : RefTable DocId JsonVal} (hcache : st.cache = some cache)
    {uri : CStr} {val : JsonVal} (hget : cache.oasRefCacheGet uri = some val) :
    st.Keeps (.ok val, st) where
  owned := h
  grows _ hdoc := hdoc
  cached := rfl
  returned := by
    rintro _ ⟨⟩ -
    obtain ⟨e, he, -, hroot⟩ := (h.sound cache hcache).get_eq_some.mp hget
    exact (mem_owned hcache).mpr ⟨e, he, by rw [← hroot, (h.roots cache hcache e he).1]⟩

/-- A put for a new key: the cache is full, or it has one entry more. -/
theorem put_new {cache : RefTable DocId JsonVal} (h : cache.Sound) {key : CStr}
    (hmiss : cache.oasRefCacheGet key = none) (doc : DocId) (root : JsonVal) :
    cache.oasRefCachePut key doc root = ⟨-ENOSPC, cache, []⟩ ∨
      ∃ cache', cache.oasRefCachePut key doc root = ⟨0, cache', []⟩ ∧ cache'.Sound ∧
        ∀ e, e ∈ OpenAddressing.stored cache'.entries ↔
          e = ⟨key, doc, root⟩ ∨ e ∈ OpenAddressing.stored cache.entries := by
  have hput := h.put key doc root
  have hresult := hput.sound h
  generalize cache.oasRefCachePut key doc root = put at hput hresult
  cases hput with
  | present hsome =>
    rw [hmiss] at hsome
    cases hsome
  | full => exact .inl rfl
  | stored hget hroom hinsert hentries =>
    obtain ⟨j, hj, hnone, hset⟩ := hentries.place
    refine .inr ⟨_, rfl, hresult, ?_⟩
    intro e
    rw [hset]
    exact OpenAddressing.mem_stored_set hj hnone

/-- A document that is read for a key that the cache does not have. -/
theorem adopt_keeps (h : st.Owned) {key : CStr}
    (hmiss : ∀ cache, st.cache = some cache → cache.oasRefCacheGet key = none)
    (data path message : Bytes) : st.Keeps (st.adopt rt key data path message) := by
  unfold adopt
  split
  · exact Keeps.error h _ _
  · rename_i root hread
    dsimp only
    split
    · rename_i hcache
      refine ⟨⟨h.sound, h.roots, h.kept⟩, fun _ hdoc => hdoc, rfl, ?_⟩
      intro _ _ hsome
      rw [hcache] at hsome
      cases hsome
    · rename_i cache hcache
      have hroots := h.roots cache hcache
      rcases put_new (h.sound cache hcache) (hmiss cache hcache) (.external st.read)
        ⟨.external st.read, root⟩ with hfull | ⟨cache', hstored, hsound, hmem⟩
      · have hneg : (-ENOSPC : Int) < 0 := by decide
        rw [hfull]
        dsimp only
        rw [dif_pos hneg]
        refine ⟨⟨?_, ?_, ?_⟩, ?_, ?_, by rintro _ ⟨⟩⟩
        · rintro _ ⟨⟩
          exact h.sound cache hcache
        · rintro _ ⟨⟩
          exact hroots
        · simpa using h.kept
        · intro doc hdoc
          rw [Store.owned, hcache] at hdoc
          exact hdoc
        · rw [hcache]
      · rw [hstored]
        dsimp only
        rw [dif_neg (by decide)]
        refine ⟨⟨?_, ?_, ?_⟩, ?_, ?_, ?_⟩
        · rintro _ ⟨⟩
          exact hsound
        · rintro _ ⟨⟩ e he
          rcases (hmem e).mp he with rfl | he
          · exact ⟨rfl, by simp⟩
          · exact hroots e he
        · simpa using h.kept
        · intro doc hdoc
          obtain ⟨e, he, rfl⟩ := (mem_owned hcache).mp hdoc
          exact (mem_owned rfl).mpr ⟨e, (hmem e).mpr (.inr he), rfl⟩
        · rw [hcache]
          rfl
        · rintro _ ⟨⟩ -
          exact (mem_owned rfl).mpr ⟨_, (hmem _).mpr (.inl rfl), rfl⟩

theorem adoptFile_keeps (h : st.Owned) {fullPath : CStr}
    (hmiss : ∀ cache, st.cache = some cache → cache.oasRefCacheGet fullPath = none)
    (path : CStr) (maxSize : Nat) : st.Keeps (adoptFile rt out path fullPath maxSize st) := by
  unfold adoptFile
  split
  · exact Keeps.error h _ _
  · exact Keeps.error h _ st.errors
  · split
    · exact Keeps.error h _ _
    · split
      · exact Keeps.error h _ st.errors
      · exact adopt_keeps h hmiss _ _ _

theorem loadFileDoc_keeps (h : st.Owned) (path : CStr) (baseDir : Option CStr) (maxSize : Nat) :
    st.Keeps (loadFileDoc rt out path baseDir maxSize st) := by
  have hleave : ∀ rc, st.Keeps (.error rc, st) := fun rc => Keeps.error h rc st.errors
  unfold loadFileDoc
  split
  · exact hleave _
  · rename_i cache hcache
    split
    · exact hleave _
    · split
      · exact Keeps.error h _ _
      · split
        · rename_i cached hget
          exact Keeps.hit h hcache hget
        · rename_i hget
          split
          · split
            · exact hleave _
            · exact Keeps.error h _ _
          · apply adoptFile_keeps h
            intro cache' hcache'
            rw [hcache] at hcache'
            cases hcache'
            exact hget

theorem fetchDoc_keeps (h : st.Owned) {ref : CStr}
    (hmiss : ∀ cache, st.cache = some cache → cache.oasRefCacheGet (cacheKey ref) = none)
    (opts : Option RefOptions) (uri : Uri) : st.Keeps (fetchDoc rt out opts ref uri st) := by
  have hleave : ∀ rc, st.Keeps (.error rc, st) := fun rc => Keeps.error h rc st.errors
  unfold fetchDoc
  split
  · exact Keeps.error h _ _
  · dsimp only
    split
    · split
      · exact hleave _
      · exact adopt_keeps h hmiss _ _ _
    · split
      · split
        · exact Keeps.error h _ _
        · exact adopt_keeps h hmiss _ _ _
      · exact Keeps.error h _ _

/-- What an external reference gives is in a document that the cache owns. -/
theorem resolveExternalDoc_keeps (h : st.Owned) (opts : Option RefOptions) (ref : CStr) (uri : Uri) :
    st.Keeps (resolveExternalDoc rt out opts ref uri st) := by
  unfold resolveExternalDoc
  split
  · rename_i cached hfound
    obtain ⟨cache, hcache, hget⟩ := Option.bind_eq_some_iff.mp hfound
    exact Keeps.hit h hcache hget
  · rename_i hfound
    have hmiss : ∀ cache, st.cache = some cache → cache.oasRefCacheGet (cacheKey ref) = none := by
      intro cache hcache
      rw [hcache] at hfound
      exact hfound
    split
    · exact fetchDoc_keeps h hmiss opts uri
    · split
      · exact Keeps.error h _ _
      · split
        · exact Keeps.error h _ _
        · exact loadFileDoc_keeps h _ _ _

/-! ## Without the documents -/

/-- The loader has the same errors, and its cache the same values under the same keys. -/
structure Forgets (st : Store) (loader : Loader) : Prop where
  errors : loader.errors = st.errors
  cached : loader.cache.isSome = st.cache.isSome
  limit : ∀ cache map, st.cache = some cache → loader.cache = some map →
    map.maxDocuments = cache.maxDocuments ∧ map.entries.length = cache.count
  same : ∀ cache map, st.cache = some cache → loader.cache = some map →
    ∀ u, oasRefCacheGet map u = (cache.oasRefCacheGet u).map (·.val)

/-- A step with the documents, and the same without them. -/
structure Agrees (r : Except Failure JsonVal × Store) (r' : Loaded) : Prop where
  result : r'.1 = r.1.map (·.val)
  left : r.2.Forgets r'.2

variable {loader : Loader}

theorem Agrees.leave (h : st.Forgets loader) (rc : Failure) : Agrees (.error rc, st) (.error rc, loader) :=
  ⟨rfl, h⟩

theorem Agrees.fail (h : st.Forgets loader) (rc : Failure) (kind : ErrorKind) (path message : Bytes) :
    Agrees (st.fail rc kind path message) (loader.fail rc kind path message) := by
  refine ⟨rfl, ?_, h.cached, h.limit, h.same⟩
  show loader.errors.add _ _ _ = st.errors.add _ _ _
  rw [h.errors]

theorem adopt_agrees (h : st.Forgets loader) (howned : st.Owned) {key : CStr}
    (hmiss : ∀ cache, st.cache = some cache → cache.oasRefCacheGet key = none)
    (data path message : Bytes) :
    Agrees (st.adopt rt key data path message) (loader.store rt key data path message) := by
  unfold adopt Loader.store
  cases rt.read data with
  | none => exact Agrees.fail h _ _ _ _
  | some root =>
    dsimp only
    cases hcache : st.cache with
    | none =>
      have hnone : loader.cache = none := by simpa [hcache] using h.cached
      rw [hnone]
      dsimp only
      refine ⟨rfl, h.errors, ?_, by simp, by simp⟩
      rw [hnone]
      rfl
    | some cache =>
      obtain ⟨map, hmap⟩ := Option.isSome_iff_exists.mp (h.cached.trans (by rw [hcache]; rfl))
      obtain ⟨hlimit, hsize⟩ := h.limit cache map hcache hmap
      have hsame := h.same cache map hcache hmap
      have hsound := howned.sound cache hcache
      have hget := hmiss cache hcache
      have hput := hsound.put key (DocId.external st.read) ⟨.external st.read, root⟩
      have hafter := hput.get hsound
      rw [hmap]
      dsimp only
      unfold oasRefCachePut
      rw [hsame key, hget, hlimit, hsize]
      generalize cache.oasRefCachePut key (DocId.external st.read) ⟨.external st.read, root⟩ = put
        at hput hafter
      cases hput with
      | present hsome =>
        rw [hget] at hsome
        cases hsome
      | full _ hfull =>
        have hneg : (-ENOSPC : Int) < 0 := by decide
        dsimp only
        rw [dif_pos hneg, if_neg (by simp), if_pos hfull]
        refine ⟨rfl, h.errors, by rw [hmap]; rfl, ?_, ?_⟩
        · rintro _ map' ⟨⟩ hmap'
          exact h.limit cache map' hcache hmap'
        · rintro _ map' ⟨⟩ hmap'
          exact h.same cache map' hcache hmap'
      | stored _ hroom hinsert hentries =>
        dsimp only
        rw [dif_neg (by decide), if_neg (by simp), if_neg (by omega)]
        refine ⟨rfl, h.errors, rfl, ?_, ?_⟩
        · rintro _ _ ⟨⟩ ⟨⟩
          simp [hsize]
        · rintro _ _ ⟨⟩ ⟨⟩ u
          rw [hafter u]
          have hold := hsame u
          unfold Liboas.oasRefCacheGet at hold ⊢
          rw [List.find?_append, Option.map_or, hold]
          by_cases hu : key = u
          · subst hu
            rw [hget]
            simp
          · simp [hu]

theorem adoptFile_agrees (h : st.Forgets loader) (howned : st.Owned) {fullPath : CStr}
    (hmiss : ∀ cache, st.cache = some cache → cache.oasRefCacheGet fullPath = none)
    (path : CStr) (maxSize : Nat) :
    Agrees (adoptFile rt out path fullPath maxSize st) (openFile rt out path fullPath maxSize loader) := by
  have hopened : st.Forgets { loader with opened := loader.opened ++ [fullPath] } :=
    ⟨h.errors, h.cached, h.limit, h.same⟩
  unfold adoptFile openFile
  cases out.fopen fullPath with
  | cannotOpen rc => exact Agrees.fail hopened _ _ _ _
  | opened length data =>
    cases length with
    | error rc => exact Agrees.leave hopened _
    | ok length =>
      dsimp only
      split
      · exact Agrees.fail hopened _ _ _ _
      · cases data with
        | none => exact Agrees.leave hopened _
        | some data => exact adopt_agrees hopened howned hmiss _ _ _

theorem loadFileDoc_agrees (h : st.Forgets loader) (howned : st.Owned) (path : CStr)
    (baseDir : Option CStr) (maxSize : Nat) :
    Agrees (loadFileDoc rt out path baseDir maxSize st)
      (oasRefLoadFile rt out path baseDir maxSize loader) := by
  unfold loadFileDoc oasRefLoadFile
  cases hcache : st.cache with
  | none =>
    have hnone : loader.cache = none := by simpa [hcache] using h.cached
    rw [hnone]
    exact Agrees.leave h _
  | some cache =>
    obtain ⟨map, hmap⟩ := Option.isSome_iff_exists.mp (h.cached.trans (by rw [hcache]; rfl))
    rw [hmap]
    dsimp only
    cases buildFullPath out.getcwd path baseDir with
    | error rc => exact Agrees.leave h _
    | ok fullPath =>
      dsimp only
      split
      · exact Agrees.fail h _ _ _ _
      · have hsame := h.same cache map hcache hmap fullPath
        cases hget : cache.oasRefCacheGet fullPath with
        | some cached =>
          rw [hget] at hsame
          rw [hsame]
          exact ⟨rfl, h⟩
        | none =>
          rw [hget] at hsame
          rw [hsame]
          dsimp only [Option.map_none]
          split
          · split
            · exact Agrees.leave h _
            · exact Agrees.fail h _ _ _ _
          · apply adoptFile_agrees h howned
            intro cache' hcache'
            rw [hcache] at hcache'
            cases hcache'
            exact hget

theorem fetchDoc_agrees (h : st.Forgets loader) (howned : st.Owned) {ref : CStr}
    (hmiss : ∀ cache, st.cache = some cache → cache.oasRefCacheGet (cacheKey ref) = none)
    (opts : Option RefOptions) (uri : Uri) :
    Agrees (fetchDoc rt out opts ref uri st) (resolveRemote rt out opts ref uri loader) := by
  unfold fetchDoc resolveRemote
  cases opts.filter (·.allowRemote) with
  | none => exact Agrees.fail h _ _ _ _
  | some opts =>
    dsimp only
    cases opts.fetch with
    | some fetch =>
      dsimp only
      cases fetch ref with
      | error rc => exact Agrees.leave h _
      | ok data => exact adopt_agrees h howned hmiss _ _ _
    | none =>
      dsimp only
      split
      · cases out.fetchHttp ref opts.fetchTimeoutMs opts.maxFetchSize opts.maxRedirects with
        | error rc => exact Agrees.fail h _ _ _ _
        | ok data => exact adopt_agrees h howned hmiss _ _ _
      · exact Agrees.fail h _ _ _ _

/-- An external reference, with and without the documents. -/
theorem resolveExternalDoc_agrees (h : st.Forgets loader) (howned : st.Owned)
    (opts : Option RefOptions) (ref : CStr) (uri : Uri) :
    Agrees (resolveExternalDoc rt out opts ref uri st)
      (resolveExternalRef rt out opts ref uri loader) := by
  have hfound : loader.cache.bind (oasRefCacheGet · (cacheKey ref)) =
      (st.cache.bind (·.oasRefCacheGet (cacheKey ref))).map (·.val) := by
    cases hcache : st.cache with
    | none =>
      have hnone : loader.cache = none := by simpa [hcache] using h.cached
      rw [hnone]
      rfl
    | some cache =>
      obtain ⟨map, hmap⟩ := Option.isSome_iff_exists.mp (h.cached.trans (by rw [hcache]; rfl))
      rw [hmap]
      exact h.same cache map hcache hmap _
  unfold resolveExternalDoc resolveExternalRef
  rw [hfound]
  cases hget : st.cache.bind (·.oasRefCacheGet (cacheKey ref)) with
  | some cached => exact ⟨rfl, h⟩
  | none =>
    have hmiss : ∀ cache, st.cache = some cache → cache.oasRefCacheGet (cacheKey ref) = none := by
      intro cache hcache
      rw [hcache] at hget
      exact hget
    dsimp only [Option.map_none]
    split
    · exact fetchDoc_agrees h howned hmiss opts uri
    · split
      · exact Agrees.fail h _ _ _ _
      · cases uri.path.filter (!·.bytes.isEmpty) with
        | none => exact Agrees.fail h _ _ _ _
        | some filePath => exact loadFileDoc_agrees h howned _ _ _

/-- A new cache, with and without documents. -/
theorem create_owned (maxDocuments : Option Int) (errors : ErrorList)
    (h : ∀ n, maxDocuments = some n → n < 2 ^ 31) :
    Owned ⟨maxDocuments.map RefTable.oasRefCacheCreate, errors, 0, []⟩ where
  sound := by
    intro cache hcache
    obtain ⟨n, hn, rfl⟩ := Option.map_eq_some_iff.mp hcache
    exact RefTable.create_sound n (h n hn)
  roots := by
    intro cache hcache e he
    obtain ⟨n, hn, rfl⟩ := Option.map_eq_some_iff.mp hcache
    simp [RefTable.oasRefCacheCreate, OpenAddressing.stored_replicate] at he
  kept := by simp

end Store

end Liboas
