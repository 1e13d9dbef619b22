import Liboas.Core.Error
import Liboas.Core.Json
import Liboas.Parser.Uri

/-!
# External references (`resolve_external_ref`, `oas_ref_file.c`, `oas_ref_cache.c`)

The files and the network are given. The resolver keeps the cache, the errors, and the
paths that it opened.
-/

namespace Liboas

def ENAMETOOLONG : Int := 36

def EACCES : Int := 13
def EIO : Int := 5
def EFBIG : Int := 27
def ENOSPC : Int := 28

theorem ENAMETOOLONG_neg : -ENAMETOOLONG < 0 := by decide
theorem EACCES_neg : -EACCES < 0 := by decide
theorem EIO_neg : - EIO < 0 := by decide
theorem EFBIG_neg : -EFBIG < 0 := by decide
theorem ENOSPC_neg : -ENOSPC < 0 := by decide

/-- `oas_ref_options_t`. -/
structure RefOptions where
  allowRemote : Bool := false
  allowFile : Bool := false
  fetch : Option (CStr → Except Failure Bytes) := none
  baseDir : Option CStr := none
  maxDocuments : Int := 0
  fetchTimeoutMs : Int := 0
  maxFetchSize : Nat := 0
  maxRedirects : Int := 0

/-! ## The cache -/

/-- `oas_ref_cache_t`: at most so many documents, by their keys. -/
structure RefCache where
  maxDocuments : Nat
  entries : List (CStr × Json)

/-- `oas_ref_cache_create`. -/
def oasRefCacheCreate (maxDocuments : Int) : RefCache :=
  ⟨if maxDocuments ≤ 0 then 100 else maxDocuments.toNat, []⟩

/-- `oas_ref_cache_get`. -/
def oasRefCacheGet (cache : RefCache) (uri : CStr) : Option Json :=
  (cache.entries.find? (fun e => e.1 == uri)).map (·.2)

/-- `oas_ref_cache_put`. -/
def oasRefCachePut (cache : RefCache) (uri : CStr) (root : Json) : Except Failure RefCache :=
  if (oasRefCacheGet cache uri).isSome then .ok cache
  else if cache.maxDocuments ≤ cache.entries.length then .error ⟨-ENOSPC, ENOSPC_neg⟩
  else .ok { cache with entries := cache.entries ++ [(uri, root)] }

/-! ## What is outside -/

/-- What opening a file gives. -/
inductive FileAnswer where
  | cannotOpen (rc : Failure)
  /-- What `ftell` says at the end, and what `fread` reads of that length. -/
  | opened (length : Except Failure Nat) (data : Option Bytes)

structure Outside where
  getcwd : Except Failure CStr
  fopen : CStr → FileAnswer
  /-- `oas_ref_fetch_http`, with its timeout, its size limit and its redirects. -/
  fetchHttp : CStr → Int → Nat → Int → Except Failure Bytes
  /-- `OAS_YAML` is defined. -/
  yaml : Bool

structure Loader where
  cache : Option RefCache
  errors : ErrorList
  /-- The paths that were given to `fopen`. -/
  opened : List CStr

/-- What a step of the resolver returns, and what it leaves. -/
abbrev Loaded := Except Failure Json × Loader

def Loader.fail (st : Loader) (rc : Failure) (kind : ErrorKind) (path message : Bytes) : Loaded :=
  (.error rc, { st with errors := st.errors.add kind path message })

/-- Parses a document and puts it in the cache. -/
def Loader.store (rt : Runtime) (st : Loader) (key : CStr) (data path message : Bytes) : Loaded :=
  match rt.read data with
  | none => st.fail ⟨-EINVAL, EINVAL_neg⟩ .parse path message
  | some root =>
    match st.cache with
    | none => (.ok root, st)
    | some cache =>
      match oasRefCachePut cache key root with
      | .error rc => (.error rc, st)
      | .ok cache => (.ok root, { st with cache := some cache })

/-! ## Files -/

/-- A directory, with a slash behind it unless it has one or is empty. -/
def asDirectory (dir : Bytes) : Bytes :=
  if !dir.isEmpty && dir.getLast? != some slash then dir ++ [slash] else dir

/-- `build_full_path`. -/
def buildFullPath (cwd : Except Failure CStr) (path : CStr) (baseDir : Option CStr) :
    Except Failure CStr :=
  if path.bytes.head? = some slash then .ok path
  else
    match baseDir with
    | some dir => .ok (.ofBytes (asDirectory dir.bytes ++ path.bytes))
    | none => cwd.map (fun dir => .ofBytes (asDirectory dir.bytes ++ path.bytes))

/-- `is_yaml_extension`. -/
def isYamlExtension (path : CStr) : Bool :=
  let extension := (path.bytes.reverse.takeWhile (· != 46)).reverse
  path.bytes.contains 46 && (extension == ascii "yaml" || extension == ascii "yml")

def defaultMaxSize : Nat := 10 * 1024 * 1024

/-- Opens the file, reads it, and puts what it holds in the cache. -/
def openFile (rt : Runtime) (out : Outside) (path fullPath : CStr) (maxSize : Nat) (st : Loader) :
    Loaded :=
  let st := { st with opened := st.opened ++ [fullPath] }
  match out.fopen fullPath with
  | .cannotOpen rc => st.fail rc .ref path.bytes (ascii "cannot open file: " ++ fullPath.bytes)
  | .opened (.error rc) _ => (.error rc, st)
  | .opened (.ok length) data =>
    if maxSize < length then
      st.fail ⟨-EFBIG, EFBIG_neg⟩ .ref path.bytes (ascii "file too large: " ++
        decimal length ++ ascii " bytes (max " ++ decimal maxSize ++ ascii ")")
    else
      match data with
      | none => (.error ⟨- EIO, EIO_neg⟩, st)
      | some data => st.store rt fullPath data path.bytes
          (ascii "JSON parse error in file: " ++ fullPath.bytes)

/-- `oas_ref_load_file`. -/
def oasRefLoadFile (rt : Runtime) (out : Outside) (path : CStr) (baseDir : Option CStr)
    (maxSize : Nat) (st : Loader) : Loaded :=
  match st.cache with
  | none => (.error ⟨-EINVAL, EINVAL_neg⟩, st)
  | some cache =>
    match buildFullPath out.getcwd path baseDir with
    | .error rc => (.error rc, st)
    | .ok fullPath =>
      if !oasUriPathIsSafe (some fullPath) then
        st.fail ⟨-EINVAL, EINVAL_neg⟩ .ref path.bytes
          (ascii "path traversal blocked: " ++ path.bytes)
      else
        match oasRefCacheGet cache fullPath with
        | some cached => (.ok cached, st)
        | none =>
          if isYamlExtension fullPath then
            if out.yaml then (.error ⟨-ENOTSUP, ENOTSUP_neg⟩, st)
            else st.fail ⟨-ENOTSUP, ENOTSUP_neg⟩ .ref path.bytes
              (ascii "YAML support not enabled: " ++ path.bytes)
          else openFile rt out path fullPath (if maxSize = 0 then defaultMaxSize else maxSize) st

/-! ## The resolver -/

/-- The reference without its fragment. -/
def cacheKey (ref : CStr) : CStr := .ofBytes (ref.bytes.takeWhile (· != 35))

def isHttp (uri : Uri) : Bool := uri.scheme == some (.ofString "http")

def isHttps (uri : Uri) : Bool := uri.scheme == some (.ofString "https")

/-- A remote reference: the callback, or else the built-in fetcher for `http`. -/
def resolveRemote (rt : Runtime) (out : Outside) (opts : Option RefOptions) (ref : CStr) (uri : Uri)
    (st : Loader) : Loaded :=
  match opts.filter (·.allowRemote) with
  | none => st.fail ⟨-EACCES, EACCES_neg⟩ .ref ref.bytes (ascii "remote $ref not allowed: " ++ ref.bytes)
  | some opts =>
    let parsed (data : Bytes) : Loaded := st.store rt (cacheKey ref) data ref.bytes
      (ascii "JSON parse error in fetched: " ++ ref.bytes)
    match opts.fetch with
    | some fetch =>
      match fetch ref with
      | .error rc => (.error rc, st)
      | .ok data => parsed data
    | none =>
      if isHttp uri then
        match out.fetchHttp ref opts.fetchTimeoutMs opts.maxFetchSize opts.maxRedirects with
        | .error rc => st.fail rc .ref ref.bytes (ascii "HTTP fetch failed: " ++ ref.bytes)
        | .ok data => parsed data
      else st.fail ⟨-ENOTSUP, ENOTSUP_neg⟩ .ref ref.bytes
        (ascii "HTTPS requires user fetch callback: " ++ ref.bytes)

/-- `resolve_external_ref`. -/
def resolveExternalRef (rt : Runtime) (out : Outside) (opts : Option RefOptions) (ref : CStr)
    (uri : Uri) (st : Loader) : Loaded :=
  match st.cache.bind (oasRefCacheGet · (cacheKey ref)) with
  | some cached => (.ok cached, st)
  | none =>
    if isHttp uri || isHttps uri then resolveRemote rt out opts ref uri st
    else if opts.any (!·.allowFile) then
      st.fail ⟨-EACCES, EACCES_neg⟩ .ref ref.bytes (ascii "file $ref not allowed: " ++ ref.bytes)
    else
      match uri.path.filter (!·.bytes.isEmpty) with
      | none => st.fail ⟨-EINVAL, EINVAL_neg⟩ .ref ref.bytes
          (ascii "empty file path in $ref: " ++ ref.bytes)
      | some filePath => oasRefLoadFile rt out filePath (opts.bind (·.baseDir))
          ((opts.map (·.maxFetchSize)).getD 0) st

/-! ## What is opened -/

section Opened

variable {rt : Runtime} {out : Outside}

@[simp] theorem fail_opened (st : Loader) (rc : Failure) (kind : ErrorKind) (path message : Bytes) :
    (st.fail rc kind path message).2.opened = st.opened := rfl

@[simp] theorem store_opened (st : Loader) (key : CStr) (data path message : Bytes) :
    (st.store rt key data path message).2.opened = st.opened := by
  unfold Loader.store
  repeat' split
  all_goals rfl

@[simp] theorem openFile_opened (path fullPath : CStr) (maxSize : Nat) (st : Loader) :
    (openFile rt out path fullPath maxSize st).2.opened = st.opened ++ [fullPath] := by
  unfold openFile
  dsimp only
  split
  · rfl
  · rfl
  · split
    · rfl
    · split
      · rfl
      · exact store_opened _ _ _ _ _

/-- A file is opened at the full path, after the scan has passed it. -/
theorem oasRefLoadFile_opens (path : CStr) (baseDir : Option CStr) (maxSize : Nat) (st : Loader) :
    (oasRefLoadFile rt out path baseDir maxSize st).2.opened = st.opened ∨
      ∃ fullPath, buildFullPath out.getcwd path baseDir = .ok fullPath ∧
        oasUriPathIsSafe (some fullPath) = true ∧
        (oasRefLoadFile rt out path baseDir maxSize st).2.opened = st.opened ++ [fullPath] := by
  unfold oasRefLoadFile
  split
  · exact .inl rfl
  · split
    · exact .inl rfl
    · rename_i fullPath hfull
      split
      · exact .inl rfl
      · rename_i hsafe
        rw [Bool.not_eq_true', Bool.not_eq_false] at hsafe
        split
        · exact .inl rfl
        · split
          · split <;> exact .inl rfl
          · exact .inr ⟨fullPath, hfull, hsafe, openFile_opened path fullPath _ st⟩

theorem resolveRemote_opened (opts : Option RefOptions) (ref : CStr) (uri : Uri) (st : Loader) :
    (resolveRemote rt out opts ref uri st).2.opened = st.opened := by
  unfold resolveRemote
  split
  · rfl
  · dsimp only
    split
    · split
      · rfl
      · exact store_opened _ _ _ _ _
    · split
      · split
        · rfl
        · exact store_opened _ _ _ _ _
      · rfl

/-- A reference opens a file only without http and https, and by its path. -/
theorem resolveExternalRef_opens (opts : Option RefOptions) (ref : CStr) (uri : Uri) (st : Loader) :
    (resolveExternalRef rt out opts ref uri st).2.opened = st.opened ∨
      ∃ path fullPath, uri.path = some path ∧ isHttp uri = false ∧ isHttps uri = false ∧
        buildFullPath out.getcwd path (opts.bind (·.baseDir)) = .ok fullPath ∧
        oasUriPathIsSafe (some fullPath) = true ∧
        (resolveExternalRef rt out opts ref uri st).2.opened = st.opened ++ [fullPath] := by
  unfold resolveExternalRef
  split
  · exact .inl rfl
  · split
    · exact .inl (resolveRemote_opened opts ref uri st)
    · rename_i hremote
      rw [Bool.or_eq_true, not_or, Bool.not_eq_true, Bool.not_eq_true] at hremote
      split
      · exact .inl rfl
      · split
        · exact .inl rfl
        · rename_i path hpath
          have huri := (Option.filter_eq_some_iff.mp hpath).1
          have hload := @oasRefLoadFile_opens rt out path (opts.bind (·.baseDir))
            ((opts.map (·.maxFetchSize)).getD 0) st
          rcases hload with h | ⟨fullPath, hfull, hsafe, h⟩
          · exact .inl h
          · exact .inr ⟨path, fullPath, huri, hremote.1, hremote.2, hfull, hsafe, h⟩

end Opened

/-! ## Containment -/

/-- The path is the directory and a relative path without "..". -/
def Under (base path : CStr) : Prop :=
  ∃ rel : Bytes, path.bytes = asDirectory base.bytes ++ rel ∧ rel.head? ≠ some slash ∧
    dotDot ∉ rel.splitOn slash

theorem mem_splitOn_asDirectory {dir rel seg : Bytes} (h : seg ∈ rel.splitOn slash) :
    seg ∈ (asDirectory dir ++ rel).splitOn slash := by
  have hcases : asDirectory dir = [] ∨ ∃ parent, asDirectory dir = parent ++ [slash] := by
    unfold asDirectory
    split
    · exact .inr ⟨dir, rfl⟩
    · rename_i hdir
      rw [Bool.and_eq_true, not_and] at hdir
      cases hlast : dir.getLast? with
      | none => exact .inl (List.getLast?_eq_none_iff.mp hlast)
      | some b =>
        obtain ⟨parent, rfl⟩ := List.getLast?_eq_some_iff.mp hlast
        have hb : b = slash := by simpa using hdir (by simp)
        exact .inr ⟨parent, by rw [hb]⟩
  rcases hcases with hnil | ⟨parent, hparent⟩
  · rw [hnil]
    exact h
  · rw [hparent, List.append_assoc, List.singleton_append, List.splitOn_append_cons_self]
    exact List.mem_append_right _ h

theorem buildFullPath_under {cwd : Except Failure CStr} {path base fullPath : CStr}
    (hrelative : path.bytes.head? ≠ some slash)
    (hfull : buildFullPath cwd path (some base) = .ok fullPath)
    (hsafe : oasUriPathIsSafe (some fullPath) = true) : Under base fullPath := by
  rw [buildFullPath, if_neg hrelative] at hfull
  cases hfull
  rw [oasUriPathIsSafe_iff] at hsafe
  have hbytes : (CStr.ofBytes (asDirectory base.bytes ++ path.bytes)).bytes =
      asDirectory base.bytes ++ path.bytes := by
    refine CStr.ofBytes_noNul ?_
    rw [List.mem_append, not_or]
    refine ⟨?_, path.noNul⟩
    unfold asDirectory
    split
    · simpa [slash] using base.noNul
    · exact base.noNul
  rw [hbytes] at hsafe
  exact ⟨path.bytes, hbytes, hrelative, fun hmem => hsafe (mem_splitOn_asDirectory hmem)⟩

/-- What a reference opens has no ".." in it. It is under the base directory where the path
of the reference is relative, which it is without a scheme and a slash at its start; without
a scheme, an absolute path is opened as it is. -/
theorem external_ref_opens (rt : Runtime) (out : Outside) (opts : RefOptions) (base ref : CStr)
    (st : Loader) :
    ∃ new, (resolveExternalRef rt out (some { opts with baseDir := some base }) ref
        (oasUriParse ref) st).2.opened = st.opened ++ new ∧
      ∀ opened ∈ new,
        dotDot ∉ opened.bytes.splitOn slash ∧
        isHttp (oasUriParse ref) = false ∧ isHttps (oasUriParse ref) = false ∧
        ∃ path, (oasUriParse ref).path = some path ∧
          (path.bytes.head? ≠ some slash → Under base opened) ∧
          ((oasUriParse ref).scheme = none → ref.bytes.head? ≠ some slash → Under base opened) ∧
          ((oasUriParse ref).scheme = none → ref.bytes.head? = some slash → opened = path) := by
  have hopens := @resolveExternalRef_opens rt out (some { opts with baseDir := some base }) ref
    (oasUriParse ref) st
  rcases hopens with h | ⟨path, fullPath, hpath, hhttp, hhttps, hfull, hsafe, h⟩
  · exact ⟨[], by simpa using h, by simp⟩
  · refine ⟨[fullPath], h, ?_⟩
    intro opened hmem
    rw [List.mem_singleton] at hmem
    subst hmem
    have hbuild : buildFullPath out.getcwd path (some base) = .ok opened := hfull
    have hunder : path.bytes.head? ≠ some slash → Under base opened :=
      fun hrelative => buildFullPath_under hrelative hbuild hsafe
    refine ⟨(oasUriPathIsSafe_iff opened).mp hsafe, hhttp, hhttps, path, hpath, hunder, ?_, ?_⟩
    · intro hscheme hhead
      exact hunder (fun habsolute => hhead ((path_head hscheme hpath).mp habsolute))
    · intro hscheme hhead
      rw [buildFullPath, if_pos ((path_head hscheme hpath).mpr hhead)] at hbuild
      cases hbuild
      rfl

/-- Nothing but files that cannot be opened. -/
def noFiles : Outside where
  getcwd := .ok (.ofString "/")
  fopen _ := .cannotOpen ⟨-ENOENT, ENOENT_neg⟩
  fetchHttp _ _ _ _ := .error ⟨- EIO, EIO_neg⟩
  yaml := false

/-- The reference "/etc/passwd" opens "/etc/passwd", and not a file under "/srv". -/
theorem absolute_ref_opens :
    (resolveExternalRef (.knowing []) noFiles (some { allowFile := true, baseDir := some (.ofString "/srv") })
      (.ofString "/etc/passwd") (oasUriParse (.ofString "/etc/passwd"))
      ⟨some (oasRefCacheCreate 100), some [], []⟩).2.opened = [.ofString "/etc/passwd"] ∧
    ¬ Under (.ofString "/srv") (.ofString "/etc/passwd") := by
  constructor
  · decide +kernel
  · rintro ⟨rel, hbytes, -, -⟩
    have htake := congrArg (List.take 2) hbytes
    have hdir : asDirectory (CStr.ofString "/srv").bytes = ascii "/srv/" := by decide
    rw [hdir, List.take_append_of_le_length (by decide)] at htake
    revert htake
    decide

end Liboas
