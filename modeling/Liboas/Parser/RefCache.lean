import Mathlib.Data.Nat.Bitwise
import Liboas.Lib.OpenAddressing
import Liboas.Parser.External

/-!
# The table of the reference cache (`oas_ref_cache.c`)

Open addressing with linear probing. The resolver is modelled over `RefCache`, which is what
this table represents. An allocation never fails, and a document and its root are not null.
-/

namespace Liboas

open OpenAddressing

variable {D V : Type}

/-- An occupied `ref_cache_entry_t`. -/
structure RefCacheEntry (D V : Type) where
  uri : CStr
  doc : D
  root : V

/-- `struct oas_ref_cache`. The capacity is the length of the entries. -/
structure RefTable (D V : Type) where
  entries : List (Option (RefCacheEntry D V))
  count : Nat
  maxDocuments : Nat

def fnv1a (str : CStr) : UInt64 :=
  str.bytes.foldl (fun hash p => (hash ^^^ p.toUInt64) * 1099511628211) 14695981039346656037

def sizeMax : Nat := 2 ^ 64 - 1

/-- The loop of `next_pow2`, for at most so many rounds. -/
def nextPow2From (v : Nat) : Nat → Nat → Nat
  | 0, n => n
  | rounds + 1, n =>
    if n < v then
      if sizeMax / 2 < n then n
      else nextPow2From v rounds (n * 2)
    else n

/-- `next_pow2`. After 64 rounds the number is over `SIZE_MAX / 2`. -/
def nextPow2 (v : Nat) : Nat := nextPow2From v 64 16

/-- Where the search for a key looks in round `i`. -/
def probe (capacity : Nat) (uri : CStr) (i : Nat) : Nat :=
  (((fnv1a uri).toNat &&& (capacity - 1)) + i) &&& (capacity - 1)

namespace RefTable

def capacity (cache : RefTable D V) : Nat := cache.entries.length

def oasRefCacheCreate (maxDocuments : Int) : RefTable D V :=
  let maxDocuments := if maxDocuments ≤ 0 then 100 else maxDocuments
  ⟨List.replicate (nextPow2 (maxDocuments.toNat * 2 % 2 ^ 64)) none, 0, maxDocuments.toNat⟩

def oasRefCacheGet (cache : RefTable D V) (uri : CStr) : Option V :=
  (find RefCacheEntry.uri (probe cache.capacity) cache.entries uri cache.capacity 0).map (·.root)

/-- What `oas_ref_cache_put` returns, what it leaves, and what it frees. -/
structure PutResult (D V : Type) where
  rc : Int
  cache : RefTable D V
  freed : List D

def oasRefCachePut (cache : RefTable D V) (uri : CStr) (doc : D) (root : V) : PutResult D V :=
  if (cache.oasRefCacheGet uri).isSome then ⟨0, cache, [doc]⟩
  else if cache.maxDocuments ≤ cache.count then ⟨-ENOSPC, cache, []⟩
  else
    match insert RefCacheEntry.uri (probe cache.capacity) cache.entries ⟨uri, doc, root⟩
        cache.capacity 0 with
    | some entries => ⟨0, { cache with entries := entries, count := cache.count + 1 }, []⟩
    -- should never reach here
    | none => ⟨-ENOSPC, cache, []⟩

def oasRefCacheCount (cache : RefTable D V) : Nat := cache.count

/-- `oas_ref_cache_destroy`: the documents that it frees. -/
def oasRefCacheDestroy (cache : RefTable D V) : List D := (stored cache.entries).map (·.doc)

end RefTable

/-! ## The capacity -/

theorem nextPow2From_spec (v : Nat) (rounds m : Nat) (hle : v ≤ 2 ^ 63)
    (hreach : v ≤ 2 ^ (m + rounds)) :
    ∃ m', nextPow2From v rounds (2 ^ m) = 2 ^ m' ∧ v ≤ 2 ^ m' := by
  induction rounds generalizing m with
  | zero => exact ⟨m, rfl, hreach⟩
  | succ rounds ih =>
    unfold nextPow2From
    split
    · rename_i hlt
      split
      · -- over `SIZE_MAX / 2`, and so as large as any `v` here
        rename_i hbig
        refine ⟨m, rfl, ?_⟩
        unfold sizeMax at hbig
        omega
      · have hnext := ih (m + 1) (by rw [show m + 1 + rounds = m + (rounds + 1) by omega]; exact hreach)
        rwa [Nat.pow_succ] at hnext
    · exact ⟨m, rfl, by omega⟩

theorem nextPow2_spec {v : Nat} (hle : v ≤ 2 ^ 63) :
    ∃ m, nextPow2 v = 2 ^ m ∧ v ≤ 2 ^ m := by
  have h := nextPow2From_spec v 64 4 hle
  apply h
  calc v ≤ 2 ^ 63 := hle
    _ ≤ 2 ^ (4 + 64) := Nat.pow_le_pow_right (by omega) (by omega)

/-- The masks are remainders. -/
theorem probe_eq (m : Nat) (uri : CStr) (i : Nat) :
    probe (2 ^ m) uri i = ((fnv1a uri).toNat + i) % 2 ^ m := by
  unfold probe
  rw [Nat.and_two_pow_sub_one_eq_mod, Nat.and_two_pow_sub_one_eq_mod, Nat.mod_add_mod]

theorem probe_covers (m : Nat) : Covers (probe (2 ^ m)) (2 ^ m) := by
  constructor
  · intro uri i
    rw [probe_eq]
    exact Nat.mod_lt _ (Nat.two_pow_pos m)
  · intro uri j hj
    -- the round in which the probe has come round to `j`
    have hpos := Nat.two_pow_pos m
    refine ⟨(j + 2 ^ m - (fnv1a uri).toNat % 2 ^ m) % 2 ^ m, Nat.mod_lt _ hpos, ?_⟩
    have hlt := Nat.mod_lt (fnv1a uri).toNat hpos
    have hround : (fnv1a uri).toNat % 2 ^ m + (j + 2 ^ m - (fnv1a uri).toNat % 2 ^ m) = j + 2 ^ m := by
      omega
    rw [probe_eq, ← Nat.mod_add_mod, Nat.add_mod_mod, hround, Nat.add_mod_right, Nat.mod_eq_of_lt hj]

/-! ## The invariant -/

namespace RefTable

/-- The count is right, at most half of the table is taken, and every key is found. -/
structure Sound (cache : RefTable D V) : Prop where
  power : ∃ m, cache.capacity = 2 ^ m
  room : cache.maxDocuments < cache.capacity
  bounded : cache.count ≤ cache.maxDocuments
  counted : (stored cache.entries).length = cache.count
  reachable : Reachable RefCacheEntry.uri (probe cache.capacity) cache.entries

variable {cache : RefTable D V}

theorem Sound.covers (h : cache.Sound) : Covers (probe cache.capacity) cache.entries.length := by
  obtain ⟨m, hm⟩ := h.power
  have hlength : cache.entries.length = 2 ^ m := hm
  rw [hm, hlength]
  exact probe_covers m

theorem Sound.hasFree (h : cache.Sound) : HasFree cache.entries := by
  apply hasFree_of_lt
  rw [h.counted]
  have hroom : cache.maxDocuments < cache.entries.length := h.room
  have hbounded := h.bounded
  omega

theorem create_sound (maxDocuments : Int) (h : maxDocuments < 2 ^ 31) :
    (oasRefCacheCreate maxDocuments : RefTable D V).Sound := by
  unfold oasRefCacheCreate
  generalize hmax : (if maxDocuments ≤ 0 then 100 else maxDocuments) = max
  have hbounds : 0 < max ∧ max < 2 ^ 31 := by
    split at hmax <;> omega
  have hmod : max.toNat * 2 % 2 ^ 64 = max.toNat * 2 := by
    apply Nat.mod_eq_of_lt
    omega
  obtain ⟨m, hm, hle⟩ := @nextPow2_spec (max.toNat * 2) (by omega)
  simp only [hmod]
  constructor
  · exact ⟨m, by simp [capacity, hm]⟩
  · simp only [capacity, List.length_replicate]
    omega
  · exact Nat.zero_le _
  · simp [stored_replicate]
  · exact reachable_empty _

/-- A lookup gives the root of a stored entry. -/
theorem Sound.get_eq_some (h : cache.Sound) {uri : CStr} {root : V} :
    cache.oasRefCacheGet uri = some root ↔
      ∃ e ∈ stored cache.entries, e.uri = uri ∧ e.root = root := by
  unfold oasRefCacheGet
  rw [Option.map_eq_some_iff]
  constructor
  · rintro ⟨e, hfind, hroot⟩
    obtain ⟨huri, hstored⟩ := (find_iff h.reachable).mp hfind
    exact ⟨e, mem_stored.mpr hstored, huri, hroot⟩
  · rintro ⟨e, hmem, huri, hroot⟩
    exact ⟨e, (find_iff h.reachable).mpr ⟨huri, mem_stored.mp hmem⟩, hroot⟩

theorem Sound.get_isSome (h : cache.Sound) {uri : CStr} :
    (cache.oasRefCacheGet uri).isSome ↔ uri ∈ (stored cache.entries).map (·.uri) := by
  rw [Option.isSome_iff_exists, List.mem_map]
  constructor
  · rintro ⟨root, hget⟩
    obtain ⟨e, hmem, huri, -⟩ := h.get_eq_some.mp hget
    exact ⟨e, hmem, huri⟩
  · rintro ⟨e, hmem, huri⟩
    exact ⟨e.root, h.get_eq_some.mpr ⟨e, hmem, huri, rfl⟩⟩

theorem create_get (maxDocuments : Int)
    (h : (oasRefCacheCreate maxDocuments : RefTable D V).Sound) (u : CStr) :
    (oasRefCacheCreate maxDocuments : RefTable D V).oasRefCacheGet u = none := by
  rw [← Option.not_isSome_iff_eq_none, h.get_isSome]
  simp [oasRefCacheCreate, stored_replicate]

/-- Every probe loop ends at a free slot or at the key. -/
theorem Sound.probe_ends (h : cache.Sound) (uri : CStr) :
    ∃ i, i < cache.capacity ∧ ∀ e, look cache.entries (probe cache.capacity uri i) = some e →
      e.uri = uri := by
  obtain ⟨i, hi, hnone⟩ := meets_free h.covers h.hasFree uri
  exact ⟨i, hi, by simp [hnone]⟩

/-! ## Storing a document -/

/-- What a put does, by what is stored. -/
inductive Put (cache : RefTable D V) (uri : CStr) (doc : D) (root : V) : PutResult D V → Prop where
  | present (h : (cache.oasRefCacheGet uri).isSome) : Put cache uri doc root ⟨0, cache, [doc]⟩
  | full (h : cache.oasRefCacheGet uri = none) (hfull : cache.maxDocuments ≤ cache.count) :
      Put cache uri doc root ⟨-ENOSPC, cache, []⟩
  | stored (h : cache.oasRefCacheGet uri = none) (hroom : cache.count < cache.maxDocuments)
      {entries : List (Option (RefCacheEntry D V))}
      (hinsert : insert RefCacheEntry.uri (probe cache.capacity) cache.entries ⟨uri, doc, root⟩
        cache.capacity 0 = some entries)
      (hentries : Inserted RefCacheEntry.uri (probe cache.capacity) cache.entries ⟨uri, doc, root⟩
        entries) :
      Put cache uri doc root ⟨0, { cache with entries := entries, count := cache.count + 1 }, []⟩

theorem Sound.insert (h : cache.Sound) {uri : CStr} (doc : D) (root : V)
    (hget : cache.oasRefCacheGet uri = none) :
    ∃ entries, insert RefCacheEntry.uri (probe cache.capacity) cache.entries ⟨uri, doc, root⟩
        cache.capacity 0 = some entries ∧
      Inserted RefCacheEntry.uri (probe cache.capacity) cache.entries ⟨uri, doc, root⟩ entries := by
  apply insert_spec h.reachable h.covers h.hasFree
  intro j e hlook huri
  have hsome := h.get_isSome.mpr (List.mem_map.mpr ⟨e, mem_stored.mpr ⟨j, hlook⟩, huri⟩)
  rw [hget] at hsome
  simp at hsome

theorem Sound.put (h : cache.Sound) (uri : CStr) (doc : D) (root : V) :
    Put cache uri doc root (cache.oasRefCachePut uri doc root) := by
  unfold oasRefCachePut
  split
  · rename_i hsome
    exact .present hsome
  · rename_i hnone
    have hget : cache.oasRefCacheGet uri = none := by simpa using hnone
    split
    · rename_i hfull
      exact .full hget hfull
    · rename_i hroom
      obtain ⟨entries, hinsert, hentries⟩ := h.insert doc root hget
      rw [hinsert]
      exact .stored hget (by omega) hinsert hentries

theorem Put.sound (h : cache.Sound) {uri : CStr} {doc : D} {root : V} {result : PutResult D V}
    (hput : Put cache uri doc root result) : result.cache.Sound := by
  cases hput with
  | present | full => exact h
  | stored hget hroom hinsert hentries =>
    obtain ⟨j, hj, hnone, hset⟩ := hentries.place
    have hlength : (_ : List (Option (RefCacheEntry D V))).length = cache.entries.length :=
      hset ▸ List.length_set
    have hcapacity : ({ cache with entries := _, count := cache.count + 1 } : RefTable D V).capacity =
      cache.capacity := hlength
    constructor
    · rw [hcapacity]
      exact h.power
    · rw [hcapacity]
      exact h.room
    · exact hroom
    · rw [hset, stored_length_set hj hnone, h.counted]
    · rw [hcapacity]
      exact hentries.reachable

/-- The lookups after a put. What is already stored stays. -/
theorem Put.get (h : cache.Sound) {uri : CStr} {doc : D} {root : V} {result : PutResult D V}
    (hput : Put cache uri doc root result) (u : CStr) :
    result.cache.oasRefCacheGet u =
      (cache.oasRefCacheGet u).or (if result.rc = 0 ∧ uri = u then some root else none) := by
  have hresult := hput.sound h
  cases hput with
  | present hsome =>
    by_cases hu : uri = u
    · rw [← hu, Option.or_of_isSome hsome]
    · simp [hu]
  | full hget hfull => simp [ENOSPC]
  | stored hget hroom hinsert hentries =>
    obtain ⟨j, hj, hnone, hset⟩ := hentries.place
    ext r
    rw [hresult.get_eq_some, Option.or_eq_some_iff, h.get_eq_some]
    simp only [hset, mem_stored_set hj hnone, true_and, Option.ite_none_right_eq_some]
    constructor
    · rintro ⟨e, rfl | hmem, huri, hroot⟩
      · -- the new entry, for a key that had none
        right
        rw [← huri]
        exact ⟨hget, rfl, by rw [← hroot]⟩
      · exact .inl ⟨e, hmem, huri, hroot⟩
    · rintro (⟨e, hmem, huri, hroot⟩ | ⟨-, huri, hroot⟩)
      · exact ⟨e, .inr hmem, huri, hroot⟩
      · exact ⟨_, .inl rfl, huri, Option.some.inj hroot⟩

/-! ## Runs of calls -/

inductive Call (D V : Type) where
  | get (uri : CStr)
  | put (uri : CStr) (doc : D) (root : V)

inductive Answer (V : Type) where
  | root (root : Option V)
  | rc (rc : Int)

/-- The calls one after another: the cache that is left, and each call with its answer. -/
def run (cache : RefTable D V) : List (Call D V) → RefTable D V × List (Call D V × Answer V)
  | [] => (cache, [])
  | .get uri :: calls =>
    let (last, trace) := run cache calls
    (last, (.get uri, .root (cache.oasRefCacheGet uri)) :: trace)
  | .put uri doc root :: calls =>
    let result := cache.oasRefCachePut uri doc root
    let (last, trace) := run result.cache calls
    (last, (.put uri doc root, .rc result.rc) :: trace)

/-- The root of the first put of the key that returned 0. -/
def firstPut (u : CStr) : List (Call D V × Answer V) → Option V
  | (.put uri _ root, .rc rc) :: trace => if rc = 0 ∧ uri = u then some root else firstPut u trace
  | _ :: trace => firstPut u trace
  | [] => none

theorem run_sound (h : cache.Sound) (calls : List (Call D V)) : (run cache calls).1.Sound := by
  induction calls generalizing cache with
  | nil => exact h
  | cons call calls ih =>
    cases call with
    | get uri => exact ih h
    | put uri doc root => exact ih ((h.put uri doc root).sound h)

/-- A lookup after a run gives what was stored before it, or else the first put. -/
theorem run_get (h : cache.Sound) (calls : List (Call D V)) (u : CStr) :
    (run cache calls).1.oasRefCacheGet u =
      (cache.oasRefCacheGet u).or (firstPut u (run cache calls).2) := by
  induction calls generalizing cache with
  | nil => simp [run, firstPut]
  | cons call calls ih =>
    cases call with
    | get uri => exact ih h
    | put uri doc root =>
      have hput := h.put uri doc root
      have hrest := ih (hput.sound h)
      simp only [run, firstPut]
      rw [hrest, hput.get h u, Option.or_assoc]
      congr 1
      split <;> simp

theorem run_maxDocuments (h : cache.Sound) (calls : List (Call D V)) :
    (run cache calls).1.maxDocuments = cache.maxDocuments := by
  induction calls generalizing cache with
  | nil => rfl
  | cons call calls ih =>
    cases call with
    | get uri => exact ih h
    | put uri doc root =>
      have hput := h.put uri doc root
      have hrest := ih (hput.sound h)
      simp only [run]
      rw [hrest]
      generalize cache.oasRefCachePut uri doc root = result at hput
      cases hput <;> rfl

/-- What a put returns: 0 if the key is stored or there is room. -/
theorem Sound.put_rc (h : cache.Sound) (uri : CStr) (doc : D) (root : V) :
    let result := cache.oasRefCachePut uri doc root
    (result.rc = 0 ↔ (cache.oasRefCacheGet uri).isSome ∨ cache.oasRefCacheCount < cache.maxDocuments) ∧
      (result.rc ≠ 0 → result.rc = -ENOSPC ∧ result.cache = cache) := by
  have hput := h.put uri doc root
  generalize cache.oasRefCachePut uri doc root = result at hput
  unfold oasRefCacheCount
  cases hput with
  | present hsome => simp [hsome]
  | full hget hfull =>
    simp only [hget, ENOSPC]
    simp
    omega
  | stored hget hroom hinsert hentries => simp [hroom]

/-! ## The map that the resolver uses -/

/-- The table and the map hold the same documents, under the same limit. -/
structure Represents (cache : RefTable D Json) (map : RefCache) : Prop where
  limit : map.maxDocuments = cache.maxDocuments
  size : map.entries.length = cache.count
  same : ∀ u, Liboas.oasRefCacheGet map u = cache.oasRefCacheGet u

theorem create_represents (maxDocuments : Int) (h : maxDocuments < 2 ^ 31) :
    (oasRefCacheCreate maxDocuments : RefTable D Json).Represents
      (Liboas.oasRefCacheCreate maxDocuments) := by
  constructor
  · unfold oasRefCacheCreate Liboas.oasRefCacheCreate
    split <;> simp
  · rfl
  · intro u
    rw [create_get _ (create_sound maxDocuments h)]
    rfl

/-- A put does the same to both. -/
theorem put_represents {cache : RefTable D Json} {map : RefCache} (h : cache.Sound)
    (hsame : cache.Represents map) (uri : CStr) (doc : D) (root : Json) :
    match Liboas.oasRefCachePut map uri root with
    | .ok map' => (cache.oasRefCachePut uri doc root).rc = 0 ∧
        (cache.oasRefCachePut uri doc root).cache.Represents map'
    | .error rc => (cache.oasRefCachePut uri doc root).rc = rc.1 ∧
        (cache.oasRefCachePut uri doc root).cache = cache := by
  have hput := h.put uri doc root
  have hget := hput.get h
  generalize cache.oasRefCachePut uri doc root = result at hput hget
  unfold Liboas.oasRefCachePut
  rw [hsame.same, hsame.limit, hsame.size]
  cases hput with
  | present hsome =>
    rw [if_pos hsome]
    exact ⟨rfl, hsame⟩
  | full hnone hfull =>
    rw [hnone, if_neg (by simp), if_pos hfull]
    exact ⟨rfl, rfl⟩
  | stored hnone hroom hinsert hentries =>
    rw [hnone, if_neg (by simp), if_neg (by omega)]
    refine ⟨rfl, rfl, by simp [hsame.size], ?_⟩
    intro u
    rw [hget u, ← hsame.same u]
    unfold Liboas.oasRefCacheGet
    rw [List.find?_append, Option.map_or]
    congr 1
    by_cases hu : uri = u <;> simp [hu]

end RefTable

/-- After any calls on a fresh cache: a lookup gives the root of the first put that returned 0,
a put returns 0 if its key is stored or there is room, the count is that of the keys, and
every probe loop ends at a free slot or at its key. -/
theorem refCache_first_write_wins (maxDocuments : Int32) (calls : List (RefTable.Call D V)) :
    let fresh : RefTable D V := .oasRefCacheCreate maxDocuments.toInt
    let cache := (RefTable.run fresh calls).1
    (∀ u, cache.oasRefCacheGet u = RefTable.firstPut u (RefTable.run fresh calls).2) ∧
    (∀ u doc root, ((cache.oasRefCachePut u doc root).rc = 0 ↔
        (cache.oasRefCacheGet u).isSome ∨ cache.oasRefCacheCount < fresh.maxDocuments) ∧
      ((cache.oasRefCachePut u doc root).rc ≠ 0 →
        (cache.oasRefCachePut u doc root).rc = -ENOSPC ∧
        (cache.oasRefCachePut u doc root).cache = cache)) ∧
    (∃ uris : List CStr, uris.Nodup ∧ (∀ u, u ∈ uris ↔ (cache.oasRefCacheGet u).isSome) ∧
      cache.oasRefCacheCount = uris.length) ∧
    cache.oasRefCacheCount ≤ fresh.maxDocuments ∧
    (∀ u, ∃ i, i < cache.capacity ∧
      ∀ e, look cache.entries (probe cache.capacity u i) = some e → e.uri = u) ∧
    (∀ u doc root, cache.oasRefCacheGet u = none →
      (insert RefCacheEntry.uri (probe cache.capacity) cache.entries ⟨u, doc, root⟩
        cache.capacity 0).isSome) := by
  intro fresh cache
  have hfresh : fresh.Sound := RefTable.create_sound maxDocuments.toInt (Int32.toInt_lt maxDocuments)
  have hcache : cache.Sound := RefTable.run_sound hfresh calls
  have hmax : cache.maxDocuments = fresh.maxDocuments := RefTable.run_maxDocuments hfresh calls
  refine ⟨?_, ?_, ?_, ?_, hcache.probe_ends, ?_⟩
  · intro u
    have hget : fresh.oasRefCacheGet u = none := RefTable.create_get _ hfresh u
    have hrun := RefTable.run_get hfresh calls u
    rwa [hget, Option.none_or] at hrun
  · intro u doc root
    rw [← hmax]
    exact hcache.put_rc u doc root
  · refine ⟨(stored cache.entries).map (·.uri), stored_nodup hcache.reachable.unique, ?_, ?_⟩
    · intro u
      exact hcache.get_isSome.symm
    · rw [List.length_map]
      exact hcache.counted.symm
  · rw [← hmax]
    exact hcache.bounded
  · intro u doc root hget
    obtain ⟨entries, hinsert, -⟩ := hcache.insert doc root hget
    rw [hinsert]
    rfl

end Liboas
