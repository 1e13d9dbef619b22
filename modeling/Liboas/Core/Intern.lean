import Liboas.Core.CString
import Liboas.Lib.Interning
import Mathlib.Algebra.Group.Nat.Defs

/-!
# The intern pool (`oas_intern.c`)

Strings are found through the bucket of their hash, and a string that is not there is copied
into the arena. A pointer is the number of its copy in the order of allocation.
-/

namespace Liboas

/-! ## The code -/

/-- `OAS_INTERN_DEFAULT_CAP`. -/
def oasInternDefaultCap : UInt64 := 256

/-- `oas_intern_entry_t`, without the link. -/
structure InternEntry where
  str : Nat
  len : Nat
  deriving DecidableEq

/-- `oas_intern_t`, with the copies that its arena holds. A bucket is the chain from its head. -/
structure InternPool where
  copies : List Bytes
  buckets : List (List InternEntry)
  capacity : UInt64
  count : Nat
  deriving DecidableEq

def Intern.fnv1a (data : Bytes) : UInt64 :=
  data.foldl (fun hash b => (hash ^^^ b.toUInt64) * 1099511628211) 14695981039346656037

/-- `oas_intern_create`. The arena refuses a request for no bytes and answers every other one.
The size of the buckets is a product of 64-bit words. -/
def oasInternCreate (capacity : UInt64) : Option InternPool :=
  let capacity := if capacity = 0 then oasInternDefaultCap else capacity
  let bucketsSize := 8 * capacity
  if bucketsSize = 0 then none
  else some ⟨[], List.replicate (bucketsSize.toNat / 8) [], capacity, 0⟩

/-- The bucket of a string. -/
def InternPool.idx (pool : InternPool) (str : Bytes) : Nat := (Intern.fnv1a str % pool.capacity).toNat

/-- The test of an entry: the length, then `memcmp`. -/
def InternPool.same (pool : InternPool) (str : Bytes) (e : InternEntry) : Bool :=
  e.len == str.length && (pool.copies.getD e.str []).take str.length == str

/-- `oas_intern_get`. An access outside of the buckets has no result. -/
def oasInternGet (pool : InternPool) (str : Bytes) : Option (Nat × InternPool) :=
  match pool.buckets[pool.idx str]? with
  | none => none
  | some bucket =>
    match bucket.find? (pool.same str) with
    | some e => some (e.str, pool)
    | none =>
      let copy := pool.copies.length
      some (copy, { pool with
        copies := pool.copies ++ [str ++ [0]]
        buckets := pool.buckets.set (pool.idx str) (⟨copy, str.length⟩ :: bucket)
        count := pool.count + 1 })

/-- `oas_intern_count`. -/
def oasInternCount (pool : InternPool) : Nat := pool.count

/-- One call after the other. -/
def oasInternGets (pool : InternPool) (strs : List Bytes) : Option (List Nat × InternPool) :=
  Interning.calls oasInternGet pool strs

/-! ## What is expected -/

/-- What the calls with the strings `strs` returned, and the pool they left. -/
structure Canonical (strs : List Bytes) (returned : List Nat) (pool : InternPool) : Prop where
  answered : returned.length = strs.length
  same_iff : ∀ i j : Nat, i < strs.length → j < strs.length →
    (returned[i]? = returned[j]? ↔ strs[i]? = strs[j]?)
  denotes : ∀ (i p : Nat) (str : Bytes), returned[i]? = some p → strs[i]? = some str →
    pool.copies[p]? = some (str ++ [0])
  counted : oasInternCount pool = strs.eraseDups.length

/-! ## The invariant -/

/-- The entry of a string of the table whose hash leads to the bucket `i`. -/
def InternPool.Stores (pool : InternPool) (table : List Bytes) (i : Nat) (e : InternEntry) : Prop :=
  ∃ str, table[e.str]? = some str ∧ e.len = str.length ∧ pool.idx str = i

/-- The pool holds the strings of the table, each in its bucket exactly once. -/
structure InternPool.Holds (pool : InternPool) (table : List Bytes) : Prop where
  copies_eq : pool.copies = table.map (· ++ [0])
  count_eq : pool.count = table.length
  nodup : table.Nodup
  capacity_pos : 0 < pool.capacity.toNat
  room : pool.capacity.toNat ≤ pool.buckets.length
  once : ∀ (i : Nat) (bucket : List InternEntry), pool.buckets[i]? = some bucket → bucket.Nodup
  bucket_iff : ∀ (i : Nat) (bucket : List InternEntry), pool.buckets[i]? = some bucket →
    ∀ e, e ∈ bucket ↔ pool.Stores table i e

/-- One more string has one more entry. -/
theorem stores_append (pool : InternPool) (table : List Bytes) (str : Bytes) (i : Nat)
    (e : InternEntry) :
    pool.Stores (table ++ [str]) i e ↔
      pool.Stores table i e ∨ (e = ⟨table.length, str.length⟩ ∧ pool.idx str = i) := by
  obtain ⟨p, len⟩ := e
  unfold InternPool.Stores
  dsimp only
  rcases Nat.lt_trichotomy p table.length with hlt | rfl | hgt
  · have hne : p ≠ table.length := by omega
    rw [List.getElem?_append_left hlt]
    simp [hne]
  · simp
  · have hne : p ≠ table.length := by omega
    rw [List.getElem?_eq_none (by simp; omega), List.getElem?_eq_none (by omega)]
    simp [hne]

namespace InternPool.Holds

variable {pool : InternPool} {table : List Bytes}

theorem idx_lt (h : pool.Holds table) (str : Bytes) : pool.idx str < pool.buckets.length := by
  have hlt : (Intern.fnv1a str % pool.capacity).toNat < pool.capacity.toNat := by
    rw [UInt64.toNat_mod]
    exact Nat.mod_lt _ h.capacity_pos
  exact hlt.trans_le h.room

/-- The test tells the string of an entry. -/
theorem same_iff (h : pool.Holds table) {e : InternEntry} {stored : Bytes} (str : Bytes)
    (hstored : table[e.str]? = some stored) (hlen : e.len = stored.length) :
    pool.same str e = true ↔ stored = str := by
  have hcopy : pool.copies.getD e.str [] = stored ++ [0] := by
    rw [List.getD_eq_getElem?_getD, h.copies_eq, List.getElem?_map, hstored]
    rfl
  unfold InternPool.same
  rw [hcopy, hlen, Bool.and_eq_true, beq_iff_eq, beq_iff_eq]
  constructor
  · intro ⟨heq, htake⟩
    rwa [← heq, List.take_left] at htake
  · rintro rfl
    exact ⟨rfl, List.take_left⟩

/-- An entry that is found is the one of the string. -/
theorem found (h : pool.Holds table) {str : Bytes} {bucket : List InternEntry} {e : InternEntry}
    (hbucket : pool.buckets[pool.idx str]? = some bucket)
    (hfind : bucket.find? (pool.same str) = some e) : str ∈ table ∧ e.str = table.idxOf str := by
  obtain ⟨stored, hstored, hlen, -⟩ :=
    (h.bucket_iff _ bucket hbucket e).mp (List.mem_of_find?_eq_some hfind)
  have heq := (h.same_iff str hstored hlen).mp (List.find?_some hfind)
  rw [heq] at hstored
  obtain ⟨hlt, hget⟩ := List.getElem?_eq_some_iff.mp hstored
  refine ⟨hget ▸ List.getElem_mem hlt, ?_⟩
  rw [← hget, List.Nodup.idxOf_getElem h.nodup]

/-- A string that is not found is new. -/
theorem not_found (h : pool.Holds table) {str : Bytes} {bucket : List InternEntry}
    (hbucket : pool.buckets[pool.idx str]? = some bucket)
    (hfind : bucket.find? (pool.same str) = none) : str ∉ table := by
  intro hmem
  obtain ⟨p, hlt, hget⟩ := List.getElem_of_mem hmem
  have hstored : table[p]? = some str := by rw [List.getElem?_eq_getElem hlt, hget]
  have he : (⟨p, str.length⟩ : InternEntry) ∈ bucket :=
    (h.bucket_iff _ bucket hbucket _).mpr ⟨str, hstored, rfl, rfl⟩
  have hsame := (h.same_iff (e := ⟨p, str.length⟩) str hstored rfl).mpr rfl
  exact List.find?_eq_none.mp hfind _ he hsame

/-- A new string goes to the head of its bucket. -/
theorem inserted (h : pool.Holds table) {str : Bytes} {bucket : List InternEntry}
    (hbucket : pool.buckets[pool.idx str]? = some bucket) (hnew : str ∉ table) :
    InternPool.Holds { pool with
      copies := pool.copies ++ [str ++ [0]]
      buckets := pool.buckets.set (pool.idx str) (⟨pool.copies.length, str.length⟩ :: bucket)
      count := pool.count + 1 } (table ++ [str]) := by
  have hlen : pool.copies.length = table.length := by rw [h.copies_eq, List.length_map]
  have hfresh : ∀ e ∈ bucket, e.str < table.length := by
    intro e he
    obtain ⟨stored, hstored, -⟩ := (h.bucket_iff _ bucket hbucket e).mp he
    exact (List.getElem?_eq_some_iff.mp hstored).1
  refine ⟨?_, ?_, ?_, h.capacity_pos, ?_, ?_, ?_⟩
  · rw [List.map_append, ← h.copies_eq]
    rfl
  · rw [List.length_append, List.length_singleton]
    exact congrArg (· + 1) h.count_eq
  · have hnodup := Interning.nodup_add h.nodup str
    rwa [Interning.add_of_notMem hnew] at hnodup
  · rw [List.length_set]
    exact h.room
  · intro i changed hchanged
    by_cases hi : i = pool.idx str
    · subst hi
      rw [List.getElem?_set_self (h.idx_lt str)] at hchanged
      cases hchanged
      rw [List.nodup_cons]
      refine ⟨fun he => ?_, h.once _ bucket hbucket⟩
      have := hfresh _ he
      simp only at this
      omega
    · rw [List.getElem?_set_ne (Ne.symm hi)] at hchanged
      exact h.once i changed hchanged
  · intro i changed hchanged e
    refine Iff.trans ?_ (stores_append pool table str i e).symm
    by_cases hi : i = pool.idx str
    · subst hi
      rw [List.getElem?_set_self (h.idx_lt str)] at hchanged
      cases hchanged
      rw [List.mem_cons, h.bucket_iff _ bucket hbucket e, hlen, or_comm]
      simp
    · rw [List.getElem?_set_ne (Ne.symm hi)] at hchanged
      rw [h.bucket_iff i changed hchanged e]
      simp [Ne.symm hi]

end InternPool.Holds

/-- A call returns the place of its string, and keeps the invariant. -/
theorem oasInternGet_interns : Interning.Interns oasInternGet InternPool.Holds := by
  intro pool table str h
  have hidx := h.idx_lt str
  have hbucket : pool.buckets[pool.idx str]? = some pool.buckets[pool.idx str] :=
    List.getElem?_eq_getElem hidx
  unfold oasInternGet
  rw [hbucket]
  dsimp only
  cases hfind : pool.buckets[pool.idx str].find? (pool.same str) with
  | some e =>
    obtain ⟨hmem, hplace⟩ := h.found hbucket hfind
    refine ⟨pool, ?_, by rwa [Interning.add_of_mem hmem]⟩
    rw [Interning.add_of_mem hmem, ← hplace]
  | none =>
    have hnew := h.not_found hbucket hfind
    refine ⟨_, ?_, by rw [Interning.add_of_notMem hnew]; exact h.inserted hbucket hnew⟩
    rw [Interning.add_of_notMem hnew, List.idxOf_append_of_notMem hnew, h.copies_eq,
      List.length_map]
    simp

/-! ## Runs -/

theorem bucketsSize_toNat (capacity : UInt64) :
    (8 * capacity).toNat = 8 * capacity.toNat % 2 ^ 64 := by
  rw [UInt64.toNat_mul]
  rfl

/-- A pool with as many buckets as its capacity starts empty. -/
theorem oasInternCreate_holds {capacity : UInt64} {pool : InternPool}
    (h : oasInternCreate capacity = some pool) (hcapacity : capacity.toNat < 2 ^ 61) :
    pool.Holds [] := by
  unfold oasInternCreate at h
  generalize hused : (if capacity = 0 then oasInternDefaultCap else capacity) = used at h
  have hlt : used.toNat < 2 ^ 61 := by
    rw [← hused]
    split
    · decide
    · exact hcapacity
  have hpos : 0 < used.toNat := by
    rw [← hused]
    split
    · decide
    · rename_i hne
      rcases Nat.eq_zero_or_pos capacity.toNat with h0 | h0
      · exact absurd (UInt64.toNat_inj.mp h0) hne
      · exact h0
  have hsize : (8 * used).toNat = 8 * used.toNat := by
    rw [bucketsSize_toNat]
    omega
  dsimp only at h
  split at h
  · cases h
  · cases h
    refine ⟨rfl, rfl, List.nodup_nil, hpos, ?_, ?_, ?_⟩
    · rw [List.length_replicate, hsize]
      show used.toNat ≤ _
      omega
    · intro i bucket hbucket
      rw [List.getElem?_replicate] at hbucket
      split at hbucket <;> cases hbucket
      exact List.nodup_nil
    · intro i bucket hbucket e
      rw [List.getElem?_replicate] at hbucket
      split at hbucket <;> cases hbucket
      simp [InternPool.Stores]

/-- What the numbers of an interning table say about the calls. -/
theorem canonical_of_holds {strs : List Bytes} {pool : InternPool}
    (h : pool.Holds (Interning.addAll [] strs)) :
    Canonical strs (strs.map ((Interning.addAll [] strs).idxOf ·)) pool := by
  have htable : Interning.addAll [] strs = strs.eraseDups := Interning.addAll_eq [] strs
  have hmem : ∀ str ∈ strs, str ∈ strs.eraseDups := fun str hstr => List.mem_eraseDups.mpr hstr
  rw [htable] at h ⊢
  refine ⟨List.length_map _, ?_, ?_, h.count_eq⟩
  · intro i j hi hj
    rw [List.getElem?_map, List.getElem?_map, List.getElem?_eq_getElem hi,
      List.getElem?_eq_getElem hj, Option.map_some, Option.map_some, Option.some.injEq,
      Option.some.injEq]
    exact Interning.idxOf_eq_iff (hmem _ (List.getElem_mem hi))
  · intro i p str hp hstr
    rw [List.getElem?_map, hstr, Option.map_some] at hp
    cases hp
    have hlt := List.idxOf_lt_length_of_mem (hmem str (List.mem_of_getElem? hstr))
    rw [h.copies_eq, List.getElem?_map, List.getElem?_eq_getElem hlt, List.getElem_idxOf]
    rfl

/-! ## The size of the buckets -/

theorem oasInternGets_single {pool : InternPool} {str : Bytes}
    (h : pool.buckets.length ≤ pool.idx str) : oasInternGets pool [str] = none := by
  unfold oasInternGets Interning.calls oasInternGet
  rw [List.getElem?_eq_none h]

/-- Past 2^61 the size of the buckets wraps, and some string of "oar" and "nqa" has its bucket
behind them. -/
theorem wrapped_out_of_bounds {capacity : UInt64} {pool : InternPool}
    (h : oasInternCreate capacity = some pool) (hcapacity : 2 ^ 61 ≤ capacity.toNat) :
    oasInternGets pool [ascii "oar"] = none ∨ oasInternGets pool [ascii "nqa"] = none := by
  have hoar : Intern.fnv1a (ascii "oar") = 1890299190114107949 := by decide +kernel
  have hnqa : Intern.fnv1a (ascii "nqa") = 2374996901041364179 := by decide +kernel
  have hbelow : capacity.toNat < 2 ^ 64 := capacity.toNat_lt
  have hused : (if capacity = 0 then oasInternDefaultCap else capacity) = capacity := by
    rw [if_neg]
    rintro rfl
    exact absurd hcapacity (by decide)
  have hsize : (8 * capacity).toNat / 8 = capacity.toNat % 2 ^ 61 := by
    rw [bucketsSize_toNat]
    omega
  unfold oasInternCreate at h
  dsimp only at h
  rw [hused] at h
  split at h
  · cases h
  · cases h
    by_cases hm : capacity.toNat % 2 ^ 61 ≤ 1890299190114107949
    · left
      apply oasInternGets_single
      have hhash : (1890299190114107949 : UInt64).toNat = 1890299190114107949 := rfl
      have hmod : 1890299190114107949 % capacity.toNat = 1890299190114107949 := Nat.mod_eq_of_lt (by omega)
      rw [InternPool.idx, hoar, UInt64.toNat_mod, List.length_replicate, hsize, hhash, hmod]
      exact hm
    · right
      apply oasInternGets_single
      have hhash : (2374996901041364179 : UInt64).toNat = 2374996901041364179 := rfl
      have hmod : 2374996901041364179 % capacity.toNat = 2374996901041364179 := Nat.mod_eq_of_lt (by omega)
      rw [InternPool.idx, hnqa, UInt64.toNat_mod, List.length_replicate, hsize, hhash, hmod]
      omega

/-- A pool is canonical in every run exactly where the size of its buckets does not wrap. -/
theorem oasIntern_canonical_iff (capacity : UInt64) (pool : InternPool)
    (h : oasInternCreate capacity = some pool) :
    (∀ strs, ∃ returned final, oasInternGets pool strs = some (returned, final) ∧
      Canonical strs returned final) ↔ capacity.toNat < 2 ^ 61 := by
  constructor
  · intro hall
    by_contra hcapacity
    rcases wrapped_out_of_bounds h (Nat.le_of_not_lt hcapacity) with hnone | hnone
    · obtain ⟨returned, final, hsome, -⟩ := hall [ascii "oar"]
      rw [hnone] at hsome
      cases hsome
    · obtain ⟨returned, final, hsome, -⟩ := hall [ascii "nqa"]
      rw [hnone] at hsome
      cases hsome
  · intro hcapacity strs
    obtain ⟨final, hcalls, hfinal⟩ :=
      Interning.calls_interned oasInternGet_interns (oasInternCreate_holds h hcapacity) strs
    exact ⟨_, final, hcalls, canonical_of_holds hfinal⟩

theorem oasIntern_canonical_two :
    (∀ strs, ∃ returned final, oasInternGets ⟨[], [[], []], 2, 0⟩ strs = some (returned, final) ∧
      Canonical strs returned final) ↔ (2 : UInt64).toNat < 2 ^ 61 :=
  oasIntern_canonical_iff 2 ⟨[], [[], []], 2, 0⟩ (by decide)

/-- Of 2^61 + 1 buckets one is allocated, and the empty string is not in that one. -/
theorem oasIntern_wraps :
    ∃ pool, oasInternCreate 2305843009213693953 = some pool ∧ oasInternGets pool [[]] = none :=
  ⟨⟨[], [[]], 2305843009213693953, 0⟩, by decide, by decide +kernel⟩

end Liboas
