import Mathlib.Data.List.Pairwise
import Mathlib.Data.UInt
import Mathlib.Order.CompletePartialOrder
import Mathlib.Order.Interval.Set.Disjoint
import Liboas.Lib.AlignUp

/-!
# The arena (`oas_alloc.c`)

Sizes and addresses are 64-bit words, and sums wrap. What `malloc` answers is given with each
call.
-/

namespace Liboas

open Aligning

/-- `oas_arena_block_t`, with the address of its `data`. -/
structure ArenaBlock where
  data : UInt64
  capacity : UInt64
  used : UInt64
  deriving DecidableEq

/-- The blocks of `struct oas_arena` from the head to the last, around the current one. -/
structure Arena where
  before : List ArenaBlock
  current : ArenaBlock
  after : List ArenaBlock
  blockSize : UInt64
  totalAllocated : UInt64
  deriving DecidableEq

def Arena.blocks (arena : Arena) : List ArenaBlock := arena.before ++ arena.current :: arena.after

/-- What `malloc` answers to a size: null, or an address. -/
abbrev Malloc := UInt64 → Option UInt64

def arenaDefaultBlock : UInt64 := 64 * 1024

/-- `sizeof(oas_arena_block_t)`: three words, and `data` is at the next multiple of 16. -/
def blockHeader : UInt64 := 32

def arenaBlockCreate (malloc : Malloc) (capacity : UInt64) : Option ArenaBlock :=
  (malloc (blockHeader + capacity)).map fun address => ⟨address + blockHeader, capacity, 0⟩

def oasArenaCreate (malloc : Malloc) (blockSize : UInt64) : Option Arena :=
  let blockSize := if blockSize = 0 then arenaDefaultBlock else blockSize
  (arenaBlockCreate malloc blockSize).map fun block => ⟨[], block, [], blockSize, 0⟩

def alignUp (offset align : UInt64) : UInt64 := (offset + align - 1) &&& ~~~(align - 1)

def ArenaBlock.alignedOffset (block : ArenaBlock) (align : UInt64) : UInt64 :=
  alignUp (block.data + block.used) align - block.data

/-- The test that a block has room. -/
def ArenaBlock.hasRoom (block : ArenaBlock) (size align : UInt64) : Bool :=
  block.alignedOffset align + size ≤ block.capacity

/-- The block with the bytes taken, and where they start. -/
def ArenaBlock.take (block : ArenaBlock) (size align : UInt64) : ArenaBlock × UInt64 :=
  ({ block with used := block.alignedOffset align + size }, block.data + block.alignedOffset align)

/-- A request for bytes, with an alignment that is a power of two. -/
def validRequest (size align : UInt64) : Bool :=
  !(size == 0 || align == 0) && align &&& (align - 1) == 0

/-- The capacity of the block for a request that does not fit. -/
def newCapacity (blockSize size align : UInt64) : UInt64 :=
  if size + align > blockSize then size + align else blockSize

def oasArenaAlloc (malloc : Malloc) (arena : Arena) (size align : UInt64) :
    Option UInt64 × Arena :=
  if !validRequest size align then (none, arena)
  else if arena.current.hasRoom size align then
    let (block, p) := arena.current.take size align
    (some p, { arena with current := block, totalAllocated := arena.totalAllocated + size })
  else
    match arenaBlockCreate malloc (newCapacity arena.blockSize size align) with
    | none => (none, arena)
    | some newBlock =>
      -- the new block stands after the current one, and before those that follow it
      let (block, p) := newBlock.take size align
      (some p, { arena with
        before := arena.before ++ [arena.current], current := block
        totalAllocated := arena.totalAllocated + size })

def ArenaBlock.clear (block : ArenaBlock) : ArenaBlock := { block with used := 0 }

/-- `arena->head`, and the blocks that follow it. -/
def Arena.headRest (arena : Arena) : ArenaBlock × List ArenaBlock :=
  match arena.before with
  | [] => (arena.current, arena.after)
  | head :: rest => (head, rest ++ arena.current :: arena.after)

def oasArenaReset (arena : Arena) : Arena :=
  let (head, rest) := arena.headRest
  { arena with
    before := [], current := head.clear, after := rest.map ArenaBlock.clear, totalAllocated := 0 }

def oasArenaUsed (arena : Arena) : UInt64 := arena.totalAllocated

/-! ## Calls -/

inductive ArenaCall where
  | alloc (size align : UInt64) (malloc : Malloc)
  | reset

/-- A range that was handed out, and the alignment that was asked for. -/
structure Given where
  start : UInt64
  size : UInt64
  align : UInt64
  deriving DecidableEq

/-- An arena, and the ranges that were handed out since the last reset. -/
structure ArenaRun where
  arena : Arena
  given : List Given
  deriving DecidableEq

def ArenaRun.step (s : ArenaRun) : ArenaCall → ArenaRun
  | .alloc size align malloc =>
    let (p, arena) := oasArenaAlloc malloc s.arena size align
    ⟨arena, (p.map (⟨·, size, align⟩)).toList ++ s.given⟩
  | .reset => ⟨oasArenaReset s.arena, []⟩

def ArenaRun.run (s : ArenaRun) (calls : List ArenaCall) : ArenaRun := calls.foldl ArenaRun.step s

/-- Something is true of every step of a run. -/
def ArenaRun.Along (P : ArenaRun → ArenaCall → Prop) (s : ArenaRun) : List ArenaCall → Prop
  | [] => True
  | call :: calls => P s call ∧ Along P (s.step call) calls

/-! ## What is expected -/

def Given.span (r : Given) : Set Nat := Set.Ico r.start.toNat (r.start.toNat + r.size.toNat)

/-- The capacity of a block. -/
def ArenaBlock.span (block : ArenaBlock) : Set Nat :=
  Set.Ico block.data.toNat (block.data.toNat + block.capacity.toNat)

structure ArenaRun.Safe (s : ArenaRun) : Prop where
  aligned : ∀ r ∈ s.given, r.align.toNat ∣ r.start.toNat
  inBounds : ∀ r ∈ s.given, ∃ block ∈ s.arena.blocks, r.span ⊆ block.span
  disjoint : s.given.Pairwise (fun r r' => Disjoint r.span r'.span)

/-- The memory of a block, its header included. -/
def ArenaBlock.extent (block : ArenaBlock) : Set Nat :=
  Set.Ico (block.data.toNat - 32) (block.data.toNat + block.capacity.toNat)

/-- `malloc` gives memory of the size that is asked for, apart from the memory of the blocks. -/
def MallocOk (blocks : List ArenaBlock) (malloc : Malloc) : Prop :=
  ∀ size address, malloc size = some address →
    address.toNat + size.toNat ≤ 2 ^ 64 ∧
    ∀ block ∈ blocks, Disjoint (Set.Ico address.toNat (address.toNat + size.toNat)) block.extent

def MallocsOk (s : ArenaRun) : ArenaCall → Prop
  | .alloc _ _ malloc => MallocOk s.arena.blocks malloc
  | .reset => True

/-- No sum that the step goes by wraps: the one that passes the test for room, or, where a
new block is made, the size with the alignment, and the capacity with the header. -/
def NoWrap (s : ArenaRun) : ArenaCall → Prop
  | .alloc size align malloc =>
    validRequest size align = true →
      if s.arena.current.hasRoom size align then
        (s.arena.current.alignedOffset align).toNat + size.toNat < 2 ^ 64
      else
        malloc (blockHeader + newCapacity s.arena.blockSize size align) = none ∨
          size.toNat + align.toNat < 2 ^ 64 ∧ 32 + (newCapacity s.arena.blockSize size align).toNat < 2 ^ 64
  | .reset => True

instance (s : ArenaRun) (call : ArenaCall) : Decidable (NoWrap s call) :=
  match call with
  | .alloc size align malloc => inferInstanceAs (Decidable
      (validRequest size align = true →
        if s.arena.current.hasRoom size align then
          (s.arena.current.alignedOffset align).toNat + size.toNat < 2 ^ 64
        else
          malloc (blockHeader + newCapacity s.arena.blockSize size align) = none ∨
            size.toNat + align.toNat < 2 ^ 64 ∧
              32 + (newCapacity s.arena.blockSize size align).toNat < 2 ^ 64))
  | .reset => .isTrue trivial

/-! ## One block -/

theorem validRequest_spec {size align : UInt64} (h : validRequest size align = true) :
    0 < size.toNat ∧ ∃ k, k < 64 ∧ align.toNat = 2 ^ k := by
  unfold validRequest at h
  simp only [Bool.and_eq_true, Bool.not_eq_true', Bool.or_eq_false_iff, beq_eq_false_iff_ne,
    beq_iff_eq] at h
  obtain ⟨⟨hsize, halign⟩, hand⟩ := h
  have hzero : ∀ x : UInt64, x ≠ 0 → x.toNat ≠ 0 :=
    fun x hx h0 => hx (UInt64.toNat_inj.mp (by simpa using h0))
  refine ⟨Nat.pos_of_ne_zero (hzero _ hsize), ?_⟩
  have hpos := Nat.pos_of_ne_zero (hzero _ halign)
  have hone : (align - 1).toNat = align.toNat - 1 := by
    rw [UInt64.toNat_sub_of_le]
    · rfl
    · rw [UInt64.le_iff_toNat_le]
      exact hpos
  have hnat := congrArg UInt64.toNat hand
  rw [UInt64.toNat_and, hone] at hnat
  obtain ⟨k, hk⟩ := (Nat.and_sub_one_eq_zero_iff_isPowerOfTwo (hzero _ halign)).mp hnat
  refine ⟨k, ?_, hk⟩
  have hlt := align.toNat_lt
  rw [hk] at hlt
  exact (Nat.pow_lt_pow_iff_right (by omega)).mp hlt

/-- A block lies in the address space behind its header. -/
structure ArenaBlock.Ok (block : ArenaBlock) : Prop where
  header : 32 ≤ block.data.toNat
  end_le : block.data.toNat + block.capacity.toNat ≤ 2 ^ 64
  used_le : block.used.toNat ≤ block.capacity.toNat

variable {block : ArenaBlock} {size align : UInt64} {k : Nat}

/-- The aligned offset leads to the next multiple of the alignment. -/
theorem ArenaBlock.Ok.alignedOffset (h : block.Ok) (hk : k < 64) (halign : align.toNat = 2 ^ k) :
    block.data.toNat + (block.alignedOffset align).toNat =
      nextMultiple (block.data.toNat + block.used.toNat) (2 ^ k) := by
  obtain ⟨hheader, hend, hused⟩ := h
  have hup : (alignUp (block.data + block.used) align).toNat =
      nextMultiple (block.data.toNat + block.used.toNat) (2 ^ k) % 2 ^ 64 :=
    alignUp_toNat (w := 64) (UInt64.toNat_add _ _) hk halign
  have hpos := Nat.two_pow_pos k
  have hle := le_nextMultiple (block.data.toNat + block.used.toNat) hpos
  have hbound : nextMultiple (block.data.toNat + block.used.toNat) (2 ^ k) ≤ 2 ^ 64 :=
    nextMultiple_le hpos (Nat.pow_dvd_pow 2 (by omega)) (by omega)
  unfold ArenaBlock.alignedOffset
  rw [UInt64.toNat_sub, hup]
  omega

/-- What taking bytes does, where they fit. -/
structure ArenaBlock.Taken (block : ArenaBlock) (size align : UInt64) (block' : ArenaBlock)
    (p : UInt64) : Prop where
  ok : block'.Ok
  data_eq : block'.data = block.data
  capacity_eq : block'.capacity = block.capacity
  aligned : align.toNat ∣ p.toNat
  start : block.data.toNat + block.used.toNat ≤ p.toNat
  stop : p.toNat + size.toNat = block'.data.toNat + block'.used.toNat

theorem ArenaBlock.Ok.take (h : block.Ok) (hvalid : validRequest size align = true)
    (hfits : (block.alignedOffset align).toNat + size.toNat ≤ block.capacity.toNat) :
    block.Taken size align (block.take size align).1 (block.take size align).2 := by
  obtain ⟨hsize, k, hk, halign⟩ := validRequest_spec hvalid
  have hoffset := h.alignedOffset hk halign
  have hle := le_nextMultiple (block.data.toNat + block.used.toNat) (Nat.two_pow_pos k)
  have hdvd := dvd_nextMultiple (block.data.toNat + block.used.toNat) (2 ^ k)
  obtain ⟨hheader, hend, hused⟩ := h
  have hcapacity := block.capacity.toNat_lt
  have hnew : (block.alignedOffset align + size).toNat =
      (block.alignedOffset align).toNat + size.toNat := by
    rw [UInt64.toNat_add, Nat.mod_eq_of_lt (by omega)]
  have hp : (block.data + block.alignedOffset align).toNat =
      block.data.toNat + (block.alignedOffset align).toNat := by
    rw [UInt64.toNat_add, Nat.mod_eq_of_lt (by omega)]
  constructor
  · constructor
    · exact hheader
    · exact hend
    · show (block.alignedOffset align + size).toNat ≤ block.capacity.toNat
      omega
  · rfl
  · rfl
  · show align.toNat ∣ (block.data + block.alignedOffset align).toNat
    rw [hp, hoffset, halign]
    exact hdvd
  · show _ ≤ (block.data + block.alignedOffset align).toNat
    omega
  · show (block.data + block.alignedOffset align).toNat + size.toNat =
      block.data.toNat + (block.alignedOffset align + size).toNat
    omega

/-- What `malloc` gives for a block is apart from the other blocks. -/
theorem arenaBlockCreate_spec {malloc : Malloc} {blocks : List ArenaBlock} {capacity : UInt64}
    (hmalloc : MallocOk blocks malloc) (hpos : 0 < capacity.toNat)
    (hwrap : 32 + capacity.toNat < 2 ^ 64) (hcreate : arenaBlockCreate malloc capacity = some block) :
    block.Ok ∧ block.used = 0 ∧ block.capacity = capacity ∧
      ∀ other ∈ blocks, Disjoint block.extent other.extent := by
  unfold arenaBlockCreate at hcreate
  obtain ⟨address, hanswer, rfl⟩ := Option.map_eq_some_iff.mp hcreate
  obtain ⟨hspace, hapart⟩ := hmalloc _ _ hanswer
  have hsum : (blockHeader + capacity).toNat = 32 + capacity.toNat := by
    rw [UInt64.toNat_add]
    exact Nat.mod_eq_of_lt hwrap
  rw [hsum] at hspace hapart
  have hdata : (address + blockHeader).toNat = address.toNat + 32 := by
    rw [UInt64.toNat_add]
    apply Nat.mod_eq_of_lt
    show address.toNat + 32 < 2 ^ 64
    omega
  refine ⟨⟨?_, ?_, ?_⟩, rfl, rfl, ?_⟩
  · show 32 ≤ (address + blockHeader).toNat
    omega
  · show (address + blockHeader).toNat + capacity.toNat ≤ 2 ^ 64
    omega
  · exact Nat.zero_le _
  · intro other hmem
    have hdisjoint := hapart other hmem
    unfold ArenaBlock.extent at hdisjoint ⊢
    rw [hdata, Nat.add_sub_cancel, Nat.add_assoc]
    exact hdisjoint

/-! ## The invariant -/

/-- A range is among the bytes that a block has given. -/
structure ArenaBlock.Gave (block : ArenaBlock) (r : Given) : Prop where
  start : block.data.toNat ≤ r.start.toNat
  stop : r.start.toNat + r.size.toNat ≤ block.data.toNat + block.used.toNat

structure ArenaRun.Sound (s : ArenaRun) : Prop where
  ok : ∀ block ∈ s.arena.blocks, block.Ok
  apart : s.arena.blocks.Pairwise (fun block other => Disjoint block.extent other.extent)
  gave : ∀ r ∈ s.given, ∃ block ∈ s.arena.blocks, block.Gave r
  aligned : ∀ r ∈ s.given, r.align.toNat ∣ r.start.toNat
  disjoint : s.given.Pairwise (fun r r' => Disjoint r.span r'.span)

variable {s : ArenaRun}

theorem disjoint_Ico_of_le {a b c d : Nat} (h : b ≤ c) : Disjoint (Set.Ico a b) (Set.Ico c d) := by
  rw [Set.Ico_disjoint_Ico]
  omega

theorem ArenaBlock.Gave.span_subset_extent (h : block.Ok) {r : Given} (hgave : block.Gave r) :
    r.span ⊆ block.extent := by
  obtain ⟨hstart, hstop⟩ := hgave
  have hused := h.used_le
  apply Set.Ico_subset_Ico <;> omega

theorem ArenaRun.Sound.safe (h : s.Sound) : s.Safe := by
  refine ⟨h.aligned, ?_, h.disjoint⟩
  intro r hr
  obtain ⟨block, hblock, hstart, hstop⟩ := h.gave r hr
  have hused := (h.ok block hblock).used_le
  refine ⟨block, hblock, ?_⟩
  apply Set.Ico_subset_Ico <;> omega

/-- The extents of the blocks, for what changes only their contents. -/
theorem pairwise_extent {blocks blocks' : List ArenaBlock}
    (hextents : blocks'.map ArenaBlock.extent = blocks.map ArenaBlock.extent)
    (h : blocks.Pairwise (fun block other => Disjoint block.extent other.extent)) :
    blocks'.Pairwise (fun block other => Disjoint block.extent other.extent) := by
  have hmap : (blocks.map ArenaBlock.extent).Pairwise Disjoint := List.pairwise_map.mpr h
  rw [← hextents] at hmap
  exact List.pairwise_map.mp hmap

theorem Arena.mem_blocks {arena : Arena} :
    block ∈ arena.blocks ↔ block ∈ arena.before ∨ block = arena.current ∨ block ∈ arena.after := by
  unfold Arena.blocks
  rw [List.mem_append, List.mem_cons]

/-- The other blocks are apart from the current one. -/
theorem ArenaRun.Sound.apart_current (h : s.Sound)
    (hblock : block ∈ s.arena.before ∨ block ∈ s.arena.after) :
    Disjoint s.arena.current.extent block.extent := by
  have hapart := h.apart
  unfold Arena.blocks at hapart
  rw [List.pairwise_append, List.pairwise_cons] at hapart
  obtain ⟨-, ⟨hafter, -⟩, hbefore⟩ := hapart
  rcases hblock with hmem | hmem
  · exact (hbefore block hmem s.arena.current (List.mem_cons_self)).symm
  · exact hafter block hmem

/-- Bytes are taken from the current block: `block'` is what is left, and `p` what is given. -/
theorem ArenaRun.Sound.bump (h : s.Sound) {block' : ArenaBlock} {p total : UInt64}
    (htaken : s.arena.current.Taken size align block' p) :
    (⟨{ s.arena with current := block', totalAllocated := total }, ⟨p, size, align⟩ :: s.given⟩ :
      ArenaRun).Sound := by
  obtain ⟨hok, hdata, hcapacity, haligned, hstart, hstop⟩ := htaken
  have hextent : block'.extent = s.arena.current.extent := by
    unfold ArenaBlock.extent
    rw [hdata, hcapacity]
  have hnew : block'.Gave ⟨p, size, align⟩ := by
    rw [← hdata] at hstart
    exact ⟨by show _ ≤ p.toNat; omega, le_of_eq hstop⟩
  constructor
  · intro block hmem
    rcases Arena.mem_blocks.mp hmem with hbefore | rfl | hafter
    · exact h.ok block (Arena.mem_blocks.mpr (.inl hbefore))
    · exact hok
    · exact h.ok block (Arena.mem_blocks.mpr (.inr (.inr hafter)))
  · apply pairwise_extent _ h.apart
    unfold Arena.blocks
    simp [hextent]
  · intro r hr
    rcases List.mem_cons.mp hr with rfl | hr
    · exact ⟨block', Arena.mem_blocks.mpr (.inr (.inl rfl)), hnew⟩
    · obtain ⟨block, hmem, hgave⟩ := h.gave r hr
      rcases Arena.mem_blocks.mp hmem with hbefore | rfl | hafter
      · exact ⟨block, Arena.mem_blocks.mpr (.inl hbefore), hgave⟩
      · -- the current block has given it before
        refine ⟨block', Arena.mem_blocks.mpr (.inr (.inl rfl)), ?_, ?_⟩
        · rw [hdata]
          exact hgave.start
        · have hbelow := hgave.stop
          omega
      · exact ⟨block, Arena.mem_blocks.mpr (.inr (.inr hafter)), hgave⟩
  · intro r hr
    rcases List.mem_cons.mp hr with rfl | hr
    · exact haligned
    · exact h.aligned r hr
  · rw [List.pairwise_cons]
    refine ⟨?_, h.disjoint⟩
    intro r hr
    obtain ⟨block, hmem, hgave⟩ := h.gave r hr
    have hinside := hgave.span_subset_extent (h.ok block hmem)
    have hnewInside := hnew.span_subset_extent hok
    rw [hextent] at hnewInside
    rcases Arena.mem_blocks.mp hmem with hbefore | rfl | hafter
    · exact (h.apart_current (.inl hbefore)).mono hnewInside hinside
    · -- the bytes that the current block gave before are below the new ones
      have hbelow := hgave.stop
      exact (disjoint_Ico_of_le (by show _ ≤ p.toNat; omega)).symm
    · exact (h.apart_current (.inr hafter)).mono hnewInside hinside

/-- A new block becomes the current one. -/
theorem ArenaRun.Sound.grow (h : s.Sound) {newBlock : ArenaBlock} (hok : newBlock.Ok)
    (hapart : ∀ other ∈ s.arena.blocks, Disjoint newBlock.extent other.extent) :
    (⟨{ s.arena with before := s.arena.before ++ [s.arena.current], current := newBlock }, s.given⟩ :
      ArenaRun).Sound := by
  have hperm : ((s.arena.before ++ [s.arena.current]) ++ newBlock :: s.arena.after).Perm
      (newBlock :: s.arena.blocks) := by
    apply List.perm_middle.trans
    unfold Arena.blocks
    simp
  constructor
  · intro block hmem
    rcases List.mem_cons.mp (hperm.mem_iff.mp hmem) with rfl | hmem
    · exact hok
    · exact h.ok block hmem
  · refine (hperm.pairwise_iff ?_).mpr (List.pairwise_cons.mpr ⟨hapart, h.apart⟩)
    exact fun hdisjoint => hdisjoint.symm
  · intro r hr
    obtain ⟨block, hmem, hgave⟩ := h.gave r hr
    exact ⟨block, hperm.mem_iff.mpr (List.mem_cons_of_mem _ hmem), hgave⟩
  · exact h.aligned
  · exact h.disjoint

theorem reset_blocks (arena : Arena) :
    (oasArenaReset arena).blocks = arena.blocks.map ArenaBlock.clear := by
  unfold oasArenaReset Arena.headRest Arena.blocks
  cases arena.before <;> simp

theorem ArenaRun.Sound.reset (h : s.Sound) : (s.step .reset).Sound := by
  constructor
  · intro block hmem
    obtain ⟨old, hold, rfl⟩ := List.mem_map.mp (reset_blocks s.arena ▸ hmem)
    obtain ⟨hheader, hend, -⟩ := h.ok old hold
    exact ⟨hheader, hend, Nat.zero_le _⟩
  · apply pairwise_extent _ h.apart
    show (oasArenaReset s.arena).blocks.map _ = _
    rw [reset_blocks, List.map_map]
    rfl
  · intro r hr
    simp [ArenaRun.step] at hr
  · intro r hr
    simp [ArenaRun.step] at hr
  · exact List.Pairwise.nil

theorem le_newCapacity (blockSize : UInt64) (hwrap : size.toNat + align.toNat < 2 ^ 64) :
    size.toNat + align.toNat ≤ (newCapacity blockSize size align).toNat := by
  have hsum : (size + align).toNat = size.toNat + align.toNat := by
    rw [UInt64.toNat_add, Nat.mod_eq_of_lt hwrap]
  unfold newCapacity
  split
  · omega
  · rename_i hle
    rw [gt_iff_lt, UInt64.lt_iff_toNat_lt] at hle
    omega

/-- A new block has room for the request it is made for. -/
theorem ArenaBlock.Ok.room (h : block.Ok) (hempty : block.used = 0)
    (hvalid : validRequest size align = true)
    (hcapacity : size.toNat + align.toNat ≤ block.capacity.toNat) :
    (block.alignedOffset align).toNat + size.toNat ≤ block.capacity.toNat := by
  obtain ⟨-, k, hk, halign⟩ := validRequest_spec hvalid
  have hoffset := h.alignedOffset hk halign
  have hlt := nextMultiple_lt (block.data.toNat + block.used.toNat) (Nat.two_pow_pos k)
  have hused : block.used.toNat = 0 := by
    rw [hempty]
    rfl
  omega

theorem ArenaRun.Sound.alloc (h : s.Sound) {malloc : Malloc}
    (hmalloc : MallocOk s.arena.blocks malloc) (hwrap : NoWrap s (.alloc size align malloc)) :
    (s.step (.alloc size align malloc)).Sound := by
  unfold ArenaRun.step oasArenaAlloc
  simp only
  split
  · exact h
  · rename_i hvalid
    have hvalid : validRequest size align = true := by simpa using hvalid
    have hwrap := hwrap hvalid
    split
    · rename_i hroom
      rw [if_pos hroom] at hwrap
      apply h.bump
      apply ArenaBlock.Ok.take (h.ok _ (Arena.mem_blocks.mpr (.inr (.inl rfl)))) hvalid
      unfold ArenaBlock.hasRoom at hroom
      rw [decide_eq_true_eq, UInt64.le_iff_toNat_le, UInt64.toNat_add,
        Nat.mod_eq_of_lt hwrap] at hroom
      exact hroom
    · rename_i hroom
      rw [if_neg hroom] at hwrap
      split
      · exact h
      · rename_i newBlock hcreate
        rcases hwrap with hnone | ⟨hsum, hheader⟩
        · simp [arenaBlockCreate, hnone] at hcreate
        · have hcapacity := le_newCapacity s.arena.blockSize hsum
          obtain ⟨hsize, -⟩ := validRequest_spec hvalid
          obtain ⟨hok, hempty, hnew, hapart⟩ :=
            arenaBlockCreate_spec hmalloc (by omega) hheader hcreate
          apply (h.grow hok hapart).bump
          apply hok.take hvalid
          apply hok.room hempty hvalid
          rw [hnew]
          exact hcapacity

/-- One call keeps the invariant. -/
theorem ArenaRun.Sound.step (h : s.Sound) {call : ArenaCall} (hmalloc : MallocsOk s call)
    (hwrap : NoWrap s call) : (s.step call).Sound := by
  cases call with
  | alloc size align malloc => exact h.alloc hmalloc hwrap
  | reset => exact h.reset

theorem ArenaRun.Sound.run (h : s.Sound) {calls : List ArenaCall}
    (hmalloc : s.Along MallocsOk calls) (hwrap : s.Along NoWrap calls) : (s.run calls).Sound := by
  induction calls generalizing s with
  | nil => exact h
  | cons call calls ih => exact ih (h.step hmalloc.1 hwrap.1) hmalloc.2 hwrap.2

theorem create_sound {malloc : Malloc} {blockSize : UInt64} {arena : Arena}
    (hcreate : oasArenaCreate malloc blockSize = some arena) (hmalloc : MallocOk [] malloc)
    (hwrap : 32 + blockSize.toNat < 2 ^ 64) : (⟨arena, []⟩ : ArenaRun).Sound := by
  unfold oasArenaCreate at hcreate
  obtain ⟨block, hblock, rfl⟩ := Option.map_eq_some_iff.mp hcreate
  have hsize : 0 < (if blockSize = 0 then arenaDefaultBlock else blockSize).toNat ∧
      32 + (if blockSize = 0 then arenaDefaultBlock else blockSize).toNat < 2 ^ 64 := by
    split
    · decide
    · rename_i hne
      refine ⟨Nat.pos_of_ne_zero ?_, hwrap⟩
      exact fun h0 => hne (UInt64.toNat_inj.mp (by simpa using h0))
  obtain ⟨hok, -⟩ := arenaBlockCreate_spec hmalloc hsize.1 hsize.2 hblock
  constructor
  · simpa [Arena.blocks] using hok
  · simp [Arena.blocks]
  · simp
  · simp
  · exact List.Pairwise.nil

/-- The ranges that an arena hands out are aligned, within a block and disjoint, in every run
in which no sum wraps. -/
theorem arena_safe {malloc : Malloc} {blockSize : UInt64} {arena : Arena}
    (hcreate : oasArenaCreate malloc blockSize = some arena) (hmalloc : MallocOk [] malloc)
    (hwrap : 32 + blockSize.toNat < 2 ^ 64) (calls : List ArenaCall)
    (hmallocs : (⟨arena, []⟩ : ArenaRun).Along MallocsOk calls)
    (hwraps : (⟨arena, []⟩ : ArenaRun).Along NoWrap calls) :
    ((⟨arena, []⟩ : ArenaRun).run calls).Safe :=
  ((create_sound hcreate hmalloc hwrap).run hmallocs hwraps).safe

/-- A `malloc` that has memory of one size, at one address. -/
def mallocAt (address size : UInt64) : Malloc := fun n => if n = size then some address else none

theorem mallocAt_ok {blocks : List ArenaBlock} {address size : UInt64}
    (hspace : address.toNat + size.toNat ≤ 2 ^ 64)
    (hapart : ∀ block ∈ blocks,
      Disjoint (Set.Ico address.toNat (address.toNat + size.toNat)) block.extent) :
    MallocOk blocks (mallocAt address size) := by
  intro n a hanswer
  unfold mallocAt at hanswer
  split at hanswer
  · rename_i hn
    subst hn
    cases hanswer
    exact ⟨hspace, hapart⟩
  · simp at hanswer

/-- An arena with one block of the default size. -/
def oneBlock : Arena := ⟨[], ⟨4128, 65536, 0⟩, [], 65536, 0⟩

theorem oneBlock_created : oasArenaCreate (mallocAt 4096 65568) 0 = some oneBlock := by
  decide +kernel

theorem arena_safe_twoBlocks :
    ((⟨oneBlock, []⟩ : ArenaRun).run
      [.alloc 24 8 (mallocAt 0 0), .alloc 100000 16 (mallocAt 131072 100048), .reset,
        .alloc 5 4 (mallocAt 0 0)]).Safe := by
  apply arena_safe oneBlock_created (mallocAt_ok (by decide) (by simp)) (by decide)
  · refine ⟨mallocAt_ok (by decide) ?_, mallocAt_ok (by decide) ?_, trivial,
      mallocAt_ok (by decide) ?_, trivial⟩
    · simp
    · intro block hmem
      have hone : block = ⟨4128, 65536, 24⟩ := by
        have hblocks : ((⟨oneBlock, []⟩ : ArenaRun).step (.alloc 24 8 (mallocAt 0 0))).arena.blocks =
            [⟨4128, 65536, 24⟩] := by decide +kernel
        rw [hblocks] at hmem
        simpa using hmem
      subst hone
      exact (disjoint_Ico_of_le (by decide)).symm
    · simp
  · refine ⟨?_, ?_, trivial, ?_, trivial⟩
    · decide +kernel
    · decide +kernel
    · decide +kernel

/-- The sum of the second call wraps to 8, which the third call takes for what is used. -/
theorem arena_overlap :
    oasArenaCreate (mallocAt 4096 65568) 0 = some oneBlock ∧
    (⟨oneBlock, []⟩ : ArenaRun).Along MallocsOk
      [.alloc 16 1 (mallocAt 0 0), .alloc (2 ^ 64 - 8) 1 (mallocAt 0 0),
        .alloc 8 1 (mallocAt 0 0)] ∧
    ¬ ((⟨oneBlock, []⟩ : ArenaRun).run
      [.alloc 16 1 (mallocAt 0 0), .alloc (2 ^ 64 - 8) 1 (mallocAt 0 0),
        .alloc 8 1 (mallocAt 0 0)]).Safe := by
  refine ⟨oneBlock_created, ?_, ?_⟩
  · refine ⟨mallocAt_ok (by decide) ?_, mallocAt_ok (by decide) ?_, mallocAt_ok (by decide) ?_,
      trivial⟩ <;> simp
  · intro hsafe
    have hrun : ((⟨oneBlock, []⟩ : ArenaRun).run
        [.alloc 16 1 (mallocAt 0 0), .alloc (2 ^ 64 - 8) 1 (mallocAt 0 0),
          .alloc 8 1 (mallocAt 0 0)]).given =
        [⟨4136, 8, 1⟩, ⟨4144, 2 ^ 64 - 8, 1⟩, ⟨4128, 16, 1⟩] := by decide +kernel
    have hdisjoint := hsafe.disjoint
    rw [hrun] at hdisjoint
    have hpair := (List.pairwise_cons.mp hdisjoint).1 ⟨4128, 16, 1⟩ (by decide)
    have h1 : 4136 ∈ (⟨4136, 8, 1⟩ : Given).span := ⟨by decide, by decide⟩
    have h2 : 4136 ∈ (⟨4128, 16, 1⟩ : Given).span := ⟨by decide, by decide⟩
    exact Set.disjoint_left.mp hpair h1 h2

/-! ## Using an arena again -/

/-- A sequence of requests, with the `malloc` of each. -/
def allocAll (malloc : Nat → Malloc) (arena : Arena) : List (UInt64 × UInt64) → Arena
  | [] => arena
  | (size, align) :: requests =>
    allocAll (fun n => malloc (n + 1)) (oasArenaAlloc (malloc 0) arena size align).2 requests

/-- The requests once, and then so many times more after a reset. -/
def rounds (malloc : Nat → Nat → Malloc) (arena : Arena) (requests : List (UInt64 × UInt64)) :
    Nat → Arena
  | 0 => allocAll (malloc 0) arena requests
  | n + 1 => allocAll (malloc (n + 1)) (oasArenaReset (rounds malloc arena requests n)) requests

/-- The requests have room in a block, one after another, but for those that `malloc` has no
new block for. -/
def StaysIn (malloc : Nat → Malloc) (blockSize : UInt64) (block : ArenaBlock) :
    List (UInt64 × UInt64) → Prop
  | [] => True
  | (size, align) :: requests =>
    if validRequest size align = false then
      StaysIn (fun n => malloc (n + 1)) blockSize block requests
    else if block.hasRoom size align then
      StaysIn (fun n => malloc (n + 1)) blockSize (block.take size align).1 requests
    else
      malloc 0 (blockHeader + newCapacity blockSize size align) = none ∧
        StaysIn (fun n => malloc (n + 1)) blockSize block requests

/-- The blocks are never fewer, and they stay the same where the requests stay in the current
block. -/
theorem allocAll_length (malloc : Nat → Malloc) (arena : Arena) (requests : List (UInt64 × UInt64)) :
    arena.blocks.length ≤ (allocAll malloc arena requests).blocks.length ∧
      ((allocAll malloc arena requests).blocks.length = arena.blocks.length ↔
        StaysIn malloc arena.blockSize arena.current requests) := by
  induction requests generalizing malloc arena with
  | nil => simp [allocAll, StaysIn]
  | cons request requests ih =>
    obtain ⟨size, align⟩ := request
    unfold allocAll StaysIn
    have hrest := ih (fun n => malloc (n + 1)) (oasArenaAlloc (malloc 0) arena size align).2
    cases hvalid : validRequest size align with
    | false =>
      have halloc : (oasArenaAlloc (malloc 0) arena size align).2 = arena := by
        unfold oasArenaAlloc
        simp [hvalid]
      rw [halloc] at hrest ⊢
      simpa using hrest
    | true =>
      cases hroom : arena.current.hasRoom size align with
      | true =>
        have halloc : (oasArenaAlloc (malloc 0) arena size align).2 =
            { arena with
              current := (arena.current.take size align).1
              totalAllocated := arena.totalAllocated + size } := by
          unfold oasArenaAlloc
          simp [hvalid, hroom]
        rw [halloc] at hrest ⊢
        simpa [Arena.blocks] using hrest
      | false =>
        cases hmalloc : malloc 0 (blockHeader + newCapacity arena.blockSize size align) with
        | none =>
          have halloc : (oasArenaAlloc (malloc 0) arena size align).2 = arena := by
            unfold oasArenaAlloc arenaBlockCreate
            simp [hvalid, hroom, hmalloc]
          rw [halloc] at hrest ⊢
          simpa using hrest
        | some address =>
          -- a block more, and none is ever lost
          have halloc : (oasArenaAlloc (malloc 0) arena size align).2.blocks.length =
              arena.blocks.length + 1 := by
            unfold oasArenaAlloc arenaBlockCreate Arena.blocks
            simp [hvalid, hroom, hmalloc]
            omega
          rw [halloc] at hrest
          simp
          omega

theorem reset_length (arena : Arena) : (oasArenaReset arena).blocks.length = arena.blocks.length := by
  rw [reset_blocks, List.length_map]

/-- What a request leaves as it is: the head but for what is used of it, and the block size. -/
def Arena.frame (arena : Arena) : ArenaBlock × UInt64 := (arena.headRest.1.clear, arena.blockSize)

theorem alloc_frame (malloc : Malloc) (arena : Arena) (size align : UInt64) :
    (oasArenaAlloc malloc arena size align).2.frame = arena.frame := by
  unfold oasArenaAlloc
  split
  · rfl
  · split
    · unfold Arena.frame Arena.headRest
      cases arena.before <;> rfl
    · split
      · rfl
      · unfold Arena.frame Arena.headRest
        cases arena.before <;> rfl

theorem allocAll_frame (malloc : Nat → Malloc) (arena : Arena) (requests : List (UInt64 × UInt64)) :
    (allocAll malloc arena requests).frame = arena.frame := by
  induction requests generalizing malloc arena with
  | nil => rfl
  | cons request requests ih => exact (ih _ _).trans (alloc_frame _ _ _ _)

theorem rounds_frame (malloc : Nat → Nat → Malloc) (arena : Arena)
    (requests : List (UInt64 × UInt64)) (n : Nat) :
    (rounds malloc arena requests n).frame = arena.frame := by
  induction n with
  | zero => exact allocAll_frame _ _ _
  | succ n ih => exact (allocAll_frame _ _ _).trans ih

/-- A round after a reset makes no block where the requests stay in the head. -/
theorem rounds_length (malloc : Nat → Nat → Malloc) (arena : Arena)
    (requests : List (UInt64 × UInt64)) (n : Nat) :
    (rounds malloc arena requests n).blocks.length ≤
        (rounds malloc arena requests (n + 1)).blocks.length ∧
      ((rounds malloc arena requests (n + 1)).blocks.length =
          (rounds malloc arena requests n).blocks.length ↔
        StaysIn (malloc (n + 1)) arena.blockSize arena.headRest.1.clear requests) := by
  have hround := allocAll_length (malloc (n + 1)) (oasArenaReset (rounds malloc arena requests n))
    requests
  have hframe := rounds_frame malloc arena requests n
  rw [reset_length] at hround
  have hhead : (oasArenaReset (rounds malloc arena requests n)).current = arena.headRest.1.clear :=
    congrArg Prod.fst hframe
  have hsize : (oasArenaReset (rounds malloc arena requests n)).blockSize = arena.blockSize :=
    congrArg Prod.snd hframe
  rw [hhead, hsize] at hround
  exact hround

/-- An arena that is reset after each round never owns more blocks than after the first, if and
only if each later round stays in the head block: no other block is used again. -/
theorem reset_bounded_iff (malloc : Nat → Nat → Malloc) (arena : Arena)
    (requests : List (UInt64 × UInt64)) :
    (∀ n, (rounds malloc arena requests n).blocks.length ≤
        (rounds malloc arena requests 0).blocks.length) ↔
      ∀ n, StaysIn (malloc (n + 1)) arena.blockSize arena.headRest.1.clear requests := by
  constructor
  · intro hbounded n
    apply (rounds_length malloc arena requests n).2.mp
    have hmono : ∀ m, (rounds malloc arena requests 0).blocks.length ≤
        (rounds malloc arena requests m).blocks.length := by
      intro m
      induction m with
      | zero => exact le_rfl
      | succ m ih => exact ih.trans (rounds_length malloc arena requests m).1
    exact le_antisymm ((hbounded (n + 1)).trans (hmono n)) (rounds_length malloc arena requests n).1
  · intro hstays n
    induction n with
    | zero => exact le_rfl
    | succ n ih =>
      rw [(rounds_length malloc arena requests n).2.mpr (hstays n)]
      exact ih

/-- Two requests that need a block each: 2 blocks after the first round, 3 after the second. -/
theorem reset_grows :
    let malloc : Nat → Nat → Malloc := fun n i => mallocAt (.ofNat (8192 + 8192 * n + 4096 * i)) 96
    let arena : Arena := ⟨[], ⟨4128, 64, 0⟩, [], 64, 0⟩
    oasArenaCreate (mallocAt 4096 96) 64 = some arena ∧
    (rounds malloc arena [(48, 8), (48, 8)] 0).blocks =
      [⟨4128, 64, 48⟩, ⟨12320, 64, 48⟩] ∧
    (rounds malloc arena [(48, 8), (48, 8)] 1).blocks =
      [⟨4128, 64, 48⟩, ⟨20512, 64, 48⟩, ⟨12320, 64, 0⟩] ∧
    ¬ ∀ n, (rounds malloc arena [(48, 8), (48, 8)] n).blocks.length ≤
      (rounds malloc arena [(48, 8), (48, 8)] 0).blocks.length := by
  refine ⟨by decide +kernel, by decide +kernel, by decide +kernel, ?_⟩
  intro hbounded
  exact absurd (hbounded 1) (by decide +kernel)

end Liboas
