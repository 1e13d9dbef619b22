import Liboas.Core.Routing

/-!
# The array of a template (`oas_path_match.c`)

`parse_template` allocates as many slots as `count_segments` finds, and fills one slot for
each segment its own loop cuts off. Here both loops run over the places of the text, and a
write that misses the array has no result.
-/

namespace Liboas

/-! ## `count_segments` -/

/-- The loop of `count_segments`. It breaks where a slash ends the path. -/
def countScan (path : Bytes) (segStart i count : Nat) : Nat :=
  if i ≤ path.length then
    if i = path.length ∨ path[i]? = some slash then
      let count := if segStart < i then count + 1 else count
      if i < path.length ∧ i + 1 < path.length then countScan path (i + 1) (i + 1) count
      else count
    else countScan path segStart (i + 1) count
  else count
termination_by path.length + 1 - i

/-- The place where the first segment starts. -/
def pathStart (path : Bytes) : Nat := if path[0]? = some slash then 1 else 0

/-- `count_segments`, place by place. -/
def countSegmentsScan (path : Bytes) : Nat :=
  if path.length = 0 then 0
  else
    let i := pathStart path
    if path.length ≤ i then 0 else countScan path i i 0

theorem countScan_eq (path : Bytes) (segStart i count : Nat) (hstart : segStart ≤ i)
    (hi : i ≤ path.length) :
    countScan path segStart i count = count + countFrom (decide (segStart < i)) (path.drop i) := by
  induction hn : path.length + 1 - i generalizing segStart i count with
  | zero => omega
  | succ n ih =>
    unfold countScan
    have hhere : (if segStart < i then count + 1 else count) =
        count + (decide (segStart < i)).toNat := by
      split <;> simp [*]
    rw [if_pos hi]
    by_cases hend : i = path.length
    · rw [if_pos (Or.inl hend), if_neg (by omega), hhere, hend, List.drop_length]
      rfl
    · have hlt : i < path.length := by omega
      have hget : path[i]? = some path[i] := List.getElem?_eq_getElem hlt
      rw [List.drop_eq_getElem_cons hlt, countFrom]
      by_cases hslash : path[i] = slash
      · rw [if_pos (Or.inr (by rw [hget, hslash])), if_pos hslash]
        by_cases hlast : i + 1 < path.length
        · rw [if_pos ⟨hlt, hlast⟩, ih (i + 1) (i + 1) _ (by omega) (by omega) (by omega), hhere]
          simp [Nat.add_assoc]
        · rw [if_neg (by omega), hhere, List.drop_eq_nil_of_le (by omega)]
          rfl
      · have hother : ¬(i = path.length ∨ path[i]? = some slash) := by
          rw [hget, Option.some.injEq]
          exact not_or.mpr ⟨hend, hslash⟩
        have hinside : decide (segStart < i + 1) = true := decide_eq_true (by omega)
        rw [if_neg hother, if_neg hslash, ih segStart (i + 1) _ (by omega) (by omega) (by omega),
          hinside]

theorem drop_pathStart (path : Bytes) : path.drop (pathStart path) = dropLeadingSlash path := by
  unfold dropLeadingSlash
  split
  · rfl
  · rename_i hother
    unfold pathStart
    rw [if_neg, List.drop_zero]
    intro hhead
    cases path with
    | nil => cases hhead
    | cons b rest =>
      cases hhead
      exact hother rest rfl

theorem countSegments_eq (path : Bytes) :
    countSegments path = countFrom false (dropLeadingSlash path) := by
  unfold countSegments dropLeadingSlash
  split <;> rfl

/-- Both readings of `count_segments` are the same. -/
theorem countSegmentsScan_eq (path : Bytes) : countSegmentsScan path = countSegments path := by
  unfold countSegmentsScan
  rw [countSegments_eq, ← drop_pathStart]
  split
  · rename_i hlen
    rw [List.length_eq_zero_iff.mp hlen]
    rfl
  · dsimp only
    split
    · rename_i hlen
      rw [List.drop_eq_nil_of_le hlen]
      rfl
    · rename_i hlen
      rw [countScan_eq _ _ _ _ le_rfl (by omega)]
      simp

/-! ## `parse_template` -/

/-- `path_segment_t.kind`. -/
inductive SegmentKind where
  | static
  | param
  deriving DecidableEq

/-- A `path_segment_t` in memory. A field that nothing has written holds nothing. -/
structure SegmentSlot where
  kind : Option SegmentKind
  text : Option Bytes
  deriving DecidableEq

namespace SegmentSlot

def unset : SegmentSlot := ⟨none, none⟩

def touched (slot : SegmentSlot) : Bool := slot.kind.isSome || slot.text.isSome

/-- The slot of a segment that is done. -/
def of : PathSegment → SegmentSlot
  | .static text => ⟨some .static, some text⟩
  | .param name => ⟨some .param, some name.bytes⟩

theorem of_set (segment : PathSegment) :
    (of segment).kind.isSome = true ∧ (of segment).text.isSome = true := by
  cases segment <;> exact ⟨rfl, rfl⟩

end SegmentSlot

/-- What `parse_template` leaves in its `path_template_t`. -/
structure TemplateOut where
  segments : List SegmentSlot
  segmentCount : Nat
  staticCount : Nat

namespace TemplateOut

/-- A write through `&out->segments[i]`. There is no slot past the array. -/
def write (out : TemplateOut) (i : Nat) (f : SegmentSlot → SegmentSlot) : Option TemplateOut :=
  if i < out.segments.length then some { out with segments := out.segments.modify i f } else none

/-- How many slots hold something. -/
def written (out : TemplateOut) : Nat := out.segments.countP SegmentSlot.touched

theorem written_le (out : TemplateOut) : out.written ≤ out.segments.length :=
  List.countP_le_length

end TemplateOut

/-- The kind of a segment and the bytes that are copied for it. -/
def segmentText (tmpl : Bytes) (segStart segLen : Nat) : SegmentKind × Bytes :=
  if tmpl[segStart]? = some 123 ∧ tmpl[segStart + segLen - 1]? = some 125 then
    (.param, (tmpl.drop (segStart + 1)).take (segLen - 2))
  else (.static, (tmpl.drop segStart).take segLen)

/-- The body of the loop behind the check for an empty segment. The kind is written before
the text is allocated; `alloc` answers the allocations, the array's first. -/
def fillSegment (alloc : Nat → Bool) (tmpl : Bytes) (segStart segLen : Nat) (out : TemplateOut) :
    Option (Int × TemplateOut) := do
  let n := out.segmentCount
  let (kind, text) := segmentText tmpl segStart segLen
  let out ← out.write n (fun seg => { seg with kind := some kind })
  if !alloc (n + 1) then return (-ENOMEM, out)
  let out ← out.write n (fun seg => { seg with text := some text })
  return (0, { out with
    segmentCount := n + 1
    staticCount := if kind = .static then out.staticCount + 1 else out.staticCount })

/-- The place behind the segment that starts at `i`. -/
def segmentEnd (tmpl : Bytes) (i : Nat) : Nat :=
  if i < tmpl.length ∧ tmpl[i]? ≠ some slash then segmentEnd tmpl (i + 1) else i
termination_by tmpl.length - i

/-- The loop of `parse_template`. -/
def fillLoop (alloc : Nat → Bool) (tmpl : Bytes) (i : Nat) (out : TemplateOut) :
    Option (Int × TemplateOut) :=
  if i < tmpl.length then
    let segStart := i
    let i' := segmentEnd tmpl i
    let segLen := i' - segStart
    if segLen = 0 then some (-EINVAL, out)
    else
      match fillSegment alloc tmpl segStart segLen out with
      | some (0, out) => fillLoop alloc tmpl (if i' < tmpl.length then i' + 1 else i') out
      | stopped => stopped
  else some (0, out)
termination_by tmpl.length - i
decreasing_by split <;> omega

/-- `parse_template`. The text is in memory, so the size of the array does not wrap. -/
def parseTemplateInto (alloc : Nat → Bool) (tmpl : CStr) (out : TemplateOut) :
    Option (Int × TemplateOut) :=
  if tmpl.bytes = [slash] then some (0, ⟨[], 0, 0⟩)
  else
    let nseg := countSegmentsScan tmpl.bytes
    if nseg = 0 then some (0, ⟨[], 0, 0⟩)
    else if !alloc 0 then some (-ENOMEM, { out with segments := [] })
    else fillLoop alloc tmpl.bytes (pathStart tmpl.bytes)
      ⟨List.replicate nseg .unset, 0, 0⟩

/-! ## One segment -/

/-- The loop over the bytes of a segment stops at a slash or at the end. -/
theorem segmentEnd_field (before f tail : Bytes) (hf : slash ∉ f)
    (htail : ∀ b, tail.head? = some b → b = slash) :
    segmentEnd (before ++ f ++ tail) before.length = before.length + f.length := by
  induction f generalizing before with
  | nil =>
    unfold segmentEnd
    rw [if_neg, List.length_nil, Nat.add_zero]
    intro ⟨hlt, hne⟩
    apply hne
    cases tail with
    | nil => simp at hlt
    | cons b tail => simp [htail b rfl]
  | cons b f ih =>
    rw [List.mem_cons, not_or] at hf
    have hmove : before ++ b :: f ++ tail = (before ++ [b]) ++ f ++ tail := by simp
    have hhere := ih (before ++ [b]) hf.2
    rw [List.length_append, List.length_singleton, ← hmove] at hhere
    unfold segmentEnd
    rw [if_pos, hhere, List.length_cons]
    · omega
    · refine ⟨by simp, ?_⟩
      simp [Ne.symm hf.1]

/-- What is copied for a segment is what it means. -/
theorem segmentText_field (before f tail : Bytes) (hne : f ≠ []) (hnul : (0 : UInt8) ∉ f) :
    let copied := segmentText (before ++ f ++ tail) before.length f.length
    SegmentSlot.of (.ofText f) = ⟨some copied.1, some copied.2⟩ := by
  have hlen : 0 < f.length := List.length_pos_iff.mpr hne
  have hfirst : (before ++ f ++ tail)[before.length]? = f.head? := by
    rw [List.append_assoc, List.getElem?_append_right le_rfl, Nat.sub_self,
      List.getElem?_append_left hlen, List.head?_eq_getElem?]
  have hlast : (before ++ f ++ tail)[before.length + f.length - 1]? = f.getLast? := by
    have hplace : before.length + f.length - 1 = before.length + (f.length - 1) := by omega
    rw [List.append_assoc, hplace, List.getElem?_append_right (by omega), Nat.add_sub_cancel_left,
      List.getElem?_append_left (by omega), List.getLast?_eq_getElem?]
  unfold segmentText PathSegment.ofText
  rw [hfirst, hlast]
  split
  · rename_i hbraces
    obtain ⟨hopen, hclose⟩ := hbraces
    cases f with
    | nil => exact absurd rfl hne
    | cons b f =>
      have hf : f ≠ [] := by
        rintro rfl
        cases hopen
        cases hclose
      have hf0 : (0 : UInt8) ∉ f.dropLast :=
        fun h => hnul (List.mem_cons_of_mem b (List.dropLast_subset f h))
      have hdrop : (before ++ b :: f ++ tail).drop (before.length + 1) = f ++ tail := by
        rw [List.append_assoc, List.cons_append, Fields.drop_field]
      have hcut : (b :: f).length - 2 = f.length - 1 := by simp
      rw [hdrop, hcut, List.take_append_of_le_length (by omega), ← List.dropLast_eq_take]
      show SegmentSlot.mk _ (some (CStr.ofBytes f.dropLast).bytes) = _
      rw [CStr.ofBytes_noNul hf0]
  · simp [SegmentSlot.of]

/-- One slot is filled, or the text could not be allocated. -/
theorem fillSegment_spec (alloc : Nat → Bool) (before tail : Bytes) {f : Bytes}
    {out : TemplateOut} (hne : f ≠ []) (hnul : (0 : UInt8) ∉ f) (hroom : out.segmentCount < out.segments.length) :
    ∃ rc out', fillSegment alloc (before ++ f ++ tail) before.length f.length out =
        some (rc, out') ∧
      out'.segments.length = out.segments.length ∧
      (rc = 0 → out'.segments = out.segments.set out.segmentCount (.of (.ofText f)) ∧
        out'.segmentCount = out.segmentCount + 1 ∧
        out'.staticCount = out.staticCount + (PathSegment.ofText f).isStatic.toNat) ∧
      (rc ≠ 0 → alloc (out.segmentCount + 1) = false) := by
  have hslot := segmentText_field before f tail hne hnul
  unfold fillSegment
  cases hcopied : segmentText (before ++ f ++ tail) before.length f.length with
  | mk kind text =>
    rw [hcopied] at hslot
    have hkind : (PathSegment.ofText f).isStatic = decide (kind = .static) := by
      cases hf : PathSegment.ofText f <;> rw [hf] at hslot <;> cases hslot <;> rfl
    simp only [TemplateOut.write, if_pos hroom, List.length_modify, Option.bind_eq_bind,
      Option.bind_some, Option.pure_def]
    by_cases halloc : alloc (out.segmentCount + 1) = true
    · rw [if_neg (by simp [halloc])]
      refine ⟨_, _, rfl, by simp, fun _ => ⟨?_, rfl, ?_⟩, by simp⟩
      · rw [List.modify_modify_eq, hslot]
        exact (List.set_eq_modify (SegmentSlot.mk _ _) _ _).symm
      · rw [hkind]
        by_cases hstatic : kind = .static <;> simp [hstatic]
    · rw [Bool.not_eq_true] at halloc
      rw [if_pos (by simp [halloc])]
      exact ⟨_, _, rfl, by simp, by simp [ENOMEM], fun _ => halloc⟩

/-! ## The loop -/

/-- The first slots hold the segments so far, and the others are as they were allocated. -/
structure TemplateOut.Filled (out : TemplateOut) (segments : List PathSegment) (left : Nat) :
    Prop where
  slots : out.segments = segments.map .of ++ List.replicate left .unset
  count : out.segmentCount = segments.length
  statics : out.staticCount = segments.countP PathSegment.isStatic

theorem TemplateOut.Filled.length_eq {out : TemplateOut} {segments : List PathSegment} {left : Nat}
    (h : out.Filled segments left) : out.segments.length = segments.length + left := by
  rw [h.slots]
  simp

theorem fillSegment_filled (alloc : Nat → Bool) (before tail : Bytes) {f : Bytes}
    {out : TemplateOut} {segments : List PathSegment} {left : Nat} (hne : f ≠ []) (hnul : (0 : UInt8) ∉ f)
    (h : out.Filled segments (left + 1)) :
    ∃ rc out', fillSegment alloc (before ++ f ++ tail) before.length f.length out =
        some (rc, out') ∧
      out'.segments.length = out.segments.length ∧
      (rc = 0 → out'.Filled (segments ++ [.ofText f]) left) ∧
      (rc ≠ 0 → alloc (out.segmentCount + 1) = false) := by
  have hroom : out.segmentCount < out.segments.length := by
    rw [h.length_eq, h.count]
    omega
  obtain ⟨rc, out', hfill, hlen, hok, hfail⟩ := fillSegment_spec alloc before tail hne hnul
    hroom
  refine ⟨rc, out', hfill, hlen, fun hrc => ?_, hfail⟩
  obtain ⟨hslots, hcount, hstatics⟩ := hok hrc
  refine ⟨?_, ?_, ?_⟩
  · rw [hslots, h.slots, h.count, List.set_append_right _ _ (by simp), List.length_map,
      Nat.sub_self, List.replicate_succ, List.set_cons_zero]
    simp
  · rw [hcount, h.count]
    simp
  · rw [hstatics, h.statics, List.countP_append, List.countP_singleton]
    cases (PathSegment.ofText f).isStatic <;> rfl

/-- One round of the loop, at a segment that is not empty. -/
theorem fillLoop_round {alloc : Nat → Bool} {before f tail : Bytes} {out out' : TemplateOut}
    {rc : Int} (hf : slash ∉ f) (hne : f ≠ []) (htail : ∀ b, tail.head? = some b → b = slash)
    (hfill : fillSegment alloc (before ++ f ++ tail) before.length f.length out = some (rc, out')) :
    fillLoop alloc (before ++ f ++ tail) before.length out =
      if rc = 0 then fillLoop alloc (before ++ f ++ tail)
        (if tail = [] then before.length + f.length else before.length + f.length + 1) out'
      else some (rc, out') := by
  have hlen : 0 < f.length := List.length_pos_iff.mpr hne
  have hnext : (if before.length + f.length < (before ++ f ++ tail).length then
      before.length + f.length + 1 else before.length + f.length) =
      if tail = [] then before.length + f.length else before.length + f.length + 1 := by
    cases tail <;> simp
  rw [fillLoop, if_pos (by simp; omega)]
  simp only [segmentEnd_field before f tail hf htail, Nat.add_sub_cancel_left]
  rw [if_neg (by omega), hnext, hfill]
  by_cases hrc : rc = 0
  · subst hrc
    rw [if_pos rfl]
    rfl
  · rw [if_neg hrc]
    split
    · rename_i heq
      cases heq
      exact absurd rfl hrc
    · rfl

/-- The loop stops at an empty segment. -/
theorem fillLoop_empty (alloc : Nat → Bool) (before rest : Bytes) (out : TemplateOut) :
    fillLoop alloc (before ++ slash :: rest) before.length out = some (-EINVAL, out) := by
  have hend := segmentEnd_field before [] (slash :: rest) (by simp) (by simp)
  simp only [List.append_nil, List.length_nil, Nat.add_zero] at hend
  rw [fillLoop, if_pos (by simp)]
  simp only [hend, Nat.sub_self, if_true]

/-- What the loop leaves, from any place on. -/
theorem fillLoop_filled (alloc : Nat → Bool) (before : Bytes) {l : Bytes} {out : TemplateOut}
    {segments : List PathSegment} {left : Nat} (hnul : (0 : UInt8) ∉ l)
    (hroom : (segmentsOf l).length ≤ left) (h : out.Filled segments left) :
    ∃ rc out', fillLoop alloc (before ++ l) before.length out = some (rc, out') ∧
      out'.segments.length = out.segments.length ∧
      (rc = 0 → ∃ more, splitSegments [] l = some more ∧
        out'.Filled (segments ++ more.map .ofText) (left - more.length)) ∧
      (rc ≠ 0 → splitSegments [] l = none ∨ ∃ n, alloc n = false) := by
  induction l using Fields.induction slash generalizing before out segments left with
  | last f hf =>
    by_cases hne : f = []
    · subst hne
      refine ⟨0, out, ?_, rfl, fun _ => ⟨[], rfl, by simpa using h⟩, by simp⟩
      rw [fillLoop, if_neg (by simp)]
    · rw [segmentsOf_single hf, if_neg (by simpa using hne), List.length_singleton] at hroom
      obtain ⟨left, rfl⟩ := Nat.exists_eq_add_of_le' hroom
      obtain ⟨rc, out', hfill, hlen, hok, hfail⟩ := fillSegment_filled alloc before [] hne hnul h
      have hround := fillLoop_round hf hne (by simp) hfill
      rw [if_pos (Eq.refl ([] : Bytes)), List.append_nil] at hround
      have hsplit : splitSegments [] f = some [f] := by
        have hself := splitSegments_append [] f [] hf
        rw [List.append_nil, List.nil_append] at hself
        rw [hself, splitSegments, if_neg (by simpa using hne)]
      rw [hround]
      by_cases hrc : rc = 0
      · subst hrc
        refine ⟨0, out', ?_, hlen, fun _ => ⟨[f], hsplit, by simpa using hok rfl⟩, by simp⟩
        rw [if_pos rfl, fillLoop, if_neg (by simp)]
      · rw [if_neg hrc]
        exact ⟨rc, out', rfl, hlen, fun h0 => absurd h0 hrc, fun hne0 => .inr ⟨_, hfail hne0⟩⟩
  | field f rest hf ih =>
    by_cases hne : f = []
    · subst hne
      refine ⟨-EINVAL, out, fillLoop_empty alloc before rest out, rfl, ?_, fun _ => .inl ?_⟩
      · intro hrc
        cases hrc
      · rw [List.nil_append, splitSegments, if_pos rfl]
        rfl
    · rw [segmentsOf_cons hf, if_neg (by simpa using hne), List.length_append,
        List.length_singleton, Nat.add_comm] at hroom
      obtain ⟨left, rfl⟩ : ∃ n, left = n + 1 := ⟨left - 1, by omega⟩
      rw [List.mem_append, List.mem_cons, not_or, not_or] at hnul
      obtain ⟨rc, out', hfill, hlen, hok, hfail⟩ := fillSegment_filled alloc before
        (slash :: rest) hne hnul.1 h
      have hround := fillLoop_round hf hne (by simp) hfill
      rw [if_neg (List.cons_ne_nil slash rest), List.append_assoc] at hround
      rw [hround]
      by_cases hrc : rc = 0
      · subst hrc
        obtain ⟨rc, last, hloop, hlast, hdone, hstop⟩ := ih (before ++ f ++ [slash])
          hnul.2.2 (by omega) (hok rfl)
        have hmove : before ++ f ++ [slash] ++ rest = before ++ (f ++ slash :: rest) := by simp
        have hplace : (before ++ f ++ [slash]).length = before.length + f.length + 1 := by
          simp [Nat.add_assoc]
        rw [hmove, hplace] at hloop
        rw [if_pos rfl]
        refine ⟨rc, last, hloop, hlast.trans hlen, ?_, ?_⟩
        · intro h0
          obtain ⟨more, hmore, hfilled⟩ := hdone h0
          refine ⟨f :: more, by rw [splitSegments_field f rest hf hne, hmore]; rfl, ?_⟩
          simpa using hfilled
        · intro h0
          refine (hstop h0).imp_left fun hnone => ?_
          rw [splitSegments_field f rest hf hne, hnone]
          rfl
      · rw [if_neg hrc]
        exact ⟨rc, out', rfl, hlen, fun h0 => absurd h0 hrc, fun hne0 => .inr ⟨_, hfail hne0⟩⟩

/-! ## The whole call -/

theorem filled_start (nseg : Nat) :
    (⟨List.replicate nseg .unset, 0, 0⟩ : TemplateOut).Filled [] nseg := ⟨rfl, rfl, rfl⟩

/-- Where no slot is left, every slot is set. -/
theorem TemplateOut.Filled.all_set {out : TemplateOut} {segments : List PathSegment}
    (h : out.Filled segments 0) :
    out.segments = segments.map .of ∧ out.written = segments.length := by
  have hslots := h.slots
  rw [List.replicate_zero, List.append_nil] at hslots
  refine ⟨hslots, ?_⟩
  unfold TemplateOut.written
  rw [hslots, List.countP_map, List.countP_eq_length.mpr]
  intro segment _
  simp [SegmentSlot.touched, SegmentSlot.of_set]

theorem dropLeadingSlash_start (path : Bytes) :
    ∃ before, path = before ++ dropLeadingSlash path ∧ before.length = pathStart path := by
  refine ⟨path.take (pathStart path), ?_, ?_⟩
  · rw [← drop_pathStart, List.take_append_drop]
  · rw [List.length_take]
    unfold pathStart
    split
    · rename_i hhead
      have := (List.getElem?_eq_some_iff.mp hhead).1
      omega
    · omega

/-- Everything `parse_template` does to the array, against what the template means. -/
theorem parseTemplateInto_spec (alloc : Nat → Bool) (tmpl : CStr) (out : TemplateOut) :
    ∃ rc out', parseTemplateInto alloc tmpl out = some (rc, out') ∧
      out'.segments.length ≤ countSegmentsScan tmpl.bytes ∧
      (rc = 0 → ∃ t, parseTemplate tmpl = some t ∧ out'.Filled t.segments 0 ∧
        t.segments.length = countSegmentsScan tmpl.bytes) ∧
      (rc ≠ 0 → parseTemplate tmpl = none ∨ ∃ n, alloc n = false) := by
  unfold parseTemplateInto parseTemplate
  rw [countSegmentsScan_eq]
  by_cases hroot : tmpl.bytes = [slash]
  · rw [if_pos hroot, if_pos (Or.inl hroot), hroot]
    exact ⟨0, _, rfl, by decide, fun _ => ⟨_, rfl, filled_start 0, rfl⟩, by simp⟩
  · rw [if_neg hroot]
    dsimp only
    by_cases hzero : countSegments tmpl.bytes = 0
    · rw [if_pos hzero, if_pos (Or.inr hzero), hzero]
      exact ⟨0, _, rfl, le_rfl, fun _ => ⟨_, rfl, filled_start 0, rfl⟩, by simp⟩
    · have hparts : ¬(tmpl.bytes = [slash] ∨ countSegments tmpl.bytes = 0) :=
        not_or.mpr ⟨hroot, hzero⟩
      rw [if_neg hzero, if_neg hparts]
      by_cases halloc : (!alloc 0) = true
      · rw [if_pos halloc]
        exact ⟨_, _, rfl, Nat.zero_le _, by simp [ENOMEM], fun _ => .inr ⟨0, by simpa using halloc⟩⟩
      · rw [if_neg halloc]
        obtain ⟨before, hbytes, hstart⟩ := dropLeadingSlash_start tmpl.bytes
        have hcount : countSegments tmpl.bytes =
            (segmentsOf (dropLeadingSlash tmpl.bytes)).length := by
          rw [countSegments_spec, segmentsOf_dropLeadingSlash]
        have hnul : (0 : UInt8) ∉ dropLeadingSlash tmpl.bytes := fun h0 => by
          apply tmpl.noNul
          rw [hbytes]
          exact List.mem_append_right _ h0
        obtain ⟨rc, out', hloop, hlen, hok, hfail⟩ := fillLoop_filled alloc before hnul
          hcount.ge (filled_start _)
        rw [← hbytes, hstart] at hloop
        refine ⟨rc, out', hloop, by rw [hlen]; simp, ?_, ?_⟩
        · intro h0
          obtain ⟨more, hmore, hfilled⟩ := hok h0
          have hmeans := splitSegments_spec slash_notMem_nil hmore
          rw [List.nil_append] at hmeans
          rw [hcount, ← hmeans, Nat.sub_self, List.nil_append] at hfilled
          exact ⟨_, by rw [hmore]; rfl, hfilled, by rw [hcount, ← hmeans]; simp⟩
        · intro h0
          refine (hfail h0).imp_left fun hnone => ?_
          rw [hnone]
          rfl

/-- However the call ends, it writes no slot past the array it allocated, and no more slots than
`count_segments` found. Where it succeeds, it has written every slot. -/
theorem parseTemplateInto_array (alloc : Nat → Bool) (tmpl : CStr) (out : TemplateOut) :
    ∃ rc out', parseTemplateInto alloc tmpl out = some (rc, out') ∧
      out'.written ≤ countSegmentsScan tmpl.bytes ∧
      (rc = 0 → out'.written = countSegmentsScan tmpl.bytes ∧
        out'.segmentCount = countSegmentsScan tmpl.bytes ∧
        out'.segments.length = countSegmentsScan tmpl.bytes ∧
        ∀ slot ∈ out'.segments, slot.kind.isSome = true ∧ slot.text.isSome = true) := by
  obtain ⟨rc, out', hcall, hlen, hok, -⟩ := parseTemplateInto_spec alloc tmpl out
  refine ⟨rc, out', hcall, out'.written_le.trans hlen, fun h0 => ?_⟩
  obtain ⟨t, -, hfilled, hcount⟩ := hok h0
  obtain ⟨hslots, hwritten⟩ := hfilled.all_set
  refine ⟨hwritten.trans hcount, hfilled.count.trans hcount, hfilled.length_eq.trans hcount, ?_⟩
  intro slot hslot
  rw [hslots] at hslot
  obtain ⟨segment, -, rfl⟩ := List.mem_map.mp hslot
  exact SegmentSlot.of_set segment

end Liboas
