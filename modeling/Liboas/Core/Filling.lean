import Liboas.Core.Routing

/-!
# Paths that are made from templates

A template with a segment in the place of each of its wildcards is a path. The matcher takes it
apart again.
-/

namespace Liboas

/-- What can stand between two slashes of a path. -/
structure IsSegment (s : Bytes) : Prop where
  nonempty : s ≠ []
  noSlash : slash ∉ s
  noNul : (0 : UInt8) ∉ s

/-- The path with these segments. -/
def pathOf (segments : List Bytes) : Bytes :=
  if segments.isEmpty then [slash] else segments.flatMap (slash :: ·)

/-- The segments of a template, with the next value in the place of each wildcard. -/
def fill : List Bytes → List Bytes → List Bytes
  | [], _ => []
  | s :: template, values =>
    if isWildcard s then
      match values with
      | [] => []
      | v :: values => v :: fill template values
    else s :: fill template values

/-- The path that a template and values make. -/
def filled (template : CStr) (values : List Bytes) : CStr :=
  .ofBytes (pathOf (fill (segmentsOf template.bytes) values))

/-- The names between the braces. -/
def wildcardNames (template : CStr) : List Bytes :=
  ((segmentsOf template.bytes).filter isWildcard).map (fun s => (s.drop 1).dropLast)

/-! ## Splitting -/

section Splitting

/-- By induction on the segments behind the first one. -/
theorem splitSegments_join {s : Bytes} (hs : IsSegment s) {segments : List Bytes}
    (h : ∀ x ∈ segments, IsSegment x) :
    splitSegments [] (s ++ segments.flatMap (slash :: ·)) = some (s :: segments) := by
  induction segments generalizing s with
  | nil =>
    have hne : s.isEmpty = false := by simpa using hs.nonempty
    rw [List.flatMap_nil, splitSegments_append _ _ _ hs.noSlash, List.nil_append, splitSegments, hne]
    rfl
  | cons x segments ih =>
    obtain ⟨hx, hrest⟩ := List.forall_mem_cons.mp h
    rw [List.flatMap_cons, List.cons_append, splitSegments_field _ _ hs.noSlash hs.nonempty, ih hx hrest]
    rfl

variable {segments : List Bytes} (h : ∀ x ∈ segments, IsSegment x)
include h

theorem zero_notMem_pathOf : (0 : UInt8) ∉ pathOf segments := by
  unfold pathOf
  split
  · decide
  · intro hzero
    obtain ⟨s, hs, hmem⟩ := List.mem_flatMap.mp hzero
    exact (List.mem_cons.mp hmem).elim (by decide) (h s hs).noNul

omit h in
theorem pathOf_head (segments : List Bytes) : (pathOf segments).head? = some slash := by
  cases segments <;> rfl

/-- A path does not end in a slash, unless that is all there is. -/
theorem dropTrailingSlash_pathOf : dropTrailingSlash (pathOf segments) = pathOf segments := by
  rcases List.eq_nil_or_concat segments with rfl | ⟨segments, s, rfl⟩
  · rfl
  · rw [List.concat_eq_append] at h ⊢
    have hs : IsSegment s := h s (by simp)
    have hpath : pathOf (segments ++ [s]) = segments.flatMap (slash :: ·) ++ slash :: s := by
      simp [pathOf]
    have hlast : (pathOf (segments ++ [s])).getLast? ≠ some slash := by
      rw [hpath, List.getLast?_append_of_ne_nil _ (List.cons_ne_nil _ _), List.getLast?_cons,
        List.getLast?_eq_some_getLast hs.nonempty]
      intro heq
      refine hs.noSlash ?_
      rw [← Option.some.inj heq]
      exact List.getLast_mem hs.nonempty
    exact if_neg fun hboth => hlast hboth.2

/-- What is joined is split again. -/
theorem splitRequestPath_pathOf (hshort : segments.length ≤ maxSegments) :
    splitRequestPath (pathOf segments) = some segments := by
  cases segments with
  | nil => rfl
  | cons s segments =>
    obtain ⟨hs, hrest⟩ := List.forall_mem_cons.mp h
    have hroot : pathOf (s :: segments) ≠ [slash] := by
      intro heq
      exact hs.nonempty (List.append_eq_nil_iff.mp (List.cons.inj heq).2).1
    unfold splitRequestPath
    rw [if_neg hroot, dropTrailingSlash_pathOf h]
    have hdrop : dropLeadingSlash (pathOf (s :: segments)) = s ++ segments.flatMap (slash :: ·) := rfl
    rw [hdrop, splitSegments_join hs hrest]
    exact if_pos hshort

theorem segmentsOf_pathOf : segmentsOf (pathOf segments) = segments := by
  cases segments with
  | nil => rfl
  | cons s segments =>
    obtain ⟨hs, hrest⟩ := List.forall_mem_cons.mp h
    have hjoin := splitSegments_spec slash_notMem_nil (splitSegments_join hs hrest)
    rw [List.nil_append] at hjoin
    rw [← segmentsOf_dropLeadingSlash]
    exact hjoin.symm

end Splitting

/-! ## Filling -/

section Filling

variable {template values : List Bytes}

theorem fill_isSegment (htemplate : ∀ s ∈ template, IsSegment s) (hvalues : ∀ v ∈ values, IsSegment v) :
    ∀ s ∈ fill template values, IsSegment s := by
  induction template generalizing values with
  | nil => exact fun s hs => absurd hs List.not_mem_nil
  | cons s template ih =>
    obtain ⟨hs, htemplate⟩ := List.forall_mem_cons.mp htemplate
    unfold fill
    split
    · cases values with
      | nil => exact fun s hs => absurd hs List.not_mem_nil
      | cons v values =>
        obtain ⟨hv, hvalues⟩ := List.forall_mem_cons.mp hvalues
        exact List.forall_mem_cons.mpr ⟨hv, ih htemplate hvalues⟩
    · exact List.forall_mem_cons.mpr ⟨hs, ih htemplate hvalues⟩

/-- With as many values as there are wildcards, the literal segments stay in their places. -/
theorem fill_agrees (hcount : values.length = template.countP isWildcard) :
    List.Forall₂ (fun s x => isWildcard s = true ∨ s = x) template (fill template values) := by
  induction template generalizing values with
  | nil => exact .nil
  | cons s template ih =>
    unfold fill
    split
    · rename_i hwild
      rw [List.countP_cons_of_pos hwild] at hcount
      cases values with
      | nil => cases hcount
      | cons v values => exact .cons (.inl hwild) (ih (Nat.succ.inj hcount))
    · rename_i hliteral
      rw [List.countP_cons_of_neg hliteral] at hcount
      exact .cons (.inr rfl) (ih hcount)

/-- The values are in the places of the wildcards. -/
theorem fill_values (hcount : values.length = template.countP isWildcard) :
    (template.zip (fill template values)).filterMap
        (fun p => if isWildcard p.1 then some ((p.1.drop 1).dropLast, p.2) else none) =
      ((template.filter isWildcard).map (fun s => (s.drop 1).dropLast)).zip values := by
  induction template generalizing values with
  | nil => rfl
  | cons s template ih =>
    unfold fill
    split
    · rename_i hwild
      rw [List.countP_cons_of_pos hwild] at hcount
      cases values with
      | nil => cases hcount
      | cons v values =>
        rw [List.filter_cons_of_pos hwild, List.zip_cons_cons, List.map_cons, List.zip_cons_cons,
          ← ih (Nat.succ.inj hcount)]
        exact List.filterMap_cons_some (if_pos hwild)
    · rename_i hliteral
      rw [List.countP_cons_of_neg hliteral] at hcount
      rw [List.filter_cons_of_neg hliteral, List.zip_cons_cons, ← ih hcount]
      exact List.filterMap_cons_none (if_neg hliteral)

end Filling

/-! ## Templates -/

section Templates

variable {template : CStr} {values : List Bytes} (hvalues : ∀ v ∈ values, IsSegment v)
  (hcount : values.length = (segmentsOf template.bytes).countP isWildcard)

theorem isSegment_of_mem {s : Bytes} (hs : s ∈ segmentsOf template.bytes) : IsSegment s where
  nonempty := by simpa using (List.mem_filter.mp hs).2
  noSlash := Fields.notMem_field (List.mem_filter.mp hs).1
  noNul := noNul_of_mem_segmentsOf hs

include hvalues

theorem filled_bytes :
    (filled template values).bytes = pathOf (fill (segmentsOf template.bytes) values) :=
  CStr.ofBytes_noNul (zero_notMem_pathOf (fill_isSegment (fun _ => isSegment_of_mem) hvalues))

theorem segmentsOf_filled :
    segmentsOf (filled template values).bytes = fill (segmentsOf template.bytes) values := by
  rw [filled_bytes hvalues, segmentsOf_pathOf (fill_isSegment (fun _ => isSegment_of_mem) hvalues)]

include hcount

theorem filled_agrees : Agrees template (filled template values) := by
  rw [Agrees, segmentsOf_filled hvalues]
  exact fill_agrees hcount

theorem wildcards_filled :
    wildcards template (filled template values) = (wildcardNames template).zip values := by
  rw [wildcards, segmentsOf_filled hvalues]
  exact fill_values hcount

theorem splitRequestPath_filled (hshort : (segmentsOf template.bytes).length ≤ maxSegments) :
    splitRequestPath (filled template values).bytes =
      some (segmentsOf (filled template values).bytes) := by
  rw [segmentsOf_filled hvalues, filled_bytes hvalues]
  refine splitRequestPath_pathOf (fill_isSegment (fun _ => isSegment_of_mem) hvalues) ?_
  rw [← (fill_agrees hcount).length_eq]
  exact hshort

/-- A path made from a template leads to it, with the values under the names of the wildcards, if
no other template that agrees with the path has as many literal segments. -/
theorem oasPathMatch_filled {templates : List CStr} {matcher : PathMatcher}
    (hcreate : oasPathMatcherCreate templates = some matcher) (hmem : template ∈ templates)
    (hshort : (segmentsOf template.bytes).length ≤ maxSegments)
    (hbest : ∀ t ∈ templates, t ≠ template → Agrees t (filled template values) →
      literals t < literals template) :
    ∃ params, oasPathMatch matcher (filled template values) true = .ok (some ⟨template, params⟩) ∧
      params.map (fun p => (p.1.bytes, p.2.bytes)) = (wildcardNames template).zip values := by
  have hhead : (filled template values).bytes.head? = some slash := by
    rw [filled_bytes hvalues]
    exact pathOf_head _
  have hagrees := filled_agrees hvalues hcount
  have hfound := bestMatch_found (templates.map templateOf)
    (segmentsOf (filled template values).bytes)
  have hrun : oasPathMatch matcher (filled template values) true =
      .ok ((bestMatch (templates.map templateOf) (segmentsOf (filled template values).bytes)).map
        (fun t => ⟨t.templatePath, extractParams t (segmentsOf (filled template values).bytes)⟩)) := by
    rw [oasPathMatch, oasPathMatcherCreate_spec hcreate,
      splitRequestPath_filled hvalues hcount hshort]
    simp [hhead]
  cases hmatch : bestMatch (templates.map templateOf)
      (segmentsOf (filled template values).bytes) with
  | none =>
    rw [hmatch] at hfound
    exact absurd ((tryMatch_iff _ _).mpr hagrees) (hfound _ (List.mem_map_of_mem hmem))
  | some best =>
    rw [hmatch] at hfound
    have hfound : FirstBest (fun t => tryMatch t (segmentsOf (filled template values).bytes) = true)
      PathTemplate.staticCount (templates.map templateOf) best := hfound
    obtain ⟨t, rfl, hmapped⟩ := hfound.of_map
    have hfirst : FirstBest (fun t => Agrees t (filled template values)) literals templates t :=
      hmapped.congr (fun t _ => tryMatch_iff t _) (fun t _ => staticCount_eq t)
    have ht : t = template := by
      by_contra hother
      exact absurd (hfirst.key_le hmem hagrees) (Nat.not_le.mpr (hbest t hfirst.mem hother hfirst.fit))
    subst ht
    refine ⟨_, hrun.trans (congrArg Except.ok (congrArg _ hmatch)), ?_⟩
    rw [extractParams_eq, wildcards_filled hvalues hcount]

end Templates

end Liboas
