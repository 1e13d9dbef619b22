import Liboas.Core.Error

/-!
# The path matcher (`oas_path_match.c`)

Templates and request paths are split at their slashes. A template fits a path with as many
segments, and the first with the most static segments is taken.
-/

namespace Liboas

def slash : UInt8 := 47

/-! ## Segments -/

/-- `count_segments`, from a place that is inside a segment or not. -/
def countFrom (inside : Bool) : Bytes → Nat
  | [] => inside.toNat
  | b :: rest => if b = slash then inside.toNat + countFrom false rest else countFrom true rest

/-- `count_segments`. -/
def countSegments (path : Bytes) : Nat :=
  match path with
  | 47 :: rest => countFrom false rest
  | _ => countFrom false path

/-- The loop over segments that `parse_template` and `split_request_path` share. `seg` is
what the current one has so far; an empty one is refused. -/
def splitSegments (seg : Bytes) : Bytes → Option (List Bytes)
  | [] => some (if seg.isEmpty then [] else [seg])
  | b :: rest =>
    if b = slash then
      if seg.isEmpty then none else (splitSegments [] rest).map (seg :: ·)
    else splitSegments (seg ++ [b]) rest

def dropLeadingSlash (path : Bytes) : Bytes :=
  match path with
  | 47 :: rest => rest
  | _ => path

/-! ## Templates -/

/-- `path_segment_t`. -/
inductive PathSegment where
  | static (text : Bytes)
  | param (name : CStr)
  deriving DecidableEq

namespace PathSegment

def isStatic : PathSegment → Bool
  | static _ => true
  | param _ => false

/-- A segment in braces is a parameter. -/
def ofText (text : Bytes) : PathSegment :=
  if text.head? = some 123 ∧ text.getLast? = some 125 then
    .param (.ofBytes (text.drop 1).dropLast)
  else .static text

/-- Whether a segment of a request path fits. -/
def fits : PathSegment → Bytes → Bool
  | static text, segment => text == segment
  | param _, _ => true

end PathSegment

/-- `path_template_t`. -/
structure PathTemplate where
  templatePath : CStr
  segments : List PathSegment

/-- `static_count`. -/
def PathTemplate.staticCount (t : PathTemplate) : Nat := t.segments.countP PathSegment.isStatic

/-- `parse_template`. -/
def parseTemplate (tmpl : CStr) : Option PathTemplate :=
  if tmpl.bytes = [slash] ∨ countSegments tmpl.bytes = 0 then some ⟨tmpl, []⟩
  else (splitSegments [] (dropLeadingSlash tmpl.bytes)).map
    (fun segments => ⟨tmpl, segments.map PathSegment.ofText⟩)

/-- `oas_path_matcher_t`. -/
abbrev PathMatcher := List PathTemplate

/-- `oas_path_matcher_create`. -/
def oasPathMatcherCreate (templates : List CStr) : Option PathMatcher :=
  if templates.isEmpty then none else templates.mapM parseTemplate

/-! ## Matching -/

/-- `MAX_SEGMENTS`. -/
def maxSegments : Nat := 64

/-- The path without one slash at its end, unless that is all there is. -/
def dropTrailingSlash (path : Bytes) : Bytes :=
  if 1 < path.length ∧ path.getLast? = some slash then path.dropLast else path

/-- `split_request_path`. -/
def splitRequestPath (path : Bytes) : Option (List Bytes) :=
  if path = [slash] then some []
  else
    match splitSegments [] (dropLeadingSlash (dropTrailingSlash path)) with
    | some segments => if segments.length ≤ maxSegments then some segments else none
    | none => none

/-- `try_match`. -/
def tryMatch (t : PathTemplate) (segments : List Bytes) : Bool :=
  t.segments.length == segments.length &&
    (t.segments.zip segments).all (fun p => p.1.fits p.2)

/-- The first of the templates that fit with the most static segments. -/
def bestMatch (matcher : PathMatcher) (segments : List Bytes) : Option PathTemplate :=
  matcher.foldl (fun best t =>
    if tryMatch t segments then
      match best with
      | some b => if b.staticCount < t.staticCount then some t else best
      | none => some t
    else best) none

/-- `oas_path_match_result_t` of a match: the template, and names with values. -/
structure PathMatch where
  templatePath : CStr
  params : List (CStr × CStr)

def extractParams (t : PathTemplate) (segments : List Bytes) : List (CStr × CStr) :=
  (t.segments.zip segments).filterMap fun p =>
    match p.1 with
    | .param name => some (name, CStr.ofBytes p.2)
    | .static _ => none

/-- `oas_path_match`, with a matcher and a path that are not null. -/
def oasPathMatch (matcher : PathMatcher) (path : CStr) (arena : Bool) :
    Except Failure (Option PathMatch) :=
  if !arena then .error ⟨-EINVAL, EINVAL_neg⟩
  else if path.bytes.head? ≠ some slash then .error ⟨-EINVAL, EINVAL_neg⟩
  else
    match splitRequestPath path.bytes with
    | none => .ok none
    | some segments => .ok ((bestMatch matcher segments).map
        (fun t => ⟨t.templatePath, extractParams t segments⟩))

/-- Only a path that does not start with a slash is an error, with an arena. -/
theorem oasPathMatch_error_iff {matcher : PathMatcher} {path : CStr} {arena : Bool} :
    (∃ rc, oasPathMatch matcher path arena = .error rc) ↔
      arena = false ∨ path.bytes.head? ≠ some slash := by
  unfold oasPathMatch
  cases arena with
  | false => simp
  | true =>
    by_cases h : path.bytes.head? = some slash
    · simp only [h]
      cases splitRequestPath path.bytes <;> simp
    · simp [h]

end Liboas
