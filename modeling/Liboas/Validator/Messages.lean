import Liboas.Core.Routing
import Liboas.Validator.Course
import Liboas.Validator.Request

/-!
# The messages of a validation

A validation adds errors to the list and takes none away. Each new message is an ASCII text
with quotes in it, cut to the size of a buffer, and a verdict that turns to false adds one.
-/

namespace Liboas

open Outcome Utf8

/-- The buffers of `oas_error_list_add` and of `add_error`. -/
inductive Buffer where
  | list
  | frame

def Buffer.size : Buffer → Nat
  | list => 1024
  | frame => 256

/-- An error before it is cut, with the smallest buffer that its message goes through. -/
structure RawError where
  kind : ErrorKind
  buffer : Buffer
  message : Bytes

def RawError.record (e : RawError) : OasError := ⟨e.kind, printInto e.buffer.size e.message, []⟩

theorem printInto_printInto {small large : Nat} (h : small ≤ large) (text : Bytes) :
    printInto large (printInto small text) = printInto small text := by
  rw [printInto, printInto, List.take_take, Nat.min_eq_right (by omega)]

/-! ## Growing error lists -/

/-- From one verdict and error list to later ones. -/
def Grows (Q : Bytes → Prop) (valid : Bool) (errors : ErrorList) (valid' : Bool)
    (errors' : ErrorList) : Prop :=
  ∃ raws : List RawError, errors' = errors.map (· ++ raws.map RawError.record) ∧
    (∀ e ∈ raws, Made Q e.message) ∧ (valid = true → valid' = false → raws ≠ [])

section Grows

variable {Q : Bytes → Prop} {valid valid' valid'' : Bool} {errors errors' errors'' : ErrorList}

theorem Grows.refl : Grows Q valid errors valid errors := by
  refine ⟨[], by simp, by simp, ?_⟩
  rintro rfl ⟨⟩

theorem Grows.trans (h : Grows Q valid errors valid' errors')
    (h' : Grows Q valid' errors' valid'' errors'') : Grows Q valid errors valid'' errors'' := by
  obtain ⟨raws, rfl, hmade, hloud⟩ := h
  obtain ⟨raws', rfl, hmade', hloud'⟩ := h'
  refine ⟨raws ++ raws', ?_, ?_, ?_⟩
  · cases errors <;> simp
  · intro e he
    exact (List.mem_append.mp he).elim (hmade e) (hmade' e)
  · intro hvalid hvalid''
    cases valid' with
    | true => exact List.append_ne_nil_of_right_ne_nil _ (hloud' rfl hvalid'')
    | false => exact List.append_ne_nil_of_left_ne_nil (hloud hvalid rfl) _

theorem Grows.add (kind : ErrorKind) {message : Bytes} (h : Made Q message) :
    Grows Q valid errors false (errors.add kind [] message) := by
  refine ⟨[⟨kind, .list, message⟩], rfl, ?_, fun _ _ => by simp⟩
  intro e he
  rw [List.mem_singleton] at he
  rwa [he]

/-- The same for an error of a frame. -/
theorem Grows.frame {message : Bytes} (h : Made Q message) :
    Grows Q valid errors false (errors.add .constraint [] (printInto 256 message)) := by
  refine ⟨[⟨.constraint, .frame, message⟩], ?_, ?_, fun _ _ => by simp⟩
  · have hcut := printInto_printInto (by decide : 256 ≤ 1024) message
    simp [ErrorList.add, RawError.record, Buffer.size, hcut]
  · intro e he
    rw [List.mem_singleton] at he
    rwa [he]

/-- The list alone. -/
theorem Grows.quiet (h : Grows Q valid errors valid' errors') (keep : Bool) :
    Grows Q keep errors keep errors' := by
  obtain ⟨raws, herrors, hmade, -⟩ := h
  refine ⟨raws, herrors, hmade, ?_⟩
  rintro rfl ⟨⟩

/-- A verdict that stays can be left alone. -/
theorem Grows.keep (h : Grows Q valid errors valid' errors') (keep : Bool) :
    Grows Q keep errors (keep && (!valid || valid')) errors' := by
  obtain ⟨raws, rfl, hmade, hloud⟩ := h
  refine ⟨raws, rfl, hmade, ?_⟩
  intro hkeep hfalse
  rw [hkeep] at hfalse
  cases valid <;> cases valid' <;> simp_all

end Grows

/-! ## Frames -/

/-- A later state of a frame. -/
structure Later (Q : Bytes → Prop) (vm vm' : Vm) : Prop where
  value : vm'.value = vm.value
  grows : Grows Q vm.valid vm.errors vm'.valid vm'.errors

/-- What the function does to a frame on a value that may be quoted. -/
def Speaks (Q : Bytes → Prop) (f : Vm → Except Fault Vm) : Prop :=
  ∀ vm, Heard Q vm.value → Permits (f vm) (Later Q vm)

namespace Machine

variable {m : Machine} {Q : Bytes → Prop}

/-- The messages that are added are made of quotes, and a flag is cleared with one. -/
def speechCourse (Q : Bytes → Prop) : Course where
  quotes := Q
  listed := fun _ => True
  lists := fun errors errors' => Grows Q true errors true errors'
  leads := Grows Q

theorem speechCourse_lawful : (speechCourse Q).Lawful where
  refl _ := .refl
  trans h h' := h.trans h'
  merge h := by
    rename_i valid errors valid' errors'
    have hkept := h.keep valid
    have hboth : (valid && (!valid || valid')) = (valid && valid') := by
      cases valid <;> rfl
    rwa [hboth] at hkept
  pass h := h.quiet _
  lists h := h.quiet true
  lists_refl _ := .refl
  lists_trans h h' := h.trans h'
  lists_listed _ _ := trivial
  ended _ h hmade := by
    obtain ⟨raws, herrors, hraws, hloud⟩ := h.trans (.frame hmade)
    exact ⟨raws, herrors, hraws, fun _ _ => hloud rfl rfl⟩

/-- `execute` only adds messages, and no verdict turns to false in silence. -/
theorem execute_speaks (hnames : m.Named Q) : Speaks Q m.execute := by
  intro vm hv
  refine (execute_keeps speechCourse_lawful hnames vm ⟨hv, trivial⟩).mono ?_
  exact fun vm' h => ⟨h.value, h.leads⟩

end Machine

/-! ## Validations -/

/-- The names in a program. -/
def CompiledSchema.names (compiled : CompiledSchema) : List CStr :=
  compiled.program.filterMap (fun i => i.operandStr.join)

def CompiledOperation.schemas (op : CompiledOperation) : List CompiledSchema :=
  op.requestBody.map (·.schema) ++ op.responses.flatMap (fun r => r.content.map (·.schema)) ++
    op.params.map (·.schema)

/-- The names in a document: its templates, its parameters, and those in its programs. -/
def CompiledDoc.names (doc : CompiledDoc) : List CStr :=
  (doc.matcher.getD []).map (·.templatePath) ++ doc.operations.flatMap (fun op =>
    op.params.filterMap (·.name) ++ op.schemas.flatMap CompiledSchema.names)

section Validations

variable {Q : Bytes → Prop} {rt : Runtime} {arena : Bool}

theorem named_of_names {compiled : CompiledSchema} {direction : Direction}
    (h : ∀ n ∈ compiled.names, Q n.bytes) : (compiled.machine rt direction).Named Q := by
  intro i hi name hname
  refine h name (List.mem_filterMap.mpr ⟨i, hi, ?_⟩)
  rw [hname]
  rfl

theorem ensureErrors_some {errors : ErrorList} (h : errors.isSome = true) :
    ensureErrors errors arena = errors := by
  cases errors with
  | none => cases h
  | some l => rfl

/-- A later result, unless the code is negative. -/
def Kept (Q : Bytes → Prop) (start : Result) (r : Int × Result) : Prop :=
  0 ≤ r.1 → Grows Q start.valid start.errors r.2.valid r.2.errors

theorem Grows.isSome {valid valid' : Bool} {errors errors' : ErrorList}
    (h : Grows Q valid errors valid' errors') (hsome : errors.isSome = true) :
    errors'.isSome = true := by
  obtain ⟨raws, rfl, -, -⟩ := h
  simpa using hsome

theorem validate_speaks {compiled : CompiledSchema} (hnames : ∀ n ∈ compiled.names, Q n.bytes)
    {value : Json} (hv : Heard Q value) (direction : Direction) {result : Result}
    (hsome : result.errors.isSome = true) :
    Permits (oasValidateWithDirection rt compiled value direction result arena)
      (Kept Q ⟨true, result.errors⟩) := by
  unfold oasValidateWithDirection
  split
  · exact Permits.ok (fun hrc => absurd hrc (by simp [EINVAL]))
  · rw [ensureErrors_some hsome]
    refine Permits.bind (Machine.execute_speaks (named_of_names hnames) _ hv) ?_
    exact fun vm hvm => Permits.pure (fun _ => hvm.grows)

theorem validateJson_speaks {compiled : CompiledSchema} (hnames : ∀ n ∈ compiled.names, Q n.bytes)
    {json : Bytes} (hv : ∀ v, rt.read json = some v → Heard Q v) (direction : Direction)
    {result : Result} (hsome : result.errors.isSome = true) :
    Permits (oasValidateJsonWithDirection rt compiled json direction result arena)
      (Kept Q ⟨true, result.errors⟩) := by
  unfold oasValidateJsonWithDirection
  split
  · exact Permits.ok (fun hrc => absurd hrc (by simp [EINVAL]))
  · rename_i root hroot
    exact validate_speaks hnames (hv root hroot) direction hsome

theorem validateParamValue_speaks (arena : Bool) {schema : CompiledSchema}
    (hnames : ∀ n ∈ schema.names, Q n.bytes) (hread : ∀ text v, rt.read text = some v → Heard Q v)
    (value : CStr) {result : Result} (hsome : result.errors.isSome = true) :
    Permits (validateParamValue rt arena schema value result) (Kept Q result) := by
  unfold validateParamValue
  have hchecked : ∀ x : Except Fault (Int × Result), Permits x (Kept Q ⟨true, result.errors⟩) →
      Permits (x >>= fun r =>
        pure (r.1, (⟨if r.2.valid then result.valid else false, r.2.errors⟩ : Result)))
        (Kept Q result) := by
    intro x hx
    refine Permits.bind hx ?_
    rintro ⟨rc, tmp⟩ hkept
    refine Permits.pure (fun hrc => ?_)
    have hgrows := (hkept hrc).keep result.valid
    cases htmp : tmp.valid <;> simp_all
  dsimp only
  split
  · rename_i root hroot
    exact hchecked _ (validate_speaks hnames (hread _ root hroot) .none hsome)
  · exact hchecked _ (validateJson_speaks hnames (hread _) .none hsome)

theorem andThen_speaks {start : Result} {x : Except Fault (Int × Result)}
    {k : Result → Except Fault (Int × Result)} (hx : Permits x (Kept Q start))
    (hk : ∀ result, Grows Q start.valid start.errors result.valid result.errors →
      Permits (k result) (Kept Q start)) : Permits (andThen x k) (Kept Q start) := by
  refine Permits.bind hx ?_
  rintro ⟨rc, result⟩ hkept
  dsimp only
  split
  · rename_i hrc
    exact Permits.pure (fun hle => absurd hrc (Int.not_lt.mpr hle))
  · rename_i hrc
    exact hk result (hkept (Int.not_lt.mp hrc))

theorem fail_grows {start result : Result} {kind : ErrorKind} {message : Bytes}
    (h : Grows Q start.valid start.errors result.valid result.errors) (hmade : Made Q message) :
    Grows Q start.valid start.errors (result.fail kind message).valid
      (result.fail kind message).errors :=
  h.trans (.add kind hmade)

/-- The parameters in one place. -/
theorem validateParams_speaks (place : String) {find : Option CStr → Except Fault (Option CStr)}
    {missing : CompiledParam → Result → Result} {start : Result}
    (hsome : start.errors.isSome = true) (hread : ∀ text v, rt.read text = some v → Heard Q v)
    {params : List CompiledParam} (hnames : ∀ p ∈ params, ∀ n ∈ p.schema.names, Q n.bytes)
    (hmissing : ∀ p ∈ params, ∀ result : Result,
      Grows Q start.valid start.errors result.valid result.errors →
      Grows Q start.valid start.errors (missing p result).valid (missing p result).errors)
    {result : Result} (hresult : Grows Q start.valid start.errors result.valid result.errors) :
    Permits (validateParams rt arena place find missing params result) (Kept Q start) := by
  induction params generalizing result with
  | nil => exact Permits.ok (fun _ => hresult)
  | cons p params ih =>
    have hrest := fun (result : Result) => @ih
      (fun q hq => hnames q (List.mem_cons_of_mem p hq))
      (fun q hq => hmissing q (List.mem_cons_of_mem p hq)) result
    unfold validateParams
    refine Permits.bind (P := fun _ => True) (fun _ _ => trivial) ?_
    intro here _
    split
    · refine Permits.bind (P := fun _ => True) (fun _ _ => trivial) ?_
      intro value _
      cases value with
      | none => exact hrest _ (hmissing p List.mem_cons_self result hresult)
      | some value =>
        have hvalue := validateParamValue_speaks arena (hnames p List.mem_cons_self) hread value
           (hresult.isSome hsome)
        exact andThen_speaks (hvalue.mono (fun r hr hrc => hresult.trans (hr hrc))) hrest
    · exact hrest result hresult

theorem failMissing_grows {start : Result} {text : String} (htext : ∀ x ∈ ascii text, x < 128)
    {p : CompiledParam} (hname : ∀ n, p.name = some n → Q n.bytes) (result : Result)
    (h : Grows Q start.valid start.errors result.valid result.errors) :
    Grows Q start.valid start.errors (failMissing text p result).valid
      (failMissing text p result).errors := by
  unfold failMissing
  split
  · exact fail_grows h ((Made.ascii htext).append (textOrNull_made hname))
  · exact h

theorem validateAllParams_speaks {op : CompiledOperation} (hnames : ∀ p ∈ op.params,
      (∀ n, p.name = some n → Q n.bytes) ∧ ∀ n ∈ p.schema.names, Q n.bytes)
    (hread : ∀ text v, rt.read text = some v → Heard Q v) (req : HttpRequest) (found : PathMatch)
    {start result : Result} (hsome : start.errors.isSome = true)
    (hresult : Grows Q start.valid start.errors result.valid result.errors) :
    Permits (validateAllParams rt arena op req found result) (Kept Q start) := by
  have hplace : ∀ (place text : String) (find : Option CStr → Except Fault (Option CStr)),
      (∀ x ∈ ascii text, x < 128) → ∀ result : Result,
      Grows Q start.valid start.errors result.valid result.errors →
      Permits (validateParams rt arena place find (failMissing text) op.params result)
        (Kept Q start) := by
    intro place text find htext result hresult
    exact validateParams_speaks place hsome hread (fun p hp => (hnames p hp).2)
      (fun p hp => failMissing_grows htext (hnames p hp).1) hresult
  unfold validateAllParams
  split
  · exact Permits.ok (fun _ => hresult)
  · refine andThen_speaks (hplace _ _ _ (ascii_lt (by decide)) _ hresult) (fun result hresult => ?_)
    refine andThen_speaks (hplace _ _ _ (ascii_lt (by decide)) _ hresult) (fun result hresult => ?_)
    refine andThen_speaks ?_ (fun result hresult => ?_)
    · split
      · exact Permits.ok (fun _ => hresult)
      · exact validateParams_speaks "path" hsome hread (fun p hp => (hnames p hp).2)
          (fun _ _ _ h => h) hresult
    · refine andThen_speaks (hplace _ _ _ (ascii_lt (by decide)) _ hresult) (fun result hresult => ?_)
      exact Permits.ok (fun _ => hresult)

theorem validateBody_speaks {unsupported : String} (htext : ∀ x ∈ ascii unsupported, x < 128)
    (direction : Direction) {content : List CompiledMediaType}
    (hnames : ∀ m ∈ content, ∀ n ∈ m.schema.names, Q n.bytes) {contentType : Option CStr}
    (htype : ∀ ct, contentType = some ct → Q ct.bytes)
    (hread : ∀ text v, rt.read text = some v → Heard Q v) (body : Option Bytes) {result : Result}
    (hsome : result.errors.isSome = true) (hvalid : result.valid = true) :
    Permits (validateBody rt arena unsupported direction content contentType body result)
      (fun r => (∀ rc, r.1 = some rc → 0 ≤ rc) →
        Grows Q result.valid result.errors r.2.valid r.2.errors) := by
  unfold validateBody
  split
  · split
    · refine Permits.ok (fun _ => fail_grows .refl ((Made.ascii htext).append ?_))
      cases contentType with
      | none => exact made_words (by decide)
      | some ct => exact .quote (htype ct rfl)
    · rename_i json _ _ _ media hmedia
      have hmem : media ∈ content := by
        unfold findContentType at hmedia
        split at hmedia
        · cases hmedia
        · rcases Option.or_eq_some_iff.mp hmedia with h | ⟨-, h⟩
          · exact List.mem_of_find?_eq_some h
          · obtain ⟨base, -, h⟩ := Option.bind_eq_some_iff.mp h
            exact List.mem_of_find?_eq_some h
      refine Permits.bind (validateJson_speaks (hnames media hmem) (hread json) direction hsome) ?_
      rintro ⟨rc, result'⟩ hkept
      refine Permits.pure (fun hrc => ?_)
      rw [hvalid]
      refine hkept ?_
      dsimp only at hrc
      by_cases hneg : rc < 0
      · exact absurd (hrc rc (if_pos hneg)) (Int.not_le.mpr hneg)
      · exact Int.not_lt.mp hneg
  · exact Permits.ok (fun _ => .refl)

theorem withOperation_speaks {doc : CompiledDoc} (hnames : ∀ n ∈ doc.names, Q n.bytes)
    {path method : CStr} (hpath : Q path.bytes) (hmethod : Q method.bytes) {result : Result}
    (hsome : result.errors.isSome = true)
    {k : CompiledOperation → PathMatch → Result → Except Fault (Int × Result)}
    (hk : ∀ op ∈ doc.operations, ∀ found,
      Permits (k op found ⟨true, result.errors⟩) (Kept Q ⟨true, result.errors⟩)) :
    Permits (withOperation arena doc path method result k) (Kept Q ⟨true, result.errors⟩) := by
  unfold withOperation
  rw [ensureErrors_some hsome]
  dsimp only
  split
  · exact Permits.ok (fun _ => fail_grows .refl (made_words (by decide)))
  · rename_i matcher hmatcher
    split
    · rename_i rc _
      exact Permits.ok (fun hrc => absurd rc.2 (Int.not_lt.mpr hrc))
    · exact Permits.ok (fun _ => fail_grows .refl ((made_words (by decide)).append (.quote hpath)))
    · rename_i found hfound
      split
      · have htemplate : Q found.templatePath.bytes := by
          obtain ⟨template, hmem, heq⟩ := oasPathMatch_mem hfound
          refine hnames _ (List.mem_append_left _ (List.mem_map.mpr ⟨template, ?_, heq⟩))
          rwa [hmatcher]
        refine Permits.ok (fun _ => fail_grows .refl ?_)
        exact (made_between (.quote hmethod) (by decide) (by decide)).append
          (.quote htemplate)
      · rename_i op hop
        exact hk op (List.mem_of_find?_eq_some hop) found

end Validations

end Liboas
