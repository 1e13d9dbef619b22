import Liboas.Validator.Course
import Liboas.Validator.Silence

/-!
# The flag and the error list

A frame that has an error list leaves it empty exactly when it leaves the flag set, if that
held where it started. A frame between the bodies of a discriminator has a list that says
more than its flag; what ends it is an error.
-/

namespace Liboas

open Outcome

namespace Machine

/-- The flag is set exactly when the list is empty. -/
def Agreed (s : Vm) : Prop := s.valid = true ↔ s.errors = some []

/-- What a frame with a list does to it and to the flag. -/
structure Told (s s' : Vm) : Prop where
  listed : s'.errors.isSome = true
  sticks : s.valid = false → s'.valid = false
  agreed : Agreed s → Agreed s'

/-- A function on frames that tells of each failure. -/
def Tells (f : Vm → Except Fault Vm) : Prop :=
  ∀ s, s.errors.isSome = true → Permits (f s) (Told s)

/-- An error makes the flag and the list agree. -/
theorem added_agreed {value : Json} {ip : Nat} {errors : ErrorList} (hlist : errors.isSome = true)
    (message : Bytes) : Agreed ⟨value, ip, errors.add .constraint [] message, false⟩ := by
  obtain ⟨list, rfl⟩ := Option.isSome_iff_exists.mp hlist
  unfold Agreed ErrorList.add
  simp

/-- The failure of a frame that shares the list is taken over. -/
theorem Told.merge {s sub : Vm} (h : Told s sub) : Told s (s.merge sub) where
  listed := h.listed
  sticks hvalid := by
    show (s.valid && sub.valid) = false
    rw [hvalid, Bool.false_and]
  agreed hagreed := by
    have hsub := h.agreed hagreed
    have hsticks := h.sticks
    unfold Agreed at hsub ⊢
    show (s.valid && sub.valid) = true ↔ sub.errors = some []
    rw [← hsub]
    cases hvalid : s.valid with
    | true => simp
    | false => simp [hsticks hvalid]

/-- A frame that ends with its flag set has started with it set. -/
theorem Told.pass {s sub : Vm} (h : Told s sub) (hvalid : sub.valid = true) :
    Told s { s with errors := sub.errors } := by
  have hset : s.valid = true := by
    by_contra hne
    have hfalse := h.sticks (by simpa using hne)
    rw [hvalid] at hfalse
    cases hfalse
  refine ⟨h.listed, fun h => h, ?_⟩
  intro hagreed
  have hsub := h.agreed hagreed
  unfold Agreed at hsub ⊢
  rw [hvalid] at hsub
  show s.valid = true ↔ sub.errors = some []
  rw [hset]
  exact hsub

/-- Any text may be quoted. -/
def toldCourse : Course where
  quotes := fun _ => True
  listed := fun errors => errors.isSome = true
  lists := fun errors errors' => errors.isSome = true → errors'.isSome = true
  leads := fun valid errors valid' errors' =>
    Told ⟨.null, 0, errors, valid⟩ ⟨.null, 0, errors', valid'⟩

theorem toldCourse_lawful : toldCourse.Lawful where
  refl hlist := ⟨hlist, id, id⟩
  trans h h' := ⟨h'.listed, fun hvalid => h'.sticks (h.sticks hvalid),
    fun hagreed => h'.agreed (h.agreed hagreed)⟩
  merge h := h.merge
  pass h := h.pass rfl
  lists h := fun _ => h.listed
  lists_refl _ := id
  lists_trans h h' := fun hlist => h' (h hlist)
  lists_listed hlist h := h hlist
  ended hlist h _ := by
    refine ⟨?_, fun _ => rfl, fun _ => added_agreed (h hlist) _⟩
    rw [ErrorList.add_isSome]
    exact h hlist

theorem execute_told (m : Machine) : Tells m.execute := by
  have hnames : m.Named toldCourse.quotes := fun _ _ _ _ => trivial
  intro s hlist
  have hstart : toldCourse.Starts s := ⟨fun _ _ => trivial, hlist⟩
  refine (execute_keeps toldCourse_lawful hnames s hstart).mono ?_
  exact fun s' h => ⟨h.leads.listed, h.leads.sticks, h.leads.agreed⟩

end Machine

/-- Whatever program runs, on an empty list: the flag is set exactly when the list is empty. -/
theorem validate_agreed {compiled : CompiledSchema} {rt : Runtime} {value : Json}
    {direction : Direction} {valid : Bool} {arena : Bool} {result : Result}
    (h : oasValidateWithDirection rt compiled value direction ⟨valid, some []⟩ arena =
      .ok (0, result)) : result.valid = true ↔ result.errors = some [] := by
  unfold oasValidateWithDirection at h
  split at h
  · simp [EINVAL] at h
  · obtain ⟨s, hvm, hresult⟩ := bind_eq_ok.mp h
    have htold := Machine.execute_told (compiled.machine rt direction) _
      (by simp [ensureErrors]) s hvm
    have hagreed : Machine.Agreed s := htold.agreed (by simp [Machine.Agreed, ensureErrors])
    cases hresult
    exact hagreed

/-- `oas_validate` of a compiled program with an empty list reports the value valid exactly when
it leaves the list empty. -/
theorem oasValidate_valid_iff_no_errors {α : Type} {mem : Memory α} {config : Option CompilerConfig}
    {depth : Nat} {schema : Option α} {compiled : CompiledSchema}
    (hcompile : oasSchemaCompile mem config depth schema = .ok compiled) (rt : Runtime)
    (value : Json) (valid arena : Bool) :
    ∃ result, oasValidate rt compiled value ⟨valid, some []⟩ arena = .ok (0, result) ∧
      (result.valid = true ↔ result.errors = some []) := by
  obtain ⟨errors, hvalidate⟩ := validate_spec (oasSchemaCompile_sound hcompile) rt value .none
    ⟨valid, some []⟩ arena
  exact ⟨_, hvalidate, validate_agreed hvalidate⟩

/-- `{"minLength": 1}` -/
theorem oasValidate_valid_iff_no_errors_minLength :
    ∃ result, oasValidate (.knowing []) ⟨[.checkMinLen 1, .endOp], none⟩ (.str []) ⟨true, some []⟩
        false = .ok (0, result) ∧ (result.valid = true ↔ result.errors = some []) :=
  @oasValidate_valid_iff_no_errors _ SchemaTree.memory none 1 (some (.node { minLength := 1 })) _ rfl
    (.knowing []) (.str []) true false

end Liboas
