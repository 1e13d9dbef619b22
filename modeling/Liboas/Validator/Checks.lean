import Liboas.Validator.Discriminated
import Liboas.Validator.Flag
import Liboas.Validator.Splice

/-!
# Checks of the value alone

A check that a frame comes to adds its own verdict to that of the program without it. Where
a program is a list of checks, its verdict is theirs.
-/

namespace Liboas

open Outcome Machine

theorem checkedFormat_none {config : Option CompilerConfig} : checkedFormat config none = none := by
  unfold checkedFormat
  split <;> simp

section Checks

variable {m : Machine} {code : List Instr} {regex : Option Regex} {rt : Runtime}
  {direction : Direction} {vm r : Vm}

/-- Checks, one behind the other. -/
theorem Machine.Meaning.checks (h : ∀ i ∈ code, i.isCheck = true) :
    m.Meaning code (fun v => code.all (fun i => (checkOp m v i).isNone)) := by
  induction code with
  | nil => exact .nil
  | cons i code ih =>
    obtain ⟨hi, hcode⟩ := List.forall_mem_cons.mp h
    have hboth := (Meaning.check hi).append (ih hcode)
    exact hboth.congr (fun v => by rw [List.all_cons])

/-- A program of checks. -/
theorem accepts_checks (h : ∀ i ∈ code, i.isCheck = true) (v : Json) :
    CompiledSchema.accepts ⟨code ++ [.endOp], regex⟩ rt direction v =
      code.all (fun i => (checkOp ⟨[], regex, direction, rt⟩ v i).isNone) := by
  rw [accepts_of_meaning (.checks h)]
  have hsame : (fun i => (checkOp (CompiledSchema.machine ⟨code ++ [.endOp], regex⟩ rt direction) v
      i).isNone) = fun i => (checkOp ⟨[], regex, direction, rt⟩ v i).isNone := by
    funext i
    exact congrArg Option.isNone (@checkOp_on ⟨[], regex, direction, rt⟩ (code ++ [.endOp]) v i)
  rw [hsame]

/-- The flag that a run ends with does not depend on what was reported before. -/
theorem execute_reported (h : m.execute vm = .ok r) (errors : ErrorList) :
    ∃ r', m.execute { vm with errors := errors } = .ok r' ∧ r'.valid = r.valid := by
  have hsame : (m.execute { vm with errors := errors }).map Vm.quiet = .ok r.quiet := by
    have hquiet : m.execute vm.quiet = .ok r.quiet := by
      rw [execute_quiet, h]
      rfl
    rw [← execute_quiet]
    exact hquiet
  cases hrun : m.execute { vm with errors := errors } with
  | error fault =>
    rw [hrun] at hsame
    cases hsame
  | ok r' =>
    rw [hrun] at hsame
    have hinj : r'.quiet = r.quiet := Except.ok.inj hsame
    have hvalid : r'.quiet.valid = r.quiet.valid := congrArg Vm.valid hinj
    exact ⟨r', rfl, hvalid⟩

/-- A failure stays. -/
theorem execute_sticks (h : m.execute vm = .ok r) (hfalse : vm.valid = false) : r.valid = false := by
  obtain ⟨r', hr', hvalid⟩ := execute_reported h (some [])
  have htold := execute_told m { vm with errors := some [] } rfl r' hr'
  rw [← hvalid, htold.sticks hfalse]

/-- Code that a frame runs through adds its verdict to that of the program behind it. -/
theorem accepts_append {pre post : List Instr} {acc : Json → Bool}
    (hmeans : (CompiledSchema.machine ⟨pre ++ post, regex⟩ rt direction).Meaning pre acc)
    (htokens : Tokenised pre) (hpost : NoPart post) (hsound : CompiledSchema.Sound ⟨post, regex⟩)
    (v : Json) :
    CompiledSchema.accepts ⟨pre ++ post, regex⟩ rt direction v =
      (acc v && CompiledSchema.accepts ⟨post, regex⟩ rt direction v) := by
  have htokens' : Tokenised (pre ++ post) := tokenised_append htokens hsound.tokenised
  have hsound' : CompiledSchema.Sound ⟨pre ++ post, regex⟩ := by
    refine ⟨htokens', ?_⟩
    intro hnil
    exact hsound.nonempty (List.append_eq_nil_iff.mp hnil).2
  obtain ⟨vm, hvm, haccepts⟩ := hsound'.run rt direction v none
  obtain ⟨vm', hvm', haccepts'⟩ := hsound.run rt direction v none
  rw [haccepts, haccepts']
  generalize hm : CompiledSchema.machine ⟨pre ++ post, regex⟩ rt direction = m at hvm hmeans
  have hcode : m.code = pre ++ post := by
    rw [← hm]
    rfl
  have hmachine : CompiledSchema.machine ⟨post, regex⟩ rt direction = m.on post := by
    rw [← hm]
    rfl
  obtain ⟨errors, hrun⟩ := hmeans.run ⟨v, 0, none, true⟩ post hcode hpost
  rw [hrun] at hvm
  cases hpass : acc v with
  | false =>
    rw [execute_sticks hvm (by simp [Vm.past, hpass])]
    rfl
  | true =>
    -- From here both run `post`.
    obtain ⟨vm'', hvm'', hvalid⟩ := execute_reported hvm none
    rw [hmachine] at hvm'
    have hidle : Idle [.enterAdditional, .endOp] := ⟨[], Brackets.balanced_nil, rfl⟩
    have hstart : Along m post [.enterAdditional, .endOp] ⟨v, 0 + pre.length, none, true⟩
        ⟨v, 0, none, true⟩ := by
      refine ⟨rfl, rfl, rfl, ?_⟩
      show Ahead _ (m.code.drop (0 + pre.length)) (post.drop 0)
      rw [hcode, Nat.zero_add, List.drop_left]
      exact .same post
    have hpast : m.execute ⟨v, 0 + pre.length, none, true⟩ = .ok vm'' := by
      rw [← hvm'']
      simp [Vm.past, hpass]
    have halong := execute_along hidle (hcode ▸ htokens') hstart vm'' vm' hpast hvm'
    rw [← hvalid, halong.valid]
    rfl

end Checks

end Liboas
