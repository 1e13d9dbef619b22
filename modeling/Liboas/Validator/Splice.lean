import Liboas.Validator.Linked

/-!
# Code that no frame runs

ENTER_ADDITIONAL passes its body with `skip_to_end` and looks at nothing. A program runs as
it does without the instruction and its body, wherever the frames of it begin and end.
-/

namespace Liboas

open Outcome Brackets

namespace Machine

/-- ENTER_ADDITIONAL with a body that `skip_to_end` passes. -/
def Idle (seg : List Instr) : Prop :=
  ∃ body, Balanced depthKind body ∧ seg = .enterAdditional :: (body ++ [.endOp])

/-- What is left of the two codes is the same, except for `seg` in the first. -/
inductive Ahead (seg : List Instr) : List Instr → List Instr → Prop where
  | same (rest : List Instr) : Ahead seg rest rest
  | spliced (x post : List Instr) : NoPart post → Ahead seg (x ++ (seg ++ post)) (x ++ post)

section Ahead

variable {seg x y : List Instr} {i : Instr}

theorem Idle.balanced (hseg : Idle seg) : Balanced depthKind seg := by
  obtain ⟨body, hbody, rfl⟩ := hseg
  have := balanced_wrap (o := Instr.enterAdditional) rfl hbody (c := Instr.endOp) rfl
  simpa using this

theorem Ahead.inv (h : Ahead seg x y) :
    x = y ∨ ∃ pre post, NoPart post ∧ x = pre ++ (seg ++ post) ∧ y = pre ++ post := by
  cases h with
  | same => exact .inl rfl
  | spliced pre post hpost => exact .inr ⟨pre, post, hpost, rfl, rfl⟩

theorem Ahead.nil (hseg : Idle seg) (h : Ahead seg [] y) : y = [] := by
  obtain ⟨body, -, rfl⟩ := hseg
  rcases h.inv with rfl | ⟨pre, post, -, hx, -⟩
  · rfl
  · simp at hx

/-- An instruction that is not the one in question stands in front of both. -/
theorem Ahead.uncons (hseg : Idle seg) (h : Ahead seg (i :: x) y) (hi : i ≠ .enterAdditional) :
    ∃ z, y = i :: z ∧ Ahead seg x z := by
  rcases h.inv with rfl | ⟨pre, post, hpost, hx, rfl⟩
  · exact ⟨x, rfl, .same x⟩
  · cases pre with
    | nil =>
      obtain ⟨body, -, rfl⟩ := hseg
      simp only [List.nil_append, List.cons_append, List.cons.injEq] at hx
      exact absurd hx.1 hi
    | cons j pre =>
      simp only [List.cons_append, List.cons.injEq] at hx
      obtain ⟨rfl, rfl⟩ := hx
      exact ⟨pre ++ post, rfl, .spliced pre post hpost⟩

/-- Where `seg` may begin, no THEN or ELSE follows in either code. -/
theorem Ahead.noPart (h : Ahead seg (.enterAdditional :: x) y) : NoPart y := by
  rcases h.inv with rfl | ⟨pre, post, hpost, hx, rfl⟩
  · exact noPart_cons rfl rfl
  · cases pre with
    | nil => exact hpost
    | cons j pre =>
      simp only [List.cons_append, List.cons.injEq] at hx
      obtain ⟨rfl, -⟩ := hx
      exact noPart_cons rfl rfl

/-- `skip_to_end` stops before `seg` in both codes, or behind it. -/
theorem Ahead.skip (hseg : Idle seg) (h : Ahead seg x y) (d : Nat) :
    Ahead seg (x.drop (skip depthKind x d)) (y.drop (skip depthKind y d)) := by
  cases h with
  | same => exact .same _
  | spliced pre post hpost =>
    induction pre generalizing d with
    | nil =>
      cases d with
      | zero => simpa using Ahead.spliced [] post hpost
      | succ d =>
        rw [List.nil_append, List.nil_append, hseg.balanced post d, ← List.drop_drop,
          List.drop_left]
        exact .same _
    | cons i pre ih =>
      cases d with
      | zero => simpa using Ahead.spliced (i :: pre) post hpost
      | succ d =>
        simp only [List.cons_append, Brackets.skip]
        split
        · simpa using ih (d + 2)
        · simpa using ih d
        · simpa using ih (d + 1)

end Ahead

/-! ## Frames on both codes -/

/-- The same state, at places with the same code ahead. -/
structure Along (m : Machine) (code seg : List Instr) (vm vm' : Vm) : Prop where
  value : vm'.value = vm.value
  errors : vm'.errors = vm.errors
  valid : vm'.valid = vm.valid
  ahead : Ahead seg (m.code.drop vm.ip) (code.drop vm'.ip)

/-- Two functions that keep the states along one another. -/
def Follows (m : Machine) (code seg : List Instr) (f g : Vm → Except Fault Vm) : Prop :=
  ∀ vm vm', Along m code seg vm vm' → Relates (f vm) (g vm') (Along m code seg)

/-- The first program may have `seg` alone. -/
def spliceBond (seg : List Instr) : Bond where
  ahead := Ahead seg
  errors := fun e e' => e' = e
  met := fun _ => True
  special := fun i => i = .enterAdditional

section Frames

variable {m : Machine} {code seg : List Instr} {f g : Vm → Except Fault Vm} {vm vm' : Vm}

theorem spliceBond_lawful (hseg : Idle seg) : (spliceBond seg).Lawful where
  inert := by
    rintro i rfl
    exact ⟨rfl, rfl, rfl, rfl, by simp⟩
  nil _ h := Ahead.nil hseg h
  uncons _ _ _ hi h := Ahead.uncons hseg h hi
  noPart := by
    rintro i x y rfl h
    exact Ahead.noPart h
  skip _ _ d h := Ahead.skip hseg h d
  quiet := rfl
  add := by
    rintro e e' message rfl
    rfl
  item _ _ _ _ := trivial
  member _ _ _ _ := trivial
  name _ _ _ _ := trivial

theorem along_iff : Along m code seg vm vm' ↔ Linked (spliceBond seg) m code vm vm' :=
  ⟨fun h => ⟨h.value, trivial, h.errors, h.valid, h.ahead⟩,
    fun h => ⟨h.value, h.errors, h.valid, h.ahead⟩⟩

theorem follows_iff : Follows m code seg f g ↔ Follow (spliceBond seg) m code f g := by
  constructor
  · intro h vm vm' hvm
    exact (h vm vm' (along_iff.mpr hvm)).mono (fun _ _ => along_iff.mp)
  · intro h vm vm' hvm
    exact (h vm vm' (along_iff.mp hvm)).mono (fun _ _ => along_iff.mpr)

/-- Where a frame stands on ENTER_ADDITIONAL, both codes have it, or `seg` begins there. -/
theorem additional_along (hseg : Idle seg) (hcode : Tokenised m.code)
    (hf : Follow (spliceBond seg) m code f (m.on code).execute)
    (h : Linked (spliceBond seg) m code vm vm') (hget : m.code[vm.ip]? = some .enterAdditional) :
    Relates (m.dispatch f { vm with ip := vm.ip + 1 } .enterAdditional >>= f)
      ((m.on code).execute vm') (Linked (spliceBond seg) m code) := by
  have hB := spliceBond_lawful hseg
  have hahead : Ahead seg (m.code.drop vm.ip) (code.drop vm'.ip) := h.ahead
  obtain ⟨x, hx⟩ : ∃ x, m.code.drop vm.ip = .enterAdditional :: x :=
    List.head?_eq_some_iff.mp (by rw [List.head?_drop, hget])
  have hdrop : m.code.drop (vm.ip + 1) = x := drop_of_drop (x := [_]) hx
  rw [hx] at hahead
  have hcases : (∃ z, code.drop vm'.ip = .enterAdditional :: z ∧ Ahead seg x z) ∨
      .enterAdditional :: x = seg ++ code.drop vm'.ip := by
    rcases hahead.inv with hsame | ⟨pre, post, hpost, hpre, hy⟩
    · exact .inl ⟨x, hsame.symm, .same x⟩
    · cases pre with
      | nil =>
        rw [List.nil_append] at hpre hy
        exact .inr (hy ▸ hpre)
      | cons j pre =>
        simp only [List.cons_append, List.cons.injEq] at hpre hy
        obtain ⟨rfl, rfl⟩ := hpre
        exact .inl ⟨pre ++ post, hy, .spliced pre post hpost⟩
  rcases hcases with ⟨z, hz, hnext⟩ | hsplit
  · have hget' : (m.on code).code[vm'.ip]? = some .enterAdditional := getElem?_of_drop hz
    have hdrop' : code.drop (vm'.ip + 1) = z := drop_of_drop (x := [_]) hz
    rw [execute_step _ hget' (by simp)]
    refine Relates.bind (dispatch_linked hB hcode hf hget rfl (h.at ?_)) (fun vm₁ vm₁' => hf vm₁ vm₁')
    show Ahead seg _ _
    rw [hdrop, hdrop']
    exact hnext
  · show Relates (f (m.skipToEnd { vm with ip := vm.ip + 1 })) _ _
    apply hf
    obtain ⟨body, hbody, rfl⟩ := hseg
    simp only [List.cons_append, List.cons.injEq, true_and, List.append_assoc,
      List.nil_append] at hsplit
    rw [skip_body hbody { vm with ip := vm.ip + 1 } (code.drop vm'.ip) (hdrop.trans hsplit)]
    apply h.at
    have hbehind : m.code.drop (vm.ip + 1) = (body ++ [.endOp]) ++ code.drop vm'.ip := by
      rw [hdrop, hsplit]
      simp
    have hend := drop_of_drop hbehind
    rw [List.length_append, List.length_singleton] at hend
    show Ahead _ _ _
    rw [hend]
    exact .same _

/-- A frame on the longer code, with any frames below it, does what `execute` does on the
other. Where it stands on `seg` it takes one round more. -/
theorem frame_along (hseg : Idle seg) (hcode : Tokenised m.code)
    (hf : Follows m code seg f (m.on code).execute) :
    Follows m code seg (m.frame (fun _ => true) f) (m.on code).execute := by
  rw [follows_iff] at hf ⊢
  intro vm vm' h
  apply frame_linked (spliceBond_lawful hseg) hcode hf h
  rintro i hget rfl
  exact additional_along hseg hcode hf h hget

/-- Frames on a program and on the same program without `seg` give the same. -/
theorem execute_along (hseg : Idle seg) (hcode : Tokenised m.code) (h : Along m code seg vm vm') :
    Relates (m.execute vm) ((m.on code).execute vm') (Along m code seg) := by
  have hframes : ∀ k, Follows m code seg
      (Fuel.iterate (m.frame (fun _ => true)) (fun _ => .error .depth) k) (m.on code).execute := by
    apply Fuel.iterate_keeps (P := fun f => Follows m code seg f (m.on code).execute)
    · exact fun _ _ _ => Relates.error
    · exact fun _ hf => frame_along hseg hcode hf
  exact hframes _ vm vm' h

end Frames

end Machine

open Machine

/-- Programs that are the same but for such a stretch of code give the same verdicts. -/
theorem accepts_along {compiled compiled' : CompiledSchema} {seg : List Instr}
    (hsound : compiled.Sound) (hsound' : compiled'.Sound) (hregex : compiled'.regex = compiled.regex)
    (hseg : Idle seg) (hahead : Ahead seg compiled.program compiled'.program) (rt : Runtime)
    (direction : Direction) (value : Json) :
    compiled'.accepts rt direction value = compiled.accepts rt direction value := by
  obtain ⟨vm, hvm, haccepts⟩ := hsound.run rt direction value none
  obtain ⟨vm', hvm', haccepts'⟩ := hsound'.run rt direction value none
  have hmachine : compiled'.machine rt direction =
      (compiled.machine rt direction).on compiled'.program := by
    unfold CompiledSchema.machine Machine.on
    rw [hregex]
  rw [hmachine] at hvm'
  have hrun := execute_along hseg hsound.tokenised
    (⟨rfl, rfl, rfl, hahead⟩ : Along (compiled.machine rt direction) compiled'.program seg
      ⟨value, 0, none, true⟩ ⟨value, 0, none, true⟩) vm vm' hvm hvm'
  rw [haccepts, haccepts', hrun.valid]

end Liboas
