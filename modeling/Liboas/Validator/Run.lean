import Liboas.Validator.Vm
import Liboas.Lib.Outcome

/-!
# `execute` is its own loop

A frame only runs frames that start further on, and it ends no earlier than it starts.
So the fuel of `execute` is always enough, and `execute_eq` unfolds one round of the loop.
-/

namespace Liboas

open Outcome

namespace Machine

/-- A frame ends no earlier than it starts. -/
abbrev EndsAfter (vm : Vm) (r : Except Fault Vm) : Prop := Permits r (fun vm' => vm.ip ≤ vm'.ip)

/-- A function on frames that all end no earlier than they start. -/
def Forward (f : Vm → Except Fault Vm) : Prop := ∀ vm, EndsAfter vm (f vm)

/-- Two functions that agree on the frames that start at `b` or later. -/
def AgreeFrom (b : Nat) (f g : Vm → Except Fault Vm) : Prop := ∀ vm, b ≤ vm.ip → f vm = g vm

variable {m : Machine} {f g : Vm → Except Fault Vm} {vm : Vm} {b : Nat}

@[simp] theorem check_ip (vm : Vm) (failure : Option Bytes) : (vm.check failure).ip = vm.ip := by
  cases failure <;> rfl

@[simp] theorem check_value (vm : Vm) (failure : Option Bytes) :
    (vm.check failure).value = vm.value := by
  cases failure <;> rfl

theorem le_skipToEnd (m : Machine) (vm : Vm) : vm.ip ≤ (m.skipToEnd vm).ip :=
  Nat.le_add_right _ _

/-! ## A frame ends no earlier than it starts -/

theorem skip_after {r : Except Fault Vm} (h : Permits r (fun vm' => vm'.ip = vm.ip)) :
    EndsAfter vm (r >>= fun vm' => pure (m.skipToEnd vm')) := by
  refine Permits.bind (h) ?_
  intro vm' hip
  refine Permits.pure ?_
  have := le_skipToEnd m vm'
  omega

theorem runOn_ip (acc : Vm) (value : Json) :
    Permits (runOn f vm acc value) (fun vm' => vm'.ip = acc.ip) := by
  refine Permits.bind (P := fun _ => True) (fun _ _ => trivial) ?_
  intro sub _
  exact Permits.pure rfl

theorem onProp_ip (acc : Vm) (name : Bytes) :
    Permits (onProp f vm acc name) (fun vm' => vm'.ip = acc.ip) := by
  refine Permits.bind (P := fun _ => True) (fun _ _ => trivial) ?_
  intro sub _
  refine Permits.pure ?_
  split <;> rfl

theorem runOn_fold_ip (values : List Json) :
    Permits (values.foldlM (runOn f vm) vm) (fun vm' => vm'.ip = vm.ip) := by
  refine Permits.foldlM (Q := fun v : Vm => v.ip = vm.ip) rfl ?_
  intro acc hacc value _
  exact (runOn_ip acc value).mono (fun vm' h => h.trans hacc)

theorem onProp_fold_ip (names : List Bytes) :
    Permits (names.foldlM (onProp f vm) vm) (fun vm' => vm'.ip = vm.ip) := by
  refine Permits.foldlM (Q := fun v : Vm => v.ip = vm.ip) rfl ?_
  intro acc hacc name _
  exact (onProp_ip acc name).mono (fun vm' h => h.trans hacc)

theorem branchAll_after (hf : Forward f) (n : Nat) (vm : Vm) : EndsAfter vm (branchAll f n vm) := by
  induction n generalizing vm with
  | zero => exact Permits.ok (Nat.le_refl _)
  | succ n ih =>
    refine Permits.bind (hf vm) ?_
    intro sub hsub
    exact (ih _).mono (fun vm' h => Nat.le_trans hsub h)

theorem branchCount_after (hf : Forward f) (n : Nat) (vm : Vm) (passed : Nat) :
    Permits (branchCount f n vm passed) (fun r => vm.ip ≤ r.1.ip) := by
  induction n generalizing vm passed with
  | zero => exact Permits.ok (Nat.le_refl _)
  | succ n ih =>
    refine Permits.bind (hf vm.quiet) ?_
    intro sub hsub
    exact (ih _ _).mono (fun r h => Nat.le_trans hsub h)

theorem self_after (hf : Forward f) (silent : Bool) (vm : Vm) :
    EndsAfter vm (f (if silent then vm.quiet else vm)) := by
  cases silent
  · exact hf vm
  · exact hf vm.quiet

theorem passBodies_after (hf : Forward f) (silent : Bool) (n : Nat) (vm : Vm) :
    EndsAfter vm (passBodies f silent n vm) := by
  induction n generalizing vm with
  | zero => exact Permits.ok (Nat.le_refl _)
  | succ n ih =>
    refine Permits.bind (self_after hf silent vm) ?_
    intro sub hsub
    exact (ih _).mono (fun vm' h => Nat.le_trans hsub h)

theorem condPart_after (hf : Forward f) (isPart : Instr → Bool) (taken : Bool) (vm : Vm) :
    EndsAfter vm (m.condPart f isPart taken vm) := by
  unfold condPart
  split
  · split
    · dsimp only
      split
      · exact (hf _).mono (fun vm' h => Nat.le_trans (Nat.le_succ _) h)
      · exact Permits.ok (Nat.le_trans (Nat.le_succ vm.ip)
          (le_skipToEnd m { vm with ip := vm.ip + 1 }))
    · exact Permits.ok (Nat.le_refl _)
  · exact Permits.ok (Nat.le_refl _)

theorem readCount_after (atEnd : Int) (vm : Vm) :
    Permits (m.readCount atEnd vm) (fun r => vm.ip ≤ r.2.ip) := by
  unfold readCount
  split
  · refine Permits.bind (P := fun _ => True) (fun _ _ => trivial) ?_
    intro instr _
    split
    · exact Permits.pure (Nat.le_succ _)
    · exact Permits.error
  · exact Permits.pure (Nat.le_refl _)

theorem advance_after (n : Int) (vm : Vm) : EndsAfter vm (m.advance n vm) := by
  unfold advance
  split
  · exact Permits.ok (Nat.le_add_right _ _)
  · exact Permits.error

theorem requireNames_after (trigger : CStr) (n : Nat) (vm : Vm) :
    EndsAfter vm (m.requireNames trigger n vm) := by
  induction n generalizing vm with
  | zero => exact Permits.ok (Nat.le_refl _)
  | succ n ih =>
    unfold requireNames
    split
    · exact Permits.ok (Nat.le_refl _)
    · split
      · exact Permits.error
      · refine Permits.mono (ih _) ?_
        intro vm' h
        rw [check_ip] at h
        exact Nat.le_trans (Nat.le_succ _) h

theorem dispatchOn_after (hf : Forward f) (property : CStr) (start count : Nat) (vm : Vm) :
    EndsAfter vm (m.dispatchOn f property start count vm) := by
  have hpass : ∀ message, EndsAfter vm (passBodies f false count vm >>= fun vm' =>
      pure (vm'.addError message)) := by
    intro message
    refine Permits.bind ((passBodies_after hf false count vm)) ?_
    intro vm' h
    exact Permits.pure h
  unfold dispatchOn
  split
  · split
    · refine Permits.bind (P := fun _ => True) (fun _ _ => trivial) ?_
      intro found _
      split
      · exact hpass _
      · rename_i i
        refine Permits.bind ((passBodies_after hf true i vm)) ?_
        intro vm' h
        refine Permits.bind ((hf vm')) ?_
        intro sub hsub
        refine Permits.mono (passBodies_after hf true _ _) ?_
        intro vm'' h'
        exact Nat.le_trans h (Nat.le_trans hsub h')
    · exact hpass _
  · exact hpass _

theorem dispatch_after (hf : Forward f) (vm : Vm) (instr : Instr) :
    EndsAfter vm (m.dispatch f vm instr) := by
  have hskip : EndsAfter vm (.ok (m.skipToEnd vm)) := Permits.ok (le_skipToEnd m vm)
  cases instr with
  | enterItems | enterPrefixItem | enterProperty =>
    simp only [dispatch]
    split
    · exact skip_after (runOn_fold_ip _)
    · exact hskip
  | enterAdditional => exact hskip
  | branchAllOf count => exact branchAll_after hf _ vm
  | branchAnyOf count | branchOneOf count =>
    refine Permits.bind ((branchCount_after hf _ vm 0)) ?_
    intro r h
    refine Permits.pure ?_
    rw [check_ip]
    exact h
  | negate =>
    refine Permits.bind ((hf vm.quiet)) ?_
    intro sub h
    refine Permits.pure ?_
    rw [check_ip]
    exact h
  | condIf =>
    refine Permits.bind ((hf vm.quiet)) ?_
    intro sub h
    refine Permits.bind ((condPart_after hf isThen sub.valid _)) ?_
    intro vm' h'
    refine Permits.mono (condPart_after hf isElse _ vm') ?_
    intro vm'' h''
    exact Nat.le_trans h (Nat.le_trans h' h'')
  | checkPropNames =>
    simp only [dispatch]
    split
    · exact skip_after (onProp_fold_ip _)
    · exact hskip
  | checkPatternProps =>
    simp only [dispatch]
    split
    · exact skip_after (runOn_fold_ip _)
    · exact hskip
  | checkDepRequired trigger =>
    refine Permits.bind ((readCount_after 0 vm)) ?_
    intro r h
    dsimp only
    split
    · exact (requireNames_after trigger _ r.2).mono (fun vm' h' => Nat.le_trans h h')
    · exact (advance_after r.1 r.2).mono (fun vm' h' => Nat.le_trans h h')
  | checkDepSchema =>
    simp only [dispatch]
    split
    · refine Permits.bind ((hf vm)) ?_
      intro sub h
      exact Permits.pure h
    · exact hskip
  | checkContains min =>
    simp only [dispatch]
    split
    · refine Permits.bind ((readCount_after (-1) vm)) ?_
      intro r h
      refine Permits.bind (P := fun _ => True) (fun _ _ => trivial) ?_
      intro count _
      refine Permits.pure ?_
      apply Nat.le_trans h
      have := le_skipToEnd m (checkContainsBounds r.2 min r.1 count)
      simpa [checkContainsBounds] using this
    · exact hskip
  | discriminator property =>
    refine Permits.bind ((readCount_after 0 vm)) ?_
    intro r h
    refine Permits.bind ((advance_after r.1 r.2)) ?_
    intro vm' h'
    refine Permits.mono (dispatchOn_after hf property r.2.ip _ vm') ?_
    intro vm'' h''
    exact Nat.le_trans h (Nat.le_trans h' h'')
  | _ => exact Permits.ok (Nat.le_of_eq (check_ip _ _).symm)

theorem frame_after (watch : Nat → Bool) (hf : Forward f) : Forward (m.frame watch f) := by
  intro vm
  unfold frame
  split
  · split
    · exact Permits.ok (Nat.le_refl _)
    · exact Permits.ok (Nat.le_succ _)
    · refine Permits.bind (dispatch_after hf _ _) ?_
      intro vm' h
      exact (hf vm').mono (fun vm'' h' => Nat.le_trans (Nat.le_succ _) (Nat.le_trans h h'))
  · exact Permits.error

/-! ## A frame depends on the frames further on only -/

theorem runOn_congr (hfg : AgreeFrom b f g) (hb : b ≤ vm.ip) (acc : Vm) (value : Json) :
    runOn f vm acc value = runOn g vm acc value := by
  unfold runOn
  rw [hfg { acc with value := value, ip := vm.ip } hb]

theorem onProp_congr (hfg : AgreeFrom b f g) (hb : b ≤ vm.ip) (acc : Vm) (name : Bytes) :
    onProp f vm acc name = onProp g vm acc name := by
  unfold onProp
  rw [hfg { acc with value := .str (CStr.ofBytes name).bytes, ip := vm.ip } hb]

theorem countMatches_congr (hfg : AgreeFrom b f g) (hb : b ≤ vm.ip) (values : List Json) :
    countMatches f vm values = countMatches g vm values := by
  unfold countMatches
  congr
  funext n value
  dsimp only
  rw [hfg { vm.quiet with value := value } hb]

theorem branchAll_congr (hf : Forward f) (hfg : AgreeFrom b f g) (n : Nat) (vm : Vm)
    (hb : b ≤ vm.ip) : branchAll f n vm = branchAll g n vm := by
  induction n generalizing vm with
  | zero => rfl
  | succ n ih =>
    unfold branchAll
    rw [← hfg vm hb]
    refine Permits.bind_congr (hf vm) ?_
    intro sub h
    exact ih _ (Nat.le_trans hb h)

theorem branchCount_congr (hf : Forward f) (hfg : AgreeFrom b f g) (n : Nat) (vm : Vm)
    (hb : b ≤ vm.ip) (passed : Nat) : branchCount f n vm passed = branchCount g n vm passed := by
  induction n generalizing vm passed with
  | zero => rfl
  | succ n ih =>
    unfold branchCount
    rw [← hfg vm.quiet hb]
    refine Permits.bind_congr (hf vm.quiet) ?_
    intro sub h
    exact ih { vm with ip := sub.ip } (Nat.le_trans hb h) _

theorem passBodies_congr (hf : Forward f) (hfg : AgreeFrom b f g) (silent : Bool) (n : Nat)
    (vm : Vm) (hb : b ≤ vm.ip) : passBodies f silent n vm = passBodies g silent n vm := by
  induction n generalizing vm with
  | zero => rfl
  | succ n ih =>
    unfold passBodies
    have hself : f (if silent then vm.quiet else vm) = g (if silent then vm.quiet else vm) := by
      cases silent
      · exact hfg vm hb
      · exact hfg vm.quiet hb
    rw [← hself]
    refine Permits.bind_congr (self_after hf silent vm) ?_
    intro sub h
    exact ih _ (Nat.le_trans hb h)

theorem condPart_congr (hfg : AgreeFrom b f g) (isPart : Instr → Bool) (taken : Bool) (vm : Vm)
    (hb : b ≤ vm.ip) : m.condPart f isPart taken vm = m.condPart g isPart taken vm := by
  unfold condPart
  dsimp only
  rw [hfg { vm with ip := vm.ip + 1 } (Nat.le_succ_of_le hb)]

theorem dispatchOn_congr (hf : Forward f) (hfg : AgreeFrom b f g) (property : CStr)
    (start count : Nat) (vm : Vm) (hb : b ≤ vm.ip) :
    m.dispatchOn f property start count vm = m.dispatchOn g property start count vm := by
  unfold dispatchOn
  rw [passBodies_congr hf hfg false count vm hb]
  split
  · split
    · congr 1
      funext found
      cases found with
      | none => rfl
      | some i =>
        dsimp only
        rw [← passBodies_congr hf hfg true i vm hb]
        refine Permits.bind_congr (passBodies_after hf true i vm) ?_
        intro vm' h
        have hb' : b ≤ vm'.ip := Nat.le_trans hb h
        rw [← hfg vm' hb']
        refine Permits.bind_congr (hf vm') ?_
        intro sub hsub
        exact passBodies_congr hf hfg true _ _ (Nat.le_trans hb' hsub)
    · rfl
  · rfl

theorem dispatch_congr (hf : Forward f) (hfg : AgreeFrom b f g) (vm : Vm) (hb : b ≤ vm.ip)
    (instr : Instr) : m.dispatch f vm instr = m.dispatch g vm instr := by
  have hrun : runOn f vm = runOn g vm := by
    funext acc value
    exact runOn_congr hfg hb acc value
  cases instr with
  | enterItems | enterPrefixItem | enterProperty | checkPatternProps =>
    simp only [dispatch]
    rw [hrun]
  | checkPropNames =>
    have honprop : onProp f vm = onProp g vm := by
      funext acc name
      exact onProp_congr hfg hb acc name
    simp only [dispatch]
    rw [honprop]
  | branchAllOf count => exact branchAll_congr hf hfg _ vm hb
  | branchAnyOf count | branchOneOf count =>
    simp only [dispatch]
    rw [branchCount_congr hf hfg _ vm hb]
  | negate =>
    simp only [dispatch]
    rw [hfg vm.quiet hb]
  | condIf =>
    simp only [dispatch]
    rw [← hfg vm.quiet hb]
    refine Permits.bind_congr (hf vm.quiet) ?_
    intro sub h
    have hb' : b ≤ sub.ip := Nat.le_trans hb h
    rw [← condPart_congr (m := m) hfg isThen sub.valid { vm with ip := sub.ip } hb']
    refine Permits.bind_congr (condPart_after hf isThen sub.valid _) ?_
    intro vm' h'
    exact condPart_congr hfg isElse _ vm' (Nat.le_trans hb' h')
  | checkDepSchema trigger =>
    simp only [dispatch]
    rw [hfg vm hb]
  | checkContains min =>
    simp only [dispatch]
    split
    · refine Permits.bind_congr (readCount_after (-1) vm) ?_
      intro r h
      rw [countMatches_congr hfg (Nat.le_trans hb h)]
    · rfl
  | discriminator property =>
    simp only [dispatch]
    refine Permits.bind_congr (readCount_after 0 vm) ?_
    intro r h
    refine Permits.bind_congr (advance_after r.1 r.2) ?_
    intro vm' h'
    exact dispatchOn_congr hf hfg property _ _ vm' (Nat.le_trans hb (Nat.le_trans h h'))
  | _ => rfl

theorem frame_decreasing (m : Machine) (watch : Nat → Bool) :
    Fuel.Decreasing (m.frame watch) (fun _ => .error .depth) m.left EndsAfter where
  bottom _ := Permits.error
  good _ hf vm := frame_after watch hf vm
  agree f g hf hg vm hagree := by
    unfold frame
    split
    · split
      · rfl
      · rfl
      · rename_i instr _ hinstr
        have hlt : vm.ip < m.code.length := (List.getElem?_eq_some_iff.mp hinstr).1
        have hfg : AgreeFrom (vm.ip + 1) f g := by
          intro t ht
          exact hagree t (by unfold left; omega)
        rw [← dispatch_congr hf hfg { vm with ip := vm.ip + 1 } (Nat.le_refl _)]
        refine Permits.bind_congr (dispatch_after hf _ _) ?_
        intro vm' h
        exact hfg vm' h
    · rfl

/-! ## The loop of `execute` -/

theorem executeWatched_eq (m : Machine) (watch : Nat → Bool) (vm : Vm) :
    m.executeWatched watch vm = m.frame watch (m.executeWatched watch) vm :=
  Fuel.run_eq (m.frame_decreasing watch) vm

theorem execute_eq (m : Machine) (vm : Vm) :
    m.execute vm = m.frame (fun _ => true) m.execute vm :=
  m.executeWatched_eq _ vm

/-- At the end of the program a frame ends. -/
theorem execute_past (m : Machine) {vm : Vm} (h : m.code[vm.ip]? = none) :
    m.execute vm = .ok vm := by
  rw [execute_eq, frame, h]
  rfl

theorem execute_end (m : Machine) (vm : Vm) (h : m.code[vm.ip]? = some .endOp) :
    m.execute vm = .ok { vm with ip := vm.ip + 1 } := by
  rw [execute_eq, frame, h]
  rfl

theorem execute_step (m : Machine) {vm : Vm} {instr : Instr} (h : m.code[vm.ip]? = some instr)
    (hend : instr ≠ .endOp) :
    m.execute vm = m.dispatch m.execute { vm with ip := vm.ip + 1 } instr >>= m.execute := by
  rw [execute_eq, frame, h]
  cases instr with
  | endOp => exact absurd rfl hend
  | _ => rfl

/-! ## Inline operands -/

theorem getElem?_of_drop {code : List Instr} {n : Nat} {i : Instr} {rest : List Instr}
    (h : code.drop n = i :: rest) : code[n]? = some i := by
  rw [← List.head?_drop, h]
  rfl

theorem drop_of_drop {code x rest : List Instr} {n : Nat} (h : code.drop n = x ++ rest) :
    code.drop (n + x.length) = rest := by
  rw [← List.drop_drop, h, List.drop_left]

theorem readCount_ok {atEnd n : Int} {rest : List Instr} (vm : Vm)
    (h : m.code.drop vm.ip = .nopCount n :: rest) :
    m.readCount atEnd vm = .ok (n, { vm with ip := vm.ip + 1 }) := by
  have hget := getElem?_of_drop h
  have hlt : vm.ip < m.code.length := (List.getElem?_eq_some_iff.mp hget).1
  rw [readCount, if_pos hlt, read, hget]
  rfl

theorem advance_ok {x rest : List Instr} (vm : Vm) (h : m.code.drop vm.ip = x ++ rest)
    (hle : vm.ip ≤ m.code.length) :
    m.advance x.length vm = .ok { vm with ip := vm.ip + x.length } := by
  have hlen := congrArg List.length h
  simp only [List.length_drop, List.length_append] at hlen
  rw [advance, if_pos ⟨Int.natCast_nonneg _, by simp; omega⟩]
  rfl

/-- The names are looked up in the value, one by one. -/
theorem requireNames_ok (trigger : CStr) (names : List (Option CStr)) (rest : List Instr)
    (vm : Vm) (h : m.code.drop vm.ip = names.map .nopName ++ rest) :
    ∃ errors, m.requireNames trigger names.length vm = .ok
      { value := vm.value, ip := vm.ip + names.length, errors := errors,
        valid := vm.valid && names.all (fun name => (vm.value.objGet name).isSome) } := by
  induction names generalizing vm with
  | nil => exact ⟨vm.errors, by simp [requireNames]⟩
  | cons name names ih =>
    rw [List.map_cons, List.cons_append] at h
    have hdrop : m.code.drop (vm.ip + 1) = names.map .nopName ++ rest :=
      drop_of_drop (x := [Instr.nopName name]) h
    rw [List.length_cons, requireNames, getElem?_of_drop h]
    simp only [Instr.operandStr]
    generalize hfailure : failIf (vm.value.objGet name).isNone _ = failure
    obtain ⟨errors, hrest⟩ := ih ({ vm with ip := vm.ip + 1 }.check failure)
      (by rw [check_ip]; exact hdrop)
    refine ⟨errors, hrest.trans ?_⟩
    cases hget : vm.value.objGet name with
    | none =>
      rw [hget] at hfailure
      subst hfailure
      simp [failIf, Vm.check, Vm.addError, hget]
      omega
    | some v =>
      rw [hget] at hfailure
      subst hfailure
      simp [failIf, Vm.check, hget]
      omega

theorem findKey_ok (start : Nat) (wanted : CStr) (keys : List CStr) (rest : List Instr) (i : Nat)
    (h : m.code.drop (start + i) = keys.map (fun key => .nopName (some key)) ++ rest) :
    m.findKey start wanted keys.length i =
      .ok ((keys.findIdx? (fun key => key == wanted)).map (· + i)) := by
  induction keys generalizing i with
  | nil => rfl
  | cons key keys ih =>
    rw [List.map_cons, List.cons_append] at h
    have hdrop : m.code.drop (start + (i + 1)) =
        keys.map (fun key => .nopName (some key)) ++ rest :=
      drop_of_drop (x := [Instr.nopName (some key)]) h
    rw [List.length_cons, findKey, read, getElem?_of_drop h, List.findIdx?_cons]
    by_cases hkey : key = wanted
    · simp [Instr.operandStr, hkey, bind, Except.bind, pure, Except.pure]
    · simp only [Instr.operandStr, hkey, bind, Except.bind, if_false, ih (i + 1) hdrop]
      simp [hkey, Function.comp_def]
      congr 1
      funext j
      omega

end Machine

end Liboas
