import Liboas.Validator.Alongside
import Liboas.Validator.Asserted
import Liboas.Validator.Flag

/-!
# Errors after a failure

A frame that runs only for its verdict starts with the flag of the one that runs it. After a
failure it has failed before it starts. So `anyOf` then finds no branch, `not` is content, and
`if` goes to `else`, and the errors that they report are not those that they report alone.
-/

namespace Liboas

open Outcome

namespace Machine

/-! ## What is reported alone -/

/-- The same place and value, without a failure and with an empty list. -/
def alone (vm : Vm) : Vm := { vm with errors := some [], valid := true }

/-- The keyword at `ip` reports what it reports alone, and ends there. -/
def reportsAlone (m : Machine) (vm : Vm) : Bool :=
  match m.code[vm.ip]? with
  | none | some .endOp => true
  | some instr => !decide (Boundary m.code vm.ip) ||
    match m.dispatch m.execute { vm with ip := vm.ip + 1 } instr,
        m.dispatch m.execute { alone vm with ip := vm.ip + 1 } instr with
    | .ok r, .ok r' => r.errors == vm.errors.map (· ++ r'.errors.getD []) && r.ip == r'.ip
    | _, _ => false

/-! ## What an earlier failure does not change -/

/-- What a quiet computation finds in the state, and what it finds there without a failure. -/
def settled {α : Type} (agree : α → α → Bool) (run : Vm → Except Fault α) (vm : Vm) : Bool :=
  match run vm.quiet, run { vm.quiet with valid := true } with
  | .ok a, .ok b => agree a b
  | _, _ => true

/-- The verdict of a frame, and where it ends. -/
def verdict (m : Machine) (vm : Vm) : Except Fault (Bool × Nat) := do
  let sub ← m.execute vm
  return (sub.valid, sub.ip)

/-- How many branches pass, and where the last one ends. -/
def branchesPassed (m : Machine) (count : Nat) (vm : Vm) : Except Fault (Nat × Nat) := do
  let (vm, passed) ← branchCount m.execute count vm 0
  return (passed, vm.ip)

/-- Neither COND_THEN nor COND_ELSE. -/
def partless (m : Machine) (ip : Nat) : Bool :=
  m.code[ip]?.all (fun i => !isThen i && !isElse i)

/-- The upper bound of `contains`, and the number of items that match. -/
def itemsMatched (m : Machine) (items : List Json) (vm : Vm) : Except Fault (Int × Nat) := do
  let (max, vm) ← m.readCount (-1) vm
  let count ← countMatches m.execute vm items
  return (max, count)

def inBounds (min max : Int) (count : Nat) : Bool :=
  !decide ((count : Int) < min) && !decide (0 ≤ max ∧ (count : Int) > max)

/-- Where a discriminator starts and ends the body that it chooses. -/
def chosenPlaces (m : Machine) (property : CStr) (vm : Vm) : Except Fault (Nat × Nat) := do
  let (count, vm) ← m.readCount 0 vm
  let start := vm.ip
  let vm ← m.advance count vm
  match vm.value, vm.value.objGet (some property) with
  | .obj _, some (.str wanted) => do
    match ← m.findKey start (CStr.ofBytes wanted) count.toNat 0 with
    | none => return (vm.ip, vm.ip)
    | some i =>
      let vm ← passBodies m.execute true i vm
      let sub ← m.execute vm
      let last ← passBodies m.execute true (count.toNat - (i + 1))
        { vm.merge sub with ip := sub.ip }
      return (vm.ip, last.ip)
  | _, _ => return (vm.ip, vm.ip)

/-- What the keyword at `ip` tries quietly comes out as it does without an earlier failure. -/
def unmoved (m : Machine) (vm : Vm) : Bool :=
  let next : Vm := { vm with ip := vm.ip + 1 }
  match m.code[vm.ip]? with
  | some (.branchAnyOf count) | some (.branchOneOf count) =>
    settled (· == ·) (m.branchesPassed count.toNat) next
  | some .negate => settled (· == ·) m.verdict next
  | some .condIf =>
    settled (fun a b => a.2 == b.2 && (a.1 == b.1 || m.partless a.2)) m.verdict next
  | some .checkPropNames => match vm.value with
    -- after the first name the flags are the same
    | .obj ((name, _) :: _) =>
      settled (· == ·) m.verdict { next with value := .str (CStr.ofBytes name).bytes }
    | _ => true
  | some (.checkContains min) => match vm.value with
    | .arr items => settled (fun a b => a == b || (a.1 == b.1 && inBounds min a.1 a.2 &&
        inBounds min b.1 b.2)) (m.itemsMatched items) next
    | _ => true
  | some (.discriminator property) => settled (· == ·) (m.chosenPlaces property) next
  | _ => true

/-! ## A state beside a fresher one -/

/-- The same place and value. The second state has only the errors behind `base`, and it has not
failed where the first has not. -/
structure Beside (base : List OasError) (vm vm' : Vm) : Prop where
  value : vm'.value = vm.value
  ip : vm'.ip = vm.ip
  listed : ∃ e, vm'.errors = some e ∧ vm.errors = some (base ++ e)
  fresher : vm.valid = true → vm'.valid = true

/-- Two functions that keep the states beside one another. -/
def Accompanies (base : List OasError) (f g : Vm → Except Fault Vm) : Prop :=
  ∀ vm vm', Beside base vm vm' → Relates (f vm) (g vm') (Beside base)

section Beside

variable {m : Machine} {base : List OasError} {f : Vm → Except Fault Vm} {vm vm' : Vm}

theorem Beside.at (h : Beside base vm vm') (ip : Nat) :
    Beside base { vm with ip := ip } { vm' with ip := ip } :=
  ⟨h.value, rfl, h.listed, h.fresher⟩

theorem Beside.addError (h : Beside base vm vm') (message : Bytes) :
    Beside base (vm.addError message) (vm'.addError message) := by
  obtain ⟨e, he', he⟩ := h.listed
  refine ⟨h.value, h.ip, ⟨e ++ [⟨.constraint, printInto 1024 (printInto 256 message), []⟩], ?_, ?_⟩,
    fun hvalid => hvalid⟩
  · simp [Vm.addError, he', ErrorList.add]
  · simp [Vm.addError, he, ErrorList.add]

theorem Beside.check (h : Beside base vm vm') (failure : Option Bytes) :
    Beside base (vm.check failure) (vm'.check failure) := by
  cases failure with
  | none => exact h
  | some message => exact h.addError message

theorem Beside.merge (h : Beside base vm vm') {sub sub' : Vm} (hsub : Beside base sub sub') :
    Beside base (vm.merge sub) (vm'.merge sub') := by
  refine ⟨h.value, h.ip, hsub.listed, ?_⟩
  unfold Vm.merge
  simp only [Bool.and_eq_true]
  exact fun hvalid => ⟨h.fresher hvalid.1, hsub.fresher hvalid.2⟩

theorem beside_alongside (base : List OasError) : Alongside (Beside base) where
  value h := h.value
  ip h := h.ip
  move h _ _ := ⟨rfl, rfl, h.listed, h.fresher⟩
  addError h := h.addError
  merge h hsub := h.merge hsub

theorem Beside.skip (h : Beside base vm vm') : Beside base (m.skipToEnd vm) (m.skipToEnd vm') :=
  (beside_alongside base).skip (Twin.refl m) h

/-- Two states with one flag are the same without their lists. -/
theorem Beside.quiet_eq (h : Beside base vm vm') (hvalid : vm'.valid = vm.valid) :
    vm'.quiet = vm.quiet := by
  unfold Vm.quiet
  rw [← h.value, ← h.ip, ← hvalid]

/-- What is settled comes out the same beside a fresher state. -/
theorem Beside.settled {α : Type} {agree : α → α → Bool} {run : Vm → Except Fault α}
    (h : Beside base vm vm') (hsettled : settled agree run vm = true)
    (hrefl : ∀ a, agree a a = true) :
    Relates (run vm.quiet) (run vm'.quiet) (fun a b => agree a b = true) := by
  intro a b ha hb
  by_cases hvalid : vm'.valid = vm.valid
  · rw [h.quiet_eq hvalid, ha] at hb
    cases hb
    exact hrefl a
  · have hset : vm'.valid = true := by
      cases hv : vm.valid with
      | true => exact h.fresher hv
      | false => simpa [hv] using hvalid
    have hfresh : vm'.quiet = { vm.quiet with valid := true } := by
      unfold Vm.quiet
      rw [← h.value, ← h.ip, ← hset]
    unfold Machine.settled at hsettled
    rw [ha, ← hfresh, hb] at hsettled
    exact hsettled

/-- A frame that reports gives the verdict of the quiet one. -/
theorem verdict_quiet (hf : Below f m.execute) {s : Vm} (hs : f vm = .ok s) :
    m.verdict vm.quiet = .ok (s.valid, s.ip) := by
  unfold verdict
  rw [execute_quiet, hf vm s hs]
  rfl

theorem verdict_quiet_quiet (hf : Below f m.execute) {s : Vm} (hs : f vm.quiet = .ok s) :
    m.verdict vm.quiet = .ok (s.valid, s.ip) := by
  show m.verdict vm.quiet.quiet = _
  exact verdict_quiet hf hs

/-- A quiet frame that is settled. -/
theorem Beside.frame (h : Beside base vm vm') (hf : Below f m.execute)
    {agree : Bool × Nat → Bool × Nat → Bool} (hsettled : Machine.settled agree m.verdict vm = true)
    (hrefl : ∀ a, agree a a = true) :
    Relates (f vm.quiet) (m.execute vm'.quiet)
      (fun s s' => agree (s.valid, s.ip) (s'.valid, s'.ip) = true) :=
  fun _ _ hs hs' => h.settled hsettled hrefl _ _ (verdict_quiet_quiet hf hs)
    (verdict_quiet_quiet (fun _ => Refines.refl _) hs')

/-- Frames with one flag have one verdict. -/
theorem Beside.same_verdict (h : Beside base vm vm') (hf : Below f m.execute)
    (hvalid : vm'.valid = vm.valid) :
    Relates (f vm) (m.execute vm') (fun s s' => s'.valid = s.valid) := by
  intro s s' hs hs'
  have hverdict := verdict_quiet hf hs
  have hverdict' : m.verdict vm'.quiet = .ok (s'.valid, s'.ip) :=
    verdict_quiet (fun _ => Refines.refl _) hs'
  rw [h.quiet_eq hvalid, hverdict] at hverdict'
  exact (congrArg Prod.fst (Except.ok.inj hverdict')).symm

/-! ## One instruction -/

/-- One name, where both frames decide the same of it: then both have failed, or neither. -/
theorem onProp_beside (hf : Accompanies base f m.execute) (hbelow : Below f m.execute)
    (hip : vm'.ip = vm.ip) {acc acc' : Vm} (h : Beside base acc acc') (name : Bytes)
    (hsame : Relates (f { acc with value := .str (CStr.ofBytes name).bytes, ip := vm.ip })
      (m.execute { acc' with value := .str (CStr.ofBytes name).bytes, ip := vm'.ip })
      (fun s s' => s'.valid = s.valid)) :
    Relates (onProp f vm acc name) (onProp m.execute vm' acc' name)
      (fun r r' => Beside base r r' ∧ r'.valid = r.valid) := by
  intro r r' hr hr'
  obtain ⟨sub, hsub, hr⟩ := bind_eq_ok.mp hr
  obtain ⟨sub', hsub', hr'⟩ := bind_eq_ok.mp hr'
  have hbeside := hf { acc with value := .str (CStr.ofBytes name).bytes, ip := vm.ip }
    { acc' with value := .str (CStr.ofBytes name).bytes, ip := vm'.ip }
    ⟨rfl, hip, h.listed, h.fresher⟩ sub sub' hsub hsub'
  have hvalid := hsame sub sub' hsub hsub'
  have hacc : Beside base { acc with errors := sub.errors } { acc' with errors := sub'.errors } :=
    ⟨h.value, h.ip, hbeside.listed, h.fresher⟩
  obtain ⟨e, -, he⟩ := h.listed
  have htold := execute_told m _ (by rw [he]; rfl) sub (hbelow _ sub hsub)
  rw [hvalid] at hr'
  cases hset : sub.valid with
  | true =>
    rw [hset] at hr hr'
    cases hr
    cases hr'
    -- a frame that ends with its flag set has started with it set
    have hstart : acc.valid = true := by
      by_contra hne
      have hfalse := htold.sticks (by simpa using hne)
      rw [hset] at hfalse
      cases hfalse
    exact ⟨hacc, (h.fresher hstart).trans hstart.symm⟩
  | false =>
    rw [hset] at hr hr'
    cases hr
    cases hr'
    exact ⟨hacc.addError _, rfl⟩

theorem onProp_fold_beside (hf : Accompanies base f m.execute) (hbelow : Below f m.execute)
    (h : Beside base vm vm') (names : List Bytes)
    (hfirst : ∀ name ∈ names.head?, settled (· == ·) m.verdict
      { vm with value := .str (CStr.ofBytes name).bytes } = true) :
    Relates (names.foldlM (onProp f vm) vm) (names.foldlM (onProp m.execute vm') vm')
      (Beside base) := by
  cases names with
  | nil => exact Relates.pure h
  | cons name names =>
    rw [List.foldlM_cons, List.foldlM_cons]
    have hstart : Beside base { vm with value := .str (CStr.ofBytes name).bytes }
        { vm' with value := .str (CStr.ofBytes name).bytes } := ⟨rfl, h.ip, h.listed, h.fresher⟩
    have hsame : Relates (f { vm with value := .str (CStr.ofBytes name).bytes })
        (m.execute { vm' with value := .str (CStr.ofBytes name).bytes })
        (fun s s' => s'.valid = s.valid) := by
      intro s s' hs hs'
      have hverdict := hstart.settled (hfirst name rfl) (fun a => beq_self_eq_true a) _ _
        (verdict_quiet hbelow hs) (verdict_quiet (fun _ => Refines.refl _) hs')
      simpa using (congrArg Prod.fst (eq_of_beq hverdict)).symm
    refine Relates.bind (onProp_beside hf hbelow h.ip h name hsame) ?_
    rintro acc acc' ⟨hacc, hvalid⟩
    -- from here on the flags are the same
    refine (Relates.foldlM (S := fun r r' => Beside base r r' ∧ r'.valid = r.valid) names ?_
      ⟨hacc, hvalid⟩).mono (fun r r' h => h.1)
    rintro b b' ⟨hb, hbvalid⟩ next
    have hnext : Beside base { b with value := .str (CStr.ofBytes next).bytes, ip := vm.ip }
        { b' with value := .str (CStr.ofBytes next).bytes, ip := vm'.ip } :=
      ⟨rfl, h.ip, hb.listed, hb.fresher⟩
    exact onProp_beside hf hbelow h.ip hb next (hnext.same_verdict hbelow hbvalid)

/-- Quiet frames move the place only. -/
theorem branchCount_moves (n : Nat) (s : Vm) (passed : Nat) :
    Permits (branchCount f n s passed) (fun r => r.1 = { s with ip := r.1.ip }) := by
  induction n generalizing s passed with
  | zero => exact Permits.ok rfl
  | succ n ih =>
    refine Permits.bind (P := fun _ => True) (fun _ _ => trivial) ?_
    intro sub _
    exact ih { s with ip := sub.ip } _

theorem passBodies_moves (n : Nat) (s : Vm) :
    Permits (passBodies f true n s) (fun s' => s' = { s with ip := s'.ip }) := by
  induction n generalizing s with
  | zero => exact Permits.ok rfl
  | succ n ih =>
    refine Permits.bind (P := fun _ => True) (fun _ _ => trivial) ?_
    intro sub _
    exact ih { s with ip := sub.ip }

theorem branchesPassed_quiet (hbelow : Below f m.execute) {n : Nat} {r : Vm × Nat}
    (hr : branchCount f n vm 0 = .ok r) : m.branchesPassed n vm.quiet = .ok (r.2, r.1.ip) := by
  have hrun := branchCount_refines hbelow n vm 0 r hr
  have hquiet : branchCount m.execute n vm.quiet 0 = _ := branchCount_deaf n vm 0
  rw [branchesPassed, hquiet, hrun]
  rfl

theorem branchCount_beside (hbelow : Below f m.execute) (n : Nat) (h : Beside base vm vm')
    (hsettled : settled (· == ·) (m.branchesPassed n) vm = true) :
    Relates (branchCount f n vm 0) (branchCount m.execute n vm' 0)
      (fun r r' => Beside base r.1 r'.1 ∧ r'.2 = r.2) := by
  intro r r' hr hr'
  have hfound := eq_of_beq (h.settled hsettled (fun a => beq_self_eq_true a) _ _
    (branchesPassed_quiet hbelow hr) (branchesPassed_quiet (fun _ => Refines.refl _) hr'))
  have hip : r'.1.ip = r.1.ip := (congrArg Prod.snd hfound).symm
  refine ⟨?_, (congrArg Prod.fst hfound).symm⟩
  rw [branchCount_moves n vm 0 r hr, branchCount_moves n vm' 0 r' hr']
  rw [hip]
  exact h.at _

theorem passBodies_beside (hf : Accompanies base f m.execute) (n : Nat) (h : Beside base vm vm') :
    Relates (passBodies f false n vm) (passBodies m.execute false n vm') (Beside base) := by
  induction n generalizing vm vm' with
  | zero => exact Relates.ok h
  | succ n ih =>
    refine Relates.bind (hf vm vm' h) ?_
    intro sub sub' hsub
    exact ih ⟨h.value, hsub.ip, hsub.listed, h.fresher⟩

theorem condPart_beside (hf : Accompanies base f m.execute) (isPart : Instr → Bool) (taken : Bool)
    (h : Beside base vm vm') :
    Relates (m.condPart f isPart taken vm) (m.condPart m.execute isPart taken vm')
      (Beside base) := by
  unfold condPart
  rw [h.ip]
  split
  · refine Relates.ite Iff.rfl ?_ (Relates.ok h)
    have hnext := h.at (vm.ip + 1)
    cases taken
    · exact Relates.ok hnext.skip
    · exact hf _ _ hnext
  · exact Relates.ok h

/-- Where no part stands, `if` goes on. -/
theorem condPart_partless {isPart : Instr → Bool} (hpart : isPart = isThen ∨ isPart = isElse)
    {s : Vm} (h : m.partless s.ip = true) (taken : Bool) : m.condPart f isPart taken s = .ok s := by
  unfold condPart
  unfold partless at h
  split
  · rename_i instr hinstr
    rw [hinstr] at h
    simp only [Option.all_some, Bool.and_eq_true, Bool.not_eq_true'] at h
    rcases hpart with rfl | rfl
    · rw [h.1]
      rfl
    · rw [h.2]
      rfl
  · rfl

theorem condParts_partless {s : Vm} (h : m.partless s.ip = true) (taken : Bool) :
    (m.condPart f isThen taken s >>= m.condPart f isElse (!taken)) = .ok s := by
  rw [condPart_partless (.inl rfl) h]
  exact condPart_partless (.inr rfl) h _

/-- The places of a discriminator that has chosen a body. -/
theorem chosenPlaces_quiet (hbelow : Below f m.execute) {property : CStr} {members : List (Bytes × Json)}
    {wanted : Bytes} {i : Nat} {r : Int × Vm} {s₁ s₂ sub last : Vm}
    (hvalue : s₁.value = .obj members) (hget : s₁.value.objGet (some property) = some (.str wanted))
    (hcount : m.readCount 0 vm = .ok r) (hadvance : m.advance r.1 r.2 = .ok s₁)
    (hkey : m.findKey r.2.ip (CStr.ofBytes wanted) r.1.toNat 0 = .ok (some i))
    (hfirst : passBodies f true i s₁ = .ok s₂) (hsub : f s₂ = .ok sub)
    (hlast : passBodies f true (r.1.toNat - (i + 1)) { s₂.merge sub with ip := sub.ip } =
      .ok last) : m.chosenPlaces property vm.quiet = .ok (s₂.ip, last.ip) := by
  have hcount' : m.readCount 0 vm.quiet = .ok (r.1, r.2.quiet) := by
    rw [readCount_deaf 0 vm, hcount]
    rfl
  have hadvance' : m.advance r.1 r.2.quiet = .ok s₁.quiet := by
    rw [advance_deaf r.1 r.2, hadvance]
    rfl
  have hfirst' : passBodies m.execute true i s₁.quiet = .ok s₂.quiet := by
    rw [passBodies_deaf m.execute_quiet true i s₁, passBodies_refines hbelow true i s₁ s₂ hfirst]
    rfl
  have hsub' : m.execute s₂.quiet = .ok sub.quiet := by
    rw [execute_quiet, hbelow s₂ sub hsub]
    rfl
  have hlast' : passBodies m.execute true (r.1.toNat - (i + 1))
      { s₂.quiet.merge sub.quiet with ip := sub.quiet.ip } = .ok last.quiet := by
    have hmirror := passBodies_deaf m.execute_quiet true (r.1.toNat - (i + 1))
      { s₂.merge sub with ip := sub.ip }
    rw [passBodies_refines hbelow true _ _ last hlast] at hmirror
    exact hmirror
  unfold chosenPlaces
  rw [hcount']
  show (do let vm ← m.advance r.1 r.2.quiet; _) = _
  rw [hadvance']
  rw [hvalue] at hget
  simp only [quiet_ip] at hlast'
  simp only [bind, Except.bind, quiet_value, quiet_ip, hvalue, hget, hkey, hfirst', hsub', hlast',
    pure, Except.pure]

theorem discriminator_beside (hf : Accompanies base f m.execute) (hbelow : Below f m.execute)
    (property : CStr) (h : Beside base vm vm')
    (hsettled : settled (· == ·) (m.chosenPlaces property) vm = true) :
    Relates (m.dispatch f vm (.discriminator property))
      (m.dispatch m.execute vm' (.discriminator property)) (Beside base) := by
  have hself : Below m.execute m.execute := fun _ => Refines.refl _
  intro t t' ht ht'
  obtain ⟨r, hcount, ht⟩ := bind_eq_ok.mp ht
  obtain ⟨r', hcount', ht'⟩ := bind_eq_ok.mp ht'
  obtain ⟨hnumber, hr⟩ := readCount_alongside (beside_alongside base) (Twin.refl m) 0 h r r' hcount hcount'
  obtain ⟨s₁, hadvance, ht⟩ := bind_eq_ok.mp ht
  obtain ⟨s₁', hadvance', ht'⟩ := bind_eq_ok.mp ht'
  rw [hnumber] at hadvance' ht'
  have hs := advance_alongside (beside_alongside base) (Twin.refl m) r.1 hr s₁ s₁' hadvance hadvance'
  have hpass : ∀ message, Relates
      (passBodies f false r.1.toNat s₁ >>= fun vm => pure (vm.addError message))
      (passBodies m.execute false r.1.toNat s₁' >>= fun vm => pure (vm.addError message))
      (Beside base) := by
    intro message
    refine Relates.bind (passBodies_beside hf _ hs) ?_
    intro s s' hbeside
    exact Relates.pure (hbeside.addError message)
  unfold dispatchOn at ht ht'
  rw [hs.value, hr.ip] at ht'
  split at ht
  · rename_i members hvalue
    rw [hvalue] at ht ht'
    dsimp only at ht ht'
    split at ht
    · rename_i wanted hget
      rw [hget] at ht'
      dsimp only at ht'
      obtain ⟨found, hfound, ht⟩ := bind_eq_ok.mp ht
      obtain ⟨found', hfound', ht'⟩ := bind_eq_ok.mp ht'
      rw [hfound] at hfound'
      cases hfound'
      cases found with
      | none => exact hpass _ t t' ht ht'
      | some i =>
        obtain ⟨s₂, hfirst, ht⟩ := bind_eq_ok.mp ht
        obtain ⟨s₂', hfirst', ht'⟩ := bind_eq_ok.mp ht'
        obtain ⟨sub, hsub, hlast⟩ := bind_eq_ok.mp ht
        obtain ⟨sub', hsub', hlast'⟩ := bind_eq_ok.mp ht'
        rw [← hvalue] at hget
        have hplaces := chosenPlaces_quiet hbelow hvalue hget hcount hadvance hfound hfirst hsub hlast
        have hplaces' := chosenPlaces_quiet hself (hs.value.trans hvalue)
          (by rw [hs.value]; exact hget) hcount' (by rw [hnumber]; exact hadvance')
          (by rw [hnumber, hr.ip]; exact hfound) hfirst' hsub' (by rw [hnumber]; exact hlast')
        have hsame := eq_of_beq (h.settled hsettled (fun a => beq_self_eq_true a) _ _ hplaces hplaces')
        have hs₂ : Beside base s₂ s₂' := by
          have hip : s₂'.ip = s₂.ip := (congrArg Prod.fst hsame).symm
          rw [passBodies_moves i s₁ s₂ hfirst, passBodies_moves i s₁' s₂' hfirst', hip]
          exact hs.at _
        have hip : t'.ip = t.ip := (congrArg Prod.snd hsame).symm
        rw [passBodies_moves _ _ t hlast, passBodies_moves _ _ t' hlast', hip]
        exact (hs₂.merge (hf s₂ s₂' hs₂ sub sub' hsub hsub')).at t.ip
    · rename_i hother
      split at ht'
      · rename_i wanted hget
        exact absurd hget (hother wanted)
      · exact hpass _ t t' ht ht'
  · rename_i hother
    split at ht'
    · rename_i members hvalue
      exact absurd hvalue (hother members)
    · exact hpass _ t t' ht ht'

theorem contains_beside (hbelow : Below f m.execute) (min : Int) (h : Beside base vm vm')
    {items : List Json}
    (hsettled : settled (fun a b => a == b || (a.1 == b.1 && inBounds min a.1 a.2 &&
      inBounds min b.1 b.2)) (m.itemsMatched items) vm = true) :
    Relates
      (m.readCount (-1) vm >>= fun r => countMatches f r.2 items >>= fun count =>
        pure (m.skipToEnd (checkContainsBounds r.2 min r.1 count)))
      (m.readCount (-1) vm' >>= fun r => countMatches m.execute r.2 items >>= fun count =>
        pure (m.skipToEnd (checkContainsBounds r.2 min r.1 count)))
      (Beside base) := by
  have hquiet : ∀ {f : Vm → Except Fault Vm} {vm : Vm} {r : Int × Vm} {n : Nat},
      Below f m.execute → m.readCount (-1) vm = .ok r → countMatches f r.2 items = .ok n →
      m.itemsMatched items vm.quiet = .ok (r.1, n) := by
    intro f vm r n hbelow hr hn
    have hcount : m.readCount (-1) vm.quiet = .ok (r.1, r.2.quiet) := by
      rw [readCount_deaf (-1) vm, hr]
      rfl
    have hmatches : countMatches m.execute r.2.quiet items = .ok n :=
      countMatches_refines hbelow r.2 items n hn
    rw [itemsMatched, hcount]
    show (do let count ← countMatches m.execute r.2.quiet items; pure (r.1, count)) = _
    rw [hmatches]
    rfl
  intro t t' ht ht'
  obtain ⟨r, hr, ht⟩ := bind_eq_ok.mp ht
  obtain ⟨r', hr', ht'⟩ := bind_eq_ok.mp ht'
  obtain ⟨hmax, hbeside⟩ := readCount_alongside (beside_alongside base) (Twin.refl m) (-1) h r r' hr hr'
  obtain ⟨n, hn, ht⟩ := bind_eq_ok.mp ht
  obtain ⟨n', hn', ht'⟩ := bind_eq_ok.mp ht'
  cases ht
  cases ht'
  have hagree := h.settled hsettled (fun a => by simp) _ _ (hquiet hbelow hr hn)
    (hquiet (fun _ => Refines.refl _) hr' hn')
  rw [hmax] at hagree ⊢
  apply Beside.skip
  simp only [Bool.or_eq_true, Bool.and_eq_true, beq_iff_eq, true_and, Prod.mk.injEq] at hagree
  rcases hagree with rfl | ⟨hin, hin'⟩
  · exact (hbeside.check _).check _
  · -- neither count is told of
    simp only [inBounds, Bool.and_eq_true, Bool.not_eq_true'] at hin hin'
    simp only [checkContainsBounds, hin.1, hin.2, hin'.1, hin'.2]
    exact hbeside

/-- One instruction, of a keyword that is not moved. -/
theorem dispatch_beside (hf : Accompanies base f m.execute) (hbelow : Below f m.execute)
    {instr : Instr} (hinstr : m.code[vm.ip]? = some instr) (hunmoved : m.unmoved vm = true)
    (h : Beside base vm vm') :
    Relates (m.dispatch f { vm with ip := vm.ip + 1 } instr)
      (m.dispatch m.execute { vm' with ip := vm.ip + 1 } instr) (Beside base) := by
  have hnext := h.at (vm.ip + 1)
  have hvalue := h.value
  unfold unmoved at hunmoved
  rw [hinstr] at hunmoved
  generalize hs : ({ vm with ip := vm.ip + 1 } : Vm) = s at *
  generalize hs' : ({ vm' with ip := vm.ip + 1 } : Vm) = s' at *
  have hskip : Relates (.ok (m.skipToEnd s) : Except Fault Vm) (.ok (m.skipToEnd s'))
      (Beside base) := Relates.ok hnext.skip
  cases instr with
  | checkPropNames =>
    simp only [dispatch]
    rw [hnext.value]
    split
    · rename_i members hmembers
      refine Relates.bind (onProp_fold_beside hf hbelow hnext _ ?_) ?_
      · have hmembers' : vm.value = .obj members := by
          rw [← hmembers, ← hs]
        rw [hmembers'] at hunmoved
        intro name hname
        cases members with
        | nil => cases hname
        | cons entry members =>
          cases hname
          exact hunmoved
      · exact fun _ _ h' => Relates.pure h'.skip
    · exact hskip
  | branchAnyOf count | branchOneOf count =>
    refine Relates.bind (branchCount_beside hbelow _ hnext hunmoved) ?_
    rintro r r' ⟨hbeside, hpassed⟩
    apply Relates.pure
    rw [hpassed]
    exact hbeside.check _
  | negate =>
    refine Relates.bind (hnext.frame hbelow hunmoved (fun a => beq_self_eq_true a)) ?_
    intro sub sub' hsub
    obtain ⟨hvalid, hip⟩ := Prod.mk.injEq .. ▸ eq_of_beq hsub
    apply Relates.pure
    rw [← hvalid, ← hip]
    exact (hnext.at sub.ip).check _
  | condIf =>
    refine Relates.bind (hnext.frame hbelow hunmoved (fun a => by simp)) ?_
    intro sub sub' hsub
    simp only [Bool.and_eq_true, Bool.or_eq_true, beq_iff_eq] at hsub
    obtain ⟨hip, hsub⟩ := hsub
    rw [← hip]
    have hstart := hnext.at sub.ip
    rcases hsub with hvalid | hpartless
    · rw [← hvalid]
      refine Relates.bind (condPart_beside hf isThen sub.valid hstart) ?_
      intro r r' hr
      exact condPart_beside hf isElse _ hr
    · intro t t' ht ht'
      cases (condParts_partless (s := { s with ip := sub.ip }) hpartless _).symm.trans ht
      cases (condParts_partless (s := { s' with ip := sub.ip }) hpartless _).symm.trans ht'
      exact hstart
  | checkContains min =>
    simp only [dispatch]
    rw [hnext.value]
    split
    · rename_i items hitems
      have hitems' : vm.value = .arr items := by
        rw [← hitems, ← hs]
      rw [hitems'] at hunmoved
      exact contains_beside hbelow min hnext hunmoved
    · exact hskip
  | discriminator property => exact discriminator_beside hf hbelow property hnext hunmoved
  | _ =>
    apply dispatch_alongside (beside_alongside base) (Twin.refl m) hf rfl _ hnext
    rw [hnext.value]
    exact hnext.check _

/-! ## Whole runs -/

/-- A run in which no keyword is moved, beside one from a fresher state. -/
theorem asserted_beside (m : Machine) (base : List OasError) (k : Nat) :
    Accompanies base (m.asserted m.unmoved k) m.execute := by
  induction k with
  | zero => exact fun _ _ _ => Relates.error
  | succ k ih =>
    intro vm vm' h
    show Relates (m.assertedFrame m.unmoved (m.asserted m.unmoved k) vm) _ _
    obtain ⟨e, -, hlisted⟩ := h.listed
    unfold assertedFrame
    rw [hlisted, Option.isNone_some, Bool.false_or]
    split
    · rename_i hunmoved
      unfold frame
      rw [if_pos rfl]
      split
      · rename_i hnone
        rw [execute_past m (by rw [h.ip]; exact hnone)]
        exact Relates.ok h
      · rename_i hend
        rw [execute_end m vm' (by rw [h.ip]; exact hend), h.ip]
        exact Relates.ok (h.at _)
      · rename_i instr hend hinstr
        rw [execute_step m (by rw [h.ip]; exact hinstr) hend, h.ip]
        exact Relates.bind (dispatch_beside ih (asserted_below _ k) hinstr hunmoved h) ih
    · exact Relates.error

/-- A keyword that is not moved, in a run in which none is, reports what it reports alone. -/
theorem reportsAlone_of_unmoved (hcode : Tokenised m.code) {k : Nat} (hlist : vm.errors.isSome)
    (hunmoved : m.unmoved vm = true) {s : Vm}
    (hrun : m.frame (fun _ => true) (m.asserted m.unmoved k) vm = .ok s) :
    m.reportsAlone vm = true := by
  obtain ⟨base, hbase⟩ := Option.isSome_iff_exists.mp hlist
  have hbelow := asserted_below (m := m) m.unmoved k
  have halone : Beside base vm (alone vm) :=
    ⟨rfl, rfl, ⟨[], rfl, by rw [hbase, List.append_nil]⟩, fun _ => rfl⟩
  unfold reportsAlone
  unfold frame at hrun
  rw [if_pos rfl] at hrun
  split
  · rfl
  · rfl
  · rename_i instr hend hinstr
    have hdispatch : m.dispatch (m.asserted m.unmoved k) { vm with ip := vm.ip + 1 } instr >>=
        m.asserted m.unmoved k = .ok s := by
      rw [hinstr] at hrun
      cases instr with
      | endOp => exact absurd rfl hend
      | _ => exact hrun
    obtain ⟨r, hr, -⟩ := bind_eq_ok.mp hdispatch
    by_cases hboundary : Boundary m.code vm.ip
    · have hself : Safe m.code (vm.ip + 1) m.execute m.execute := by
        intro t _ ht
        obtain ⟨t', -, ht', hafter⟩ := execute_safe m hcode (fun _ => true) (fun _ _ => rfl) t ht
        exact ⟨t', ht', ht', hafter⟩
      have hboundary' : Boundary m.code (alone vm).ip := hboundary
      obtain ⟨r', hr', -⟩ := dispatch_safe hcode hboundary' hinstr hself
      obtain ⟨-, hip, ⟨e, he', he⟩, -⟩ := dispatch_beside (asserted_beside m base k) hbelow hinstr
        hunmoved halone r r' hr hr'
      rw [dispatch_refines hbelow _ _ r hr]
      have hr'' : m.dispatch m.execute { alone vm with ip := vm.ip + 1 } instr = .ok r' := hr'
      rw [hr'']
      simp [hbase, he, he', hip]
    · simp [hboundary]

end Beside

end Machine

open Machine

/-- A run of a compiled program in which no keyword is moved: each keyword, in each frame that
reports, adds the errors to the list that it reports alone. -/
theorem errors_independent {α : Type} (mem : Memory α) (config : Option CompilerConfig)
    (depth : Nat) (schema : Option α) (compiled : CompiledSchema)
    (hcompile : oasSchemaCompile mem config depth schema = .ok compiled) (rt : Runtime)
    (direction : Direction) (value : Json) (errors : ErrorList) (vm : Vm)
    (hunmoved : (compiled.machine rt direction).executeAsserting
      (compiled.machine rt direction).unmoved ⟨value, 0, errors, true⟩ = .ok vm) :
    (compiled.machine rt direction).execute ⟨value, 0, errors, true⟩ = .ok vm ∧
      (compiled.machine rt direction).executeWatched
        (fun i => decide (Boundary compiled.program i)) ⟨value, 0, errors, true⟩ = .ok vm ∧
      (compiled.machine rt direction).executeAsserting
        (compiled.machine rt direction).reportsAlone ⟨value, 0, errors, true⟩ = .ok vm := by
  have hcode := oasSchemaCompile_tokenised hcompile
  have hexecute := executeAsserting_below _ _ _ vm hunmoved
  refine ⟨hexecute, ?_, ?_⟩
  · obtain ⟨vm', hwatched, hsame, -⟩ := Machine.execute_safe (compiled.machine rt direction) hcode
      (fun i => decide (Boundary compiled.program i)) (fun i hi => decide_eq_true hi)
      ⟨value, 0, errors, true⟩ (boundary_zero _)
    rw [hexecute] at hsame
    cases hsame
    exact hwatched
  · apply executeAsserting_weaken _ _ vm hunmoved
    intro k s hlist hs s' hrun
    exact reportsAlone_of_unmoved hcode hlist hs hrun

/-- `{"type": "string", "anyOf": [{"type": "integer"}]}` -/
def stringAndAnyOf : SchemaTree :=
  .node { typeMask := typeString, anyOf := [some (.node { typeMask := typeInteger })] }

def stringAndAnyOfProgram : CompiledSchema where
  program := [.checkType typeString, .branchAnyOf 1, .checkType typeInteger, .endOp, .endOp]
  regex := none

/-- `true` fails the branch too. -/
theorem errors_independent_bothFail :
    ∃ vm, (stringAndAnyOfProgram.machine (.knowing []) .none).executeAsserting
      (stringAndAnyOfProgram.machine (.knowing []) .none).reportsAlone
        ⟨.bool true, 0, some [], true⟩ = .ok vm := by
  have hrun := errors_independent SchemaTree.memory none 2 (some stringAndAnyOf)
    stringAndAnyOfProgram rfl (.knowing []) .none (.bool true) (some [])
    ⟨.bool true, 5, some [⟨.constraint, ascii "type mismatch", []⟩,
      ⟨.constraint, ascii "no anyOf branch matched", []⟩], false⟩ rfl
  exact ⟨_, hrun.2.2⟩

/-- The integer 1 is in the branch of `anyOf`, which has no error for it alone. -/
theorem stringAndAnyOf_not_independent :
    ∃ compiled typeOnly anyOfOnly : CompiledSchema,
      oasSchemaCompile SchemaTree.memory none 2 (some stringAndAnyOf) = .ok compiled ∧
      oasSchemaCompile SchemaTree.memory none 2 (some (.node { typeMask := typeString })) =
        .ok typeOnly ∧
      oasSchemaCompile SchemaTree.memory none 2
        (some (.node { anyOf := [some (.node { typeMask := typeInteger })] })) = .ok anyOfOnly ∧
      oasValidate (.knowing []) typeOnly (.num (.uint 1)) ⟨true, some []⟩ true = .ok (0,
        ⟨false, some [⟨.constraint, ascii "type mismatch", []⟩]⟩) ∧
      oasValidate (.knowing []) anyOfOnly (.num (.uint 1)) ⟨true, some []⟩ true =
        .ok (0, ⟨true, some []⟩) ∧
      oasValidate (.knowing []) compiled (.num (.uint 1)) ⟨true, some []⟩ true = .ok (0,
        ⟨false, some [⟨.constraint, ascii "type mismatch", []⟩,
          ⟨.constraint, ascii "no anyOf branch matched", []⟩]⟩) ∧
      ¬ ∃ vm, (compiled.machine (.knowing []) .none).executeAsserting
        (compiled.machine (.knowing []) .none).reportsAlone
          ⟨.num (.uint 1), 0, some [], true⟩ = .ok vm := by
  refine ⟨stringAndAnyOfProgram, ⟨[.checkType typeString, .endOp], none⟩,
    ⟨[.branchAnyOf 1, .checkType typeInteger, .endOp, .endOp], none⟩, rfl, rfl, rfl, rfl, rfl, rfl, ?_⟩
  rintro ⟨vm, hvm⟩
  have hstop : (stringAndAnyOfProgram.machine (.knowing []) .none).executeAsserting
      (stringAndAnyOfProgram.machine (.knowing []) .none).reportsAlone
        ⟨.num (.uint 1), 0, some [], true⟩ = .error (.watched 1) := rfl
  rw [hstop] at hvm
  cases hvm

end Liboas
