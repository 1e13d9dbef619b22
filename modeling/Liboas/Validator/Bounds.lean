import Liboas.Validator.Run
import Liboas.Compiler.Shape

/-!
# Token boundaries

Some instructions have operands inline: NOPs with a count or a name. An instruction with
its inline operands is a token. The VM only ever dispatches at the start of a token, also
where `skip_to_end` and `execute` disagree about the nesting, and so it never leaves
the program.
-/

namespace Liboas

open Outcome

/-! ## Tokens -/

/-- The inline operands that are still to come. -/
inductive Pending where
  | start
  /-- The upper bound of `contains`. -/
  | max
  /-- The number of the names that follow. Those of a discriminator are not null. -/
  | count (keys : Bool)
  /-- One name, and so many more. -/
  | names (keys : Bool) (more : Nat)
  deriving DecidableEq

namespace Pending

def list (keys : Bool) : Nat → Pending
  | 0 => start
  | n + 1 => names keys n

def step : Pending → Instr → Option Pending
  | start, .checkDepRequired _ => some (count false)
  | start, .discriminator _ => some (count true)
  | start, .checkContains _ => some max
  | start, .nopCount _ => none
  | start, .nopName _ => none
  | start, _ => some start
  | max, .nopCount _ => some start
  | count keys, .nopCount n => if 0 ≤ n then some (list keys n.toNat) else none
  | names keys more, .nopName name => if keys && name.isNone then none else some (list keys more)
  | _, _ => none

def scan (code : List Instr) (p : Pending) : Option Pending := code.foldlM step p

@[simp] theorem scan_nil (p : Pending) : scan [] p = some p := rfl

@[simp] theorem scan_cons (i : Instr) (code : List Instr) (p : Pending) :
    scan (i :: code) p = (step p i).bind (scan code) := by
  rw [scan, List.foldlM_cons]
  rfl

theorem scan_append (x y : List Instr) (p : Pending) :
    scan (x ++ y) p = (scan x p).bind (scan y) := by
  rw [scan, List.foldlM_append]
  rfl

theorem scan_names (keys : Bool) (names : List (Option CStr))
    (h : keys = true → ∀ name ∈ names, name.isSome) :
    scan (names.map .nopName) (list keys names.length) = some start := by
  induction names with
  | nil => rfl
  | cons name names ih =>
    have hname : (keys && name.isNone) = false := by
      cases keys with
      | false => rfl
      | true => simpa [Option.isSome_iff_ne_none] using h rfl name List.mem_cons_self
    have htail := ih (fun hk n hn => h hk n (List.mem_cons_of_mem _ hn))
    simpa [list, step, hname] using htail

/-- Where names are pending, names follow. -/
theorem names_of_scan {keys : Bool} {n : Nat} {code : List Instr}
    (h : scan code (list keys n) = some start) :
    ∃ (names : List (Option CStr)) (rest : List Instr),
      code = names.map .nopName ++ rest ∧ names.length = n ∧
      (keys = true → ∀ name ∈ names, name.isSome) := by
  induction n generalizing code with
  | zero => exact ⟨[], code, rfl, rfl, by simp⟩
  | succ n ih =>
    cases code with
    | nil => simp [list] at h
    | cons i code =>
      cases i with
      | nopName name =>
        rw [list, scan_cons, step] at h
        split at h
        · cases h
        · rename_i hname
          obtain ⟨names, rest, rfl, rfl, hnames⟩ := ih h
          refine ⟨name :: names, rest, rfl, rfl, ?_⟩
          rintro rfl n hn
          rcases List.mem_cons.mp hn with rfl | hn
          · simpa [Option.isSome_iff_ne_none] using hname
          · exact hnames rfl n hn
      | _ => simp [list, step] at h

theorem step_start {i : Instr}
    (h : i.isCheck = true ∨ i.opensBody = true ∨ i = .endOp) : step start i = some start := by
  rcases h with h | h | rfl
  · cases i <;> first | rfl | cases h
  · cases i <;> first | rfl | cases h
  · rfl

end Pending

open Pending

/-- A sequence of whole tokens. -/
def Tokenised (code : List Instr) : Prop := scan code start = some start

/-- The start of a token, or the end of the code. -/
def Boundary (code : List Instr) (i : Nat) : Prop :=
  i ≤ code.length ∧ scan (code.take i) start = some start

instance (code : List Instr) (i : Nat) : Decidable (Boundary code i) :=
  inferInstanceAs (Decidable (_ ∧ _))

theorem tokenised_append {x y : List Instr} (hx : Tokenised x) (hy : Tokenised y) :
    Tokenised (x ++ y) := by
  rw [Tokenised, scan_append, hx]
  exact hy

theorem tokenised_end : Tokenised [.endOp] := rfl

theorem tokenised_plain {code : List Instr} (h : PlainCode code) : Tokenised code := by
  induction h with
  | nil => rfl
  | check hi _ ih => rw [Tokenised, scan_cons, step_start (.inl hi)]; exact ih
  | dependent trigger names _ ih =>
    have hnames := scan_names false names (by simp)
    refine tokenised_append ?_ ih
    simpa [Tokenised, step] using hnames

theorem tokenised_head {code : List Instr} (h : NestedHead code) : Tokenised code := by
  cases h with
  | single hi => rw [Tokenised, scan_cons, step_start (.inr (.inl hi))]; rfl
  | contains min max => rfl

theorem tokenised_branchHead {n : Nat} {code : List Instr} (h : BranchHead n code) :
    Tokenised code := by
  cases h with
  | allOf => rfl
  | anyOf => rfl
  | oneOf => rfl
  | discriminator property keys hlen =>
    have hkeys := scan_names true (keys.map some) (by simp)
    rw [List.map_map, List.length_map, hlen] at hkeys
    simpa [Tokenised, step, Function.comp_def] using hkeys

theorem tokenised_bodies {bodies : List (List Instr)} (h : ∀ body ∈ bodies, Tokenised body) :
    Tokenised (bodies.flatMap (· ++ [.endOp])) := by
  induction bodies with
  | nil => rfl
  | cons body bodies ih =>
    have hbody := tokenised_append (h body List.mem_cons_self) tokenised_end
    exact tokenised_append hbody (ih (fun b hb => h b (List.mem_cons_of_mem _ hb)))

theorem tokenised_invariant : CodeInvariant Tokenised where
  append := tokenised_append
  plain := tokenised_plain
  nested hhead hbody := tokenised_append (tokenised_head hhead)
    (tokenised_append hbody tokenised_end)

theorem tokenised_branches : BranchInvariant Tokenised :=
  fun hhead hbodies => tokenised_append (tokenised_branchHead hhead) (tokenised_bodies hbodies)

/-- Every program of the compiler is a sequence of whole tokens. -/
theorem oasSchemaCompile_tokenised {α : Type} {mem : Memory α} {config : Option CompilerConfig}
    {depth : Nat} {schema : Option α} {compiled : CompiledSchema}
    (h : oasSchemaCompile mem config depth schema = .ok compiled) :
    Tokenised compiled.program := by
  cases schema with
  | none => cases h
  | some a =>
    obtain ⟨code, hcode, h⟩ := bind_eq_ok.mp h
    cases h
    exact tokenised_append
      (compileSchema_permits tokenised_invariant tokenised_branches depth a code hcode)
      tokenised_end

/-! ## Boundaries -/

section Boundary

variable {code : List Instr} {i : Nat}

theorem boundary_zero (code : List Instr) : Boundary code 0 := ⟨Nat.zero_le _, rfl⟩

theorem boundary_append {pre token rest : List Instr} (hcode : code = pre ++ (token ++ rest))
    (hi : Boundary code i) (hpre : pre.length = i) (htoken : Tokenised token) :
    Boundary code (i + token.length) := by
  subst hcode hpre
  have hpre : scan pre start = some start := by simpa using hi.2
  refine ⟨by simp, ?_⟩
  rw [← List.append_assoc, List.take_left' (by simp)]
  exact tokenised_append hpre htoken

/-- Behind a boundary stands a whole token. -/
theorem scan_drop (hcode : Tokenised code) (hi : Boundary code i) :
    scan (code.drop i) start = some start := by
  have hsplit := scan_append (code.take i) (code.drop i) start
  rw [List.take_append_drop, hi.2, hcode] at hsplit
  exact hsplit.symm

theorem boundary_prefix (token : List Instr) {rest : List Instr} (hi : Boundary code i)
    (hdrop : code.drop i = token ++ rest) (htoken : Tokenised token) :
    Boundary code (i + token.length) := by
  have hsplit : code = code.take i ++ (token ++ rest) := by rw [← hdrop, List.take_append_drop]
  exact boundary_append hsplit hi (List.length_take_of_le hi.1) htoken

theorem boundary_succ {instr : Instr} (hi : Boundary code i) (hinstr : code[i]? = some instr)
    (hstep : step start instr = some start) : Boundary code (i + 1) := by
  obtain ⟨hlt, rfl⟩ := List.getElem?_eq_some_iff.mp hinstr
  refine boundary_prefix [code[i]] hi (List.drop_eq_getElem_cons hlt) ?_
  rw [Tokenised, scan_cons, hstep]
  rfl

/-- What is no operand stands at the start of a token. -/
theorem boundary_of_instr {instr : Instr} (hcode : Tokenised code) (hinstr : code[i]? = some instr)
    (hcount : ∀ n, instr ≠ .nopCount n) (hname : ∀ name, instr ≠ .nopName name) :
    Boundary code i := by
  obtain ⟨hlt, rfl⟩ := List.getElem?_eq_some_iff.mp hinstr
  refine ⟨Nat.le_of_lt hlt, ?_⟩
  have hsplit := scan_append (code.take i) (code.drop i) start
  rw [List.take_append_drop, hcode, List.drop_eq_getElem_cons hlt] at hsplit
  obtain ⟨p, hp, hrest⟩ := Option.bind_eq_some_iff.mp hsplit.symm
  rw [scan_cons] at hrest
  rw [hp]
  cases p with
  | start => rfl
  | max | count | names =>
    cases hi : code[i] with
    | nopCount n => exact absurd hi (hcount n)
    | nopName name => exact absurd hi (hname name)
    | _ =>
      rw [hi] at hrest
      cases hrest

/-- The walk of `skip_to_end` passes whole tokens. -/
theorem scan_take_skip {code : List Instr} {p : Pending} (h : scan code p = some start)
    (d : Nat) (hd : d = 0 → p = start) :
    scan (code.take (Brackets.skip depthKind code d)) p = some start := by
  induction code generalizing p d with
  | nil => simpa using h
  | cons i code ih =>
    cases d with
    | zero => simp [hd rfl]
    | succ d =>
      rw [scan_cons] at h
      obtain ⟨q, hq, h⟩ := Option.bind_eq_some_iff.mp h
      have hnext : ∀ d', (d' = 0 → q = start) →
          scan ((i :: code).take (Brackets.skip depthKind code d' + 1)) p = some start := by
        intro d' hd'
        rw [List.take_succ_cons, scan_cons, hq]
        exact ih h d' hd'
      rw [Brackets.skip]
      split
      · exact hnext _ (by simp)
      · rename_i hcloses
        -- Only END closes, and only at the start of a token.
        have hend : i = .endOp := by
          cases i <;> first | rfl | simp [depthKind, isNestingOp] at hcloses
        subst hend
        refine hnext _ (fun _ => ?_)
        cases p <;> simp_all [step]
      · exact hnext _ (by simp)

end Boundary

/-! ## No frame leaves the program -/

namespace Machine

section Safe

variable {m : Machine} {f g : Vm → Except Fault Vm} {b : Nat}

/-- The frames of `f` and of `g` that start at a boundary, at `b` or later, end at one and
agree. -/
def Safe (code : List Instr) (b : Nat) (f g : Vm → Except Fault Vm) : Prop :=
  ∀ vm, b ≤ vm.ip → Boundary code vm.ip →
    Both (f vm) (g vm) (fun vm' => vm.ip ≤ vm'.ip ∧ Boundary code vm'.ip)

theorem skipToEnd_boundary (vm : Vm) (hcode : Tokenised m.code) (hvm : Boundary m.code vm.ip) :
    Boundary m.code (m.skipToEnd vm).ip := by
  have hdrop := scan_drop hcode hvm
  have hskip : scan ((m.code.drop vm.ip).take
      (Brackets.skip depthKind (m.code.drop vm.ip) 1)) start = some start :=
    scan_take_skip hdrop 1 (by simp)
  have hsplit : m.code.drop vm.ip =
      (m.code.drop vm.ip).take (Brackets.skip depthKind (m.code.drop vm.ip) 1) ++
        (m.code.drop vm.ip).drop (Brackets.skip depthKind (m.code.drop vm.ip) 1) :=
    (List.take_append_drop _ _).symm
  have := boundary_prefix _ hvm hsplit hskip
  rwa [List.length_take_of_le (Brackets.skip_le_length _ _)] at this

theorem skip_safe {vm : Vm} (hcode : Tokenised m.code) (hvm : Boundary m.code vm.ip)
    {x y : Except Fault Vm} (h : Both x y (fun vm' => vm'.ip = vm.ip)) :
    Both (x >>= fun vm' => pure (m.skipToEnd vm')) (y >>= fun vm' => pure (m.skipToEnd vm'))
      (fun vm' => vm.ip ≤ vm'.ip ∧ Boundary m.code vm'.ip) := by
  refine h.bind ?_
  intro vm' hip
  rw [← hip] at hvm
  refine Both.pure ⟨?_, skipToEnd_boundary _ hcode hvm⟩
  rw [← hip]
  exact le_skipToEnd m vm'

theorem runOn_safe {vm : Vm} (hfg : Safe m.code b f g) (hb : b ≤ vm.ip)
    (hvm : Boundary m.code vm.ip) (values : List Json) :
    Both (values.foldlM (runOn f vm) vm) (values.foldlM (runOn g vm) vm)
      (fun vm' => vm'.ip = vm.ip) := by
  refine Both.foldlM (Q := fun acc : Vm => acc.ip = vm.ip) rfl ?_
  intro acc hacc value _
  refine Both.bind (hfg { acc with value := value, ip := vm.ip } hb hvm) ?_
  intro sub _
  exact Both.pure hacc

theorem onProp_safe {vm : Vm} (hfg : Safe m.code b f g) (hb : b ≤ vm.ip)
    (hvm : Boundary m.code vm.ip) (names : List Bytes) :
    Both (names.foldlM (onProp f vm) vm) (names.foldlM (onProp g vm) vm)
      (fun vm' => vm'.ip = vm.ip) := by
  refine Both.foldlM (Q := fun acc : Vm => acc.ip = vm.ip) rfl ?_
  intro acc hacc name _
  refine Both.bind (hfg { acc with value := .str _, ip := vm.ip } hb hvm) ?_
  intro sub _
  refine Both.pure ?_
  split <;> exact hacc

theorem countMatches_safe (vm : Vm) (hfg : Safe m.code b f g) (hb : b ≤ vm.ip)
    (hvm : Boundary m.code vm.ip) (values : List Json) :
    Both (countMatches f vm values) (countMatches g vm values) (fun _ => True) := by
  refine Both.foldlM (Q := fun _ => True) trivial ?_
  intro n _ value _
  refine Both.bind (hfg { vm.quiet with value := value } hb hvm) ?_
  intro sub _
  exact Both.pure trivial

theorem branchAll_safe (hfg : Safe m.code b f g) (n : Nat) (vm : Vm) (hb : b ≤ vm.ip)
    (hvm : Boundary m.code vm.ip) :
    Both (branchAll f n vm) (branchAll g n vm)
      (fun vm' => vm.ip ≤ vm'.ip ∧ Boundary m.code vm'.ip) := by
  induction n generalizing vm with
  | zero => exact Both.ok ⟨Nat.le_refl _, hvm⟩
  | succ n ih =>
    refine Both.bind (hfg vm hb hvm) ?_
    rintro sub ⟨hle, hsub⟩
    exact (ih { vm.merge sub with ip := sub.ip } (Nat.le_trans hb hle) hsub).mono
      (fun vm' h => ⟨Nat.le_trans hle h.1, h.2⟩)

theorem branchCount_safe (hfg : Safe m.code b f g) (n : Nat) (vm : Vm) (passed : Nat)
    (hb : b ≤ vm.ip) (hvm : Boundary m.code vm.ip) :
    Both (branchCount f n vm passed) (branchCount g n vm passed)
      (fun r => vm.ip ≤ r.1.ip ∧ Boundary m.code r.1.ip) := by
  induction n generalizing vm passed with
  | zero => exact Both.ok ⟨Nat.le_refl _, hvm⟩
  | succ n ih =>
    refine Both.bind (hfg vm.quiet hb hvm) ?_
    rintro sub ⟨hle, hsub⟩
    exact (ih { vm with ip := sub.ip } _ (Nat.le_trans hb hle) hsub).mono
      (fun r h => ⟨Nat.le_trans hle h.1, h.2⟩)

theorem self_safe (hfg : Safe m.code b f g) (silent : Bool) (vm : Vm) (hb : b ≤ vm.ip)
    (hvm : Boundary m.code vm.ip) :
    Both (f (if silent then vm.quiet else vm)) (g (if silent then vm.quiet else vm))
      (fun vm' => vm.ip ≤ vm'.ip ∧ Boundary m.code vm'.ip) := by
  cases silent
  · exact hfg vm hb hvm
  · exact hfg vm.quiet hb hvm

theorem passBodies_safe (hfg : Safe m.code b f g) (silent : Bool) (n : Nat) (vm : Vm)
    (hb : b ≤ vm.ip) (hvm : Boundary m.code vm.ip) :
    Both (passBodies f silent n vm) (passBodies g silent n vm)
      (fun vm' => vm.ip ≤ vm'.ip ∧ Boundary m.code vm'.ip) := by
  induction n generalizing vm with
  | zero => exact Both.ok ⟨Nat.le_refl _, hvm⟩
  | succ n ih =>
    refine Both.bind (self_safe hfg silent vm hb hvm) ?_
    rintro sub ⟨hle, hsub⟩
    exact (ih { vm with ip := sub.ip, errors := _ } (Nat.le_trans hb hle) hsub).mono
      (fun vm' h => ⟨Nat.le_trans hle h.1, h.2⟩)

theorem condPart_safe (hcode : Tokenised m.code) (hfg : Safe m.code b f g)
    {isPart : Instr → Bool} (hpart : ∀ i, isPart i = true → step start i = some start)
    (taken : Bool) (vm : Vm) (hb : b ≤ vm.ip) (hvm : Boundary m.code vm.ip) :
    Both (m.condPart f isPart taken vm) (m.condPart g isPart taken vm)
      (fun vm' => vm.ip ≤ vm'.ip ∧ Boundary m.code vm'.ip) := by
  unfold condPart
  split
  · rename_i instr hinstr
    split
    · rename_i his
      have hnext := boundary_succ hvm hinstr (hpart instr his)
      cases taken
      · refine Both.ok ⟨?_, skipToEnd_boundary { vm with ip := vm.ip + 1 } hcode hnext⟩
        exact Nat.le_trans (Nat.le_succ _) (le_skipToEnd m { vm with ip := vm.ip + 1 })
      · exact (hfg { vm with ip := vm.ip + 1 } (Nat.le_succ_of_le hb) hnext).mono
          (fun vm' h => ⟨Nat.le_trans (Nat.le_succ _) h.1, h.2⟩)
    · exact Both.ok ⟨Nat.le_refl _, hvm⟩
  · exact Both.ok ⟨Nat.le_refl _, hvm⟩

/-- The inline list of a token. -/
theorem inline_list {i : Nat} {instr : Instr} {keys : Bool} (hcode : Tokenised m.code)
    (hi : Boundary m.code i) (hinstr : m.code[i]? = some instr)
    (hstep : step start instr = some (count keys)) :
    ∃ (names : List (Option CStr)) (rest : List Instr),
      m.code.drop (i + 1) = .nopCount names.length :: (names.map .nopName ++ rest) ∧
      Boundary m.code (i + 2 + names.length) ∧
      (keys = true → ∀ name ∈ names, name.isSome) := by
  obtain ⟨hlt, rfl⟩ := List.getElem?_eq_some_iff.mp hinstr
  have hscan := scan_drop hcode hi
  rw [List.drop_eq_getElem_cons hlt, scan_cons, hstep, Option.bind_some] at hscan
  cases hdrop : m.code.drop (i + 1) with
  | nil => simp [hdrop] at hscan
  | cons j tail =>
    rw [hdrop, scan_cons] at hscan
    cases j with
    | nopCount n =>
      rw [step] at hscan
      split at hscan
      · rename_i hn
        obtain ⟨names, rest, rfl, hlen, hnames⟩ := names_of_scan hscan
        have hcount : (names.length : Int) = n := by omega
        refine ⟨names, rest, by rw [hcount], ?_, hnames⟩
        have htoken : Tokenised (m.code[i] :: .nopCount names.length :: names.map .nopName) := by
          rw [Tokenised, scan_cons, hstep, Option.bind_some]
          simpa [step] using scan_names keys names hnames
        have hsplit : m.code.drop i =
            (m.code[i] :: .nopCount names.length :: names.map .nopName) ++ rest := by
          rw [List.drop_eq_getElem_cons hlt, hdrop, hcount]
          rfl
        have hlength : i + 2 + names.length =
            i + (m.code[i] :: .nopCount names.length :: names.map .nopName).length := by
          simp only [List.length_cons, List.length_map]
          omega
        rw [hlength]
        exact boundary_prefix _ hi hsplit htoken
      · cases hscan
    | _ => simp [step] at hscan

theorem checkDepRequired_safe {vm : Vm} {trigger : CStr} (hcode : Tokenised m.code)
    (hvm : Boundary m.code vm.ip) (hinstr : m.code[vm.ip]? = some (.checkDepRequired trigger)) :
    Both (m.dispatch f { vm with ip := vm.ip + 1 } (.checkDepRequired trigger))
      (m.dispatch g { vm with ip := vm.ip + 1 } (.checkDepRequired trigger))
      (fun vm' => vm.ip + 1 ≤ vm'.ip ∧ Boundary m.code vm'.ip) := by
  obtain ⟨names, rest, hdrop, hbound, -⟩ := inline_list hcode hvm hinstr rfl
  have hrest : m.code.drop (vm.ip + 1 + 1) = names.map .nopName ++ rest :=
    drop_of_drop (x := [Instr.nopCount names.length]) hdrop
  have hend : vm.ip + 1 + 1 + names.length = vm.ip + 2 + names.length := by omega
  simp only [dispatch, readCount_ok { vm with ip := vm.ip + 1 } hdrop]
  refine Both.bind (Both.ok rfl) ?_
  rintro _ rfl
  dsimp only
  split
  · obtain ⟨errors, hok⟩ := requireNames_ok trigger names rest { vm with ip := vm.ip + 1 + 1 } hrest
    rw [Int.toNat_natCast, hok]
    exact Both.ok ⟨by simp; omega, by simpa [hend] using hbound⟩
  · have hle : vm.ip + 1 + 1 ≤ m.code.length := by have := hbound.1; omega
    have hok := advance_ok { vm with ip := vm.ip + 1 + 1 } hrest hle
    rw [List.length_map] at hok
    rw [hok]
    exact Both.ok ⟨by simp; omega, by simpa [hend] using hbound⟩

theorem findKey_safe {start : Nat} (wanted : CStr) {names : List (Option CStr)}
    {rest : List Instr} (hdrop : m.code.drop start = names.map .nopName ++ rest)
    (hnames : ∀ name ∈ names, name.isSome) :
    ∃ r, m.findKey start wanted names.length 0 = .ok r := by
  have hkeys : names = (names.map (fun name => name.getD (CStr.ofString ""))).map some := by
    rw [List.map_map]
    refine (List.map_id' names).symm.trans (List.map_congr_left ?_)
    intro name hname
    obtain ⟨key, rfl⟩ := Option.isSome_iff_exists.mp (hnames name hname)
    rfl
  rw [hkeys, List.map_map] at hdrop
  have := findKey_ok start wanted _ rest 0 hdrop
  rw [List.length_map] at this
  exact ⟨_, this⟩

theorem discriminator_safe {vm : Vm} {property : CStr} (hcode : Tokenised m.code)
    (hvm : Boundary m.code vm.ip) (hinstr : m.code[vm.ip]? = some (.discriminator property))
    (hfg : Safe m.code (vm.ip + 1) f g) :
    Both (m.dispatch f { vm with ip := vm.ip + 1 } (.discriminator property))
      (m.dispatch g { vm with ip := vm.ip + 1 } (.discriminator property))
      (fun vm' => vm.ip + 1 ≤ vm'.ip ∧ Boundary m.code vm'.ip) := by
  obtain ⟨names, rest, hdrop, hbound, hnames⟩ := inline_list hcode hvm hinstr rfl
  have hrest : m.code.drop (vm.ip + 1 + 1) = names.map .nopName ++ rest :=
    drop_of_drop (x := [Instr.nopCount names.length]) hdrop
  have hle : vm.ip + 1 + 1 ≤ m.code.length := by have := hbound.1; omega
  have hadvance := advance_ok { vm with ip := vm.ip + 1 + 1 } hrest hle
  rw [List.length_map] at hadvance
  have hend : vm.ip + 1 + 1 + names.length = vm.ip + 2 + names.length := by omega
  simp only [dispatch, readCount_ok { vm with ip := vm.ip + 1 } hdrop]
  refine Both.bind (Both.ok rfl) ?_
  rintro _ rfl
  dsimp only
  rw [hadvance]
  refine Both.bind (Both.ok rfl) ?_
  rintro _ rfl
  dsimp only
  rw [hend, Int.toNat_natCast]
  generalize hvm' : ({ vm with ip := vm.ip + 2 + names.length } : Vm) = vm'
  have hip : vm'.ip = vm.ip + 2 + names.length := by rw [← hvm']
  have hb : vm.ip + 1 ≤ vm'.ip := by omega
  have hvm'_bound : Boundary m.code vm'.ip := by rw [hip]; exact hbound
  have hpass : ∀ message, Both (passBodies f false names.length vm' >>= fun vm'' =>
      pure (vm''.addError message)) (passBodies g false names.length vm' >>= fun vm'' =>
      pure (vm''.addError message)) (fun vm'' => vm.ip + 1 ≤ vm''.ip ∧ Boundary m.code vm''.ip) := by
    intro message
    refine (passBodies_safe hfg false names.length vm' hb hvm'_bound).bind ?_
    rintro vm'' ⟨hle, hbound⟩
    exact Both.pure ⟨Nat.le_trans hb hle, hbound⟩
  unfold dispatchOn
  split
  · split
    · rename_i wanted _
      obtain ⟨r, hr⟩ := findKey_safe (CStr.ofBytes wanted) hrest (hnames rfl)
      rw [hr]
      refine Both.bind (Both.ok rfl) ?_
      rintro _ rfl
      cases r with
      | none => exact hpass _
      | some i =>
        refine (passBodies_safe hfg true i vm' hb hvm'_bound).bind ?_
        rintro vm₁ ⟨hle₁, hbound₁⟩
        have hb₁ := Nat.le_trans hb hle₁
        refine (hfg vm₁ hb₁ hbound₁).bind ?_
        rintro sub ⟨hle₂, hbound₂⟩
        have hb₂ := Nat.le_trans hb₁ hle₂
        exact (passBodies_safe hfg true _ { vm₁.merge sub with ip := sub.ip } hb₂ hbound₂).mono
          (fun vm₃ h => ⟨Nat.le_trans hb₂ h.1, h.2⟩)
    · exact hpass _
  · exact hpass _

theorem inline_max {i : Nat} {min : Int} (hcode : Tokenised m.code)
    (hi : Boundary m.code i) (hinstr : m.code[i]? = some (.checkContains min)) :
    ∃ (max : Int) (rest : List Instr),
      m.code.drop (i + 1) = .nopCount max :: rest ∧ Boundary m.code (i + 2) := by
  obtain ⟨hlt, hget⟩ := List.getElem?_eq_some_iff.mp hinstr
  have hscan := scan_drop hcode hi
  rw [List.drop_eq_getElem_cons hlt, hget, scan_cons, step, Option.bind_some] at hscan
  cases hdrop : m.code.drop (i + 1) with
  | nil => simp [hdrop] at hscan
  | cons j tail =>
    rw [hdrop, scan_cons] at hscan
    cases j with
    | nopCount n =>
      have hsplit : m.code.drop i = [.checkContains min, .nopCount n] ++ tail := by
        rw [List.drop_eq_getElem_cons hlt, hget, hdrop]
        rfl
      exact ⟨n, tail, rfl, boundary_prefix _ hi hsplit rfl⟩
    | _ => simp [step] at hscan

theorem checkContains_safe {vm : Vm} {min : Int} (hcode : Tokenised m.code)
    (hvm : Boundary m.code vm.ip) (hinstr : m.code[vm.ip]? = some (.checkContains min))
    (hfg : Safe m.code (vm.ip + 1) f g) :
    Both (m.dispatch f { vm with ip := vm.ip + 1 } (.checkContains min))
      (m.dispatch g { vm with ip := vm.ip + 1 } (.checkContains min))
      (fun vm' => vm.ip + 1 ≤ vm'.ip ∧ Boundary m.code vm'.ip) := by
  obtain ⟨max, rest, hdrop, hbound⟩ := inline_max hcode hvm hinstr
  simp only [dispatch, readCount_ok { vm with ip := vm.ip + 1 } hdrop]
  split
  · rename_i items _
    refine Both.bind (Both.ok rfl) ?_
    rintro _ rfl
    dsimp only
    refine (countMatches_safe { vm with ip := vm.ip + 2 } hfg (Nat.le_succ _) hbound
      items).bind ?_
    intro count _
    generalize hvm' : checkContainsBounds { vm with ip := vm.ip + 1 + 1 } min max count = vm'
    have hip : vm'.ip = vm.ip + 2 := by rw [← hvm']; simp [checkContainsBounds]
    refine Both.pure ⟨?_, skipToEnd_boundary _ hcode (hip ▸ hbound)⟩
    have := le_skipToEnd m vm'
    omega
  · -- A value that is no array: the walk starts at the inline operand.
    have hskip : m.skipToEnd { vm with ip := vm.ip + 1 } = m.skipToEnd { vm with ip := vm.ip + 2 } := by
      have hrest := drop_of_drop (x := [Instr.nopCount max]) hdrop
      rw [List.length_singleton] at hrest
      simp only [skipToEnd, hdrop, hrest, Brackets.skip, depthKind, isNestingOp]
      simp
      omega
    rw [hskip]
    refine Both.ok ⟨?_, skipToEnd_boundary { vm with ip := vm.ip + 2 } hcode hbound⟩
    have := le_skipToEnd m { vm with ip := vm.ip + 2 }
    dsimp only at this
    omega

/-- Whatever is dispatched at a boundary, the frame goes on at a boundary. -/
theorem dispatch_safe {vm : Vm} {instr : Instr} (hcode : Tokenised m.code)
    (hvm : Boundary m.code vm.ip) (hinstr : m.code[vm.ip]? = some instr)
    (hfg : Safe m.code (vm.ip + 1) f g) :
    Both (m.dispatch f { vm with ip := vm.ip + 1 } instr)
      (m.dispatch g { vm with ip := vm.ip + 1 } instr)
      (fun vm' => vm.ip + 1 ≤ vm'.ip ∧ Boundary m.code vm'.ip) := by
  have hscan := scan_drop hcode hvm
  obtain ⟨hlt, hget⟩ := List.getElem?_eq_some_iff.mp hinstr
  rw [List.drop_eq_getElem_cons hlt, hget, scan_cons] at hscan
  generalize hnext : ({ vm with ip := vm.ip + 1 } : Vm) = next at *
  have hip : next.ip = vm.ip + 1 := by rw [← hnext]
  rw [← hip] at hfg ⊢
  have hself : next.ip ≤ next.ip := Nat.le_refl _
  have hsucc : step start instr = some start → Boundary m.code next.ip := by
    intro hstep
    rw [hip]
    exact boundary_succ hvm hinstr hstep
  have hskip : step start instr = some start →
      Both (.ok (m.skipToEnd next) : Except Fault Vm) (.ok (m.skipToEnd next))
        (fun vm' => next.ip ≤ vm'.ip ∧ Boundary m.code vm'.ip) :=
    fun hstep => Both.ok ⟨le_skipToEnd m next, skipToEnd_boundary _ hcode (hsucc hstep)⟩
  cases instr with
  | nopCount n => cases hscan
  | nopName name => cases hscan
  | checkDepRequired trigger =>
    rw [← hnext]
    exact checkDepRequired_safe hcode hvm hinstr
  | discriminator property =>
    rw [hip] at hfg
    rw [← hnext]
    exact discriminator_safe hcode hvm hinstr hfg
  | checkContains min =>
    rw [hip] at hfg
    rw [← hnext]
    exact checkContains_safe hcode hvm hinstr hfg
  | enterItems | enterPrefixItem | enterProperty | checkPatternProps =>
    simp only [dispatch]
    split
    · exact skip_safe hcode (hsucc rfl) (runOn_safe hfg hself (hsucc rfl) _)
    · exact hskip rfl
  | checkPropNames =>
    simp only [dispatch]
    split
    · exact skip_safe hcode (hsucc rfl) (onProp_safe hfg hself (hsucc rfl) _)
    · exact hskip rfl
  | enterAdditional => exact hskip rfl
  | branchAllOf count => exact branchAll_safe hfg _ next hself (hsucc rfl)
  | branchAnyOf count | branchOneOf count =>
    refine (branchCount_safe hfg _ next 0 hself (hsucc rfl)).bind ?_
    intro r h
    refine Both.pure ?_
    rwa [check_ip]
  | negate =>
    refine (hfg next.quiet hself (hsucc rfl)).bind ?_
    intro sub h
    refine Both.pure ?_
    rwa [check_ip]
  | condIf =>
    refine (hfg next.quiet hself (hsucc rfl)).bind ?_
    rintro sub ⟨hle, hbound⟩
    have hthen : ∀ i, isThen i = true → step start i = some start := by
      intro i hi
      cases i <;> first | rfl | cases hi
    have helse : ∀ i, isElse i = true → step start i = some start := by
      intro i hi
      cases i <;> first | rfl | cases hi
    refine (condPart_safe hcode hfg hthen sub.valid { next with ip := sub.ip } hle hbound).bind ?_
    rintro vm' ⟨hle', hbound'⟩
    have hle'' : next.ip ≤ vm'.ip := Nat.le_trans hle hle'
    exact (condPart_safe hcode hfg helse (!sub.valid) vm' hle'' hbound').mono
      (fun vm'' h => ⟨Nat.le_trans hle'' h.1, h.2⟩)
  | checkDepSchema trigger =>
    simp only [dispatch]
    split
    · refine (hfg next hself (hsucc rfl)).bind ?_
      intro sub h
      exact Both.pure h
    · exact hskip rfl
  | _ => exact Both.ok ⟨Nat.le_of_eq (check_ip _ _).symm, by rw [check_ip]; exact hsucc rfl⟩

end Safe

/-- From a boundary, `execute` ends at a boundary, also when a watch forbids to be
anywhere else, and then with the same state. -/
theorem execute_safe (m : Machine) (hcode : Tokenised m.code) (watch : Nat → Bool)
    (hwatch : ∀ i, Boundary m.code i → watch i = true) (vm : Vm)
    (hvm : Boundary m.code vm.ip) :
    Both (m.executeWatched watch vm) (m.execute vm)
      (fun vm' => vm.ip ≤ vm'.ip ∧ Boundary m.code vm'.ip) := by
  induction hleft : m.left vm using Nat.strongRecOn generalizing vm with
  | ind left ih =>
    subst hleft
    cases hinstr : m.code[vm.ip]? with
    | none =>
      rw [executeWatched_eq, execute_past m hinstr, frame, hinstr, if_pos (hwatch vm.ip hvm)]
      exact Both.ok ⟨Nat.le_refl _, hvm⟩
    | some instr =>
      have hlt : vm.ip < m.code.length := (List.getElem?_eq_some_iff.mp hinstr).1
      have hfg : Safe m.code (vm.ip + 1) (m.executeWatched watch) m.execute := by
        intro vm' hle hvm'
        refine ih (m.left vm') ?_ vm' hvm' rfl
        simp only [Machine.left]
        omega
      rw [executeWatched_eq, execute_eq, frame, frame, hinstr]
      simp only [hwatch vm.ip hvm, if_true]
      split
      · cases ‹_ = none›
      · rename_i hend
        cases hend
        exact Both.ok ⟨Nat.le_succ _, boundary_succ hvm hinstr rfl⟩
      · rename_i heq
        cases heq
        refine (dispatch_safe hcode hvm hinstr hfg).bind ?_
        rintro vm' ⟨hle, hvm'⟩
        exact (hfg vm' hle hvm').mono (fun vm'' h => ⟨by omega, h.2⟩)

end Machine

/-! ## Compiled programs -/

/-- No frame reads or moves past the end, and every round of every frame starts at the
boundary of a token. -/
theorem compiled_execute_in_bounds {α : Type} (mem : Memory α)
    (config : Option CompilerConfig) (depth : Nat) (schema : Option α)
    (compiled : CompiledSchema) (hcompile : oasSchemaCompile mem config depth schema = .ok compiled)
    (rt : Runtime) (direction : Direction) (value : Json) (errors : ErrorList) (valid : Bool) :
    ∃ vm, (compiled.machine rt direction).execute ⟨value, 0, errors, valid⟩ = .ok vm ∧
      (compiled.machine rt direction).executeWatched
        (fun i => decide (Boundary compiled.program i)) ⟨value, 0, errors, valid⟩ = .ok vm ∧
      vm.ip ≤ compiled.program.length := by
  obtain ⟨vm, hwatched, hexecute, -, hbound⟩ := Machine.execute_safe
    (compiled.machine rt direction) (oasSchemaCompile_tokenised hcompile)
    (fun i => decide (Boundary compiled.program i)) (fun i hi => decide_eq_true hi)
    ⟨value, 0, errors, valid⟩ (boundary_zero _)
  exact ⟨vm, hexecute, hwatched, hbound.1⟩

/-- `{"dependentRequired": {"a": ["b"]}}` -/
theorem compiled_execute_in_bounds_dependent :
    ∃ vm, (CompiledSchema.machine ⟨[.checkDepRequired (.ofString "a"), .nopCount 1,
        .nopName (some (.ofString "b")), .endOp], none⟩ (.knowing []) .none).execute
        ⟨.obj [], 0, none, true⟩ = .ok vm ∧
      (CompiledSchema.machine ⟨[.checkDepRequired (.ofString "a"), .nopCount 1,
        .nopName (some (.ofString "b")), .endOp], none⟩ (.knowing []) .none).executeWatched
        (fun i => decide (Boundary [.checkDepRequired (.ofString "a"), .nopCount 1,
          .nopName (some (.ofString "b")), .endOp] i)) ⟨.obj [], 0, none, true⟩ = .ok vm ∧
      vm.ip ≤ 4 :=
  compiled_execute_in_bounds SchemaTree.memory none 1
    (some (.node { dependentRequired := [⟨.ofString "a", [some (.ofString "b")]⟩] })) _ rfl
    (.knowing []) .none (.obj []) none true

end Liboas
