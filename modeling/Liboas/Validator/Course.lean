import Liboas.Lib.Utf8
import Liboas.Validator.Run

/-!
# What frames tell

A frame tells what it finds by its flag and its error list. Each instruction is looked at once, for
any relation between flags and lists that keeps to a few laws. The messages are ASCII texts with
quotes in them.
-/

namespace Liboas

open Outcome Utf8

/-- The strings and the keys of a value, at any depth. -/
inductive Json.Text : Json → Bytes → Prop where
  | str (s : Bytes) : Json.Text (.str s) s
  | item {items : List Json} {v : Json} {t : Bytes} : v ∈ items → v.Text t → Json.Text (.arr items) t
  | key {members : List (Bytes × Json)} {m : Bytes × Json} :
      m ∈ members → Json.Text (.obj members) m.1
  | member {members : List (Bytes × Json)} {m : Bytes × Json} {t : Bytes} :
      m ∈ members → m.2.Text t → Json.Text (.obj members) t

/-! ## Messages with quotes -/

/-- Made of ASCII texts and of quotes. -/
inductive Made (Q : Bytes → Prop) : Bytes → Prop where
  | ascii {b : Bytes} : (∀ x ∈ b, x < 128) → Made Q b
  | quote {b : Bytes} : Q b → Made Q b
  | append {a b : Bytes} : Made Q a → Made Q b → Made Q (a ++ b)

theorem Made.isText {Q : Bytes → Prop} {b : Bytes} (h : Made Q b) (hQ : ∀ t, Q t → IsText t) :
    IsText b := by
  induction h with
  | ascii h => exact isText_ascii h
  | quote h => exact hQ _ h
  | append _ _ iha ihb => exact iha.append ihb

theorem Made.lt {Q : Bytes → Prop} {b : Bytes} (h : Made Q b) (hQ : ∀ t, Q t → ∀ x ∈ t, x < 128) :
    ∀ x ∈ b, x < 128 := by
  induction h with
  | ascii h => exact h
  | quote h => exact hQ _ h
  | append _ _ iha ihb =>
    intro x hx
    exact (List.mem_append.mp hx).elim (iha x) (ihb x)

/-- The fixed words of a message. -/
theorem made_words {Q : Bytes → Prop} {s : String}
    (h : (ascii s).all (fun x => decide (x < 128)) = true) : Made Q (ascii s) := .ascii (ascii_lt h)

/-- A part of a message between two pieces of fixed words. -/
theorem made_between {Q : Bytes → Prop} {s t : String} {b : Bytes} (h : Made Q b)
    (hs : (ascii s).all (fun x => decide (x < 128)) = true)
    (ht : (ascii t).all (fun x => decide (x < 128)) = true) : Made Q (ascii s ++ b ++ ascii t) :=
  ((made_words hs).append h).append (made_words ht)

theorem decimal_made {Q : Bytes → Prop} (n : Int) : Made Q (decimal n) := .ascii (decimal_lt n)

theorem textOrNull_made {Q : Bytes → Prop} {name : Option CStr} (h : ∀ n, name = some n → Q n.bytes) :
    Made Q (textOrNull name) := by
  cases name with
  | none => exact made_words (by decide)
  | some n => exact .quote (h n rfl)

/-- Every text of the value may be quoted. -/
def Heard (Q : Bytes → Prop) (v : Json) : Prop := ∀ t, v.Text t → Q (CStr.ofBytes t).bytes

theorem Heard.item {Q : Bytes → Prop} {items : List Json} (h : Heard Q (.arr items)) {v : Json}
    (hv : v ∈ items) : Heard Q v := fun t ht => h t (.item hv ht)

theorem Heard.member {Q : Bytes → Prop} {members : List (Bytes × Json)} (h : Heard Q (.obj members))
    {e : Bytes × Json} (he : e ∈ members) : Heard Q e.2 := fun t ht => h t (.member he ht)

/-! ## Flags and lists -/

/-- What is said of frames: the texts that their messages may quote, the lists that they may start
with, what becomes of a list, and what becomes of a flag and a list. -/
structure Course where
  quotes : Bytes → Prop
  listed : ErrorList → Prop
  lists : ErrorList → ErrorList → Prop
  leads : Bool → ErrorList → Bool → ErrorList → Prop

structure Course.Lawful (C : Course) : Prop where
  refl : ∀ {valid errors}, C.listed errors → C.leads valid errors valid errors
  trans : ∀ {valid errors valid' errors' valid'' errors''}, C.leads valid errors valid' errors' →
    C.leads valid' errors' valid'' errors'' → C.leads valid errors valid'' errors''
  /-- The failure of a frame with the same list is taken over. -/
  merge : ∀ {valid errors valid' errors'}, C.leads valid errors valid' errors' →
    C.leads valid errors (valid && valid') errors'
  /-- That such a frame passes need not be taken over. -/
  pass : ∀ {valid errors errors'}, C.leads valid errors true errors' →
    C.leads valid errors valid errors'
  lists : ∀ {valid errors valid' errors'}, C.leads valid errors valid' errors' →
    C.lists errors errors'
  lists_refl : ∀ errors, C.lists errors errors
  lists_trans : ∀ {errors errors' errors''}, C.lists errors errors' → C.lists errors' errors'' →
    C.lists errors errors''
  lists_listed : ∀ {errors errors'}, C.listed errors → C.lists errors errors' → C.listed errors'
  /-- An error ends what the list alone has told. -/
  ended : ∀ {valid errors errors' message}, C.listed errors → C.lists errors errors' →
    Made C.quotes message →
    C.leads valid errors false (errors'.add .constraint [] (printInto 256 message))

namespace Course

/-- A frame may start here. -/
structure Starts (C : Course) (s : Vm) : Prop where
  heard : Heard C.quotes s.value
  listed : C.listed s.errors

/-- A later state of the same frame. -/
structure Leads (C : Course) (s s' : Vm) : Prop where
  value : s'.value = s.value
  leads : C.leads s.valid s.errors s'.valid s'.errors

/-- A function on frames that keeps to the course. -/
def Keeps (C : Course) (f : Vm → Except Fault Vm) : Prop :=
  ∀ s, C.Starts s → Permits (f s) (C.Leads s)

variable {C : Course} {s s' s'' : Vm}

theorem Starts.later (hC : C.Lawful) (hs : C.Starts s) (h : C.Leads s s') : C.Starts s' := by
  refine ⟨?_, hC.lists_listed hs.listed (hC.lists h.leads)⟩
  rw [h.value]
  exact hs.heard

theorem Starts.move (hs : C.Starts s) (ip : Nat) : C.Starts { s with ip := ip } :=
  ⟨hs.heard, hs.listed⟩

theorem Leads.same (hC : C.Lawful) (hs : C.Starts s) (ip : Nat) : C.Leads s { s with ip := ip } :=
  ⟨rfl, hC.refl hs.listed⟩

theorem Leads.trans (hC : C.Lawful) (h : C.Leads s s') (h' : C.Leads s' s'') : C.Leads s s'' :=
  ⟨h'.value.trans h.value, hC.trans h.leads h'.leads⟩

/-- A later state may stand at another place. -/
theorem Leads.move (h : C.Leads s s') (ip : Nat) : C.Leads s { s' with ip := ip } :=
  ⟨h.value, h.leads⟩

/-- It does not count at what place a frame starts. -/
theorem Leads.restart {ip : Nat} (h : C.Leads { s with ip := ip } s') : C.Leads s s' :=
  ⟨h.value, h.leads⟩

theorem Leads.check (hC : C.Lawful) (hs : C.Starts s) {failure : Option Bytes}
    (h : ∀ message, failure = some message → Made C.quotes message) : C.Leads s (s.check failure) := by
  cases failure with
  | none => exact Leads.same hC hs s.ip
  | some message => exact ⟨rfl, hC.ended hs.listed (hC.lists_refl _) (h message rfl)⟩

theorem Leads.merge (hC : C.Lawful) {start sub : Vm} (h : C.Leads start sub)
    (hvalid : start.valid = s.valid) (herrors : start.errors = s.errors) :
    C.Leads s (s.merge sub) := by
  have hleads := h.leads
  rw [hvalid, herrors] at hleads
  exact ⟨rfl, hC.merge hleads⟩

/-- What follows on a later state. -/
theorem Leads.then (hC : C.Lawful) (h : C.Leads s s') {x : Except Fault Vm}
    (hx : Permits x (C.Leads s')) : Permits x (C.Leads s) :=
  hx.mono (fun _ h' => h.trans hC h')

end Course

/-! ## The instructions -/

namespace Machine

open Course

variable {C : Course} {m : Machine} {f : Vm → Except Fault Vm} {s : Vm}

theorem failIf_made {failed : Bool} {text : Bytes} (h : Made Q text) :
    ∀ message, failIf failed text = some message → Made Q message := by
  intro message hmessage
  unfold failIf at hmessage
  split at hmessage
  · cases hmessage
    exact h
  · cases hmessage

/-- Every name in the program may be quoted. -/
def Named (m : Machine) (Q : Bytes → Prop) : Prop :=
  ∀ i ∈ m.code, ∀ name, i.operandStr = some (some name) → Q name.bytes

theorem checkOp_made {v : Json} {i : Instr}
    (hname : ∀ name, i.operandStr = some (some name) → Q name.bytes) :
    ∀ message, checkOp m v i = some message → Made Q message := by
  cases i with
  | checkRequired name =>
    intro message hmessage
    simp only [checkOp] at hmessage
    split at hmessage
    · refine failIf_made ?_ message hmessage
      exact (made_words (by decide)).append (textOrNull_made (fun n hn => hname n (hn ▸ rfl)))
    · cases hmessage
  | checkType mask | checkConst expected | checkReadOnly | checkWriteOnly =>
    exact failIf_made (made_words (by decide))
  | checkMinLen | checkMaxLen | checkFormat | checkMinimum | checkMaximum | checkExMinimum
  | checkExMaximum | checkMultipleOf | checkMinItems | checkMaxItems | checkUnique | checkEnum
  | checkMinProps | checkMaxProps | checkPattern =>
    intro message hmessage
    simp only [checkOp] at hmessage
    split at hmessage
    · exact failIf_made (made_words (by decide)) message hmessage
    · cases hmessage
  | _ =>
    intro message hmessage
    cases hmessage

theorem runOn_keeps (hC : C.Lawful) (hf : C.Keeps f) (hs : C.Starts s) (vm : Vm) {value : Json}
    (hv : Heard C.quotes value) : Permits (runOn f vm s value) (C.Leads s) := by
  refine Permits.bind (hf { s with value := value, ip := vm.ip } ⟨hv, hs.listed⟩) ?_
  intro sub hsub
  exact Permits.pure (hsub.merge hC rfl rfl)

theorem onProp_keeps (hC : C.Lawful) (hf : C.Keeps f) (hs : C.Starts s) (vm : Vm) {name : Bytes}
    (hname : C.quotes (CStr.ofBytes name).bytes) : Permits (onProp f vm s name) (C.Leads s) := by
  have hv : Heard C.quotes (.str (CStr.ofBytes name).bytes) := by
    intro t ht
    cases ht
    rwa [CStr.ofBytes_bytes]
  refine Permits.bind
    (hf { s with value := .str (CStr.ofBytes name).bytes, ip := vm.ip } ⟨hv, hs.listed⟩) ?_
  intro sub hsub
  have hleads := hsub.leads
  apply Permits.pure
  split
  · rename_i hvalid
    rw [hvalid] at hleads
    exact ⟨rfl, hC.pass hleads⟩
  · refine ⟨rfl, hC.ended hs.listed (hC.lists hleads) ?_⟩
    exact made_between (.quote hname) (by decide) (by decide)

theorem fold_keeps {β : Type} {g : Vm → β → Except Fault Vm} (hC : C.Lawful) (hs : C.Starts s)
    (l : List β) (hg : ∀ acc, C.Starts acc → ∀ b ∈ l, Permits (g acc b) (C.Leads acc)) :
    Permits (l.foldlM g s) (C.Leads s) := by
  refine Permits.foldlM (Q := C.Leads s) (Leads.same hC hs s.ip) ?_
  intro acc hacc b hb
  exact hacc.then hC (hg acc (hs.later hC hacc) b hb)

/-- Skipping a body tells nothing. -/
theorem skip_keeps {x : Except Fault Vm} (h : Permits x (C.Leads s)) :
    Permits (x >>= fun s' => pure (m.skipToEnd s')) (C.Leads s) :=
  Permits.bind h (fun _ hs' => Permits.pure (hs'.move _))

theorem branchAll_keeps (hC : C.Lawful) (hf : C.Keeps f) (hs : C.Starts s) (n : Nat) :
    Permits (branchAll f n s) (C.Leads s) := by
  induction n generalizing s with
  | zero => exact Permits.ok (Leads.same hC hs s.ip)
  | succ n ih =>
    refine Permits.bind (hf s hs) ?_
    intro sub hsub
    have hmerge : C.Leads s { s.merge sub with ip := sub.ip } := (hsub.merge hC rfl rfl).move sub.ip
    exact hmerge.then hC (ih (hs.later hC hmerge))

/-- Quiet frames leave the flag and the list. -/
theorem branchCount_keeps (hC : C.Lawful) (hs : C.Starts s) (n passed : Nat) :
    Permits (branchCount f n s passed) (fun r => C.Leads s r.1) := by
  induction n generalizing s passed with
  | zero => exact Permits.ok (Leads.same hC hs s.ip)
  | succ n ih =>
    refine Permits.bind (P := fun _ => True) (fun _ _ => trivial) ?_
    intro sub _
    exact (ih (hs.move sub.ip) _).mono (fun r h => h.restart)

theorem passBodies_quiet_keeps (hC : C.Lawful) (hs : C.Starts s) (n : Nat) :
    Permits (passBodies f true n s) (C.Leads s) := by
  induction n generalizing s with
  | zero => exact Permits.ok (Leads.same hC hs s.ip)
  | succ n ih =>
    refine Permits.bind (P := fun _ => True) (fun _ _ => trivial) ?_
    intro sub _
    exact (ih (hs.move sub.ip)).mono (fun s' h => h.restart)

/-- Where no body is chosen, the list takes the errors of all, and the flag stays. -/
theorem passBodies_lists (hC : C.Lawful) (hf : C.Keeps f) (hs : C.Starts s) (n : Nat) :
    Permits (passBodies f false n s)
      (fun s' => s'.value = s.value ∧ C.lists s.errors s'.errors) := by
  induction n generalizing s with
  | zero => exact Permits.ok ⟨rfl, hC.lists_refl _⟩
  | succ n ih =>
    refine Permits.bind (hf s hs) ?_
    intro sub hsub
    have hlists := hC.lists hsub.leads
    have hnext : C.Starts { s with ip := sub.ip, errors := sub.errors } :=
      ⟨hs.heard, hC.lists_listed hs.listed hlists⟩
    exact (ih hnext).mono (fun s' h => ⟨h.1, hC.lists_trans hlists h.2⟩)

/-- The error behind them tells what the flag does not. -/
theorem passed_error_keeps (hC : C.Lawful) (hf : C.Keeps f) (hs : C.Starts s) (count : Nat)
    {message : Bytes} (h : Made C.quotes message) : Permits (do
      let s' ← passBodies f false count s
      return s'.addError message) (C.Leads s) := by
  refine Permits.bind (passBodies_lists hC hf hs count) ?_
  rintro s' ⟨hvalue, hlists⟩
  exact Permits.pure ⟨hvalue, hC.ended hs.listed hlists h⟩

theorem condPart_keeps (hC : C.Lawful) (hf : C.Keeps f) (hs : C.Starts s) (isPart : Instr → Bool)
    (taken : Bool) : Permits (m.condPart f isPart taken s) (C.Leads s) := by
  unfold condPart
  split
  · split
    · dsimp only
      split
      · exact (hf _ (hs.move (s.ip + 1))).mono (fun s' h => h.restart)
      · exact Permits.ok (Leads.same hC hs _)
    · exact Permits.ok (Leads.same hC hs s.ip)
  · exact Permits.ok (Leads.same hC hs s.ip)

theorem readCount_keeps (hC : C.Lawful) (hs : C.Starts s) (atEnd : Int) :
    Permits (m.readCount atEnd s) (fun r => C.Leads s r.2) := by
  unfold readCount
  split
  · refine Permits.bind (P := fun _ => True) (fun _ _ => trivial) ?_
    intro instr _
    split
    · exact Permits.pure (Leads.same hC hs _)
    · exact Permits.error
  · exact Permits.pure (Leads.same hC hs s.ip)

theorem advance_keeps (hC : C.Lawful) (hs : C.Starts s) (n : Int) :
    Permits (m.advance n s) (C.Leads s) := by
  unfold advance
  split
  · exact Permits.ok (Leads.same hC hs _)
  · exact Permits.error

theorem requireNames_keeps (hC : C.Lawful) (hnames : m.Named C.quotes) {trigger : CStr}
    (htrigger : C.quotes trigger.bytes) (hs : C.Starts s) (n : Nat) :
    Permits (m.requireNames trigger n s) (C.Leads s) := by
  induction n generalizing s with
  | zero => exact Permits.ok (Leads.same hC hs s.ip)
  | succ n ih =>
    unfold requireNames
    split
    · exact Permits.ok (Leads.same hC hs s.ip)
    · rename_i instr hinstr
      split
      · exact Permits.error
      · rename_i name hname
        have hquote : Made C.quotes (textOrNull name) := textOrNull_made (fun n hn =>
          hnames instr (List.mem_of_getElem? hinstr) n (hn ▸ hname))
        have hneeds : Made C.quotes
            (ascii "dependentRequired: '" ++ trigger.bytes ++ ascii "' requires '") :=
          made_between (.quote htrigger) (by decide) (by decide)
        have hmessage : Made C.quotes (ascii "dependentRequired: '" ++ trigger.bytes ++
            ascii "' requires '" ++ textOrNull name ++ ascii "'") :=
          (hneeds.append hquote).append (made_words (by decide))
        have hafter := hs.move (s.ip + 1)
        have hcheck := Leads.check hC hafter
          (@failIf_made _ (s.value.objGet name).isNone _ hmessage)
        exact (hcheck.then hC (ih (hafter.later hC hcheck))).mono (fun s' h => h.restart)

theorem dispatchOn_keeps (hC : C.Lawful) (hf : C.Keeps f) {property : CStr}
    (hproperty : C.quotes property.bytes) (hs : C.Starts s) (start count : Nat) :
    Permits (m.dispatchOn f property start count s) (C.Leads s) := by
  have hheard := hs.heard
  unfold dispatchOn
  split
  · rename_i members hvalue
    split
    · rename_i wanted hwanted
      refine Permits.bind (P := fun _ => True) (fun _ _ => trivial) ?_
      intro found _
      cases found with
      | none =>
        have hquote : C.quotes (CStr.ofBytes wanted).bytes := by
          rw [hvalue] at hwanted hheard
          obtain ⟨member, hmember, hvalue⟩ := Json.mem_of_objGet hwanted
          exact hheard wanted (.member hmember (hvalue ▸ .str wanted))
        exact passed_error_keeps hC hf hs count
          (made_between (.quote hquote) (by decide) (by decide))
      | some i =>
        refine Permits.bind (passBodies_quiet_keeps hC hs i) ?_
        intro s' hs'
        have hstart := hs.later hC hs'
        refine Permits.bind (hf s' hstart) ?_
        intro sub hsub
        have hmerge : C.Leads s' { s'.merge sub with ip := sub.ip } :=
          (hsub.merge hC rfl rfl).move sub.ip
        exact (hs'.trans hC hmerge).then hC
          (passBodies_quiet_keeps hC (hstart.later hC hmerge) _)
    · exact passed_error_keeps hC hf hs count
        (made_between (.quote hproperty) (by decide) (by decide))
  · exact passed_error_keeps hC hf hs count (made_words (by decide))

theorem checkContainsBounds_keeps (hC : C.Lawful) (hs : C.Starts s) (min max : Int) (count : Nat) :
    C.Leads s (checkContainsBounds s min max count) := by
  have hmessage : ∀ (few order : String) (a b : Int),
      (ascii few).all (fun x => decide (x < 128)) = true →
      (ascii order).all (fun x => decide (x < 128)) = true →
      Made C.quotes (ascii few ++ decimal a ++ ascii order ++ decimal b ++ ascii ")") := by
    intro few order a b hfew horder
    exact ((made_between (decimal_made a) hfew horder).append (decimal_made b)).append
      (made_words (by decide))
  have hfew := hmessage "contains: too few matches (" " < " count min (by decide) (by decide)
  have hmany := hmessage "contains: too many matches (" " > " count max (by decide) (by decide)
  have hmin := Leads.check hC hs (@failIf_made _ ((count : Int) < min) _ hfew)
  exact hmin.trans hC (Leads.check hC (hs.later hC hmin) (failIf_made hmany))

/-- What one instruction does to a frame. -/
theorem dispatch_keeps (hC : C.Lawful) (hnames : m.Named C.quotes) (hf : C.Keeps f)
    (hs : C.Starts s) {i : Instr} (hi : i ∈ m.code) : Permits (m.dispatch f s i) (C.Leads s) := by
  have hskip : Permits (.ok (m.skipToEnd s) : Except Fault Vm) (C.Leads s) :=
    Permits.ok (Leads.same hC hs _)
  have hrun : ∀ values : List Json, (∀ v ∈ values, Heard C.quotes v) →
      Permits (values.foldlM (runOn f s) s) (C.Leads s) := by
    intro values hvalues
    exact fold_keeps hC hs values (fun acc hacc v hv => runOn_keeps hC hf hacc s (hvalues v hv))
  have hheard := hs.heard
  have hname : ∀ name, i.operandStr = some (some name) → C.quotes name.bytes := hnames i hi
  cases i with
  | enterItems =>
    simp only [dispatch]
    split
    · rename_i items hitems
      rw [hitems] at hheard
      exact skip_keeps (hrun items (fun v hmem => hheard.item hmem))
    · exact hskip
  | enterPrefixItem index =>
    simp only [dispatch]
    split
    · rename_i items hitems
      rw [hitems] at hheard
      refine skip_keeps (hrun _ (fun v hmem => hheard.item ?_))
      rw [Option.mem_toList] at hmem
      exact List.mem_of_getElem? hmem
    · exact hskip
  | enterProperty name =>
    simp only [dispatch]
    split
    · rename_i members hmembers
      refine skip_keeps (hrun _ (fun v hmem => ?_))
      rw [Option.mem_toList, hmembers] at hmem
      rw [hmembers] at hheard
      obtain ⟨member, hmember, rfl⟩ := Json.mem_of_objGet hmem
      exact hheard.member hmember
    · exact hskip
  | checkPatternProps pattern =>
    simp only [dispatch]
    split
    · rename_i members regex hmembers hregex
      rw [hmembers] at hheard
      refine skip_keeps (hrun _ (fun v hmem => ?_))
      obtain ⟨member, hmember, rfl⟩ := List.mem_map.mp hmem
      exact hheard.member (List.mem_filter.mp hmember).1
    · exact hskip
  | checkPropNames =>
    simp only [dispatch]
    split
    · rename_i members hmembers
      rw [hmembers] at hheard
      refine skip_keeps (fold_keeps hC hs _ (fun acc hacc name hmem => ?_))
      obtain ⟨member, hmember, rfl⟩ := List.mem_map.mp hmem
      exact onProp_keeps hC hf hacc s (hheard member.1 (.key hmember))
    · exact hskip
  | enterAdditional => exact hskip
  | branchAllOf count => exact branchAll_keeps hC hf hs _
  | branchAnyOf count =>
    refine Permits.bind (branchCount_keeps hC hs _ 0) ?_
    intro r hr
    exact Permits.pure (hr.trans hC
      (Leads.check hC (hs.later hC hr) (failIf_made (made_words (by decide)))))
  | branchOneOf count =>
    refine Permits.bind (branchCount_keeps hC hs _ 0) ?_
    intro r hr
    exact Permits.pure (hr.trans hC (Leads.check hC (hs.later hC hr)
      (failIf_made ((made_words (by decide)).append (decimal_made _)))))
  | negate =>
    refine Permits.bind (P := fun _ => True) (fun _ _ => trivial) ?_
    intro sub _
    exact Permits.pure (Leads.check hC (hs.move sub.ip)
      (failIf_made (made_words (by decide)))).restart
  | condIf =>
    refine Permits.bind (P := fun _ => True) (fun _ _ => trivial) ?_
    intro sub _
    have hstart := hs.move sub.ip
    refine Permits.bind (condPart_keeps hC hf hstart isThen sub.valid) ?_
    intro s' hs'
    exact (hs'.then hC (condPart_keeps hC hf (hstart.later hC hs') isElse _)).mono
      (fun s'' h => h.restart)
  | checkDepRequired trigger =>
    refine Permits.bind (readCount_keeps hC hs 0) ?_
    intro r hr
    have hstart := hs.later hC hr
    dsimp only
    split
    · exact hr.then hC (requireNames_keeps hC hnames (hname trigger rfl) hstart _)
    · exact hr.then hC (advance_keeps hC hstart _)
  | checkDepSchema trigger =>
    simp only [dispatch]
    split
    · refine Permits.bind (hf s hs) ?_
      intro sub hsub
      exact Permits.pure ((hsub.merge hC rfl rfl).move sub.ip)
    · exact hskip
  | checkContains min =>
    simp only [dispatch]
    split
    · refine Permits.bind (readCount_keeps hC hs (-1)) ?_
      intro r hr
      refine Permits.bind (P := fun _ => True) (fun _ _ => trivial) ?_
      intro count _
      have hbounds := checkContainsBounds_keeps hC (hs.later hC hr) min r.1 count
      exact Permits.pure ((hr.trans hC hbounds).move _)
    · exact hskip
  | discriminator property =>
    refine Permits.bind (readCount_keeps hC hs 0) ?_
    intro r hr
    have hstart := hs.later hC hr
    refine Permits.bind (advance_keeps hC hstart _) ?_
    intro s' hs'
    exact (hr.trans hC hs').then hC
      (dispatchOn_keeps hC hf (hname property rfl) (hstart.later hC hs') _ _)
  | _ => exact Permits.ok (Leads.check hC hs (checkOp_made hname))

theorem frame_keeps (hC : C.Lawful) (hnames : m.Named C.quotes) (watch : Nat → Bool)
    (hf : C.Keeps f) : C.Keeps (m.frame watch f) := by
  intro s hs
  unfold frame
  split
  · split
    · exact Permits.ok (Leads.same hC hs s.ip)
    · exact Permits.ok (Leads.same hC hs _)
    · rename_i instr _ hinstr
      have hstart := hs.move (s.ip + 1)
      refine Permits.bind (dispatch_keeps hC hnames hf hstart (List.mem_of_getElem? hinstr)) ?_
      intro s' hs'
      exact (hs'.then hC (hf s' (hstart.later hC hs'))).mono (fun s'' h => h.restart)
  · exact Permits.error

/-- `execute` keeps to the course, whatever the program. -/
theorem execute_keeps (hC : C.Lawful) (hnames : m.Named C.quotes) : C.Keeps m.execute := by
  apply Fuel.run_keeps (P := fun s r => C.Starts s → Permits r (C.Leads s))
  · exact fun _ _ => Permits.error
  · exact fun _ hf => frame_keeps hC hnames _ hf

end Machine

end Liboas
