import Liboas.Core.Spelling
import Mathlib.Data.List.Perm.Basic
import Mathlib.Data.Rat.Defs
import Mathlib.Data.Rat.Cast.Order

/-!
# Values as they are written

A number has a mathematical value, and several spellings. Written as an integer it is read as
one, when it fits 64 bits. Written with a fraction or an exponent it is read as a binary64
number. A value with exact numbers stands for all its readings.
-/

namespace Liboas

/-- A JSON value with exact numbers. -/
inductive Exact where
  | null
  | bool (b : Bool)
  | num (x : Rat)
  | str (s : Bytes)
  | arr (items : List Exact)
  | obj (members : List (Bytes × Exact))

namespace Exact

@[elab_as_elim]
theorem values_induct {P : Exact → Prop} (null : P .null) (bool : ∀ b, P (.bool b))
    (num : ∀ x, P (.num x)) (str : ∀ s, P (.str s))
    (arr : ∀ items : List Exact, (∀ w ∈ items, P w) → P (.arr items))
    (obj : ∀ members : List (Bytes × Exact), (∀ m ∈ members, P m.2) → P (.obj members)) :
    ∀ w : Exact, P w
  | .null => null
  | .bool b => bool b
  | .num x => num x
  | .str s => str s
  | .arr items => arr items fun w _ => values_induct null bool num str arr obj w
  | .obj members => obj members fun m _ => values_induct null bool num str arr obj m.2
termination_by w => sizeOf w
decreasing_by
  · have := List.sizeOf_lt_of_mem ‹w ∈ items›
    simp only [Exact.arr.sizeOf_spec]
    omega
  · have := List.sizeOf_lt_of_mem ‹m ∈ members›
    have hsnd : sizeOf m.2 < sizeOf m := by
      cases m
      simp only [Prod.mk.sizeOf_spec]
      omega
    simp only [Exact.obj.sizeOf_spec]
    omega

/-- In every object of the value, at any depth, the keys are distinct. -/
inductive DistinctKeys : Exact → Prop where
  | null : DistinctKeys .null
  | bool (b : Bool) : DistinctKeys (.bool b)
  | num (x : Rat) : DistinctKeys (.num x)
  | str (s : Bytes) : DistinctKeys (.str s)
  | arr (items : List Exact) : (∀ w ∈ items, DistinctKeys w) → DistinctKeys (.arr items)
  | obj (members : List (Bytes × Exact)) : (members.map (·.1)).Nodup →
      (∀ m ∈ members, DistinctKeys m.2) → DistinctKeys (.obj members)

theorem DistinctKeys.item {items : List Exact} (h : DistinctKeys (.arr items)) :
    ∀ w ∈ items, DistinctKeys w := by
  cases h with
  | arr _ h => exact h

theorem DistinctKeys.nodup {members : List (Bytes × Exact)} (h : DistinctKeys (.obj members)) :
    (members.map (·.1)).Nodup := by
  cases h with
  | obj _ h _ => exact h

theorem DistinctKeys.member {members : List (Bytes × Exact)} (h : DistinctKeys (.obj members)) :
    ∀ m ∈ members, DistinctKeys m.2 := by
  cases h with
  | obj _ _ h => exact h

/-- Every number in the value, at any depth, is as `P` says. -/
inductive Numbers (P : Rat → Prop) : Exact → Prop where
  | null : Numbers P .null
  | bool (b : Bool) : Numbers P (.bool b)
  | num (x : Rat) : P x → Numbers P (.num x)
  | str (s : Bytes) : Numbers P (.str s)
  | arr (items : List Exact) : (∀ w ∈ items, Numbers P w) → Numbers P (.arr items)
  | obj (members : List (Bytes × Exact)) : (∀ m ∈ members, Numbers P m.2) →
      Numbers P (.obj members)

/-! ## Readings -/

/-- The value is read for a spelling of the exact value, when numbers are as `R` says. -/
inductive Reads (R : Rat → Num → Prop) : Exact → Json → Prop where
  | null : Reads R .null .null
  | bool (b : Bool) : Reads R (.bool b) (.bool b)
  | num (x : Rat) (n : Num) : R x n → Reads R (.num x) (.num n)
  | str (s : Bytes) : Reads R (.str s) (.str s)
  | arr (items : List Exact) (items' : List Json) : List.Forall₂ (Reads R) items items' →
      Reads R (.arr items) (.arr items')
  | obj (members : List (Bytes × Exact)) (members' : List (Bytes × Json)) :
      members.map (·.1) = members'.map (·.1) →
      List.Forall₂ (fun m m' => Reads R m.2 m'.2) members members' →
      Reads R (.obj members) (.obj members')

section Reads

variable {R R' : Rat → Num → Prop} {w : Exact} {a : Json}

theorem reads_arr {items : List Exact} : Reads R (.arr items) a ↔
    ∃ items', a = .arr items' ∧ List.Forall₂ (Reads R) items items' := by
  constructor
  · intro h
    cases h with
    | arr _ items' h => exact ⟨items', rfl, h⟩
  · rintro ⟨items', rfl, h⟩
    exact .arr _ _ h

theorem reads_obj {members : List (Bytes × Exact)} : Reads R (.obj members) a ↔
    ∃ members', a = .obj members' ∧
      List.Forall₂ (fun m m' => m.1 = m'.1 ∧ Reads R m.2 m'.2) members members' := by
  constructor
  · intro h
    cases h with
    | obj _ members' hkeys h => exact ⟨members', rfl, Paired.and_map_iff.mpr ⟨hkeys, h⟩⟩
  · rintro ⟨members', rfl, h⟩
    obtain ⟨hkeys, h⟩ := Paired.and_map_iff.mp h
    exact .obj _ _ hkeys h

theorem Reads.distinct (h : Reads R w a) (hw : DistinctKeys w) : Json.DistinctKeys a := by
  induction w using values_induct generalizing a with
  | arr items ih =>
    obtain ⟨items', rfl, heach⟩ := reads_arr.mp h
    apply Json.DistinctKeys.arr
    intro v hv
    obtain ⟨w, hmem, hread⟩ := Paired.exists_left heach hv
    exact ih w hmem hread (hw.item w hmem)
  | obj members ih =>
    obtain ⟨members', rfl, heach⟩ := reads_obj.mp h
    have hkeys := (Paired.and_map_iff.mp heach).1
    refine .obj members' (hkeys ▸ hw.nodup) fun m' hm' => ?_
    obtain ⟨m, hm, -, hread⟩ := Paired.exists_left heach hm'
    exact ih m hm hread (hw.member m hm)
  | _ =>
    cases h
    constructor

theorem Reads.mono (h : Reads R w a) (hR : ∀ {x n}, R x n → R' x n) : Reads R' w a := by
  induction w using values_induct generalizing a with
  | num x =>
    cases h with
    | num _ n h => exact .num x n (hR h)
  | arr items ih =>
    obtain ⟨items', rfl, heach⟩ := reads_arr.mp h
    exact .arr _ _ (Paired.imp_mem heach fun w hw _ _ => ih w hw)
  | obj members ih =>
    obtain ⟨members', rfl, heach⟩ := reads_obj.mp h
    exact reads_obj.mpr ⟨members', rfl,
      Paired.imp_mem heach fun m hm _ _ hread => ⟨hread.1, ih m hm hread.2⟩⟩
  | _ =>
    cases h
    constructor

/-- A value can be read in another way when its numbers can. -/
theorem Reads.exists (h : Reads R w a) (hR : ∀ {x n}, R x n → ∃ n', R' x n') :
    ∃ b, Reads R' w b := by
  induction w using values_induct generalizing a with
  | null => exact ⟨.null, .null⟩
  | bool b => exact ⟨.bool b, .bool b⟩
  | num x =>
    cases h with
    | num _ n h =>
      obtain ⟨n', hn'⟩ := hR h
      exact ⟨.num n', .num x n' hn'⟩
  | str s => exact ⟨.str s, .str s⟩
  | arr items ih =>
    obtain ⟨items', rfl, heach⟩ := reads_arr.mp h
    have hitems : ∀ w ∈ items, ∃ b, Reads R' w b := by
      intro w hw
      obtain ⟨v, -, hread⟩ := Paired.exists_right heach hw
      exact ih w hw hread
    obtain ⟨written, hwritten⟩ := Paired.exists_of_forall hitems
    exact ⟨.arr written, .arr _ _ hwritten⟩
  | obj members ih =>
    obtain ⟨members', rfl, heach⟩ := reads_obj.mp h
    have hmembers : ∀ m ∈ members, ∃ m' : Bytes × Json, m.1 = m'.1 ∧ Reads R' m.2 m'.2 := by
      intro m hm
      obtain ⟨v, -, -, hread⟩ := Paired.exists_right heach hm
      obtain ⟨b, hb⟩ := ih m hm hread
      exact ⟨(m.1, b), rfl, hb⟩
    obtain ⟨written, hwritten⟩ := Paired.exists_of_forall hmembers
    exact ⟨.obj written, reads_obj.mpr ⟨written, rfl, hwritten⟩⟩

theorem Reads.and {P : Rat → Prop} (h : Reads R w a) (hw : Numbers P w) :
    Reads (fun x n => P x ∧ R x n) w a := by
  induction w using values_induct generalizing a with
  | num x =>
    cases h with
    | num _ n h =>
      cases hw with
      | num _ hx => exact .num x n ⟨hx, h⟩
  | arr items ih =>
    obtain ⟨items', rfl, heach⟩ := reads_arr.mp h
    cases hw with
    | arr _ hw => exact .arr _ _ (Paired.imp_mem heach fun w hmem _ _ hread =>
        ih w hmem hread (hw w hmem))
  | obj members ih =>
    obtain ⟨members', rfl, heach⟩ := reads_obj.mp h
    cases hw with
    | obj _ hw => exact reads_obj.mpr ⟨members', rfl, Paired.imp_mem heach
        fun m hm _ _ hread => ⟨hread.1, ih m hm hread.2 (hw m hm)⟩⟩
  | _ =>
    cases h
    constructor

end Reads

/-! ## Values with readings that are equal -/

/-- The values are the same, up to numbers that are related. -/
inductive Alike (S : Rat → Rat → Prop) : Exact → Exact → Prop where
  | null : Alike S .null .null
  | bool (b : Bool) : Alike S (.bool b) (.bool b)
  | num (x y : Rat) : S x y → Alike S (.num x) (.num y)
  | str (s : Bytes) : Alike S (.str s) (.str s)
  | arr (items items' : List Exact) : List.Forall₂ (Alike S) items items' →
      Alike S (.arr items) (.arr items')
  | obj (ms ns ns' : List (Bytes × Exact)) : ns'.Perm ns → ms.map (·.1) = ns'.map (·.1) →
      List.Forall₂ (fun m n => Alike S m.2 n.2) ms ns' → Alike S (.obj ms) (.obj ns)

section Alike

variable {R R' : Rat → Num → Prop} {S : Rat → Rat → Prop} {v w : Exact} {a b : Json}

theorem alike_arr {items : List Exact} : Alike S (.arr items) w ↔
    ∃ items', w = .arr items' ∧ List.Forall₂ (Alike S) items items' := by
  constructor
  · intro h
    cases h with
    | arr _ items' h => exact ⟨items', rfl, h⟩
  · rintro ⟨items', rfl, h⟩
    exact .arr _ _ h

theorem alike_obj {ms : List (Bytes × Exact)} : Alike S (.obj ms) w ↔
    ∃ ns ns', w = .obj ns ∧ ns'.Perm ns ∧
      List.Forall₂ (fun m n => m.1 = n.1 ∧ Alike S m.2 n.2) ms ns' := by
  constructor
  · intro h
    cases h with
    | obj _ ns ns' hperm hkeys h =>
      exact ⟨ns, ns', rfl, hperm, Paired.and_map_iff.mpr ⟨hkeys, h⟩⟩
  · rintro ⟨ns, ns', rfl, hperm, h⟩
    obtain ⟨hkeys, h⟩ := Paired.and_map_iff.mp h
    exact .obj _ _ ns' hperm hkeys h

/-- The members that were read can be put in another order with their readings. -/
theorem reads_perm {ns : List (Bytes × Exact)} {bs bs' : List (Bytes × Json)}
    (h : List.Forall₂ (fun n b => n.1 = b.1 ∧ Reads R n.2 b.2) ns bs) (hperm : bs'.Perm bs) :
    ∃ ns', ns'.Perm ns ∧ List.Forall₂ (fun n b => n.1 = b.1 ∧ Reads R n.2 b.2) ns' bs' := by
  obtain ⟨ns', h', hperm'⟩ := List.perm_comp_forall₂ hperm h.flip
  exact ⟨ns', hperm', h'.flip⟩

/-- Values with readings that are equal are alike. -/
theorem alike_of_reads (hR : ∀ {x y n n'}, R x n → R' y n' → n.identical n' = true → S x y)
    (hv : DistinctKeys v) (hw : DistinctKeys w) (hva : Reads R v a) (hwb : Reads R' w b)
    (hequal : Json.deepEquals a b = true) : Alike S v w := by
  induction v using values_induct generalizing w a b with
  | num x =>
    cases hva with
    | num _ n hx =>
      cases hwb with
      | num y n' hy =>
        rw [Json.deepEquals] at hequal
        exact .num x y (hR hx hy hequal)
      | _ => simp [Json.deepEquals] at hequal
  | arr items ih =>
    obtain ⟨as, rfl, has⟩ := reads_arr.mp hva
    cases hwb with
    | arr items' bs hbs =>
      rw [Json.deepEquals_arr] at hequal
      apply Alike.arr
      apply Paired.chain has hequal hbs
      exact fun x hx _ _ _ _ y hy hxa hab hyb => ih x hx (hv.item x hx) (hw.item y hy) hxa hyb hab
    | _ => simp [Json.deepEquals] at hequal
  | obj ms ih =>
    have hda := hva.distinct hv
    have hdb := hwb.distinct hw
    obtain ⟨as, rfl, has⟩ := reads_obj.mp hva
    cases hwb with
    | obj ns bs hkeys hbs =>
      obtain ⟨bs', hperm, hequal⟩ := (Json.deepEquals_perm hda.nodup hdb.nodup).mp hequal
      obtain ⟨ns', hperm', hns'⟩ := reads_perm (Paired.and_map_iff.mpr ⟨hkeys, hbs⟩) hperm
      refine alike_obj.mpr ⟨ns, ns', rfl, hperm', ?_⟩
      apply Paired.chain has hequal hns'
      rintro m hm a - b - n hn ⟨hma, hread⟩ ⟨hab, hequal⟩ ⟨hnb, hread'⟩
      refine ⟨hma.trans (hab.trans hnb.symm), ?_⟩
      exact ih m hm (hv.member m hm) (hw.member n (hperm'.mem_iff.mp hn)) hread hread' hequal
    | _ => simp [Json.deepEquals] at hequal
  | null =>
    cases hva
    cases hwb <;> simp [Json.deepEquals] at hequal
    exact .null
  | bool b =>
    cases hva
    cases hwb <;> simp [Json.deepEquals] at hequal
    exact hequal ▸ .bool _
  | str s =>
    cases hva
    cases hwb <;> simp [Json.deepEquals] at hequal
    exact hequal ▸ .str _

/-- Alike values can be read so that the readings are equal. -/
theorem Alike.exists_reads (h : Alike S v w)
    (hS : ∀ {x y n n'}, S x y → R x n → R y n' → ∃ m m', R x m ∧ R y m' ∧ m.identical m' = true)
    (hv : DistinctKeys v) (hw : DistinctKeys w) (hva : Reads R v a) (hwb : Reads R w b) :
    ∃ a' b', Reads R v a' ∧ Reads R w b' ∧ Json.deepEquals a' b' = true := by
  induction v using values_induct generalizing w a b with
  | num x =>
    cases h with
    | num _ y h =>
      cases hva with
      | num _ n hx =>
        cases hwb with
        | num _ n' hy =>
          obtain ⟨m, m', hm, hm', hequal⟩ := hS h hx hy
          exact ⟨.num m, .num m', .num x m hm, .num y m' hm', by rwa [Json.deepEquals]⟩
  | arr items ih =>
    obtain ⟨items', rfl, halike⟩ := alike_arr.mp h
    obtain ⟨as, rfl, has⟩ := reads_arr.mp hva
    obtain ⟨bs, rfl, hbs⟩ := reads_arr.mp hwb
    obtain ⟨as', bs', has', hbs', hequal⟩ := Paired.exists_two halike fun x hx y hy hxy => by
      obtain ⟨a, -, hxa⟩ := Paired.exists_right has hx
      obtain ⟨b, -, hyb⟩ := Paired.exists_right hbs hy
      exact ih x hx hxy (hv.item x hx) (hw.item y hy) hxa hyb
    exact ⟨.arr as', .arr bs', .arr _ _ has', .arr _ _ hbs', Json.deepEquals_arr.mpr hequal⟩
  | obj ms ih =>
    obtain ⟨ns, ns', rfl, hperm, halike⟩ := alike_obj.mp h
    obtain ⟨as, rfl, has⟩ := reads_obj.mp hva
    obtain ⟨bs, rfl, hbs⟩ := reads_obj.mp hwb
    have heach : ∀ m ∈ ms, ∀ n ∈ ns', m.1 = n.1 ∧ Alike S m.2 n.2 →
        ∃ a b : Bytes × Json, (m.1 = a.1 ∧ Reads R m.2 a.2) ∧ (n.1 = b.1 ∧ Reads R n.2 b.2) ∧
          a.1 = b.1 ∧ Json.deepEquals a.2 b.2 = true := by
      rintro m hm n hn ⟨hkey, hmn⟩
      have hn' := hperm.mem_iff.mp hn
      obtain ⟨a, -, -, hma⟩ := Paired.exists_right has hm
      obtain ⟨b, -, -, hnb⟩ := Paired.exists_right hbs hn'
      obtain ⟨a', b', ha', hb', hequal⟩ :=
        ih m hm hmn (hv.member m hm) (hw.member n hn') hma hnb
      exact ⟨(m.1, a'), (n.1, b'), ⟨rfl, ha'⟩, ⟨rfl, hb'⟩, hkey, hequal⟩
    obtain ⟨as', bs', has', hbs', hequal⟩ := Paired.exists_two halike heach
    obtain ⟨bs'', hbs'', hperm'⟩ := List.perm_comp_forall₂ hperm.symm hbs'
    have hva' := reads_obj.mpr ⟨as', rfl, has'⟩
    have hwb' := reads_obj.mpr ⟨bs'', rfl, hbs''⟩
    refine ⟨_, _, hva', hwb', ?_⟩
    rw [Json.deepEquals_perm (hva'.distinct hv).nodup (hwb'.distinct hw).nodup]
    exact ⟨bs', hperm'.symm, hequal⟩
  | null =>
    cases h
    exact ⟨.null, .null, .null, .null, by simp [Json.deepEquals]⟩
  | bool c =>
    cases h
    exact ⟨.bool c, .bool c, .bool c, .bool c, by simp [Json.deepEquals]⟩
  | str s =>
    cases h
    exact ⟨.str s, .str s, .str s, .str s, by simp [Json.deepEquals]⟩

/-- Alike values have equal readings only, when their numbers do. -/
theorem Alike.equal (h : Alike S v w)
    (hS : ∀ {x y n n'}, S x y → R x n → R y n' → n.identical n' = true)
    (hv : DistinctKeys v) (hw : DistinctKeys w) (hva : Reads R v a) (hwb : Reads R w b) :
    Json.deepEquals a b = true := by
  induction v using values_induct generalizing w a b with
  | num x =>
    cases h with
    | num _ y h =>
      cases hva with
      | num _ n hx =>
        cases hwb with
        | num _ n' hy =>
          rw [Json.deepEquals]
          exact hS h hx hy
  | arr items ih =>
    obtain ⟨items', rfl, halike⟩ := alike_arr.mp h
    obtain ⟨as, rfl, has⟩ := reads_arr.mp hva
    obtain ⟨bs, rfl, hbs⟩ := reads_arr.mp hwb
    rw [Json.deepEquals_arr]
    apply Paired.chain (R := fun a x => Reads R x a) has.flip halike
      (S := fun b y => Reads R y b) hbs.flip
    exact fun a _ x hx y hy b _ hxa hxy hyb => ih x hx hxy (hv.item x hx) (hw.item y hy) hxa hyb
  | obj ms ih =>
    have hda := hva.distinct hv
    have hdb := hwb.distinct hw
    obtain ⟨ns, ns', rfl, hperm, halike⟩ := alike_obj.mp h
    obtain ⟨as, rfl, has⟩ := reads_obj.mp hva
    obtain ⟨bs, rfl, hbs⟩ := reads_obj.mp hwb
    obtain ⟨bs', hbs', hperm'⟩ := List.perm_comp_forall₂ hperm hbs
    rw [Json.deepEquals_perm hda.nodup hdb.nodup]
    refine ⟨bs', hperm', ?_⟩
    apply Paired.chain (R := fun a m => m.1 = a.1 ∧ Reads R m.2 a.2) has.flip halike
      (S := fun b n => n.1 = b.1 ∧ Reads R n.2 b.2) hbs'.flip
    rintro a - m hm n hn b - ⟨hma, hread⟩ ⟨hmn, halike⟩ ⟨hnb, hread'⟩
    refine ⟨hma.symm.trans (hmn.trans hnb), ?_⟩
    exact ih m hm halike (hv.member m hm) (hw.member n (hperm.mem_iff.mp hn)) hread hread'
  | _ =>
    cases h
    cases hva
    cases hwb
    simp [Json.deepEquals]

theorem Alike.left {P : Rat → Prop} (h : Alike (fun x _ => P x) v w) : Numbers P v := by
  induction v using values_induct generalizing w with
  | num x =>
    cases h with
    | num _ _ h => exact .num x h
  | arr items ih =>
    obtain ⟨items', rfl, halike⟩ := alike_arr.mp h
    refine .arr items fun w hw => ?_
    obtain ⟨y, -, hwy⟩ := Paired.exists_right halike hw
    exact ih w hw hwy
  | obj ms ih =>
    obtain ⟨ns, ns', rfl, -, halike⟩ := alike_obj.mp h
    refine .obj ms fun m hm => ?_
    obtain ⟨n, -, -, hmn⟩ := Paired.exists_right halike hm
    exact ih m hm hmn
  | _ => constructor

end Alike

/-! ## Numbers -/

/-- The binary64 numbers that the JSON library reads for the spellings of a number with a
fraction or an exponent. -/
abbrev Reals := Rat → Double → Prop

/-- What the JSON library documents: numbers are rounded correctly, and all the integers of
64 bits are in the range. The sign of zero is kept. -/
structure Reals.Rounds (reals : Reals) : Prop where
  total : ∀ k : Int, -2 ^ 63 ≤ k → k < 2 ^ 64 → ∃ d, reals k d
  unique : ∀ {x d d'}, x ≠ 0 → reals x d → reals x d' → d = d'

/-- The number is an integer of 64 bits. -/
def IsInteger (x : Rat) : Prop := ∃ k : Int, x = k ∧ -2 ^ 63 ≤ k ∧ k < 2 ^ 64

/-- The number is read for a spelling with a fraction or an exponent. -/
def ReadsReal (reals : Reals) (x : Rat) (n : Num) : Prop := ∃ d, n = .real d ∧ reals x d

/-- The number is read for a spelling. -/
def NumReads (reals : Reals) (x : Rat) (n : Num) : Prop :=
  (∃ k : Int, n.integer = some k ∧ x = k) ∨ ReadsReal reals x n

/-- The numbers have spellings for which the same number is read. -/
def SameReading (reals : Reals) (x y : Rat) : Prop := x = y ∨ ∃ d, reals x d ∧ reals y d

section Numbers

variable {reals : Reals} {x y : Rat} {n n' : Num} {v w : Exact} {a b : Json}

theorem integer_range {k : Int} (h : n.integer = some k) : -2 ^ 63 ≤ k ∧ k < 2 ^ 64 := by
  cases n with
  | uint n =>
    cases h
    have := n.toNat_lt
    omega
  | sint n =>
    cases h
    have hlow := n.le_toInt
    have hhigh := n.toInt_lt
    omega
  | real d => cases h

theorem exists_integer {k : Int} (hlow : -2 ^ 63 ≤ k) (hhigh : k < 2 ^ 64) :
    ∃ n : Num, n.integer = some k := by
  by_cases hneg : k < 0
  · refine ⟨.sint (Int64.ofInt k), ?_⟩
    rw [Num.integer, Int64.toInt_ofInt_of_le (by omega) (by omega)]
  · refine ⟨.uint (UInt64.ofNat k.toNat), ?_⟩
    rw [Num.integer, UInt64.toNat_ofNat_of_lt' (by rw [UInt64.size]; omega)]
    simp
    omega

/-- Whatever can be read can be read as a binary64 number. -/
theorem NumReads.real (hrounds : reals.Rounds) (h : NumReads reals x n) :
    ∃ n', ReadsReal reals x n' := by
  rcases h with ⟨k, hk, rfl⟩ | h
  · obtain ⟨hlow, hhigh⟩ := integer_range hk
    obtain ⟨d, hd⟩ := hrounds.total k hlow hhigh
    exact ⟨.real d, d, rfl, hd⟩
  · exact ⟨n, h⟩

theorem NumReads.first (h : NumReads reals x n) :
    ∃ n', NumReads reals x n' ∧ (IsInteger x → n'.integer ≠ none) := by
  by_cases hx : IsInteger x
  · obtain ⟨k, rfl, hlow, hhigh⟩ := hx
    obtain ⟨n', hn'⟩ := exists_integer hlow hhigh
    exact ⟨n', .inl ⟨k, hn', rfl⟩, fun _ => by simp [hn']⟩
  · exact ⟨n, h, fun hinteger => absurd hinteger hx⟩

/-- Numbers with readings that are equal have the same reading. -/
theorem sameReading_of_identical (hx : NumReads reals x n) (hy : NumReads reals y n')
    (h : n.identical n' = true) : SameReading reals x y := by
  rcases Num.identical_iff.mp h with ⟨k, hk, hk'⟩ | ⟨d, rfl, rfl⟩
  · rcases hx with ⟨l, hl, rfl⟩ | ⟨d, rfl, -⟩
    · rcases hy with ⟨l', hl', rfl⟩ | ⟨d, rfl, -⟩
      · rw [hk] at hl
        rw [hk'] at hl'
        cases hl
        cases hl'
        exact .inl rfl
      · cases hk'
    · cases hk
  · rcases hx with ⟨l, hl, -⟩ | ⟨d', hd', hx⟩
    · cases hl
    · rcases hy with ⟨l, hl, -⟩ | ⟨d'', hd'', hy⟩
      · cases hl
      · cases hd'
        cases hd''
        exact .inr ⟨d, hx, hy⟩

theorem SameReading.exists (h : SameReading reals x y) (hx : NumReads reals x n) :
    ∃ m m', NumReads reals x m ∧ NumReads reals y m' ∧ m.identical m' = true := by
  rcases h with rfl | ⟨d, hx, hy⟩
  · exact ⟨n, n, hx, hx, Num.identical_refl n⟩
  · exact ⟨.real d, .real d, .inr ⟨d, rfl, hx⟩, .inr ⟨d, rfl, hy⟩, Num.identical_refl _⟩

theorem NumReads.of_not_integer (hx : ¬ IsInteger x) (h : NumReads reals x n) :
    ReadsReal reals x n := by
  rcases h with ⟨k, hk, rfl⟩ | h
  · exact absurd ⟨k, rfl, integer_range hk⟩ hx
  · exact h

theorem SameReading.identical (hrounds : reals.Rounds) (h : SameReading reals x y)
    (hx : ¬ IsInteger x ∧ NumReads reals x n) (hy : ¬ IsInteger y ∧ NumReads reals y n') :
    n.identical n' = true := by
  obtain ⟨d, rfl, hd⟩ := hx.2.of_not_integer hx.1
  obtain ⟨d', rfl, hd'⟩ := hy.2.of_not_integer hy.1
  have hzero : ∀ {z : Rat}, ¬ IsInteger z → z ≠ 0 := by
    rintro z hz rfl
    exact hz ⟨0, rfl, by decide, by decide⟩
  have hsame : d = d' := by
    rcases h with rfl | ⟨e, hex, hey⟩
    · exact hrounds.unique (hzero hx.1) hd hd'
    · rw [hrounds.unique (hzero hx.1) hd hex, hrounds.unique (hzero hy.1) hd' hey]
  rw [hsame]
  exact Num.identical_refl _

end Numbers

/-! ## Readings of two values -/

/-- The value has a spelling that can be read. -/
def Readable (reals : Reals) (w : Exact) : Prop := ∃ a, Reads (NumReads reals) w a

/-- No number in the value, at any depth, is an integer of 64 bits. -/
def NoInteger (w : Exact) : Prop := Numbers (fun x => ¬ IsInteger x) w

section Values

variable {reals : Reals} {v w : Exact} {a b : Json}

theorem sameReading_alike (hv : DistinctKeys v) (hw : DistinctKeys w)
    (hva : Reads (NumReads reals) v a) (hwb : Reads (NumReads reals) w b)
    (hequal : Json.deepEquals a b = true) : Alike (SameReading reals) v w :=
  alike_of_reads sameReading_of_identical hv hw hva hwb hequal

theorem exists_equal (h : Alike (SameReading reals) v w) (hv : DistinctKeys v)
    (hw : DistinctKeys w) (hreadv : Readable reals v) (hreadw : Readable reals w) :
    ∃ a b, Reads (NumReads reals) v a ∧ Reads (NumReads reals) w b ∧
      Json.deepEquals a b = true := by
  obtain ⟨a, hva⟩ := hreadv
  obtain ⟨b, hwb⟩ := hreadw
  exact h.exists_reads (fun hxy hx _ => hxy.exists hx) hv hw hva hwb

theorem equal_of_noInteger (hrounds : reals.Rounds) (h : Alike (SameReading reals) v w)
    (hv : DistinctKeys v) (hw : DistinctKeys w) (hnov : NoInteger v) (hnow : NoInteger w)
    (hva : Reads (NumReads reals) v a) (hwb : Reads (NumReads reals) w b) :
    Json.deepEquals a b = true :=
  h.equal (SameReading.identical hrounds) hv hw (hva.and hnov) (hwb.and hnow)

/-- With its integers read as such, a value is equal to no reading without integers. -/
theorem exists_first (hread : Readable reals v) (hv : DistinctKeys v) :
    ∃ a, Reads (NumReads reals) v a ∧ ∀ w b, DistinctKeys w → Reads (ReadsReal reals) w b →
      Json.deepEquals a b = true → NoInteger v := by
  obtain ⟨_, hva⟩ := hread
  obtain ⟨a, hfirst⟩ := hva.exists NumReads.first
  refine ⟨a, hfirst.mono fun h => h.1, fun w b hw hwb hequal => ?_⟩
  have halike : Alike (fun x _ => ¬ IsInteger x) v w := by
    refine alike_of_reads ?_ hv hw hfirst hwb hequal
    rintro x y n n' ⟨-, hfirst⟩ ⟨d, rfl, -⟩ hidentical hinteger
    rcases Num.identical_iff.mp hidentical with ⟨k, -, hk⟩ | ⟨d', rfl, -⟩
    · cases hk
    · exact hfirst hinteger rfl
  exact halike.left

theorem exists_real (hrounds : reals.Rounds) (hread : Readable reals v) :
    ∃ a, Reads (ReadsReal reals) v a := by
  obtain ⟨a, hva⟩ := hread
  exact hva.exists (NumReads.real hrounds)

theorem Reads.real_of_noInteger (h : Reads (NumReads reals) v a) (hno : NoInteger v) :
    Reads (ReadsReal reals) v a :=
  (h.and hno).mono fun hx => hx.2.of_not_integer hx.1

end Values

end Exact

end Liboas
