import Liboas.Validator.Idempotent
import Mathlib.Data.List.Forall2
import Mathlib.Data.List.Nodup

/-!
# What inserting defaults leaves alone

The value with its defaults is the value that was given, with members added to objects, and
each of them is the default of a property that was absent.
-/

namespace Liboas

section Conserved

variable {α : Type}

mutual

/-- The second value is the first one with defaults added, where an object can be walked with
a schema. -/
inductive Conserves (mem : Memory α) : Option α → Json → Json → Prop where
  | other (schema : Option α) (v : Json) : v.isObj = false → Conserves mem schema v v
  | obj (schema : Option α) (members kept added : List (Bytes × Json)) :
      ConservesMembers mem schema members kept → (added.map (·.1)).Nodup →
      (∀ m ∈ added, Json.lookup members m.1 = none ∧
        ∃ b ∈ schema.toList.flatMap (targets mem m.1), ∃ value,
          (mem b).defaultValue = some value ∧ m.2 = value.reread) →
      Conserves mem schema (.obj members) (.obj (kept ++ added))

/-- The same members in the same order, each conserved with a schema that a property of its
name is walked with, or with none. -/
inductive ConservesMembers (mem : Memory α) :
    Option α → List (Bytes × Json) → List (Bytes × Json) → Prop where
  | nil (schema : Option α) : ConservesMembers mem schema [] []
  | cons (schema : Option α) (key : Bytes) (below : Option α) (v w : Json)
      (members kept : List (Bytes × Json)) :
      (∀ b ∈ below, b ∈ schema.toList.flatMap (targets mem key)) → Conserves mem below v w →
      ConservesMembers mem schema members kept →
      ConservesMembers mem schema ((key, v) :: members) ((key, w) :: kept)

end

variable {mem : Memory α}

theorem conserves_refl (v : Json) : ∀ schema, Conserves mem schema v v := by
  refine @Json.rec (fun v => ∀ schema, Conserves mem schema v v) (fun _ => True)
    (fun members => ∀ schema, ConservesMembers mem schema members members)
    (fun m => ∀ schema, Conserves mem schema m.2 m.2) (fun s => .other s _ rfl)
    (fun _ s => .other s _ rfl) (fun _ s => .other s _ rfl) (fun _ s => .other s _ rfl)
    (fun _ _ s => .other s _ rfl) ?_ trivial (fun _ _ _ _ => trivial) (fun s => .nil s) ?_
    (fun _ _ h => h) v
  · intro members h schema
    have hobj : Conserves mem schema (.obj members) (.obj (members ++ [])) :=
      .obj schema members members [] (h schema) List.nodup_nil (by simp)
    rwa [List.append_nil] at hobj
  · rintro ⟨key, v⟩ members hv hmembers schema
    exact .cons schema key none v v members members (by simp) (hv none) (hmembers schema)

/-! ## The loop over the properties -/

/-- How a member stands after the properties `walked` have had their turn. -/
def MemberKept (mem : Memory α) (left : Nat) (walked : List (Entry α)) (m m' : Bytes × Json) :
    Prop :=
  m'.1 = m.1 ∧ (m'.2 = m.2 ∨ ∃ e ∈ walked, e.name.bytes = m.1 ∧
    ∃ b, propertySchema mem e = some b ∧ m'.2 = applyDefaultsRecursive mem left b m.2)

/-- A member that one of the properties `walked` has added. -/
def MemberAdded (mem : Memory α) (walked : List (Entry α)) (members : List (Bytes × Json))
    (m : Bytes × Json) : Prop :=
  Json.lookup members m.1 = none ∧ ∃ e ∈ walked, e.name.bytes = m.1 ∧
    ∃ b, propertySchema mem e = some b ∧ (mem b).defaultValue = some m.2

/-- The members as they stand after the properties `walked`. -/
structure LoopState (mem : Memory α) (left : Nat) (walked : List (Entry α))
    (members kept added : List (Bytes × Json)) : Prop where
  kept : List.Forall₂ (MemberKept mem left walked) members kept
  nodup : (added.map (·.1)).Nodup
  added : ∀ m ∈ added, MemberAdded mem walked members m

theorem MemberKept.mono {left : Nat} {walked walked' : List (Entry α)} {m m' : Bytes × Json}
    (h : MemberKept mem left walked m m') (hsub : walked ⊆ walked') :
    MemberKept mem left walked' m m' := by
  obtain ⟨hkey, hsame | ⟨e, he, hrest⟩⟩ := h
  · exact ⟨hkey, .inl hsame⟩
  · exact ⟨hkey, .inr ⟨e, hsub he, hrest⟩⟩

theorem MemberAdded.mono {walked walked' : List (Entry α)} {members : List (Bytes × Json)}
    {m : Bytes × Json} (h : MemberAdded mem walked members m) (hsub : walked ⊆ walked') :
    MemberAdded mem walked' members m := by
  obtain ⟨habsent, e, he, hrest⟩ := h
  exact ⟨habsent, e, hsub he, hrest⟩

theorem LoopState.mono {left : Nat} {walked walked' : List (Entry α)}
    {members kept added : List (Bytes × Json)} (h : LoopState mem left walked members kept added)
    (hsub : walked ⊆ walked') : LoopState mem left walked' members kept added where
  kept := h.kept.imp (fun _ _ hm => hm.mono hsub)
  nodup := h.nodup
  added m hm := (h.added m hm).mono hsub

/-- A name that had no turn yet has its value from the input. -/
theorem LoopState.lookup_fresh {left : Nat} {walked : List (Entry α)}
    {members kept added : List (Bytes × Json)} (h : LoopState mem left walked members kept added)
    {name : Bytes} (hfresh : ∀ e ∈ walked, e.name.bytes ≠ name) :
    Json.lookup kept name = Json.lookup members name ∧ Json.lookup added name = none := by
  obtain ⟨hkept, -, hadded⟩ := h
  constructor
  · clear hadded
    induction hkept with
    | nil => rfl
    | @cons m m' _ _ hm _ ih =>
      obtain ⟨hkey, hsame | ⟨e, he, hname, -⟩⟩ := hm
      · rw [Json.lookup_cons, Json.lookup_cons, hkey, hsame, ih]
      · have hne : m.1 ≠ name := fun heq => hfresh e he (hname.trans heq)
        rw [Json.lookup_cons, Json.lookup_cons, hkey, if_neg hne, if_neg hne, ih]
  · cases hlookup : Json.lookup added name with
    | none => rfl
    | some v =>
      obtain ⟨-, e, he, hname, -⟩ := hadded _ (Json.lookup_mem hlookup)
      exact absurd hname (hfresh e he)

theorem changeFirst_append {f : Json → Json} {name : Bytes} {kept added : List (Bytes × Json)}
    {v : Json} (h : Json.lookup kept name = some v) :
    Json.changeFirst name f (kept ++ added) = Json.changeFirst name f kept ++ added := by
  induction kept with
  | nil => cases h
  | cons m kept ih =>
    rw [Json.lookup_cons] at h
    rw [List.cons_append]
    unfold Json.changeFirst
    by_cases hm : m.1 = name
    · simp [hm]
    · rw [if_neg hm] at h
      simp [hm, ih h]

/-- The turn of a property whose name is in the input. -/
theorem forall₂_changeFirst {left : Nat} {walked : List (Entry α)} {e : Entry α} {b : α}
    (hb : propertySchema mem e = some b) (hfresh : ∀ e' ∈ walked, e'.name.bytes ≠ e.name.bytes)
    {members kept : List (Bytes × Json)}
    (h : List.Forall₂ (MemberKept mem left walked) members kept) :
    List.Forall₂ (MemberKept mem left (walked ++ [e])) members
      (Json.changeFirst e.name.bytes (applyDefaultsRecursive mem left b) kept) := by
  induction h with
  | nil => exact .nil
  | @cons m m' _ _ hm htail ih =>
    unfold Json.changeFirst
    by_cases hname : m'.1 = e.name.bytes
    · have hsame : m'.2 = m.2 := by
        obtain ⟨hkey, hsame | ⟨e', he', hname', -⟩⟩ := hm
        · exact hsame
        · exact absurd (hname'.trans (hkey.symm.trans hname)) (hfresh e' he')
      rw [if_pos (by simpa using hname)]
      refine .cons ⟨hm.1, .inr ⟨e, by simp, hname.symm.trans hm.1, b, hb, ?_⟩⟩ ?_
      · rw [hsame]
      · exact htail.imp (fun _ _ hkept => hkept.mono (List.subset_append_left _ _))
    · rw [if_neg (by simpa using hname)]
      exact .cons (hm.mono (List.subset_append_left _ _)) ih

theorem LoopState.step {left : Nat} {walked : List (Entry α)}
    {members kept added : List (Bytes × Json)} (h : LoopState mem left walked members kept added)
    (e : Entry α) (hfresh : ∀ e' ∈ walked, e'.name.bytes ≠ e.name.bytes) :
    ∃ kept' added', applyProperty mem (applyDefaultsRecursive mem left) (kept ++ added) e =
        kept' ++ added' ∧ LoopState mem left (walked ++ [e]) members kept' added' := by
  have hstay := h.mono (List.subset_append_left walked [e])
  obtain ⟨hkept, hadded⟩ := h.lookup_fresh hfresh
  have hlookup : Json.lookup (kept ++ added) e.name.bytes = Json.lookup members e.name.bytes := by
    rw [Json.lookup_append, hkept, hadded, Option.or_none]
  unfold applyProperty
  rw [hlookup]
  cases hb : propertySchema mem e with
  | none => exact ⟨kept, added, by cases Json.lookup members e.name.bytes <;> rfl, hstay⟩
  | some b =>
    cases hvalue : Json.lookup members e.name.bytes with
    | none =>
      cases hdefault : (mem b).defaultValue with
      | none => exact ⟨kept, added, by simp [hdefault], hstay⟩
      | some value =>
        refine ⟨kept, added ++ [(e.name.bytes, value)], by simp [hdefault],
          hstay.kept, ?_, ?_⟩
        · have hnew : e.name.bytes ∉ added.map (·.1) := by
            intro hmem
            obtain ⟨m, hm, hname⟩ := List.mem_map.mp hmem
            obtain ⟨-, e', he', hname', -⟩ := h.added m hm
            exact hfresh e' he' (hname'.trans hname)
          rw [List.map_append, List.map_singleton, ← List.concat_eq_append]
          exact List.Nodup.concat hnew h.nodup
        · intro m hm
          rcases List.mem_append.mp hm with hm | hm
          · exact hstay.added m hm
          · rw [List.mem_singleton] at hm
            subst hm
            exact ⟨hvalue, e, by simp, rfl, b, hb, hdefault⟩
    | some existing =>
      dsimp only
      cases hobj : existing.isObj with
      | false => exact ⟨kept, added, rfl, hstay⟩
      | true =>
        refine ⟨_, added, changeFirst_append (hkept.trans hvalue), ?_, h.nodup, hstay.added⟩
        exact forall₂_changeFirst hb hfresh h.kept

theorem LoopState.run {left : Nat} {walked : List (Entry α)}
    {members kept added : List (Bytes × Json)} (h : LoopState mem left walked members kept added)
    (es : List (Entry α)) (hnames : ((walked ++ es).map Entry.name).Nodup) :
    ∃ kept' added', es.foldl (applyProperty mem (applyDefaultsRecursive mem left)) (kept ++ added) =
        kept' ++ added' ∧ LoopState mem left (walked ++ es) members kept' added' := by
  induction es generalizing walked kept added with
  | nil => exact ⟨kept, added, rfl, by simpa using h⟩
  | cons e es ih =>
    have hfresh : ∀ e' ∈ walked, e'.name.bytes ≠ e.name.bytes := by
      intro e' he' heq
      rw [List.map_append, List.nodup_append] at hnames
      exact hnames.2.2 e'.name (List.mem_map_of_mem he') e.name (by simp) (CStr.ext heq)
    obtain ⟨kept', added', hstep, hstate⟩ := h.step e hfresh
    rw [List.foldl_cons, hstep]
    have happend : walked ++ e :: es = (walked ++ [e]) ++ es := by simp
    rw [happend] at hnames ⊢
    exact ih hstate hnames

/-! ## The whole walk -/

/-- The names of the properties are distinct in every schema that is reached. -/
abbrev DistinctProperties (mem : Memory α) (a : α) : Prop :=
  Everywhere mem (fun s => (s.properties.map Entry.name).Nodup) a

theorem propertySchema_reaches {a b : α} {e : Entry α} (he : e ∈ (mem a).properties)
    (hb : propertySchema mem e = some b) : Reaches (fun a => (mem a).children) a b := by
  obtain ⟨c, hc, rfl⟩ := Option.map_eq_some_iff.mp hb
  have hall := (Schema.children_iff (P := fun d => d ∈ (mem a).children)).mp (fun _ h => h)
  have hproperty : c ∈ (mem a).children := hall.1.properties e he c hc
  refine Reaches.step hproperty ?_
  cases href : (mem c).refResolved with
  | none => exact Reaches.refl c
  | some d =>
    have hd : d ∈ (mem c).children := by
      rw [Schema.children, href]
      simp
    exact Reaches.single hd

theorem DistinctProperties.property {a b : α} {e : Entry α} (h : DistinctProperties mem a)
    (he : e ∈ (mem a).properties) (hb : propertySchema mem e = some b) :
    DistinctProperties mem b :=
  fun c hc => h c ((propertySchema_reaches he hb).trans hc)

theorem conservesMembers_of_kept {left : Nat} {a : α}
    (hbelow : ∀ e ∈ (mem a).properties, ∀ b, propertySchema mem e = some b → ∀ v : Json,
      v.reread = v → Conserves mem (some b) v (applyDefaultsRecursive mem left b v).reread)
    {members kept : List (Bytes × Json)} (hcanonical : ∀ m ∈ members, m.2.reread = m.2)
    (h : List.Forall₂ (MemberKept mem left (mem a).properties) members kept) :
    ConservesMembers mem (some a) members (kept.map (fun m => (m.1, m.2.reread))) := by
  induction h with
  | nil => exact .nil _
  | @cons m m' _ _ hm _ ih =>
    obtain ⟨key, v⟩ := m
    obtain ⟨key', w⟩ := m'
    obtain ⟨hkey, hvalue⟩ := hm
    dsimp only at hkey hvalue
    subst hkey
    rw [List.forall_mem_cons] at hcanonical
    have htail := ih hcanonical.2
    rcases hvalue with rfl | ⟨e, he, hname, b, hb, rfl⟩
    · refine .cons _ _ none _ _ _ _ (by simp) ?_ htail
      rw [hcanonical.1]
      exact conserves_refl _ _
    · refine .cons _ _ (some b) _ _ _ _ ?_ (hbelow e he b hb v hcanonical.1) htail
      intro b' hb'
      cases hb'
      simp only [Option.toList_some, List.flatMap_singleton]
      exact List.mem_filterMap.mpr ⟨e, he, by rw [if_pos hname, hb]⟩

theorem conserves_applyDefaults (left : Nat) {a : α} (hnames : DistinctProperties mem a) {v : Json}
    (hv : v.reread = v) :
    Conserves mem (some a) v (applyDefaultsRecursive mem left a v).reread := by
  induction left generalizing a v with
  | zero =>
    rw [applyDefaultsRecursive, hv]
    · exact conserves_refl _ _
    · simp
  | succ left ih =>
    cases v with
    | obj members =>
      rw [applyDefaultsRecursive, Json.reread_obj]
      have hcanonical : ∀ m ∈ members, m.2.reread = m.2 := by
        rw [Json.reread_obj, Json.obj.injEq] at hv
        intro m hm
        have hall := (List.map_eq_map_iff (g := id)).mp (hv.trans (List.map_id members).symm)
        exact congrArg Prod.snd (hall m hm)
      have hstart : LoopState mem left [] members members [] :=
        ⟨List.forall₂_same.mpr (fun m _ => ⟨rfl, .inl rfl⟩), List.nodup_nil, by simp⟩
      obtain ⟨kept, added, hrun, hstate⟩ := hstart.run (mem a).properties (hnames a (.refl a))
      rw [List.append_nil] at hrun
      rw [hrun, List.map_append]
      rw [List.nil_append] at hstate
      refine .obj _ _ _ _ ?_ ?_ ?_
      · exact conservesMembers_of_kept
          (fun e he b hb v hv => ih (hnames.property he hb) hv) hcanonical hstate.kept
      · simpa [List.map_map, Function.comp_def] using hstate.nodup
      · intro m hm
        obtain ⟨m', hm', rfl⟩ := List.mem_map.mp hm
        obtain ⟨habsent, e, he, hname, b, hb, hdefault⟩ := hstate.added m' hm'
        refine ⟨habsent, b, ?_, m'.2, hdefault, rfl⟩
        simp only [Option.toList_some, List.flatMap_singleton]
        exact List.mem_filterMap.mpr ⟨e, he, by rw [if_pos hname, hb]⟩
    | _ =>
      rw [applyDefaultsRecursive_other _ _ rfl, hv]
      exact .other _ _ rfl

end Conserved

section Runs

theorem distinctProperties_five :
    DistinctProperties SchemaTree.memory (objectWith "a" (withDefault (.num (.uint 5)))) := by
  have hchildren : (SchemaTree.memory (objectWith "a" (withDefault (.num (.uint 5))))).children =
      [withDefault (.num (.uint 5))] := rfl
  have hnone : (SchemaTree.memory (withDefault (.num (.uint 5)))).children = [] := rfl
  refine Everywhere.intro (by decide) ?_
  rw [hchildren, List.forall_mem_singleton]
  refine Everywhere.intro (by decide) ?_
  rw [hnone]
  exact List.forall_mem_nil _

end Runs

end Liboas
