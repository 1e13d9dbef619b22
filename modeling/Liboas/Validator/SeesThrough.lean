import Liboas.Validator.Conserved

/-!
# Defaults and references

Schemas of `mem` are replaced by pure references in `mem'`, and `original` says which schema
each pointer of `mem'` stands for. The walk follows one reference of a property, and none of
the schema that it starts from.
-/

namespace Liboas

section SeesThrough

variable {α β : Type}

/-- A schema that is only a reference, resolved to `c`. -/
def PureRef (s : Schema β) (c : β) : Prop :=
  ∃ ref, s = { oasSchemaCreate with ref := some ref, refResolved := some c }

/-- `b` is the schema `a`, but what is below it can be replaced. -/
def CopyOf (mem : Memory α) (mem' : Memory β) (original : β → α) (b : β) (a : α) : Prop :=
  (mem' b).map original = mem a

/-- `b` is a copy of the schema that it stands for, or a chain of references to one. -/
inductive StandsFor (mem : Memory α) (mem' : Memory β) (original : β → α) : β → Prop where
  | copy (b : β) : CopyOf mem mem' original b (original b) → StandsFor mem mem' original b
  | ref (b c : β) : PureRef (mem' b) c → original c = original b →
      StandsFor mem mem' original c → StandsFor mem mem' original b

/-- Every schema that is reached stands for one of `mem`. -/
abbrev Replaces (mem : Memory α) (mem' : Memory β) (original : β → α) (b : β) : Prop :=
  ∀ c, Reaches (fun b => (mem' b).children) b c → StandsFor mem mem' original c

/-- No other property has the name of this one. -/
def NameOnce (s : Schema β) (e : Entry β) : Prop := (s.properties.map Entry.name).count e.name = 1

/-- The walk with `b` sees what the walk with `a` sees: it is at a copy of `a`, and so on for
each property, or both have nothing to insert. Where a name occurs twice in the list, what
the walk sees is asked for every value. -/
def SeesThrough (mem : Memory α) (mem' : Memory β) (original : β → α) : Nat → β → α → Json → Prop
  | left + 1, b, a, .obj members =>
    (CopyOf mem mem' original b a ∧
      ∀ e ∈ (mem' b).properties, ∀ b', propertySchema mem' e = some b' →
        ∀ a', propertySchema mem (e.map original) = some a' →
        (NameOnce (mem' b) e ∧
          match Json.lookup members e.name.bytes with
          | none => (mem' b').defaultValue = (mem a').defaultValue
          | some existing => SeesThrough mem mem' original left b' a' existing) ∨
        ((mem' b').defaultValue = (mem a').defaultValue ∧
          ∀ v, SeesThrough mem mem' original left b' a' v)) ∨
    (Settled mem' (left + 1) b (.obj members) ∧ Settled mem (left + 1) a (.obj members))
  | _, _, _, _ => True

/-- Every reference that is reached has no properties and no default beside it. -/
abbrev PlainRefs (mem : Memory α) (a : α) : Prop :=
  Everywhere mem (fun s => s.refResolved.isSome → s.properties = [] ∧ s.defaultValue = none) a

variable {mem : Memory α} {mem' : Memory β} {original : β → α}

/-- A property has a schema to walk with in both memories, or in neither. -/
theorem propertySchema_map (e : Entry β) :
    (propertySchema mem (e.map original)).isSome = (propertySchema mem' e).isSome := by
  simp [propertySchema]

/-! ## What is seen is inserted -/

theorem lookup_before {left : Nat} {walked : List (Entry α)} {name : Bytes}
    (hfresh : ∀ e ∈ walked, e.name.bytes ≠ name) (members : List (Bytes × Json)) :
    Json.lookup (walked.foldl (applyProperty mem (applyDefaultsRecursive mem left)) members) name =
      Json.lookup members name := by
  have hnone : walked.filterMap
      (fun e => if e.name.bytes = name then propertySchema mem e else none) = [] := by
    rw [List.filterMap_eq_nil_iff]
    intro e he
    rw [if_neg (hfresh e he)]
  rw [lookup_foldl, hnone]
  rfl

/-- One turn of the loop does the same in both memories. -/
theorem applyProperty_congr {left : Nat} {members : List (Bytes × Json)} {e : Entry β}
    (h : ∀ b, propertySchema mem' e = some b → ∀ a, propertySchema mem (e.map original) = some a →
      match Json.lookup members e.name.bytes with
      | none => (mem' b).defaultValue = (mem a).defaultValue
      | some existing =>
        applyDefaultsRecursive mem' left b existing = applyDefaultsRecursive mem left a existing) :
    applyProperty mem' (applyDefaultsRecursive mem' left) members e =
      applyProperty mem (applyDefaultsRecursive mem left) members (e.map original) := by
  have hsome : (propertySchema mem (e.map original)).isSome = (propertySchema mem' e).isSome :=
    propertySchema_map e
  unfold applyProperty
  rw [Entry.map_name]
  cases hb : propertySchema mem' e with
  | none =>
    rw [hb, Option.isSome_none, Option.isSome_eq_false_iff, Option.isNone_iff_eq_none] at hsome
    rw [hsome]
    cases Json.lookup members e.name.bytes <;> rfl
  | some b =>
    rw [hb, Option.isSome_some] at hsome
    obtain ⟨a, ha⟩ := Option.isSome_iff_exists.mp hsome
    rw [ha]
    have hstep := h b hb a ha
    cases hlookup : Json.lookup members e.name.bytes with
    | none =>
      rw [hlookup] at hstep
      simp only [hstep]
    | some existing =>
      rw [hlookup] at hstep
      dsimp only
      split
      · exact changeFirst_congr hlookup hstep
      · rfl

theorem applyDefaultsRecursive_seesThrough (left : Nat) {b : β} {a : α} {v : Json}
    (h : SeesThrough mem mem' original left b a v) :
    applyDefaultsRecursive mem' left b v = applyDefaultsRecursive mem left a v := by
  induction left generalizing b a v with
  | zero => simp [applyDefaultsRecursive]
  | succ left ih =>
    cases v with
    | obj members =>
      rw [SeesThrough] at h
      rcases h with ⟨hcopy, hsees⟩ | ⟨hsettled', hsettled⟩
      · have hproperties : (mem a).properties = (mem' b).properties.map (Entry.map original) := by
          rw [← hcopy]
          rfl
        rw [applyDefaultsRecursive, applyDefaultsRecursive, hproperties, Json.obj.injEq]
        -- The induction is on the properties that are left; those before are `walked`.
        suffices hrun : ∀ es walked, (mem' b).properties = walked ++ es →
            es.foldl (applyProperty mem' (applyDefaultsRecursive mem' left))
              ((walked.map (Entry.map original)).foldl
                (applyProperty mem (applyDefaultsRecursive mem left)) members) =
              ((walked ++ es).map (Entry.map original)).foldl
                (applyProperty mem (applyDefaultsRecursive mem left)) members from
          hrun (mem' b).properties [] rfl
        intro es
        induction es with
        | nil =>
          intro walked _
          simp
        | cons e es ihes =>
          intro walked hsplit
          rw [List.foldl_cons, applyProperty_congr]
          · have hnext := ihes (walked ++ [e]) (by simp [hsplit])
            simpa using hnext
          · intro b' hb' a' ha'
            have he : e ∈ (mem' b).properties := by simp [hsplit]
            rcases hsees e he b' hb' a' ha' with ⟨honce, hvalue⟩ | ⟨hdefault, hall⟩
            · have hfresh : ∀ e' ∈ walked.map (Entry.map original), e'.name.bytes ≠ e.name.bytes := by
                intro e' he' heq
                have hmem : e.name ∈ walked.map Entry.name := by
                  obtain ⟨e'', he'', rfl⟩ := List.mem_map.mp he'
                  exact List.mem_map.mpr ⟨e'', he'', CStr.ext heq⟩
                rw [NameOnce, hsplit, List.map_append, List.map_cons, List.count_append,
                  List.count_cons_self] at honce
                have hpos := List.count_pos_iff.mpr hmem
                omega
              rw [lookup_before hfresh]
              cases hlookup : Json.lookup members e.name.bytes with
              | none =>
                rw [hlookup] at hvalue
                exact hvalue
              | some existing =>
                rw [hlookup] at hvalue
                exact ih hvalue
            · split
              · exact hdefault
              · exact ih (hall _)
      · rw [(applyDefaultsRecursive_eq_self _ _ _).mpr hsettled',
          (applyDefaultsRecursive_eq_self _ _ _).mpr hsettled]
    | _ => rw [applyDefaultsRecursive_other _ _ rfl, applyDefaultsRecursive_other _ _ rfl]

/-! ## What is inserted was seen -/

/-- What is reached stands for what is reached from the original. -/
theorem reaches_original {b c : β} (hreplaces : Replaces mem mem' original b)
    (h : Reaches (fun b => (mem' b).children) b c) :
    Reaches (fun a => (mem a).children) (original b) (original c) := by
  induction h with
  | refl => exact .refl _
  | @step b d c hd hrest ih =>
    have hrest := ih (fun x hx => hreplaces x (.step hd hx))
    cases hreplaces b (.refl b) with
    | copy _ hcopy =>
      have hchild : original d ∈ (mem (original b)).children := by
        rw [← hcopy, Schema.children_map]
        exact List.mem_map_of_mem hd
      exact .step hchild hrest
    | ref _ d' href hsame _ =>
      obtain ⟨ref, href⟩ := href
      have hd' : d = d' := by
        rw [href] at hd
        simpa [Schema.children, Schema.below, oasSchemaCreate] using hd
      rw [← hsame, ← hd']
      exact hrest

/-- What is assumed of the schemas that are reached, to tell from the values what was seen. -/
structure Tellable (mem : Memory α) (mem' : Memory β) (original : β → α) (b : β) : Prop where
  replaces : Replaces mem mem' original b
  distinct : DistinctProperties mem' b
  plain : ∀ c, Reaches (fun b => (mem' b).children) b c → (mem (original c)).refResolved.isSome →
    (mem (original c)).properties = [] ∧ (mem (original c)).defaultValue = none

theorem Tellable.of_reaches {b c : β} (h : Tellable mem mem' original b)
    (hreach : Reaches (fun b => (mem' b).children) b c) : Tellable mem mem' original c where
  replaces d hd := h.replaces d (hreach.trans hd)
  distinct d hd := h.distinct d (hreach.trans hd)
  plain d hd := h.plain d (hreach.trans hd)

/-- Nothing of the schema takes part in the walk. -/
def Bare (s : Schema β) : Prop := s.properties = [] ∧ s.defaultValue = none

theorem PureRef.bare {s : Schema β} {c : β} (h : PureRef s c) : Bare s := by
  obtain ⟨ref, rfl⟩ := h
  exact ⟨rfl, rfl⟩

/-- The walk goes on with a copy of the schema that the original is walked with, or with a
schema that takes no part. -/
theorem Tellable.property {b : β} (h : Tellable mem mem' original b) {e : Entry β}
    (he : e ∈ (mem' b).properties) {b' : β} (hb' : propertySchema mem' e = some b') {a' : α}
    (ha' : propertySchema mem (e.map original) = some a') :
    CopyOf mem mem' original b' a' ∨ Bare (mem' b') := by
  have htarget := h.of_reaches (propertySchema_reaches he hb')
  obtain ⟨b₁, hb₁, rfl⟩ := Option.map_eq_some_iff.mp hb'
  obtain ⟨a₁, ha₁, rfl⟩ := Option.map_eq_some_iff.mp ha'
  have ha₁ : a₁ = original b₁ := by
    rw [Entry.map_schema, hb₁] at ha₁
    exact (Option.some.inj ha₁).symm
  subst ha₁
  have hall := (Schema.children_iff (P := fun c => c ∈ (mem' b).children)).mp (fun _ h => h)
  have hfirst := h.of_reaches (.single (hall.1.properties e he b₁ hb₁))
  cases hfirst.replaces b₁ (.refl b₁) with
  | copy _ hcopy =>
    have href : (mem (original b₁)).refResolved = (mem' b₁).refResolved.map original := by
      rw [← hcopy]
      rfl
    rw [href]
    cases hresolved : (mem' b₁).refResolved with
    | none => exact .inl hcopy
    | some c =>
      rw [hresolved] at htarget
      cases htarget.replaces c (.refl c) with
      | copy _ hcopy' => exact .inl hcopy'
      | ref _ d hpure _ _ => exact .inr hpure.bare
  | ref _ c hpure hsame _ =>
    have hresolved : (mem' b₁).refResolved = some c := by
      obtain ⟨ref, hpure⟩ := hpure
      rw [hpure]
    rw [hresolved] at htarget ⊢
    simp only [Option.getD_some] at htarget ⊢
    cases htarget.replaces c (.refl c) with
    | ref _ d hpure' _ _ => exact .inr hpure'.bare
    | copy _ hcopy =>
      cases htwice : (mem (original b₁)).refResolved with
      | none => exact .inl (hsame ▸ hcopy)
      | some a₂ =>
        -- The original is a reference itself, so it has nothing that takes part either.
        obtain ⟨hproperties, hdefault⟩ := htarget.plain c (.refl c) (by rw [hsame, htwice]; rfl)
        rw [← hcopy] at hproperties hdefault
        refine .inr ⟨?_, hdefault⟩
        simpa [Schema.map] using hproperties

theorem targets_eq_singleton {e : Entry β} {s : Schema β} (he : e ∈ s.properties)
    (hnames : (s.properties.map Entry.name).Nodup) {b : β} (hb : propertySchema mem' e = some b) :
    s.properties.filterMap
      (fun e' => if e'.name.bytes = e.name.bytes then propertySchema mem' e' else none) = [b] := by
  obtain ⟨before, after, hsplit⟩ := List.append_of_mem he
  rw [hsplit, List.map_append, List.map_cons, List.nodup_append] at hnames
  obtain ⟨-, hafter, hbefore⟩ := hnames
  rw [List.nodup_cons] at hafter
  have hnone : ∀ es : List (Entry β), (∀ e' ∈ es, e'.name ≠ e.name) → es.filterMap
      (fun e' => if e'.name.bytes = e.name.bytes then propertySchema mem' e' else none) = [] := by
    intro es hes
    rw [List.filterMap_eq_nil_iff]
    intro e' he'
    rw [if_neg (fun heq => hes e' he' (CStr.ext heq))]
  rw [hsplit, List.filterMap_append, List.filterMap_cons, hnone before, hnone after]
  · simp [hb]
  · intro e' he' heq
    exact hafter.1 (heq ▸ List.mem_map_of_mem he')
  · intro e' he' heq
    exact hbefore e'.name (List.mem_map_of_mem he') e.name (by simp) heq

theorem seesThrough_of_same (left : Nat) {b : β} {a : α} (htell : Tellable mem mem' original b)
    (hwalk : CopyOf mem mem' original b a ∨ Bare (mem' b)) {v : Json}
    (hsame : (applyDefaultsRecursive mem' left b v).reread =
      (applyDefaultsRecursive mem left a v).reread) :
    SeesThrough mem mem' original left b a v := by
  induction left generalizing b a v with
  | zero => trivial
  | succ left ih =>
    cases v with
    | obj members =>
      rw [SeesThrough]
      rcases hwalk with hcopy | ⟨hnone, -⟩
      · refine .inl ⟨hcopy, fun e he b' hb' a' ha' => .inl ⟨?_, ?_⟩⟩
        · exact List.count_eq_one_of_mem (htell.distinct b (.refl b)) (List.mem_map_of_mem he)
        · have hproperties : (mem a).properties = (mem' b).properties.map (Entry.map original) := by
            rw [← hcopy]
            rfl
          have hnames : ((mem a).properties.map Entry.name).Nodup := by
            rw [hproperties, List.map_map]
            exact htell.distinct b (.refl b)
          have he' : e.map original ∈ (mem a).properties := by
            rw [hproperties]
            exact List.mem_map_of_mem he
          have hvalues := congrArg (fun v => v.objGet (some e.name)) hsame
          simp only [applyDefaultsRecursive, Json.reread_obj, Json.objGet, Json.lookup_map_reread,
            lookup_applyProperties] at hvalues
          have htargets' : targets mem' e.name.bytes b = [b'] :=
            targets_eq_singleton he (htell.distinct b (.refl b)) hb'
          have htargets : targets mem e.name.bytes a = [a'] :=
            targets_eq_singleton he' hnames ha'
          rw [htargets', htargets, List.foldl_cons, List.foldl_nil, List.foldl_cons,
            List.foldl_nil] at hvalues
          have hnext := htell.property he hb' ha'
          cases hlookup : Json.lookup members e.name.bytes with
          | none =>
            rw [hlookup, propertyStep, propertyStep] at hvalues
            rcases hnext with hcopy' | ⟨-, hdefault⟩
            · rw [← hcopy']
              rfl
            · rw [hdefault, Option.map_none] at hvalues
              rw [hdefault, Option.map_eq_none_iff.mp hvalues.symm]
          | some existing =>
            rw [hlookup, propertyStep, propertyStep, Option.map_some, Option.map_some,
              Option.some.injEq] at hvalues
            exact ih (htell.of_reaches (propertySchema_reaches he hb')) hnext hvalues
      · -- The walk with `b` inserts nothing, so the other one does not either.
        have hsettled' : Settled mem' (left + 1) b (.obj members) := by
          rw [Settled, hnone]
          simp
        refine .inr ⟨hsettled', (applyDefaultsRecursive_eq_self _ _ _).mp ?_⟩
        apply (grows_applyDefaultsRecursive _ a).same
        have hcount := congrArg Json.count hsame
        rw [Json.count_reread, Json.count_reread,
          (applyDefaultsRecursive_eq_self _ _ _).mpr hsettled'] at hcount
        exact hcount.symm
    | _ => trivial

end SeesThrough

section Runs

def objectAt {α : Type} (property : α) : Schema α :=
  { oasSchemaCreate with properties := [⟨CStr.ofString "a", some property⟩] }

def fiveByDefault {α : Type} : Schema α :=
  { oasSchemaCreate with defaultValue := some (.num (.uint 5)) }

def refTo {α : Type} (target : α) : Schema α :=
  { oasSchemaCreate with ref := some (CStr.ofString "#/a"), refResolved := some target }

/-- An object, and the schema of its property. -/
def direct : Memory (Fin 2)
  | 0 => objectAt 1
  | 1 => fiveByDefault

/-- The schema of the property is behind a reference. -/
def propertyBehindRef : Memory (Fin 3)
  | 0 => objectAt 1
  | 1 => refTo 2
  | 2 => fiveByDefault

/-- The object is behind a reference. -/
def rootBehindRef : Memory (Fin 3)
  | 0 => refTo 1
  | 1 => objectAt 2
  | 2 => fiveByDefault

def behindProperty : Fin 3 → Fin 2
  | 0 => 0
  | 1 => 1
  | 2 => 1

def behindRoot : Fin 3 → Fin 2
  | 0 => 0
  | 1 => 0
  | 2 => 1

theorem replaces_property : Replaces direct propertyBehindRef behindProperty 0 := by
  have htarget : StandsFor direct propertyBehindRef behindProperty 2 := .copy 2 rfl
  intro c _
  match c with
  | 0 => exact .copy 0 rfl
  | 1 => exact .ref 1 2 ⟨_, rfl⟩ rfl htarget
  | 2 => exact htarget

theorem replaces_root : Replaces direct rootBehindRef behindRoot 0 := by
  have htarget : StandsFor direct rootBehindRef behindRoot 1 := .copy 1 rfl
  intro c _
  match c with
  | 0 => exact .ref 0 1 ⟨_, rfl⟩ rfl htarget
  | 1 => exact htarget
  | 2 => exact .copy 2 rfl

end Runs

end Liboas
