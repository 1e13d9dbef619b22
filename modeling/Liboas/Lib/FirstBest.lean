/-!
# The first of the best

A scan of a list that keeps the best element so far, and replaces it only by a better one,
ends with the first of the best.
-/

variable {α β : Type}

/-- `a` fits, nothing that fits is better, and nothing before it that fits is as good. -/
def FirstBest (fits : α → Prop) (key : α → Nat) (l : List α) (a : α) : Prop :=
  ∃ before after, l = before ++ a :: after ∧ fits a ∧
    (∀ b ∈ before, fits b → key b < key a) ∧ ∀ b ∈ after, fits b → key b ≤ key a

namespace FirstBest

variable {fits fits' : α → Prop} {key key' : α → Nat} {l : List α} {a b : α}

/-- One step of the scan. -/
def keep (fits : α → Bool) (key : α → Nat) (best : Option α) (b : α) : Option α :=
  if fits b then
    match best with
    | some a => if key a < key b then some b else best
    | none => some b
  else best

theorem congr (hfits : ∀ b ∈ l, fits b ↔ fits' b) (hkey : ∀ b ∈ l, key b = key' b)
    (h : FirstBest fits key l a) : FirstBest fits' key' l a := by
  obtain ⟨before, after, rfl, hfit, hbefore, hafter⟩ := h
  have ha : a ∈ before ++ a :: after := by simp
  refine ⟨before, after, rfl, (hfits a ha).mp hfit, fun b hb hb' => ?_, fun b hb hb' => ?_⟩
  · have hmem : b ∈ before ++ a :: after := by simp [hb]
    rw [← hkey b hmem, ← hkey a ha]
    exact hbefore b hb ((hfits b hmem).mpr hb')
  · have hmem : b ∈ before ++ a :: after := by simp [hb]
    rw [← hkey b hmem, ← hkey a ha]
    exact hafter b hb ((hfits b hmem).mpr hb')

theorem of_map {g : β → α} {l : List β} (h : FirstBest fits key (l.map g) a) :
    ∃ b, a = g b ∧ FirstBest (fun b => fits (g b)) (fun b => key (g b)) l b := by
  obtain ⟨before, after, hl, hfit, hbefore, hafter⟩ := h
  obtain ⟨before', rest, rfl, rfl, hrest⟩ := List.map_eq_append_iff.mp hl
  obtain ⟨b, after', rfl, rfl, rfl⟩ := List.map_eq_cons_iff.mp hrest
  exact ⟨b, rfl, before', after', rfl, hfit,
    fun c hc => hbefore (g c) (List.mem_map_of_mem hc),
    fun c hc => hafter (g c) (List.mem_map_of_mem hc)⟩

theorem map {g : β → α} {l : List β} {b : β}
    (h : FirstBest (fun b => fits (g b)) (fun b => key (g b)) l b) :
    FirstBest fits key (l.map g) (g b) := by
  obtain ⟨before, after, rfl, hfit, hbefore, hafter⟩ := h
  exact ⟨before.map g, after.map g, by simp, hfit, List.forall_mem_map.mpr hbefore,
    List.forall_mem_map.mpr hafter⟩

theorem mem (h : FirstBest fits key l a) : a ∈ l := by
  obtain ⟨before, after, rfl, -⟩ := h
  simp

/-- Nothing that fits is better. -/
theorem key_le (h : FirstBest fits key l a) (hb : b ∈ l) (hfits : fits b) : key b ≤ key a := by
  obtain ⟨before, after, rfl, -, hbefore, hafter⟩ := h
  rcases List.mem_append.mp hb with hb | hb
  · exact Nat.le_of_lt (hbefore b hb hfits)
  · rcases List.mem_cons.mp hb with rfl | hb
    · exact Nat.le_refl _
    · exact hafter b hb hfits

theorem fit (h : FirstBest fits key l a) : fits a := by
  obtain ⟨before, after, rfl, hfit, -⟩ := h
  exact hfit

theorem unique (ha : FirstBest fits key l a) (hb : FirstBest fits key l b) : a = b := by
  have hab := hb.key_le ha.mem ha.fit
  have hba := ha.key_le hb.mem hb.fit
  obtain ⟨before, after, rfl, hfit, hbefore, -⟩ := ha
  obtain ⟨before', after', hl, hfit', hbefore', -⟩ := hb
  rcases List.append_eq_append_iff.mp hl with ⟨mid, rfl, hmid⟩ | ⟨mid, rfl, hmid⟩
  · cases mid with
    | nil => exact (List.cons.inj hmid).1
    | cons c mid =>
      obtain rfl : a = c := (List.cons.inj hmid).1
      exact absurd (hbefore' a (by simp) hfit) (Nat.not_lt.mpr hba)
  · cases mid with
    | nil => exact (List.cons.inj hmid).1.symm
    | cons c mid =>
      obtain rfl : b = c := (List.cons.inj hmid).1
      exact absurd (hbefore b (by simp) hfit') (Nat.not_lt.mpr hab)

theorem single (h : fits a) (hnone : ∀ b ∈ l, ¬ fits b) : FirstBest fits key (l ++ [a]) a :=
  ⟨l, [], rfl, h, fun b hb hfit => absurd hfit (hnone b hb), by simp⟩

theorem push (h : FirstBest fits key l a) (hb : fits b → key b ≤ key a) :
    FirstBest fits key (l ++ [b]) a := by
  obtain ⟨before, after, rfl, hfit, hbefore, hafter⟩ := h
  refine ⟨before, after ++ [b], by simp, hfit, hbefore, fun c hc hfits => ?_⟩
  rcases List.mem_append.mp hc with hc | hc
  · exact hafter c hc hfits
  · rw [List.mem_singleton.mp hc] at hfits ⊢
    exact hb hfits

theorem replace (h : FirstBest fits key l a) (hb : fits b) (hbetter : key a < key b) :
    FirstBest fits key (l ++ [b]) b := by
  obtain ⟨before, after, rfl, hfit, hbefore, hafter⟩ := h
  refine ⟨before ++ a :: after, [], rfl, hb, fun c hc hfits => ?_, by simp⟩
  rcases List.mem_append.mp hc with hc | hc
  · exact Nat.lt_trans (hbefore c hc hfits) hbetter
  · rcases List.mem_cons.mp hc with rfl | hc
    · exact hbetter
    · exact Nat.lt_of_le_of_lt (hafter c hc hfits) hbetter

/-- What a scan has found: nothing fits so far, or the first of the best. -/
def Found (fits : α → Prop) (key : α → Nat) (l : List α) : Option α → Prop
  | none => ∀ b ∈ l, ¬ fits b
  | some a => FirstBest fits key l a

theorem keep_found {fits : α → Bool} {best : Option α}
    (h : Found (fun b => fits b = true) key l best) (b : α) :
    Found (fun b => fits b = true) key (l ++ [b]) (keep fits key best b) := by
  unfold keep
  cases best with
  | none =>
    split
    · exact single ‹_› h
    · intro c hc
      rcases List.mem_append.mp hc with hc | hc
      · exact h c hc
      · rw [List.mem_singleton.mp hc]
        assumption
  | some a =>
    have ha : FirstBest (fun b => fits b = true) key l a := h
    split
    · rename_i hfit
      dsimp only
      split
      · rename_i hbetter
        exact ha.replace hfit hbetter
      · rename_i hworse
        exact ha.push (fun _ => Nat.le_of_not_lt hworse)
    · rename_i hnot
      exact ha.push (fun hfit => absurd hfit hnot)

theorem foldl_found {fits : α → Bool} (rest : List α) {l : List α} {best : Option α}
    (h : Found (fun b => fits b = true) key l best) :
    Found (fun b => fits b = true) key (l ++ rest) (rest.foldl (keep fits key) best) := by
  induction rest generalizing l best with
  | nil => simpa using h
  | cons b rest ih => simpa using ih (keep_found h b)

/-! ## One test after another -/

/-- The first element that passes the first test, or else the first that passes the next one. -/
def firstOf (tests : List (α → Bool)) (l : List α) : Option α := tests.findSome? (fun p => l.find? p)

/-- How many tests are left at the first one that an element passes. -/
def preference (tests : List (α → Bool)) (a : α) : Nat := (tests.dropWhile (fun p => !p a)).length

theorem preference_pos {tests : List (α → Bool)} {p : α → Bool} (hp : p a = true) :
    preference (p :: tests) a = tests.length + 1 := by
  rw [preference, List.dropWhile_cons_of_neg (by simp [hp]), List.length_cons]

theorem preference_neg {tests : List (α → Bool)} {p : α → Bool} (hp : p a = false) :
    preference (p :: tests) a = preference tests a := by
  rw [preference, List.dropWhile_cons_of_pos (by simp [hp]), preference]

theorem preference_le (tests : List (α → Bool)) (a : α) : preference tests a ≤ tests.length :=
  (List.dropWhile_suffix _).length_le

theorem preference_map (g : β → α) (tests : List (α → Bool)) (b : β) :
    preference (tests.map (fun p b => p (g b))) b = preference tests (g b) := by
  rw [preference, List.dropWhile_map, List.length_map]
  rfl

/-- By induction on the tests. -/
theorem firstOf_found (tests : List (α → Bool)) (l : List α) :
    Found (fun a => 0 < preference tests a) (preference tests) l (firstOf tests l) := by
  induction tests with
  | nil => exact fun b _ => Nat.lt_irrefl 0
  | cons p tests ih =>
    rw [firstOf, List.findSome?_cons]
    cases hfind : l.find? p with
    | some a =>
      obtain ⟨hp, before, after, rfl, hbefore⟩ := List.find?_eq_some_iff_append.mp hfind
      refine ⟨before, after, rfl, ?_, fun b hb _ => ?_, fun b _ _ => ?_⟩
      · have hpos : 0 < preference (p :: tests) a := by
          rw [preference_pos hp]
          exact Nat.succ_pos _
        exact hpos
      · have hnot : p b = false := by simpa using hbefore b hb
        rw [preference_pos hp, preference_neg hnot]
        exact Nat.lt_succ_of_le (preference_le tests b)
      · rw [preference_pos hp]
        exact preference_le (p :: tests) b
    | none =>
      have hnot : ∀ b ∈ l, p b = false := by simpa using List.find?_eq_none.mp hfind
      have hrest : tests.findSome? (fun p => l.find? p) = firstOf tests l := rfl
      rw [hrest]
      cases hfirst : firstOf tests l with
      | none =>
        rw [hfirst] at ih
        intro b hb hpos
        have hpos : 0 < preference (p :: tests) b := hpos
        rw [preference_neg (hnot b hb)] at hpos
        exact ih b hb hpos
      | some a =>
        rw [hfirst] at ih
        have ha : FirstBest (fun a => 0 < preference tests a) (preference tests) l a := ih
        have hfound : FirstBest (fun a => 0 < preference (p :: tests) a) (preference (p :: tests)) l a :=
          ha.congr (fun b hb => by rw [preference_neg (hnot b hb)])
            (fun b hb => (preference_neg (hnot b hb)).symm)
        exact hfound

end FirstBest
