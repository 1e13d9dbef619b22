import Liboas.Emitter.Document
import Liboas.Emitter.Schema
import Liboas.Parser.Kept
import Mathlib.Data.List.Forall2

/-!
# Security that survives being emitted

A document that is parsed and emitted declares the same security just where each
requirement names one scheme, no list is empty, and no scheme has flows or a URL of OpenID
Connect.
-/

namespace Liboas.Emitter

open Json

/-! ## The same declarations -/

/-- Each member of one object is matched by one of the other. -/
def SameMembers (R : Json → Json → Prop) (l l' : List (Bytes × Json)) : Prop :=
  (∀ m ∈ l, ∃ m' ∈ l', m.1 = m'.1 ∧ R m.2 m'.2) ∧ ∀ m' ∈ l', ∃ m ∈ l, m.1 = m'.1 ∧ R m.2 m'.2

/-- The same set of scopes. -/
def SameScopes (v w : Json) : Prop := ∃ a b, v = .arr a ∧ w = .arr b ∧ ∀ x, x ∈ a ↔ x ∈ b

/-- The same schemes, each with the same scopes. -/
def SameRequirement (v w : Json) : Prop :=
  ∃ a b, v = .obj a ∧ w = .obj b ∧ SameMembers SameScopes a b

/-- The same list of alternatives; an absent list is not an empty one. -/
def SameSecurity : Option Json → Option Json → Prop :=
  Option.Rel (fun v w => ∃ a b, v = .arr a ∧ w = .arr b ∧ List.Forall₂ SameRequirement a b)

/-- What the operation for one method declares. -/
def operationSecurity (item : Json) (method : String) : Option Json :=
  (item.member method).bind (fun op => op.member "security")

def methods : List String := ["get", "post", "put", "delete", "patch", "head", "options"]

/-- The methods that the library does not know. -/
def otherMethods : List String := ["trace", "query"]

def SamePath (m m' : Bytes × Json) : Prop :=
  m.1 = m'.1 ∧ ∀ method ∈ methods ++ otherMethods,
    SameSecurity (operationSecurity m.2 method) (operationSecurity m'.2 method)

def SameFlow (v w : Json) : Prop :=
  (∀ name ∈ ["authorizationUrl", "tokenUrl", "refreshUrl"], v.member name = w.member name) ∧
    SameMembers (· = ·) ((v.objMember "scopes").getD []) ((w.objMember "scopes").getD [])

def flowMembers (scheme : Json) : List (Bytes × Json) := (scheme.objMember "flows").getD []

structure SameScheme (v w : Json) : Prop where
  objects : v.isObj = true ∧ w.isObj = true
  texts : ∀ name ∈ ["type", "in", "name", "scheme", "bearerFormat", "openIdConnectUrl"],
    v.member name = w.member name
  flows : SameMembers SameFlow (flowMembers v) (flowMembers w)

def pathMembers (root : Json) : List (Bytes × Json) := (root.objMember "paths").getD []

def schemeMembers (root : Json) : List (Bytes × Json) :=
  ((root.member "components").bind (fun c => c.objMember "securitySchemes")).getD []

/-- Two documents declare the same security. -/
structure SameDeclarations (root v : Json) : Prop where
  security : SameSecurity (root.member "security") (v.member "security")
  operations : List.Forall₂ SamePath (pathMembers root) (pathMembers v)
  schemes : SameMembers SameScheme (schemeMembers root) (schemeMembers v)

theorem SameScopes.symm {v w : Json} (h : SameScopes v w) : SameScopes w v := by
  obtain ⟨a, b, hv, hw, hab⟩ := h
  exact ⟨b, a, hw, hv, fun x => (hab x).symm⟩

theorem SameScopes.trans {u v w : Json} (huv : SameScopes u v) (hvw : SameScopes v w) :
    SameScopes u w := by
  obtain ⟨a, b, hu, hv, hab⟩ := huv
  obtain ⟨b', c, hv', hw, hbc⟩ := hvw
  rw [hv] at hv'
  cases hv'
  exact ⟨a, c, hu, hw, fun x => (hab x).trans (hbc x)⟩

/-! ## Declarations that survive -/

/-- A string without a NUL. -/
def PlainText (v : Json) : Prop := ∃ s, v = .str s ∧ (0 : UInt8) ∉ s

def PlainScopes (v : Json) : Prop := ∃ items, v = .arr items ∧ ∀ x ∈ items, PlainText x

/-- A requirement that names at most one scheme. -/
def OneScheme (v : Json) : Prop :=
  ∃ members, v = .obj members ∧ (∀ m ∈ members, (0 : UInt8) ∉ m.1 ∧ PlainScopes m.2) ∧
    ∀ m ∈ members, ∀ m' ∈ members, m.1 = m'.1 ∧ SameScopes m.2 m'.2

def PlainSecurity (v : Option Json) : Prop :=
  ∀ x, v = some x → ∃ items, x = .arr items ∧ items ≠ [] ∧ ∀ r ∈ items, OneScheme r

structure PlainPath (m : Bytes × Json) : Prop where
  key : (0 : UInt8) ∉ m.1
  known : ∀ method ∈ methods, PlainSecurity (operationSecurity m.2 method)
  others : ∀ method ∈ otherMethods, operationSecurity m.2 method = none

structure PlainScheme (m : Bytes × Json) : Prop where
  key : (0 : UInt8) ∉ m.1
  object : m.2.isObj = true
  texts : ∀ name ∈ ["type", "in", "name", "scheme", "bearerFormat"], ∀ x,
    m.2.member name = some x → PlainText x
  openIdConnectUrl : m.2.member "openIdConnectUrl" = none
  flows : flowMembers m.2 = []

structure PlainDeclarations (root : Json) : Prop where
  security : PlainSecurity (root.member "security")
  operations : ∀ m ∈ pathMembers root, PlainPath m
  schemes : ∀ m ∈ schemeMembers root, PlainScheme m

/-! ## Texts and scopes -/

theorem plainText_emitStr (s : CStr) : PlainText (emitStr s) := ⟨s.bytes, rfl, s.noNul⟩

theorem emitStr_getStr {v : Json} (h : PlainText v) {s : CStr} (hs : v.getStr = some s) :
    emitStr s = v := by
  obtain ⟨b, rfl, hb⟩ := h
  cases hs
  exact congrArg Json.str (CStr.ofBytes_noNul hb)

theorem getStr_plain {v : Json} (h : PlainText v) : ∃ s, v.getStr = some s := by
  obtain ⟨b, rfl, -⟩ := h
  exact ⟨_, rfl⟩

/-- The scopes of a requirement, as they are parsed. -/
def scopesOf : Json → List (Option CStr)
  | .arr scopes => strings scopes
  | _ => []

/-- The scopes that are read where these were emitted. -/
def scopesAfter (v : Json) : Json := (emitTexts (scopesOf v)).reread

theorem scopesAfter_eq (v : Json) : scopesAfter v = .arr ((scopesOf v).reduceOption.map emitStr) := by
  rw [scopesAfter, emitTexts, reread_arr, texts_returned]

theorem mem_scopesAfter {items : List Json} {x : Json} :
    x ∈ (strings items).reduceOption.map emitStr ↔ ∃ v ∈ items, ∃ s, v.getStr = some s ∧ emitStr s = x := by
  rw [List.mem_map]
  simp only [List.reduceOption_mem_iff, strings, List.mem_map]
  constructor
  · rintro ⟨s, ⟨v, hv, hs⟩, rfl⟩
    exact ⟨v, hv, s, hs, rfl⟩
  · rintro ⟨v, hv, s, hs, rfl⟩
    exact ⟨s, ⟨v, hv, hs⟩, rfl⟩

theorem sameScopes_after {v : Json} : SameScopes v (scopesAfter v) ↔ PlainScopes v := by
  constructor
  · rintro ⟨items, after, rfl, hafter, hsame⟩
    rw [scopesAfter_eq] at hafter
    cases hafter
    refine ⟨items, rfl, fun x hx => ?_⟩
    obtain ⟨-, -, s, -, rfl⟩ := mem_scopesAfter.mp ((hsame x).mp hx)
    exact plainText_emitStr s
  · rintro ⟨items, rfl, hplain⟩
    refine ⟨items, _, rfl, scopesAfter_eq _, fun x => ?_⟩
    rw [scopesOf, mem_scopesAfter]
    constructor
    · intro hx
      obtain ⟨s, hs⟩ := getStr_plain (hplain x hx)
      exact ⟨x, hx, s, hs, emitStr_getStr (hplain x hx) hs⟩
    · rintro ⟨w, hw, s, hs, rfl⟩
      rw [emitStr_getStr (hplain w hw) hs]
      exact hw

theorem SameScopes.plain {v w : Json} (h : SameScopes v (scopesAfter w)) : PlainScopes v := by
  obtain ⟨a, b, rfl, hb, hab⟩ := h
  refine ⟨a, rfl, fun x hx => ?_⟩
  rw [scopesAfter_eq] at hb
  cases hb
  obtain ⟨s, -, rfl⟩ := List.mem_map.mp ((hab x).mp hx)
  exact plainText_emitStr s

/-! ## Requirements -/

def requirementAfter (v : Json) : Json := (emitSecurityReq (parseSecurityReq v)).reread

theorem parseSecurityReq_cons (m : Bytes × Json) (rest : List (Bytes × Json)) :
    parseSecurityReq (.obj (m :: rest)) = some ⟨.ofBytes m.1, scopesOf m.2⟩ := by
  obtain ⟨key, val⟩ := m
  cases val <;> rfl

theorem requirementAfter_cons (m : Bytes × Json) (rest : List (Bytes × Json)) :
    requirementAfter (.obj (m :: rest)) = .obj [((CStr.ofBytes m.1).bytes, scopesAfter m.2)] := by
  rw [requirementAfter, parseSecurityReq_cons, emitSecurityReq, reread_obj]
  rfl

theorem sameRequirement_after {v : Json} : SameRequirement v (requirementAfter v) ↔ OneScheme v := by
  constructor
  · rintro ⟨members, after, rfl, hafter, hsame, -⟩
    cases members with
    | nil => exact ⟨[], rfl, by simp, by simp⟩
    | cons m rest =>
      rw [requirementAfter_cons] at hafter
      cases hafter
      have hall : ∀ m' ∈ m :: rest,
          m'.1 = (CStr.ofBytes m.1).bytes ∧ SameScopes m'.2 (scopesAfter m.2) := by
        intro m' hm'
        obtain ⟨_, hmem, hkey, hscopes⟩ := hsame m' hm'
        cases List.mem_singleton.mp hmem
        exact ⟨hkey, hscopes⟩
      refine ⟨_, rfl, fun m' hm' => ⟨?_, (hall m' hm').2.plain⟩, fun m' hm' m'' hm'' => ?_⟩
      · rw [(hall m' hm').1]
        exact (CStr.ofBytes m.1).noNul
      · exact ⟨(hall m' hm').1.trans (hall m'' hm'').1.symm,
          (hall m' hm').2.trans (hall m'' hm'').2.symm⟩
  · rintro ⟨members, rfl, hplain, hone⟩
    cases members with
    | nil => exact ⟨[], [], rfl, rfl, by simp, by simp⟩
    | cons m rest =>
      have hm := hplain m List.mem_cons_self
      have hkey : (CStr.ofBytes m.1).bytes = m.1 := CStr.ofBytes_noNul hm.1
      have hscopes := sameScopes_after.mpr hm.2
      refine ⟨_, _, rfl, requirementAfter_cons m rest, fun m' hm' => ?_, fun m' hm' => ?_⟩
      · have hsame := hone m' hm' m List.mem_cons_self
        exact ⟨_, List.mem_singleton_self _, hsame.1.trans hkey.symm, hsame.2.trans hscopes⟩
      · cases List.mem_singleton.mp hm'
        exact ⟨m, List.mem_cons_self, hkey.symm, hscopes⟩

/-! ## Lists of requirements -/

/-- The member that is read where a parsed list was emitted. -/
def securityAfter (v : Option Json) : Option Json := (emitSecurity (parseSecurityArray v)).map reread

theorem securityAfter_arr (items : List Json) : securityAfter (some (.arr items)) =
    if items.isEmpty then none else some (.arr (items.map requirementAfter)) := by
  cases items with
  | nil => rfl
  | cons r items =>
    show some (reread (.arr (((r :: items).map parseSecurityReq).map emitSecurityReq))) = _
    rw [reread_arr, List.map_map, List.map_map]
    rfl

theorem sameSecurity_after {v : Option Json} : SameSecurity v (securityAfter v) ↔ PlainSecurity v := by
  cases v with
  | none =>
    constructor
    · rintro - x ⟨⟩
    · exact fun _ => .none
  | some v =>
    constructor
    · intro h x hx
      cases hx
      generalize hw : securityAfter (some v) = w at h
      rcases h with ⟨items, after, rfl, rfl, hsame⟩
      rw [securityAfter_arr] at hw
      cases items with
      | nil => cases hw
      | cons r items =>
        cases hw
        refine ⟨_, rfl, by simp, fun r' hr' => ?_⟩
        rw [List.forall₂_map_right_iff, List.forall₂_same] at hsame
        exact sameRequirement_after.mp (hsame r' hr')
    · intro h
      obtain ⟨items, rfl, hne, hone⟩ := h v rfl
      rw [securityAfter_arr, if_neg (by simpa using hne)]
      refine .some ⟨items, _, rfl, rfl, ?_⟩
      rw [List.forall₂_map_right_iff, List.forall₂_same]
      exact fun r hr => sameRequirement_after.mpr (hone r hr)

/-! ## Operations -/

section Documents

variable {rt : Runtime} {emit : Tree Nat → Json}

theorem operationSecurity_read {item : PathItem (Tree Nat)} {method : String}
    {op : Option (Operation (Tree Nat))}
    (h : (method, op.map (emitOperation emit)) ∈ pathItemFields emit item) :
    operationSecurity (readBack (pathItemFields emit item)) method =
      (op.map (·.security)).bind (fun security => (emitSecurity security).map reread) := by
  rw [operationSecurity, member_read (pathItemFields_keys emit item) h]
  cases op with
  | none => rfl
  | some op => exact member_read (operationFields_keys emit op) (by simp [operationFields])

theorem methodMember_security (obj : Json) (method : String) :
    ((methodMember rt obj method).map (·.security)).bind
      (fun security => (emitSecurity security).map reread) =
        securityAfter (operationSecurity obj method) := by
  unfold methodMember objMember operationSecurity
  cases obj.member method with
  | none => rfl
  | some v => cases v <;> rfl

/-- What an operation declares where a parsed path item was emitted. -/
theorem operationSecurity_after {item : PathItem (Tree Nat)} {obj : Json} {method : String}
    (hitem : item.map outline = (parsePathItem rt obj).map outline) (hmethod : method ∈ methods) :
    operationSecurity (readBack (pathItemFields emit item)) method =
      securityAfter (operationSecurity obj method) := by
  have hslot : ∀ {op op' : Option (Operation (Tree Nat))},
      op.map (Operation.map outline) = op'.map (Operation.map outline) →
      op.map (·.security) = op'.map (·.security) := by
    intro op op' h
    have hsecurity := congrArg (Option.map (fun op : Operation Unit => op.security)) h
    rw [Option.map_map, Option.map_map] at hsecurity
    exact hsecurity
  have hread : ∀ {op : Option (Operation (Tree Nat))},
      (method, op.map (emitOperation emit)) ∈ pathItemFields emit item →
      op.map (Operation.map outline) = (methodMember rt obj method).map (Operation.map outline) →
      operationSecurity (readBack (pathItemFields emit item)) method =
        securityAfter (operationSecurity obj method) := by
    intro op hmem hop
    rw [operationSecurity_read hmem, hslot hop, methodMember_security]
  simp only [methods, List.mem_cons, List.not_mem_nil, or_false] at hmethod
  rcases hmethod with rfl | rfl | rfl | rfl | rfl | rfl | rfl
  · exact hread (by simp [pathItemFields]) (congrArg PathItem.get hitem)
  · exact hread (by simp [pathItemFields]) (congrArg PathItem.post hitem)
  · exact hread (by simp [pathItemFields]) (congrArg PathItem.put hitem)
  · exact hread (by simp [pathItemFields]) (congrArg PathItem.delete_ hitem)
  · exact hread (by simp [pathItemFields]) (congrArg PathItem.patch hitem)
  · exact hread (by simp [pathItemFields]) (congrArg PathItem.head hitem)
  · exact hread (by simp [pathItemFields]) (congrArg PathItem.options hitem)

theorem operationSecurity_other {item : PathItem (Tree Nat)} {method : String}
    (hmethod : method ∈ otherMethods) :
    operationSecurity (readBack (pathItemFields emit item)) method = none := by
  have hnone : (readBack (pathItemFields emit item)).member method = none := by
    refine member_read_none ?_
    show (CStr.ofString method).bytes ∉ ["get", "post", "put", "delete", "patch", "head", "options",
      "parameters"].map ascii
    simp only [otherMethods, List.mem_cons, List.not_mem_nil, or_false] at hmethod
    rcases hmethod with rfl | rfl <;> decide
  rw [operationSecurity, hnone]
  rfl

theorem sameSecurity_none {v : Option Json} : SameSecurity v none ↔ v = none := by
  constructor
  · rintro ⟨⟩
    rfl
  · rintro rfl
    exact .none

theorem samePath_after {e : PathEntry (Tree Nat)} {m : Bytes × Json}
    (he : e.map outline = (⟨.ofBytes m.1, parsePathItem rt m.2⟩ : PathEntry (Tree Nat)).map outline) :
    SamePath m (e.path.bytes, readBack (pathItemFields emit e.item)) ↔ PlainPath m := by
  have hpath : e.path = .ofBytes m.1 := congrArg PathEntry.path he
  have hitem : e.item.map outline = (parsePathItem rt m.2).map outline := congrArg PathEntry.item he
  have hknown : ∀ method ∈ methods, (SameSecurity (operationSecurity m.2 method)
      (operationSecurity (readBack (pathItemFields emit e.item)) method) ↔
        PlainSecurity (operationSecurity m.2 method)) := by
    intro method hmethod
    rw [operationSecurity_after hitem hmethod, sameSecurity_after]
  have hother : ∀ method ∈ otherMethods, (SameSecurity (operationSecurity m.2 method)
      (operationSecurity (readBack (pathItemFields emit e.item)) method) ↔
        operationSecurity m.2 method = none) := by
    intro method hmethod
    rw [operationSecurity_other hmethod, sameSecurity_none]
  rw [SamePath, List.forall_mem_append]
  constructor
  · rintro ⟨hkey, hsame, hothers⟩
    refine ⟨?_, fun method hmethod => (hknown method hmethod).mp (hsame method hmethod),
      fun method hmethod => (hother method hmethod).mp (hothers method hmethod)⟩
    rw [hkey]
    exact e.path.noNul
  · rintro ⟨hkey, hsame, hothers⟩
    refine ⟨?_, fun method hmethod => (hknown method hmethod).mpr (hsame method hmethod),
      fun method hmethod => (hother method hmethod).mpr (hothers method hmethod)⟩
    rw [hpath]
    exact (CStr.ofBytes_noNul hkey).symm

/-- Two lists with the same image are related element by element. -/
theorem forall₂_of_map_eq {α β γ δ : Type} {g : α → γ} {g' : β → γ} {f : α → δ} {R : β → δ → Prop}
    {P : β → Prop} (hR : ∀ a b, g a = g' b → (R b (f a) ↔ P b)) {l : List α} {l' : List β}
    (h : l.map g = l'.map g') : List.Forall₂ R l' (l.map f) ↔ ∀ b ∈ l', P b := by
  induction l generalizing l' with
  | nil =>
    cases l' with
    | nil => simp
    | cons b l' => cases h
  | cons a l ih =>
    cases l' with
    | nil => cases h
    | cons b l' =>
      rw [List.map_cons, List.map_cons, List.cons.injEq] at h
      rw [List.map_cons, List.forall₂_cons, hR a b h.1, ih h.2, List.forall_mem_cons]

/-! ## Security schemes -/

theorem texts_reread (x : Option CStr) : (x.map emitStr).map reread = x.map emitStr := by
  cases x <;> rfl

/-- The texts of a scheme that are read back. -/
theorem schemeText_read {v : Json} {scheme : SecurityScheme} (h : parseSecurityScheme v = some scheme)
    {name : String} (hname : name ∈ ["type", "in", "name", "scheme", "bearerFormat"]) :
    (readBack (securitySchemeFields scheme)).member name = (v.strMember name).map emitStr := by
  have hread : ∀ {x : Option CStr}, (name, x.map emitStr) ∈ securitySchemeFields scheme →
      x = v.strMember name →
      (readBack (securitySchemeFields scheme)).member name = (v.strMember name).map emitStr := by
    intro x hmem hx
    rw [member_read (securitySchemeFields_keys scheme) hmem, texts_reread, hx]
  cases v with
  | obj members =>
    cases h
    simp only [List.mem_cons, List.not_mem_nil, or_false] at hname
    rcases hname with rfl | rfl | rfl | rfl | rfl <;>
      exact hread (by simp [securitySchemeFields]) rfl
  | _ => cases h

theorem schemeMember_none {scheme : SecurityScheme} {name : String}
    (h : name ∈ ["openIdConnectUrl", "flows"]) :
    (readBack (securitySchemeFields scheme)).member name = none := by
  refine member_read_none ?_
  show (CStr.ofString name).bytes ∉
    ["type", "name", "in", "scheme", "bearerFormat", "description"].map ascii
  simp only [List.mem_cons, List.not_mem_nil, or_false] at h
  rcases h with rfl | rfl <;> decide

theorem flowMembers_read (scheme : SecurityScheme) :
    flowMembers (readBack (securitySchemeFields scheme)) = [] := by
  rw [flowMembers, objMember, schemeMember_none (by simp)]
  rfl

/-- The member that is read where a parsed scheme was emitted. -/
def schemeAfter (m : Bytes × Json) : Option (Bytes × Json) :=
  (parseSecurityScheme m.2).map (fun scheme =>
    ((CStr.ofBytes m.1).bytes, readBack (securitySchemeFields scheme)))

theorem plainScheme_of_same {m m' after : Bytes × Json} (hafter : schemeAfter m' = some after)
    (hkey : m.1 = after.1) (hsame : SameScheme m.2 after.2) : PlainScheme m := by
  obtain ⟨scheme, hscheme, rfl⟩ := Option.map_eq_some_iff.mp hafter
  refine ⟨?_, hsame.objects.1, fun name hname x hx => ?_, ?_, ?_⟩
  · rw [hkey]
    exact (CStr.ofBytes m'.1).noNul
  · have htext := hsame.texts name (by
      simp only [List.mem_cons, List.not_mem_nil, or_false] at hname ⊢
      tauto)
    rw [hx, schemeText_read hscheme hname] at htext
    obtain ⟨s, -, rfl⟩ := Option.map_eq_some_iff.mp htext.symm
    exact plainText_emitStr s
  · rw [hsame.texts "openIdConnectUrl" (by simp)]
    exact schemeMember_none (by simp)
  · have hflows := hsame.flows.1
    rw [flowMembers_read] at hflows
    rw [List.eq_nil_iff_forall_not_mem]
    intro flow hflow
    obtain ⟨_, hmem, -⟩ := hflows flow hflow
    cases hmem

theorem PlainScheme.same {m : Bytes × Json} (h : PlainScheme m) :
    ∃ after, schemeAfter m = some after ∧ m.1 = after.1 ∧ SameScheme m.2 after.2 := by
  have hobj := h.object
  have hscheme : ∃ scheme, parseSecurityScheme m.2 = some scheme := by
    cases hm : m.2 with
    | obj members => exact ⟨_, rfl⟩
    | _ =>
      rw [hm] at hobj
      cases hobj
  obtain ⟨scheme, hscheme⟩ := hscheme
  refine ⟨_, congrArg (Option.map _) hscheme, (CStr.ofBytes_noNul h.key).symm,
    ⟨hobj, isObj_readBack _⟩, fun name hname => ?_, ?_⟩
  · by_cases hurl : name = "openIdConnectUrl"
    · subst hurl
      rw [h.openIdConnectUrl, schemeMember_none (by simp)]
    · have hname' : name ∈ ["type", "in", "name", "scheme", "bearerFormat"] := by
        simp only [List.mem_cons, List.not_mem_nil, or_false] at hname ⊢
        tauto
      rw [schemeText_read hscheme hname', strMember]
      cases hmember : m.2.member name with
      | none => rfl
      | some x =>
        have hplain := h.texts name hname' x hmember
        obtain ⟨s, hs⟩ := getStr_plain hplain
        rw [Option.bind_some, hs, Option.map_some, emitStr_getStr hplain hs]
  · rw [h.flows, flowMembers_read]
    exact ⟨by simp, by simp⟩

theorem sameSchemes_after {l : List (Bytes × Json)} :
    SameMembers SameScheme l (l.filterMap schemeAfter) ↔ ∀ m ∈ l, PlainScheme m := by
  constructor
  · rintro ⟨hsame, -⟩ m hm
    obtain ⟨after, hafter, hkey, hscheme⟩ := hsame m hm
    obtain ⟨m', -, hm'⟩ := List.mem_filterMap.mp hafter
    exact plainScheme_of_same hm' hkey hscheme
  · intro h
    constructor
    · intro m hm
      obtain ⟨after, hafter, hkey, hscheme⟩ := (h m hm).same
      exact ⟨after, List.mem_filterMap.mpr ⟨m, hm, hafter⟩, hkey, hscheme⟩
    · intro after hmem
      obtain ⟨m, hm, hafter⟩ := List.mem_filterMap.mp hmem
      obtain ⟨after', hafter', hkey, hscheme⟩ := (h m hm).same
      rw [hafter'] at hafter
      cases hafter
      exact ⟨m, hm, hkey, hscheme⟩

/-! ## Whole documents -/

theorem getD_unless {β γ : Type} (l : List β) (f : List β → List γ) (hf : f [] = []) :
    (if l.isEmpty then none else some (f l)).getD [] = f l := by
  cases l with
  | nil => exact hf.symm
  | cons a l => rfl

theorem pathMembers_read (d : Doc (Tree Nat)) : pathMembers (readBack (docFields emit d)) =
    d.paths.map (fun e => (e.path.bytes, readBack (pathItemFields emit e.item))) := by
  have hmem : ("paths", unlessEmpty d.paths (.obj (d.paths.map (fun e =>
      (e.path.bytes, emitPathItem emit e.item))))) ∈ docFields emit d := by simp [docFields]
  rw [pathMembers, objMember_read (docFields_keys emit d) hmem, List.map_map]
  exact getD_unless d.paths (List.map _) rfl

theorem schemeMembers_read (d : Doc (Tree Nat)) : schemeMembers (readBack (docFields emit d)) =
    ((d.components.map (·.securitySchemes)).getD []).filterMap (fun e =>
      e.2.map (fun scheme => (e.1.bytes, readBack (securitySchemeFields scheme)))) := by
  have hmem : ("components", d.components.map (emitComponents emit)) ∈ docFields emit d := by
    simp [docFields]
  rw [schemeMembers, member_read (docFields_keys emit d) hmem]
  cases d.components with
  | none => rfl
  | some c =>
    have hschemes : ("securitySchemes", emitSection
        (Option.map (fun s => ofFields (securitySchemeFields s))) c.securitySchemes) ∈
          componentsFields emit c := by simp [componentsFields]
    show ((readBack (componentsFields emit c)).objMember "securitySchemes").getD [] = _
    rw [objMember_read (componentsFields_keys emit c) hschemes, List.map_filterMap,
      getD_unless c.securitySchemes (List.filterMap _) rfl]
    refine List.filterMap_congr (fun e _ => ?_)
    rw [Option.map_map, Option.map_map]
    rfl

theorem schemes_parsed (rt : Runtime) (root : Json) :
    ((parseComponents rt (root.member "components")).map (·.securitySchemes)).getD [] =
      (schemeMembers root).map (fun m => (.ofBytes m.1, parseSecurityScheme m.2)) := by
  unfold parseComponents schemeMembers
  cases root.member "components" with
  | none => rfl
  | some v => cases v <;> rfl

/-- What is read where a parsed document was emitted. -/
theorem sameDeclarations_after {d : Doc (Tree Nat)} {root info : Json} {version : CStr}
    (h : d.map outline = (docOfRoot rt root version info).map outline) :
    SameDeclarations root (readBack (docFields emit d)) ↔ PlainDeclarations root := by
  have hsecurity : d.security = parseSecurityArray (root.member "security") :=
    congrArg Doc.security h
  have hpaths : d.paths.map (PathEntry.map outline) = (pathMembers root).map (fun m =>
      (⟨.ofBytes m.1, parsePathItem rt m.2⟩ : PathEntry (Tree Nat)).map outline) := by
    refine (congrArg Doc.paths h).trans ?_
    show (parsePaths rt root).map (PathEntry.map outline) = _
    rw [parsePaths, List.map_map]
    rfl
  have hschemes : (d.components.map (·.securitySchemes)).getD [] =
      (schemeMembers root).map (fun m => (.ofBytes m.1, parseSecurityScheme m.2)) := by
    rw [← schemes_parsed rt]
    have hcomponents := congrArg (fun d : Doc Unit => (d.components.map (·.securitySchemes)).getD []) h
    simpa [Doc.map, Option.map_map, Function.comp_def, Components.map, docOfRoot] using hcomponents
  have hroot : SameSecurity (root.member "security") ((readBack (docFields emit d)).member "security") ↔
      PlainSecurity (root.member "security") := by
    rw [member_read (docFields_keys emit d) (v := emitSecurity d.security) (by simp [docFields]), hsecurity]
    exact sameSecurity_after
  have hoperations : List.Forall₂ SamePath (pathMembers root) (pathMembers (readBack (docFields emit d))) ↔
      ∀ m ∈ pathMembers root, PlainPath m := by
    rw [pathMembers_read]
    exact forall₂_of_map_eq (fun e m he => samePath_after he) hpaths
  have hdeclared : SameMembers SameScheme (schemeMembers root)
      (schemeMembers (readBack (docFields emit d))) ↔ ∀ m ∈ schemeMembers root, PlainScheme m := by
    rw [schemeMembers_read, hschemes, List.filterMap_map]
    exact sameSchemes_after
  constructor
  · rintro ⟨h1, h2, h3⟩
    exact ⟨hroot.mp h1, hoperations.mp h2, hdeclared.mp h3⟩
  · rintro ⟨h1, h2, h3⟩
    exact ⟨hroot.mpr h1, hoperations.mpr h2, hdeclared.mpr h3⟩

/-- The text that a document is emitted to declares the security of the input. -/
def SecuritySurvives (rt : Runtime) (write : Json → Option Bytes) (held : Nat → Json) (root : Json)
    (d : Doc (Tree Nat)) : Prop :=
  ∃ text v, oasDocEmitJson (oasEmitBuildSchema held) write d = some text ∧
    rt.read text = some v ∧ SameDeclarations root v

end Documents

section Runs

/-- `{"openapi": "3.1.0", "info": {}, "components": {"securitySchemes": {"key": scheme}},
"security": [requirement]}`, as the emitter orders it. -/
def securedBy (scheme requirement : List (Bytes × Json)) : Json := .obj [
  (ascii "openapi", .str (ascii "3.1.0")), (ascii "info", .obj []),
  (ascii "components", .obj [(ascii "securitySchemes", .obj [(ascii "key", .obj scheme)])]),
  (ascii "security", .arr [.obj requirement])]

/-- What is parsed of such a document. -/
def securedDoc (scheme : SecurityScheme) (requirement : SecurityReq) : Doc (Tree Nat) where
  openapi := .ofString "3.1.0"
  info := some ⟨none, none, none, none, none, none, none⟩
  servers := []
  paths := []
  components := some ⟨[], [(.ofString "key", some scheme)], [], [], [], []⟩
  security := [some requirement]
  tags := []

/-- Libraries that read an input and what is emitted for it. -/
def readsBoth (input output : Json) : Runtime :=
  .knowing [(ascii "input", input), (ascii "output", output)]

def apiKeyRoot : Json :=
  securedBy [(ascii "type", .str (ascii "apiKey"))] [(ascii "key", .arr [.str (ascii "read")])]

def apiKeyDoc : Doc (Tree Nat) := securedDoc
  ⟨some (.ofString "apiKey"), none, none, none, none, none, none, none⟩
  ⟨.ofString "key", [some (.ofString "read")]⟩

theorem apiKeyRoot_plain : PlainDeclarations apiKeyRoot where
  security x hx := by
    cases hx
    refine ⟨_, rfl, by simp, fun r hr => ?_⟩
    cases List.mem_singleton.mp hr
    have hscopes : PlainScopes (.arr [.str (ascii "read")]) := by
      refine ⟨_, rfl, fun x hx => ?_⟩
      cases List.mem_singleton.mp hx
      exact ⟨_, rfl, by decide⟩
    refine ⟨_, rfl, fun m hm => ?_, fun m hm m' hm' => ?_⟩
    · cases List.mem_singleton.mp hm
      exact ⟨by decide, hscopes⟩
    · cases List.mem_singleton.mp hm
      cases List.mem_singleton.mp hm'
      exact ⟨rfl, _, _, rfl, rfl, fun _ => Iff.rfl⟩
  operations m hm := by cases hm
  schemes m hm := by
    cases List.mem_singleton.mp hm
    refine ⟨by decide, rfl, fun name hname x hx => ?_, rfl, rfl⟩
    simp only [List.mem_cons, List.not_mem_nil, or_false] at hname
    rcases hname with rfl | rfl | rfl | rfl | rfl
    · cases hx
      exact ⟨_, rfl, by decide⟩
    all_goals cases hx

/-- A scheme of OpenID Connect with its URL, and a requirement of two schemes. -/
def openIdRoot : Json := securedBy
  [(ascii "type", .str (ascii "openIdConnect")), (ascii "openIdConnectUrl", .str (ascii "https://id"))]
  [(ascii "key", .arr []), (ascii "other", .arr [])]

def openIdDoc : Doc (Tree Nat) := securedDoc
  ⟨some (.ofString "openIdConnect"), none, none, none, none, none, some (.ofString "https://id"), none⟩
  ⟨.ofString "key", []⟩

def openIdAfter : Json :=
  securedBy [(ascii "type", .str (ascii "openIdConnect"))] [(ascii "key", .arr [])]

end Runs

end Liboas.Emitter
