import Liboas.Core.Written
import Liboas.Emitter.Writable
import Liboas.Parser.CoreSchema

/-!
# YAML (`oas_yaml.c`)

The YAML library parses the text to a tree of nodes. `convert_node` makes a JSON value of it, which
is written and read back.
-/

namespace Liboas

/-! ## The nodes -/

/-- `fy_node_style`, of scalars. -/
inductive NodeStyle where
  | plain
  | singleQuoted
  | doubleQuoted
  | literal
  | folded
  deriving DecidableEq

/-- A C string that the YAML library gives: its texts are UTF-8. -/
structure FyText extends CStr where
  isText : Utf8.IsText bytes

/-- `fy_node`. A `null` is a null pointer, to a node or to the text of one. -/
inductive FyNode where
  | null
  | scalar (style : NodeStyle) (text : FyText)
  | sequence (items : List FyNode)
  | mapping (pairs : List (FyNode × FyNode))

namespace FyNode

/-- `fy_node_get_scalar0`. -/
def getScalar0 : FyNode → Option FyText
  | scalar _ text => some text
  | _ => none

end FyNode

/-! ## The conversion -/

/-- The text is a whole number that `strtoll` reads to its end. -/
def ReadsInt (t : Bytes) : Prop :=
  (strtoll t).consumed ≠ 0 ∧ (strtoll t).consumed = t.length ∧ (strtoll t).range = false

/-- The text is a number that `strtod` reads to its end. -/
def ReadsReal (tiny : Bytes → Bool) (t : Bytes) : Prop :=
  (strtodEnd tiny t).consumed ≠ 0 ∧ (strtodEnd tiny t).consumed = t.length ∧
    (strtodEnd tiny t).range = false

instance (t : Bytes) : Decidable (ReadsInt t) := inferInstanceAs (Decidable (_ ∧ _))

instance (tiny : Bytes → Bool) (t : Bytes) : Decidable (ReadsReal tiny t) :=
  inferInstanceAs (Decidable (_ ∧ _))

/-- The value of a scalar: only quotes make every text a string. -/
def convertScalar (tiny : Bytes → Bool) (style : NodeStyle) (str : Bytes) : Json :=
  let isQuoted := style = .singleQuoted ∨ style = .doubleQuoted
  if isQuoted then .str str
  else if str = ascii "null" ∨ str = ascii "~" ∨ str = [] then .null
  else if str = ascii "true" then .bool true
  else if str = ascii "false" then .bool false
  else if ReadsInt str then .num (.sint (Int64.ofInt (strtoll str).value))
  else if ReadsReal tiny str then .num (.real (strtodEnd tiny str).value)
  else .str str

mutual

/-- `convert_node`. A key that is no scalar is skipped, with its value. -/
def convertNode (tiny : Bytes → Bool) : FyNode → Json
  | .null => .null
  | .scalar style text => convertScalar tiny style text.bytes
  | .sequence items => .arr (convertItems tiny items)
  | .mapping pairs => .obj (convertPairs tiny pairs)

def convertItems (tiny : Bytes → Bool) : List FyNode → List Json
  | [] => []
  | item :: items => convertNode tiny item :: convertItems tiny items

def convertPairs (tiny : Bytes → Bool) : List (FyNode × FyNode) → List (Bytes × Json)
  | [] => []
  | pair :: pairs =>
    match pair.1.getScalar0 with
    | some key => (key.bytes, convertPair tiny pair) :: convertPairs tiny pairs
    | none => convertPairs tiny pairs

def convertPair (tiny : Bytes → Bool) : FyNode × FyNode → Json
  | (_, value) => convertNode tiny value

end

/-- `oas_yaml_to_json`, with the text of `err_msg`. `build` gives the root of the document that
the YAML library builds. -/
def oasYamlToJson (build : Bytes → Option FyNode) (tiny : Bytes → Bool) (yaml : Option Bytes) :
    Except String Json :=
  match yaml with
  | none | some [] => .error "empty input"
  | some yaml =>
    match build yaml with
    | none => .error "YAML parse error"
    | some root =>
      let mroot := convertNode tiny root
      if mroot.writes then .ok mroot.reread else .error "JSON write error"

/-! ## The types of the Core Schema -/

/-- The value has the type of the scalar: quoted, literal and folded ones are strings. -/
def CoreScalar (style : NodeStyle) (t : Bytes) (v : Json) : Prop :=
  match style with
  | .plain =>
    match coreType t with
    | .null => v = .null
    | .bool b => v = .bool b
    | .int n => ∃ number, v = .num number ∧ number.integer = some n
    | .float => v = .num (.real (strtod t))
    | .str => v = .str t
  | _ => v = .str t

mutual

/-- The JSON tree has the shape of the YAML tree, with scalars of their types. The members are those
whose keys are scalars. -/
def CoreTree : FyNode → Json → Prop
  | .null, v => v = .null
  | .scalar style text, v => CoreScalar style text.bytes v
  | .sequence items, v => ∃ vs, v = .arr vs ∧ CoreItems items vs
  | .mapping pairs, v => ∃ ms, v = .obj ms ∧ CoreMembers pairs ms

def CoreItems : List FyNode → List Json → Prop
  | [], vs => vs = []
  | item :: items, vs => ∃ v rest, vs = v :: rest ∧ CoreTree item v ∧ CoreItems items rest

def CoreMembers : List (FyNode × FyNode) → List (Bytes × Json) → Prop
  | [], ms => ms = []
  | pair :: pairs, ms =>
    match pair.1.getScalar0 with
    | some key => ∃ v rest, ms = (key.bytes, v) :: rest ∧ CoreMember pair v ∧ CoreMembers pairs rest
    | none => CoreMembers pairs ms

def CoreMember : FyNode × FyNode → Json → Prop
  | (_, value), v => CoreTree value v

end

namespace FyNode

mutual

/-- The scalars of the tree, without keys and what is behind a key that is no scalar. -/
def scalars : FyNode → List (NodeStyle × FyText)
  | null => []
  | scalar style text => [(style, text)]
  | sequence items => itemScalars items
  | mapping pairs => pairsScalars pairs

def itemScalars : List FyNode → List (NodeStyle × FyText)
  | [] => []
  | item :: items => scalars item ++ itemScalars items

def pairsScalars : List (FyNode × FyNode) → List (NodeStyle × FyText)
  | [] => []
  | pair :: pairs =>
    match pair.1.getScalar0 with
    | some _ => pairScalars pair ++ pairsScalars pairs
    | none => pairsScalars pairs

def pairScalars : FyNode × FyNode → List (NodeStyle × FyText)
  | (_, value) => scalars value

end

end FyNode

/-- The code reads the scalar as the Core Schema types it. -/
def CoreRead (tiny : Bytes → Bool) (style : NodeStyle) (t : Bytes) : Prop :=
  match style with
  | .plain =>
    match coreType t with
    | .null => t = ascii "null" ∨ t = ascii "~" ∨ t = []
    | .bool _ => t = ascii "true" ∨ t = ascii "false"
    | .int n => decimalInt t = some n ∧ longMin ≤ n ∧ n ≤ longMax
    | .float => strtodRange tiny (unsigned t) = false
    | .str => ¬ ReadsInt t ∧ ¬ ReadsReal tiny t
  | .literal | .folded =>
    t ∉ [ascii "null", ascii "~", [], ascii "true", ascii "false"] ∧ ¬ ReadsInt t ∧ ¬ ReadsReal tiny t
  | _ => True

section Scalars

variable {tiny : Bytes → Bool} {t : Bytes}

theorem readsInt_iff (hblank : t.dropWhile isSpace = t) :
    ReadsInt t ↔ ∃ n, decimalInt t = some n ∧ longMin ≤ n ∧ n ≤ longMax := by
  unfold ReadsInt
  constructor
  · rintro ⟨hsome, hwhole, hrange⟩
    obtain ⟨n, hn⟩ := strtoll_whole hsome hwhole
    rw [hblank] at hn
    rw [strtoll_decimal hn] at hrange
    simp only [Bool.or_eq_false_iff, decide_eq_false_iff_not, Int.not_lt] at hrange
    exact ⟨n, hn, hrange⟩
  · rintro ⟨n, hn, hmin, hmax⟩
    rw [strtoll_decimal hn]
    refine ⟨?_, rfl, ?_⟩
    · exact Nat.pos_iff_ne_zero.mp (List.length_pos_of_ne_nil (decimalInt_ne_nil hn))
    · simp [hmin, hmax]

/-- What is read of a text that is none of the five words. -/
theorem convertScalar_number {style : NodeStyle} (hstyle : style ≠ .singleQuoted ∧ style ≠ .doubleQuoted)
    (ht : t ∉ [ascii "null", ascii "~", [], ascii "true", ascii "false"]) :
    convertScalar tiny style t =
      if ReadsInt t then .num (.sint (Int64.ofInt (strtoll t).value))
      else if ReadsReal tiny t then .num (.real (strtodEnd tiny t).value)
      else .str t := by
  simp only [List.mem_cons, List.not_mem_nil, or_false, not_or] at ht
  unfold convertScalar
  dsimp only
  rw [if_neg (by tauto), if_neg (by tauto), if_neg (by tauto), if_neg (by tauto)]

/-- The words that are no strings, unless they are quoted. -/
theorem convertScalar_word {style : NodeStyle} (hstyle : style ≠ .singleQuoted ∧ style ≠ .doubleQuoted) :
    (t = ascii "null" ∨ t = ascii "~" ∨ t = [] → convertScalar tiny style t = .null) ∧
      (t = ascii "true" → convertScalar tiny style t = .bool true) ∧
      (t = ascii "false" → convertScalar tiny style t = .bool false) := by
  unfold convertScalar
  dsimp only
  rw [if_neg (by tauto)]
  refine ⟨fun h => if_pos h, ?_, ?_⟩
  · rintro rfl
    rw [if_neg (by decide), if_pos rfl]
  · rintro rfl
    rw [if_neg (by decide), if_neg (by decide), if_pos rfl]

/-- A text stays a string when no number is read of it. -/
theorem convertScalar_str {style : NodeStyle} (hstyle : style ≠ .singleQuoted ∧ style ≠ .doubleQuoted) :
    (convertScalar tiny style t).reread = .str t ↔
      t ∉ [ascii "null", ascii "~", [], ascii "true", ascii "false"] ∧ ¬ ReadsInt t ∧
        ¬ ReadsReal tiny t := by
  by_cases hword : t ∈ [ascii "null", ascii "~", [], ascii "true", ascii "false"]
  · obtain ⟨hnull, htrue, hfalse⟩ := @convertScalar_word tiny t style hstyle
    have hne : (convertScalar tiny style t).reread ≠ .str t := by
      simp only [List.mem_cons, List.not_mem_nil, or_false] at hword
      rcases hword with h | h | h | h | h
      · rw [hnull (.inl h)]
        rintro ⟨⟩
      · rw [hnull (.inr (.inl h))]
        rintro ⟨⟩
      · rw [hnull (.inr (.inr h))]
        rintro ⟨⟩
      · rw [htrue h]
        rintro ⟨⟩
      · rw [hfalse h]
        rintro ⟨⟩
    simp [hne, hword]
  · rw [convertScalar_number hstyle hword]
    by_cases hint : ReadsInt t
    · simp [hint]
    · by_cases hreal : ReadsReal tiny t <;> simp [hint, hreal, hword]

theorem mem_words_of_type {t : Bytes}
    (h : t ∈ [ascii "null", ascii "~", [], ascii "true", ascii "false"]) :
    coreType t = .null ∨ coreType t = .bool true ∨ coreType t = .bool false := by
  simp only [List.mem_cons, List.not_mem_nil, or_false] at h
  rcases h with rfl | rfl | rfl | rfl | rfl <;> decide

theorem prefixedInt_noBlank {marker : String} {base : Nat} {n : Int}
    (hmarker : (ascii marker).head? = some 48) (h : prefixedInt marker base t = some n) :
    t.dropWhile isSpace = t := by
  unfold prefixedInt at h
  dsimp only at h
  split at h
  · rename_i hdigits
    obtain ⟨rest, hrest⟩ := List.head?_eq_some_iff.mp hmarker
    obtain ⟨behind, rfl⟩ := hdigits.1
    rw [hrest]
    exact dropWhile_isSpace rfl
  · cases h

theorem coreInt_noBlank {n : Int} (h : coreInt t = some n) : t.dropWhile isSpace = t := by
  unfold coreInt at h
  rcases Option.or_eq_some_iff.mp h with h | ⟨-, h⟩
  · exact decimalInt_noBlank h
  rcases Option.or_eq_some_iff.mp h with h | ⟨-, h⟩
  · exact prefixedInt_noBlank rfl h
  · exact prefixedInt_noBlank rfl h

/-- A whole number in range comes back as the number it was. -/
theorem reread_sint {n : Int} (hmin : longMin ≤ n) (hmax : n ≤ longMax) :
    (Num.sint (Int64.ofInt n)).reread.integer = some n := by
  unfold longMin longMax at *
  have hvalue : (Int64.ofInt n).toInt = n := Int64.toInt_ofInt_of_le (by omega) (by omega)
  by_cases hnonneg : 0 ≤ n
  · have hle : 0 ≤ Int64.ofInt n := by
      rw [Int64.le_iff_toInt_le, hvalue]
      exact hnonneg
    have hnat := Int64.toNat_toUInt64_of_le hle
    rw [Int64.toNatClampNeg, hvalue] at hnat
    rw [Num.reread, if_pos (by rwa [hvalue]), Num.integer, hnat, Int.toNat_of_nonneg hnonneg]
  · rw [Num.reread, if_neg (by rwa [hvalue]), Num.integer, hvalue]

/-- An integer of the schema is read as one when it is in decimal and in range. -/
theorem plain_int {n : Int} (htype : coreInt t = some n)
    (hword : t ∉ [ascii "null", ascii "~", [], ascii "true", ascii "false"]) :
    (∃ number, (convertScalar tiny .plain t).reread = .num number ∧ number.integer = some n) ↔
      decimalInt t = some n ∧ longMin ≤ n ∧ n ≤ longMax := by
  rw [convertScalar_number (by decide) hword]
  have hints := readsInt_iff (coreInt_noBlank htype)
  have hsame : ∀ n', decimalInt t = some n' → n' = n := by
    intro n' h
    unfold coreInt at htype
    rw [h, Option.some_or] at htype
    exact Option.some_inj.mp htype
  constructor
  · rintro ⟨number, hv, hn⟩
    by_cases hint : ReadsInt t
    · obtain ⟨n', hn', hmin, hmax⟩ := hints.mp hint
      cases hsame n' hn'
      exact ⟨hn', hmin, hmax⟩
    · rw [if_neg hint] at hv
      split at hv
      · cases hv
        cases hn
      · cases hv
  · rintro ⟨hn, hmin, hmax⟩
    rw [if_pos (hints.mpr ⟨n, hn, hmin, hmax⟩), strtoll_decimal hn]
    refine ⟨_, rfl, ?_⟩
    rw [min_eq_right hmax, max_eq_right hmin]
    exact reread_sint hmin hmax

/-- A float of the schema is read as one when it is in range. -/
theorem plain_float (htype : coreInt t = none) (hfloat : coreFloat t = true)
    (hword : t ∉ [ascii "null", ascii "~", [], ascii "true", ascii "false"]) :
    (convertScalar tiny .plain t).reread = .num (.real (strtod t)) ↔
      strtodRange tiny (unsigned t) = false := by
  have h := coreFloat_iff.mp hfloat
  have hint : ¬ ReadsInt t := by
    rw [readsInt_iff h.noBlank]
    rintro ⟨n, hn, -⟩
    unfold coreInt at htype
    rw [hn] at htype
    cases htype
  have hne : t ≠ [] := by
    rintro rfl
    exact hword (by simp)
  have hlength := List.length_pos_of_ne_nil hne
  have hreal : ReadsReal tiny t ↔ strtodRange tiny (unsigned t) = false := by
    unfold ReadsReal
    rw [strtodEnd_float tiny h]
    simp [hne]
  rw [convertScalar_number (by decide) hword, if_neg hint, ← hreal]
  split
  · rename_i hr
    rw [strtodEnd_float tiny h]
    simp [hr, Num.reread]
  · rename_i hr
    simp [hr]

/-- The null and boolean types have words that the code does not know. -/
theorem plain_word {v : Json} (hv : v = .null ∨ ∃ b, v = .bool b)
    (h : (convertScalar tiny .plain t).reread = v) :
    (v = .null → t = ascii "null" ∨ t = ascii "~" ∨ t = []) ∧
      (∀ b, v = .bool b → t = ascii "true" ∨ t = ascii "false") := by
  have hword : t ∈ [ascii "null", ascii "~", [], ascii "true", ascii "false"] := by
    by_contra hword
    rw [convertScalar_number (by decide) hword] at h
    by_cases hint : ReadsInt t
    · rw [if_pos hint] at h
      rcases hv with rfl | ⟨b, rfl⟩ <;> cases h
    · by_cases hreal : ReadsReal tiny t
      · rw [if_neg hint, if_pos hreal] at h
        rcases hv with rfl | ⟨b, rfl⟩ <;> cases h
      · rw [if_neg hint, if_neg hreal] at h
        rcases hv with rfl | ⟨b, rfl⟩ <;> cases h
  obtain ⟨hnull, htrue, hfalse⟩ := @convertScalar_word tiny t .plain (by decide)
  simp only [List.mem_cons, List.not_mem_nil, or_false] at hword
  by_cases hbool : t = ascii "true" ∨ t = ascii "false"
  · refine ⟨?_, fun _ _ => hbool⟩
    rintro rfl
    rcases hbool with h' | h'
    · rw [htrue h'] at h
      cases h
    · rw [hfalse h'] at h
      cases h
  · have hnulls : t = ascii "null" ∨ t = ascii "~" ∨ t = [] := by
      rcases hword with h | h | h | h
      · exact .inl h
      · exact .inr (.inl h)
      · exact .inr (.inr h)
      · exact absurd h hbool
    refine ⟨fun _ => hnulls, ?_⟩
    rintro b rfl
    rw [hnull hnulls] at h
    cases h

/-- What each scalar becomes is written, unless a number is read of it that is not finite. -/
theorem writes_scalar {style : NodeStyle} (htext : Utf8.IsText t)
    (hfinite : ∀ d, convertScalar tiny style t = .num (.real d) → Binary64.Finite d.bits.toNat) :
    (convertScalar tiny style t).writes = true := by
  have hstr : (Json.str t).writes = true := by
    rw [Json.writes, decide_eq_true_eq]
    exact htext
  unfold convertScalar at hfinite ⊢
  dsimp only at hfinite ⊢
  split
  · exact hstr
  split
  · rfl
  split
  · rfl
  split
  · rfl
  split
  · rfl
  split
  · rename_i h0 h1 h2 h3 h4 h5
    rw [Json.writes, decide_eq_true_eq]
    apply hfinite
    rw [if_neg h0, if_neg h1, if_neg h2, if_neg h3, if_neg h4, if_pos h5]
  · exact hstr

theorem coreType_number (hnumber : coreType t ≠ .null ∧ ∀ b, coreType t ≠ .bool b) :
    t ∉ [ascii "null", ascii "~", [], ascii "true", ascii "false"] ∧
      ((∃ n, coreInt t = some n ∧ coreType t = .int n) ∨
        (coreInt t = none ∧ coreFloat t = true ∧ coreType t = .float) ∨
        (coreInt t = none ∧ coreFloat t = false ∧ coreType t = .str)) := by
  constructor
  · intro hword
    rcases mem_words_of_type hword with h | h | h
    · exact hnumber.1 h
    · exact hnumber.2 _ h
    · exact hnumber.2 _ h
  · by_cases hnull : t ∈ coreNulls
    · exact absurd (if_pos hnull) hnumber.1
    by_cases htrue : t ∈ coreTrues
    · refine absurd ?_ (hnumber.2 true)
      unfold coreType
      rw [if_neg hnull, if_pos htrue]
    by_cases hfalse : t ∈ coreFalses
    · refine absurd ?_ (hnumber.2 false)
      unfold coreType
      rw [if_neg hnull, if_neg htrue, if_pos hfalse]
    unfold coreType
    rw [if_neg hnull, if_neg htrue, if_neg hfalse]
    cases hint : coreInt t with
    | some n => exact .inl ⟨n, rfl, rfl⟩
    | none =>
      cases hfloat : coreFloat t with
      | true => exact .inr (.inl ⟨rfl, rfl, rfl⟩)
      | false => exact .inr (.inr ⟨rfl, rfl, rfl⟩)

/-- The code reads a plain scalar as its type says just under the condition on the type. -/
theorem plain_iff : CoreScalar .plain t (convertScalar tiny .plain t).reread ↔ CoreRead tiny .plain t := by
  obtain ⟨hnull, htrue, hfalse⟩ := @convertScalar_word tiny t .plain (by decide)
  unfold CoreScalar CoreRead
  dsimp only
  cases htype : coreType t with
  | null =>
    dsimp only
    constructor
    · intro h
      exact (plain_word (.inl rfl) h).1 rfl
    · intro h
      rw [hnull h, Json.reread_null]
  | bool b =>
    dsimp only
    constructor
    · intro h
      exact (plain_word (.inr ⟨b, rfl⟩) h).2 b rfl
    · rintro (h | h)
      · have hb : coreType (ascii "true") = .bool true := by decide
        rw [← h, htype] at hb
        injection hb with hb
        rw [htrue h, hb, Json.reread_bool]
      · have hb : coreType (ascii "false") = .bool false := by decide
        rw [← h, htype] at hb
        injection hb with hb
        rw [hfalse h, hb, Json.reread_bool]
  | int n =>
    obtain ⟨hword, ⟨n', hint, h⟩ | ⟨-, -, h⟩ | ⟨-, -, h⟩⟩ := @coreType_number t (by simp [htype])
    · rw [htype] at h
      cases h
      exact plain_int hint hword
    · rw [htype] at h
      cases h
    · rw [htype] at h
      cases h
  | float =>
    obtain ⟨hword, ⟨n', -, h⟩ | ⟨hint, hfloat, -⟩ | ⟨-, -, h⟩⟩ := @coreType_number t (by simp [htype])
    · rw [htype] at h
      cases h
    · exact plain_float hint hfloat hword
    · rw [htype] at h
      cases h
  | str =>
    have hword := (@coreType_number t (by simp [htype])).1
    dsimp only
    rw [convertScalar_str (by decide)]
    exact and_iff_right hword

/-- The plain strings that the code takes for numbers: after a blank, by a name, or in base 16. -/
theorem misread_str (htype : coreType t = .str) (hread : ReadsInt t ∨ ReadsReal tiny t) :
    t.dropWhile isSpace ≠ t ∨
      ∃ name ∈ [ascii "inf", ascii "nan", ascii "0x"], name <+: lowered (unsigned t) := by
  obtain ⟨hint, hfloat⟩ : coreInt t = none ∧ coreFloat t = false := by
    obtain ⟨-, ⟨n, -, h⟩ | ⟨-, -, h⟩ | ⟨hint, hfloat, -⟩⟩ := @coreType_number t (by simp [htype])
    · rw [htype] at h
      cases h
    · rw [htype] at h
      cases h
    · exact ⟨hint, hfloat⟩
  by_contra hnone
  rw [not_or, not_not] at hnone
  obtain ⟨hblank, hnames⟩ := hnone
  have hname : ∀ name ∈ [ascii "inf", ascii "nan", ascii "0x"], ¬ name <+: lowered (unsigned t) :=
    fun name hmem hprefix => hnames ⟨name, hmem, hprefix⟩
  have hinf := hname (ascii "inf") (by simp)
  have hnan := hname (ascii "nan") (by simp)
  have hhex := hname (ascii "0x") (by simp)
  have hinfinity : ¬ ascii "infinity" <+: lowered (unsigned t) :=
    fun h => hinf ((show ascii "inf" <+: ascii "infinity" from ⟨ascii "inity", by decide⟩).trans h)
  rcases hread with hread | ⟨hsome, hwhole, -⟩
  · obtain ⟨n, hn, -⟩ := (readsInt_iff hblank).mp hread
    unfold coreInt at hint
    rw [hn] at hint
    cases hint
  · unfold strtodEnd strtodRest readNumber at hsome hwhole
    rw [hblank] at hsome hwhole
    dsimp only at hsome hwhole
    rw [if_neg hinfinity, if_neg hinf, if_neg hnan, if_neg hhex] at hsome hwhole
    unfold coreFloat at hfloat
    cases hdigits : readDigits 10 (unsigned t) with
    | none =>
      rw [hdigits] at hsome
      exact hsome rfl
    | some read =>
      obtain ⟨m, k, rest⟩ := read
      rw [hdigits] at hfloat hsome hwhole
      dsimp only [Option.map_some] at hfloat hsome hwhole
      rw [beq_eq_false_iff_ne] at hfloat
      have := List.length_pos_of_ne_nil hfloat
      omega

theorem coreScalar_iff {style : NodeStyle} :
    CoreScalar style t (convertScalar tiny style t).reread ↔ CoreRead tiny style t := by
  cases style with
  | plain => exact plain_iff
  | singleQuoted => simp [CoreScalar, CoreRead, convertScalar]
  | doubleQuoted => simp [CoreScalar, CoreRead, convertScalar]
  | literal => exact convertScalar_str (by decide)
  | folded => exact convertScalar_str (by decide)

/-- A number that the schema types is finite. -/
theorem coreScalar_finite {style : NodeStyle} {d : Double} (hread : CoreRead tiny style t)
    (h : convertScalar tiny style t = .num (.real d)) : Binary64.Finite d.bits.toNat := by
  have hcore := coreScalar_iff.mpr hread
  rw [h, Json.reread_num, Num.reread] at hcore
  cases style with
  | plain =>
    unfold CoreScalar at hcore
    unfold CoreRead at hread
    dsimp only at hcore hread
    cases htype : coreType t with
    | float =>
      rw [htype] at hcore hread
      dsimp only at hcore hread
      have hfloat : coreFloat t = true := by
        obtain ⟨-, ⟨n, -, h⟩ | ⟨-, hfloat, -⟩ | ⟨-, -, h⟩⟩ := @coreType_number t (by simp [htype])
        · rw [htype] at h
          cases h
        · exact hfloat
        · rw [htype] at h
          cases h
      injection hcore with hcore
      injection hcore with hd
      rw [hd]
      exact strtod_finite (coreFloat_iff.mp hfloat) hread
    | int n =>
      rw [htype] at hcore
      obtain ⟨number, hnumber, hn⟩ := hcore
      cases hnumber
      cases hn
    | null =>
      rw [htype] at hcore
      cases hcore
    | bool b =>
      rw [htype] at hcore
      cases hcore
    | str =>
      rw [htype] at hcore
      cases hcore
  | singleQuoted => cases hcore
  | doubleQuoted => cases hcore
  | literal => cases hcore
  | folded => cases hcore

/-- The value of a scalar has its type just where the code reads it so, and then it is written. -/
theorem convertScalar_iff {style : NodeStyle} (htext : Utf8.IsText t) :
    ((convertScalar tiny style t).writes = true ∧
      CoreScalar style t (convertScalar tiny style t).reread) ↔ CoreRead tiny style t := by
  rw [coreScalar_iff]
  exact and_iff_right_of_imp (fun h => writes_scalar htext (fun d => coreScalar_finite h))

end Scalars

/-! ## Trees -/

/-- The induction over a tree of nodes. -/
theorem nodes_induct {P : FyNode → Prop} (null : P .null) (scalar : ∀ style text, P (.scalar style text))
    (sequence : ∀ items, (∀ item ∈ items, P item) → P (.sequence items))
    (mapping : ∀ pairs : List (FyNode × FyNode), (∀ pair ∈ pairs, P pair.2) → P (.mapping pairs))
    (n : FyNode) : P n := by
  refine @FyNode.rec P (fun items => ∀ item ∈ items, P item) (fun pairs => ∀ pair ∈ pairs, P pair.2)
    (fun pair => P pair.2) null scalar sequence mapping ?_ ?_ ?_ ?_ ?_ n
  · simp
  · intro item items hitem hitems
    simpa using ⟨hitem, hitems⟩
  · simp
  · intro pair pairs hpair hpairs
    simpa using ⟨hpair, fun key value h => hpairs (key, value) h⟩
  · intro key value _ hvalue
    exact hvalue

/-- A list of nodes is converted to its types just where every scalar in it is. -/
theorem convertItems_iff {tiny : Bytes → Bool} {items : List FyNode}
    (h : ∀ item ∈ items, ((convertNode tiny item).writes = true ∧
      CoreTree item (convertNode tiny item).reread) ↔
        ∀ s ∈ item.scalars, CoreRead tiny s.1 s.2.bytes) :
    ((Json.arr (convertItems tiny items)).writes = true ∧
      CoreItems items ((convertItems tiny items).map Json.reread)) ↔
        ∀ s ∈ FyNode.itemScalars items, CoreRead tiny s.1 s.2.bytes := by
  induction items with
  | nil => simp [convertItems, Json.writes, Json.writesItems, CoreItems, FyNode.itemScalars]
  | cons item items ih =>
    have hitem := h item List.mem_cons_self
    have hitems := ih (fun i hi => h i (List.mem_cons_of_mem item hi))
    rw [Json.writes] at hitems ⊢
    rw [convertItems, Json.writesItems, CoreItems, FyNode.itemScalars, List.forall_mem_append,
      ← hitem, ← hitems, Bool.and_eq_true, List.map_cons]
    constructor
    · rintro ⟨⟨hw, hws⟩, v, rest, hcons, hv, hrest⟩
      injection hcons with hv' hrest'
      subst hv' hrest'
      exact ⟨⟨hw, hv⟩, hws, hrest⟩
    · rintro ⟨⟨hw, hv⟩, hws, hrest⟩
      exact ⟨⟨hw, hws⟩, _, _, rfl, hv, hrest⟩

/-- The pairs of a mapping likewise. -/
theorem convertPairs_iff {tiny : Bytes → Bool} {pairs : List (FyNode × FyNode)}
    (h : ∀ pair ∈ pairs, ((convertNode tiny pair.2).writes = true ∧
      CoreTree pair.2 (convertNode tiny pair.2).reread) ↔
        ∀ s ∈ pair.2.scalars, CoreRead tiny s.1 s.2.bytes) :
    ((Json.obj (convertPairs tiny pairs)).writes = true ∧
      CoreMembers pairs ((convertPairs tiny pairs).map (fun m => (m.1, m.2.reread)))) ↔
        ∀ s ∈ FyNode.pairsScalars pairs, CoreRead tiny s.1 s.2.bytes := by
  induction pairs with
  | nil => simp [convertPairs, Json.writes, Json.writesMembers, CoreMembers, FyNode.pairsScalars]
  | cons pair pairs ih =>
    obtain ⟨node, value⟩ := pair
    have hpair := h (node, value) List.mem_cons_self
    have hpairs := ih (fun p hp => h p (List.mem_cons_of_mem _ hp))
    rw [Json.writes] at hpairs ⊢
    rw [convertPairs, CoreMembers, FyNode.pairsScalars]
    dsimp only at hpair ⊢
    cases hkey : node.getScalar0 with
    | none => exact hpairs
    | some key =>
      dsimp only
      rw [Json.writesMembers, Json.writesMember, convertPair, FyNode.pairScalars,
        List.forall_mem_append, ← hpair, ← hpairs, List.map_cons, Bool.and_eq_true, Bool.and_eq_true,
        decide_eq_true_eq]
      constructor
      · rintro ⟨⟨⟨-, hw⟩, hws⟩, v, rest, hcons, hv, hrest⟩
        injection hcons with hv' hrest'
        injection hv' with _ hv'
        subst hv' hrest'
        exact ⟨⟨hw, hv⟩, hws, hrest⟩
      · rintro ⟨⟨hw, hv⟩, hws, hrest⟩
        exact ⟨⟨⟨key.isText, hw⟩, hws⟩, _, _, rfl, hv, hrest⟩

/-- The tree is converted to one of its types just where every scalar is. -/
theorem convertNode_iff (tiny : Bytes → Bool) (root : FyNode) :
    ((convertNode tiny root).writes = true ∧ CoreTree root (convertNode tiny root).reread) ↔
      ∀ s ∈ root.scalars, CoreRead tiny s.1 s.2.bytes := by
  induction root using nodes_induct with
  | null => simp [convertNode, Json.writes, CoreTree, FyNode.scalars]
  | scalar style text =>
    rw [convertNode, CoreTree, convertScalar_iff text.isText]
    simp [FyNode.scalars]
  | sequence items ih =>
    rw [convertNode, CoreTree, FyNode.scalars, ← convertItems_iff ih, Json.reread_arr]
    simp
  | mapping pairs ih =>
    rw [convertNode, CoreTree, FyNode.scalars, ← convertPairs_iff ih, Json.reread_obj]
    simp

/-- The conversion yields the tree of the Core Schema just where each scalar is read as the schema
types it. -/
theorem oasYamlToJson_core_iff {build : Bytes → Option FyNode} {tiny : Bytes → Bool} {yaml : Bytes}
    {root : FyNode} (hyaml : yaml ≠ []) (hroot : build yaml = some root) :
    (∃ v, oasYamlToJson build tiny (some yaml) = .ok v ∧ CoreTree root v) ↔
      ∀ s ∈ root.scalars, CoreRead tiny s.1 s.2.bytes := by
  have hconvert : oasYamlToJson build tiny (some yaml) =
      if (convertNode tiny root).writes then .ok (convertNode tiny root).reread
      else .error "JSON write error" := by
    cases yaml with
    | nil => exact absurd rfl hyaml
    | cons b yaml =>
      unfold oasYamlToJson
      dsimp only
      rw [hroot]
  rw [hconvert, ← convertNode_iff]
  split
  · rename_i hwrites
    simp [hwrites]
  · rename_i hwrites
    simp [hwrites]

/-- The text of a scalar in ASCII. -/
def FyText.ofAscii (b : Bytes) (h : b.all (fun x => 0 < x && x < 128) = true) : FyText where
  bytes := b
  noNul hmem := by simpa using List.all_eq_true.mp h 0 hmem
  isText := by
    apply Utf8.isText_ascii
    intro x hx
    have := List.all_eq_true.mp h x hx
    simp only [Bool.and_eq_true, decide_eq_true_eq] at this
    exact this.2

/-- The root of `port: 8080`. -/
def portRoot : FyNode :=
  .mapping [(.scalar .plain (.ofAscii (ascii "port") (by decide)),
    .scalar .plain (.ofAscii (ascii "8080") (by decide)))]

theorem oasYamlToJson_core_port :
    ∃ v, oasYamlToJson (fun yaml => if yaml = ascii "port: 8080" then some portRoot else none)
      (fun _ => true) (some (ascii "port: 8080")) = .ok v ∧ CoreTree portRoot v := by
  apply (oasYamlToJson_core_iff (by decide) (if_pos rfl)).mpr
  intro s hs
  cases List.mem_singleton.mp hs
  have htype : coreType (ascii "8080") = .int 8080 := by decide
  show CoreRead _ .plain (ascii "8080")
  unfold CoreRead
  rw [htype]
  decide

/-- The root of `nan`. -/
def nanRoot : FyNode := .scalar .plain (.ofAscii (ascii "nan") (by decide))

/-- The schema has no type but the string for `nan`. The code reads a number that cannot be written. -/
theorem oasYamlToJson_nan :
    oasYamlToJson (fun yaml => if yaml = ascii "nan" then some nanRoot else none) (fun _ => true)
        (some (ascii "nan")) = .error "JSON write error" ∧
      CoreTree nanRoot (.str (ascii "nan")) ∧
      ¬ ∃ v, oasYamlToJson (fun yaml => if yaml = ascii "nan" then some nanRoot else none)
        (fun _ => true) (some (ascii "nan")) = .ok v ∧ CoreTree nanRoot v := by
  have hread : oasYamlToJson (fun yaml => if yaml = ascii "nan" then some nanRoot else none)
      (fun _ => true) (some (ascii "nan")) = .error "JSON write error" := by
    rfl
  refine ⟨hread, ?_, ?_⟩
  · rw [nanRoot, CoreTree]
    have htype : coreType (ascii "nan") = .str := by decide
    show CoreScalar .plain (ascii "nan") _
    unfold CoreScalar
    rw [htype]
  · rintro ⟨v, hv, -⟩
    rw [hread] at hv
    cases hv

end Liboas
