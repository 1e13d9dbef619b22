import Liboas.Core.Strtoll
import Liboas.Parser.External

/-!
# The HTTP fetcher (`oas_ref_fetch.c`)

`do_http_get` reads the response into a buffer that it doubles, and takes the body out of it.
The size limit is compared with the next capacity of the buffer, and then with the body.
-/

namespace Liboas

def EPROTO : Int := 71

/-! ## Reading the response -/

/-- `OAS_REF_FETCH_INIT_BUF`. -/
def fetchInitBuf : UInt64 := 4096

/-- How the loop over `recv` ends: with a code, with a write past the buffer, or with the bytes
that it has put there. -/
inductive ReadOutcome where
  | failed (rc : Int)
  | overrun
  | received (buf : Bytes)
  deriving DecidableEq

/-- The buffer has room for another byte and the NUL, or its size is doubled. A size of 0 is
answered by `realloc` with null. -/
def growBuffer (maxSize bufSize : UInt64) (total : Nat) : Except Int UInt64 :=
  if bufSize.toNat - 1 ≤ total then
    let newSize := bufSize * 2
    if maxSize + fetchInitBuf < newSize then .error (-EFBIG)
    else if newSize = 0 then .error (-ENOMEM)
    else .ok newSize
  else .ok bufSize

/-- What `recv` returns: at least one byte while some are left, and no more than fit, than are
left, and than it transfers in one call. `size` is what it wants to return. -/
def recvCount (size room left : Nat) : Nat := min (max 1 size) (min room (min left 0x7ffff000))

/-- The loop over `recv`. `sizes` tells how the response is cut into chunks, `buf` is what is in
the buffer so far, and `left` is what is still to come. -/
def readLoop (maxSize : UInt64) (sizes : Nat → Nat) (round : Nat) (bufSize : UInt64)
    (buf left : Bytes) : ReadOutcome :=
  match growBuffer maxSize bufSize buf.length with
  | .error rc => .failed rc
  | .ok bufSize =>
    let n := recvCount (sizes round) (bufSize.toNat - buf.length - 1) left.length
    if _hn : n = 0 then if buf.length < bufSize.toNat then .received buf else .overrun
    else if buf.length + n ≤ bufSize.toNat then
      readLoop maxSize sizes (round + 1) bufSize (buf ++ left.take n) (left.drop n)
    else .overrun
termination_by left.length
decreasing_by
  have hle : n ≤ left.length := by
    show recvCount _ _ _ ≤ _
    unfold recvCount
    omega
  rw [List.length_drop]
  omega

/-- The whole response, from the first buffer on. -/
def readResponse (maxSize : UInt64) (sizes : Nat → Nat) (response : Bytes) : ReadOutcome :=
  readLoop maxSize sizes 0 fetchInitBuf [] response

/-! ## Taking it apart -/

/-- `strstr`: the text from the first place of the needle on. -/
def strstr (needle : Bytes) : Bytes → Option Bytes
  | [] => if needle = [] then some [] else none
  | b :: s => if needle.isPrefixOf (b :: s) then some (b :: s) else strstr needle s

/-- `parse_status_code`. -/
def parseStatusCode (statusLine : Bytes) : Option Int :=
  match statusLine.dropWhile (· != 32) with
  | [] => none
  | _ :: s =>
    let code := strtoll s
    if code.consumed = 0 ∨ code.value < 100 ∨ 999 < code.value then none else some code.value

def crlf : Bytes := [13, 10]

theorem strstr_length {needle s rest : Bytes} (h : strstr needle s = some rest) :
    rest.length ≤ s.length ∧ needle.length ≤ rest.length := by
  induction s with
  | nil =>
    unfold strstr at h
    split at h <;> simp_all
  | cons b s ih =>
    unfold strstr at h
    split at h
    · rename_i hhere
      cases h
      exact ⟨le_rfl, (List.isPrefixOf_iff_prefix.mp hhere).length_le⟩
    · obtain ⟨hle, hneedle⟩ := ih h
      exact ⟨hle.trans (by simp), hneedle⟩

/-- `find_header`, on the text that is a C string. -/
def Http.findHeader (name : Bytes) (p : Bytes) : Option Bytes :=
  if p = [] then none
  else if lowered (p.take name.length) = lowered name ∧ p[name.length]? = some 58 then
    some ((p.drop (name.length + 1)).dropWhile (fun c => c == 32 || c == 9))
  else
    match _h : strstr crlf p with
    | none => none
    | some eol => Http.findHeader name (eol.drop 2)
termination_by p.length
decreasing_by
  have hlen := strstr_length _h
  simp only [crlf, List.length_cons, List.length_nil, List.length_drop] at hlen ⊢
  omega

/-- `extract_header_value`. -/
def extractHeaderValue (val : Bytes) : CStr :=
  .ofBytes (match strstr crlf val with
    | some eol => val.take (val.length - eol.length)
    | none => val)

/-- What `do_http_get` returns and leaves in its outputs. -/
structure HttpResult where
  rc : Int
  status : Int
  redirect : Option CStr
  data : Option Bytes

/-- The part of `do_http_get` behind the loop. -/
def takeApart (maxSize : UInt64) (buf : Bytes) : HttpResult :=
  let text := buf.takeWhile (· != 0)
  match strstr (crlf ++ crlf) text with
  | none => ⟨-EPROTO, 0, none, none⟩
  | some headerEnd =>
    match parseStatusCode text with
    | none => ⟨-EPROTO, -1, none, none⟩
    | some status =>
      if status = 301 ∨ status = 302 ∨ status = 307 ∨ status = 308 then
        ⟨0, status, (Http.findHeader (ascii "Location") text).map extractHeaderValue, none⟩
      else
        let body := buf.drop (text.length - headerEnd.length + 4)
        if maxSize.toNat < body.length then ⟨-EFBIG, status, none, none⟩
        else ⟨0, status, none, some body⟩

/-- `do_http_get`, from where the request is sent. -/
def doHttpGet (maxSize : UInt64) (sizes : Nat → Nat) (response : Bytes) : Option HttpResult :=
  match readResponse maxSize sizes response with
  | .failed rc => some ⟨rc, 0, none, none⟩
  | .overrun => none
  | .received buf => some (takeApart maxSize buf)

/-! ## The capacities -/

/-- Every capacity that a response of `total` bytes needs is allowed: the buffer of `4096 * 2 ^ k`
bytes is full, with the place of the NUL, and the next one is compared with the limit. -/
def CapacitiesFit (maxSize : UInt64) (total : Nat) : Prop :=
  ∀ k, 4096 * 2 ^ k ≤ total + 1 → 4096 * 2 ^ (k + 1) ≤ (maxSize + fetchInitBuf).toNat

/-- A buffer that the loop has: doubled `k` times, with a place left for the NUL. -/
structure Capacity (bufSize : UInt64) (k total : Nat) : Prop where
  size : bufSize.toNat = 4096 * 2 ^ k
  room : total < bufSize.toNat

theorem capacity_start : Capacity fetchInitBuf 0 0 := ⟨rfl, by decide⟩

theorem double_toNat {bufSize : UInt64} (h : 2 * bufSize.toNat < 2 ^ 64) :
    (bufSize * 2).toNat = 2 * bufSize.toNat := by
  rw [UInt64.toNat_mul, Nat.mul_comm, Nat.mod_eq_of_lt]
  · rfl
  · exact h

theorem recvCount_bounds (size left : Nat) {room : Nat} (hroom : 0 < room) :
    recvCount size room left ≤ left ∧ recvCount size room left ≤ room ∧
      (recvCount size room left = 0 ↔ left = 0) := by
  unfold recvCount
  omega

/-- Where the next capacity is allowed, there is room for a byte and the NUL. -/
theorem growBuffer_ok {maxSize bufSize : UInt64} {k total : Nat} (h : Capacity bufSize k total)
    (hnext : 4096 * 2 ^ k ≤ total + 1 → 4096 * 2 ^ (k + 1) ≤ (maxSize + fetchInitBuf).toNat) :
    ∃ bufSize' k', growBuffer maxSize bufSize total = .ok bufSize' ∧ Capacity bufSize' k' total ∧
      total + 1 < bufSize'.toNat ∧ (k' = k ∨ (k' = k + 1 ∧ 4096 * 2 ^ k ≤ total + 1)) := by
  have hsize := h.size
  have hroom := h.room
  unfold growBuffer
  by_cases hfull : bufSize.toNat - 1 ≤ total
  · have hneeded : 4096 * 2 ^ k ≤ total + 1 := by omega
    have hallowed := hnext hneeded
    have hbound := (maxSize + fetchInitBuf).toNat_lt
    have hdouble : (bufSize * 2).toNat = 2 * bufSize.toNat := by
      apply double_toNat
      rw [Nat.pow_succ] at hallowed
      omega
    have hlimit : ¬ maxSize + fetchInitBuf < bufSize * 2 := by
      rw [UInt64.lt_iff_toNat_lt, hdouble]
      rw [Nat.pow_succ] at hallowed
      omega
    have hpos : bufSize * 2 ≠ 0 := by
      intro h0
      rw [h0] at hdouble
      have : (0 : UInt64).toNat = 0 := rfl
      omega
    rw [if_pos hfull, if_neg hlimit, if_neg hpos]
    refine ⟨_, k + 1, rfl, ⟨?_, by omega⟩, by omega, .inr ⟨rfl, hneeded⟩⟩
    rw [hdouble, hsize, Nat.pow_succ]
    omega
  · rw [if_neg hfull]
    exact ⟨bufSize, k, rfl, h, by omega, .inl rfl⟩

/-- Where the next capacity is needed and not allowed, the loop fails. -/
theorem growBuffer_error {maxSize bufSize : UInt64} {k total : Nat} (h : Capacity bufSize k total)
    (hneeded : 4096 * 2 ^ k ≤ total + 1)
    (hdenied : (maxSize + fetchInitBuf).toNat < 4096 * 2 ^ (k + 1)) :
    ∃ rc, growBuffer maxSize bufSize total = .error rc := by
  have hsize := h.size
  have hroom := h.room
  unfold growBuffer
  rw [if_pos (by omega)]
  by_cases hlimit : maxSize + fetchInitBuf < bufSize * 2
  · rw [if_pos hlimit]
    exact ⟨_, rfl⟩
  · -- the double of the size has wrapped, and it is a power of two
    have hwrapped : ¬ 2 * bufSize.toNat < 2 ^ 64 := by
      intro hlt
      apply hlimit
      rw [UInt64.lt_iff_toNat_lt, double_toNat hlt, hsize]
      rw [Nat.pow_succ] at hdenied
      omega
    have hhalf : bufSize.toNat = 2 ^ 63 := by
      have hbelow : 2 ^ k < 2 ^ 52 := by
        have := bufSize.toNat_lt
        omega
      have habove : 2 ^ 51 ≤ 2 ^ k := by omega
      have hk := (Nat.pow_lt_pow_iff_right (by decide)).mp hbelow
      have hk' := (Nat.pow_le_pow_iff_right (by decide)).mp habove
      have hk51 : k = 51 := by omega
      rw [hsize, hk51]
      rfl
    have hzero : bufSize * 2 = 0 := by
      rw [← UInt64.toNat_inj, UInt64.toNat_mul, hhalf]
      rfl
    rw [if_neg hlimit, if_pos hzero]
    exact ⟨_, rfl⟩

/-! ## The loop -/

/-- With room in the buffer the loop ends where nothing is left, or puts some bytes in. -/
theorem readLoop_round {maxSize bufSize bufSize' : UInt64} (sizes : Nat → Nat) (round : Nat)
    {buf : Bytes} (left : Bytes) (hgrow : growBuffer maxSize bufSize buf.length = .ok bufSize')
    (hroom : buf.length + 1 < bufSize'.toNat) :
    (left = [] ∧ readLoop maxSize sizes round bufSize buf left = .received buf) ∨
      ∃ n, 0 < n ∧ n ≤ left.length ∧ (buf ++ left.take n).length < bufSize'.toNat ∧
        readLoop maxSize sizes round bufSize buf left =
          readLoop maxSize sizes (round + 1) bufSize' (buf ++ left.take n) (left.drop n) := by
  have hpos : 0 < bufSize'.toNat - buf.length - 1 := by omega
  obtain ⟨hleft, hfit, hzero⟩ := recvCount_bounds (sizes round) left.length hpos
  rw [readLoop, hgrow]
  dsimp only
  by_cases hend : left = []
  · left
    rw [dif_pos (hzero.mpr (by rw [hend]; rfl)), if_pos (by omega)]
    exact ⟨hend, rfl⟩
  · right
    have hmore : left.length ≠ 0 := fun h0 => hend (List.length_eq_zero_iff.mp h0)
    have hsome := fun h0 => hmore (hzero.mp h0)
    rw [dif_neg hsome, if_pos (by omega)]
    refine ⟨_, Nat.pos_of_ne_zero hsome, hleft, ?_, rfl⟩
    rw [List.length_append, List.length_take, Nat.min_eq_left hleft]
    omega

theorem append_taken (buf left : Bytes) (n : Nat) :
    buf ++ left.take n ++ left.drop n = buf ++ left := by
  rw [List.append_assoc, List.take_append_drop]

/-- Where all capacities are allowed, the loop ends with all bytes in their order. -/
theorem readLoop_received {maxSize : UInt64} (sizes : Nat → Nat) (round : Nat) {bufSize : UInt64}
    {k : Nat} (buf left : Bytes) (h : Capacity bufSize k buf.length)
    (hfits : CapacitiesFit maxSize (buf ++ left).length) :
    readLoop maxSize sizes round bufSize buf left = .received (buf ++ left) := by
  induction hn : left.length using Nat.strongRecOn generalizing round bufSize k buf left with
  | _ m ih =>
    have hneeds : 4096 * 2 ^ k ≤ buf.length + 1 →
        4096 * 2 ^ (k + 1) ≤ (maxSize + fetchInitBuf).toNat := by
      intro hneeded
      apply hfits k
      rw [List.length_append]
      omega
    obtain ⟨bufSize', k', hgrow, hcapacity, hroom, -⟩ := growBuffer_ok h hneeds
    rcases readLoop_round sizes round left hgrow hroom with
      ⟨rfl, hend⟩ | ⟨n, hpos, hle, hlt, hnext⟩
    · rw [hend, List.append_nil]
    · rw [hnext, ih _ (by rw [List.length_drop]; omega) (round + 1) _ _ ⟨hcapacity.size, hlt⟩
        (by rwa [append_taken]) rfl, append_taken]

/-- Where a capacity that is needed is denied, the loop fails. -/
theorem readLoop_failed {maxSize : UInt64} (sizes : Nat → Nat) (round : Nat) {bufSize : UInt64}
    {k last : Nat} (buf left : Bytes) (h : Capacity bufSize k buf.length) (hk : k ≤ last)
    (hneeded : 4096 * 2 ^ last ≤ (buf ++ left).length + 1)
    (hdenied : (maxSize + fetchInitBuf).toNat < 4096 * 2 ^ (last + 1)) :
    ∃ rc, readLoop maxSize sizes round bufSize buf left = .failed rc := by
  induction hn : left.length using Nat.strongRecOn generalizing round bufSize k buf left with
  | _ m ih =>
    by_cases hallowed : 4096 * 2 ^ k ≤ buf.length + 1 →
        4096 * 2 ^ (k + 1) ≤ (maxSize + fetchInitBuf).toNat
    · obtain ⟨bufSize', k', hgrow, hcapacity, hroom, hgrown⟩ := growBuffer_ok h hallowed
      -- a capacity up to the last one is smaller than what is received in the end
      have hk' : k' ≤ last := by
        rcases hgrown with rfl | ⟨rfl, hfull⟩
        · exact hk
        · rcases Nat.lt_or_eq_of_le hk with hlt | rfl
          · exact hlt
          · have := hallowed hfull
            omega
      have hcapacity_le : bufSize'.toNat ≤ 4096 * 2 ^ last := by
        rw [hcapacity.size]
        exact Nat.mul_le_mul_left _ (Nat.pow_le_pow_right (by decide) hk')
      rcases readLoop_round sizes round left hgrow hroom with
        ⟨rfl, -⟩ | ⟨n, hpos, hle, hlt, hnext⟩
      · rw [List.append_nil] at hneeded
        omega
      · rw [hnext]
        exact ih _ (by rw [List.length_drop]; omega) (round + 1) _ _ ⟨hcapacity.size, hlt⟩ hk'
          (by rwa [append_taken]) rfl
    · rw [Classical.not_imp, not_le] at hallowed
      obtain ⟨rc, hrc⟩ := growBuffer_error h hallowed.1 hallowed.2
      rw [readLoop, hrc]
      exact ⟨rc, rfl⟩

/-- The whole response is received, in its order, exactly where every capacity it needs is
allowed. Otherwise the loop fails; it never writes past its buffer. -/
theorem readResponse_iff (maxSize : UInt64) (sizes : Nat → Nat) (response : Bytes) :
    (readResponse maxSize sizes response = .received response ↔ CapacitiesFit maxSize response.length) ∧
      readResponse maxSize sizes response ≠ .overrun := by
  unfold readResponse
  by_cases hfits : CapacitiesFit maxSize response.length
  · have hreceived := readLoop_received sizes 0 [] response capacity_start hfits
    rw [List.nil_append] at hreceived
    rw [hreceived]
    exact ⟨iff_of_true rfl hfits, by simp⟩
  · unfold CapacitiesFit at hfits
    push Not at hfits
    obtain ⟨last, hneeded, hdenied⟩ := hfits
    obtain ⟨rc, hrc⟩ := readLoop_failed sizes 0 [] response capacity_start (Nat.zero_le last)
      hneeded hdenied
    rw [hrc]
    refine ⟨iff_of_false (by simp) (fun h => ?_), by simp⟩
    have := h last hneeded
    omega

/-! ## The body -/

theorem takeApart_limit {maxSize : UInt64} {buf body : Bytes}
    (h : (takeApart maxSize buf).data = some body) : body.length ≤ maxSize.toNat := by
  unfold takeApart at h
  dsimp only at h
  split at h
  · cases h
  · split at h
    · cases h
    · split at h
      · cases h
      · split at h
        · cases h
        · rename_i hlimit
          cases h
          omega

/-- A response within the limit is received whole, nothing is written past the buffer, and no body
over the limit is returned. -/
def LimitExact (maxSize : UInt64) (sizes : Nat → Nat) (response : Bytes) : Prop :=
  (response.length ≤ maxSize.toNat → readResponse maxSize sizes response = .received response) ∧
    readResponse maxSize sizes response ≠ .overrun ∧
    ∀ result body, doHttpGet maxSize sizes response = some result → result.data = some body →
      body.length ≤ maxSize.toNat

/-- The size limit is exact for a response that is longer than the limit, or whose capacities are
all allowed. -/
theorem limitExact_iff (maxSize : UInt64) (sizes : Nat → Nat) (response : Bytes) :
    LimitExact maxSize sizes response ↔
      (response.length ≤ maxSize.toNat → CapacitiesFit maxSize response.length) := by
  obtain ⟨hreceived, hoverrun⟩ := readResponse_iff maxSize sizes response
  have hbody : ∀ result body, doHttpGet maxSize sizes response = some result →
      result.data = some body → body.length ≤ maxSize.toNat := by
    intro result body hget hdata
    unfold doHttpGet at hget
    split at hget
    · cases hget
      cases hdata
    · cases hget
    · cases hget
      exact takeApart_limit hdata
  unfold LimitExact
  rw [hreceived]
  exact ⟨fun h => h.1, fun h => ⟨h, hoverrun, hbody⟩⟩

/-- A response of 4095 bytes fails under a limit of 4095 bytes, though it comes in one chunk. -/
theorem readResponse_efbig :
    readResponse 4095 (fun _ => 4095) (List.replicate 4095 65) = .failed (-EFBIG) := by
  have hfirst : growBuffer 4095 fetchInitBuf ([] : Bytes).length = .ok fetchInitBuf := rfl
  have hsecond : growBuffer 4095 fetchInitBuf 4095 = .error (-EFBIG) := rfl
  have hcount : recvCount 4095 (fetchInitBuf.toNat - ([] : Bytes).length - 1) 4095 = 4095 := rfl
  have hfit : ([] : Bytes).length + 4095 ≤ fetchInitBuf.toNat := by decide
  unfold readResponse
  rw [readLoop, hfirst]
  dsimp only
  rw [List.length_replicate, hcount, dif_neg (by decide), if_pos hfit, readLoop]
  simp only [List.nil_append, List.length_take, List.length_replicate, Nat.min_self, hsecond]

end Liboas
