import Liboas.Lib.Following
import Liboas.Parser.Fetch

/-!
# Following redirects (`oas_ref_fetch_http`)

The fetcher sends one request for each URL, and goes on with the one that the answer names. What
the network does is given. A request is what one URL asks for and nothing else, and what is
returned comes from the last answer.
-/

namespace Liboas

theorem EPROTO_neg : -EPROTO < 0 := by decide

/-! ## URLs -/

/-- The outputs of `parse_http_url`. -/
structure HttpUrl where
  host : Bytes
  port : Bytes
  path : Bytes
  isHttps : Bool
  deriving DecidableEq

/-- `':'`, behind which the port is. -/
def portColon : UInt8 := 58

/-- The part of `parse_http_url` behind the scheme. -/
def splitHttpUrl (isHttps : Bool) (defaultPort rest : Bytes) : Except Failure HttpUrl :=
  if rest.any (fun c => c == 13 || c == 10) then .error ⟨-EINVAL, EINVAL_neg⟩
  else
    let authority := rest.takeWhile (· != slash)
    let path := rest.dropWhile (· != slash)
    let host := authority.takeWhile (· != portColon)
    let port := authority.drop (host.length + 1)
    if host.length = 0 ∨ 256 ≤ host.length then .error ⟨-EINVAL, EINVAL_neg⟩
    else if portColon ∈ authority ∧ (port.length = 0 ∨ 8 ≤ port.length) then
      .error ⟨-EINVAL, EINVAL_neg⟩
    else .ok ⟨host, if portColon ∈ authority then port else defaultPort,
      if path = [] then [slash] else path, isHttps⟩

/-- `parse_http_url`. `tls` tells whether `OAS_HAS_TLS` is defined. -/
def parseHttpUrl (tls : Bool) (url : CStr) : Except Failure HttpUrl :=
  if (ascii "https://").isPrefixOf url.bytes then
    if tls then splitHttpUrl true (ascii "443") (url.bytes.drop 8)
    else .error ⟨-ENOTSUP, ENOTSUP_neg⟩
  else if (ascii "http://").isPrefixOf url.bytes then
    splitHttpUrl false (ascii "80") (url.bytes.drop 7)
  else .error ⟨-EINVAL, EINVAL_neg⟩

/-! ## One request -/

/-- The text that `do_http_get` sends, if it fits into its buffer. -/
def httpRequest (u : HttpUrl) : Option Bytes :=
  let text := ascii "GET " ++ u.path ++ ascii " HTTP/1.1" ++ crlf ++
    ascii "Host: " ++ u.host ++ crlf ++
    ascii "User-Agent: liboas/0.1.0" ++ crlf ++
    ascii "Connection: close" ++ crlf ++ crlf
  if 2048 ≤ text.length then none else some text

/-- What is outside, by the number of the request. A failure is a code that `do_http_get` ends
with. -/
structure Network where
  /-- `getaddrinfo`, `socket`, `connect` and the TLS handshake. -/
  connect : Nat → HttpUrl → Int → Except Int Unit
  /-- The response to a request, and how `recv` cuts it into chunks. -/
  answer : Nat → HttpUrl → Bytes → Except Int (Bytes × (Nat → Nat))

/-- What is sent, and what `do_http_get` ends with. No result is a write past the buffer. -/
structure Exchange where
  sent : Option Bytes
  result : Option HttpResult

/-- `do_http_get`. -/
def doHttpExchange (net : Network) (timeoutMs : Int) (maxSize : UInt64) (round : Nat)
    (u : HttpUrl) : Exchange :=
  match net.connect round u timeoutMs with
  | .error rc => ⟨none, some ⟨rc, 0, none, none⟩⟩
  | .ok _ =>
    match httpRequest u with
    | none => ⟨none, some ⟨-ENOMEM, 0, none, none⟩⟩
    | some request =>
      match net.answer round u request with
      | .error rc => ⟨some request, some ⟨rc, 0, none, none⟩⟩
      | .ok (response, sizes) => ⟨some request, doHttpGet maxSize sizes response⟩

/-! ## The loop -/

/-- How the fetcher ends: past its buffer, with a code, or with the data. -/
abbrev Fetched := Option (Except Failure (Option Bytes))

/-- The end of a round of the loop: another URL, or the end. -/
def afterGet (result : Option HttpResult) : Following.Answer CStr Fetched :=
  match result with
  | none => .done none
  | some r =>
    if hrc : r.rc < 0 then .done (some (.error ⟨r.rc, hrc⟩))
    else
      match r.redirect with
      | some next => .again next
      | none =>
        if r.status < 200 ∨ 300 ≤ r.status then .done (some (.error ⟨-EPROTO, EPROTO_neg⟩))
        else .done (some (.ok r.data))

/-- One round of the loop. -/
def fetchRound (tls : Bool) (net : Network) (timeoutMs : Int) (maxSize : UInt64) (round : Nat)
    (url : CStr) : Following.Answer CStr Fetched :=
  match parseHttpUrl tls url with
  | .error rc => .done (some (.error rc))
  | .ok u => afterGet (doHttpExchange net timeoutMs maxSize round u).result

/-- What is sent in a round. -/
def sentIn (tls : Bool) (net : Network) (timeoutMs : Int) (maxSize : UInt64) (round : Nat)
    (url : CStr) : Option Bytes :=
  match parseHttpUrl tls url with
  | .error _ => none
  | .ok u => (doHttpExchange net timeoutMs maxSize round u).sent

/-- `OAS_REF_FETCH_DEFAULT_TIMEOUT_MS`, and the other defaults. -/
def fetchTimeout (timeoutMs : Int) : Int := if timeoutMs ≤ 0 then 30000 else timeoutMs
def fetchMaxSize (maxSize : UInt64) : UInt64 := if maxSize = 0 then 10 * 1024 * 1024 else maxSize
def fetchMaxRedirects (maxRedirects : Int) : Nat :=
  if maxRedirects ≤ 0 then 5 else maxRedirects.toNat

/-- `oas_ref_fetch_http`, for arguments that are not null: the URLs it comes to, and how it
ends. -/
def oasRefFetchHttp (tls : Bool) (net : Network) (url : CStr) (timeoutMs : Int) (maxSize : UInt64)
    (maxRedirects : Int) : Following.Walk CStr Fetched :=
  Following.follow (fetchRound tls net (fetchTimeout timeoutMs) (fetchMaxSize maxSize))
    (some (.error ⟨-ELOOP, ELOOP_neg⟩)) (fetchMaxRedirects maxRedirects) 0 url

/-! ## What a URL asks for -/

/-- The text is within one line. -/
def InLine (t : Bytes) : Prop := (13 : UInt8) ∉ t ∧ (10 : UInt8) ∉ t ∧ (0 : UInt8) ∉ t

theorem InLine.append {a b : Bytes} (ha : InLine a) (hb : InLine b) : InLine (a ++ b) := by
  unfold InLine at *
  simp only [List.mem_append, not_or]
  tauto

theorem InLine.mono {a b : Bytes} (hb : InLine b) (h : ∀ c ∈ a, c ∈ b) : InLine a :=
  ⟨fun hc => hb.1 (h _ hc), fun hc => hb.2.1 (h _ hc), fun hc => hb.2.2 (h _ hc)⟩

/-- What `parse_http_url` leaves in its outputs. -/
structure HttpUrl.Sound (u : HttpUrl) : Prop where
  host : 0 < u.host.length ∧ u.host.length < 256 ∧ slash ∉ u.host ∧ portColon ∉ u.host
  hostLine : InLine u.host
  port : 0 < u.port.length ∧ u.port.length < 8
  path : u.path.head? = some slash
  pathLine : InLine u.path

theorem headPath (rest : Bytes) :
    (if rest.dropWhile (· != slash) = [] then [slash] else rest.dropWhile (· != slash)).head? =
      some slash := by
  split
  · rfl
  · rename_i hne
    have hhead := List.head_dropWhile_not (· != slash) hne
    rw [List.head?_eq_some_head hne]
    simpa using hhead

theorem splitHttpUrl_sound {isHttps : Bool} {defaultPort rest : Bytes} {u : HttpUrl}
    (hport : 0 < defaultPort.length ∧ defaultPort.length < 8) (hrest : (0 : UInt8) ∉ rest)
    (h : splitHttpUrl isHttps defaultPort rest = .ok u) : u.Sound := by
  unfold splitHttpUrl at h
  split at h
  · cases h
  · rename_i hbreak
    have hline : InLine rest := by
      simp only [List.any_eq_true, Bool.or_eq_true, beq_iff_eq, not_exists, not_and, not_or] at hbreak
      exact ⟨fun h => (hbreak _ h).1 rfl, fun h => (hbreak _ h).2 rfl, hrest⟩
    dsimp only at h
    split at h
    · cases h
    · rename_i hhost
      split at h
      · cases h
      · rename_i hgiven
        cases h
        have hauthority : ∀ c ∈ rest.takeWhile (· != slash), c ∈ rest ∧ c ≠ slash := fun c hc =>
          ⟨(List.takeWhile_sublist _).mem hc, by simpa using List.mem_takeWhile_imp hc⟩
        have hname : ∀ c ∈ (rest.takeWhile (· != slash)).takeWhile (· != portColon),
            c ∈ rest.takeWhile (· != slash) ∧ c ≠ portColon := fun c hc =>
          ⟨(List.takeWhile_sublist _).mem hc, by simpa using List.mem_takeWhile_imp hc⟩
        constructor
        · dsimp only
          refine ⟨by omega, by omega, fun hc => ?_, fun hc => ?_⟩
          · exact (hauthority _ (hname _ hc).1).2 rfl
          · exact (hname _ hc).2 rfl
        · exact hline.mono (fun c hc => (hauthority c (hname c hc).1).1)
        · dsimp only
          split
          · rename_i hcolon
            have hlength := not_and.mp hgiven hcolon
            omega
          · exact hport
        · exact headPath rest
        · dsimp only
          split
          · exact ⟨by decide, by decide, by decide⟩
          · exact hline.mono (fun c hc => (List.dropWhile_sublist _).mem hc)

theorem parseHttpUrl_sound {tls : Bool} {url : CStr} {u : HttpUrl}
    (h : parseHttpUrl tls url = .ok u) : u.Sound := by
  have hrest : ∀ n, (0 : UInt8) ∉ url.bytes.drop n := fun n hmem =>
    url.noNul (List.mem_of_mem_drop hmem)
  unfold parseHttpUrl at h
  split at h
  · split at h
    · exact splitHttpUrl_sound (by decide) (hrest 8) h
    · cases h
  · split at h
    · exact splitHttpUrl_sound (by decide) (hrest 7) h
    · cases h

/-! ## One header, and nothing behind it -/

/-- The lines of the request. -/
def requestLines (u : HttpUrl) : List Bytes :=
  [ascii "GET " ++ u.path ++ ascii " HTTP/1.1", ascii "Host: " ++ u.host,
    ascii "User-Agent: liboas/0.1.0", ascii "Connection: close"]

/-- Lines with their ends, and an empty one behind them. -/
def headerOf (lines : List Bytes) : Bytes := lines.flatMap (· ++ crlf) ++ crlf

theorem httpRequest_lines {u : HttpUrl} {request : Bytes} (h : httpRequest u = some request) :
    request = headerOf (requestLines u) := by
  unfold httpRequest at h
  dsimp only at h
  split at h
  · cases h
  · cases h
    simp [headerOf, requestLines, List.append_assoc]

theorem requestLines_inLine {u : HttpUrl} (hu : u.Sound) :
    ∀ line ∈ requestLines u, line ≠ [] ∧ InLine line := by
  have hget : InLine (ascii "GET " ++ u.path ++ ascii " HTTP/1.1") := by
    refine (InLine.append ?_ hu.pathLine).append ?_ <;> exact ⟨by decide, by decide, by decide⟩
  have hhost : InLine (ascii "Host: " ++ u.host) :=
    InLine.append ⟨by decide, by decide, by decide⟩ hu.hostLine
  intro line hline
  simp only [requestLines, List.mem_cons, List.not_mem_nil, or_false] at hline
  rcases hline with rfl | rfl | rfl | rfl
  · exact ⟨by simp [ascii], hget⟩
  · exact ⟨by simp [ascii], hhost⟩
  · exact ⟨by decide, by decide, by decide, by decide⟩
  · exact ⟨by decide, by decide, by decide, by decide⟩

/-- No end of a header starts in a line. -/
theorem strstr_line {line rest needle : Bytes} (hline : (13 : UInt8) ∉ line) :
    strstr (13 :: needle) (line ++ rest) = strstr (13 :: needle) rest := by
  induction line with
  | nil => rfl
  | cons b line ih =>
    rw [List.mem_cons, not_or] at hline
    have hne : List.isPrefixOf (13 :: needle) (b :: (line ++ rest)) = false := by
      simp [List.isPrefixOf, hline.1]
    rw [List.cons_append, strstr, if_neg (by simp [hne]), ih hline.2]

/-- The end of the header is the empty line. -/
theorem strstr_headerOf {lines : List Bytes} (hne : lines ≠ [])
    (h : ∀ line ∈ lines, line ≠ [] ∧ InLine line) :
    strstr (crlf ++ crlf) (headerOf lines) = some (crlf ++ crlf) := by
  induction lines with
  | nil => exact absurd rfl hne
  | cons line lines ih =>
    obtain ⟨hline, hlines⟩ := List.forall_mem_cons.mp h
    have hhead : headerOf (line :: lines) = line ++ (crlf ++ headerOf lines) := by
      simp [headerOf, List.append_assoc]
    rw [hhead]
    refine (strstr_line hline.2.1).trans ?_
    cases lines with
    | nil => rfl
    | cons next lines =>
      have hnext := (List.forall_mem_cons.mp hlines).1
      obtain ⟨b, rest, hrest⟩ := List.exists_cons_of_ne_nil hnext.1
      have hb : b ≠ 13 := by
        rintro rfl
        exact hnext.2.1 (hrest ▸ List.mem_cons_self)
      have hstart : headerOf (next :: lines) = b :: (rest ++ crlf ++ headerOf lines) := by
        simp [headerOf, hrest, List.append_assoc]
      rw [← ih (by simp) hlines, hstart]
      simp [crlf, strstr, List.isPrefixOf, hb.symm]

/-! ## Answers -/

section Answers

variable {tls : Bool} {net : Network} {timeoutMs : Int} {maxSize : UInt64} {sizes : Nat → Nat}
  {round : Nat} {url next : CStr} {u : HttpUrl} {response buf : Bytes} {result : HttpResult}

theorem readResponse_received (h : readResponse maxSize sizes response = .received buf) :
    buf = response := by
  by_cases hfits : CapacitiesFit maxSize response.length
  · rw [(readResponse_iff maxSize sizes response).1.mpr hfits] at h
    cases h
    rfl
  · have hfits' := hfits
    unfold CapacitiesFit at hfits
    push Not at hfits
    obtain ⟨last, hneeded, hdenied⟩ := hfits
    obtain ⟨rc, hrc⟩ := readLoop_failed sizes 0 [] response capacity_start (Nat.zero_le last)
      hneeded hdenied
    rw [readResponse, hrc] at h
    cases h

/-- The response names another URL to go on with. -/
def RedirectsTo (maxSize : UInt64) (response : Bytes) (next : CStr) : Prop :=
  ∃ status, (status = 301 ∨ status = 302 ∨ status = 307 ∨ status = 308) ∧
    takeApart maxSize response = ⟨0, status, some next, none⟩

/-- The response is a success, with this body. -/
def Delivers (maxSize : UInt64) (response body : Bytes) : Prop :=
  ∃ status, 200 ≤ status ∧ status < 300 ∧ takeApart maxSize response = ⟨0, status, none, some body⟩

/-- The request for the URL was sent, and its whole response received. -/
def Answered (tls : Bool) (net : Network) (timeoutMs : Int) (maxSize : UInt64) (round : Nat)
    (url : CStr) (response : Bytes) : Prop :=
  ∃ u request sizes, parseHttpUrl tls url = .ok u ∧ net.connect round u timeoutMs = .ok () ∧
    httpRequest u = some request ∧ net.answer round u request = .ok (response, sizes) ∧
    readResponse maxSize sizes response = .received response

theorem takeApart_cases (maxSize : UInt64) (buf : Bytes) :
    (takeApart maxSize buf).rc < 0 ∨
      (∃ status location, (status = 301 ∨ status = 302 ∨ status = 307 ∨ status = 308) ∧
        takeApart maxSize buf = ⟨0, status, location, none⟩) ∨
      ∃ status body, takeApart maxSize buf = ⟨0, status, none, some body⟩ := by
  unfold takeApart
  dsimp only
  split
  · exact .inl (by decide)
  · split
    · exact .inl (by decide)
    · split
      · rename_i status _ hstatus
        exact .inr (.inl ⟨status, _, hstatus, rfl⟩)
      · split
        · exact .inl EFBIG_neg
        · exact .inr (.inr ⟨_, _, rfl⟩)

theorem afterGet_again : afterGet (some (takeApart maxSize response)) = .again next ↔
    RedirectsTo maxSize response next := by
  constructor
  · intro h
    rcases takeApart_cases maxSize response with hrc | ⟨status, location, hstatus, htake⟩ |
      ⟨status, body, htake⟩
    · simp [afterGet, hrc] at h
    · rw [htake] at h
      cases location with
      | none =>
        have hout : status < 200 ∨ 300 ≤ status := by omega
        simp [afterGet, hout] at h
      | some target =>
        have hsame : target = next := by
          simpa [afterGet] using h
        exact ⟨status, hstatus, hsame ▸ htake⟩
    · rw [htake] at h
      by_cases hout : status < 200 ∨ 300 ≤ status <;> simp [afterGet, hout] at h
  · rintro ⟨status, -, htake⟩
    simp [htake, afterGet]

theorem afterGet_ok {data : Option Bytes}
    (h : afterGet (some (takeApart maxSize response)) = .done (some (.ok data))) :
    ∃ body, data = some body ∧ Delivers maxSize response body := by
  rcases takeApart_cases maxSize response with hrc | ⟨status, location, hstatus, htake⟩ |
    ⟨status, body, htake⟩
  · simp [afterGet, hrc] at h
  · rw [htake] at h
    cases location with
    | none =>
      have hout : status < 200 ∨ 300 ≤ status := by omega
      simp [afterGet, hout] at h
    | some target => simp [afterGet] at h
  · rw [htake] at h
    by_cases hout : status < 200 ∨ 300 ≤ status
    · simp [afterGet, hout] at h
    · have hdata : some body = data := by
        simpa [afterGet, hout] using h
      exact ⟨body, hdata.symm, status, by omega, by omega, htake⟩

/-- A failure of the network is no answer. -/
theorem afterGet_failed (rc : Int) :
    ∃ failure, afterGet (some ⟨rc, 0, none, none⟩) = .done (some (.error failure)) := by
  by_cases hrc : rc < 0
  · exact ⟨⟨rc, hrc⟩, by simp [afterGet, hrc]⟩
  · exact ⟨⟨-EPROTO, EPROTO_neg⟩, by simp [afterGet, hrc]⟩

theorem doHttpExchange_cases (hurl : parseHttpUrl tls url = .ok u) :
    (∃ rc, (doHttpExchange net timeoutMs maxSize round u).result = some ⟨rc, 0, none, none⟩) ∨
      ∃ response, Answered tls net timeoutMs maxSize round url response ∧
        (doHttpExchange net timeoutMs maxSize round u).result = some (takeApart maxSize response) := by
  unfold doHttpExchange
  split
  · exact .inl ⟨_, rfl⟩
  · rename_i hconnect
    split
    · exact .inl ⟨_, rfl⟩
    · rename_i request hrequest
      split
      · exact .inl ⟨_, rfl⟩
      · rename_i response sizes hanswer
        dsimp only
        unfold doHttpGet
        cases hread : readResponse maxSize sizes response with
        | failed rc => exact .inl ⟨_, rfl⟩
        | overrun => exact absurd hread (readResponse_iff maxSize sizes response).2
        | received buf =>
          have hbuf := readResponse_received hread
          subst hbuf
          exact .inr ⟨buf, ⟨u, request, sizes, hurl, hconnect, hrequest, hanswer, hread⟩, rfl⟩

/-- A round ends with a code, or takes an answer apart. -/
theorem fetchRound_cases (tls : Bool) (net : Network) (timeoutMs : Int) (maxSize : UInt64)
    (round : Nat) (url : CStr) :
    (∃ failure, fetchRound tls net timeoutMs maxSize round url = .done (some (.error failure))) ∨
      ∃ response, Answered tls net timeoutMs maxSize round url response ∧
        fetchRound tls net timeoutMs maxSize round url =
          afterGet (some (takeApart maxSize response)) := by
  unfold fetchRound
  cases hurl : parseHttpUrl tls url with
  | error failure => exact .inl ⟨failure, rfl⟩
  | ok u =>
    dsimp only
    rcases doHttpExchange_cases hurl with ⟨rc, hrc⟩ | ⟨response, hanswered, hresult⟩
    · rw [hrc]
      exact .inl (afterGet_failed rc)
    · rw [hresult]
      exact .inr ⟨response, hanswered, rfl⟩

theorem fetchRound_answered (h : Answered tls net timeoutMs maxSize round url response) :
    fetchRound tls net timeoutMs maxSize round url =
      afterGet (some (takeApart maxSize response)) := by
  obtain ⟨u, request, sizes, hurl, hconnect, hrequest, hanswer, hread⟩ := h
  simp [fetchRound, doHttpExchange, doHttpGet, hurl, hconnect, hrequest, hanswer, hread]

end Answers

/-! ## The whole fetch -/

/-- The request asks for this URL. Its header ends where the request does. -/
structure Asks (u : HttpUrl) (request : Bytes) : Prop where
  url : u.Sound
  text : request = headerOf (requestLines u)
  lines : ∀ line ∈ requestLines u, line ≠ [] ∧ InLine line
  header : strstr (crlf ++ crlf) request = some (crlf ++ crlf)

/-- What the fetcher does for a URL. -/
structure FetchSound (tls : Bool) (net : Network) (timeoutMs : Int) (maxSize : UInt64)
    (maxRedirects : Nat) (url : CStr) (w : Following.Walk CStr Fetched) : Prop where
  start : w.visited[0]? = some url
  bounded : w.visited.length ≤ maxRedirects + 1
  requests : ∀ (i : Nat) url request, w.visited[i]? = some url →
    sentIn tls net timeoutMs maxSize i url = some request →
    ∃ u, parseHttpUrl tls url = .ok u ∧ Asks u request
  linked : ∀ (i : Nat) url next, w.visited[i]? = some url → w.visited[i + 1]? = some next →
    ∃ response, Answered tls net timeoutMs maxSize i url response ∧
      RedirectsTo maxSize response next
  delivered : ∀ data, w.result = some (.ok data) → ∃ last url response body,
    w.visited.length = last + 1 ∧ w.visited[last]? = some url ∧
    Answered tls net timeoutMs maxSize last url response ∧ Delivers maxSize response body ∧
    data = some body ∧ body.length ≤ maxSize.toNat
  looped : ∀ last url response next, w.visited.length = last + 1 → w.visited[last]? = some url →
    Answered tls net timeoutMs maxSize last url response → RedirectsTo maxSize response next →
    last = maxRedirects ∧ w.result = some (.error ⟨-ELOOP, ELOOP_neg⟩)
  defined : w.result ≠ none

section Fetch

variable {tls : Bool} {net : Network} {timeoutMs : Int} {maxSize : UInt64} {maxRedirects : Nat}
  {round : Nat} {url next : CStr} {w : Following.Walk CStr Fetched}

theorem sentIn_asks {request : Bytes} (h : sentIn tls net timeoutMs maxSize round url = some request) :
    ∃ u, parseHttpUrl tls url = .ok u ∧ Asks u request := by
  unfold sentIn at h
  cases hurl : parseHttpUrl tls url with
  | error failure =>
    rw [hurl] at h
    cases h
  | ok u =>
    have hu := parseHttpUrl_sound hurl
    have hlines := requestLines_inLine hu
    have hsent : httpRequest u = some request := by
      rw [hurl] at h
      dsimp only at h
      unfold doHttpExchange at h
      split at h
      · cases h
      · split at h
        · cases h
        · rename_i text htext
          split at h <;> exact htext.trans h
    have htext := httpRequest_lines hsent
    refine ⟨u, rfl, hu, htext, hlines, ?_⟩
    rw [htext]
    exact strstr_headerOf (by simp [requestLines]) hlines

theorem fetchRound_again (h : fetchRound tls net timeoutMs maxSize round url = .again next) :
    ∃ response, Answered tls net timeoutMs maxSize round url response ∧
      RedirectsTo maxSize response next := by
  rcases fetchRound_cases tls net timeoutMs maxSize round url with
    ⟨failure, hdone⟩ | ⟨response, hanswered, hafter⟩
  · rw [hdone] at h
    cases h
  · rw [hafter] at h
    exact ⟨response, hanswered, afterGet_again.mp h⟩

theorem fetchRound_defined (h : fetchRound tls net timeoutMs maxSize round url = .done none) :
    False := by
  rcases fetchRound_cases tls net timeoutMs maxSize round url with
    ⟨failure, hdone⟩ | ⟨response, -, hafter⟩
  · rw [hdone] at h
    cases h
  · rw [hafter] at h
    unfold afterGet at h
    dsimp only at h
    split at h
    · cases h
    · split at h
      · cases h
      · split at h <;> cases h

theorem walked_sound
    (hw : Following.Walked (fetchRound tls net timeoutMs maxSize)
      (some (.error ⟨-ELOOP, ELOOP_neg⟩)) maxRedirects 0 url w) :
    FetchSound tls net timeoutMs maxSize maxRedirects url w := by
  obtain ⟨last, lastUrl, hlength, hlast, hended⟩ := hw.ended
  rw [Nat.zero_add] at hended
  have hsame : ∀ {i : Nat} {url : CStr}, w.visited.length = i + 1 → w.visited[i]? = some url →
      i = last ∧ url = lastUrl := by
    intro i url hi hurl
    have heq : i = last := by omega
    subst heq
    rw [hlast] at hurl
    exact ⟨rfl, (Option.some.inj hurl).symm⟩
  refine ⟨hw.start, hw.bounded, fun i url request _ h => sentIn_asks h, ?_, ?_, ?_, ?_⟩
  · intro i t next ht hnext
    have hlink := hw.linked i t next ht hnext
    rw [Nat.zero_add] at hlink
    exact fetchRound_again hlink
  · intro data hdata
    rcases hended with hdone | ⟨-, -, hresult⟩
    · rw [hdata] at hdone
      rcases fetchRound_cases tls net timeoutMs maxSize last lastUrl with
        ⟨failure, hfailed⟩ | ⟨response, hanswered, hafter⟩
      · rw [hfailed] at hdone
        cases hdone
      · rw [hafter] at hdone
        obtain ⟨body, hbody, hdelivers⟩ := afterGet_ok hdone
        obtain ⟨status, hlow, hhigh, htake⟩ := hdelivers
        refine ⟨last, lastUrl, response, body, hlength, hlast, hanswered,
          ⟨status, hlow, hhigh, htake⟩, hbody, ?_⟩
        exact takeApart_limit (congrArg HttpResult.data htake)
    · rw [hdata] at hresult
      cases hresult
  · intro i t response next hi ht hanswered hredirects
    obtain ⟨rfl, rfl⟩ := hsame hi ht
    have hround := fetchRound_answered hanswered
    rw [afterGet_again.mpr hredirects] at hround
    rcases hended with hdone | ⟨-, hhops, hresult⟩
    · rw [hround] at hdone
      cases hdone
    · exact ⟨hhops, hresult⟩
  · intro hnone
    rcases hended with hdone | ⟨-, -, hresult⟩
    · rw [hnone] at hdone
      exact fetchRound_defined hdone
    · rw [hnone] at hresult
      cases hresult

/-- At most one request for each redirect and one more, each of one header and for one URL. The
URLs are those that the answers name, and the data is the body of the last answer. -/
theorem oasRefFetchHttp_sound (tls : Bool) (net : Network) (url : CStr) (timeoutMs : Int)
    (maxSize : UInt64) (maxRedirects : Int) :
    FetchSound tls net (fetchTimeout timeoutMs) (fetchMaxSize maxSize)
      (fetchMaxRedirects maxRedirects) url
      (oasRefFetchHttp tls net url timeoutMs maxSize maxRedirects) :=
  walked_sound (Following.follow_walked _ _ _)

end Fetch

/-! ## Behind the resolver -/

/-- What the resolver gets of a fetch. -/
def Fetched.outcome : Fetched → Except Failure Bytes
  | some (.ok (some data)) => .ok data
  | some (.error rc) => .error rc
  | _ => .error ⟨-EPROTO, EPROTO_neg⟩

/-- The built-in fetcher, over a network. -/
def Outside.over (out : Outside) (tls : Bool) (net : Network) : Outside :=
  { out with fetchHttp := fun url timeoutMs maxSize maxRedirects =>
      (oasRefFetchHttp tls net url timeoutMs maxSize.toUInt64 maxRedirects).result.outcome }

section Resolver

variable {rt : Runtime} {out : Outside} {tls : Bool} {net : Network} {opts : RefOptions}
  {ref : CStr} {uri : Uri} {st st' : Loader} {root : Json}

theorem fetchHttp_delivers {url : CStr} {timeoutMs : Int} {size : Nat} {maxRedirects : Int}
    {data : Bytes} (h : (out.over tls net).fetchHttp url timeoutMs size maxRedirects = .ok data) :
    ∃ round last response, Answered tls net (fetchTimeout timeoutMs) (fetchMaxSize size.toUInt64)
      round last response ∧ Delivers (fetchMaxSize size.toUInt64) response data := by
  have hsound := oasRefFetchHttp_sound tls net url timeoutMs size.toUInt64 maxRedirects
  have hresult : (oasRefFetchHttp tls net url timeoutMs size.toUInt64 maxRedirects).result =
      some (.ok (some data)) := by
    unfold Outside.over Fetched.outcome at h
    dsimp only at h
    split at h
    · rename_i data' hdata
      cases h
      exact hdata
    · cases h
    · cases h
  obtain ⟨round, last, response, body, -, -, hanswered, hdelivers, hbody, -⟩ :=
    hsound.delivered _ hresult
  cases hbody
  exact ⟨round, last, response, hanswered, hdelivers⟩

theorem store_read {key : CStr} {data path message : Bytes}
    (h : st.store rt key data path message = (.ok root, st')) : rt.read data = some root := by
  unfold Loader.store at h
  split at h
  · cases h
  · rename_i found hread
    split at h
    · cases h
      exact hread
    · split at h
      · cases h
      · cases h
        exact hread

/-- Without a callback, a remote document is what the reader makes of the body of a success. -/
theorem resolveRemote_delivers (hfetch : opts.fetch = none)
    (h : resolveRemote rt (out.over tls net) (some opts) ref uri st = (.ok root, st')) :
    ∃ round last response body,
      Answered tls net (fetchTimeout opts.fetchTimeoutMs) (fetchMaxSize opts.maxFetchSize.toUInt64)
        round last response ∧
      Delivers (fetchMaxSize opts.maxFetchSize.toUInt64) response body ∧
      rt.read body = some root := by
  unfold resolveRemote at h
  cases hallow : opts.allowRemote with
  | false =>
    rw [Option.filter_some_neg (by simp [hallow])] at h
    cases h
  | true =>
    rw [Option.filter_some_pos hallow] at h
    dsimp only at h
    rw [hfetch] at h
    dsimp only at h
    split at h
    · split at h
      · cases h
      · rename_i data hdata
        obtain ⟨round, last, response, hanswered, hdelivers⟩ := fetchHttp_delivers hdata
        exact ⟨round, last, response, data, hanswered, hdelivers, store_read h⟩
    · cases h

end Resolver

end Liboas
