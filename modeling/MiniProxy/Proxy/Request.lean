import MiniProxy.Proxy.Uri

/-!
# The request line

`parse_request` takes the request line apart and checks its three parts; where it rejects the request
it answers the client with an error page.

* `Locals`: the arrays of `worker_main`, and of what it calls, that nobody fills beforehand;
* `sprintfAppend`, `responseFailure`: the error page;
* `scanString`, `parseRequest`: `sscanf` and the function;
* `token`, `afterToken`, `requestKey`: the words of a request line and the strings that it names;
* `Key.Plain`: strings that fit into the request for the origin; `plain_of_requestKey`;
* `Page`, `parseLine`: `parse_request` up to its error page; `parseRequest_eq_parseLine`;
* **`parseRequest_of_requestKey`**, **`stored_of_parseRequest`**, **`requestKey_of_parseRequest`**:
  `parse_request` accepts the lines that name strings, and stores these.
-/

namespace MiniProxy

open Clib

/-- `MAXBUF`. -/
def maxbuf : ℕ := 8192

/-- What the arrays hold that a call of `worker_main` finds on its stack: those of `worker_main`, of
`parse_uri`, `response_failure`, `read_request_header`, `forward_request` and `forward_response`. -/
structure Locals where
  nioBuf : Buf nioBufsize
  request : Buf maxline
  payloadCache : Buf maxObjectSize
  scheme : Buf 10
  buf : Buf maxline
  body : Buf maxbuf
  headerBuf : Buf maxline
  requestBuf : Buf maxline
  forwardNioBuf : Buf nioBufsize
  forwardbuf : Buf maxline

/-! ## Error pages -/

/-- `sprintf(body, "%s...", body)`, which appends to the string in `body`. -/
def sprintfAppend {n : ℕ} (body : Buf n) (s : List UInt8) : Exec (Buf n) := do
  let t ← body.str
  body.strcpy (t ++ s)

/-- `response_failure`: the buffers handed to `nio_writen` for `connfd`. -/
def responseFailure (loc : Locals) (cause : List UInt8) (errnum shortmsg longmsg : String) :
    Exec (List (List UInt8)) := do
  let body ← loc.body.strcpy (ascii "<html><title>Proxy Error</title>")
  let body ← sprintfAppend body (ascii "<body bgcolor=ffffff>\r\n")
  let body ← sprintfAppend body (ascii errnum ++ ascii ": " ++ ascii shortmsg ++ ascii "\r\n")
  let body ← sprintfAppend body
    (ascii "<p>" ++ ascii longmsg ++ ascii ": " ++ cause ++ ascii "\r\n")
  let body ← sprintfAppend body (ascii "<hr><em>The Mini Proxy server</em>\r\n")
  let buf ← loc.buf.strcpy (ascii "HTTP/1.0 " ++ ascii errnum ++ ascii " " ++ ascii shortmsg ++
    ascii "\r\n")
  let status ← buf.str
  let buf ← buf.strcpy (ascii "Content-type: text/html\r\n")
  let type ← buf.str
  let page ← body.str
  let buf ← buf.strcpy (ascii "Content-length: " ++ ascii (toString page.length) ++
    ascii "\r\n\r\n")
  let length ← buf.str
  return [status, type, length, page]

/-! ## Parsing -/

/-- One `%s` of `sscanf`, which stores nothing at the end of the input `s`; the input that is left. -/
def scanString {n : ℕ} (s : List UInt8) (b : Buf n) : Exec (List UInt8 × Buf n) := do
  let s := s.dropWhile isspace
  if s = [] then
    return ([], b)
  else
    let b ← b.strcpy (s.takeWhile fun c => !isspace c)
    return (s.dropWhile fun c => !isspace c, b)

/-- The `longmsg` for a request that lacks a part. -/
def validFormat : String :=
  "Valid request format: [method] [uri] [version], ex> GET http://google.com HTTP/1.0"

/-- `parse_request`: whether the request is accepted, the arrays, and what is handed to `nio_writen` for
`connfd`. -/
def parseRequest (loc : Locals) (request : Buf maxline) (t : Target) :
    Exec (Bool × Target × List (List UInt8)) := do
  if strcmpEq request.bytes [] = true then
    let sent ← responseFailure loc [] "400" "Bad request" validFormat
    return (false, t, sent)
  else
    let line ← request.str
    let (s, method) ← scanString line (Buf.zero maxline)
    let (s, uri) ← scanString s (Buf.zero maxline)
    let (_, protocol) ← scanString s (Buf.zero maxline)
    let method ← method.str
    let uri ← uri.str
    let protocol ← protocol.str
    if method.length = 0 ∨ uri.length = 0 ∨ protocol.length = 0 then
      let sent ← responseFailure loc line "400" "Bad request" validFormat
      return (false, t, sent)
    else if strcasecmpEq method (ascii "GET") = false then
      let sent ← responseFailure loc method "501" "Not implemented"
        "Mini Proxy does not implement this method yet"
      return (false, t, sent)
    else if strcasecmpEq protocol (ascii "HTTP/1.0") = false ∧
        strcasecmpEq protocol (ascii "HTTP/1.1") = false then
      let sent ← responseFailure loc protocol "400" "Bad request"
        "Mini Proxy requires request version to be either HTTP/1.0 or HTPP/1.1"
      return (false, t, sent)
    else
      let (accepted, t) ← parseUri loc.scheme uri t
      if accepted = false then
        let sent ← responseFailure loc uri "404" "Not found" "Mini Proxy couldn't parse the request"
        return (false, t, sent)
      else
        return (true, t, [])

/-! ## The strings of a request line -/

/-- The first word of `s`. -/
def token (s : List UInt8) : List UInt8 := (s.dropWhile isspace).takeWhile fun c => !isspace c

/-- What follows the first word of `s`. -/
def afterToken (s : List UInt8) : List UInt8 := (s.dropWhile isspace).dropWhile fun c => !isspace c

/-- The strings that a request line names. -/
def requestKey (s : List UInt8) : Option Key :=
  let uri := token (afterToken s)
  let protocol := token (afterToken (afterToken s))
  if strcasecmpEq (token s) (ascii "GET") = true ∧
      (strcasecmpEq protocol (ascii "HTTP/1.0") = true ∨
        strcasecmpEq protocol (ascii "HTTP/1.1") = true) then
    uriKey uri
  else none

theorem isdigit_of_requestKey {s : List UInt8} {key : Key} (h : requestKey s = some key) :
    ∀ c ∈ key.port, isdigit c = true := by
  rw [requestKey] at h
  split_ifs at h
  exact isdigit_of_uriKey h

theorem token_sublist (s : List UInt8) : (token s).Sublist s :=
  (List.takeWhile_prefix _).sublist.trans (List.dropWhile_sublist _)

theorem afterToken_sublist (s : List UInt8) : (afterToken s).Sublist s :=
  (List.dropWhile_sublist _).trans (List.dropWhile_sublist _)

theorem length_token_add_le (s : List UInt8) :
    (token s).length + (afterToken s).length ≤ s.length := by
  have h : token s ++ afterToken s = s.dropWhile isspace := List.takeWhile_append_dropWhile
  rw [← List.length_append, h]
  exact (List.dropWhile_sublist isspace).length_le

theorem isspace_of_mem_token {s : List UInt8} {c : UInt8} (h : c ∈ token s) : isspace c = false := by
  simpa using List.mem_takeWhile_imp h

/-- Strings without NULs and spaces, whose path is absolute, that fit into the lines for the origin. -/
structure Key.Plain (key : Key) : Prop where
  host : ∀ c ∈ key.host, c ≠ 0 ∧ isspace c = false
  path : ∀ c ∈ key.path, c ≠ 0 ∧ isspace c = false
  slash : key.path.head? = some slash
  fits : key.host.length + 18 < maxline ∧ key.path.length + 17 < maxline

theorem Key.Plain.not_mem {key : Key} (h : key.Plain) : 0 ∉ key.path ∧ 0 ∉ key.host :=
  ⟨fun hc => (h.path 0 hc).1 rfl, fun hc => (h.host 0 hc).1 rfl⟩

/-- **The strings that a request line names** are words of it. -/
theorem plain_of_requestKey {s : List UInt8} {key : Key} (h0 : 0 ∉ s) (hlen : s.length < maxline)
    (h : requestKey s = some key) : key.Plain := by
  rw [requestKey] at h
  split_ifs at h with hc
  obtain ⟨hget, hprot⟩ := hc
  obtain ⟨hhost, hpath, hmemHost, hmemPath⟩ := sublist_of_uriKey h
  have hword : ∀ c ∈ token (afterToken s), c ≠ 0 ∧ isspace c = false := by
    intro c hc
    have hsub := (token_sublist (afterToken s)).trans (afterToken_sublist s)
    exact ⟨fun e => h0 (e ▸ hsub.subset hc), isspace_of_mem_token hc⟩
  have hmethod : (token s).length = 3 := length_eq_of_strcasecmpEq hget
  have hprotocol : (token (afterToken (afterToken s))).length = 8 := by
    rcases hprot with h | h <;> exact length_eq_of_strcasecmpEq h
  have h₁ := length_token_add_le s
  have h₂ := length_token_add_le (afterToken s)
  have h₃ := length_token_add_le (afterToken (afterToken s))
  exact ⟨fun c hc => hword c (hmemHost c hc), fun c hc => hword c (hmemPath c hc),
    head?_path_of_uriKey h, by omega, by omega⟩

/-- **One `%s`** stores the first word. -/
theorem exists_scanString {n : ℕ} {s : List UInt8} (h0 : 0 ∉ s) (hlen : s.length < n + 1) :
    ∃ b, scanString s (Buf.zero (n + 1)) = .ok (afterToken s, b) ∧ b.str = .ok (token s) := by
  rw [scanString, token, afterToken]
  by_cases hs : s.dropWhile isspace = []
  · simp only [hs, if_true]
    exact ⟨_, rfl, Buf.str_zero⟩
  · have hsub : ((s.dropWhile isspace).takeWhile fun c => !isspace c).Sublist s := token_sublist s
    obtain ⟨b, hb⟩ := (Buf.zero (n + 1)).exists_strcpy
      (s := (s.dropWhile isspace).takeWhile fun c => !isspace c)
      (lt_of_le_of_lt hsub.length_le hlen)
    simp only [hs, if_false, hb, ok_bind]
    exact ⟨b, rfl, Buf.str_of_strcpy hb fun h => h0 (hsub.subset h)⟩

variable {loc : Locals} {request : Buf maxline} {t t' : Target} {s : List UInt8} {key : Key}

theorem exists_scan (hs : request.str = .ok s) :
    ∃ method uri protocol : Buf maxline, ∃ rest,
      scanString s (Buf.zero maxline) = .ok (afterToken s, method) ∧
      scanString (afterToken s) (Buf.zero maxline) = .ok (afterToken (afterToken s), uri) ∧
      scanString (afterToken (afterToken s)) (Buf.zero maxline) = .ok (rest, protocol) ∧
      method.str = .ok (token s) ∧ uri.str = .ok (token (afterToken s)) ∧
      protocol.str = .ok (token (afterToken (afterToken s))) := by
  have h0 := Buf.not_mem_of_str hs
  have hlen := Buf.length_lt_of_str hs
  have hsub₁ := afterToken_sublist s
  have hsub₂ := (afterToken_sublist (afterToken s)).trans hsub₁
  obtain ⟨method, hm, hms⟩ := exists_scanString (n := 8191) h0 hlen
  obtain ⟨uri, hu, hus⟩ := exists_scanString (n := 8191) (fun h => h0 (hsub₁.subset h))
    (hsub₁.length_le.trans_lt hlen)
  obtain ⟨protocol, hp, hps⟩ := exists_scanString (n := 8191) (fun h => h0 (hsub₂.subset h))
    (hsub₂.length_le.trans_lt hlen)
  exact ⟨method, uri, protocol, _, hm, hu, hp, hms, hus, hps⟩

/-! ## Up to the error page -/

/-- The arguments of `response_failure`. -/
structure Page where
  cause : List UInt8
  errnum : String
  shortmsg : String
  longmsg : String

/-- `parse_request` without the pages that it sends: the page with which it rejects the request, or
`none`, and the arrays. -/
def parseLine (scheme : Buf 10) (request : Buf maxline) (t : Target) :
    Exec (Option Page × Target) := do
  if strcmpEq request.bytes [] = true then
    return (some ⟨[], "400", "Bad request", validFormat⟩, t)
  else
    let line ← request.str
    let (s, method) ← scanString line (Buf.zero maxline)
    let (s, uri) ← scanString s (Buf.zero maxline)
    let (_, protocol) ← scanString s (Buf.zero maxline)
    let method ← method.str
    let uri ← uri.str
    let protocol ← protocol.str
    if method.length = 0 ∨ uri.length = 0 ∨ protocol.length = 0 then
      return (some ⟨line, "400", "Bad request", validFormat⟩, t)
    else if strcasecmpEq method (ascii "GET") = false then
      return (some ⟨method, "501", "Not implemented",
        "Mini Proxy does not implement this method yet"⟩, t)
    else if strcasecmpEq protocol (ascii "HTTP/1.0") = false ∧
        strcasecmpEq protocol (ascii "HTTP/1.1") = false then
      return (some ⟨protocol, "400", "Bad request",
        "Mini Proxy requires request version to be either HTTP/1.0 or HTPP/1.1"⟩, t)
    else
      let (accepted, t) ← parseUri scheme uri t
      if accepted = false then
        return (some ⟨uri, "404", "Not found", "Mini Proxy couldn't parse the request"⟩, t)
      else
        return (none, t)

/-- The error page, or nothing. -/
def sendPage (loc : Locals) : Option Page × Target → Exec (Bool × Target × List (List UInt8))
  | (none, t) => .ok (true, t, [])
  | (some ⟨cause, errnum, shortmsg, longmsg⟩, t) => do
    let sent ← responseFailure loc cause errnum shortmsg longmsg
    return (false, t, sent)

theorem sendPage_some (loc : Locals) (cause : List UInt8) (errnum shortmsg longmsg : String)
    (t : Target) : sendPage loc (some ⟨cause, errnum, shortmsg, longmsg⟩, t) =
      (responseFailure loc cause errnum shortmsg longmsg >>= fun sent => .ok (false, t, sent)) := rfl

theorem parseLine_eq (scheme : Buf 10) (t : Target) (hs : request.str = .ok s) :
    parseLine scheme request t =
      if s = [] then .ok (some ⟨[], "400", "Bad request", validFormat⟩, t)
      else if (token s).length = 0 ∨ (token (afterToken s)).length = 0 ∨
          (token (afterToken (afterToken s))).length = 0 then
        .ok (some ⟨s, "400", "Bad request", validFormat⟩, t)
      else if strcasecmpEq (token s) (ascii "GET") = false then
        .ok (some ⟨token s, "501", "Not implemented",
          "Mini Proxy does not implement this method yet"⟩, t)
      else if strcasecmpEq (token (afterToken (afterToken s))) (ascii "HTTP/1.0") = false ∧
          strcasecmpEq (token (afterToken (afterToken s))) (ascii "HTTP/1.1") = false then
        .ok (some ⟨token (afterToken (afterToken s)), "400", "Bad request",
          "Mini Proxy requires request version to be either HTTP/1.0 or HTPP/1.1"⟩, t)
      else parseUri scheme (token (afterToken s)) t >>= fun r =>
        if r.1 = false then
          .ok (some ⟨token (afterToken s), "404", "Not found",
            "Mini Proxy couldn't parse the request"⟩, r.2)
        else .ok (none, r.2) := by
  obtain ⟨method, uri, protocol, rest, hm, hu, hp, hms, hus, hps⟩ := exists_scan hs
  rw [parseLine, Buf.strcmpEq_nil hs]
  simp only [hs, ok_bind, hm, hu, hp, hms, hus, hps, decide_eq_true_eq, pure_eq_ok]

/-- **`parse_request`** is `parseLine` and the page. -/
theorem parseRequest_eq_parseLine (loc : Locals) (t : Target) (hs : request.str = .ok s) :
    parseRequest loc request t = parseLine loc.scheme request t >>= sendPage loc := by
  obtain ⟨method, uri, protocol, rest, hm, hu, hp, hms, hus, hps⟩ := exists_scan hs
  rw [parseLine_eq loc.scheme t hs, parseRequest, Buf.strcmpEq_nil hs]
  simp only [hs, ok_bind, hm, hu, hp, hms, hus, hps, decide_eq_true_eq, pure_eq_ok]
  split_ifs
  · rw [ok_bind, sendPage_some]
  · rw [ok_bind, sendPage_some]
  · rw [ok_bind, sendPage_some]
  · rw [ok_bind, sendPage_some]
  · cases parseUri loc.scheme (token (afterToken s)) t with
    | error e => rfl
    | ok r =>
      simp only [ok_bind]
      split_ifs
      · rw [ok_bind, sendPage_some]
      · rfl

theorem parseLine_of_get (scheme : Buf 10) (t : Target) (hs : request.str = .ok s)
    (hget : strcasecmpEq (token s) (ascii "GET") = true)
    (hprot : strcasecmpEq (token (afterToken (afterToken s))) (ascii "HTTP/1.0") = true ∨
      strcasecmpEq (token (afterToken (afterToken s))) (ascii "HTTP/1.1") = true)
    (huri : token (afterToken s) ≠ []) :
    parseLine scheme request t = parseUri scheme (token (afterToken s)) t >>= fun r =>
      if r.1 = false then
        .ok (some ⟨token (afterToken s), "404", "Not found",
          "Mini Proxy couldn't parse the request"⟩, r.2)
      else .ok (none, r.2) := by
  have hmethod : (token s).length = 3 := length_eq_of_strcasecmpEq hget
  have hprotocol : (token (afterToken (afterToken s))).length = 8 := by
    rcases hprot with h | h <;> exact length_eq_of_strcasecmpEq h
  have hpos := List.length_pos_iff.mpr huri
  have hne : s ≠ [] := by
    rintro rfl
    cases hmethod
  have hprot' : ¬ (strcasecmpEq (token (afterToken (afterToken s))) (ascii "HTTP/1.0") = false ∧
      strcasecmpEq (token (afterToken (afterToken s))) (ascii "HTTP/1.1") = false) := by
    rcases hprot with h | h <;> simp [h]
  rw [parseLine_eq scheme t hs, if_neg hne, if_neg (by omega), if_neg (by simp [hget]),
    if_neg hprot']

theorem parseLine_of_accepted {sent : List (List UInt8)} (hs : request.str = .ok s)
    (h : parseRequest loc request t = .ok (true, t', sent)) :
    parseLine loc.scheme request t = .ok (none, t') ∧ sent = [] := by
  rw [parseRequest_eq_parseLine loc t hs] at h
  obtain ⟨⟨page, u⟩, hline, h⟩ := bind_ok_iff.mp h
  cases page with
  | none =>
    cases h
    exact ⟨hline, rfl⟩
  | some page =>
    obtain ⟨sent', -, h⟩ := bind_ok_iff.mp h
    cases h

/-! ## What is accepted -/

/-- **`parse_request` accepts** a line that names a host, a port and a path, stores these and writes
nothing. -/
theorem parseRequest_of_requestKey (loc : Locals) (hs : request.str = .ok s)
    (hport : t.port = Buf.zero maxline) (h : requestKey s = some key) :
    ∃ t', parseRequest loc request t = .ok (true, t', []) ∧ t'.key = .ok key := by
  rw [requestKey] at h
  split_ifs at h with hc
  have huri : token (afterToken s) ≠ [] := fun e => by
    rw [e] at h
    cases h
  have hsub := (token_sublist (afterToken s)).trans (afterToken_sublist s)
  obtain ⟨t', ht, hkey⟩ := parseUri_of_uriKey loc.scheme
    (fun h => Buf.not_mem_of_str hs (hsub.subset h))
    (hsub.length_le.trans_lt (Buf.length_lt_of_str hs)) hport h
  refine ⟨t', ?_, hkey⟩
  rw [parseRequest_eq_parseLine loc t hs, parseLine_of_get loc.scheme t hs hc.1 hc.2 huri, ht]
  rfl

/-- **What `parse_request` accepts** names the host and the path that it stores, and the port when its
array holds zeros. -/
theorem stored_of_parseRequest {sent : List (List UInt8)}
    (h : parseRequest loc request t = .ok (true, t', sent)) :
    ∃ s key, request.str = .ok s ∧ requestKey s = some key ∧ t'.host.str = .ok key.host ∧
      t'.path.str = .ok key.path ∧ (t.port = Buf.zero maxline → t'.port.str = .ok key.port) := by
  obtain ⟨s, hs⟩ : ∃ s, request.str = .ok s := by
    rw [parseRequest] at h
    split_ifs at h
    · obtain ⟨sent', -, h⟩ := bind_ok_iff.mp h
      cases h
    · obtain ⟨s, hs, -⟩ := bind_ok_iff.mp h
      exact ⟨s, hs⟩
  obtain ⟨hline, -⟩ := parseLine_of_accepted hs h
  rw [parseLine_eq loc.scheme t hs] at hline
  split_ifs at hline with hnil hempty hget hprot
  · cases hline
  · cases hline
  · cases hline
  · cases hline
  · obtain ⟨⟨accepted, u⟩, ht, hline⟩ := bind_ok_iff.mp hline
    cases accepted with
    | false => cases hline
    | true =>
      cases hline
      have hsub := (token_sublist (afterToken s)).trans (afterToken_sublist s)
      obtain ⟨key, hkey, hstored⟩ := stored_of_parseUri
        (fun h => Buf.not_mem_of_str hs (hsub.subset h))
        (hsub.length_le.trans_lt (Buf.length_lt_of_str hs)) ht
      refine ⟨s, key, hs, ?_, hstored⟩
      rw [requestKey]
      refine (if_pos ⟨by simpa using hget, ?_⟩).trans hkey
      rw [not_and_or] at hprot
      simpa using hprot

theorem requestKey_of_parseRequest {sent : List (List UInt8)} (hport : t.port = Buf.zero maxline)
    (h : parseRequest loc request t = .ok (true, t', sent)) :
    ∃ s key, request.str = .ok s ∧ requestKey s = some key ∧ t'.key = .ok key := by
  obtain ⟨s, key, hs, hkey, hhost, hpath, hstr⟩ := stored_of_parseRequest h
  exact ⟨s, key, hs, hkey, Target.key_eq_ok.mpr ⟨hhost, hstr hport, hpath⟩⟩

end MiniProxy
