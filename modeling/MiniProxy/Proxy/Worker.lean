import MiniProxy.Proxy.Forward
import MiniProxy.Proxy.Request

/-!
# One request

`worker_main` reads a request, answers it from the cache or from the origin, and stores the answer.

* `receive`: reading and parsing the request; `receive_of_requestKey`, `requestKey_of_receive`;
* `openClientfd`, `readRequestHeader`, `forwardRequest`, `fetch`: asking the origin; `fetch_ok`,
  `exists_fetch`;
* `Env`, `Outcome`, `workerMain`: what a call finds, what it leaves behind, and the function;
* `Exit`, **`exit_of_workerMain`**: the ways out of the function.
-/

namespace MiniProxy

open Clib Lines

/-- `HEADER_LINE_SIZE`. -/
def headerLineSize : ℕ := 100

/-! ## The request -/

/-- What `worker_main` has received when it turns to the cache: nothing, a request that it has
answered with an error page, or one for the strings `key`. -/
inductive Received where
  | nothing
  | rejected (sent : List (List UInt8))
  | accepted (key : Key) (nio : Nio)

/-- `worker_main`, up to the call of `parse_request`. -/
def receive (loc : Locals) (connfd : Sock) : Exec Received := do
  let line := nioReadlineb (nioReadinitb loc.nioBuf connfd) maxline
  let request ← loc.request.write 0 line.usrbuf
  if sizeT line.ret = 0 then
    return .nothing
  else
    let (accepted, t, sent) ← parseRequest loc request
      ⟨Buf.zero maxline, Buf.zero maxline, Buf.zero maxline⟩
    if accepted = false then
      return .rejected sent
    else
      let key ← t.key
      return .accepted key line.rp

/-- **A request that is accepted**, from its first line on the wire. -/
theorem receive_of_requestKey (loc : Locals) (connfd : Sock) (key : Key)
    (hline : newline ∈ takeLine newline (maxline - 1) connfd.bytes)
    (h : requestKey (cstr (takeLine newline (maxline - 1) connfd.bytes)) = some key) :
    ∃ nio, receive loc connfd = .ok (.accepted key nio) := by
  obtain ⟨rp, hl, -, -⟩ := nioReadlineb_spec (nioReadinitb loc.nioBuf connfd) (maxline - 1)
  have hlen := length_takeLine_le newline (maxline - 1) connfd.bytes
  have hmax : maxline - 1 + 1 = maxline := rfl
  rw [nioReadinitb_bytes, hmax] at hl
  generalize takeLine newline (maxline - 1) connfd.bytes = line at hline h hl hlen
  rw [lineRet, if_pos hline, lineStored, if_pos (Or.inl hline)] at hl
  obtain ⟨request, hw, hb⟩ := Buf.exists_write loc.request 0 (line ++ [0]) (by
    rw [List.length_append, List.length_singleton]
    omega)
  have hstr : request.str = .ok (cstr line) := by
    refine Buf.str_eq_ok.mpr ⟨by simp [hb], ?_⟩
    rw [hb, List.take_zero, List.nil_append, List.append_assoc, List.singleton_append,
      cstr_append_cons_zero]
  obtain ⟨t', ht, hkey⟩ := parseRequest_of_requestKey loc (t := ⟨Buf.zero maxline, Buf.zero maxline,
    Buf.zero maxline⟩) hstr rfl h
  have hpos : line.length ≠ 0 := (List.length_pos_of_mem hline).ne'
  have hsize : sizeT line.length = line.length := sizeT_natCast (by
    have : maxline = 8192 := rfl
    omega)
  refine ⟨rp, ?_⟩
  simp only [receive, hl, hw, ok_bind, hsize, hpos, if_false, ht, Bool.true_eq_false, hkey,
    pure_eq_ok]

theorem parseRequest_of_receive {loc : Locals} {connfd : Sock} {key : Key} {nio : Nio}
    (h : receive loc connfd = .ok (.accepted key nio)) :
    ∃ request t sent, parseRequest loc request ⟨Buf.zero maxline, Buf.zero maxline, Buf.zero maxline⟩ =
      .ok (true, t, sent) ∧ t.key = .ok key := by
  obtain ⟨request, -, h⟩ := bind_ok_iff.mp h
  split_ifs at h
  · cases h
  · obtain ⟨⟨accepted, t, sent⟩, hp, h⟩ := bind_ok_iff.mp h
    cases accepted with
    | false => cases h
    | true =>
      obtain ⟨key', hkey, h⟩ := bind_ok_iff.mp h
      cases h
      exact ⟨request, t, sent, hp, hkey⟩

theorem requestKey_of_receive {loc : Locals} {connfd : Sock} {key : Key} {nio : Nio}
    (h : receive loc connfd = .ok (.accepted key nio)) :
    (∃ s, requestKey s = some key) ∧ key.Plain := by
  obtain ⟨request, t, sent, hp, hkey⟩ := parseRequest_of_receive h
  obtain ⟨s, key', hstr, hs, hkey'⟩ := requestKey_of_parseRequest rfl hp
  cases hkey'.symm.trans hkey
  exact ⟨⟨s, hs⟩, plain_of_requestKey (Buf.not_mem_of_str hstr) (Buf.length_lt_of_str hstr) hs⟩

/-! ## The origin -/

/-- An address that `getaddrinfo` has found: the descriptor that `socket` returns for it, if any, and
whether `connect` succeeds. -/
structure Candidate where
  socket : Option ℕ
  connects : Bool

/-- What a call does to the set of open descriptors. -/
inductive FdOp where
  | opened (fd : ℕ)
  | closed (fd : ℕ)
  deriving DecidableEq

/-- The loop of `open_clientfd`. -/
def openClientfdLoop : List Candidate → Option ℕ × List FdOp
  | [] => (none, [])
  | ⟨none, _⟩ :: listp => openClientfdLoop listp
  | ⟨some clientfd, true⟩ :: _ => (some clientfd, [.opened clientfd])
  | ⟨some clientfd, false⟩ :: listp =>
    let (fd, ops) := openClientfdLoop listp
    (fd, .opened clientfd :: .closed clientfd :: ops)

/-- `open_clientfd`, for the list that `getaddrinfo` returns. It exits where that fails, and returns
`none` for `-1`. -/
def openClientfd : Option (List Candidate) → Exec (Option ℕ × List FdOp)
  | none => .error .exit
  | some listp => .ok (openClientfdLoop listp)

/-- The loop of `read_request_header`. -/
def readRequestHeaderLoop : ℕ → Nio → Buf maxline → ℕ → Exec Nio
  | 0, _, _, _ => .error .fuel
  | fuel + 1, nio, buf, headerline => do
    if strcmpEq buf.bytes (ascii "\r\n") = true then
      return nio
    else
      let line := nioReadlineb nio maxline
      let buf ← buf.write 0 line.usrbuf
      let headerline := headerline + 1
      if headerline < headerLineSize then
        return line.rp
      else readRequestHeaderLoop fuel line.rp buf headerline

/-- `read_request_header`. -/
def readRequestHeader (fuel : ℕ) (nio : Nio) (buf : Buf maxline) : Exec Nio := do
  let line := nioReadlineb nio maxline
  let buf ← buf.write 0 line.usrbuf
  readRequestHeaderLoop fuel line.rp buf 0

/-- `user_agent_hdr`. -/
def userAgentHdr : List UInt8 := ascii
  "User-Agent: Mozilla/5.0 (X11; Linux x86_64; rv:10.0.3) Gecko/20120305 Firefox/10.0.3\r\n"

/-- `accept_hdr`. -/
def acceptHdr : List UInt8 := ascii
  "Accept: text/html,application/xhtml+xml,application/xml;q=0.9,*/*;q=0.8\r\n"

/-- `accept_encoding_hdr`. -/
def acceptEncodingHdr : List UInt8 := ascii "Accept-Encoding: gzip, deflate\r\n"

/-- `connection_hdr`. -/
def connectionHdr : List UInt8 := ascii "Connection: close\r\n"

/-- `proxy_connection_hdr`. -/
def proxyConnectionHdr : List UInt8 := ascii "Proxy-Connection: close\r\n\r\n"

/-- The request line for the origin. -/
def requestLine (path : List UInt8) : List UInt8 := ascii "GET " ++ path ++ ascii " HTTP/1.0\r\n"

/-- The host line for the origin. -/
def hostLine (host : List UInt8) : List UInt8 := ascii "Host: " ++ host ++ ascii "\r\n"

/-- `forward_request`: the buffers handed to `nio_writen` for `forwardfd`. -/
def forwardRequest (forwardbuf : Buf maxline) (key : Key) : Exec (List (List UInt8)) := do
  let forwardbuf ← forwardbuf.strcpy (requestLine key.path)
  let line ← forwardbuf.str
  let forwardbuf ← forwardbuf.strcpy (hostLine key.host)
  let host ← forwardbuf.str
  return [line, host, userAgentHdr, acceptHdr, acceptEncodingHdr, connectionHdr, proxyConnectionHdr]

/-- `forward_response_cached`: the buffer handed to `nio_writen` for `connfd`. -/
def forwardResponseCached (payloadCache : Buf maxObjectSize) (bytesize : ℕ) : Exec (List UInt8) :=
  payloadCache.read 0 bytesize

/-! ## The worker -/

/-- What a call of `worker_main` finds: its arrays, the client, the answers of `getaddrinfo`, what the
origin sends, and the address that `malloc` returns for a new node with the memory behind the copy of
its payload. -/
structure Env where
  loc : Locals
  connfd : Sock
  getaddrinfo : List UInt8 → List UInt8 → Option (List Candidate)
  origin : Sock
  node : Ptr
  junk : List UInt8

/-- What `worker_main` has done when it turns to `add_cache`. -/
structure Fetched where
  toOrigin : List (List UInt8)
  fdOps : List FdOp
  forward : Forward

/-- How `worker_main` has dealt with the request. -/
inductive Reply where
  | closed
  | rejected
  | hit (key : Key)
  | miss (key : Key) (f : Fetched) (stored : Bool)

/-- What a call of `worker_main` leaves behind. -/
structure Outcome where
  reply : Reply
  toClient : List (List UInt8)
  cache : Cache

/-- `worker_main`, from `read_request_header` to `forward_response`. Reads from the descriptor `-1`
fail. -/
def fetch (fuel : ℕ) (env : Env) (nio : Nio) (key : Key) : Exec Fetched := do
  let _ ← readRequestHeader fuel nio env.loc.headerBuf
  let (forwardfd, fdOps) ← openClientfd (env.getaddrinfo key.host key.port)
  let toOrigin ← forwardRequest env.loc.requestBuf key
  let origin := if forwardfd = none then ⟨[], .error⟩ else env.origin
  let forward ← forwardResponse fuel env.loc.forwardNioBuf env.loc.forwardbuf origin
    (Buf.zero maxObjectSize)
  return ⟨toOrigin, fdOps, forward⟩

/-- `worker_main`. -/
def workerMain (fuel : ℕ) (env : Env) (c : Cache) : Exec Outcome := do
  match ← receive env.loc env.connfd with
  | .nothing => return ⟨.closed, [], c⟩
  | .rejected sent => return ⟨.rejected, sent, c⟩
  | .accepted key nio =>
    match ← c.isCached fuel key with
    | (some bytes, c) =>
      let payloadCache ← env.loc.payloadCache.write 0 bytes
      let sent ← forwardResponseCached payloadCache bytes.length
      return ⟨.hit key, [sent], c⟩
    | (none, c) =>
      let f ← fetch fuel env nio key
      if f.forward.sum < maxObjectSize then
        let c ← c.addCache fuel env.node env.junk key f.forward.payload.bytes f.forward.sum
        let _ ← c.printCache fuel
        return ⟨.miss key f true, f.forward.sent, c⟩
      else
        return ⟨.miss key f false, f.forward.sent, c⟩

/-! ## Asking the origin -/

variable {env : Env} {nio : Nio} {key : Key} {f : Fetched}

theorem exists_write_line (nio : Nio) (buf : Buf maxline) :
    ∃ buf', buf.write 0 (nioReadlineb nio maxline).usrbuf = .ok buf' := by
  obtain ⟨rp, hl, -, -⟩ := nioReadlineb_spec nio (maxline - 1)
  have hmax : maxline - 1 + 1 = maxline := rfl
  rw [hmax] at hl
  obtain ⟨buf', h, -⟩ := Buf.exists_write buf 0 (nioReadlineb nio maxline).usrbuf (by
      have := length_takeLine_le newline (maxline - 1) nio.bytes
      rw [hl, lineStored]
      simp only [Nat.zero_add]
      split_ifs
      · rw [List.length_append, List.length_singleton]
        omega
      · omega)
  exact ⟨buf', h⟩

theorem readRequestHeader_blank {buf buf₁ : Buf maxline}
    (h₁ : buf.write 0 (nioReadlineb nio maxline).usrbuf = .ok buf₁)
    (hblank : strcmpEq buf₁.bytes (ascii "\r\n") = true) (fuel : ℕ) :
    readRequestHeader (fuel + 1) nio buf = .ok (nioReadlineb nio maxline).rp := by
  simp only [readRequestHeader, readRequestHeaderLoop, h₁, ok_bind, hblank, if_true, pure_eq_ok]

theorem readRequestHeader_header {buf buf₁ : Buf maxline}
    (h₁ : buf.write 0 (nioReadlineb nio maxline).usrbuf = .ok buf₁)
    (hblank : strcmpEq buf₁.bytes (ascii "\r\n") ≠ true) (fuel : ℕ) :
    readRequestHeader (fuel + 1) nio buf =
      .ok (nioReadlineb (nioReadlineb nio maxline).rp maxline).rp := by
  have hfew : 0 + 1 < headerLineSize := by decide
  obtain ⟨buf₂, h₂⟩ := exists_write_line (nioReadlineb nio maxline).rp buf₁
  simp only [readRequestHeader, readRequestHeaderLoop, h₁, h₂, ok_bind, hfew, if_true, pure_eq_ok]
  rw [if_neg hblank]

/-- **`read_request_header` returns**, after at most two lines. -/
theorem exists_readRequestHeader (nio : Nio) (buf : Buf maxline) :
    ∃ nio', ∀ fuel, readRequestHeader (fuel + 1) nio buf = .ok nio' := by
  obtain ⟨buf₁, h₁⟩ := exists_write_line nio buf
  by_cases hblank : strcmpEq buf₁.bytes (ascii "\r\n") = true
  · exact ⟨_, readRequestHeader_blank h₁ hblank⟩
  · exact ⟨_, readRequestHeader_header h₁ hblank⟩

theorem Key.Plain.length_lines (hkey : key.Plain) :
    (requestLine key.path).length < maxline ∧ (hostLine key.host).length < maxline := by
  obtain ⟨hhost, hpath⟩ := hkey.fits
  have hget : (ascii "GET ").length = 4 ∧ (ascii " HTTP/1.0\r\n").length = 11 := by decide
  have hhdr : (ascii "Host: ").length = 6 ∧ (ascii "\r\n").length = 2 := by decide
  simp only [requestLine, hostLine, List.length_append]
  omega

/-- **The message for the origin** fits into the array of `forward_request`. -/
theorem forwardRequest_eq (forwardbuf : Buf maxline) (hkey : key.Plain) :
    forwardRequest forwardbuf key = .ok [requestLine key.path, hostLine key.host, userAgentHdr,
      acceptHdr, acceptEncodingHdr, connectionHdr, proxyConnectionHdr] := by
  obtain ⟨hpath0, hhost0⟩ := hkey.not_mem
  have hzero : 0 ∉ ascii "GET " ∧ 0 ∉ ascii " HTTP/1.0\r\n" ∧ 0 ∉ ascii "Host: " ∧
    0 ∉ ascii "\r\n" := by decide
  obtain ⟨b, hb⟩ := forwardbuf.exists_strcpy hkey.length_lines.1
  obtain ⟨b', hb'⟩ := b.exists_strcpy hkey.length_lines.2
  have hs := Buf.str_of_strcpy hb (by
    rw [requestLine, List.mem_append, List.mem_append]
    tauto)
  have hs' := Buf.str_of_strcpy hb' (by
    rw [hostLine, List.mem_append, List.mem_append]
    tauto)
  simp only [forwardRequest, hb, hs, hb', hs', ok_bind, pure_eq_ok]

/-- **A request that is fetched has reached the origin**: a failed `connect` does not get that far. -/
theorem fetch_ok {fuel : ℕ} (h : fetch fuel env nio key = .ok f) :
    ∃ listp fd, env.getaddrinfo key.host key.port = some listp ∧
      openClientfdLoop listp = (some fd, f.fdOps) ∧
      forwardRequest env.loc.requestBuf key = .ok f.toOrigin ∧ env.origin.ending.ret = 0 ∧
      forwardResponse fuel env.loc.forwardNioBuf env.loc.forwardbuf env.origin
        (Buf.zero maxObjectSize) = .ok f.forward := by
  obtain ⟨_, -, h⟩ := bind_ok_iff.mp h
  obtain ⟨⟨forwardfd, fdOps⟩, hopen, h⟩ := bind_ok_iff.mp h
  obtain ⟨toOrigin, hto, h⟩ := bind_ok_iff.mp h
  obtain ⟨forward, hf, h⟩ := bind_ok_iff.mp h
  cases h
  have hret := forwardResponse_error hf
  cases hlist : env.getaddrinfo key.host key.port with
  | none =>
    rw [hlist] at hopen
    cases hopen
  | some listp =>
    rw [hlist] at hopen
    cases forwardfd with
    | none => cases hret
    | some fd => exact ⟨listp, fd, rfl, Except.ok.inj hopen, hto, hret, hf⟩

theorem fetch_forward {fuel : ℕ} (h : fetch fuel env nio key = .ok f) :
    env.origin.ending.ret = 0 ∧ forwardResponse fuel env.loc.forwardNioBuf env.loc.forwardbuf
      env.origin (Buf.zero maxObjectSize) = .ok f.forward := by
  obtain ⟨_, _, -, -, -, hret, hf⟩ := fetch_ok h
  exact ⟨hret, hf⟩

/-- **An origin that answers.** -/
theorem exists_fetch (env : Env) (nio : Nio) {listp : List Candidate} {fd : ℕ} {fdOps : List FdOp}
    (hkey : key.Plain) (haddr : env.getaddrinfo key.host key.port = some listp)
    (hconn : openClientfdLoop listp = (some fd, fdOps)) (he : env.origin.ending.ret = 0)
    (hs : CopiesFit 0 0 ((lines env.origin.bytes).map wire)) :
    ∃ f, Returns (fun fuel => fetch fuel env nio key) f := by
  obtain ⟨nio', hn⟩ := exists_readRequestHeader nio env.loc.headerBuf
  obtain ⟨sent, hsent⟩ : ∃ sent, forwardRequest env.loc.requestBuf key = .ok sent :=
    ⟨_, forwardRequest_eq env.loc.requestBuf hkey⟩
  obtain ⟨r, hr⟩ := (exists_forwardResponse_iff env.loc.forwardNioBuf env.loc.forwardbuf
    (Buf.zero maxObjectSize) he (Nat.lt_succ_self _)).mpr hs
  refine ⟨⟨sent, fdOps, r⟩, env.origin.bytes.length + 1, fun fuel hf => ?_⟩
  obtain ⟨fuel, rfl⟩ : ∃ k, fuel = k + 1 := ⟨fuel - 1, by omega⟩
  have hr := forwardResponse_mono hf hr
  simp only [fetch, hn, haddr, openClientfd, hconn, hsent, hr, ok_bind, pure_eq_ok, reduceCtorEq,
    if_false]

/-! ## The ways out -/

/-- The ways out of `worker_main`. -/
inductive Exit (fuel : ℕ) (env : Env) (c : Cache) : Outcome → Prop
  | closed (hreq : receive env.loc env.connfd = .ok .nothing) : Exit fuel env c ⟨.closed, [], c⟩
  | rejected (sent : List (List UInt8)) (hreq : receive env.loc env.connfd = .ok (.rejected sent)) :
      Exit fuel env c ⟨.rejected, sent, c⟩
  | hit (key : Key) (nio : Nio) (p : Ptr) (sent : List (List UInt8)) (c' : Cache)
      (hreq : receive env.loc env.connfd = .ok (.accepted key nio))
      (hfind : c.findSec fuel key = .ok (some p)) : Exit fuel env c ⟨.hit key, sent, c'⟩
  | stored (key : Key) (nio : Nio) (f : Fetched) (c' : Cache)
      (hreq : receive env.loc env.connfd = .ok (.accepted key nio))
      (hfind : c.findSec fuel key = .ok none) (hf : fetch fuel env nio key = .ok f)
      (hsum : f.forward.sum < maxObjectSize) :
      Exit fuel env c ⟨.miss key f true, f.forward.sent, c'⟩
  | tooLong (key : Key) (nio : Nio) (f : Fetched)
      (hreq : receive env.loc env.connfd = .ok (.accepted key nio))
      (hfind : c.findSec fuel key = .ok none) (hf : fetch fuel env nio key = .ok f)
      (hsum : maxObjectSize ≤ f.forward.sum) :
      Exit fuel env c ⟨.miss key f false, f.forward.sent, c⟩

/-- **`worker_main` leaves in one of these ways**, in whatever state the cache is. -/
theorem exit_of_workerMain {fuel : ℕ} {c : Cache} {o : Outcome}
    (h : workerMain fuel env c = .ok o) : Exit fuel env c o := by
  obtain ⟨r, hreq, h⟩ := bind_ok_iff.mp h
  cases r with
  | nothing =>
    cases h
    exact .closed hreq
  | rejected sent =>
    cases h
    exact .rejected sent hreq
  | accepted key nio =>
    obtain ⟨⟨r, c'⟩, hcached, h⟩ := bind_ok_iff.mp h
    obtain ⟨q, hfind, hcached⟩ := bind_ok_iff.mp hcached
    cases q with
    | some p =>
      obtain ⟨_, -, hcached⟩ := bind_ok_iff.mp hcached
      obtain ⟨_, -, hcached⟩ := bind_ok_iff.mp hcached
      cases hcached
      obtain ⟨_, -, h⟩ := bind_ok_iff.mp h
      obtain ⟨_, -, h⟩ := bind_ok_iff.mp h
      cases h
      exact .hit key nio p _ _ hreq hfind
    | none =>
      cases hcached
      obtain ⟨f, hf, h⟩ := bind_ok_iff.mp h
      split_ifs at h with hsum
      · obtain ⟨_, -, h⟩ := bind_ok_iff.mp h
        obtain ⟨_, -, h⟩ := bind_ok_iff.mp h
        cases h
        exact .stored key nio f _ hreq hfind hf hsum
      · cases h
        exact .tooLong key nio f hreq hfind hf (Nat.le_of_not_lt hsum)

end MiniProxy
