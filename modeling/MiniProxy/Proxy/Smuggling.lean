import MiniProxy.Proxy.Worker

/-!
# The message for the origin

The strings that `parse_request` stores are words of the request line, in which `sscanf` leaves no
space, so that they cannot end a line of the message into which `forward_request` puts them.

* `fixedHeaders`: the header strings of `proxy.h`;
* `messageLines`: the lines that a receiver finds in a message;
* `OneRequest`: a message that is one request for a path and a host;
* **`forwardRequest_oneRequest`**: what `forward_request` writes for an accepted request;
* **`forwardRequest_fits`**: the lines that it formats fit into their array.
-/

namespace MiniProxy

open Clib Lines

/-- `'\r'`. -/
abbrev carriageReturn : UInt8 := 13

/-- The strings that `forward_request` writes for every request. -/
def fixedHeaders : List (List UInt8) :=
  [userAgentHdr, acceptHdr, acceptEncodingHdr, connectionHdr, proxyConnectionHdr]

/-- A line without the CR that ends it. -/
def chop (line : List UInt8) : List UInt8 :=
  if line.getLast? = some carriageReturn then line.dropLast else line

/-- The lines of a message: each ends at a newline, and a CR before it does not count. -/
def messageLines (msg : List UInt8) : List (List UInt8) := (msg.splitOn newline).dropLast.map chop

/-- The line begins like a request line. -/
def isRequestLine (line : List UInt8) : Bool := (ascii "GET ").isPrefixOf line

/-- The line is a field with the name `Host`. -/
def isHostLine (line : List UInt8) : Bool := strcasecmpEq (line.takeWhile (· != colon)) (ascii "Host")

/-- The bytes `msg` are one request for the path and the host of `key`. -/
structure OneRequest (key : Key) (msg : List UInt8) : Prop where
  bytes : msg = requestLine key.path ++ (hostLine key.host ++ fixedHeaders.flatten)
  slash : key.path.head? = some slash
  path : ∀ c ∈ key.path, c ∉ [32, 9, carriageReturn, newline, 0]
  host : ∀ c ∈ key.host, c ∉ [32, 9, carriageReturn, newline, 0]
  terminated : msg.getLast? = some newline
  blank : ∃ ls, messageLines msg = ls ++ [[]] ∧ [] ∉ ls
  oneRequestLine : (messageLines msg).filter isRequestLine =
    [ascii "GET " ++ key.path ++ ascii " HTTP/1.0"]
  oneHostLine : (messageLines msg).filter isHostLine = [ascii "Host: " ++ key.host]

theorem messageLines_cons {line : List UInt8} (msg : List UInt8) (h : newline ∉ line) :
    messageLines (line ++ carriageReturn :: newline :: msg) = line :: messageLines msg := by
  have hcr : newline ∉ line ++ [carriageReturn] := by
    rw [List.mem_append, not_or]
    exact ⟨h, by decide⟩
  have hchop : chop (line ++ [carriageReturn]) = line := by
    rw [chop, List.getLast?_concat, if_pos rfl, List.dropLast_concat]
  rw [List.append_cons, messageLines, List.splitOn_append_cons_self_of_not_mem hcr,
    List.dropLast_cons_of_ne_nil (List.splitOn_ne_nil newline msg), List.map_cons, hchop]
  rfl

theorem messageLines_flatten {lines : List (List UInt8)} (h : ∀ line ∈ lines, newline ∉ line) :
    messageLines (lines.map (· ++ [carriageReturn, newline])).flatten = lines := by
  induction lines with
  | nil => rfl
  | cons line lines ih =>
    rw [List.forall_mem_cons] at h
    rw [List.map_cons, List.flatten_cons, List.append_assoc, List.cons_append, List.cons_append,
      List.nil_append, messageLines_cons _ h.1, ih h.2]

set_option maxRecDepth 4000 in
theorem messageLines_fixedHeaders :
    (∃ ls, messageLines fixedHeaders.flatten = ls ++ [[]] ∧ [] ∉ ls) ∧
      (messageLines fixedHeaders.flatten).filter isRequestLine = [] ∧
      (messageLines fixedHeaders.flatten).filter isHostLine = [] ∧
      fixedHeaders.flatten.getLast? = some newline := by
  let ls := fixedHeaders.map fun hdr => hdr.takeWhile (· != carriageReturn)
  have hflatten : fixedHeaders.flatten =
      ((ls ++ [[]]).map (· ++ [carriageReturn, newline])).flatten := by decide
  have hlines : messageLines fixedHeaders.flatten = ls ++ [[]] := by
    rw [hflatten]
    exact messageLines_flatten (by decide)
  rw [hlines]
  exact ⟨⟨ls, rfl, by decide⟩, by decide, by decide, by decide⟩

theorem not_mem_of_plain {c : UInt8} (h : c ≠ 0 ∧ isspace c = false) :
    c ∉ [32, 9, carriageReturn, newline, 0] := by
  obtain ⟨h0, hspace⟩ := h
  have hall : [32, 9, carriageReturn, newline].all isspace = true := by decide
  intro hc
  rcases List.mem_append.mp (show c ∈ [32, 9, carriageReturn, newline] ++ [0] from hc) with hc | hc
  · rw [List.all_eq_true.mp hall c hc] at hspace
    cases hspace
  · exact h0 (List.mem_singleton.mp hc)

/-- **The message for a plain path and host is one request.** -/
theorem oneRequest_of_plain {key : Key} (h : key.Plain) :
    OneRequest key (requestLine key.path ++ (hostLine key.host ++ fixedHeaders.flatten)) := by
  have hpath := fun c hc => not_mem_of_plain (h.path c hc)
  have hhost := fun c hc => not_mem_of_plain (h.host c hc)
  have hget : newline ∉ ascii "GET " ++ key.path ++ ascii " HTTP/1.0" := by
    have hlit : newline ∉ ascii "GET " ∧ newline ∉ ascii " HTTP/1.0" := by decide
    rw [List.mem_append, List.mem_append]
    rintro ((hc | hc) | hc)
    · exact hlit.1 hc
    · exact hpath _ hc (by decide)
    · exact hlit.2 hc
  have hname : newline ∉ ascii "Host: " ++ key.host := by
    have hlit : newline ∉ ascii "Host: " := by decide
    rw [List.mem_append]
    rintro (hc | hc)
    · exact hlit hc
    · exact hhost _ hc (by decide)
  have hsplit : requestLine key.path ++ (hostLine key.host ++ fixedHeaders.flatten) =
      (ascii "GET " ++ key.path ++ ascii " HTTP/1.0") ++ carriageReturn :: newline ::
        ((ascii "Host: " ++ key.host) ++ carriageReturn :: newline :: fixedHeaders.flatten) := by
    have hcrlf : ascii "\r\n" = [carriageReturn, newline] := by decide
    have hversion : ascii " HTTP/1.0\r\n" = ascii " HTTP/1.0" ++ [carriageReturn, newline] := by
      decide
    simp only [requestLine, hostLine, hcrlf, hversion, List.append_assoc, List.cons_append,
      List.nil_append]
  obtain ⟨⟨ls, hls, hempty⟩, hrequest, hfield, hlast⟩ := messageLines_fixedHeaders
  have hlines : messageLines (requestLine key.path ++ (hostLine key.host ++ fixedHeaders.flatten)) =
      (ascii "GET " ++ key.path ++ ascii " HTTP/1.0") :: (ascii "Host: " ++ key.host) ::
        messageLines fixedHeaders.flatten := by
    rw [hsplit, messageLines_cons _ hget, messageLines_cons _ hname]
  have hgetLine : isRequestLine (ascii "GET " ++ key.path ++ ascii " HTTP/1.0") = true ∧
      isHostLine (ascii "GET " ++ key.path ++ ascii " HTTP/1.0") = false := ⟨rfl, rfl⟩
  have hhostLine : isRequestLine (ascii "Host: " ++ key.host) = false ∧
      isHostLine (ascii "Host: " ++ key.host) = true := ⟨rfl, rfl⟩
  refine ⟨rfl, h.slash, hpath, hhost, ?_, ?_, ?_, ?_⟩
  · rw [List.getLast?_append_of_ne_nil _ (by simp [hostLine, ascii]),
      List.getLast?_append_of_ne_nil _ (by decide), hlast]
  · refine ⟨(ascii "GET " ++ key.path ++ ascii " HTTP/1.0") :: (ascii "Host: " ++ key.host) :: ls,
      by rw [hlines, hls]; rfl, ?_⟩
    rw [List.mem_cons, List.mem_cons, not_or, not_or]
    exact ⟨by simp [ascii], by simp [ascii], hempty⟩
  · rw [hlines, List.filter_cons_of_pos hgetLine.1,
      List.filter_cons_of_neg (by rw [hhostLine.1]; decide), hrequest]
  · rw [hlines, List.filter_cons_of_neg (by rw [hgetLine.2]; decide),
      List.filter_cons_of_pos hhostLine.2, hfield]

/-- **No request is smuggled**: what `forward_request` writes for a request line that `parse_request`
accepts is one request for the strings that it has stored. -/
theorem forwardRequest_oneRequest {loc : Locals} {request : Buf maxline} {t : Target}
    {sent : List (List UInt8)}
    (h : parseRequest loc request ⟨Buf.zero maxline, Buf.zero maxline, Buf.zero maxline⟩ =
      .ok (true, t, sent)) :
    ∃ key, t.key = .ok key ∧ ∀ forwardbuf, ∃ msg, forwardRequest forwardbuf key = .ok msg ∧
      OneRequest key msg.flatten := by
  obtain ⟨s, key, hstr, hs, hkey⟩ := requestKey_of_parseRequest rfl h
  have hplain := plain_of_requestKey (Buf.not_mem_of_str hstr) (Buf.length_lt_of_str hstr) hs
  exact ⟨key, hkey, fun forwardbuf =>
    ⟨_, forwardRequest_eq forwardbuf hplain, oneRequest_of_plain hplain⟩⟩

/-- A request line that is accepted. -/
theorem forwardRequest_oneRequest_accepted : ∃ loc request t sent,
    request.str = .ok (ascii "GET http://h:8080/a?b=c HTTP/1.1\r\n") ∧
      parseRequest loc request ⟨Buf.zero maxline, Buf.zero maxline, Buf.zero maxline⟩ =
        .ok (true, t, sent) ∧
      ∃ key, t.key = .ok key ∧ ∀ forwardbuf, ∃ msg, forwardRequest forwardbuf key = .ok msg ∧
        OneRequest key msg.flatten := by
  obtain ⟨request, hstr⟩ := Buf.exists_str (n := maxline)
    (ascii "GET http://h:8080/a?b=c HTTP/1.1\r\n") (by decide) (by decide)
  obtain ⟨t, ht, -⟩ := parseRequest_of_requestKey
    ⟨Buf.zero _, Buf.zero _, Buf.zero _, Buf.zero _, Buf.zero _, Buf.zero _, Buf.zero _, Buf.zero _,
      Buf.zero _, Buf.zero _⟩ (t := ⟨Buf.zero maxline, Buf.zero maxline, Buf.zero maxline⟩) hstr rfl
    (by decide : requestKey (ascii "GET http://h:8080/a?b=c HTTP/1.1\r\n") =
      some ⟨ascii "h", ascii "8080", ascii "/a?b=c"⟩)
  exact ⟨_, request, t, [], hstr, ht, forwardRequest_oneRequest ht⟩

/-! ## The array of the lines -/

/-- **The lines for the origin fit** into the array of `forward_request`, whatever request line
`parse_request` accepts: accepting it has used up more bytes than the lines add to its path or its
host. -/
theorem forwardRequest_fits {loc : Locals} {request : Buf maxline} {t t' : Target}
    {sent : List (List UInt8)} (h : parseRequest loc request t = .ok (true, t', sent)) :
    ∃ host path, t'.host.str = .ok host ∧ t'.path.str = .ok path ∧
      (requestLine path ++ [0]).length ≤ maxline ∧ (hostLine host ++ [0]).length ≤ maxline ∧
      ∀ (forwardbuf : Buf maxline) (port : List UInt8),
        ∃ lines, forwardRequest forwardbuf ⟨host, port, path⟩ = .ok lines := by
  obtain ⟨s, key, hstr, hs, hhost, hpath, -⟩ := stored_of_parseRequest h
  have hplain := plain_of_requestKey (Buf.not_mem_of_str hstr) (Buf.length_lt_of_str hstr) hs
  obtain ⟨hget, hhdr⟩ := hplain.length_lines
  refine ⟨key.host, key.path, hhost, hpath, ?_, ?_, fun forwardbuf port => ?_⟩
  · rwa [List.length_append, List.length_singleton, Nat.succ_le_iff]
  · rwa [List.length_append, List.length_singleton, Nat.succ_le_iff]
  have hplain' : (Key.mk key.host port key.path).Plain :=
    ⟨hplain.host, hplain.path, hplain.slash, hplain.fits⟩
  exact ⟨_, forwardRequest_eq forwardbuf hplain'⟩

/-- A request line without a path. -/
theorem forwardRequest_fits_accepted : ∃ loc request t t' sent,
    request.str = .ok (ascii "get http://localhost:80 HTTP/1.0") ∧
      parseRequest loc request t = .ok (true, t', sent) ∧
      ∃ host path, t'.host.str = .ok host ∧ t'.path.str = .ok path ∧
        (requestLine path ++ [0]).length ≤ maxline ∧ (hostLine host ++ [0]).length ≤ maxline ∧
        ∀ (forwardbuf : Buf maxline) (port : List UInt8),
          ∃ lines, forwardRequest forwardbuf ⟨host, port, path⟩ = .ok lines := by
  obtain ⟨request, hstr⟩ := Buf.exists_str (n := maxline)
    (ascii "get http://localhost:80 HTTP/1.0") (by decide) (by decide)
  obtain ⟨t, ht, -⟩ := parseRequest_of_requestKey
    ⟨Buf.zero _, Buf.zero _, Buf.zero _, Buf.zero _, Buf.zero _, Buf.zero _, Buf.zero _, Buf.zero _,
      Buf.zero _, Buf.zero _⟩ (t := ⟨Buf.zero maxline, Buf.zero maxline, Buf.zero maxline⟩) hstr rfl
    (by decide : requestKey (ascii "get http://localhost:80 HTTP/1.0") =
      some ⟨ascii "localhost", ascii "80", ascii "/"⟩)
  exact ⟨_, request, _, t, [], hstr, ht, forwardRequest_fits ht⟩

end MiniProxy
