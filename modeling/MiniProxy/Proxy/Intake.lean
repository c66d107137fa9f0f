import MiniProxy.Cache.Fresh
import MiniProxy.Proxy.Replies
import MiniProxy.Proxy.Smuggling

/-!
# What the worker takes from the client

`worker_main` reads the request line into an array that nobody has filled, and `read_request_header` is
to consume the header lines that follow it.

* `handed`, `receive_eq_handed`: what `worker_main` hands to `parse_request`;
* `readlineb_fails_iff`: when `nio_readlineb` fails;
* `ActsOnSent`, **`actsOnSent_iff`**: the worker acts on nothing but the bytes of the client, unless the
  connection fails inside the request line;
* `nioSkipLines`, `HeaderLine`: lines read from a record, and the lines of a header block;
* **`readRequestHeader_consumes_iff`**: `read_request_header` consumes the blocks of at most one line.
-/

namespace MiniProxy

open Clib Lines

/-! ## The request line -/

/-- `worker_main`, up to the call of `parse_request`: the array that it hands over and the record, or
nothing when it returns. -/
def handed (loc : Locals) (connfd : Sock) : Exec (Option (Buf maxline × Nio)) := do
  let line := nioReadlineb (nioReadinitb loc.nioBuf connfd) maxline
  let request ← loc.request.write 0 line.usrbuf
  if sizeT line.ret = 0 then
    return none
  else
    return some (request, line.rp)

theorem receive_eq_handed (loc : Locals) (connfd : Sock) :
    receive loc connfd = (do
      match ← handed loc connfd with
      | none => return .nothing
      | some (request, nio) =>
        let (accepted, t, sent) ← parseRequest loc request
          ⟨Buf.zero maxline, Buf.zero maxline, Buf.zero maxline⟩
        if accepted = false then
          return .rejected sent
        else
          let key ← t.key
          return .accepted key nio) := by
  rw [receive, handed]
  cases loc.request.write 0 (nioReadlineb (nioReadinitb loc.nioBuf connfd) maxline).usrbuf with
  | error e => rfl
  | ok request =>
    simp only [ok_bind]
    split_ifs <;> rfl

/-- `worker_main` calls `parse_request` with the string `s`, or returns without calling it. -/
def Hands (loc : Locals) (connfd : Sock) : Option (List UInt8) → Prop
  | none => handed loc connfd = .ok none
  | some s => ∃ request nio, handed loc connfd = .ok (some (request, nio)) ∧ request.str = .ok s

/-- **When `nio_readlineb` fails**: the connection fails before the line is complete. -/
theorem readlineb_fails_iff (rp : Nio) : (nioReadlineb rp maxline).ret = -1 ↔
    rp.fd.ending = .error ∧ newline ∉ rp.bytes.take (maxline - 1) ∧
      rp.bytes.length < maxline - 1 := by
  obtain ⟨rp', hl, -, -⟩ := nioReadlineb_spec rp (maxline - 1)
  have hmax : maxline - 1 + 1 = maxline := rfl
  rw [hmax] at hl
  rw [hl, lineRet]
  split_ifs with hnl hfull
  · exact iff_of_false (by simp) fun h => h.2.1 ((mem_takeLine_iff newline).mp hnl)
  · refine iff_of_false (by simp; omega) fun h => ?_
    rw [takeLine_of_not_mem newline h.2.1, List.length_take] at hfull
    rcases hfull with hfull | ⟨-, he⟩
    · omega
    · exact Ending.ret_eq_zero_iff.mp he h.1
  · rw [mem_takeLine_iff] at hnl
    rw [takeLine_of_not_mem newline hnl, List.length_take, not_or] at hfull
    constructor
    · intro hret
      refine ⟨?_, hnl, by omega⟩
      by_contra he
      rw [Ending.ret_eq_zero_iff.mpr he] at hret
      cases hret
    · rintro ⟨he, -⟩
      rw [he]
      rfl

theorem readlineb_stores {rp : Nio} (h : (nioReadlineb rp maxline).ret ≠ -1) :
    (nioReadlineb rp maxline).ret = 0 ∨
      sizeT (nioReadlineb rp maxline).ret ≠ 0 ∧
        ∃ line, (nioReadlineb rp maxline).usrbuf = line ++ [0] := by
  obtain ⟨rp', hl, -, -⟩ := nioReadlineb_spec rp (maxline - 1)
  have hmax : maxline - 1 + 1 = maxline := rfl
  have hsize : maxline = 8192 := rfl
  have hlen := length_takeLine_le newline (maxline - 1) rp.bytes
  rw [hmax] at hl
  rw [hl] at h ⊢
  generalize takeLine newline (maxline - 1) rp.bytes = line at h hlen ⊢
  by_cases hend : newline ∈ line ∨ line.length = maxline - 1 ∨ line ≠ [] ∧ rp.fd.ending.ret = 0
  · obtain ⟨n, hret, hpos, hle⟩ : ∃ n : ℕ, lineRet line (line.length = maxline - 1) rp.fd.ending = n ∧
        0 < n ∧ n ≤ maxline := by
      rw [lineRet]
      split_ifs with hnl
      · exact ⟨line.length, rfl, List.length_pos_of_mem hnl, by omega⟩
      · exact ⟨line.length + 1, rfl, Nat.succ_pos _, by omega⟩
      · exact absurd hend (not_or.mpr ⟨hnl, ‹_›⟩)
    right
    simp only [hret, lineStored, if_pos hend]
    rw [sizeT_natCast (by omega)]
    exact ⟨hpos.ne', line, rfl⟩
  · left
    rw [not_or] at hend
    simp only [lineRet, if_neg hend.1, if_neg hend.2] at h ⊢
    exact Ending.ret_eq_zero_iff.mpr fun he => h (by rw [he]; rfl)

/-- The worker acts on nothing but the bytes that the client has sent: what its array held before does
not matter, and when the request line cannot be read the session ends. -/
structure ActsOnSent (connfd : Sock) : Prop where
  same (loc : Locals) (request : Buf maxline) :
    ∃ o, Hands loc connfd o ∧ Hands { loc with request := request } connfd o
  fails (env : Env) (hfd : env.connfd = connfd)
    (hret : (nioReadlineb (nioReadinitb env.loc.nioBuf connfd) maxline).ret = -1) (fuel : ℕ)
    (c : Cache) : workerMain fuel env c = .ok ⟨.closed, [], c⟩

theorem hands_of_stored {connfd : Sock} {loc : Locals} {line : List UInt8}
    (hret : sizeT (nioReadlineb (nioReadinitb loc.nioBuf connfd) maxline).ret ≠ 0)
    (hline : (nioReadlineb (nioReadinitb loc.nioBuf connfd) maxline).usrbuf = line ++ [0])
    (request : Buf maxline) : Hands { loc with request := request } connfd (some (cstr line)) := by
  obtain ⟨b, hb⟩ := exists_write_line (nioReadinitb loc.nioBuf connfd) request
  obtain ⟨-, hbytes⟩ := Buf.write_eq_ok.mp hb
  refine ⟨b, (nioReadlineb (nioReadinitb loc.nioBuf connfd) maxline).rp, ?_,
    Buf.str_eq_ok.mpr ⟨?_, ?_⟩⟩
  · simp only [handed, hb, ok_bind, if_neg hret, pure_eq_ok]
  · rw [hbytes, hline]
    simp
  · rw [hbytes, hline, List.take_zero, List.nil_append, List.append_assoc, List.singleton_append,
      cstr_append_cons_zero]

theorem handed_of_fails {connfd : Sock} {loc : Locals}
    (hret : (nioReadlineb (nioReadinitb loc.nioBuf connfd) maxline).ret = -1) :
    ∃ request nio, handed loc connfd = .ok (some (request, nio)) := by
  have hsize : sizeT (-1) ≠ 0 := by decide
  obtain ⟨b, hb⟩ := exists_write_line (nioReadinitb loc.nioBuf connfd) loc.request
  refine ⟨b, (nioReadlineb (nioReadinitb loc.nioBuf connfd) maxline).rp, ?_⟩
  simp only [handed, hb, ok_bind, hret, if_neg hsize, pure_eq_ok]

theorem receive_ne_nothing {connfd : Sock} {loc : Locals}
    (hret : (nioReadlineb (nioReadinitb loc.nioBuf connfd) maxline).ret = -1) :
    receive loc connfd ≠ .ok .nothing := by
  obtain ⟨request, nio, hhanded⟩ := handed_of_fails hret
  intro h
  rw [receive_eq_handed, hhanded, ok_bind] at h
  obtain ⟨⟨accepted, t, sent⟩, -, h⟩ := bind_ok_iff.mp h
  cases accepted with
  | false => cases h
  | true =>
    obtain ⟨key, -, h⟩ := bind_ok_iff.mp h
    cases h

theorem hands_none {connfd : Sock} {loc : Locals}
    (hret : (nioReadlineb (nioReadinitb loc.nioBuf connfd) maxline).ret = 0)
    (request : Buf maxline) : Hands { loc with request := request } connfd none := by
  have hsize : sizeT 0 = 0 := by decide
  obtain ⟨b, hb⟩ := exists_write_line (nioReadinitb loc.nioBuf connfd) request
  simp only [Hands, handed, hb, ok_bind, hret, hsize, if_true, pure_eq_ok]

theorem not_actsOnSent_of_fails {connfd : Sock} {loc : Locals}
    (hret : (nioReadlineb (nioReadinitb loc.nioBuf connfd) maxline).ret = -1) :
    ¬ ActsOnSent connfd := by
  intro h
  have hout := h.fails ⟨loc, connfd, fun _ _ => none, ⟨[], .eof⟩, 0, []⟩ rfl hret 0 Cache.emptyCache
  cases exit_of_workerMain hout with
  | closed hreq => exact receive_ne_nothing hret hreq

/-- **The worker acts on nothing but the bytes of the client**, unless the connection fails before the
request line is complete: then it parses what its array holds. -/
theorem actsOnSent_iff (connfd : Sock) : ActsOnSent connfd ↔
    ¬ (connfd.ending = .error ∧ newline ∉ connfd.bytes.take (maxline - 1) ∧
      connfd.bytes.length < maxline - 1) := by
  have hfails : ∀ loc : Locals,
      (nioReadlineb (nioReadinitb loc.nioBuf connfd) maxline).ret = -1 ↔
        connfd.ending = .error ∧ newline ∉ connfd.bytes.take (maxline - 1) ∧
          connfd.bytes.length < maxline - 1 := fun loc => by
    rw [readlineb_fails_iff, nioReadinitb_bytes]
    rfl
  constructor
  · intro h hcut
    exact not_actsOnSent_of_fails ((hfails .zero).mpr hcut) h
  · intro hcut
    refine ⟨fun loc request => ?_, fun env hfd hret => absurd ((hfails env.loc).mp hret) hcut⟩
    rcases readlineb_stores fun hret => hcut ((hfails loc).mp hret) with hret | ⟨hret, line, hline⟩
    · exact ⟨none, hands_none hret loc.request, hands_none hret request⟩
    · exact ⟨_, hands_of_stored hret hline loc.request, hands_of_stored hret hline request⟩

theorem hands_of_bad_descriptor (loc : Locals) {request : Buf maxline} {s : List UInt8}
    (hs : request.str = .ok s) : Hands { loc with request := request } ⟨[], .error⟩ (some s) := by
  obtain ⟨rp, hl, -, -⟩ := nioReadlineb_spec (nioReadinitb loc.nioBuf ⟨[], .error⟩) (maxline - 1)
  have hmax : maxline - 1 + 1 = maxline := rfl
  have hbytes : (nioReadinitb loc.nioBuf ⟨[], .error⟩).bytes = [] := nioReadinitb_bytes _ _
  rw [hmax, hbytes, takeLine_nil] at hl
  have hret : (nioReadlineb (nioReadinitb loc.nioBuf ⟨[], .error⟩) maxline).ret = -1 := by
    rw [hl]
    rfl
  have husr : (nioReadlineb (nioReadinitb loc.nioBuf ⟨[], .error⟩) maxline).usrbuf = [] := by
    rw [hl]
    rfl
  have hsize : sizeT (-1) ≠ 0 := by decide
  have hwrite : request.write 0 [] = .ok request := Buf.write_eq_ok.mpr ⟨Nat.zero_le _, rfl⟩
  refine ⟨request, (nioReadlineb (nioReadinitb loc.nioBuf ⟨[], .error⟩) maxline).rp, ?_, hs⟩
  simp only [handed, husr, hwrite, ok_bind, hret, if_neg hsize, pure_eq_ok]

/-- Nothing can be read from the descriptor `-1`; `parse_request` gets the empty string or a request,
as the array happens to hold. -/
theorem not_actsOnSent : ¬ ActsOnSent ⟨[], .error⟩ ∧
    ∃ request, Hands .zero ⟨[], .error⟩ (some []) ∧
      Hands { Locals.zero with request := request } ⟨[], .error⟩
        (some (ascii "GET http://h/ HTTP/1.0")) := by
  obtain ⟨request, hs⟩ := Buf.exists_str (n := maxline) (ascii "GET http://h/ HTTP/1.0") (by decide)
    (by decide)
  have hcut := (readlineb_fails_iff (nioReadinitb Locals.zero.nioBuf ⟨[], .error⟩)).mpr (by
    rw [nioReadinitb_bytes]
    decide)
  exact ⟨not_actsOnSent_of_fails hcut, request, hands_of_bad_descriptor .zero Buf.str_zero,
    hands_of_bad_descriptor .zero hs⟩

/-! ## The header lines -/

/-- The record after `n` lines of it have been read. -/
def nioSkipLines (maxlen : ℕ) : ℕ → Nio → Nio
  | 0, rp => rp
  | n + 1, rp => nioSkipLines maxlen n (nioReadlineb rp maxlen).rp

/-- A line of a header block: it ends with its only newline, leaves room in an array of `maxline`
bytes, and is not blank. -/
structure HeaderLine (line : List UInt8) : Prop where
  ends : ∃ s, line = s ++ [newline] ∧ newline ∉ s
  short : line.length < maxline - 1
  ne_blank : line ≠ ascii "\r\n"

theorem blank_append (t : List UInt8) : ascii "\r\n" ++ t = [carriageReturn] ++ newline :: t := by
  have hcrlf : ascii "\r\n" = [carriageReturn] ++ [newline] := by decide
  rw [hcrlf]
  rfl

theorem newline_not_mem_cr : newline ∉ [carriageReturn] := by decide

variable {nio : Nio} {line t : List UInt8}

theorem HeaderLine.exists_append (h : HeaderLine line) (t : List UInt8) :
    ∃ s, newline ∉ s ∧ s.length < maxline - 1 ∧ line = s ++ [newline] ∧
      line ++ t = s ++ newline :: t := by
  obtain ⟨s, hs, hnl⟩ := h.ends
  have hlen := h.short
  rw [hs, List.length_append, List.length_singleton] at hlen
  exact ⟨s, hnl, by omega, hs, by rw [hs, List.append_assoc, List.singleton_append]⟩

theorem first_line {s : List UInt8} (buf : Buf maxline) (hb : nio.bytes = s ++ newline :: t)
    (hs : newline ∉ s) (hlen : s.length < maxline - 1) :
    ∃ buf₁ old, buf.write 0 (nioReadlineb nio maxline).usrbuf = .ok buf₁ ∧
      buf₁.bytes = s ++ newline :: 0 :: old ∧ (nioReadlineb nio maxline).rp.bytes = t := by
  obtain ⟨rp, hl, hrp, -⟩ := nioReadlineb_spec nio (maxline - 1)
  have hmax : maxline - 1 + 1 = maxline := rfl
  obtain ⟨htake, hdrop⟩ := line_append newline hs hlen t
  rw [hmax, hb, htake] at hl
  rw [hb, hdrop] at hrp
  obtain ⟨buf₁, h₁⟩ := exists_write_line nio buf
  obtain ⟨-, hbytes⟩ := Buf.write_eq_ok.mp h₁
  rw [hl, lineStored, if_pos (Or.inl (by simp)), List.take_zero, List.nil_append] at hbytes
  simp only [List.append_assoc, List.singleton_append] at hbytes
  exact ⟨buf₁, _, h₁, hbytes, by rw [hl]; exact hrp⟩

/-- **A blank first line** is all that `read_request_header` takes. -/
theorem readRequestHeader_of_blank (buf : Buf maxline) (hb : nio.bytes = ascii "\r\n" ++ t) :
    ∃ nio', nio'.bytes = t ∧ ∀ fuel, readRequestHeader (fuel + 1) nio buf = .ok nio' := by
  rw [blank_append] at hb
  obtain ⟨buf₁, old, h₁, hbytes, hrp⟩ := first_line buf hb newline_not_mem_cr (by decide)
  refine ⟨_, hrp, readRequestHeader_blank h₁ (strcmpEq_iff.mpr ⟨old, ?_⟩)⟩
  rw [hbytes, blank_append]

/-- **Behind a header line** `read_request_header` takes one line more. -/
theorem readRequestHeader_of_header {s : List UInt8} (buf : Buf maxline) (hline : HeaderLine line)
    (hb : nio.bytes = line ++ (s ++ newline :: t)) (hs : newline ∉ s) (hlen : s.length < maxline - 1) :
    ∃ nio', nio'.bytes = t ∧ ∀ fuel, readRequestHeader (fuel + 1) nio buf = .ok nio' := by
  obtain ⟨s₁, hnl, hlen₁, hs₁, hcat⟩ := hline.exists_append (s ++ newline :: t)
  obtain ⟨buf₁, old, h₁, hbytes, hrp⟩ := first_line buf (hb.trans hcat) hnl hlen₁
  obtain ⟨_, _, -, -, hrest⟩ := first_line buf hrp hs hlen
  refine ⟨_, hrest, readRequestHeader_header h₁ fun hblank => hline.ne_blank ?_⟩
  -- the first line of the array is the header line, and would be the blank one
  obtain ⟨r, hr⟩ := strcmpEq_iff.mp hblank
  rw [hbytes, blank_append] at hr
  have hleft := (line_append newline hnl hlen₁ (0 :: old)).1
  have hright := (line_append newline newline_not_mem_cr (by decide : 1 < maxline - 1) (0 :: r)).1
  calc line = s₁ ++ [newline] := hs₁
    _ = [carriageReturn] ++ [newline] := by rw [← hleft, ← hright, hr]
    _ = ascii "\r\n" := (blank_append []).symm.trans (List.append_nil _)

theorem readRequestHeader_skips (nio : Nio) (buf : Buf maxline) :
    ∃ n ≤ headerLineSize + 1,
      Returns (fun fuel => readRequestHeader fuel nio buf) (nioSkipLines maxline n nio) := by
  obtain ⟨buf₁, h₁⟩ := exists_write_line nio buf
  by_cases hblank : strcmpEq buf₁.bytes (ascii "\r\n") = true
  · refine ⟨1, by decide, 1, fun fuel hf => ?_⟩
    obtain ⟨fuel, rfl⟩ : ∃ k, fuel = k + 1 := ⟨fuel - 1, by omega⟩
    exact readRequestHeader_blank h₁ hblank fuel
  · refine ⟨2, by decide, 1, fun fuel hf => ?_⟩
    obtain ⟨fuel, rfl⟩ : ∃ k, fuel = k + 1 := ⟨fuel - 1, by omega⟩
    exact readRequestHeader_header h₁ hblank fuel

/-- `read_request_header` returns, and the next byte that `nio` gives is the first of `rest`. -/
def Consumes (nio : Nio) (buf : Buf maxline) (rest : List UInt8) : Prop :=
  ∃ nio', Returns (fun fuel => readRequestHeader fuel nio buf) nio' ∧ nio'.bytes = rest

theorem consumes_iff {nio' : Nio} {buf : Buf maxline} {rest : List UInt8}
    (h : ∀ fuel, readRequestHeader (fuel + 1) nio buf = .ok nio') :
    Consumes nio buf rest ↔ nio'.bytes = rest := by
  have hret : Returns (fun fuel => readRequestHeader fuel nio buf) nio' := ⟨1, fun fuel hf => by
    obtain ⟨fuel, rfl⟩ : ∃ k, fuel = k + 1 := ⟨fuel - 1, by omega⟩
    exact h fuel⟩
  constructor
  · rintro ⟨nio'', hret', hb⟩
    rwa [hret.unique hret']
  · exact fun hb => ⟨nio', hret, hb⟩

/-- **`read_request_header` consumes the header block** exactly when at most one line precedes the
blank one: the loop goes on only when it has counted as many lines as it was meant to stop at. It
returns on every stream. -/
theorem readRequestHeader_consumes_iff (nio : Nio) (buf : Buf maxline) :
    (∃ n ≤ headerLineSize + 1,
      Returns (fun fuel => readRequestHeader fuel nio buf) (nioSkipLines maxline n nio)) ∧
    ∀ (hs : List (List UInt8)) (rest : List UInt8), (∀ line ∈ hs, HeaderLine line) →
      nio.bytes = hs.flatten ++ (ascii "\r\n" ++ rest) →
      hs.length < headerLineSize → (Consumes nio buf rest ↔ hs.length ≤ 1) := by
  refine ⟨readRequestHeader_skips nio buf, fun hs rest hhs hb _ => ?_⟩
  cases hs with
  | nil =>
    obtain ⟨nio', hrest, hret⟩ := readRequestHeader_of_blank buf hb
    rw [consumes_iff hret]
    exact iff_of_true hrest (Nat.zero_le 1)
  | cons line hs =>
    have hline := hhs line List.mem_cons_self
    rw [List.flatten_cons, List.append_assoc] at hb
    cases hs with
    | nil =>
      rw [List.flatten_nil, List.nil_append, blank_append] at hb
      obtain ⟨nio', hrest, hret⟩ := readRequestHeader_of_header buf hline hb newline_not_mem_cr
        (by decide)
      rw [consumes_iff hret]
      exact iff_of_true hrest le_rfl
    | cons line' hs =>
      have hline' := hhs line' (List.mem_cons_of_mem _ List.mem_cons_self)
      obtain ⟨s, hnl, hlen, -, hcat⟩ := hline'.exists_append (hs.flatten ++ (ascii "\r\n" ++ rest))
      rw [List.flatten_cons, List.append_assoc, hcat] at hb
      obtain ⟨nio', hrest, hret⟩ := readRequestHeader_of_header buf hline hb hnl hlen
      have hcrlf : (ascii "\r\n").length = 2 := by decide
      rw [consumes_iff hret, hrest]
      refine iff_of_false (fun h => ?_) (by simp)
      have hsum := congrArg List.length h
      rw [List.length_append, List.length_append] at hsum
      omega

/-- A block of one line. -/
theorem readRequestHeader_consumes_one : ∃ nio : Nio,
    nio.bytes = ascii "Host: h\r\n" ++ (ascii "\r\n" ++ ascii "x") ∧
      Consumes nio (Buf.zero maxline) (ascii "x") := by
  refine ⟨nioReadinitb (Buf.zero _) ⟨[.data 72 (ascii "ost: h\r\n\r\nx")], .eof⟩, ?_, ?_⟩
  · rw [nioReadinitb_bytes]
    decide
  · refine ((readRequestHeader_consumes_iff _ _).2 [ascii "Host: h\r\n"] _ ?_ ?_ (by decide)).mpr le_rfl
    · intro line hline
      rw [List.mem_singleton.mp hline]
      exact ⟨⟨ascii "Host: h\r", by decide, by decide⟩, by decide, by decide⟩
    · rw [nioReadinitb_bytes]
      decide

/-- Of a block of two lines the blank line is left. -/
theorem not_readRequestHeader_consumes : ∃ (nio : Nio) (hs : List (List UInt8)),
    (∀ line ∈ hs, HeaderLine line) ∧ nio.bytes = hs.flatten ++ (ascii "\r\n" ++ ascii "x") ∧
      hs.length < headerLineSize ∧ Consumes nio (Buf.zero maxline) (ascii "\r\n" ++ ascii "x") ∧
      ¬ Consumes nio (Buf.zero maxline) (ascii "x") := by
  have hhost : HeaderLine (ascii "Host: h\r\n") :=
    ⟨⟨ascii "Host: h\r", by decide, by decide⟩, by decide, by decide⟩
  have haccept : HeaderLine (ascii "Accept: x\r\n") :=
    ⟨⟨ascii "Accept: x\r", by decide, by decide⟩, by decide, by decide⟩
  have hbytes : (nioReadinitb (Buf.zero _)
      ⟨[.data 72 (ascii "ost: h\r\nAccept: x\r\n\r\nx")], .eof⟩).bytes =
      ascii "Host: h\r\n" ++ (ascii "Accept: x\r" ++ newline :: (ascii "\r\n" ++ ascii "x")) := by
    rw [nioReadinitb_bytes]
    decide
  obtain ⟨nio', hrest, hret⟩ := readRequestHeader_of_header (Buf.zero maxline) hhost hbytes
    (by decide) (by decide)
  refine ⟨_, [ascii "Host: h\r\n", ascii "Accept: x\r\n"], ?_, hbytes, by decide,
    (consumes_iff hret).mpr hrest, ?_⟩
  · intro line hline
    rcases List.mem_cons.mp hline with rfl | hline
    · exact hhost
    · rw [List.mem_singleton.mp hline]
      exact haccept
  · rw [consumes_iff hret, hrest]
    decide

end MiniProxy
