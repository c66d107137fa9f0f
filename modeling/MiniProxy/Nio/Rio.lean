import MiniProxy.Nio.Blocks
import MiniProxy.Nio.Writen

/-!
# The rio package

`csapp.c` has the package that `nio.c` was written after. It takes a reset of the connection for a
failure, where the nio package takes it for the end of the data, and counts what it stores in another way.

* `Rio`, `rioRefill`, `rioRead`, `rioReadlineb`, `rioReadnb`, `rioReadn`, `rioWriten`: the functions;
* `Sock.strict`, `Nio.strict`: a descriptor on which a reset is a failure; `rioRead_strict`: `rio_read` is
  `nio_read` on it;
* **`rioReadlineb_counts`**: `rio_readlineb` takes a line and returns the number of its bytes;
  **`rioReadlineb_agrees_iff`**: when `nio_readlineb` returns the same;
* **`rioReadn_agrees`**: the two reads of a block agree on every stream;
* **`rioWriten_delivers`**: `rio_writen` delivers what the results of `write` have accepted, and returns
  `n` only if that is all.
-/

namespace MiniProxy

open Clib Lines

/-! ## The functions -/

/-- `rio_t`, whose fields are those of `nio_t`. -/
abbrev Rio := Nio

theorem inBuf_empty (rioBuf : Buf nioBufsize) : 0 + (0 : ℤ).toNat ≤ rioBuf.bytes.length :=
  Nat.zero_le _

/-- `rio_readinitb` on a record whose buffer holds `rioBuf`. -/
def rioReadinitb (rioBuf : Buf nioBufsize) (fd : Sock) : Rio :=
  { fd := fd, nioCnt := 0, nioBufptr := 0, nioBuf := rioBuf.bytes, inBuf := inBuf_empty rioBuf }

/-- The loop of `rio_read` that refills an empty buffer: `some rc` when `rio_read` returns `rc` from
it. -/
def rioRefill (rp : Rio) : Option ℤ × Rio :=
  if 0 < rp.nioCnt then (none, rp) else
    match _ : rp.fd.read nioBufsize with
    | (.fail .connreset, s) => (some (-1), { rp with fd := s, nioCnt := -1, inBuf := rp.inBuf_neg })
    | (.fail .other, s) => (some (-1), { rp with fd := s, nioCnt := -1, inBuf := rp.inBuf_neg })
    | (.fail .eintr, s) => rioRefill { rp with fd := s, nioCnt := -1, inBuf := rp.inBuf_neg }
    | (.got [], s) => (some 0, { rp with fd := s, nioCnt := 0, inBuf := rp.inBuf_neg })
    | (.got (b :: bs), s) =>
      (none,
        { fd := s, nioCnt := (b :: bs).length, nioBufptr := 0,
          nioBuf := b :: bs ++ rp.nioBuf.drop (b :: bs).length, inBuf := by simp })
termination_by rp.fd.evs.length
decreasing_by exact Sock.read_eintr ‹_›

/-- `rio_read`: the value returned, the bytes copied to `usrbuf`, and the record left behind. -/
def rioRead (rp : Rio) (n : ℕ) : ℤ × List UInt8 × Rio :=
  match rioRefill rp with
  | (some rc, rp) => (rc, [], rp)
  | (none, rp) =>
    let cnt : ℤ := if rp.nioCnt < n then rp.nioCnt else n
    (cnt, (rp.nioBuf.drop rp.nioBufptr).take cnt.toNat,
      { rp with
        nioBufptr := rp.nioBufptr + cnt.toNat
        nioCnt := rp.nioCnt - cnt
        inBuf := by
          have := rp.inBuf
          simp only [cnt]
          split_ifs <;> omega })

/-- The loop of `rio_readlineb`, which has stored `usrbuf` so far. At a newline it counts once more
before it ends, and it returns one less than it has counted. Its `n` is an `int`: this is the loop for
`maxlen < 2 ^ 31`. -/
def rioReadlinebLoop (rp : Rio) (maxlen n : ℕ) (usrbuf : List UInt8) : Line :=
  if n < maxlen then
    match rioRead rp 1 with
    | (rc, c, rp) =>
      if rc = 1 then
        if c = [newline] then ⟨(n + 1 : ℕ) - 1, usrbuf ++ c ++ [0], rp⟩
        else rioReadlinebLoop rp maxlen (n + 1) (usrbuf ++ c)
      else if rc = 0 then
        if n = 1 then ⟨0, usrbuf, rp⟩ else ⟨n - 1, usrbuf ++ [0], rp⟩
      else ⟨-1, usrbuf, rp⟩
  else ⟨n - 1, usrbuf ++ [0], rp⟩
termination_by maxlen - n

/-- `rio_readlineb`. -/
def rioReadlineb (rp : Rio) (maxlen : ℕ) : Line := rioReadlinebLoop rp maxlen 1 []

/-- The loop of `rio_readnb`, which has stored `usrbuf` so far. -/
def rioReadnbLoop (rp : Rio) (n nleft : ℕ) (usrbuf : List UInt8) : Block Rio :=
  if 0 < nleft then
    match rioRead rp nleft with
    | (nread, bs, rp) =>
      if nread < 0 then ⟨-1, usrbuf, rp⟩
      else if nread = 0 then ⟨(n - nleft : ℕ), usrbuf, rp⟩
      else rioReadnbLoop rp n (nleft - nread.toNat) (usrbuf ++ bs)
  else ⟨(n - nleft : ℕ), usrbuf, rp⟩
termination_by nleft
decreasing_by omega

/-- `rio_readnb`. -/
def rioReadnb (rp : Rio) (n : ℕ) : Block Rio := rioReadnbLoop rp n n []

/-- The loop of `rio_readn`, which has stored `usrbuf` so far. -/
def rioReadnLoop (fd : Sock) (n nleft : ℕ) (usrbuf : List UInt8) : Block Sock :=
  if 0 < nleft then
    match h : fd.read nleft with
    | (.fail .eintr, fd) => rioReadnLoop fd n nleft usrbuf
    | (.fail .connreset, fd) => ⟨-1, usrbuf, fd⟩
    | (.fail .other, fd) => ⟨-1, usrbuf, fd⟩
    | (.got [], fd) => ⟨(n - nleft : ℕ), usrbuf, fd⟩
    | (.got (b :: bs), fd) =>
      rioReadnLoop fd n (nleft - (b :: bs).length) (usrbuf ++ (b :: bs))
  else ⟨(n - nleft : ℕ), usrbuf, fd⟩
termination_by (nleft, fd.evs.length)
decreasing_by
  · exact Prod.Lex.right _ (Sock.read_eintr h)
  · exact Prod.Lex.left _ _ (Nat.sub_lt ‹_› (Nat.succ_pos _))

/-- `rio_readn`. -/
def rioReadn (fd : Sock) (n : ℕ) : Block Sock := rioReadnLoop fd n n []

/-- The loop of `rio_writen`, whose `write`s have accepted `accepted` so far. -/
def rioWritenLoop (usrbuf : List UInt8) (n nleft bufp : ℕ) (accepted : List UInt8) :
    List WriteEv → Written
  | [] => if 0 < nleft then ⟨none, accepted, []⟩ else ⟨some n, accepted, []⟩
  | ev :: evs =>
    if 0 < nleft then
      match ev.write nleft with
      | .fail .eintr => rioWritenLoop usrbuf n nleft bufp accepted evs
      | .fail .epipe => ⟨some (-1), accepted, evs⟩
      | .fail .other => ⟨some (-1), accepted, evs⟩
      | .count k =>
        rioWritenLoop usrbuf n (nleft - k) (bufp + k) (accepted ++ (usrbuf.drop bufp).take k) evs
    else ⟨some n, accepted, ev :: evs⟩

/-- `rio_writen` of the whole of `usrbuf`. -/
def rioWriten (usrbuf : List UInt8) (evs : List WriteEv) : Written :=
  rioWritenLoop usrbuf usrbuf.length usrbuf.length 0 [] evs

/-! ## A reset as a failure -/

/-- A reset of the connection is a failure. -/
def Ending.strict : Ending → Ending
  | .eof => .eof
  | .connreset => .error
  | .error => .error

/-- The value that stands for it. -/
def Errno.strict : Errno → Errno
  | .eintr => .eintr
  | .connreset => .other
  | .other => .other

/-- What one `read` returns then. -/
def ReadResult.strict : ReadResult → ReadResult
  | .got bs => .got bs
  | .fail e => .fail e.strict

/-- The descriptor on which a reset is a failure. -/
def Sock.strict (s : Sock) : Sock := ⟨s.evs, s.ending.strict⟩

/-- The record that reads from it. -/
def Nio.strict (rp : Nio) : Nio := { rp with fd := rp.fd.strict }

@[simp] theorem Sock.bytes_strict (s : Sock) : s.strict.bytes = s.bytes := rfl

@[simp] theorem Nio.bytes_strict (rp : Nio) : rp.strict.bytes = rp.bytes := rfl

theorem Sock.read_strict (s : Sock) (n : ℕ) :
    s.strict.read n = ((s.read n).1.strict, (s.read n).2.strict) := by
  rcases s with ⟨_ | ⟨b, ds⟩ | _, ending⟩
  · cases ending <;> rfl
  · simp only [strict, read]
    split <;> rfl
  · rfl

theorem inBuf_filled (rp : Nio) (b : UInt8) (bs : List UInt8) :
    0 + ((b :: bs).length : ℤ).toNat ≤ (b :: bs ++ rp.nioBuf.drop (b :: bs).length).length := by
  simp

theorem nioRefill_read (rp : Nio) (hpos : ¬ 0 < rp.nioCnt) {r : ReadResult} {s : Sock}
    (h : rp.fd.read nioBufsize = (r, s)) : nioRefill rp =
      match r with
      | .got (b :: bs) =>
        (none,
          { fd := s, nioCnt := (b :: bs).length, nioBufptr := 0,
            nioBuf := b :: bs ++ rp.nioBuf.drop (b :: bs).length, inBuf := inBuf_filled rp b bs })
      | .got [] => (some 0, { rp with fd := s, nioCnt := 0, inBuf := rp.inBuf_neg })
      | .fail .eintr => nioRefill { rp with fd := s, nioCnt := -1, inBuf := rp.inBuf_neg }
      | .fail .connreset => (some 0, { rp with fd := s, nioCnt := -1, inBuf := rp.inBuf_neg })
      | .fail .other => (some (-1), { rp with fd := s, nioCnt := -1, inBuf := rp.inBuf_neg }) := by
  rw [nioRefill, if_neg hpos]
  split <;>
  · rename_i h'
    cases h.symm.trans h'
    rfl

theorem rioRefill_strict (rp : Rio) :
    nioRefill rp.strict = ((rioRefill rp).1, (rioRefill rp).2.strict) := by
  have hread := rp.fd.read_strict nioBufsize
  fun_induction rioRefill rp with
  | case1 rp hpos => rw [nioRefill, if_pos (by exact hpos)]
  | case2 rp hpos s h =>
    rw [h] at hread
    exact nioRefill_read rp.strict hpos hread
  | case3 rp hpos s h =>
    rw [h] at hread
    exact nioRefill_read rp.strict hpos hread
  | case4 rp hpos s h ih =>
    rw [h] at hread
    rw [nioRefill_read rp.strict hpos hread]
    exact ih (Sock.read_strict _ _)
  | case5 rp hpos s h =>
    rw [h] at hread
    exact nioRefill_read rp.strict hpos hread
  | case6 rp hpos b bs s h =>
    rw [h] at hread
    exact nioRefill_read rp.strict hpos hread

/-- **`rio_read` is `nio_read`** on a descriptor on which a reset is a failure. -/
theorem rioRead_strict (rp : Rio) (n : ℕ) :
    nioRead rp.strict n = ((rioRead rp n).1, (rioRead rp n).2.1, (rioRead rp n).2.2.strict) := by
  rw [nioRead, rioRefill_strict, rioRead]
  rcases rioRefill rp with ⟨_ | rc, rp'⟩ <;> rfl

/-! ## Lines -/

/-- The value that `nio_readlineb` returns, without the NUL that it counts behind a line that no newline
ends. -/
def Line.counted (l : Line) : ℤ := if newline ∉ l.usrbuf ∧ 0 < l.ret then l.ret - 1 else l.ret

theorem length_rioRead_one {rp rp' : Rio} {c : List UInt8} (h : rioRead rp 1 = (1, c, rp')) :
    ∃ b, c = [b] := by
  have hread := rioRead_strict rp 1
  rw [h] at hread
  cases hb : rp.strict.bytes with
  | nil =>
    obtain ⟨_, hnil, -, -⟩ := nioRead_nil hb 1
    have hret := congrArg Prod.fst (hnil.symm.trans hread)
    exact absurd hret (Ending.ret_ne_one _)
  | cons b bs =>
    obtain ⟨_, hone, -, -⟩ := nioRead_one hb
    have hc := congrArg (fun r => r.2.1) (hone.symm.trans hread)
    exact ⟨b, hc.symm⟩

theorem not_mem_terminated {s : List UInt8} (h : newline ∉ s) : newline ∉ s ++ [0] := by
  rw [List.mem_append, List.mem_singleton]
  exact fun hm => hm.elim h (by decide)

theorem rioReadlinebLoop_strict (rp : Rio) (maxlen n : ℕ) (usrbuf : List UInt8) (hn : 0 < n)
    (hu : newline ∉ usrbuf) :
    (rioReadlinebLoop rp maxlen n usrbuf).ret = (nioReadlinebLoop rp.strict maxlen n usrbuf).counted ∧
      (rioReadlinebLoop rp maxlen n usrbuf).usrbuf =
        (nioReadlinebLoop rp.strict maxlen n usrbuf).usrbuf ∧
      (rioReadlinebLoop rp maxlen n usrbuf).rp.strict =
        (nioReadlinebLoop rp.strict maxlen n usrbuf).rp := by
  have hread := rioRead_strict rp 1
  fun_induction rioReadlinebLoop rp maxlen n usrbuf with
  | case1 rp n usrbuf hlt rp' h =>
    rw [h] at hread
    rw [nioReadlinebLoop, if_pos hlt, hread]
    simp [Line.counted]
  | case2 rp n usrbuf hlt c rp' hc h ih =>
    obtain ⟨b, rfl⟩ := length_rioRead_one h
    have hb : newline ∉ usrbuf ++ [b] := by
      rw [List.mem_append, List.mem_singleton]
      exact fun hm => hm.elim hu fun e => hc (by rw [e])
    rw [h] at hread
    rw [nioReadlinebLoop, if_pos hlt, hread]
    simp only [if_true, if_neg hc]
    exact ih (Nat.succ_pos n) hb (rioRead_strict rp' 1)
  | case3 rp usrbuf c rp' hlt h _ =>
    rw [h] at hread
    rw [nioReadlinebLoop, if_pos hlt, hread]
    simp [Line.counted]
  | case4 rp n usrbuf hlt c rp' hn1 h _ =>
    rw [h] at hread
    rw [nioReadlinebLoop, if_pos hlt, hread]
    have h01 : ¬ (0 : ℤ) = 1 := by decide
    simp only [if_neg h01, if_neg hn1, if_true, Line.counted]
    rw [if_pos ⟨not_mem_terminated hu, by omega⟩]
    exact ⟨rfl, trivial, trivial⟩
  | case5 rp n usrbuf hlt rc c rp' h h1 h0 =>
    rw [h] at hread
    rw [nioReadlinebLoop, if_pos hlt, hread]
    simp [Line.counted, h1, h0]
  | case6 rp n usrbuf hlt =>
    rw [nioReadlinebLoop, if_neg hlt]
    simp only [Line.counted]
    rw [if_pos ⟨not_mem_terminated hu, by omega⟩]
    exact ⟨rfl, trivial, trivial⟩

theorem mem_lineStored {line : List UInt8} {full : Prop} [Decidable full] {e : Ending} :
    newline ∈ lineStored line full e ↔ newline ∈ line := by
  rw [lineStored]
  split_ifs
  · simp [(by decide : newline ≠ 0)]
  · rfl

theorem Ending.ret_strict (e : Ending) : e.strict.ret = if e = .eof then 0 else -1 := by
  cases e <;> rfl

/-- The value that `rio_readlineb` returns for the line `line`, where `full` tells that the line is as
long as the buffer permits. -/
def rioLineRet (line : List UInt8) (full : Prop) [Decidable full] (e : Ending) : ℤ :=
  if newline ∈ line ∨ full ∨ e = .eof then line.length else -1

theorem counted_lineRet (line : List UInt8) (full : Prop) [Decidable full] (e : Ending) (rp : Nio) :
    (Line.mk (lineRet line full e.strict) (lineStored line full e.strict) rp).counted =
      rioLineRet line full e := by
  simp only [Line.counted, mem_lineStored, lineRet, Ending.ret_strict, rioLineRet]
  by_cases hm : newline ∈ line
  · simp [hm]
  · by_cases hfull : full
    · simp [hm, hfull]
    · by_cases he : e = .eof
      · by_cases hnil : line = []
        · simp [hfull, he, hnil]
        · simp [hm, hfull, he, hnil]
      · simp [hm, hfull, he]

theorem rioReadlineb_spec (rp : Rio) (k : ℕ) :
    ∃ rp', rioReadlineb rp (k + 1) =
        ⟨rioLineRet (takeLine newline k rp.bytes) ((takeLine newline k rp.bytes).length = k)
            rp.fd.ending,
          lineStored (takeLine newline k rp.bytes) ((takeLine newline k rp.bytes).length = k)
            rp.fd.ending.strict, rp'⟩ ∧
      rp'.bytes = dropLine newline k rp.bytes ∧ rp'.fd.ending.strict = rp.fd.ending.strict := by
  obtain ⟨nio, hnio, hbytes, hend⟩ := nioReadlineb_spec rp.strict k
  obtain ⟨hret, husr, hrp⟩ := rioReadlinebLoop_strict rp (k + 1) 1 [] Nat.one_pos List.not_mem_nil
  have hloop : nioReadlinebLoop rp.strict (k + 1) 1 [] = nioReadlineb rp.strict (k + 1) := rfl
  rw [hloop, hnio] at hret husr hrp
  have hret := hret.trans (counted_lineRet _ _ rp.fd.ending nio)
  refine ⟨(rioReadlineb rp (k + 1)).rp, ?_, ?_, ?_⟩
  · calc rioReadlineb rp (k + 1)
        = ⟨(rioReadlinebLoop rp (k + 1) 1 []).ret, (rioReadlinebLoop rp (k + 1) 1 []).usrbuf,
            (rioReadlineb rp (k + 1)).rp⟩ := rfl
      _ = _ := by
        rw [hret, husr]
        rfl
  · exact (congrArg Nio.bytes hrp).trans hbytes
  · exact (congrArg (fun rp => rp.fd.ending) hrp).trans hend

theorem Ending.strict_ret_eq_zero {e : Ending} : e.strict.ret = 0 ↔ e = .eof := by
  cases e <;> decide

theorem Ending.eof_of_strict {e : Ending} (h : e.strict = Ending.eof.strict) : e = .eof := by
  cases e <;> cases h
  rfl

theorem rioReadlineb_of_nonneg {rp : Rio} {k : ℕ} (h : 0 ≤ (rioReadlineb rp (k + 1)).ret) :
    (rioReadlineb rp (k + 1)).ret = (takeLine newline k rp.bytes).length ∧
      (0 < (rioReadlineb rp (k + 1)).ret →
        (rioReadlineb rp (k + 1)).usrbuf = takeLine newline k rp.bytes ++ [0]) := by
  obtain ⟨rp', hread, -, -⟩ := rioReadlineb_spec rp k
  rw [hread] at h ⊢
  generalize takeLine newline k rp.bytes = line at h
  simp only [rioLineRet, lineStored, Ending.strict_ret_eq_zero] at h ⊢
  by_cases hc : newline ∈ line ∨ line.length = k ∨ rp.fd.ending = .eof
  · rw [if_pos hc]
    refine ⟨rfl, fun hpos => if_pos ?_⟩
    have hne : line ≠ [] := List.length_pos_iff.mp (by exact_mod_cast hpos)
    exact hc.imp_right fun h => h.imp_right fun he => ⟨hne, he⟩
  · rw [if_neg hc] at h
    exact absurd h (by decide)

theorem rioReadlineb_neg_iff (rp : Rio) (k : ℕ) :
    (rioReadlineb rp (k + 1)).ret < 0 ↔ newline ∉ takeLine newline k rp.bytes ∧
      (takeLine newline k rp.bytes).length < k ∧ rp.fd.ending ≠ .eof := by
  obtain ⟨rp', hread, -, -⟩ := rioReadlineb_spec rp k
  have hlen := length_takeLine_le newline k rp.bytes
  rw [hread]
  generalize takeLine newline k rp.bytes = line at hlen
  simp only [rioLineRet]
  by_cases hc : newline ∈ line ∨ line.length = k ∨ rp.fd.ending = .eof
  · rw [if_pos hc]
    refine iff_of_false (by omega) ?_
    rintro ⟨hm, hlt, he⟩
    rcases hc with h | h | h
    · exact hm h
    · omega
    · exact he h
  · rw [if_neg hc]
    rw [not_or, not_or] at hc
    exact iff_of_true (by decide) ⟨hc.1, by omega, hc.2.2⟩

/-- **`rio_readlineb` returns the number of bytes of the line that it stores**, behind which it writes a
NUL if there are any, for every stream and however `read` cuts it. It fails exactly when the data ends
before the line does, and not with the end of the file. -/
theorem rioReadlineb_counts (rp : Rio) (k : ℕ) :
    (0 ≤ (rioReadlineb rp (k + 1)).ret →
      (rioReadlineb rp (k + 1)).ret = (takeLine newline k rp.bytes).length ∧
        (0 < (rioReadlineb rp (k + 1)).ret →
          (rioReadlineb rp (k + 1)).usrbuf = takeLine newline k rp.bytes ++ [0])) ∧
      ((rioReadlineb rp (k + 1)).ret < 0 ↔ newline ∉ takeLine newline k rp.bytes ∧
        (takeLine newline k rp.bytes).length < k ∧ rp.fd.ending ≠ .eof) ∧
      (rioReadlineb rp (k + 1)).rp.bytes = dropLine newline k rp.bytes := by
  obtain ⟨rp', hread, hbytes, -⟩ := rioReadlineb_spec rp k
  refine ⟨rioReadlineb_of_nonneg, rioReadlineb_neg_iff rp k, ?_⟩
  rw [hread]
  exact hbytes

/-- **`nio_readlineb` returns and stores the same as `rio_readlineb` exactly when** a newline ends the
line, or the data ends before the line is full, by another failure than a reset or by the end of the file
with no byte stored. -/
theorem rioReadlineb_agrees_iff (rp : Nio) (k : ℕ) :
    ((nioReadlineb rp (k + 1)).ret = (rioReadlineb rp (k + 1)).ret ∧
        (nioReadlineb rp (k + 1)).usrbuf = (rioReadlineb rp (k + 1)).usrbuf) ↔
      newline ∈ takeLine newline k rp.bytes ∨ ((takeLine newline k rp.bytes).length < k ∧
        (rp.fd.ending = .error ∨ (rp.fd.ending = .eof ∧ takeLine newline k rp.bytes = []))) := by
  obtain ⟨rp₁, h₁, -, -⟩ := nioReadlineb_spec rp k
  obtain ⟨rp₂, h₂, -, -⟩ := rioReadlineb_spec rp k
  have hlen := length_takeLine_le newline k rp.bytes
  rw [h₁, h₂]
  generalize takeLine newline k rp.bytes = line at hlen
  simp only [lineRet, rioLineRet, lineStored]
  by_cases hm : newline ∈ line
  · simp [hm]
  · by_cases hfull : line.length = k
    · simp [hm, hfull]
    · have hlt : line.length < k := by omega
      cases he : rp.fd.ending <;> by_cases hnil : line = [] <;>
        simp_all [Ending.ret, Ending.strict]

/-! ## Blocks -/

theorem nioReadnLoop_read {fd : Sock} {n nleft : ℕ} {usrbuf : List UInt8} (hpos : 0 < nleft)
    {r : ReadResult} {s : Sock} (h : fd.read nleft = (r, s)) : nioReadnLoop fd n nleft usrbuf =
      match r with
      | .fail .eintr => nioReadnLoop s n nleft usrbuf
      | .fail .connreset => ⟨0, usrbuf, s⟩
      | .fail .other => ⟨-1, usrbuf, s⟩
      | .got [] => ⟨(n - nleft : ℕ), usrbuf, s⟩
      | .got (b :: bs) => nioReadnLoop s n (nleft - (b :: bs).length) (usrbuf ++ (b :: bs)) := by
  rw [nioReadnLoop, if_pos hpos]
  split <;>
  · rename_i h'
    cases h.symm.trans h'
    rfl

theorem rioReadnLoop_strict (fd : Sock) (n nleft : ℕ) (usrbuf : List UInt8) :
    nioReadnLoop fd.strict n nleft usrbuf =
      ⟨(rioReadnLoop fd n nleft usrbuf).ret, (rioReadnLoop fd n nleft usrbuf).usrbuf,
        (rioReadnLoop fd n nleft usrbuf).src.strict⟩ := by
  have hread := fd.read_strict nleft
  fun_induction rioReadnLoop fd n nleft usrbuf with
  | case1 fd nleft usrbuf hpos s h ih =>
    rw [h] at hread
    exact (nioReadnLoop_read hpos hread).trans (ih (Sock.read_strict _ _))
  | case2 fd nleft usrbuf hpos s h =>
    rw [h] at hread
    exact nioReadnLoop_read hpos hread
  | case3 fd nleft usrbuf hpos s h =>
    rw [h] at hread
    exact nioReadnLoop_read hpos hread
  | case4 fd nleft usrbuf hpos s h =>
    rw [h] at hread
    exact nioReadnLoop_read hpos hread
  | case5 fd nleft usrbuf hpos b bs s h ih =>
    rw [h] at hread
    exact (nioReadnLoop_read hpos hread).trans (ih (Sock.read_strict _ _))
  | case6 fd nleft usrbuf hpos => rw [nioReadnLoop, if_neg hpos]

theorem rioReadnbLoop_strict (rp : Rio) (n nleft : ℕ) (usrbuf : List UInt8) :
    nioReadnbLoop rp.strict n nleft usrbuf =
      ⟨(rioReadnbLoop rp n nleft usrbuf).ret, (rioReadnbLoop rp n nleft usrbuf).usrbuf,
        (rioReadnbLoop rp n nleft usrbuf).src.strict⟩ := by
  have hread := rioRead_strict rp nleft
  fun_induction rioReadnbLoop rp n nleft usrbuf with
  | case1 rp nleft usrbuf hpos nread bs rp' h hneg =>
    rw [h] at hread
    rw [nioReadnbLoop, if_pos hpos, hread]
    simp only [if_pos hneg, dif_neg (nioErrno_ne_eintr rp.strict)]
  | case2 rp nleft usrbuf hpos bs rp' h hneg =>
    rw [h] at hread
    rw [nioReadnbLoop, if_pos hpos, hread]
    simp only [if_neg hneg, if_true]
  | case3 rp nleft usrbuf hpos nread bs rp' h hneg hne ih =>
    rw [h] at hread
    rw [nioReadnbLoop, if_pos hpos, hread]
    simp only [if_neg hneg, if_neg hne]
    exact ih (rioRead_strict _ _)
  | case4 rp nleft usrbuf hpos => rw [nioReadnbLoop, if_neg hpos]

/-- The value that both return when the data ends after `k` bytes. -/
def Ending.rioRet : Ending → ℕ → ℤ
  | .eof, k => k
  | .connreset, _ => -1
  | .error, _ => -1

theorem Ending.rioRet_eq (e : Ending) (k : ℕ) :
    e.strict.readnRet k = e.rioRet k ∧ e.strict.readnbRet k = e.rioRet k := by
  cases e <;> exact ⟨rfl, rfl⟩

theorem Ending.rioRet_neg_iff {e : Ending} {k : ℕ} : e.rioRet k < 0 ↔ e ≠ .eof := by
  cases e <;> simp [rioRet]

theorem Ending.rioRet_of_nonneg {e : Ending} {k : ℕ} (h : 0 ≤ e.rioRet k) : e.rioRet k = k := by
  cases e with
  | eof => rfl
  | _ => exact absurd h (by simp [rioRet])

/-- **`rio_readn`** stores the first `n` bytes to come, or all of them. -/
theorem rioReadn_spec (fd : Sock) (n : ℕ) :
    (rioReadn fd n).ret = (if n ≤ fd.bytes.length then (n : ℤ) else fd.ending.rioRet fd.bytes.length) ∧
      (rioReadn fd n).usrbuf = fd.bytes.take n ∧ (rioReadn fd n).src.bytes = fd.bytes.drop n := by
  obtain ⟨hret, husr, hsrc⟩ := nioReadn_spec fd.strict n
  rw [nioReadn, rioReadnLoop_strict] at hret husr hsrc
  simp only [Sock.bytes_strict] at hret husr hsrc
  have hend : fd.strict.ending.readnRet fd.bytes.length = fd.ending.rioRet fd.bytes.length :=
    (Ending.rioRet_eq _ _).1
  rw [hend] at hret
  exact ⟨hret, husr, hsrc⟩

/-- **`rio_readnb`** does so too. -/
theorem rioReadnb_spec (rp : Rio) (n : ℕ) :
    (rioReadnb rp n).ret =
        (if n ≤ rp.bytes.length then (n : ℤ) else rp.fd.ending.rioRet rp.bytes.length) ∧
      (rioReadnb rp n).usrbuf = rp.bytes.take n ∧ (rioReadnb rp n).src.bytes = rp.bytes.drop n := by
  obtain ⟨hret, husr, hsrc⟩ := nioReadnb_spec rp.strict n
  rw [nioReadnb, rioReadnbLoop_strict] at hret husr hsrc
  simp only [Nio.bytes_strict] at hret husr hsrc
  have hend : rp.strict.fd.ending.readnbRet rp.bytes.length = rp.fd.ending.rioRet rp.bytes.length :=
    (Ending.rioRet_eq _ _).2
  rw [hend] at hret
  exact ⟨hret, husr, hsrc⟩

/-- **The reads of a block agree**, however `read` cuts the stream for either of them and however it ends:
they return the same value, `-1` exactly when the data ends too early and not with the end of the file,
store the same bytes, and leave the same bytes to come. -/
theorem rioReadn_agrees (fd fd' : Sock) (rioBuf : Buf nioBufsize) (n : ℕ)
    (hbytes : fd'.bytes = fd.bytes) (hend : fd'.ending = fd.ending) :
    BlocksAgree fd.bytes n (rioReadn fd n) (rioReadnb (rioReadinitb rioBuf fd') n) ∧
      (rioReadn fd n).src.bytes = (rioReadnb (rioReadinitb rioBuf fd') n).src.bytes ∧
      ((rioReadn fd n).ret < 0 ↔ fd.bytes.length < n ∧ fd.ending ≠ .eof) := by
  obtain ⟨hret, husr, hsrc⟩ := rioReadn_spec fd n
  obtain ⟨hretb, husrb, hsrcb⟩ := rioReadnb_spec (rioReadinitb rioBuf fd') n
  have hinit : (rioReadinitb rioBuf fd').bytes = fd.bytes := (nioReadinitb_bytes rioBuf fd').trans hbytes
  have hinit' : (rioReadinitb rioBuf fd').fd.ending = fd.ending := hend
  rw [hinit, hinit'] at hretb
  rw [hinit] at husrb hsrcb
  refine ⟨⟨hret.trans hretb.symm, fun hpos => ⟨?_, husr, husrb⟩⟩, hsrc.trans hsrcb.symm, ?_⟩
  · rw [hret] at hpos ⊢
    split_ifs at hpos ⊢ with hn
    · rw [Nat.min_eq_left hn]
    · rw [Nat.min_eq_right (Nat.le_of_not_le hn)]
      exact Ending.rioRet_of_nonneg hpos
  · rw [hret]
    split_ifs with hn
    · exact iff_of_false (by omega) (by omega)
    · rw [Ending.rioRet_neg_iff, iff_and_self]
      exact fun _ => Nat.lt_of_not_le hn

/-- One byte and a reset, in two chunks and in one, when two bytes are asked for. -/
theorem rioReadn_agrees_reset :
    (rioReadn ⟨[.data 97 []], .connreset⟩ 2).ret = -1 ∧
      (rioReadnb (rioReadinitb (Buf.zero nioBufsize) ⟨[.eintr, .data 97 []], .connreset⟩) 2).ret = -1 := by
  obtain ⟨⟨hsame, -⟩, -, hfail⟩ := rioReadn_agrees ⟨[.data 97 []], .connreset⟩
    ⟨[.eintr, .data 97 []], .connreset⟩ (Buf.zero nioBufsize) 2 rfl rfl
  have hret := (rioReadn_spec ⟨[.data 97 []], .connreset⟩ 2).1
  exact ⟨hret, hsame ▸ hret⟩

/-! ## Writes -/

/-- The value that `rio_writen` returns at a result, if it returns there. -/
def WriteEv.rioRet : WriteEv → Option ℤ
  | .accepts _ => none
  | .fails .eintr => none
  | .fails .epipe => some (-1)
  | .fails .other => some (-1)

theorem WriteEv.rioRet_eq_some {ev : WriteEv} {v : ℤ} (h : ev.rioRet = some v) :
    v = -1 ∧ ev.count = 0 ∧ (ev = .fails .epipe ∨ ev = .fails .other) := by
  rcases ev with k | (_ | _ | _) <;> cases h
  · exact ⟨rfl, rfl, .inl rfl⟩
  · exact ⟨rfl, rfl, .inr rfl⟩

theorem rioWritenLoop_uses (usrbuf : List UInt8) (evs : List WriteEv) (b : ℕ) :
    ∃ used, (rioWritenLoop usrbuf usrbuf.length (usrbuf.length - b) (min b usrbuf.length) (usrbuf.take b)
      evs).Uses WriteEv.rioRet usrbuf b evs used := by
  induction evs generalizing b with
  | nil =>
    rw [rioWritenLoop]
    split_ifs with hpos
    · exact ⟨[], .nil_used (.waiting nofun (Nat.lt_of_sub_pos hpos) rfl)⟩
    · exact ⟨[], .nil_used (.all nofun (by omega))⟩
  | cons ev evs ih =>
    rw [rioWritenLoop]
    split_ifs with hpos
    · have hb : b < usrbuf.length := Nat.lt_of_sub_pos hpos
      rcases ev with k | (_ | _ | _)
      · obtain ⟨used, hused⟩ := ih (b + (k + 1))
        obtain ⟨hleft, hptr, htake⟩ := write_more hb k
        simp only [WriteEv.write]
        rw [hleft, hptr, htake]
        exact ⟨_, hused.cons hb rfl⟩
      · obtain ⟨used, hused⟩ := ih b
        exact ⟨_, hused.cons (v := .fails .eintr) hb rfl⟩
      · exact ⟨_, .last hb rfl rfl⟩
      · exact ⟨_, .last hb rfl rfl⟩
    · exact ⟨[], .nil_used (.all nofun (by omega))⟩

theorem rioWriten_uses (usrbuf : List UInt8) (evs : List WriteEv) :
    ∃ used, (rioWriten usrbuf evs).Uses WriteEv.rioRet usrbuf 0 evs used := by
  have h := rioWritenLoop_uses usrbuf evs 0
  rwa [Nat.zero_min, Nat.sub_zero, List.take_zero] at h

theorem Written.Uses.rio_cases {usrbuf : List UInt8} {evs used : List WriteEv} {r : Written}
    (h : r.Uses WriteEv.rioRet usrbuf 0 evs used) :
    (r.ret = some (usrbuf.length : ℤ) ∧ r.accepted = usrbuf) ∨
      (r.ret = some (-1) ∧ r.accepted ≠ usrbuf ∧ ∃ ev ∈ used, ev = .fails .epipe ∨ ev = .fails .other) ∨
      (r.ret = none ∧ r.rest = []) := by
  have hacc := h.accepted_eq
  have hasked := h.asked
  have hlen := h.length_accepted
  have hstops := h.stops
  rw [Nat.zero_add] at hacc
  generalize r.ret = v at hstops
  cases hstops with
  | all _ hall =>
    rw [Nat.zero_add] at hall
    exact .inl ⟨rfl, hacc.trans (List.take_of_length_le hall)⟩
  | @failed u ev v hused _ hret =>
    obtain ⟨rfl, hcount, hev⟩ := WriteEv.rioRet_eq_some hret
    refine .inr (.inl ⟨rfl, fun he => ?_, ev, ?_, hev⟩)
    · have hlt := hasked u ev (hused ▸ List.prefix_refl _)
      rw [he, hused, counted_append, counted_cons, hcount] at hlen
      have hnil : counted [] = 0 := rfl
      omega
    · rw [hused]
      exact List.mem_append_right _ (List.mem_singleton_self ev)
  | waiting _ _ hrest => exact .inr (.inr ⟨rfl, hrest⟩)

/-- **`rio_writen` uses the results one by one**, each while bytes are left; the bytes that they have
accepted are a prefix of the buffer. It returns `n` if that is all of it, `-1` at a failure while some are
left, and waits only for a result that has not come yet, under every schedule of short writes and
failures. -/
theorem rioWriten_delivers (usrbuf : List UInt8) (evs : List WriteEv) :
    (∃ used, (rioWriten usrbuf evs).Uses WriteEv.rioRet usrbuf 0 evs used) ∧
      (rioWriten usrbuf evs).accepted <+: usrbuf ∧
      ((rioWriten usrbuf evs).ret = some (usrbuf.length : ℤ) ↔
        (rioWriten usrbuf evs).ret ≠ none ∧ (rioWriten usrbuf evs).accepted = usrbuf) ∧
      ((rioWriten usrbuf evs).ret = some (-1) ↔
        (rioWriten usrbuf evs).ret ≠ none ∧ (rioWriten usrbuf evs).accepted ≠ usrbuf) := by
  obtain ⟨used, h⟩ := rioWriten_uses usrbuf evs
  refine ⟨⟨used, h⟩, h.accepted_eq ▸ List.take_prefix _ _, ?_⟩
  rcases h.rio_cases with ⟨hret, hacc⟩ | ⟨hret, hacc, -⟩ | ⟨hret, -⟩
  · simp [hret, hacc]
  · simp [hret, hacc, (some_length_ne usrbuf).symm]
  · simp [hret]

end MiniProxy
