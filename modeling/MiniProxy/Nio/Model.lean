import Mathlib.Algebra.Ring.Int.Defs
import Mathlib.Algebra.Ring.Nat
import Mathlib.Tactic.SplitIfs
import MiniProxy.Lib.Buf

/-!
# The nio package

`nio_t` buffers the reads of one descriptor; `nio_readlineb` takes a line from it. What a descriptor
still has to give is a list of `read` results: chunks of data of any size and `EINTR` failures in any
order, then an end that lasts.

* `Sock`, `Sock.read`: a descriptor and one `read` on it; `Sock.bytes`: the data still to come;
* `maxline`, `sizeT`: the size of the callers' lines, and their `size_t n`;
* `Nio`, `nioReadinitb`: the record and its initial value; `Nio.unread`: the unread bytes;
* `nioRefill`, `nioRead`, `nioReadlineb`: the functions, and `Line`, the result of the last.
-/

namespace MiniProxy

open Clib

/-- `NIO_BUFSIZE`. -/
def nioBufsize : ℕ := 8192

/-- `MAXLINE`. -/
def maxline : ℕ := 8192

/-- `'\n'`. -/
abbrev newline : UInt8 := 10

/-! ## Descriptors -/

/-- A result that `read` has still to give: bytes that have arrived, or a failure with `EINTR`. -/
inductive ReadEv where
  | data (b : UInt8) (bs : List UInt8)
  | eintr
  deriving DecidableEq

/-- What every `read` gives once the data is used up. -/
inductive Ending where
  | eof
  | connreset
  | error
  deriving DecidableEq

/-- The reading side of a descriptor. -/
structure Sock where
  evs : List ReadEv
  ending : Ending
  deriving DecidableEq

/-- The values of `errno` that the callers of `read` tell apart. -/
inductive Errno where
  | eintr
  | connreset
  | other
  deriving DecidableEq

/-- What one `read` returns: the bytes, none of them at the end of the file, or `-1` and `errno`. -/
inductive ReadResult where
  | got (bs : List UInt8)
  | fail (e : Errno)

/-- The data that the list of results holds. -/
def evBytes : List ReadEv → List UInt8
  | [] => []
  | .data b bs :: evs => b :: bs ++ evBytes evs
  | .eintr :: evs => evBytes evs

namespace Sock

/-- The data still to come. -/
def bytes (s : Sock) : List UInt8 := evBytes s.evs

/-- `read` of at most `n` bytes; of a longer chunk the rest stays. -/
def read (s : Sock) (n : ℕ) : ReadResult × Sock :=
  match s.evs with
  | [] =>
    match s.ending with
    | .eof => (.got [], s)
    | .connreset => (.fail .connreset, s)
    | .error => (.fail .other, s)
  | .eintr :: evs => (.fail .eintr, { s with evs := evs })
  | .data b bs :: evs =>
    match (b :: bs).drop n with
    | [] => (.got (b :: bs), { s with evs := evs })
    | c :: cs => (.got ((b :: bs).take n), { s with evs := .data c cs :: evs })

theorem read_eintr {s s' : Sock} {n : ℕ} (h : s.read n = (.fail .eintr, s')) :
    s'.evs.length < s.evs.length := by
  obtain ⟨evs, ending⟩ := s
  simp only [read] at h
  split at h
  · cases ending <;> simp at h
  · obtain ⟨-, rfl⟩ := Prod.mk.inj h
    exact Nat.lt_succ_self _
  · split at h <;> simp at h

end Sock

/-! ## The buffered reader -/

/-- `nio_t`. While `nio_cnt` is positive the unread bytes lie inside `nio_buf`. -/
structure Nio where
  fd : Sock
  nioCnt : ℤ
  nioBufptr : ℕ
  nioBuf : List UInt8
  inBuf : nioBufptr + nioCnt.toNat ≤ nioBuf.length

/-- `nio_readinitb` on a record whose buffer holds `nioBuf`. -/
def nioReadinitb (nioBuf : Buf nioBufsize) (fd : Sock) : Nio :=
  { fd := fd, nioCnt := 0, nioBufptr := 0, nioBuf := nioBuf.bytes, inBuf := Nat.zero_le _ }

/-- The loop of `nio_read` that refills an empty buffer: `some rc` when `nio_read` returns `rc` from
it. -/
def nioRefill (rp : Nio) : Option ℤ × Nio :=
  if 0 < rp.nioCnt then (none, rp) else
    have hneg : rp.nioBufptr + (-1 : ℤ).toNat ≤ rp.nioBuf.length := by
      have := rp.inBuf
      omega
    match h : rp.fd.read nioBufsize with
    | (.fail .connreset, s) => (some 0, { rp with fd := s, nioCnt := -1, inBuf := hneg })
    | (.fail .other, s) => (some (-1), { rp with fd := s, nioCnt := -1, inBuf := hneg })
    | (.fail .eintr, s) => nioRefill { rp with fd := s, nioCnt := -1, inBuf := hneg }
    | (.got [], s) => (some 0, { rp with fd := s, nioCnt := 0, inBuf := hneg })
    | (.got (b :: bs), s) =>
      (none,
        { fd := s, nioCnt := (b :: bs).length, nioBufptr := 0,
          nioBuf := b :: bs ++ rp.nioBuf.drop (b :: bs).length, inBuf := by simp })
termination_by rp.fd.evs.length
decreasing_by exact Sock.read_eintr h

/-- `nio_read`: the value returned, the bytes copied to `usrbuf`, and the record left behind. -/
def nioRead (rp : Nio) (n : ℕ) : ℤ × List UInt8 × Nio :=
  match nioRefill rp with
  | (some rc, rp) => (rc, [], rp)
  | (none, rp) =>
    let cnt : ℤ := if rp.nioCnt < n then rp.nioCnt else n
    (cnt, (rp.nioBuf.drop rp.nioBufptr).take cnt.toNat,
      { rp with
        nioBufptr := rp.nioBufptr + cnt.toNat
        nioCnt := rp.nioCnt - cnt
        inBuf := by
          have := rp.inBuf
          simp only [cnt]
          split_ifs <;> omega })

/-- What `nio_readlineb` leaves behind: the value returned, the bytes stored from `usrbuf[0]` on, and
the record. -/
structure Line where
  ret : ℤ
  usrbuf : List UInt8
  rp : Nio

/-- The loop of `nio_readlineb`, which has stored `usrbuf` so far. Its `n` is an `int`: this is the loop for
`maxlen < 2 ^ 31`. -/
def nioReadlinebLoop (rp : Nio) (maxlen n : ℕ) (usrbuf : List UInt8) : Line :=
  if n < maxlen then
    match nioRead rp 1 with
    | (rc, c, rp) =>
      if rc = 1 then
        if c = [newline] then ⟨n, usrbuf ++ c ++ [0], rp⟩
        else nioReadlinebLoop rp maxlen (n + 1) (usrbuf ++ c)
      else if rc = 0 then
        if n = 1 then ⟨0, usrbuf, rp⟩ else ⟨n, usrbuf ++ [0], rp⟩
      else ⟨-1, usrbuf, rp⟩
  else ⟨n, usrbuf ++ [0], rp⟩
termination_by maxlen - n

/-- `nio_readlineb`. -/
def nioReadlineb (rp : Nio) (maxlen : ℕ) : Line := nioReadlinebLoop rp maxlen 1 []

/-- The value of a signed number as a `size_t`. -/
def sizeT (x : ℤ) : ℕ := (x % 2 ^ 64).toNat

theorem sizeT_natCast {n : ℕ} (h : n < 2 ^ 64) : sizeT n = n := by
  simp only [sizeT]
  omega

/-- The unread bytes of the internal buffer. -/
def Nio.unread (rp : Nio) : List UInt8 := (rp.nioBuf.drop rp.nioBufptr).take rp.nioCnt.toNat

/-- All the bytes that reads from `rp` have still to give. -/
def Nio.bytes (rp : Nio) : List UInt8 := rp.unread ++ rp.fd.bytes

end MiniProxy
