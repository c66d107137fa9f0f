import MiniProxy.Nio.Readline

/-!
# Reads of a block

`nio_readn` fills a buffer from a descriptor, `nio_readnb` from a record. Both repeat a read of what is
missing until nothing is missing or the data ends; they differ in what they return when the connection
is reset before the buffer is full.

* `Block`, `nioReadn`, `nioErrno`, `nioReadnb`: the functions;
* `Ending.readnRet`, `Ending.readnbRet`: the value that each returns at the end of the data;
* `nioReadn_spec`, `nioReadnb_spec`: both store the first `n` bytes to come, and leave the others;
* **`nioReadn_agrees_iff`**: they agree unless a reset follows some of the bytes but not all.
-/

namespace MiniProxy

open Clib

/-! ## The functions -/

/-- What a read of a block leaves behind: the value returned, the bytes stored from `usrbuf[0]` on, and
what it read from. -/
structure Block (α : Type) where
  ret : ℤ
  usrbuf : List UInt8
  src : α

theorem Sock.length_le_of_read_got {s s' : Sock} {n : ℕ} {bs : List UInt8}
    (h : s.read n = (.got bs, s')) : bs.length ≤ n := by
  rcases s with ⟨_ | ⟨b, ds⟩ | _, ending⟩
  · cases ending <;> cases h
    exact Nat.zero_le n
  · simp only [read] at h
    split at h
    · rename_i hd
      cases h
      exact List.drop_eq_nil_iff.mp hd
    · cases h
      exact List.length_take_le n _
  · cases h

/-- The loop of `nio_readn`, which has stored `usrbuf` so far. -/
def nioReadnLoop (fd : Sock) (n nleft : ℕ) (usrbuf : List UInt8) : Block Sock :=
  if 0 < nleft then
    match h : fd.read nleft with
    | (.fail .eintr, fd) => nioReadnLoop fd n nleft usrbuf
    | (.fail .connreset, fd) => ⟨0, usrbuf, fd⟩
    | (.fail .other, fd) => ⟨-1, usrbuf, fd⟩
    | (.got [], fd) => ⟨(n - nleft : ℕ), usrbuf, fd⟩
    | (.got (b :: bs), fd) =>
      nioReadnLoop fd n (nleft - (b :: bs).length) (usrbuf ++ (b :: bs))
  else ⟨(n - nleft : ℕ), usrbuf, fd⟩
termination_by (nleft, fd.evs.length)
decreasing_by
  · exact Prod.Lex.right _ (Sock.read_eintr h)
  · exact Prod.Lex.left _ _ (Nat.sub_lt ‹_› (Nat.succ_pos _))

/-- `nio_readn`. -/
def nioReadn (fd : Sock) (n : ℕ) : Block Sock := nioReadnLoop fd n n []

theorem Nio.inBuf_neg (rp : Nio) : rp.nioBufptr + (-1 : ℤ).toNat ≤ rp.nioBuf.length :=
  (Nat.le_add_right _ _).trans rp.inBuf

/-- The `errno` with which `nio_read` returns `-1`. -/
def nioErrno (rp : Nio) : Option Errno :=
  if 0 < rp.nioCnt then none else
    match _ : rp.fd.read nioBufsize with
    | (.fail .connreset, _) => none
    | (.fail .other, _) => some .other
    | (.fail .eintr, s) => nioErrno { rp with fd := s, nioCnt := -1, inBuf := rp.inBuf_neg }
    | (.got _, _) => none
termination_by rp.fd.evs.length
decreasing_by exact Sock.read_eintr ‹_›

theorem nioErrno_ne_eintr (rp : Nio) : nioErrno rp ≠ some .eintr := by
  fun_induction nioErrno rp <;> simp_all

/-- The loop of `nio_readnb`, which has stored `usrbuf` so far. -/
def nioReadnbLoop (rp : Nio) (n nleft : ℕ) (usrbuf : List UInt8) : Block Nio :=
  if 0 < nleft then
    match nioRead rp nleft with
    | (nread, bs, rp') =>
      if nread < 0 then
        if h : nioErrno rp = some .eintr then nioReadnbLoop rp' n nleft usrbuf
        else ⟨-1, usrbuf, rp'⟩
      else if nread = 0 then ⟨(n - nleft : ℕ), usrbuf, rp'⟩
      else nioReadnbLoop rp' n (nleft - nread.toNat) (usrbuf ++ bs)
  else ⟨(n - nleft : ℕ), usrbuf, rp⟩
termination_by nleft
decreasing_by
  · exact absurd h (nioErrno_ne_eintr rp)
  · omega

/-- `nio_readnb`. -/
def nioReadnb (rp : Nio) (n : ℕ) : Block Nio := nioReadnbLoop rp n n []

/-! ## What is stored -/

/-- `r` is what a loop leaves that has `nleft` of `n` bytes to store behind `usrbuf`, when `bytes` are
to come and `atEnd` is its value at the end of the data after so many bytes. -/
structure Block.Fills {α : Type} (left : α → List UInt8) (atEnd : ℕ → ℤ) (n nleft : ℕ)
    (bytes usrbuf : List UInt8) (r : Block α) : Prop where
  ret : r.ret = if nleft ≤ bytes.length then (n : ℤ) else atEnd (n - nleft + bytes.length)
  usrbuf : r.usrbuf = usrbuf ++ bytes.take nleft
  left : left r.src = bytes.drop nleft

namespace Block.Fills

variable {α : Type} {left : α → List UInt8} {atEnd : ℕ → ℤ} {n nleft : ℕ}
  {bytes usrbuf : List UInt8}

theorem full {src : α} (hsrc : left src = bytes) :
    Fills left atEnd n 0 bytes usrbuf ⟨(n - 0 : ℕ), usrbuf, src⟩ :=
  ⟨by simp, by simp, by simpa using hsrc⟩

theorem ended {src : α} (hn : 0 < nleft) (hsrc : left src = []) {ret : ℤ}
    (hret : ret = atEnd (n - nleft)) : Fills left atEnd n nleft [] usrbuf ⟨ret, usrbuf, src⟩ where
  ret := by
    rw [List.length_nil, if_neg (Nat.not_le.mpr hn)]
    exact hret
  usrbuf := by simp
  left := by simpa using hsrc

theorem step {bs : List UInt8} {r : Block α} (hn : nleft ≤ n) (hbs : bs.length ≤ nleft)
    (h : Fills left atEnd n (nleft - bs.length) bytes (usrbuf ++ bs) r) :
    Fills left atEnd n nleft (bs ++ bytes) usrbuf r where
  ret := by
    rw [h.ret, List.length_append]
    refine ite_congr (propext (by omega)) (fun _ => rfl) (fun _ => congrArg atEnd (by omega))
  usrbuf := by rw [h.usrbuf, List.append_assoc, List.take_append, List.take_of_length_le hbs]
  left := by rw [h.left, List.drop_append, List.drop_eq_nil_of_le hbs, List.nil_append]

end Block.Fills

/-- The value of `nio_readn` when the data ends after `k` bytes. -/
def Ending.readnRet : Ending → ℕ → ℤ
  | .eof, k => k
  | .connreset, _ => 0
  | .error, _ => -1

/-- The value of `nio_readnb` when the data ends after `k` bytes. -/
def Ending.readnbRet : Ending → ℕ → ℤ
  | .eof, k => k
  | .connreset, k => k
  | .error, _ => -1

theorem nioReadnLoop_fills (fd : Sock) (n nleft : ℕ) (usrbuf : List UInt8) (hn : nleft ≤ n) :
    (nioReadnLoop fd n nleft usrbuf).Fills Sock.bytes fd.ending.readnRet n nleft fd.bytes usrbuf := by
  fun_induction nioReadnLoop fd n nleft usrbuf with
  | case1 fd nleft usrbuf hpos fd' hread ih =>
    obtain ⟨hb, he⟩ := Sock.read_fail hread
    rw [← hb, ← he]
    exact ih hn
  | case2 fd nleft usrbuf hpos fd' hread =>
    obtain ⟨hb, -⟩ := Sock.read_fail hread
    obtain ⟨hend, hnil⟩ := Sock.read_connreset hread
    rw [hnil, hend]
    exact Block.Fills.ended hpos (hb.trans hnil) rfl
  | case3 fd nleft usrbuf hpos fd' hread =>
    obtain ⟨hb, -⟩ := Sock.read_fail hread
    obtain ⟨hend, hnil⟩ := Sock.read_other hread
    rw [hnil, hend]
    exact Block.Fills.ended hpos (hb.trans hnil) rfl
  | case4 fd nleft usrbuf hpos fd' hread =>
    obtain ⟨hb, -⟩ := Sock.read_got hread
    obtain ⟨hend, hnil⟩ := Sock.read_got_nil hpos hread
    have hb' : fd'.bytes = [] := hb.symm.trans hnil
    rw [hnil, hend]
    exact Block.Fills.ended hpos hb' rfl
  | case5 fd nleft usrbuf hpos b bs fd' hread ih =>
    obtain ⟨hb, he⟩ := Sock.read_got hread
    rw [hb, ← he]
    exact Block.Fills.step hn (Sock.length_le_of_read_got hread) (ih (by omega))
  | case6 fd nleft usrbuf hpos =>
    obtain rfl : nleft = 0 := by omega
    exact Block.Fills.full rfl

theorem nioReadnbLoop_fills (rp : Nio) (n nleft : ℕ) (usrbuf : List UInt8) (hn : nleft ≤ n) :
    (nioReadnbLoop rp n nleft usrbuf).Fills Nio.bytes rp.fd.ending.readnbRet n nleft rp.bytes
      usrbuf := by
  induction nleft using Nat.strong_induction_on generalizing rp usrbuf with
  | _ nleft ih =>
    rw [nioReadnbLoop]
    by_cases hpos : 0 < nleft
    · rw [if_pos hpos]
      by_cases hb : rp.bytes = []
      · obtain ⟨rp', hread, hnil, -⟩ := nioRead_nil hb nleft
        rw [hread, hb]
        cases he : rp.fd.ending with
        | error =>
          simp only [Ending.ret, if_pos (by decide : (-1 : ℤ) < 0), dif_neg (nioErrno_ne_eintr rp)]
          exact Block.Fills.ended hpos hnil rfl
        | _ => exact Block.Fills.ended hpos hnil rfl
      · obtain ⟨k, rp', hread, hk, hkn, hkl, hb', he⟩ := nioRead_of_ne_nil hb hpos
        have hlen : (rp.bytes.take k).length = k := List.length_take_of_le hkl
        simp only [hread, if_neg (by omega : ¬ (k : ℤ) < 0), if_neg (by omega : ¬ (k : ℤ) = 0),
          Int.toNat_natCast]
        have h := ih (nleft - k) (by omega) rp' (usrbuf ++ rp.bytes.take k) (by omega)
        have hle : (rp.bytes.take k).length ≤ nleft := hlen.le.trans hkn
        rw [hb', he] at h
        have hstep : (nioReadnbLoop rp' n (nleft - k) (usrbuf ++ rp.bytes.take k)).Fills Nio.bytes
            rp.fd.ending.readnbRet n nleft (rp.bytes.take k ++ rp.bytes.drop k) usrbuf :=
          Block.Fills.step hn hle (by rwa [hlen])
        rwa [List.take_append_drop] at hstep
    · obtain rfl : nleft = 0 := by omega
      rw [if_neg hpos]
      exact Block.Fills.full rfl

/-- **`nio_readn`** stores the first `n` bytes to come, or all of them. -/
theorem nioReadn_spec (fd : Sock) (n : ℕ) :
    (nioReadn fd n).ret =
        (if n ≤ fd.bytes.length then (n : ℤ) else fd.ending.readnRet fd.bytes.length) ∧
      (nioReadn fd n).usrbuf = fd.bytes.take n ∧ (nioReadn fd n).src.bytes = fd.bytes.drop n := by
  obtain ⟨hret, husr, hsrc⟩ := nioReadnLoop_fills fd n n [] le_rfl
  rw [Nat.sub_self, Nat.zero_add] at hret
  exact ⟨hret, husr, hsrc⟩

/-- **`nio_readnb`** does so too, by another account of the end of the data. -/
theorem nioReadnb_spec (rp : Nio) (n : ℕ) :
    (nioReadnb rp n).ret =
        (if n ≤ rp.bytes.length then (n : ℤ) else rp.fd.ending.readnbRet rp.bytes.length) ∧
      (nioReadnb rp n).usrbuf = rp.bytes.take n ∧ (nioReadnb rp n).src.bytes = rp.bytes.drop n := by
  obtain ⟨hret, husr, hsrc⟩ := nioReadnbLoop_fills rp n n [] le_rfl
  rw [Nat.sub_self, Nat.zero_add] at hret
  exact ⟨hret, husr, hsrc⟩

/-! ## Agreement -/

/-- The two reads of `n` bytes return the same value, and one that is not negative is the number of
bytes that both have stored, the first of `bytes`. -/
def BlocksAgree (bytes : List UInt8) (n : ℕ) (r : Block Sock) (rb : Block Nio) : Prop :=
  r.ret = rb.ret ∧
    (0 ≤ r.ret →
      r.ret = (min n bytes.length : ℕ) ∧ r.usrbuf = bytes.take n ∧ rb.usrbuf = bytes.take n)

theorem Ending.readnRet_eq_iff (e : Ending) (k : ℕ) :
    e.readnRet k = e.readnbRet k ↔ ¬ (e = .connreset ∧ 0 < k) := by
  cases e <;> simp [readnRet, readnbRet, Nat.pos_iff_ne_zero, eq_comm]

theorem Ending.readnbRet_of_nonneg {e : Ending} {k : ℕ} (h : 0 ≤ e.readnbRet k) :
    e.readnbRet k = k := by
  cases e with
  | error => exact absurd h (by decide : ¬ (0 : ℤ) ≤ -1)
  | _ => rfl

/-- **The reads of a block agree**, however `read` cuts the stream for either of them, unless the
connection is reset after the first byte and before the last one asked for. -/
theorem nioReadn_agrees_iff (fd fd' : Sock) (nioBuf : Buf nioBufsize) (n : ℕ)
    (hbytes : fd'.bytes = fd.bytes) (hend : fd'.ending = fd.ending) :
    BlocksAgree fd.bytes n (nioReadn fd n) (nioReadnb (nioReadinitb nioBuf fd') n) ↔
      ¬ (fd.ending = .connreset ∧ 0 < fd.bytes.length ∧ fd.bytes.length < n) := by
  obtain ⟨hret, husr, -⟩ := nioReadn_spec fd n
  obtain ⟨hretb, husrb, -⟩ := nioReadnb_spec (nioReadinitb nioBuf fd') n
  rw [nioReadinitb_bytes, hbytes] at hretb husrb
  have hend' : (nioReadinitb nioBuf fd').fd.ending = fd.ending := hend
  rw [hend'] at hretb
  simp only [BlocksAgree, husr, husrb, hret, hretb, and_true]
  by_cases hn : n ≤ fd.bytes.length
  · simp only [if_pos hn, true_and, Nat.min_eq_left hn]
    exact iff_of_true (fun _ => trivial) (fun h => by omega)
  · simp only [if_neg hn, Nat.min_eq_right (Nat.le_of_not_le hn)]
    have hlt : fd.bytes.length < n := by omega
    constructor
    · rintro ⟨heq, -⟩ ⟨he, hpos, -⟩
      exact (Ending.readnRet_eq_iff _ _).mp heq ⟨he, hpos⟩
    · intro h
      have heq := (Ending.readnRet_eq_iff fd.ending fd.bytes.length).mpr fun ⟨he, hpos⟩ =>
        h ⟨he, hpos, hlt⟩
      refine ⟨heq, fun hpos => ?_⟩
      rw [heq] at hpos ⊢
      exact Ending.readnbRet_of_nonneg hpos

/-- A stream of ten bytes in one chunk, and in two after an interruption. -/
theorem nioReadn_agrees_ten :
    BlocksAgree [1, 2, 3, 4, 5, 6, 7, 8, 9, 10] 6
      (nioReadn ⟨[.data 1 [2, 3, 4, 5, 6, 7, 8, 9, 10]], .connreset⟩ 6)
      (nioReadnb (nioReadinitb (Buf.zero nioBufsize)
        ⟨[.data 1 [2, 3], .eintr, .data 4 [5, 6, 7, 8, 9, 10]], .connreset⟩) 6) :=
  (nioReadn_agrees_iff ⟨[.data 1 [2, 3, 4, 5, 6, 7, 8, 9, 10]], .connreset⟩
    ⟨[.data 1 [2, 3], .eintr, .data 4 [5, 6, 7, 8, 9, 10]], .connreset⟩ _ 6 rfl rfl).mpr (by decide)

/-- One byte and a reset, when two bytes are asked for: `nio_readn` returns `0`, `nio_readnb` returns
`1`. -/
theorem not_nioReadn_agrees :
    ¬ BlocksAgree [97] 2 (nioReadn ⟨[.data 97 []], .connreset⟩ 2)
        (nioReadnb (nioReadinitb (Buf.zero nioBufsize) ⟨[.data 97 []], .connreset⟩) 2) := by
  intro h
  have hret := h.1
  rw [(nioReadn_spec _ 2).1, (nioReadnb_spec _ 2).1, nioReadinitb_bytes] at hret
  exact absurd hret (by decide)

end MiniProxy
