import Mathlib.Data.Int.Basic
import MiniProxy.Lib.Lines
import MiniProxy.Nio.Model

/-!
# What the nio package reads

The bytes that a record has still to give do not depend on how `read` cuts them: `nio_read` takes some
from their front, and `nio_readlineb` takes the first line of at most `maxlen - 1` bytes.

* `Sock.read_got`, `Sock.read_fail`: one `read`;
* `nioRefill_none`, `nioRefill_some`, `nioRead_nil`, `nioRead_one`: `nio_read`;
* `Ending.ret`: what `nio_read` returns at the end; `lineRet`, `lineStored`: the two results of
  `nio_readlineb` as functions of the bytes to come;
* **`nioReadlineb_spec`**: `nio_readlineb` takes a line. The value it returns counts the NUL it stores
  unless a newline ended the line.
-/

namespace MiniProxy

open Clib Lines

@[simp] theorem evBytes_nil : evBytes [] = [] := rfl

@[simp] theorem evBytes_data (b : UInt8) (bs : List UInt8) (evs : List ReadEv) :
    evBytes (.data b bs :: evs) = b :: bs ++ evBytes evs := rfl


/-! ## One `read` -/

theorem Sock.read_got {s s' : Sock} {n : ℕ} {bs : List UInt8} (h : s.read n = (.got bs, s')) :
    s.bytes = bs ++ s'.bytes ∧ s'.ending = s.ending := by
  rcases s with ⟨_ | ⟨b, ds⟩ | _, ending⟩
  · cases ending <;> cases h
    exact ⟨rfl, rfl⟩
  · rename_i evs
    simp only [read] at h
    split at h
    · cases h
      exact ⟨rfl, rfl⟩
    · rename_i c cs hd
      cases h
      refine ⟨?_, rfl⟩
      have hsplit := List.take_append_drop n (b :: ds)
      rw [hd] at hsplit
      simp only [bytes, evBytes_data]
      conv_lhs => rw [← hsplit, List.append_assoc]
  · cases h

theorem Sock.read_got_nil {s s' : Sock} {n : ℕ} (hn : 0 < n) (h : s.read n = (.got [], s')) :
    s.ending = .eof ∧ s.bytes = [] := by
  rcases s with ⟨_ | ⟨b, ds⟩ | _, ending⟩
  · cases ending <;> cases h
    exact ⟨rfl, rfl⟩
  · simp only [read] at h
    split at h
    · cases h
    · obtain ⟨k, rfl⟩ : ∃ k, n = k + 1 := ⟨n - 1, by omega⟩
      rw [List.take_succ_cons] at h
      cases h
  · cases h

theorem Sock.read_fail {s s' : Sock} {n : ℕ} {e : Errno} (h : s.read n = (.fail e, s')) :
    s'.bytes = s.bytes ∧ s'.ending = s.ending := by
  rcases s with ⟨_ | ⟨b, ds⟩ | _, ending⟩
  · cases ending <;> cases h <;> exact ⟨rfl, rfl⟩
  · simp only [read] at h
    split at h <;> cases h
  · cases h
    exact ⟨rfl, rfl⟩

theorem Sock.read_connreset {s s' : Sock} {n : ℕ} (h : s.read n = (.fail .connreset, s')) :
    s.ending = .connreset ∧ s.bytes = [] := by
  rcases s with ⟨_ | ⟨b, ds⟩ | _, ending⟩
  · cases ending <;> cases h
    exact ⟨rfl, rfl⟩
  · simp only [read] at h
    split at h <;> cases h
  · cases h

theorem Sock.read_other {s s' : Sock} {n : ℕ} (h : s.read n = (.fail .other, s')) :
    s.ending = .error ∧ s.bytes = [] := by
  rcases s with ⟨_ | ⟨b, ds⟩ | _, ending⟩
  · cases ending <;> cases h
    exact ⟨rfl, rfl⟩
  · simp only [read] at h
    split at h <;> cases h
  · cases h

/-! ## `nio_read` -/

/-- What `nio_read` returns at the end of the data. -/
def Ending.ret : Ending → ℤ
  | .eof => 0
  | .connreset => 0
  | .error => -1

theorem Ending.ret_eq_zero_iff {e : Ending} : e.ret = 0 ↔ e ≠ .error := by
  cases e <;> simp [ret]

theorem Ending.ret_ne_one (e : Ending) : e.ret ≠ 1 := by
  cases e <;> decide

theorem Nio.bytes_of_not_pos {rp : Nio} (h : ¬ 0 < rp.nioCnt) : rp.bytes = rp.fd.bytes := by
  rw [bytes, unread, Int.toNat_of_nonpos (Int.not_lt.mp h), List.take_zero, List.nil_append]

theorem nioReadinitb_bytes (nioBuf : Buf nioBufsize) (s : Sock) :
    (nioReadinitb nioBuf s).bytes = s.bytes :=
  Nio.bytes_of_not_pos (by simp [nioReadinitb])

/-- **The refill loop** ends with a filled buffer, from which nothing is lost, or with the return value
of the end of the data. -/
theorem nioRefill_spec (rp : Nio) :
    (∃ rp', nioRefill rp = (none, rp') ∧ 0 < rp'.nioCnt ∧ rp'.bytes = rp.bytes ∧
        rp'.fd.ending = rp.fd.ending) ∨
      (∃ rp', nioRefill rp = (some rp.fd.ending.ret, rp') ∧ rp.bytes = [] ∧ rp'.bytes = [] ∧
        rp'.fd.ending = rp.fd.ending) := by
  fun_induction nioRefill rp with
  | case1 rp hpos => exact Or.inl ⟨rp, rfl, hpos, rfl, rfl⟩
  | case2 rp hpos _ s hread =>
    obtain ⟨hb, he⟩ := Sock.read_fail hread
    obtain ⟨hend, hnil⟩ := Sock.read_connreset hread
    refine Or.inr ⟨_, by rw [hend]; rfl, ?_, ?_, he⟩
    · rw [Nio.bytes_of_not_pos hpos, hnil]
    · rw [Nio.bytes_of_not_pos (by simp), hb, hnil]
  | case3 rp hpos _ s hread =>
    obtain ⟨hb, he⟩ := Sock.read_fail hread
    obtain ⟨hend, hnil⟩ := Sock.read_other hread
    refine Or.inr ⟨_, by rw [hend]; rfl, ?_, ?_, he⟩
    · rw [Nio.bytes_of_not_pos hpos, hnil]
    · rw [Nio.bytes_of_not_pos (by simp), hb, hnil]
  | case4 rp hpos _ s hread ih =>
    obtain ⟨hb, he⟩ := Sock.read_fail hread
    rw [Nio.bytes_of_not_pos (by simp)] at ih
    rw [Nio.bytes_of_not_pos hpos, ← hb, ← he]
    exact ih
  | case5 rp hpos _ s hread =>
    obtain ⟨hb, he⟩ := Sock.read_got hread
    obtain ⟨hend, hnil⟩ := Sock.read_got_nil (by decide) hread
    refine Or.inr ⟨_, by rw [hend]; rfl, ?_, ?_, he⟩
    · rw [Nio.bytes_of_not_pos hpos, hnil]
    · rw [Nio.bytes_of_not_pos (by simp), ← List.nil_append s.bytes, ← hb, hnil]
  | case6 rp hpos _ b bs s hread =>
    obtain ⟨hb, he⟩ := Sock.read_got hread
    refine Or.inl ⟨_, rfl, Int.natCast_pos.mpr (Nat.succ_pos _), ?_, he⟩
    rw [Nio.bytes_of_not_pos hpos, hb, Nio.bytes, Nio.unread, Int.toNat_natCast,
      List.drop_zero, List.take_left]

theorem nioRead_nil {rp : Nio} (h : rp.bytes = []) (n : ℕ) :
    ∃ rp', nioRead rp n = (rp.fd.ending.ret, [], rp') ∧ rp'.bytes = [] ∧
      rp'.fd.ending = rp.fd.ending := by
  rcases nioRefill_spec rp with ⟨rp', hr, hpos, hb, -⟩ | ⟨rp', hr, -, hb, he⟩
  · exfalso
    rw [h, Nio.bytes, Nio.unread, List.append_eq_nil_iff, List.take_eq_nil_iff,
      List.drop_eq_nil_iff] at hb
    have := rp'.inBuf
    omega
  · refine ⟨rp', ?_, hb, he⟩
    simp only [nioRead, hr]

/-- **`nio_read`** copies some of the bytes to come, as many as it returns and no more than it was
asked for. -/
theorem nioRead_of_ne_nil {rp : Nio} (h : rp.bytes ≠ []) {n : ℕ} (hn : 0 < n) :
    ∃ (k : ℕ) (rp' : Nio), nioRead rp n = ((k : ℤ), rp.bytes.take k, rp') ∧ 0 < k ∧ k ≤ n ∧
      k ≤ rp.bytes.length ∧ rp'.bytes = rp.bytes.drop k ∧ rp'.fd.ending = rp.fd.ending := by
  rcases nioRefill_spec rp with ⟨rp', hr, hpos, hb, he⟩ | ⟨rp', -, hnil, -⟩
  · obtain ⟨cnt, hcnt⟩ : ∃ cnt : ℕ, rp'.nioCnt = cnt := ⟨rp'.nioCnt.toNat, by omega⟩
    have hin := rp'.inBuf
    have hlen : rp'.unread.length = cnt := by
      rw [Nio.unread, hcnt, Int.toNat_natCast, List.length_take, List.length_drop]
      omega
    have hk : (if rp'.nioCnt < n then rp'.nioCnt else (n : ℤ)) = (min cnt n : ℕ) := by
      split_ifs <;> omega
    have htake : (rp'.nioBuf.drop rp'.nioBufptr).take (min cnt n) = rp.bytes.take (min cnt n) := by
      rw [← hb, Nio.bytes, List.take_append_of_le_length (by omega), Nio.unread, List.take_take, hcnt,
        Int.toNat_natCast]
      congr 1
      omega
    have hbytes : rp.bytes = rp'.unread ++ rp'.fd.bytes := hb.symm
    refine ⟨min cnt n, ⟨rp'.fd, rp'.nioCnt - (min cnt n : ℕ), rp'.nioBufptr + min cnt n, rp'.nioBuf,
      by omega⟩, ?_, by omega, by omega, ?_, ?_, he⟩
    · simp only [nioRead, hr, hk, Int.toNat_natCast, htake]
    · rw [hbytes, List.length_append]
      omega
    · have hcnt' : (rp'.nioCnt - (min cnt n : ℕ)).toNat = rp'.nioCnt.toNat - min cnt n := by omega
      rw [hbytes, List.drop_append_of_le_length (by omega)]
      simp only [Nio.bytes, Nio.unread, List.drop_take, List.drop_drop, hcnt']
  · exact absurd hnil h

theorem nioRead_one {rp : Nio} {c : UInt8} {cs : List UInt8} (h : rp.bytes = c :: cs) :
    ∃ rp', nioRead rp 1 = (1, [c], rp') ∧ rp'.bytes = cs ∧ rp'.fd.ending = rp.fd.ending := by
  have hne : rp.bytes ≠ [] := by
    rw [h]
    exact List.cons_ne_nil c cs
  obtain ⟨k, rp', hr, hpos, hle, -, hb, he⟩ := nioRead_of_ne_nil hne Nat.one_pos
  obtain rfl : k = 1 := by omega
  rw [h] at hr hb
  exact ⟨rp', hr, hb, he⟩

/-! ## `nio_readlineb` -/

/-- The value that `nio_readlineb` returns for the line `line`, where `full` tells that the line is as
long as the buffer permits. -/
def lineRet (line : List UInt8) (full : Prop) [Decidable full] (e : Ending) : ℤ :=
  if newline ∈ line then line.length
  else if full ∨ (line ≠ [] ∧ e.ret = 0) then line.length + 1
  else e.ret

/-- The bytes that `nio_readlineb` stores for it. -/
def lineStored (line : List UInt8) (full : Prop) [Decidable full] (e : Ending) : List UInt8 :=
  if newline ∈ line ∨ full ∨ (line ≠ [] ∧ e.ret = 0) then line ++ [0] else line

theorem nioReadlinebLoop_spec (k : ℕ) (rp : Nio) (usrbuf : List UInt8) (hu : newline ∉ usrbuf) :
    ∃ rp', nioReadlinebLoop rp (usrbuf.length + 1 + k) (usrbuf.length + 1) usrbuf =
        ⟨lineRet (usrbuf ++ takeLine newline k rp.bytes)
            ((takeLine newline k rp.bytes).length = k) rp.fd.ending,
          lineStored (usrbuf ++ takeLine newline k rp.bytes)
            ((takeLine newline k rp.bytes).length = k) rp.fd.ending, rp'⟩ ∧
      rp'.bytes = dropLine newline k rp.bytes ∧ rp'.fd.ending = rp.fd.ending := by
  induction k generalizing rp usrbuf with
  | zero =>
    rw [nioReadlinebLoop, if_neg (lt_irrefl _)]
    refine ⟨rp, ?_, rfl, rfl⟩
    simp [takeLine, lineRet, lineStored, hu]
  | succ k ih =>
    rw [nioReadlinebLoop, if_pos (by omega)]
    cases hb : rp.bytes with
    | nil =>
      obtain ⟨rp', hr, hnil, he⟩ := nioRead_nil hb 1
      simp only [hr, if_neg rp.fd.ending.ret_ne_one]
      refine ⟨rp', ?_, by rw [hnil, dropLine_nil], he⟩
      cases rp.fd.ending <;> cases usrbuf <;>
        simp_all [lineRet, lineStored, Ending.ret]
    | cons c cs =>
      obtain ⟨rp', hr, hcs, he⟩ := nioRead_one hb
      simp only [hr, if_true, takeLine, dropLine, List.cons.injEq, and_true]
      by_cases hc : c = newline
      · simp only [if_pos hc]
        refine ⟨rp', ?_, hcs, he⟩
        simp [lineRet, lineStored, hc]
      · simp only [if_neg hc]
        obtain ⟨rp'', hl, hb'', he''⟩ := ih rp' (usrbuf ++ [c]) (by simp [hu, Ne.symm hc])
        refine ⟨rp'', ?_, by rw [hb'', hcs], he''.trans he⟩
        rw [hcs, he] at hl
        simp only [List.length_append, List.length_singleton, List.append_assoc,
          List.singleton_append] at hl
        rw [show usrbuf.length + 1 + (k + 1) = usrbuf.length + 1 + 1 + k by omega, hl]
        simp [lineRet, lineStored]

/-- **`nio_readlineb`** takes the first line of the bytes to come, of at most `maxlen - 1` bytes. What
it returns and what it stores depend on nothing else than that line and the way the data ends. -/
theorem nioReadlineb_spec (rp : Nio) (k : ℕ) :
    ∃ rp', nioReadlineb rp (k + 1) =
        ⟨lineRet (takeLine newline k rp.bytes) ((takeLine newline k rp.bytes).length = k)
            rp.fd.ending,
          lineStored (takeLine newline k rp.bytes) ((takeLine newline k rp.bytes).length = k)
            rp.fd.ending, rp'⟩ ∧
      rp'.bytes = dropLine newline k rp.bytes ∧ rp'.fd.ending = rp.fd.ending := by
  obtain ⟨rp', h, hb, he⟩ := nioReadlinebLoop_spec k rp [] List.not_mem_nil
  refine ⟨rp', ?_, hb, he⟩
  rw [nioReadlineb, Nat.add_comm k 1]
  exact h

end MiniProxy
