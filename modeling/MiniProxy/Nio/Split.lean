import MiniProxy.Nio.Readline

/-!
# Successive lines

What `nio_readlineb` returns against what it stores, and the lines that its calls on one record give.

* `Counts`: the value returned is the number of bytes taken and stored;
  **`nioReadlineb_counts_iff`**: so it is exactly when a newline ends the line, `-1` is returned, or
  nothing was left and `usrbuf` held a NUL;
* `Line.text`, `nioReadlines`: the line that a call stored, and `n` calls;
* `nioReadlines_congr`, `cuts_nioReadlines`, `flatten_nioReadlines`: what the calls give;
* **`nioReadlines_lossless`**: the calls cut the stream into lines, losing nothing, in one way for all
  ways in which `read` may cut it.
-/

namespace MiniProxy

open Clib Lines

/-! ## The value returned -/

/-- When `nio_readlineb` returns `r ≥ 0` for the array `usrbuf`, it has taken `r` bytes and stored them
at `usrbuf[0]` to `usrbuf[r - 1]`, and there is a NUL at `usrbuf[r]`. -/
def Counts (rp : Nio) {maxlen : ℕ} (usrbuf : Buf maxlen) : Prop :=
  0 ≤ (nioReadlineb rp maxlen).ret → ∃ (bs : List UInt8) (after : Buf maxlen),
    (nioReadlineb rp maxlen).ret = bs.length ∧ rp.bytes = bs ++ (nioReadlineb rp maxlen).rp.bytes ∧
      usrbuf.write 0 (nioReadlineb rp maxlen).usrbuf = .ok after ∧
      after.bytes.take bs.length = bs ∧ after.bytes[bs.length]? = some 0

section Counts

variable {rp : Nio} {k : ℕ} {usrbuf : Buf (k + 1)}

theorem counts_of_newline (h : newline ∈ rp.bytes.take k) : Counts rp usrbuf := by
  intro _
  obtain ⟨rp', hl, hb, -⟩ := nioReadlineb_spec rp k
  have hm := (mem_takeLine_iff newline).mpr h
  have hlen := length_takeLine_le newline k rp.bytes
  rw [lineRet, lineStored, if_pos hm, if_pos (Or.inl hm)] at hl
  obtain ⟨after, hw, hafter⟩ := usrbuf.exists_write 0 (takeLine newline k rp.bytes ++ [0]) (by
    rw [List.length_append, List.length_singleton]
    omega)
  rw [hl]
  rw [List.take_zero, List.nil_append, List.append_assoc] at hafter
  refine ⟨takeLine newline k rp.bytes, after, rfl, ?_, hw, ?_, ?_⟩
  · rw [hb, takeLine_append_dropLine]
  · rw [hafter, List.take_left]
  · rw [hafter, List.getElem?_append_right le_rfl, Nat.sub_self]
    rfl

theorem not_counts_of_cut (h : newline ∉ rp.bytes.take k)
    (hcut : k ≤ rp.bytes.length ∨ (rp.bytes ≠ [] ∧ rp.fd.ending ≠ .error)) :
    ¬ Counts rp usrbuf := by
  intro hc
  obtain ⟨rp', hl, hb, -⟩ := nioReadlineb_spec rp k
  have happ := takeLine_append_dropLine newline k rp.bytes
  have hm : newline ∉ takeLine newline k rp.bytes := fun hm => h ((mem_takeLine_iff newline).mp hm)
  have hcut' : (takeLine newline k rp.bytes).length = k ∨
      (takeLine newline k rp.bytes ≠ [] ∧ rp.fd.ending.ret = 0) := by
    rw [takeLine_of_not_mem newline h, List.length_take]
    by_cases hk : k ≤ rp.bytes.length
    · exact Or.inl (by omega)
    · right
      obtain ⟨hne, he⟩ := hcut.resolve_left hk
      rw [List.take_of_length_le (by omega)]
      exact ⟨hne, Ending.ret_eq_zero_iff.mpr he⟩
  rw [lineRet, if_neg hm, if_pos hcut'] at hl
  rw [Counts, hl] at hc
  obtain ⟨bs, -, hret, hbs, -⟩ := hc (by simp only; omega)
  simp only at hret hbs
  have hsame : bs = takeLine newline k rp.bytes := by
    rw [hb] at hbs
    exact (List.append_cancel_right (happ.trans hbs)).symm
  rw [hsame] at hret
  omega

theorem counts_of_error (h : newline ∉ rp.bytes.take k) (he : rp.fd.ending = .error)
    (hk : rp.bytes.length < k) : Counts rp usrbuf := by
  intro hret
  obtain ⟨rp', hl, -, -⟩ := nioReadlineb_spec rp k
  have hm : newline ∉ takeLine newline k rp.bytes := fun hm => h ((mem_takeLine_iff newline).mp hm)
  have hlen : (takeLine newline k rp.bytes).length ≠ k := by
    rw [takeLine_of_not_mem newline h, List.length_take]
    omega
  have hneg : (Ending.error).ret = -1 := rfl
  rw [lineRet, if_neg hm, if_neg (by simp [hlen, he, hneg]), he, hneg] at hl
  rw [hl] at hret
  cases hret

theorem counts_nil (hk : 0 < k) (hb : rp.bytes = []) (he : rp.fd.ending ≠ .error) :
    Counts rp usrbuf ↔ usrbuf.bytes.head? = some 0 := by
  obtain ⟨rp', hl, hb', -⟩ := nioReadlineb_spec rp k
  have hret : rp.fd.ending.ret = 0 := Ending.ret_eq_zero_iff.mpr he
  have hlen : ([] : List UInt8).length ≠ k := Nat.ne_of_lt hk
  simp only [hb, takeLine_nil, lineRet, lineStored, List.not_mem_nil, hlen, ne_eq,
    not_true_eq_false, false_and, or_self, if_false, hret] at hl
  rw [hb, dropLine_nil] at hb'
  have hwrite : usrbuf.write 0 [] = .ok usrbuf := Buf.write_eq_ok.mpr ⟨Nat.zero_le _, by simp⟩
  rw [Counts, hl, hb]
  simp only [hwrite, hb']
  constructor
  · intro hc
    obtain ⟨bs, after, hbs, -, hafter, -, hnul⟩ := hc (Int.le_refl 0)
    cases hafter
    obtain rfl : bs = [] := by
      apply List.eq_nil_of_length_eq_zero
      omega
    rw [List.head?_eq_getElem?]
    exact hnul
  · intro hhead _
    refine ⟨[], usrbuf, rfl, rfl, rfl, rfl, ?_⟩
    rw [List.length_nil, ← List.head?_eq_getElem?]
    exact hhead

end Counts

/-- **`nio_readlineb` returns the number of the bytes that it took and stored exactly when** a newline
is among the first `maxlen - 1` bytes to come, an error comes before so many, or nothing is left to come
and `usrbuf` begins with a NUL already. -/
theorem nioReadlineb_counts_iff (rp : Nio) {maxlen : ℕ} (hmax : 2 ≤ maxlen) (usrbuf : Buf maxlen) :
    Counts rp usrbuf ↔ newline ∈ rp.bytes.take (maxlen - 1) ∨
      (rp.fd.ending = .error ∧ rp.bytes.length < maxlen - 1) ∨
      (rp.bytes = [] ∧ usrbuf.bytes.head? = some 0) := by
  obtain ⟨k, rfl⟩ : ∃ k, maxlen = k + 1 := ⟨maxlen - 1, by omega⟩
  rw [Nat.add_sub_cancel]
  by_cases hm : newline ∈ rp.bytes.take k
  · exact iff_of_true (counts_of_newline hm) (Or.inl hm)
  by_cases hk : k ≤ rp.bytes.length
  · have hne : rp.bytes ≠ [] := by
      intro h
      rw [h, List.length_nil] at hk
      omega
    refine iff_of_false (not_counts_of_cut hm (Or.inl hk)) ?_
    rintro (h | ⟨-, h⟩ | ⟨h, -⟩)
    · exact hm h
    · omega
    · exact hne h
  by_cases he : rp.fd.ending = .error
  · exact iff_of_true (counts_of_error hm he (by omega)) (Or.inr (Or.inl ⟨he, by omega⟩))
  by_cases hb : rp.bytes = []
  · rw [counts_nil (by omega) hb he]
    simp [hb, he]
  · refine iff_of_false (not_counts_of_cut hm (Or.inr ⟨hb, he⟩)) ?_
    rintro (h | ⟨h, -⟩ | ⟨h, -⟩)
    · exact hm h
    · exact he h
    · exact hb h

/-- A line that a newline ends. -/
theorem nioReadlineb_counts_line :
    Counts (nioReadinitb (Buf.zero _) ⟨[.data 111 [107], .eintr, .data 10 []], .eof⟩)
      (Buf.zero maxline) :=
  (nioReadlineb_counts_iff _ (by decide) _).mpr (Or.inl (by decide))

/-- Of the line `a`, which the end of the file ends, one byte is stored while two are returned. -/
theorem not_nioReadlineb_counts :
    (nioReadlineb (nioReadinitb (Buf.zero _) ⟨[.data 97 []], .eof⟩) maxline).ret = 2 ∧
      ¬ Counts (nioReadinitb (Buf.zero _) ⟨[.data 97 []], .eof⟩) (Buf.zero maxline) := by
  have hb : (nioReadinitb (Buf.zero _) ⟨[.data 97 []], .eof⟩).bytes = [97] := by decide
  constructor
  · obtain ⟨rp', hl, -, -⟩ := nioReadlineb_spec
      (nioReadinitb (Buf.zero _) ⟨[.data 97 []], .eof⟩) (maxline - 1)
    rw [hb] at hl
    exact congrArg Line.ret hl
  · apply not_counts_of_cut (k := maxline - 1)
    · rw [hb]
      decide
    · right
      rw [hb]
      exact ⟨by decide, by decide⟩

/-! ## Successive calls -/

/-- The line that a call has stored, up to the NUL that it wrote. -/
def Line.text (l : Line) : List UInt8 := l.usrbuf.dropLast

/-- `n` calls of `nio_readlineb`, one after the other. -/
def nioReadlines (maxlen : ℕ) : ℕ → Nio → List Line
  | 0, _ => []
  | n + 1, rp => nioReadlineb rp maxlen :: nioReadlines maxlen n (nioReadlineb rp maxlen).rp

/-- **The calls do not depend** on how the bytes come, nor on which of them are buffered. -/
theorem nioReadlines_congr (k n : ℕ) {rp rp' : Nio} (hb : rp'.bytes = rp.bytes)
    (he : rp'.fd.ending = rp.fd.ending) :
    (nioReadlines (k + 1) n rp').map (fun l => (l.ret, l.usrbuf)) =
      (nioReadlines (k + 1) n rp).map fun l => (l.ret, l.usrbuf) := by
  induction n generalizing rp rp' with
  | zero => rfl
  | succ n ih =>
    obtain ⟨rp₁, hl, hb₁, he₁⟩ := nioReadlineb_spec rp k
    obtain ⟨rp₁', hl', hb₁', he₁'⟩ := nioReadlineb_spec rp' k
    rw [nioReadlines, nioReadlines, List.map_cons, List.map_cons, hl, hl', hb, he]
    rw [hb] at hb₁'
    congr 1
    exact ih (hb₁'.trans hb₁.symm) ((he₁'.trans he).trans he₁.symm)

section Eof

variable {rp : Nio} (he : rp.fd.ending = .eof)

include he

theorem text_nioReadlineb (k : ℕ) :
    (nioReadlineb rp (k + 1)).text = takeLine newline k rp.bytes ∧
      (nioReadlineb rp (k + 1)).usrbuf.length ≤ k + 1 ∧
      (nioReadlineb rp (k + 1)).rp.bytes = dropLine newline k rp.bytes ∧
      (nioReadlineb rp (k + 1)).rp.fd.ending = .eof := by
  obtain ⟨rp', hl, hb, he'⟩ := nioReadlineb_spec rp k
  have hlen := length_takeLine_le newline k rp.bytes
  have hret : (Ending.eof).ret = 0 := rfl
  rw [hl]
  refine ⟨?_, ?_, hb, he'.trans he⟩
  · simp only [Line.text, lineStored, he, hret]
    split_ifs with h
    · exact List.dropLast_concat
    · have hnil : takeLine newline k rp.bytes = [] := by
        by_contra hne
        exact h (Or.inr (Or.inr ⟨hne, trivial⟩))
      rw [hnil]
      rfl
  · simp only [lineStored]
    split_ifs
    · rw [List.length_append, List.length_singleton]
      omega
    · omega

/-- **The lines are cut off** the stream one after the other. -/
theorem cuts_nioReadlines (k n : ℕ) :
    Cuts newline k rp.bytes ((nioReadlines (k + 1) n rp).map Line.text) := by
  induction n generalizing rp with
  | zero => trivial
  | succ n ih =>
    obtain ⟨htext, -, hb, he'⟩ := text_nioReadlineb he k
    rw [nioReadlines, List.map_cons, htext]
    refine ⟨isLine_takeLine newline k rp.bytes, ?_⟩
    rw [drop_length_takeLine, ← hb]
    exact ih he'

/-- **Nothing is lost**: after one call for each byte the lines are the stream. -/
theorem flatten_nioReadlines {k n : ℕ} (hk : 0 < k) (hn : rp.bytes.length ≤ n) :
    ((nioReadlines (k + 1) n rp).map Line.text).flatten = rp.bytes := by
  induction n generalizing rp with
  | zero => exact (List.eq_nil_of_length_eq_zero (Nat.le_zero.mp hn)).symm
  | succ n ih =>
    obtain ⟨htext, -, hb, he'⟩ := text_nioReadlineb he k
    have hrest : (dropLine newline k rp.bytes).length ≤ n := by
      by_cases hnil : rp.bytes = []
      · rw [hnil, dropLine_nil]
        exact Nat.zero_le n
      · have := length_dropLine_lt newline hk hnil
        omega
    rw [nioReadlines, List.map_cons, List.flatten_cons, htext, ih he' (by rwa [hb]), hb,
      takeLine_append_dropLine]

theorem length_usrbuf_nioReadlines (k n : ℕ) {l : Line} (h : l ∈ nioReadlines (k + 1) n rp) :
    l.usrbuf.length ≤ k + 1 := by
  induction n generalizing rp with
  | zero => exact absurd h List.not_mem_nil
  | succ n ih =>
    obtain ⟨-, hlen, -, he'⟩ := text_nioReadlineb he k
    rcases List.mem_cons.mp h with rfl | h
    · exact hlen
    · exact ih he' h

end Eof

/-- **Line splitting is lossless and independent of packetisation.** Two descriptors `fd` and `fd'` give
the same bytes up to the end of the file, in chunks of their own. Every line stored by the calls on
`fd` is the shortest prefix of what remains that ends with a newline or has `maxlen - 1` bytes, or all
that remains; together they are the stream; no call writes more than `maxlen` bytes; and the calls on
`fd'` store the same lines and return the same values. In C this is for `maxlen < 2 ^ 31`. -/
theorem nioReadlines_lossless {maxlen : ℕ} (hmax : 2 ≤ maxlen) (nioBuf nioBuf' : Buf nioBufsize)
    {fd fd' : Sock} (he : fd.ending = .eof) (he' : fd'.ending = .eof) (hb : fd'.bytes = fd.bytes) :
    (∀ n, Cuts newline (maxlen - 1) fd.bytes
        ((nioReadlines maxlen n (nioReadinitb nioBuf fd)).map Line.text)) ∧
      (∃ m, ∀ n, m ≤ n →
        ((nioReadlines maxlen n (nioReadinitb nioBuf fd)).map Line.text).flatten = fd.bytes) ∧
      (∀ n, ∀ l ∈ nioReadlines maxlen n (nioReadinitb nioBuf fd), l.usrbuf.length ≤ maxlen) ∧
      ∀ n, (nioReadlines maxlen n (nioReadinitb nioBuf' fd')).map (fun l => (l.text, l.ret)) =
        (nioReadlines maxlen n (nioReadinitb nioBuf fd)).map fun l => (l.text, l.ret) := by
  obtain ⟨k, rfl⟩ : ∃ k, maxlen = k + 1 := ⟨maxlen - 1, by omega⟩
  have hfd : (nioReadinitb nioBuf fd).fd.ending = .eof := he
  refine ⟨fun n => ?_, ⟨fd.bytes.length, fun n hn => ?_⟩, fun n l hl => ?_, fun n => ?_⟩
  · rw [Nat.add_sub_cancel, ← nioReadinitb_bytes nioBuf fd]
    exact cuts_nioReadlines hfd k n
  · rw [flatten_nioReadlines hfd (by omega) (by rwa [nioReadinitb_bytes]), nioReadinitb_bytes]
  · exact length_usrbuf_nioReadlines hfd k n hl
  · have hsame := @nioReadlines_congr k n (nioReadinitb nioBuf fd) (nioReadinitb nioBuf' fd')
      (by rw [nioReadinitb_bytes, nioReadinitb_bytes, hb]) (he'.trans he.symm)
    have hmap := congrArg (List.map fun r : ℤ × List UInt8 => (r.2.dropLast, r.1)) hsame
    rw [List.map_map, List.map_map] at hmap
    exact hmap

/-- Two ways to send two lines, the second without its newline. -/
theorem nioReadlines_lossless_two :
    (∀ n, (nioReadlines maxline n (nioReadinitb (Buf.zero _)
        ⟨[.data 97 [10, 98], .data 99 []], .eof⟩)).map (fun l => (l.text, l.ret)) =
      (nioReadlines maxline n (nioReadinitb (Buf.zero _)
        ⟨[.eintr, .data 97 [], .eintr, .data 10 [98, 99]], .eof⟩)).map fun l => (l.text, l.ret)) ∧
    ∃ m, ∀ n, m ≤ n → ((nioReadlines maxline n (nioReadinitb (Buf.zero _)
      ⟨[.eintr, .data 97 [], .eintr, .data 10 [98, 99]], .eof⟩)).map Line.text).flatten =
        [97, 10, 98, 99] := by
  have h := @nioReadlines_lossless maxline (by decide) (Buf.zero _) (Buf.zero _)
    ⟨[.eintr, .data 97 [], .eintr, .data 10 [98, 99]], .eof⟩
    ⟨[.data 97 [10, 98], .data 99 []], .eof⟩ rfl rfl rfl
  exact ⟨h.2.2.2, h.2.1⟩

end MiniProxy
