import MiniProxy.Proxy.Forward

/-!
# The end of a response

The loop of `forward_response` stores what `nio_readlineb` returns in a `size_t` and stops at `0`, so
that it takes the `-1` of a read error for a line of `2 ^ 64 - 1` bytes.

* `originSock`: what `forward_response` reads from a descriptor, which is negative where nothing has
  connected;
* `forwardLengths`: the values of `n` in the rounds of the loop; `forwardLengths_of_ok` connects them
  to `forwardResponseLoop`;
* `Ends`: the loop ends, and no value of `n` exceeds `MAXLINE`;
* **`forwardResponse_ends_iff`**: it ends exactly for descriptors on which no read fails for good,
  `ECONNRESET` apart;
* **`not_forwardResponse_ends`**: it does not where `open_clientfd` has returned `-1`.
-/

namespace MiniProxy

open Clib Lines

/-- What reads from `forwardfd` give: from `-1` they fail. -/
def originSock (forwardfd : Option ℕ) (s : Sock) : Sock :=
  if forwardfd = none then ⟨[], .error⟩ else s

/-- The loop of `forward_response` without what it does with a line: the lengths `n` that it hands to
`memcpy` and `nio_writen`. -/
def forwardLengths : ℕ → Nio → Option (List ℕ)
  | 0, _ => none
  | fuel + 1, rp =>
    let line := nioReadlineb rp maxline
    let n := sizeT line.ret
    if n = 0 then some [] else (forwardLengths fuel line.rp).map (n :: ·)

/-- The loop ends, and every length is that of a line. -/
def Ends (rp : Nio) : Prop := ∃ fuel ns, forwardLengths fuel rp = some ns ∧ ∀ n ∈ ns, n ≤ maxline

/-- **What `forward_response` sends** has these lengths, whenever it returns. -/
theorem forwardLengths_of_ok {fuel : ℕ} {f r : Forward} (h : forwardResponseLoop fuel f = .ok r) :
    ∃ ws, r.sent = f.sent ++ ws ∧ forwardLengths fuel f.forwardNio = some (ws.map List.length) := by
  induction fuel generalizing f with
  | zero => cases h
  | succ fuel ih =>
    rw [forwardResponseLoop] at h
    rw [forwardLengths]
    obtain ⟨fb, -, h⟩ := bind_ok_iff.mp h
    simp only at h ⊢
    generalize nioReadlineb f.forwardNio maxline = line at h ⊢
    split_ifs at h ⊢ with hn
    · cases h
      exact ⟨[], (List.append_nil f.sent).symm, rfl⟩
    all_goals
      obtain ⟨bs, hbs, h⟩ := bind_ok_iff.mp h
      have hlen : bs.length = sizeT line.ret := by
        obtain ⟨hle, rfl⟩ := Buf.read_eq_ok.mp hbs
        rw [List.drop_zero, List.length_take, fb.length_bytes]
        omega
    · obtain ⟨payload, -, h⟩ := bind_ok_iff.mp h
      obtain ⟨ws, hsent, hns⟩ := ih h
      refine ⟨bs :: ws, by rw [hsent, List.append_assoc]; rfl, ?_⟩
      rw [hns, List.map_cons, hlen]
      rfl
    · obtain ⟨ws, hsent, hns⟩ := ih h
      refine ⟨bs :: ws, by rw [hsent, List.append_assoc]; rfl, ?_⟩
      rw [hns, List.map_cons, hlen]
      rfl

/-- **From a stream without a lasting error** the lengths are those of the lines. -/
theorem forwardLengths_eq {fuel : ℕ} {rp : Nio} (he : rp.fd.ending.ret = 0)
    (hf : rp.bytes.length < fuel) :
    forwardLengths fuel rp = some ((lines rp.bytes).map fun line => (wire line).length) := by
  induction fuel generalizing rp with
  | zero => exact absurd hf (Nat.not_lt_zero _)
  | succ fuel ih =>
    obtain ⟨rp', hl, hb, he'⟩ := nioReadlineb_spec rp (maxline - 1)
    rw [show maxline - 1 + 1 = maxline from rfl] at hl
    rw [forwardLengths, hl]
    simp only
    by_cases hnil : rp.bytes = []
    · have hret : lineRet [] (([] : List UInt8).length = maxline - 1) rp.fd.ending = 0 := by
        rw [lineRet, if_neg List.not_mem_nil, if_neg (by simp [maxline]), he]
      rw [hnil, takeLine_nil, hret, lines, splitLines_nil]
      rfl
    · have hne := takeLine_ne_nil newline (k := maxline - 1) (by decide) hnil
      have hpos := List.length_pos_iff.mpr hne
      have hle := length_le_length_wire (takeLine newline (maxline - 1) rp.bytes)
      have hle' := length_wire_le (length_takeLine_le newline (maxline - 1) rp.bytes)
      have hmax : maxline - 1 + 1 = 8192 := rfl
      have hlt := length_dropLine_lt newline (k := maxline - 1) (by decide) hnil
      rw [lineRet_of_ne_nil _ he hne, sizeT_natCast (by omega), if_neg (by omega),
        ih (by rw [he', he]) (by rw [hb]; omega), hb, lines_of_ne_nil hnil]
      rfl

/-- **After a lasting error** every round of the loop is followed by another one. -/
theorem forwardLengths_error {fuel : ℕ} {rp : Nio} (he : rp.fd.ending = .error) :
    forwardLengths fuel rp = none := by
  induction fuel generalizing rp with
  | zero => rfl
  | succ fuel ih =>
    obtain ⟨rp', hl, -, he'⟩ := nioReadlineb_spec rp (maxline - 1)
    have hn := sizeT_lineRet_error (length_takeLine_le newline (maxline - 1) rp.bytes)
    rw [show maxline - 1 + 1 = maxline from rfl, he] at hl
    rw [forwardLengths, hl]
    simp only
    rw [if_neg hn, ih (he'.trans he)]
    rfl

theorem ends_iff {rp : Nio} : Ends rp ↔ rp.fd.ending ≠ .error := by
  constructor
  · rintro ⟨fuel, ns, hns, -⟩ he
    rw [forwardLengths_error he] at hns
    cases hns
  · intro he
    refine ⟨rp.bytes.length + 1, _,
      forwardLengths_eq (Ending.ret_eq_zero_iff.mpr he) (Nat.lt_succ_self _), ?_⟩
    intro n hn
    obtain ⟨line, hline, rfl⟩ := List.mem_map.mp hn
    exact length_wire_le (length_le_of_mem_splitLines newline hline)

/-- **`forward_response` ends exactly when** `forwardfd` is a connection whose stream ends with the end of
the file or with `ECONNRESET`. -/
theorem forwardResponse_ends_iff (nioBuf : Buf nioBufsize) (forwardfd : Option ℕ) (s : Sock) :
    Ends (nioReadinitb nioBuf (originSock forwardfd s)) ↔
      forwardfd ≠ none ∧ s.ending ≠ .error := by
  rw [ends_iff]
  change (originSock forwardfd s).ending ≠ .error ↔ _
  rw [originSock]
  split_ifs with hfd
  · exact iff_of_false (fun h => h rfl) (fun h => h.1 hfd)
  · exact (and_iff_right hfd).symm

/-- **Where it ends it returns**, if the copies of an answer of `2 ^ 64` bytes or more fit. -/
theorem forwardResponse_of_ends {nioBuf : Buf nioBufsize} {s : Sock}
    (h : Ends (nioReadinitb nioBuf s)) (forwardbuf : Buf maxline) (payload : Buf maxObjectSize)
    (hfit : CopiesFit 0 0 ((lines s.bytes).map wire)) :
    ∃ fuel r, forwardResponse fuel nioBuf forwardbuf s payload = .ok r ∧
      forwardLengths fuel (nioReadinitb nioBuf s) = some (r.sent.map List.length) := by
  obtain ⟨r, hr⟩ := (exists_forwardResponse_iff nioBuf forwardbuf payload
    (Ending.ret_eq_zero_iff.mpr (ends_iff.mp h)) (Nat.lt_succ_self _)).mpr hfit
  obtain ⟨ws, hsent, hns⟩ := forwardLengths_of_ok hr
  obtain rfl : r.sent = ws := hsent
  exact ⟨_, r, hr, hns⟩

/-- The descriptor `-1` of a failed `connect`: the loop reads `2 ^ 64 - 1` again and again. -/
theorem not_forwardResponse_ends :
    ¬ Ends (nioReadinitb (Buf.zero _) (originSock none ⟨[], .eof⟩)) ∧
      sizeT (nioReadlineb (nioReadinitb (Buf.zero _) (originSock none ⟨[], .eof⟩)) maxline).ret =
        2 ^ 64 - 1 := by
  constructor
  · rw [ends_iff]
    exact fun h => h rfl
  · obtain ⟨rp', hl, -, -⟩ := nioReadlineb_spec
      (nioReadinitb (Buf.zero _) (originSock none ⟨[], .eof⟩)) (maxline - 1)
    rw [show maxline - 1 + 1 = maxline from rfl, nioReadinitb_bytes] at hl
    rw [hl]
    rfl

end MiniProxy
