import Mathlib.Data.Int.Basic
import MiniProxy.Cache.Model
import MiniProxy.Nio.Readline

/-!
# Forwarding the response of the origin

`forward_response` reads the origin's response line by line, hands every line to `nio_writen` for the
client and keeps a copy of what fits in `payload`.

* `Forward`, `forwardResponseLoop`, `forwardResponse`: its variables, its loop and the function;
* `wire`, `forwarded`: what it makes of a line, and of a response;
* `forwardResponseLoop_induction`: induction over the rounds of a loop that has ended;
* `forwardResponse_ok`, `exists_forwardResponse`: it sends `forwarded` to the client, and returns;
* `captured`, `forwardResponse_captured`: the bytes that are copied, and what they leave in `payload`;
* **`forwardResponse_transparent_iff`**: the client gets the response unchanged exactly when every
  line of it ends with a newline and fits in the buffer.
-/

namespace MiniProxy

open Clib Lines

/-- The variables of `forward_response`. `sent` are the buffers handed to `nio_writen` for `connfd`. -/
structure Forward where
  forwardNio : Nio
  forwardbuf : Buf maxline
  sum : ℕ
  payload : Buf maxObjectSize
  payloadOffset : ℕ
  sent : List (List UInt8)

/-- The loop of `forward_response`. -/
def forwardResponseLoop : ℕ → Forward → Exec Forward
  | 0, _ => .error .fuel
  | fuel + 1, f => do
    let line := nioReadlineb f.forwardNio maxline
    let forwardbuf ← f.forwardbuf.write 0 line.usrbuf
    let n := sizeT line.ret
    if n = 0 then
      return { f with forwardNio := line.rp, forwardbuf := forwardbuf }
    else
      let sum := (f.sum + n) % 2 ^ 64
      let bs ← forwardbuf.read 0 n
      if sum ≤ maxObjectSize then
        let payload ← f.payload.write f.payloadOffset bs
        forwardResponseLoop fuel
          { forwardNio := line.rp, forwardbuf := forwardbuf, sum := sum, payload := payload,
            payloadOffset := f.payloadOffset + n, sent := f.sent ++ [bs] }
      else
        forwardResponseLoop fuel
          { f with
            forwardNio := line.rp, forwardbuf := forwardbuf, sum := sum, sent := f.sent ++ [bs] }

/-- `forward_response`, whose buffers hold `nioBuf` and `forwardbuf` on entry. -/
def forwardResponse (fuel : ℕ) (nioBuf : Buf nioBufsize) (forwardbuf : Buf maxline)
    (forwardfd : Sock) (payload : Buf maxObjectSize) : Exec Forward :=
  forwardResponseLoop fuel
    { forwardNio := nioReadinitb nioBuf forwardfd, forwardbuf := forwardbuf, sum := 0,
      payload := payload, payloadOffset := 0, sent := [] }

/-! ## One line -/

/-- What is forwarded of a line: it is followed by a NUL where no newline ends it. -/
def wire (line : List UInt8) : List UInt8 := if newline ∈ line then line else line ++ [0]

/-- The lines of a response. -/
def lines (s : List UInt8) : List (List UInt8) := splitLines newline (maxline - 2) s

/-- What is forwarded of a response. -/
def forwarded (s : List UInt8) : List UInt8 := ((lines s).map wire).flatten

theorem length_wire_le {line : List UInt8} {k : ℕ} (h : line.length ≤ k) :
    (wire line).length ≤ k + 1 := by
  rw [wire]
  split_ifs
  · omega
  · rw [List.length_append, List.length_singleton]
    omega

theorem length_le_length_wire (line : List UInt8) : line.length ≤ (wire line).length := by
  rw [wire]
  split_ifs
  · exact le_rfl
  · rw [List.length_append]
    exact Nat.le_add_right _ _

theorem forwarded_nil : forwarded [] = [] := by
  simp [forwarded, lines]

theorem lines_of_ne_nil {s : List UInt8} (h : s ≠ []) :
    lines s = takeLine newline (maxline - 1) s :: lines (dropLine newline (maxline - 1) s) :=
  splitLines_of_ne_nil newline (maxline - 2) h

theorem forwarded_of_ne_nil {s : List UInt8} (h : s ≠ []) :
    forwarded s = wire (takeLine newline (maxline - 1) s) ++
      forwarded (dropLine newline (maxline - 1) s) := by
  rw [forwarded, lines_of_ne_nil h]
  rfl

theorem lineRet_of_ne_nil {line : List UInt8} (full : Prop) [Decidable full] {e : Ending}
    (he : e.ret = 0) (h : line ≠ []) : lineRet line full e = (wire line).length := by
  simp only [lineRet, wire, he, h, ne_eq, not_false_eq_true, true_and, or_true, if_true]
  split_ifs <;> simp

theorem lineStored_of_ne_nil {line : List UInt8} (full : Prop) [Decidable full] {e : Ending}
    (he : e.ret = 0) (h : line ≠ []) : lineStored line full e = line ++ [0] := by
  simp [lineStored, he, h]

theorem read_write_zero {n : ℕ} {b c : Buf n} {bs : List UInt8} (h : b.write 0 bs = .ok c) {k : ℕ}
    (hk : k ≤ bs.length) : c.read 0 k = .ok (bs.take k) := by
  obtain ⟨hle, hc⟩ := Buf.write_eq_ok.mp h
  refine Buf.read_eq_ok.mpr ⟨by omega, ?_⟩
  rw [hc, List.take_zero, List.nil_append, List.drop_zero, List.take_append_of_le_length hk]

theorem take_wire (line : List UInt8) : (line ++ [0]).take (wire line).length = wire line := by
  rw [wire]
  split_ifs
  · exact List.take_left
  · exact List.take_length

section Loop

variable {f : Forward} (he : f.forwardNio.fd.ending.ret = 0)

include he

theorem forwardResponseLoop_nil (h : f.forwardNio.bytes = []) (fuel : ℕ) :
    ∃ rp fb, forwardResponseLoop (fuel + 1) f =
      .ok { f with forwardNio := rp, forwardbuf := fb } := by
  obtain ⟨rp, hl, -, -⟩ := nioReadlineb_spec f.forwardNio (maxline - 1)
  rw [h, takeLine_nil] at hl
  have hfull : ([] : List UInt8).length ≠ maxline - 1 := by decide
  simp only [lineRet, lineStored, hfull, he, List.not_mem_nil, ne_eq, not_true_eq_false, false_and,
    or_self, if_false] at hl
  obtain ⟨fb, hw, -⟩ := f.forwardbuf.exists_write 0 [] (Nat.zero_le _)
  refine ⟨rp, fb, ?_⟩
  rw [show maxline - 1 + 1 = maxline from rfl] at hl
  rw [forwardResponseLoop]
  simp only [hl, hw, ok_bind]
  rfl

/-- **One round of the loop** forwards a line. -/
theorem forwardResponseLoop_line (h : f.forwardNio.bytes ≠ []) :
    ∃ rp fb, rp.bytes = dropLine newline (maxline - 1) f.forwardNio.bytes ∧ rp.fd.ending.ret = 0 ∧
      ∀ fuel, forwardResponseLoop (fuel + 1) f =
        let w := wire (takeLine newline (maxline - 1) f.forwardNio.bytes)
        let sum := (f.sum + w.length) % 2 ^ 64
        if sum ≤ maxObjectSize then
          f.payload.write f.payloadOffset w >>= fun payload =>
            forwardResponseLoop fuel ⟨rp, fb, sum, payload, f.payloadOffset + w.length, f.sent ++ [w]⟩
        else
          forwardResponseLoop fuel ⟨rp, fb, sum, f.payload, f.payloadOffset, f.sent ++ [w]⟩ := by
  obtain ⟨rp, hl, hb, he'⟩ := nioReadlineb_spec f.forwardNio (maxline - 1)
  have hlen := length_takeLine_le newline (maxline - 1) f.forwardNio.bytes
  have hne := takeLine_ne_nil newline (k := maxline - 1) (by decide) h
  generalize takeLine newline (maxline - 1) f.forwardNio.bytes = line at hl hlen hne
  rw [lineRet_of_ne_nil _ he hne, lineStored_of_ne_nil _ he hne] at hl
  have hpos := List.length_pos_iff.mpr hne
  have hle := length_le_length_wire line
  have hle' := length_wire_le hlen
  have hmax : maxline - 1 + 1 = 8192 := rfl
  obtain ⟨fb, hw, -⟩ := f.forwardbuf.exists_write 0 (line ++ [0]) (by
    rw [List.length_append, List.length_singleton, maxline]
    omega)
  have hread := read_write_zero hw (k := (wire line).length) (by
    have := length_wire_le (le_refl line.length)
    rwa [List.length_append, List.length_singleton])
  rw [take_wire] at hread
  refine ⟨rp, fb, hb, by rw [he', he], fun fuel => ?_⟩
  rw [show maxline - 1 + 1 = maxline from rfl] at hl
  rw [forwardResponseLoop]
  simp only [hl, hw, ok_bind, sizeT_natCast (show (wire line).length < 2 ^ 64 by omega), hread]
  rw [if_neg (by omega)]

end Loop

theorem sizeT_lineRet_error {line : List UInt8} (hlen : line.length ≤ maxline - 1) :
    sizeT (lineRet line (line.length = maxline - 1) .error) ≠ 0 := by
  have hmax : maxline - 1 = 8191 := rfl
  rw [lineRet]
  split_ifs with hm
  · have := List.length_pos_of_mem hm
    rw [sizeT_natCast (by omega)]
    omega
  · have hsucc : sizeT ((line.length : ℤ) + 1) = line.length + 1 :=
      sizeT_natCast (n := line.length + 1) (by omega)
    omega
  · decide

/-- **A read error never ends the loop**: it forwards `(size_t)-1` bytes there. -/
theorem forwardResponseLoop_error {fuel : ℕ} {f r : Forward}
    (he : f.forwardNio.fd.ending = .error) : forwardResponseLoop fuel f ≠ .ok r := by
  intro h
  induction fuel generalizing f with
  | zero => cases h
  | succ fuel ih =>
    obtain ⟨rp, hl, -, he'⟩ := nioReadlineb_spec f.forwardNio (maxline - 1)
    have hn := sizeT_lineRet_error (length_takeLine_le newline (maxline - 1) f.forwardNio.bytes)
    rw [show maxline - 1 + 1 = maxline from rfl, he] at hl
    rw [forwardResponseLoop] at h
    simp only [hl] at h
    obtain ⟨fb, -, h⟩ := bind_ok_iff.mp h
    rw [if_neg hn] at h
    obtain ⟨bs, -, h⟩ := bind_ok_iff.mp h
    split_ifs at h
    · obtain ⟨payload, -, h⟩ := bind_ok_iff.mp h
      exact ih (he'.trans he) h
    · exact ih (he'.trans he) h

/-! ## All lines -/

/-- What a round does with the piece `w`: while `sum` is small it is copied to `payload`. -/
def Copied (f : Forward) (w : List UInt8) (payload : Buf maxObjectSize) (off : ℕ) : Prop :=
  if (f.sum + w.length) % 2 ^ 64 ≤ maxObjectSize then
    f.payload.write f.payloadOffset w = .ok payload ∧ off = f.payloadOffset + w.length
  else payload = f.payload ∧ off = f.payloadOffset

/-- **Induction over the rounds** of a loop that ends with `r`, back from its end. -/
theorem forwardResponseLoop_induction {r : Forward} (P : Forward → Prop)
    (hend : ∀ f rp fb, f.forwardNio.bytes = [] →
      r = { f with forwardNio := rp, forwardbuf := fb } → P f)
    (hround : ∀ f rp fb w payload off, f.forwardNio.bytes ≠ [] →
      w = wire (takeLine newline (maxline - 1) f.forwardNio.bytes) →
      rp.bytes = dropLine newline (maxline - 1) f.forwardNio.bytes → Copied f w payload off →
      P ⟨rp, fb, (f.sum + w.length) % 2 ^ 64, payload, off, f.sent ++ [w]⟩ → P f)
    {fuel : ℕ} {f : Forward} (he : f.forwardNio.fd.ending.ret = 0)
    (h : forwardResponseLoop fuel f = .ok r) : P f := by
  induction fuel generalizing f with
  | zero => cases h
  | succ fuel ih =>
    by_cases hb : f.forwardNio.bytes = []
    · obtain ⟨rp, fb, hl⟩ := forwardResponseLoop_nil he hb fuel
      rw [hl] at h
      exact hend f rp fb hb (Except.ok.inj h).symm
    · obtain ⟨rp, fb, hrp, he', hl⟩ := forwardResponseLoop_line he hb
      rw [hl] at h
      simp only at h
      split_ifs at h with hsum
      · obtain ⟨payload, hw, h⟩ := bind_ok_iff.mp h
        refine hround f rp fb _ payload _ hb rfl hrp ?_ (ih he' h)
        rw [Copied, if_pos hsum]
        exact ⟨hw, rfl⟩
      · refine hround f rp fb _ f.payload _ hb rfl hrp ?_ (ih he' h)
        rw [Copied, if_neg hsum]
        exact ⟨rfl, rfl⟩

/-- **What the loop sends**, whenever it ends. -/
theorem forwardResponseLoop_ok {fuel : ℕ} {f r : Forward} (he : f.forwardNio.fd.ending.ret = 0)
    (hs : f.sum < 2 ^ 64) (h : forwardResponseLoop fuel f = .ok r) :
    r.sent.flatten = f.sent.flatten ++ forwarded f.forwardNio.bytes ∧
      r.sum = (f.sum + (forwarded f.forwardNio.bytes).length) % 2 ^ 64 := by
  refine forwardResponseLoop_induction (fun f => f.sum < 2 ^ 64 →
    r.sent.flatten = f.sent.flatten ++ forwarded f.forwardNio.bytes ∧
      r.sum = (f.sum + (forwarded f.forwardNio.bytes).length) % 2 ^ 64) ?_ ?_ he h hs
  · intro f rp fb hb hr hs
    rw [hr, hb, forwarded_nil, List.append_nil]
    exact ⟨rfl, (Nat.mod_eq_of_lt hs).symm⟩
  · intro f rp fb w payload off hb hw hrp _ ih _
    obtain ⟨hsent, hsum⟩ := ih (Nat.mod_lt _ (by decide))
    rw [forwarded_of_ne_nil hb, ← hw, ← hrp]
    refine ⟨by rw [hsent]; simp, ?_⟩
    rw [hsum, List.length_append, Nat.mod_add_mod, Nat.add_assoc]

theorem forwardResponseLoop_mono {fuel fuel' : ℕ} {f r : Forward} (hle : fuel ≤ fuel')
    (h : forwardResponseLoop fuel f = .ok r) : forwardResponseLoop fuel' f = .ok r := by
  induction fuel generalizing f fuel' with
  | zero => cases h
  | succ fuel ih =>
    obtain ⟨fuel', rfl⟩ : ∃ k, fuel' = k + 1 := ⟨fuel' - 1, by omega⟩
    rw [forwardResponseLoop] at h ⊢
    obtain ⟨fb, hfb, h⟩ := bind_ok_iff.mp h
    refine bind_ok_iff.mpr ⟨fb, hfb, ?_⟩
    simp only at h ⊢
    split_ifs at h ⊢
    · exact h
    · obtain ⟨bs, hbs, h⟩ := bind_ok_iff.mp h
      obtain ⟨payload, hp, h⟩ := bind_ok_iff.mp h
      exact bind_ok_iff.mpr ⟨bs, hbs, bind_ok_iff.mpr ⟨payload, hp, ih (by omega) h⟩⟩
    · obtain ⟨bs, hbs, h⟩ := bind_ok_iff.mp h
      exact bind_ok_iff.mpr ⟨bs, hbs, ih (by omega) h⟩

/-- With the sum `sum` and the offset `off` the pieces `ws` are copied to places inside `payload`. -/
def CopiesFit : ℕ → ℕ → List (List UInt8) → Prop
  | _, _, [] => True
  | sum, off, w :: ws =>
    let sum := (sum + w.length) % 2 ^ 64
    if sum ≤ maxObjectSize then
      off + w.length ≤ maxObjectSize ∧ CopiesFit sum (off + w.length) ws
    else CopiesFit sum off ws

theorem copiesFit_of_lt {sum off : ℕ} {ws : List (List UInt8)}
    (hs : sum + ws.flatten.length < 2 ^ 64) (ho : off ≤ sum) : CopiesFit sum off ws := by
  induction ws generalizing sum off with
  | nil => trivial
  | cons w ws ih =>
    rw [List.flatten_cons, List.length_append] at hs
    have hsum : (sum + w.length) % 2 ^ 64 = sum + w.length := Nat.mod_eq_of_lt (by omega)
    rw [CopiesFit]
    simp only [hsum]
    split_ifs with hmax
    · exact ⟨by omega, ih (by omega) (by omega)⟩
    · exact ih (by omega) (by omega)

/-- **The loop ends exactly when** the copies fit, after at most one round for each byte and one for the
end. -/
theorem exists_forwardResponseLoop_iff {fuel : ℕ} {f : Forward}
    (he : f.forwardNio.fd.ending.ret = 0) (hf : f.forwardNio.bytes.length < fuel) :
    (∃ r, forwardResponseLoop fuel f = .ok r) ↔
      CopiesFit f.sum f.payloadOffset ((lines f.forwardNio.bytes).map wire) := by
  induction fuel generalizing f with
  | zero => exact absurd hf (Nat.not_lt_zero _)
  | succ fuel ih =>
    by_cases hb : f.forwardNio.bytes = []
    · obtain ⟨rp, fb, hl⟩ := forwardResponseLoop_nil he hb fuel
      rw [hl, hb, lines, splitLines_nil]
      exact iff_of_true ⟨_, rfl⟩ trivial
    · obtain ⟨rp, fb, hrp, he', hl⟩ := forwardResponseLoop_line he hb
      have hlen := length_dropLine_lt newline (k := maxline - 1) (by decide) hb
      rw [← hrp] at hlen
      rw [hl, lines_of_ne_nil hb, ← hrp, List.map_cons, CopiesFit]
      generalize wire (takeLine newline (maxline - 1) f.forwardNio.bytes) = w
      simp only
      split_ifs with hmax
      · by_cases hfit : f.payloadOffset + w.length ≤ maxObjectSize
        · obtain ⟨payload, hw, -⟩ := f.payload.exists_write f.payloadOffset w hfit
          rw [hw, ok_bind, ih he' (by simp only; omega)]
          exact (and_iff_right hfit).symm
        · rw [show f.payload.write f.payloadOffset w = .error .oob from dif_neg hfit, error_bind]
          exact iff_of_false (fun ⟨r, h⟩ => by cases h) (fun h => hfit h.1)
      · rw [ih he' (by simp only; omega)]

/-- The bytes of the pieces `ws` that are copied, where `sum` counts what was sent before them. -/
def captured : ℕ → List (List UInt8) → List UInt8
  | _, [] => []
  | sum, w :: ws =>
    let sum := (sum + w.length) % 2 ^ 64
    if sum ≤ maxObjectSize then w ++ captured sum ws else captured sum ws

theorem copiesFit_iff {sum off : ℕ} {ws : List (List UInt8)} (ho : off ≤ maxObjectSize) :
    CopiesFit sum off ws ↔ off + (captured sum ws).length ≤ maxObjectSize := by
  induction ws generalizing sum off with
  | nil => exact iff_of_true trivial ho
  | cons w ws ih =>
    rw [CopiesFit, captured]
    split_ifs
    · rw [List.length_append, ← Nat.add_assoc]
      by_cases hle : off + w.length ≤ maxObjectSize
      · rw [and_iff_right hle, ih hle]
      · exact iff_of_false (fun h => hle h.1) (by omega)
    · exact ih ho

theorem captured_eq_flatten {sum : ℕ} {ws : List (List UInt8)}
    (h : sum + ws.flatten.length ≤ maxObjectSize) : captured sum ws = ws.flatten := by
  induction ws generalizing sum with
  | nil => rfl
  | cons w ws ih =>
    rw [List.flatten_cons, List.length_append] at h
    have hmax : maxObjectSize < 2 ^ 64 := by decide
    have hsum : (sum + w.length) % 2 ^ 64 = sum + w.length := Nat.mod_eq_of_lt (by omega)
    rw [captured, hsum]
    rw [if_pos (by omega), ih (by omega), List.flatten_cons]

theorem captured_sublist (sum : ℕ) (ws : List (List UInt8)) : (captured sum ws).Sublist ws.flatten := by
  induction ws generalizing sum with
  | nil => exact List.Sublist.refl []
  | cons w ws ih =>
    rw [captured, List.flatten_cons]
    split_ifs
    · exact (List.Sublist.refl w).append (ih _)
    · exact (ih _).trans (List.sublist_append_right w _)

theorem le_length_captured {sum off : ℕ} {ws : List (List UInt8)} (hs : sum < 2 ^ 64)
    (ho : sum ≤ maxObjectSize → sum ≤ off) (h : (sum + ws.flatten.length) % 2 ^ 64 ≤ maxObjectSize) :
    (sum + ws.flatten.length) % 2 ^ 64 ≤ off + (captured sum ws).length := by
  induction ws generalizing sum off with
  | nil =>
    rw [List.flatten_nil, List.length_nil, Nat.add_zero, Nat.mod_eq_of_lt hs] at h ⊢
    exact (ho h).trans (Nat.le_add_right _ _)
  | cons w ws ih =>
    have hmod : (sum + (w ++ ws.flatten).length) % 2 ^ 64 =
        ((sum + w.length) % 2 ^ 64 + ws.flatten.length) % 2 ^ 64 := by
      rw [List.length_append, ← Nat.add_assoc, Nat.mod_add_mod]
    rw [List.flatten_cons, hmod] at h ⊢
    rw [captured]
    split_ifs with hle
    · rw [List.length_append, ← Nat.add_assoc]
      refine ih (Nat.mod_lt _ (Nat.two_pow_pos 64)) (fun _ => ?_) h
      by_cases hsum : sum ≤ maxObjectSize
      · have := ho hsum
        have := Nat.mod_le (sum + w.length) (2 ^ 64)
        omega
      · omega
    · exact ih (Nat.mod_lt _ (Nat.two_pow_pos 64)) (fun h => absurd h hle) h

/-- The bytes `d`, and zeros up to the end of an array of `n` bytes. -/
def padded (n : ℕ) (d : List UInt8) : List UInt8 := d ++ List.replicate (n - d.length) 0

theorem padded_of_write {n : ℕ} {b c : Buf n} {d w : List UInt8} (hb : b.bytes = padded n d)
    (h : b.write d.length w = .ok c) : c.bytes = padded n (d ++ w) := by
  obtain ⟨hle, hc⟩ := Buf.write_eq_ok.mp h
  rw [hc, hb, padded, padded, List.take_left, List.drop_append, List.drop_of_length_le (by omega),
    List.drop_replicate, List.length_append, List.nil_append]
  congr 2
  omega

/-- **What the loop leaves in `payload`**, whose bytes behind `payload_offset` are zeros. -/
theorem forwardResponseLoop_payload {fuel : ℕ} {f r : Forward} {d : List UInt8}
    (he : f.forwardNio.fd.ending.ret = 0) (hp : f.payload.bytes = padded maxObjectSize d)
    (ho : f.payloadOffset = d.length) (h : forwardResponseLoop fuel f = .ok r) :
    r.payload.bytes =
      padded maxObjectSize (d ++ captured f.sum ((lines f.forwardNio.bytes).map wire)) := by
  refine forwardResponseLoop_induction (fun f => ∀ d, f.payload.bytes = padded maxObjectSize d →
    f.payloadOffset = d.length → r.payload.bytes =
      padded maxObjectSize (d ++ captured f.sum ((lines f.forwardNio.bytes).map wire)))
    ?_ ?_ he h d hp ho
  · intro f rp fb hb hr d hp _
    rw [hr, hb, lines, splitLines_nil, List.map_nil, captured, List.append_nil]
    exact hp
  · intro f rp fb w payload off hb hw hrp hcopied ih d hp ho
    rw [lines_of_ne_nil hb, List.map_cons, ← hw, ← hrp, captured]
    unfold Copied at hcopied
    split_ifs at hcopied ⊢
    · obtain ⟨hwrite, hoff⟩ := hcopied
      rw [ho] at hwrite
      rw [← List.append_assoc]
      exact ih (d ++ w) (padded_of_write hp hwrite) (by rw [hoff, ho, List.length_append])
    · obtain ⟨rfl, rfl⟩ := hcopied
      exact ih d hp ho

/-- **`forward_response` does not return** from a stream that a read error ends. -/
theorem forwardResponse_error {fuel : ℕ} {nioBuf : Buf nioBufsize} {forwardbuf : Buf maxline}
    {s : Sock} {payload : Buf maxObjectSize} {r : Forward}
    (h : forwardResponse fuel nioBuf forwardbuf s payload = .ok r) : s.ending.ret = 0 := by
  cases he : s.ending with
  | eof => rfl
  | connreset => rfl
  | error => exact absurd h (forwardResponseLoop_error he)

/-- **What `forward_response` returns and sends**, whenever it ends. -/
theorem forwardResponse_ok {fuel : ℕ} {nioBuf : Buf nioBufsize} {forwardbuf : Buf maxline}
    {s : Sock} {payload : Buf maxObjectSize} {r : Forward} (he : s.ending.ret = 0)
    (h : forwardResponse fuel nioBuf forwardbuf s payload = .ok r) :
    r.sent.flatten = forwarded s.bytes ∧ r.sum = (forwarded s.bytes).length % 2 ^ 64 := by
  obtain ⟨h₁, h₂⟩ := forwardResponseLoop_ok he (Nat.two_pow_pos 64) h
  rw [nioReadinitb_bytes] at h₁ h₂
  exact ⟨h₁, by rw [h₂, Nat.zero_add]⟩

theorem forwardResponse_mono {fuel fuel' : ℕ} {nioBuf : Buf nioBufsize} {forwardbuf : Buf maxline}
    {s : Sock} {payload : Buf maxObjectSize} {r : Forward} (hle : fuel ≤ fuel')
    (h : forwardResponse fuel nioBuf forwardbuf s payload = .ok r) :
    forwardResponse fuel' nioBuf forwardbuf s payload = .ok r :=
  forwardResponseLoop_mono hle h

/-- **`forward_response` returns exactly when** its copies fit. -/
theorem exists_forwardResponse_iff (nioBuf : Buf nioBufsize) (forwardbuf : Buf maxline) {s : Sock}
    (payload : Buf maxObjectSize) (he : s.ending.ret = 0) {fuel : ℕ} (hf : s.bytes.length < fuel) :
    (∃ r, forwardResponse fuel nioBuf forwardbuf s payload = .ok r) ↔
      CopiesFit 0 0 ((lines s.bytes).map wire) := by
  have h := @exists_forwardResponseLoop_iff fuel
    ⟨nioReadinitb nioBuf s, forwardbuf, 0, payload, 0, []⟩ he (by rwa [nioReadinitb_bytes])
  rwa [nioReadinitb_bytes] at h

theorem exists_forwardResponse (nioBuf : Buf nioBufsize) (forwardbuf : Buf maxline) {s : Sock}
    (payload : Buf maxObjectSize) (he : s.ending.ret = 0)
    (hs : (forwarded s.bytes).length < 2 ^ 64) :
    ∃ r, forwardResponse (s.bytes.length + 1) nioBuf forwardbuf s payload = .ok r :=
  (exists_forwardResponse_iff nioBuf forwardbuf payload he (Nat.lt_succ_self _)).mpr
    (copiesFit_of_lt (by rwa [Nat.zero_add]) le_rfl)

/-- **What `forward_response` leaves** in a buffer of zeros. -/
theorem forwardResponse_captured {fuel : ℕ} {nioBuf : Buf nioBufsize} {forwardbuf : Buf maxline}
    {s : Sock} {r : Forward} (he : s.ending.ret = 0)
    (h : forwardResponse fuel nioBuf forwardbuf s (Buf.zero maxObjectSize) = .ok r) :
    r.payload.bytes = padded maxObjectSize (captured 0 ((lines s.bytes).map wire)) := by
  have hp := @forwardResponseLoop_payload fuel
    ⟨nioReadinitb nioBuf s, forwardbuf, 0, Buf.zero maxObjectSize, 0, []⟩ r [] he rfl rfl h
  rwa [nioReadinitb_bytes] at hp

/-- **The copy of the response**, if all of it fits. -/
theorem forwardResponse_payload {fuel : ℕ} {nioBuf : Buf nioBufsize} {forwardbuf : Buf maxline}
    {s : Sock} {r : Forward} (he : s.ending.ret = 0)
    (hs : (forwarded s.bytes).length ≤ maxObjectSize)
    (h : forwardResponse fuel nioBuf forwardbuf s (Buf.zero maxObjectSize) = .ok r) :
    r.payload.bytes =
      forwarded s.bytes ++ List.replicate (maxObjectSize - (forwarded s.bytes).length) 0 := by
  rw [forwardResponse_captured he h, captured_eq_flatten (by rwa [Nat.zero_add])]
  rfl

/-- **No NUL is stored** among the first `sum` bytes when none is forwarded. -/
theorem forwardResponse_not_mem {fuel : ℕ} {nioBuf : Buf nioBufsize} {forwardbuf : Buf maxline}
    {s : Sock} {r : Forward} (he : s.ending.ret = 0) (h0 : 0 ∉ forwarded s.bytes)
    (h : forwardResponse fuel nioBuf forwardbuf s (Buf.zero maxObjectSize) = .ok r)
    (hsum : r.sum ≤ maxObjectSize) : 0 ∉ r.payload.bytes.take r.sum := by
  have hlen : r.sum ≤ (captured 0 ((lines s.bytes).map wire)).length := by
    have hr := (forwardResponse_ok he h).2
    have hle := @le_length_captured 0 0 ((lines s.bytes).map wire) (Nat.two_pow_pos 64)
      fun _ => Nat.le_refl 0
    rw [Nat.zero_add, Nat.zero_add] at hle
    rw [hr] at hsum ⊢
    exact hle hsum
  rw [forwardResponse_captured he h, padded, List.take_append_of_le_length hlen]
  exact fun hm => h0 ((captured_sublist 0 _).subset (List.mem_of_mem_take hm))

/-! ## Transparency -/

theorem length_le_length_forwarded (s : List UInt8) : s.length ≤ (forwarded s).length := by
  induction s using line_induction newline (maxline - 2) with
  | nil => exact Nat.zero_le _
  | line s hs ih =>
    have hsplit := congrArg List.length (takeLine_append_dropLine newline (maxline - 1) s)
    have hw := length_le_length_wire (takeLine newline (maxline - 1) s)
    have hmax : maxline - 2 + 1 = maxline - 1 := rfl
    rw [List.length_append] at hsplit
    rw [hmax] at ih
    rw [forwarded_of_ne_nil hs, List.length_append]
    omega

theorem length_forwarded_eq_iff {s : List UInt8} :
    (forwarded s).length = s.length ↔ Terminated newline (maxline - 2) s := by
  induction s using line_induction newline (maxline - 2) with
  | nil => exact iff_of_true (by rw [forwarded_nil]) (terminated_nil _)
  | line s hs ih =>
    have hsplit := congrArg List.length (takeLine_append_dropLine newline (maxline - 1) s)
    have hle := length_le_length_forwarded (dropLine newline (maxline - 1) s)
    have hmax : maxline - 2 + 1 = maxline - 1 := rfl
    rw [List.length_append] at hsplit
    rw [hmax] at ih
    rw [terminated_iff_of_ne_nil hs, hmax, ← ih, forwarded_of_ne_nil hs,
      List.length_append]
    by_cases hm : newline ∈ takeLine newline (maxline - 1) s
    · rw [wire, if_pos hm]
      exact ⟨fun h => ⟨hm, by omega⟩, fun h => by omega⟩
    · rw [wire, if_neg hm, List.length_append, List.length_singleton]
      exact ⟨fun h => by omega, fun h => absurd h.1 hm⟩

theorem forwarded_of_terminated {s : List UInt8} (h : Terminated newline (maxline - 2) s) :
    forwarded s = s := by
  have hmap : (lines s).map wire = lines s :=
    (List.map_congr_left fun p hp => if_pos (h p hp)).trans (List.map_id _)
  rw [forwarded, hmap, lines, flatten_splitLines]

theorem forwarded_of_short {s : List UInt8} (hlast : s.getLast? = some newline)
    (hlen : s.length < maxline) : forwarded s = s := by
  refine forwarded_of_terminated (terminated_iff.mpr ⟨Or.inr hlast, dense_of_length ?_⟩)
  rw [List.length_dropLast]
  omega

/-- **The response reaches the client unchanged exactly when** it is shorter than `2 ^ 64` bytes, is
empty or ends with a newline, and has no `MAXLINE - 1` consecutive bytes free of newlines before its
last byte. -/
theorem forwardResponse_transparent_iff (nioBuf : Buf nioBufsize) (forwardbuf : Buf maxline)
    (payload : Buf maxObjectSize) (s : Sock) (he : s.ending = .eof) :
    (∃ fuel r, forwardResponse fuel nioBuf forwardbuf s payload = .ok r ∧
        r.sent.flatten = s.bytes ∧ r.sum = s.bytes.length) ↔
      s.bytes.length < 2 ^ 64 ∧ (s.bytes = [] ∨ s.bytes.getLast? = some newline) ∧
        ∀ w, w <:+: s.bytes.dropLast → w.length = maxline - 1 → newline ∈ w := by
  have hterm := terminated_iff (d := newline) (k := maxline - 2) (l := s.bytes)
  have he : s.ending.ret = 0 := by
    rw [he]
    rfl
  change _ ↔ _ ∧ _ ∧ Dense newline (maxline - 2) _
  rw [← hterm]
  constructor
  · rintro ⟨fuel, r, h, hsent, hsum⟩
    obtain ⟨h₁, h₂⟩ := forwardResponse_ok he h
    have hf : forwarded s.bytes = s.bytes := h₁.symm.trans hsent
    rw [hf] at h₂
    refine ⟨?_, length_forwarded_eq_iff.mp (by rw [hf])⟩
    rw [← hsum, h₂]
    exact Nat.mod_lt _ (by decide)
  · rintro ⟨hlt, ht⟩
    have hf := forwarded_of_terminated ht
    obtain ⟨r, h⟩ := exists_forwardResponse nioBuf forwardbuf payload he (by rwa [hf])
    obtain ⟨h₁, h₂⟩ := forwardResponse_ok he h
    rw [hf] at h₁ h₂
    exact ⟨_, r, h, h₁, by rw [h₂, Nat.mod_eq_of_lt hlt]⟩

/-- A response of one line, which comes in two chunks with an interrupted `read` between them. -/
theorem forwardResponse_transparent_ok :
    ∃ fuel r, forwardResponse fuel (Buf.zero _)  (Buf.zero _)
        ⟨[.data 111 [107], .eintr, .data 10 []], .eof⟩ (Buf.zero _) = .ok r ∧
      r.sent.flatten = [111, 107, 10] ∧ r.sum = 3 := by
  refine (forwardResponse_transparent_iff _ _ _ ⟨[.data 111 [107], .eintr, .data 10 []], .eof⟩
    rfl).mpr ⟨by decide, Or.inr rfl, fun w hw hl => ?_⟩
  have hle : w.length ≤ 2 := hw.length_le
  rw [hl] at hle
  exact absurd hle (by decide)

/-- The response `a` reaches the client with a NUL behind it. -/
theorem forwardResponse_not_transparent :
    (∃ fuel r, forwardResponse fuel (Buf.zero _) (Buf.zero _) ⟨[.data 97 []], .eof⟩ (Buf.zero _) =
        .ok r ∧ r.sent.flatten = [97, 0] ∧ r.sum = 2) ∧
      ¬ ∃ fuel r, forwardResponse fuel (Buf.zero _) (Buf.zero _) ⟨[.data 97 []], .eof⟩
        (Buf.zero _) = .ok r ∧ r.sent.flatten = [97] ∧ r.sum = 1 := by
  have hf : forwarded [97] = [97, 0] := by
    rw [forwarded_of_ne_nil (by simp)]
    simp [takeLine, dropLine, maxline, wire, forwarded_nil, newline]
  refine ⟨?_, ?_⟩
  · obtain ⟨r, h⟩ := exists_forwardResponse (Buf.zero _) (Buf.zero _) (s := ⟨[.data 97 []], .eof⟩)
      (Buf.zero _) rfl (by
        change (forwarded [97]).length < _
        rw [hf]
        decide)
    obtain ⟨h₁, h₂⟩ := forwardResponse_ok rfl h
    change _ = forwarded [97] at h₁
    change _ = (forwarded [97]).length % _ at h₂
    rw [hf] at h₁ h₂
    exact ⟨_, r, h, h₁, h₂⟩
  · rintro ⟨fuel, r, h, hsent, -⟩
    have h₁ := (forwardResponse_ok rfl h).1
    change _ = forwarded [97] at h₁
    rw [hsent, hf] at h₁
    cases h₁

end MiniProxy
