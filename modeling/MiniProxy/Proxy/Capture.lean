import MiniProxy.Proxy.Replay

/-!
# What is captured and stored

`forward_response` hands every line to the client and keeps a copy in `payload`, from which `new_node`
makes the payload of a node.

* `unterminated`, `length_forwarded`: how many bytes are forwarded;
* `Captures`: `payload` holds what the client got; `bytesize_lt_of_path`: the nodes fit into the array of
  `is_cached`, in every run; **`forwardResponse_captures_iff`**: `payload` does so for the answers of
  which less than `2 ^ 64` bytes are forwarded;
* `ProperString`, `StoresString`: `strlen` of the copy in a node reads the copy only and finds the end of
  the payload; `Unended`: the first NUL of `payload` stands behind the bytes that are copied;
* **`storesString_iff`**: the copy is a proper string unless the end of the payload is left out of it.
-/

namespace MiniProxy

open Clib Cache Lines

/-! ## The number of bytes -/

/-- The number of the lines of a response that no newline ends. -/
def unterminated (s : List UInt8) : ℕ := ((lines s).filter fun line => newline ∉ line).length

theorem length_flatten_wire (ls : List (List UInt8)) :
    (ls.map wire).flatten.length =
      ls.flatten.length + (ls.filter fun line => newline ∉ line).length := by
  induction ls with
  | nil => rfl
  | cons line ls ih =>
    rw [List.map_cons, List.flatten_cons, List.flatten_cons, List.length_append, List.length_append,
      ih, wire, List.filter_cons]
    by_cases h : newline ∈ line
    · simp only [h, not_true_eq_false, decide_false, if_true, Bool.false_eq_true, if_false]
      omega
    · simp only [h, not_false_eq_true, decide_true, if_true, if_false, List.length_append,
        List.length_cons, List.length_nil]
      omega

theorem length_forwarded (s : List UInt8) : (forwarded s).length = s.length + unterminated s := by
  rw [forwarded, length_flatten_wire, lines, flatten_splitLines]
  rfl

theorem copiesFit_of_ok {fuel : ℕ} {nioBuf : Buf nioBufsize} {forwardbuf : Buf maxline} {s : Sock}
    {payload : Buf maxObjectSize} {r : Forward} (he : s.ending.ret = 0)
    (h : forwardResponse fuel nioBuf forwardbuf s payload = .ok r) :
    CopiesFit 0 0 ((lines s.bytes).map wire) :=
  (exists_forwardResponse_iff nioBuf forwardbuf payload he
    (show s.bytes.length < fuel + s.bytes.length + 1 by omega)).mp
    ⟨r, forwardResponse_mono (by omega) h⟩

/-! ## What is captured -/

/-- `forward_response` stays inside its arrays and returns the number of the bytes that it has sent. The
first `MAX_OBJECT_SIZE` bytes of them are in `payload` if there are not more; and if there are less, a
NUL follows them, so that a node with them fits into the array of `is_cached`. -/
def Captures (nioBuf : Buf nioBufsize) (forwardbuf : Buf maxline) (s : Sock) : Prop :=
  ∃ r : Forward,
    Returns (fun fuel => forwardResponse fuel nioBuf forwardbuf s (Buf.zero maxObjectSize)) r ∧
    r.sum = r.sent.flatten.length ∧
    (r.sum ≤ maxObjectSize → r.payload.bytes.take r.sum = r.sent.flatten) ∧
    (r.sum < maxObjectSize → r.payload.bytes[r.sum]? = some 0 ∧
      (∃ n, strlen r.payload.bytes = .ok n ∧ n ≤ r.sum) ∧
      ∀ (c c' : Cache) (p : Ptr) (junk : List UInt8) (key : Key), p ≠ 0 →
        c.newNode p junk key r.payload.bytes r.sum = .ok c' → (c'.entry p).bytesize = r.sum ∧
          c'.copyOut p = .ok r.sent.flatten)

section Captures

variable {nioBuf : Buf nioBufsize} {forwardbuf : Buf maxline} {s : Sock}

theorem lt_of_captures (he : s.ending.ret = 0) (h : Captures nioBuf forwardbuf s) :
    (forwarded s.bytes).length < 2 ^ 64 := by
  obtain ⟨r, ⟨n, hn⟩, hsum, -⟩ := h
  obtain ⟨hsent, hmod⟩ := forwardResponse_ok he (hn n le_rfl)
  rw [← hsent, ← hsum, hmod]
  exact Nat.mod_lt _ (by decide)

theorem captures_of_lt (he : s.ending.ret = 0) (hs : (forwarded s.bytes).length < 2 ^ 64) :
    Captures nioBuf forwardbuf s := by
  obtain ⟨r, hr⟩ := exists_forwardResponse nioBuf forwardbuf (Buf.zero maxObjectSize) he hs
  obtain ⟨hsent, hsum⟩ := forwardResponse_ok he hr
  rw [Nat.mod_eq_of_lt hs] at hsum
  refine ⟨r, ⟨_, fun fuel hle => forwardResponse_mono hle hr⟩, by rw [hsum, hsent], ?_, ?_⟩
  · intro hle
    rw [forwardResponse_payload he (by omega) hr, hsum, List.take_left, hsent]
  · intro hlt
    have hpay := forwardResponse_payload he (by omega) hr
    have htake : r.payload.bytes.take r.sum = r.sent.flatten := by
      rw [hpay, hsum, List.take_left, hsent]
    have hnul : r.payload.bytes[r.sum]? = some 0 := by
      rw [hpay, hsum, List.getElem?_append_right le_rfl, Nat.sub_self, List.getElem?_replicate,
        if_pos (by omega)]
    refine ⟨hnul, ⟨_, strlen_of_mem (List.mem_of_getElem? hnul), length_cstr_le_of_get hnul⟩, ?_⟩
    intro c c' p junk key hp hnew
    obtain ⟨-, -, rfl⟩ := newNode_eq_ok.mp hnew
    have hlen : (r.sent.flatten).length = r.sum := by rw [hsent, hsum]
    rw [copyOut, deref_of ⟨hp, Function.update_self _ _ _⟩, ok_bind]
    simp only [Function.update_self]
    rw [check_of hlt.le, ok_bind, htake, List.take_left' hlen]
    exact ⟨trivial, rfl⟩

end Captures

theorem bytesize_lt_of_path {c₀ c : Cache} {tr : List (Env × Outcome)} {p : Ptr} (h₀ : IsInit c₀)
    (hrun : Lts.Path Serve c₀ tr c) (hp : Queued p c) : (c.entry p).bytesize < maxObjectSize := by
  obtain ⟨L, hI⟩ := path_served h₀ hrun
  obtain ⟨L', hR', hm⟩ := hp
  obtain rfl := hI.repr.unique hR'
  obtain ⟨env, key, f, hP⟩ := hI.origin p hm
  rw [hP.entry]
  exact hP.small

/-- **The captured payload is what the client got exactly when** less than `2 ^ 64` bytes are sent: those
of the answer, and one for each line of it that no newline ends. The nodes that a run stores fit into the
array of `is_cached`, whatever the answers are. -/
theorem forwardResponse_captures_iff (nioBuf : Buf nioBufsize) (forwardbuf : Buf maxline) (s : Sock)
    (he : s.ending = .eof) :
    (Captures nioBuf forwardbuf s ↔ s.bytes.length + unterminated s.bytes < 2 ^ 64) ∧
      ∀ {c₀ c : Cache} {tr : List (Env × Outcome)} {p : Ptr}, IsInit c₀ → Lts.Path Serve c₀ tr c →
        Queued p c → (c.entry p).bytesize < maxObjectSize := by
  have he : s.ending.ret = 0 := by
    rw [he]
    rfl
  refine ⟨?_, bytesize_lt_of_path⟩
  rw [← length_forwarded]
  exact ⟨lt_of_captures he, captures_of_lt he⟩

/-- An answer of two lines, of which the second lacks its newline. -/
theorem forwardResponse_captures_two : Captures (Buf.zero _) (Buf.zero _)
    ⟨[.data 97 [10, 98], .eintr, .data 99 []], .eof⟩ := by
  refine (forwardResponse_captures_iff _ _ _ rfl).1.mpr ?_
  have hle := length_forwarded_le [97, 10, 98, 99]
  rw [length_forwarded] at hle
  exact lt_of_le_of_lt hle (by decide)

theorem lines_newlines (n : ℕ) :
    (lines (List.replicate n newline)).map wire = List.replicate n [newline] := by
  induction n with
  | zero => simp [lines]
  | succ n ih =>
    obtain ⟨htake, hdrop⟩ := line_of_cons newline (k := maxline - 1) (by decide)
      (List.replicate n newline)
    have hw : wire [newline] = [newline] := by decide
    rw [List.replicate_succ, lines_of_ne_nil (List.cons_ne_nil _ _), htake, hdrop, List.map_cons, ih,
      hw, List.replicate_succ]

theorem lt_length_captured {n : ℕ} (x : UInt8) {sum : ℕ} (hs : sum < 2 ^ 64) (h : 2 ^ 64 ≤ sum + n) :
    maxObjectSize - sum < (captured sum (List.replicate n [x])).length := by
  have hmax : maxObjectSize < 2 ^ 64 := by decide
  induction n generalizing sum with
  | zero => omega
  | succ n ih =>
    rw [List.replicate_succ, captured, List.length_singleton]
    by_cases hwrap : sum + 1 = 2 ^ 64
    · rw [hwrap, Nat.mod_self, if_pos (Nat.zero_le _), List.length_append, List.length_singleton]
      omega
    · rw [Nat.mod_eq_of_lt (by omega)]
      have hn := ih (show sum + 1 < 2 ^ 64 by omega) (by omega)
      split_ifs
      · rw [List.length_append, List.length_singleton]
        omega
      · omega

/-- The answer of `2 ^ 64` newlines: the sum wraps around while `payload` is full, and the next copy
goes behind its end. -/
theorem not_forwardResponse_captures :
    (¬ ∃ fuel r, forwardResponse fuel (Buf.zero _) (Buf.zero _)
        (Sock.ofBytes (List.replicate (2 ^ 64) newline)) (Buf.zero _) = .ok r) ∧
      ¬ Captures (Buf.zero _) (Buf.zero _) (Sock.ofBytes (List.replicate (2 ^ 64) newline)) := by
  have hret : ¬ ∃ fuel r, forwardResponse fuel (Buf.zero _) (Buf.zero _)
      (Sock.ofBytes (List.replicate (2 ^ 64) newline)) (Buf.zero maxObjectSize) = .ok r := by
    rintro ⟨fuel, r, h⟩
    have hfit := copiesFit_of_ok rfl h
    rw [Sock.bytes_ofBytes, lines_newlines, copiesFit_iff (Nat.zero_le _)] at hfit
    have hlt := lt_length_captured (n := 2 ^ 64) newline (Nat.two_pow_pos 64) (by omega)
    omega
  refine ⟨hret, fun ⟨r, ⟨n, hn⟩, _⟩ => hret ⟨n, r, hn n le_rfl⟩⟩

/-! ## What is stored -/

/-- When `new_node` can make a node of `bytesize` bytes of `payload`, the bytes that it copies are a
string by themselves, the one in `payload`, whatever memory follows them; and `strlen(node->payload)` is
its length for as long as the node holds them. -/
def ProperString (payload : List UInt8) (bytesize : ℕ) : Prop :=
  ∀ (c c' : Cache) (p : Ptr) (junk : List UInt8) (key : Key), p ≠ 0 →
    c.newNode p junk key payload bytesize = .ok c' →
    ∃ n, strlen payload = .ok n ∧ n < bytesize ∧ bytesize ≤ n + 1 ∧
      strlen (payload.take bytesize) = .ok n ∧
      ∀ d : Cache, d.Alloc p → d.entry p = c'.entry p → d.payloadLen p = .ok n

/-- **The copy is a string** when a NUL is among the bytes that are copied. -/
theorem properString_iff {payload : List UInt8} {bytesize : ℕ} : ProperString payload bytesize ↔
    (0 ∈ payload → bytesize ≤ (cstr payload).length + 1 → 0 ∈ payload.take bytesize) := by
  constructor
  · intro h hterm hle
    obtain ⟨c', hnew⟩ := emptyCache.exists_newNode 3 [] ⟨[], [], []⟩ payload bytesize hterm hle
    obtain ⟨n, -, -, -, hcopy, -⟩ := h emptyCache c' 3 [] ⟨[], [], []⟩ (by decide) hnew
    exact (strlen_eq_ok.mp hcopy).1
  · intro h c c' p junk key hp hnew
    obtain ⟨hterm, hle, rfl⟩ := newNode_eq_ok.mp hnew
    have hm := h hterm hle
    have hsame : cstr (payload.take bytesize) = cstr payload := by
      have := cstr_append_of_mem hm (payload.drop bytesize)
      rwa [List.take_append_drop, eq_comm] at this
    have hlt := length_cstr_lt hm
    rw [hsame, List.length_take] at hlt
    refine ⟨_, strlen_of_mem hterm, by omega, hle, by rw [strlen_of_mem hm, hsame], ?_⟩
    intro d hd hde
    rw [payloadLen, deref_of hd, ok_bind, hde]
    simp only [Function.update_self]
    rw [strlen_of_mem (List.mem_append_left _ hm), cstr_append_of_mem hm, hsame]

/-- Every node that is made from an answer of the origin is a proper string. -/
def StoresString (nioBuf : Buf nioBufsize) (forwardbuf : Buf maxline) (s : Sock) : Prop :=
  ∀ r : Forward,
    Returns (fun fuel => forwardResponse fuel nioBuf forwardbuf s (Buf.zero maxObjectSize)) r →
    r.sum < maxObjectSize → ProperString r.payload.bytes r.sum

/-- The captured bytes of the answer `s` fit into `payload`, and are stored; the string in `payload` ends,
but not within the `sum` bytes that `new_node` copies. -/
def Unended (s : List UInt8) : Prop :=
  let d := captured 0 ((lines s).map wire)
  let sum := (forwarded s).length % 2 ^ 64
  d.length ≤ maxObjectSize ∧ sum < maxObjectSize ∧ 0 ∈ padded maxObjectSize d ∧
    0 ∉ (padded maxObjectSize d).take sum

theorem zero_not_mem_forwarded_iff {s : List UInt8} :
    0 ∉ forwarded s ↔ 0 ∉ s ∧ Terminated newline (maxline - 2) s := by
  constructor
  · intro h
    have h0 : 0 ∉ s := (not_mem_dropLast_forwarded_iff.mp fun hm => h (List.mem_of_mem_dropLast hm)).1
    exact ⟨h0, by_contra fun ht => h ((zero_mem_forwarded_iff h0).mpr ht)⟩
  · rintro ⟨h0, ht⟩
    rwa [forwarded_of_terminated ht]

theorem unended_iff {s : List UInt8} (hs : s.length + unterminated s < 2 ^ 64) :
    Unended s ↔ s.length < maxObjectSize ∧ 0 ∉ s ∧ (s = [] ∨ s.getLast? = some newline) ∧
      ∀ w, w <:+: s.dropLast → w.length = maxline - 1 → newline ∈ w := by
  have hterm := terminated_iff (d := newline) (k := maxline - 2) (l := s)
  change _ ↔ _ ∧ _ ∧ _ ∧ Dense newline (maxline - 2) _
  rw [← hterm, ← zero_not_mem_forwarded_iff, Unended]
  rw [← length_forwarded] at hs
  simp only [Nat.mod_eq_of_lt hs]
  constructor
  · rintro ⟨-, hlt, -, h0⟩
    have hle := length_le_length_forwarded s
    rw [captured_eq_flatten (by rw [Nat.zero_add]; exact hlt.le)] at h0
    have htake : (padded maxObjectSize (forwarded s)).take (forwarded s).length = forwarded s :=
      List.take_left
    exact ⟨by omega, fun hm => h0 (by rw [← htake] at hm; exact hm)⟩
  · rintro ⟨hlt, h0⟩
    have hsame := forwarded_of_terminated (zero_not_mem_forwarded_iff.mp h0).2
    have hflat : ((lines s).map wire).flatten = s := hsame
    rw [hsame] at h0 ⊢
    rw [captured_eq_flatten (by rw [hflat]; omega), hflat]
    refine ⟨hlt.le, hlt, ?_, ?_⟩
    · refine List.mem_append_right _ (List.mem_replicate.mpr ⟨by omega, rfl⟩)
    · rw [padded, List.take_left]
      exact h0

theorem storesString_iff_not_unended {nioBuf : Buf nioBufsize} {forwardbuf : Buf maxline} {s : Sock}
    (he : s.ending.ret = 0) : StoresString nioBuf forwardbuf s ↔ ¬ Unended s.bytes := by
  constructor
  · rintro h ⟨hfit, hlt, hterm, h0⟩
    have hcopies := (copiesFit_iff (Nat.zero_le _)).mpr ((Nat.zero_add _).trans_le hfit)
    obtain ⟨r, hr⟩ := (exists_forwardResponse_iff nioBuf forwardbuf (Buf.zero maxObjectSize) he
      (Nat.lt_succ_self _)).mpr hcopies
    obtain ⟨-, hsum⟩ := forwardResponse_ok he hr
    have hpay := forwardResponse_captured he hr
    rw [← hsum] at hlt h0
    rw [← hpay] at hterm h0
    refine h0 (properString_iff.mp
      (h r ⟨_, fun fuel hle => forwardResponse_mono hle hr⟩ hlt) hterm ?_)
    have := le_length_cstr (by rw [r.payload.length_bytes]; exact hlt.le) h0
    omega
  · intro h r ⟨n, hn⟩ hlt
    have hr := hn n le_rfl
    obtain ⟨-, hsum⟩ := forwardResponse_ok he hr
    have hfit := (copiesFit_iff (Nat.zero_le _)).mp (copiesFit_of_ok he hr)
    rw [Nat.zero_add] at hfit
    rw [hsum] at hlt ⊢
    rw [forwardResponse_captured he hr]
    exact properString_iff.mpr fun hterm _ => by_contra fun h0 => h ⟨hfit, hlt, hterm, h0⟩

/-- **The copy of an answer in a node is a proper string exactly when** the answer is not stored, the copy
does not fit, or the end of the payload is copied. When less than `2 ^ 64` bytes of the answer are
forwarded this fails for the answers shorter than `MAX_OBJECT_SIZE` that have no NUL, are empty or end
with a newline, and have a newline among any `MAXLINE - 1` bytes before their last one. -/
theorem storesString_iff (nioBuf : Buf nioBufsize) (forwardbuf : Buf maxline) (s : Sock)
    (he : s.ending = .eof) :
    (StoresString nioBuf forwardbuf s ↔ ¬ Unended s.bytes) ∧
      (s.bytes.length + unterminated s.bytes < 2 ^ 64 → (StoresString nioBuf forwardbuf s ↔
        ¬ (s.bytes.length < maxObjectSize ∧ 0 ∉ s.bytes ∧
          (s.bytes = [] ∨ s.bytes.getLast? = some newline) ∧
          ∀ w, w <:+: s.bytes.dropLast → w.length = maxline - 1 → newline ∈ w))) := by
  have he : s.ending.ret = 0 := by
    rw [he]
    rfl
  exact ⟨storesString_iff_not_unended he, fun hs => by
    rw [storesString_iff_not_unended he, unended_iff hs]⟩

/-- The answer `ok` without a newline, of which the copy has a NUL. -/
theorem storesString_ok :
    StoresString (Buf.zero _) (Buf.zero _) (Sock.ofBytes (ascii "ok")) := by
  have hle := length_forwarded_le (ascii "ok")
  rw [length_forwarded] at hle
  refine ((storesString_iff (Buf.zero _) (Buf.zero _) (Sock.ofBytes (ascii "ok")) rfl).2 ?_).mpr ?_
  · rw [Sock.bytes_ofBytes]
    exact lt_of_le_of_lt hle (by decide)
  · rw [Sock.bytes_ofBytes]
    rintro ⟨-, -, hlast, -⟩
    revert hlast
    decide

/-- The answer `ok` and a newline: the three bytes that `new_node` copies have no NUL. -/
theorem not_storesString :
    (∃ r : Forward, Returns (fun fuel => forwardResponse fuel (Buf.zero _) (Buf.zero _)
        (Sock.ofBytes (ascii "ok\n")) (Buf.zero _)) r ∧
      r.sum = 3 ∧ r.payload.bytes.take r.sum = ascii "ok\n") ∧
      ¬ StoresString (Buf.zero _) (Buf.zero _) (Sock.ofBytes (ascii "ok\n")) := by
  have hok : forwarded (ascii "ok\n") = ascii "ok\n" := forwarded_of_short (by decide) (by decide)
  have hlen : (forwarded (ascii "ok\n")).length = 3 := by
    rw [hok]
    rfl
  constructor
  · obtain ⟨r, hr⟩ := exists_forwardResponse (Buf.zero _) (Buf.zero _)
      (s := Sock.ofBytes (ascii "ok\n")) (Buf.zero _) rfl (by
        rw [Sock.bytes_ofBytes, hlen]
        decide)
    obtain ⟨-, hsum⟩ := forwardResponse_ok rfl hr
    have hpay := forwardResponse_payload rfl (by rw [Sock.bytes_ofBytes, hlen]; decide) hr
    rw [Sock.bytes_ofBytes, hlen] at hsum
    have hsum : r.sum = 3 := hsum
    rw [Sock.bytes_ofBytes, hok] at hpay
    exact ⟨r, ⟨_, fun fuel hle => forwardResponse_mono hle hr⟩, hsum, by
      rw [hpay, hsum, List.take_left' (by decide)]⟩
  · rw [storesString_iff_not_unended rfl, not_not, Sock.bytes_ofBytes,
      unended_iff (by rw [← length_forwarded, hlen]; decide)]
    refine ⟨by decide, by decide, by decide, fun w hw hl => ?_⟩
    have hle : w.length ≤ 2 := hw.length_le
    rw [hl] at hle
    exact absurd hle (by decide)

end MiniProxy
