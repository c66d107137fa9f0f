import MiniProxy.Proxy.Run

/-!
# What a hit replays

An answer that was forwarded and stored, and the later requests that are answered with it.

* `zero_mem_forwarded_iff`, `not_mem_dropLast_forwarded_iff`: the NULs in what is forwarded;
* `Queued`, `entry_of_path`: a node keeps what it holds while it stays in the queue;
* `clean_of_replay`, `replay_of_clean`, **`replay_iff`**: the hits send the client what the miss has sent
  exactly when the answer has no NUL, has a newline in every line but the last, and `strlen` finds the
  end of its copy;
* **`not_replay`**: an answer for which `new_node` copies too much.
-/

namespace MiniProxy

open Clib Cache Lines

/-! ## NULs -/

theorem mem_wire_iff {line : List UInt8} (h0 : 0 ∉ line) : 0 ∈ wire line ↔ newline ∉ line := by
  rw [wire]
  split_ifs with hm
  · exact iff_of_false h0 (not_not.mpr hm)
  · exact iff_of_true (by simp) hm

theorem zero_mem_forwarded_iff {s : List UInt8} (h0 : 0 ∉ s) :
    0 ∈ forwarded s ↔ ¬ Terminated newline (maxline - 2) s := by
  have hline : ∀ line ∈ lines s, 0 ∉ line := fun line hl h => by
    refine h0 ?_
    rw [← flatten_splitLines newline (maxline - 2) s]
    exact List.mem_flatten_of_mem hl h
  simp only [forwarded, List.mem_flatten, Terminated, not_forall, exists_prop]
  constructor
  · rintro ⟨w, hw, h⟩
    obtain ⟨line, hl, rfl⟩ := List.mem_map.mp hw
    exact ⟨line, hl, (mem_wire_iff (hline line hl)).mp h⟩
  · rintro ⟨line, hl, h⟩
    exact ⟨_, List.mem_map_of_mem hl, (mem_wire_iff (hline line hl)).mpr h⟩

theorem forwarded_ne_nil {s : List UInt8} (h : s ≠ []) : forwarded s ≠ [] := fun e => by
  have := length_le_length_forwarded s
  rw [e] at this
  exact h (List.eq_nil_of_length_eq_zero (Nat.le_zero.mp this))

theorem innerTerminated_of_ne_nil {s : List UInt8} (h : s ≠ [])
    (hr : dropLine newline (maxline - 1) s ≠ []) :
    InnerTerminated newline (maxline - 2) s ↔ newline ∈ takeLine newline (maxline - 1) s ∧
      InnerTerminated newline (maxline - 2) (dropLine newline (maxline - 1) s) := by
  have hne := splitLines_ne_nil newline (maxline - 2) hr
  have hmax : maxline - 2 + 1 = maxline - 1 := rfl
  rw [InnerTerminated, splitLines_of_ne_nil _ _ h, hmax, List.dropLast_cons_of_ne_nil hne]
  simp only [List.mem_cons, forall_eq_or_imp]
  rfl

theorem not_mem_dropLast_wire {line : List UInt8} (h : newline ∉ line.dropLast) :
    0 ∉ (wire line).dropLast ↔ 0 ∉ line := by
  rw [wire]
  split_ifs with hm
  · have hne : line ≠ [] := List.ne_nil_of_mem hm
    have hcat := List.dropLast_concat_getLast hne
    rw [← hcat, List.mem_append, List.mem_singleton] at hm
    have hlast := hm.resolve_left h
    have hzero : (0 : UInt8) ≠ newline := by decide
    conv_rhs => rw [← hcat, List.mem_append, List.mem_singleton, ← hlast]
    simp [hzero]
  · rw [List.dropLast_concat]

theorem not_mem_dropLast_forwarded_iff {s : List UInt8} :
    0 ∉ (forwarded s).dropLast ↔ 0 ∉ s ∧ InnerTerminated newline (maxline - 2) s := by
  induction s using line_induction newline (maxline - 2) with
  | nil => simp [forwarded_nil, InnerTerminated]
  | line s hs ih =>
    have hmax : maxline - 2 + 1 = maxline - 1 := rfl
    rw [hmax] at ih
    have hsplit := takeLine_append_dropLine newline (maxline - 1) s
    rw [forwarded_of_ne_nil hs]
    by_cases hr : dropLine newline (maxline - 1) s = []
    · have hp : takeLine newline (maxline - 1) s = s := by rwa [hr, List.append_nil] at hsplit
      have hlast := not_mem_dropLast_takeLine newline (maxline - 1) s
      have hinner : InnerTerminated newline (maxline - 2) s := by
        rw [InnerTerminated, splitLines_of_ne_nil _ _ hs, hmax, hr, splitLines_nil]
        simp
      rw [hp] at hlast
      rw [hr, forwarded_nil, List.append_nil, hp, not_mem_dropLast_wire hlast, and_iff_left hinner]
    · have h0s : 0 ∉ s ↔ 0 ∉ takeLine newline (maxline - 1) s ∧
          0 ∉ dropLine newline (maxline - 1) s := by
        conv_lhs => rw [← hsplit, List.mem_append, not_or]
      rw [List.dropLast_append_of_ne_nil (forwarded_ne_nil hr), List.mem_append, not_or, ih, h0s,
        innerTerminated_of_ne_nil hs hr]
      constructor
      · rintro ⟨hw, h0, hi⟩
        have hp : 0 ∉ takeLine newline (maxline - 1) s := fun h => hw (by
          rw [wire]
          split_ifs
          · exact h
          · exact List.mem_append_left _ h)
        exact ⟨⟨hp, h0⟩, by_contra fun hm => hw ((mem_wire_iff hp).mpr hm), hi⟩
      · rintro ⟨⟨hp, h0⟩, hm, hi⟩
        exact ⟨fun h => (mem_wire_iff hp).mp h hm, h0, hi⟩

theorem length_forwarded_le (s : List UInt8) : (forwarded s).length ≤ 2 * s.length := by
  induction s using line_induction newline (maxline - 2) with
  | nil => rw [forwarded_nil]; exact Nat.zero_le _
  | line s hs ih =>
    have hmax : maxline - 2 + 1 = maxline - 1 := rfl
    have hsplit := congrArg List.length (takeLine_append_dropLine newline (maxline - 1) s)
    have hpos := List.length_pos_iff.mpr (takeLine_ne_nil newline (k := maxline - 1) (by decide) hs)
    have hw := length_wire_le (le_refl (takeLine newline (maxline - 1) s).length)
    rw [List.length_append] at hsplit
    rw [hmax] at ih
    rw [forwarded_of_ne_nil hs, List.length_append]
    omega

/-! ## Nodes that stay in the queue -/

/-- The node at `p` is in the queue. -/
def Queued (p : Ptr) (c : Cache) : Prop := ∃ L, c.Repr L ∧ p ∈ L

variable {c c' c₀ : Cache} {L : List Ptr} {p : Ptr} {env : Env} {o : Outcome} {key : Key}
  {nio : Nio} {f : Fetched}

theorem entry_of_serve (hp : Queued p c) (hs : Serve c (env, o) c') : c'.entry p = c.entry p := by
  obtain ⟨L, hR, hm⟩ := hp
  obtain ⟨L', he, -⟩ := effect_of_serve hR hs
  have hnode := hs.node_not_mem hR
  obtain rfl := hs.cache_eq
  cases he with
  | keep => rfl
  | hit key nio q ps qs c' hreq hL hfind hS => exact congrFun hS.entry p
  | store key nio f d c' fuel hreq hfind hf hsum hle hstr hS =>
    exact hS.entry_of_mem hnode hm

/-- **A node keeps what it holds** while it stays in the queue. -/
theorem entry_of_path {tr : List (Env × Outcome)}
    (h : Lts.Path (Lts.Guarded Serve fun c _ => Queued p c) c tr c') : c'.entry p = c.entry p :=
  Lts.Path.invariant_state (fun s => s.entry p = c.entry p) rfl
    (fun _ _ _ he hs => (entry_of_serve hs.2 hs.1).trans he) h

/-- **A hit on a node of the queue** sends what the node holds. -/
theorem serve_queued {tr : List (Env × Outcome)} (h : Served tr c L) (hp : p ∈ L)
    (hnode : env.node ≠ 0) (hfree : c.live env.node = false)
    (hreq : receive env.loc env.connfd = .ok (.accepted key nio))
    (hkey : (c.entry p).key.isMatch key = true) (hle : (c.entry p).bytesize ≤ maxObjectSize) :
    ∃ o c', Serve c (env, o) c' ∧ o.reply = .hit key ∧
      o.toClient = [(c.entry p).payload.take (c.entry p).bytesize] := by
  obtain ⟨q, hq⟩ : ∃ q, c.lookup L key = some q := by
    refine Option.isSome_iff_exists.mp (List.find?_isSome.mpr ⟨p, List.mem_reverse.mpr hp, hkey⟩)
  obtain ⟨hqL, hqk⟩ := isMatch_of_lookup hq
  obtain rfl := h.eq_of_isMatch hp hqL hkey hqk
  obtain ⟨c', -, -, -, hserve⟩ := serve_hit h.repr hnode hfree hreq hq hle
  exact ⟨_, c', hserve, rfl, rfl⟩

/-! ## Replays -/

/-- What the answer must be like for the hits to replay it: it is shorter than `MAX_OBJECT_SIZE`, has
no NUL and has a newline among any `MAXLINE - 1` bytes before its last one; and `strlen` finds the end
of its copy, behind the copy if a newline ends the answer. -/
def Replayable (s junk : List UInt8) : Prop :=
  s.length < maxObjectSize ∧ 0 ∉ s ∧
    (∀ w, w <:+: s.dropLast → w.length = maxline - 1 → newline ∈ w) ∧
    (s = [] ∨ s.getLast? = some newline → 0 ∈ junk)

theorem replayable_iff {s junk : List UInt8} : Replayable s junk ↔
    s.length < maxObjectSize ∧ 0 ∉ (forwarded s).dropLast ∧ 0 ∈ forwarded s ++ junk := by
  have hdense : (∀ w, w <:+: s.dropLast → w.length = maxline - 1 → newline ∈ w) ↔
      InnerTerminated newline (maxline - 2) s := innerTerminated_iff.symm
  rw [Replayable, hdense, not_mem_dropLast_forwarded_iff, List.mem_append, and_assoc]
  refine and_congr_right fun _ => and_congr_right fun h0 => and_congr_right fun hi => ?_
  have hterm : Terminated newline (maxline - 2) s ↔ s = [] ∨ s.getLast? = some newline := by
    rw [terminated_iff, ← innerTerminated_iff, and_iff_left hi]
  rw [zero_mem_forwarded_iff h0, hterm]
  tauto

/-- What `new_node` stored and later hits send is what the client got. -/
def Replays (c : Cache) (env : Env) (key : Key) (f : Fetched) : Prop :=
  ∃ c', Serve c (env, ⟨.miss key f true, f.forward.sent, c'⟩) c' ∧
    (c'.entry env.node).payload.take (c'.entry env.node).bytesize = f.forward.sent.flatten ∧
    ∀ tr c₂, Lts.Path (Lts.Guarded Serve fun c _ => Queued env.node c) c' tr c₂ →
      Queued env.node c₂ → ∀ env₂ nio₂, env₂.node ≠ 0 → c₂.live env₂.node = false →
        receive env₂.loc env₂.connfd = .ok (.accepted key nio₂) →
        ∃ o c₃, Serve c₂ (env₂, o) c₃ ∧ o.reply = .hit key ∧
          o.toClient.flatten = f.forward.sent.flatten

theorem replayable_of_serve {fuel : ℕ} (hR : c.Repr L) (hf : fetch fuel env nio key = .ok f)
    (h : Serve c (env, ⟨.miss key f true, f.forward.sent, c'⟩) c')
    (hsame : (c'.entry env.node).payload.take (c'.entry env.node).bytesize =
      f.forward.sent.flatten) : Replayable env.origin.bytes env.junk := by
  obtain ⟨L', he, -⟩ := effect_of_serve hR h
  cases he with
  | keep _ _ _ hmiss => exact absurd rfl (hmiss key f)
  | store _ nio' _ d _ fuel' hreq hfind hf' hsum hle hstr hS =>
    obtain ⟨hret, hfw⟩ := fetch_forward hf
    have hsent := (forwardResponse_ok hret hfw).1
    have hlen : (f.forward.payload.bytes.take f.forward.sum).length = f.forward.sum := by
      rw [List.length_take, f.forward.payload.length_bytes]
      omega
    rw [hS.entry, Function.update_self, Fetched.entry] at hsame
    simp only at hsame
    rw [List.take_left' hlen, hsent] at hsame
    rw [hsame] at hlen hstr
    obtain ⟨-, hsum', hpay⟩ := fetch_small hf (hlen.trans_lt hsum)
    obtain ⟨k, hk⟩ : ∃ k, maxObjectSize - (forwarded env.origin.bytes).length = k + 1 :=
      ⟨maxObjectSize - (forwarded env.origin.bytes).length - 1, by omega⟩
    rw [hpay, hk, List.replicate_succ, cstr_append_cons_zero, hsum'] at hle
    have hs := length_le_length_forwarded env.origin.bytes
    exact replayable_iff.mpr ⟨by omega, length_le_length_cstr_iff.mp hle, hstr⟩

/-- **An answer that is replayed.** -/
theorem replays_of_replayable {tr : List (Env × Outcome)} (h₀ : IsInit c₀)
    (hrun : Lts.Path Serve c₀ tr c) (hnode : env.node ≠ 0) (hfree : c.live env.node = false)
    (hreq : receive env.loc env.connfd = .ok (.accepted key nio))
    (hmiss : Returns (fun fuel => c.isCached fuel key) (none, c))
    (hf : Returns (fun fuel => fetch fuel env nio key) f) (hsum : f.forward.sum < maxObjectSize)
    (h : Replayable env.origin.bytes env.junk) : Replays c env key f := by
  obtain ⟨L, hI⟩ := path_served h₀ hrun
  obtain ⟨hlen, hnul, hstr⟩ := replayable_iff.mp h
  obtain ⟨n, hn⟩ := id hf
  obtain ⟨hret, hfw⟩ := fetch_forward (hn n le_rfl)
  have hmax : maxObjectSize = 102400 := rfl
  have hlen' : (forwarded env.origin.bytes).length < maxObjectSize := by
    have hle := length_forwarded_le env.origin.bytes
    have := (forwardResponse_ok hret hfw).2
    rw [Nat.mod_eq_of_lt (by omega)] at this
    omega
  obtain ⟨hsent, -, -⟩ := fetch_small (hn n le_rfl) hlen'
  have hfind : c.lookup L key = none := by
    cases hl : c.lookup L key with
    | none => rfl
    | some p =>
      obtain ⟨ps, qs, hL⟩ := exists_split_of_lookup hl
      obtain ⟨c₁, -, -, hall⟩ := hI.repr.isCached_some hL hl
      obtain ⟨m, hm⟩ := hmiss
      have hm := hm (m + L.length + 1) (by omega)
      obtain ⟨bytes, -, hbad⟩ := bind_ok_iff.mp ((hall _ (by omega)).symm.trans hm)
      cases hbad
  obtain ⟨c', d, hS, hentry, hserve⟩ := serve_miss hI.repr hnode hfree hreq hfind hf hlen' hnul hstr
  have hnew : c'.entry env.node = ⟨key, forwarded env.origin.bytes ++ env.junk,
      (forwarded env.origin.bytes).length⟩ := by
    rw [hS.entry, Function.update_self, hentry]
  have htake : (c'.entry env.node).payload.take (c'.entry env.node).bytesize =
      f.forward.sent.flatten := by
    rw [hnew, hsent]
    exact List.take_left
  refine ⟨c', hserve, htake, fun tr₂ c₂ hpath hq env₂ nio₂ hnode₂ hfree₂ hreq₂ => ?_⟩
  obtain ⟨L₂, hI₂⟩ := path_served h₀ ((hrun.append (Lts.Path.single hserve)).append
    (hpath.mono fun _ _ _ h => h.1))
  obtain ⟨L₃, hR₃, hm⟩ := hq
  have hm : env.node ∈ L₂ := hI₂.repr.unique hR₃ ▸ hm
  have hent := entry_of_path hpath
  obtain ⟨o, c₃, hserve₂, hreply, hout⟩ := serve_queued hI₂ hm hnode₂ hfree₂ hreq₂
    (by rw [hent, hnew]; exact Key.isMatch_refl key) (by rw [hent, hnew]; exact hlen'.le)
  refine ⟨o, c₃, hserve₂, hreply, ?_⟩
  rw [hout, hent, htake, List.flatten_singleton]

/-- **A hit replays the miss byte for byte exactly when** the answer of the origin is shorter than
`MAX_OBJECT_SIZE`, has no NUL, has a newline among any `MAXLINE - 1` bytes before its last one, and
`strlen` finds the end of its copy. -/
theorem replay_iff {tr : List (Env × Outcome)} (h₀ : IsInit c₀) (hrun : Lts.Path Serve c₀ tr c)
    (hnode : env.node ≠ 0) (hfree : c.live env.node = false)
    (hreq : receive env.loc env.connfd = .ok (.accepted key nio))
    (hmiss : Returns (fun fuel => c.isCached fuel key) (none, c))
    (hf : Returns (fun fuel => fetch fuel env nio key) f) (hsum : f.forward.sum < maxObjectSize) :
    Replays c env key f ↔ Replayable env.origin.bytes env.junk := by
  refine ⟨fun ⟨c', hserve, hsame, _⟩ => ?_, replays_of_replayable h₀ hrun hnode hfree hreq hmiss hf
    hsum⟩
  obtain ⟨L, hI⟩ := path_served h₀ hrun
  obtain ⟨n, hn⟩ := hf
  exact replayable_of_serve hI.repr (hn n le_rfl) hserve hsame

/-- The first request of a run, whose short answer is replayed. -/
theorem replay_ok : ∃ nio f,
    receive (plainEnv (plainRequest "") (ascii "ok\n") 3 [0]).loc
      (plainEnv (plainRequest "") (ascii "ok\n") 3 [0]).connfd = .ok (.accepted (plainKey "") nio) ∧
    Replays emptyCache (plainEnv (plainRequest "") (ascii "ok\n") 3 [0]) (plainKey "") f := by
  have hle := length_forwarded_le (ascii "ok\n")
  have hok : (ascii "ok\n").length = 3 := by decide
  have horigin : (plainEnv (plainRequest "") (ascii "ok\n") 3 [0]).origin.bytes = ascii "ok\n" :=
    Sock.bytes_ofBytes _
  have hmax : maxObjectSize = 102400 := rfl
  obtain ⟨nio, f, hreq, hf⟩ := plain_fetch (s := "") (by decide) (ascii "ok\n") 3 [0]
    (by omega)
  obtain ⟨n, hn⟩ := id hf
  obtain ⟨-, hsum, -⟩ := fetch_small (hn n le_rfl) (by rw [horigin]; omega)
  rw [horigin] at hsum
  refine ⟨nio, f, hreq, (replay_iff isInit_emptyCache (Lts.Path.nil _) (by decide) (by decide) hreq
    ⟨1, fun fuel h => isInit_emptyCache.repr.isCached_none rfl h⟩ hf (by omega)).mpr ?_⟩
  rw [horigin]
  refine ⟨by decide, by decide, fun w hw hl => ?_, fun _ => List.mem_singleton_self 0⟩
  have hlen : w.length ≤ 2 := hw.length_le
  rw [hl] at hlen
  exact absurd hlen (by decide)

/-- The answer of a NUL and a newline, of which `new_node` copies two bytes into a block of one. -/
theorem not_replay : ∃ nio f,
    receive (plainEnv (plainRequest "") [0, newline] 3 [0]).loc
      (plainEnv (plainRequest "") [0, newline] 3 [0]).connfd = .ok (.accepted (plainKey "") nio) ∧
    Returns (fun fuel => emptyCache.isCached fuel (plainKey "")) (none, emptyCache) ∧
    Returns (fun fuel => fetch fuel (plainEnv (plainRequest "") [0, newline] 3 [0]) nio
      (plainKey "")) f ∧
    f.forward.sum = 2 ∧
    emptyCache.newNode 3 [0] (plainKey "") f.forward.payload.bytes f.forward.sum = .error .oob ∧
    ¬ Replays emptyCache (plainEnv (plainRequest "") [0, newline] 3 [0]) (plainKey "") f := by
  have horigin : (plainEnv (plainRequest "") [0, newline] 3 [0]).origin.bytes = [0, newline] :=
    Sock.bytes_ofBytes _
  have hw : forwarded [0, newline] = [0, newline] := forwarded_of_short rfl (by decide)
  obtain ⟨nio, f, hreq, hf⟩ := plain_fetch (s := "") (by decide) [0, newline] 3 [0]
    (by rw [hw]; decide)
  obtain ⟨n, hn⟩ := id hf
  obtain ⟨-, hsum, hpay⟩ := fetch_small (hn n le_rfl) (by rw [horigin, hw]; decide)
  rw [horigin, hw] at hsum hpay
  have hsum : f.forward.sum = 2 := hsum
  have hnew : emptyCache.newNode 3 [0] (plainKey "") f.forward.payload.bytes f.forward.sum =
      .error .oob := by
    have hlen : strlen f.forward.payload.bytes = .ok 0 := by
      rw [hpay]
      rfl
    rw [newNode, hlen, hsum]
    rfl
  refine ⟨nio, f, hreq, ⟨1, fun fuel h => isInit_emptyCache.repr.isCached_none rfl h⟩, hf, hsum, hnew,
    ?_⟩
  rintro ⟨c', hserve, hsame, -⟩
  have hclean := replayable_of_serve isInit_emptyCache.repr (hn n le_rfl) hserve hsame
  rw [horigin] at hclean
  exact hclean.2.1 List.mem_cons_self

end MiniProxy
