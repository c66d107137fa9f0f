import MiniProxy.Proxy.Run

/-!
# The load of the cache

`cache_load` adds up `strlen(payload)`, while a node holds and a hit sends `bytesize` bytes.

* `Stores`: a request whose answer `worker_main` passes to `add_cache`;
* `Counted`: an answer of which `strlen` counts every byte;
* `Exact`: the invariant, `exact_step`;
* **`cacheLoad_exact`**: in the runs that store only such answers `cache_load` is the sum of the sizes,
  and at most `MAX_CACHE_SIZE`;
* **`not_cacheLoad_exact`**: a run after which it is not.
-/

namespace MiniProxy

open Clib Cache Lines

/-- The request is accepted, `is_cached` finds no node for it, and the answer is recorded as shorter than
`MAX_OBJECT_SIZE`. -/
def Stores (c : Cache) (env : Env) : Prop :=
  ∃ key nio L, receive env.loc env.connfd = .ok (.accepted key nio) ∧ c.Repr L ∧
    c.lookup L key = none ∧ (forwarded env.origin.bytes).length % 2 ^ 64 < maxObjectSize

/-- The answer `s` has no NUL, is empty or ends with a newline, and has a newline among any
`MAXLINE - 1` bytes before its last one; the byte behind its copy is a NUL. -/
def Counted (s junk : List UInt8) : Prop :=
  0 ∉ s ∧ (s = [] ∨ s.getLast? = some newline) ∧
    (∀ w, w <:+: s.dropLast → w.length = maxline - 1 → newline ∈ w) ∧ junk.head? = some 0

/-- Only answers that are counted are stored. -/
def StoresCounted (c : Cache) (a : Env × Outcome) : Prop :=
  Stores c a.1 → Counted a.1.origin.bytes a.1.junk

/-- The invariant: `strlen` counts every byte of the nodes of the queue `L`. -/
structure Exact (c : Cache) (L : List Ptr) : Prop where
  repr : c.Repr L
  size : ∀ p ∈ L, c.size p = (c.entry p).bytesize
  bound : (L.map c.size).sum ≤ maxCacheSize

variable {c c' c₀ : Cache} {L : List Ptr} {env : Env} {o : Outcome} {key : Key} {nio : Nio}
  {f : Fetched}

theorem size_of_counted {fuel : ℕ} (hf : fetch fuel env nio key = .ok f)
    (hsum : f.forward.sum < maxObjectSize) (h : Counted env.origin.bytes env.junk) :
    (cstr (f.entry key env.junk).payload).length = (f.entry key env.junk).bytesize := by
  obtain ⟨h0, hlast, hdense, hjunk⟩ := h
  obtain ⟨hret, hfw⟩ := fetch_forward hf
  have hterm : forwarded env.origin.bytes = env.origin.bytes :=
    forwarded_of_terminated (terminated_iff.mpr ⟨hlast, hdense⟩)
  have hmem := forwardResponse_not_mem hret (by rwa [hterm]) hfw hsum.le
  obtain ⟨j, hj⟩ : ∃ j, env.junk = 0 :: j := ⟨_, List.eq_cons_of_mem_head? hjunk⟩
  rw [Fetched.entry, hj]
  simp only
  rw [cstr_append_zero hmem, List.length_take, f.forward.payload.length_bytes]
  omega

/-- **Every request keeps the invariant.** -/
theorem exact_step (h : Exact c L) (hs : Serve c (env, o) c') (hG : StoresCounted c (env, o)) :
    ∃ L', Exact c' L' := by
  obtain ⟨L', he, hR'⟩ := effect_of_serve h.repr hs
  have hnode := hs.node_not_mem h.repr
  obtain rfl := hs.cache_eq
  refine ⟨L', hR', ?_, ?_⟩
  · cases he with
    | keep => exact h.size
    | hit key nio p ps qs c' hreq hL hfind hS =>
      intro q hq
      simp only [hS.size, hS.entry]
      subst hL
      exact h.size q ((Lru.perm_touch p ps qs).mem_iff.mp hq)
    | store key nio f d c' fuel hreq hfind hf hsum hle hstr hS =>
      intro q hq
      simp only
      rcases List.mem_append.mp ((Lru.evict_suffix _ _ _).subset hq) with hm | hm
      · rw [Cache.size, hS.entry_of_mem hnode hm]
        exact h.size q hm
      · rw [List.mem_singleton.mp hm, Cache.size, hS.entry, Function.update_self]
        obtain ⟨hret, hfw⟩ := fetch_forward hf
        refine size_of_counted hf hsum (hG ⟨key, nio, L, hreq, h.repr, hfind, ?_⟩)
        rwa [← (forwardResponse_ok hret hfw).2]
  · cases he with
    | keep => exact h.bound
    | hit key nio p ps qs c' hreq hL hfind hS =>
      subst hL
      simp only [hS.size]
      rw [((Lru.perm_touch p ps qs).map c.size).sum_eq]
      exact h.bound
    | store => exact Lru.sum_evict_le _ _ _

/-- **`cache_load` counts the bytes in the cache**, and they are at most `MAX_CACHE_SIZE`, after every
run of requests that stores only answers that are counted. -/
theorem cacheLoad_exact (h₀ : IsInit c₀) {tr : List (Env × Outcome)}
    (hrun : Lts.Path (Lts.Guarded Serve StoresCounted) c₀ tr c) :
    ∃ L, c.Repr L ∧ (L.map fun p => (c.entry p).bytesize).sum ≤ maxCacheSize ∧
      c.cacheLoad = (L.map fun p => (c.entry p).bytesize).sum := by
  obtain ⟨L, hE⟩ : ∃ L, Exact c L :=
    Lts.Path.invariant_state (fun c => ∃ L, Exact c L)
      ⟨[], h₀.repr, fun _ hp => absurd hp List.not_mem_nil, Nat.zero_le _⟩
      (fun _ _ _ ⟨_, hE⟩ hs => exact_step hE hs.1 hs.2) hrun
  have hmap : L.map c.size = L.map fun p => (c.entry p).bytesize := List.map_congr_left hE.size
  refine ⟨L, hE.repr, ?_, ?_⟩
  · rw [← hmap]
    exact hE.bound
  · rw [← hmap]
    exact hE.repr.load

/-- A run that stores a line. -/
theorem cacheLoad_exact_line : ∃ tr c, Lts.Path (Lts.Guarded Serve StoresCounted) emptyCache tr c ∧
    c.Repr [3] ∧ ∃ L, c.Repr L ∧ (L.map fun p => (c.entry p).bytesize).sum ≤ maxCacheSize ∧
      c.cacheLoad = (L.map fun p => (c.entry p).bytesize).sum := by
  have hok : forwarded (ascii "ok\n") = ascii "ok\n" := forwarded_of_short (by decide) (by decide)
  obtain ⟨f, c, hserve, hR, -, -⟩ := plain_store (s := "") (by decide) (ascii "ok\n")
    (by rw [hok]; decide) (by rw [hok]; decide)
  have horigin : (plainEnv (plainRequest "") (ascii "ok\n") 3 [0]).origin.bytes = ascii "ok\n" :=
    Sock.bytes_ofBytes _
  have hG : StoresCounted emptyCache (plainEnv (plainRequest "") (ascii "ok\n") 3 [0],
      ⟨.miss (plainKey "") f true, f.forward.sent, c⟩) := fun _ => by
    rw [horigin]
    refine ⟨by decide, by decide, fun w hw hl => ?_, rfl⟩
    have hlen : w.length ≤ 2 := hw.length_le
    rw [hl] at hlen
    exact absurd hlen (by decide)
  have hrun : Lts.Path (Lts.Guarded Serve StoresCounted) emptyCache _ c :=
    Lts.Path.single ⟨hserve, hG⟩
  exact ⟨_, c, hrun, hR, cacheLoad_exact isInit_emptyCache hrun⟩

/-- A run that stores the answer `a`: its node has two bytes, of which `cache_load` counts one. -/
theorem not_cacheLoad_exact : ∃ tr c, Lts.Path Serve emptyCache tr c ∧ c.Repr [3] ∧
    (c.entry 3).bytesize = 2 ∧ c.cacheLoad = 1 ∧
      ¬ ∃ L, c.Repr L ∧ (L.map fun p => (c.entry p).bytesize).sum ≤ maxCacheSize ∧
        c.cacheLoad = (L.map fun p => (c.entry p).bytesize).sum := by
  have ha : forwarded [97] = [97, 0] := by
    rw [forwarded_of_ne_nil (by simp)]
    simp [takeLine, dropLine, maxline, wire, forwarded_nil, newline]
  obtain ⟨f, c, hserve, hR, -, hent⟩ := plain_store (s := "") (by decide) [97]
    (by rw [ha]; decide) (by rw [ha]; decide)
  rw [ha] at hent
  have hload : c.cacheLoad = 1 := by
    rw [hR.load, List.map_singleton, List.sum_singleton, size, hent]
    rfl
  refine ⟨_, c, Lts.Path.single hserve, hR, by rw [hent]; rfl, hload, ?_⟩
  rintro ⟨L, hR', -, hsum⟩
  obtain rfl := hR.unique hR'
  rw [hload, List.map_singleton, List.sum_singleton, hent] at hsum
  cases hsum

end MiniProxy
