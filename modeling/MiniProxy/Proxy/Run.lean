import MiniProxy.Cache.Policy
import MiniProxy.Proxy.Worker

/-!
# Requests, one at a time

Runs in which every call of `worker_main` returns before the next one begins.

* `Serve`: one request; `Effect`, **`effect_of_serve`**: what it does to the queue;
* `serve_hit`, `serve_store`: a request that is answered from the cache, and one whose answer is stored;
* `storedAt`: the request that has stored the node at an address;
* `Served`: the invariant of the runs, `served_step`, **`path_served`**: no two nodes of the queue match
  each other, and every node holds what a request of the run has stored.
-/

namespace MiniProxy

open Clib Cache

/-- One request that is served while nothing else runs. -/
inductive Serve : Cache → Env × Outcome → Cache → Prop
  | mk (c : Cache) (env : Env) (o : Outcome) (hnode : env.node ≠ 0) (hfree : c.live env.node = false)
      (h : Returns (fun fuel => workerMain fuel env c) o) : Serve c (env, o) o.cache

/-- The node that `add_cache` makes of an answer. -/
def Fetched.entry (f : Fetched) (key : Key) (junk : List UInt8) : Entry :=
  ⟨key, f.forward.payload.bytes.take f.forward.sum ++ junk, f.forward.sum⟩

/-- The node of the queue `L` that `is_cached` finds. -/
def Cache.lookup (c : Cache) (L : List Ptr) (key : Key) : Option Ptr :=
  L.reverse.find? fun p => (c.entry p).key.isMatch key

/-- What a request does to a cache with queue `L`. -/
inductive Effect (c : Cache) (L : List Ptr) (env : Env) : Outcome → List Ptr → Prop
  | keep (reply : Reply) (sent : List (List UInt8)) (hhit : ∀ key, reply ≠ .hit key)
      (hmiss : ∀ key f, reply ≠ .miss key f true) : Effect c L env ⟨reply, sent, c⟩ L
  | hit (key : Key) (nio : Nio) (p : Ptr) (ps qs : List Ptr) (c' : Cache)
      (hreq : receive env.loc env.connfd = .ok (.accepted key nio)) (hL : L = ps ++ p :: qs)
      (hfind : c.lookup L key = some p) (hS : SameNodes c c') :
      Effect c L env ⟨.hit key, [(c.entry p).payload.take (c.entry p).bytesize], c'⟩ (ps ++ qs ++ [p])
  | store (key : Key) (nio : Nio) (f : Fetched) (d : List Ptr) (c' : Cache) (fuel : ℕ)
      (hreq : receive env.loc env.connfd = .ok (.accepted key nio))
      (hfind : c.lookup L key = none) (hf : fetch fuel env nio key = .ok f)
      (hsum : f.forward.sum < maxObjectSize)
      (hle : f.forward.sum ≤ (cstr f.forward.payload.bytes).length + 1)
      (hstr : 0 ∈ f.forward.payload.bytes.take f.forward.sum ++ env.junk)
      (hS : Stored c L env.node (f.entry key env.junk) d c') :
      Effect c L env ⟨.miss key f true, f.forward.sent, c'⟩
        (Lru.evict c'.size maxCacheSize (L ++ [env.node]))

variable {c c' c₀ : Cache} {L L' : List Ptr} {p : Ptr} {env : Env} {o : Outcome} {key : Key}
  {nio : Nio} {f : Fetched}

theorem Serve.node_not_mem (hs : Serve c (env, o) c') (hR : c.Repr L) : env.node ∉ L := by
  cases hs with
  | mk _ _ hnode hfree hret => exact hR.not_mem hfree

theorem Serve.cache_eq (hs : Serve c (env, o) c') : c' = o.cache := by
  cases hs
  rfl

theorem exists_split_of_lookup (h : c.lookup L key = some p) : ∃ ps qs, L = ps ++ p :: qs :=
  List.append_of_mem (List.mem_reverse.mp (List.mem_of_find?_eq_some h))

theorem isMatch_of_lookup (h : c.lookup L key = some p) :
    p ∈ L ∧ (c.entry p).key.isMatch key = true :=
  ⟨List.mem_reverse.mp (List.mem_of_find?_eq_some h),
    List.find?_some (p := fun q => (c.entry q).key.isMatch key) h⟩

theorem read_of_write {n : ℕ} {b b' : Buf n} {bs bs' : List UInt8} (hw : b.write 0 bs = .ok b')
    (hr : b'.read 0 bs.length = .ok bs') : bs' = bs := by
  obtain ⟨-, rfl⟩ := Buf.read_eq_ok.mp hr
  have := Buf.take_of_write hw
  rw [Nat.zero_add, List.take_zero, List.nil_append] at this
  rw [List.drop_zero, this]

/-- **What one request does.** -/
theorem effect_of_serve (hR : c.Repr L) (h : Serve c (env, o) c') :
    ∃ L', Effect c L env o L' ∧ c'.Repr L' := by
  cases h with | mk _ _ hnode hfree hret
  obtain ⟨n, hn⟩ := hret
  have h := hn (n + L.length + 2) (by omega)
  have hf : L.length < n + L.length + 2 := by omega
  have hf' : L.length + 1 < n + L.length + 2 := by omega
  generalize n + L.length + 2 = fuel at h hf hf'
  obtain ⟨r, hreq, h⟩ := bind_ok_iff.mp h
  cases r with
  | nothing =>
    cases h
    exact ⟨L, .keep _ _ nofun nofun, hR⟩
  | rejected sent =>
    cases h
    exact ⟨L, .keep _ _ nofun nofun, hR⟩
  | accepted key nio =>
    cases hfind : c.lookup L key with
    | some p =>
      obtain ⟨ps, qs, hL⟩ := exists_split_of_lookup hfind
      obtain ⟨c₁, hR₁, hS, hall⟩ := hR.isCached_some hL hfind
      simp only [hall fuel hf] at h
      obtain ⟨⟨r, c₂⟩, hcopy, h⟩ := bind_ok_iff.mp h
      obtain ⟨bytes, hbytes, hcopy⟩ := bind_ok_iff.mp hcopy
      cases hcopy
      obtain ⟨b, hb, h⟩ := bind_ok_iff.mp h
      obtain ⟨sent, hsent, h⟩ := bind_ok_iff.mp h
      cases h
      obtain ⟨_, -, hbytes⟩ := bind_ok_iff.mp hbytes
      obtain ⟨_, -, hbytes⟩ := bind_ok_iff.mp hbytes
      have hsent := read_of_write hb hsent
      cases hbytes
      rw [hS.entry] at hsent
      rw [hsent]
      exact ⟨_, .hit key nio p ps qs _ hreq hL hfind hS, hR₁⟩
    | none =>
      simp only [hR.isCached_none hfind hf, ok_bind] at h
      obtain ⟨f, hfetch, h⟩ := bind_ok_iff.mp h
      split_ifs at h with hsum
      · obtain ⟨c₁, hadd, h⟩ := bind_ok_iff.mp h
        obtain ⟨_, -, h⟩ := bind_ok_iff.mp h
        cases h
        obtain ⟨hterm, hle, hstr⟩ := addCache_ok hR hnode hfree hadd
        obtain ⟨c₂, d, hS, hall⟩ := hR.addCache hnode hfree env.junk _ key _ hterm hle hstr
        cases hadd.symm.trans (hall fuel hf')
        exact ⟨_, .store key nio f d _ fuel hreq hfind hfetch hsum hle hstr hS, hS.repr⟩
      · cases h
        exact ⟨L, .keep _ _ nofun nofun, hR⟩

/-! ## Requests that return -/

section Returns

variable (hR : c.Repr L) (hnode : env.node ≠ 0) (hfree : c.live env.node = false)
  (hreq : receive env.loc env.connfd = .ok (.accepted key nio))

include hR hnode hfree hreq

/-- **A request that is answered from the cache**, by a node whose answer fits. -/
theorem serve_hit (hfind : c.lookup L key = some p)
    (hle : (c.entry p).bytesize ≤ maxObjectSize) :
    ∃ c' L', c'.Repr L' ∧ SameNodes c c' ∧
      Serve c (env, ⟨.hit key, [(c.entry p).payload.take (c.entry p).bytesize], c'⟩) c' := by
  obtain ⟨ps, qs, hL⟩ := exists_split_of_lookup hfind
  obtain ⟨c', hR', hS, hall⟩ := hR.isCached_some hL hfind
  have ha : c'.Alloc p := (hS.alloc p).mpr (hR.alloc_mem (isMatch_of_lookup hfind).1)
  have hcopy : c'.copyOut p = .ok ((c.entry p).payload.take (c.entry p).bytesize) := by
    rw [copyOut, deref_of ha, ok_bind, hS.entry, check_of hle]
    rfl
  have hlen : ((c.entry p).payload.take (c.entry p).bytesize).length ≤ maxObjectSize :=
    (List.length_take_le _ _).trans hle
  obtain ⟨b, hb, -⟩ := env.loc.payloadCache.exists_write 0
    ((c.entry p).payload.take (c.entry p).bytesize) (by rwa [Nat.zero_add])
  have hread : b.read 0 ((c.entry p).payload.take (c.entry p).bytesize).length =
      .ok ((c.entry p).payload.take (c.entry p).bytesize) := by
    rw [read_write_zero hb le_rfl, List.take_length]
  refine ⟨c', _, hR', hS, .mk c env _ hnode hfree ⟨L.length + 1, fun fuel hf => ?_⟩⟩
  simp only [workerMain, hreq, ok_bind, hall fuel hf, hcopy, hb, forwardResponseCached, hread,
    pure_eq_ok]

/-- **A request whose answer is stored.** -/
theorem serve_store (hfind : c.lookup L key = none)
    (hf : Returns (fun fuel => fetch fuel env nio key) f) (hsum : f.forward.sum < maxObjectSize)
    (hterm : 0 ∈ f.forward.payload.bytes)
    (hle : f.forward.sum ≤ (cstr f.forward.payload.bytes).length + 1)
    (hstr : 0 ∈ f.forward.payload.bytes.take f.forward.sum ++ env.junk) :
    ∃ c' d, Stored c L env.node (f.entry key env.junk) d c' ∧
      Serve c (env, ⟨.miss key f true, f.forward.sent, c'⟩) c' := by
  obtain ⟨c', d, hS, hall⟩ := hR.addCache hnode hfree env.junk _ key _ hterm hle hstr
  obtain ⟨n, hn⟩ := hf
  refine ⟨c', d, hS, .mk c env _ hnode hfree ⟨n + L.length + 2, fun fuel hfuel => ?_⟩⟩
  have hlen : (Lru.evict c'.size maxCacheSize (L ++ [env.node])).length < fuel := by
    have := (Lru.evict_suffix c'.size maxCacheSize (L ++ [env.node])).length_le
    rw [List.length_append, List.length_singleton] at this
    omega
  have hn := hn fuel (by omega)
  simp only at hn
  simp only [workerMain, hreq, ok_bind, hR.isCached_none hfind (show L.length < fuel by omega), hn,
    if_pos hsum, hall fuel (by omega), hS.repr.printCache_eq hlen, pure_eq_ok]

end Returns

theorem fetch_small {fuel : ℕ} (h : fetch fuel env nio key = .ok f)
    (hlen : (forwarded env.origin.bytes).length < maxObjectSize) :
    f.forward.sent.flatten = forwarded env.origin.bytes ∧
      f.forward.sum = (forwarded env.origin.bytes).length ∧
      f.forward.payload.bytes = forwarded env.origin.bytes ++
        List.replicate (maxObjectSize - (forwarded env.origin.bytes).length) 0 := by
  obtain ⟨hret, hf⟩ := fetch_forward h
  obtain ⟨hsent, hsum⟩ := forwardResponse_ok hret hf
  have hmax : maxObjectSize < 2 ^ 64 := by decide
  exact ⟨hsent, by rw [hsum, Nat.mod_eq_of_lt (by omega)],
    forwardResponse_payload hret hlen.le hf⟩

/-- **An answer that is forwarded and stored**: it is shorter than `MAX_OBJECT_SIZE`, no NUL precedes
its last byte, and `strlen` finds one. -/
theorem serve_miss (hR : c.Repr L) (hnode : env.node ≠ 0) (hfree : c.live env.node = false)
    (hreq : receive env.loc env.connfd = .ok (.accepted key nio)) (hfind : c.lookup L key = none)
    (hf : Returns (fun fuel => fetch fuel env nio key) f)
    (hlen : (forwarded env.origin.bytes).length < maxObjectSize)
    (hnul : 0 ∉ (forwarded env.origin.bytes).dropLast)
    (hstr : 0 ∈ forwarded env.origin.bytes ++ env.junk) :
    ∃ c' d, Stored c L env.node (f.entry key env.junk) d c' ∧
      f.entry key env.junk = ⟨key, forwarded env.origin.bytes ++ env.junk,
        (forwarded env.origin.bytes).length⟩ ∧
      Serve c (env, ⟨.miss key f true, f.forward.sent, c'⟩) c' := by
  obtain ⟨n, hn⟩ := id hf
  obtain ⟨-, hsum, hpay⟩ := fetch_small (hn n le_rfl) hlen
  obtain ⟨k, hk⟩ : ∃ k, maxObjectSize - (forwarded env.origin.bytes).length = k + 1 :=
    ⟨maxObjectSize - (forwarded env.origin.bytes).length - 1, by omega⟩
  rw [hk, List.replicate_succ] at hpay
  have htake : f.forward.payload.bytes.take f.forward.sum = forwarded env.origin.bytes := by
    rw [hpay, hsum, List.take_left]
  obtain ⟨c', d, hS, hserve⟩ := serve_store hR hnode hfree hreq hfind hf (by rwa [hsum])
    (by simp [hpay]) (by
      rw [hpay, cstr_append_cons_zero, hsum]
      exact length_le_length_cstr_iff.mpr hnul) (by rwa [htake])
  exact ⟨c', d, hS, by rw [Fetched.entry, htake, hsum], hserve⟩

/-! ## Runs -/

/-- The latest request of a run that has stored a node at `p`, with the key and the answer. -/
def storedAt (tr : List (Env × Outcome)) (p : Ptr) : Option (Env × Key × Fetched) :=
  tr.foldl (fun last a =>
    match a.2.reply with
    | .miss key f true => if a.1.node = p then some (a.1, key, f) else last
    | _ => last) none

theorem storedAt_store (tr : List (Env × Outcome)) (env : Env) (key : Key) (f : Fetched)
    (sent : List (List UInt8)) (c : Cache) (p : Ptr) :
    storedAt (tr ++ [(env, ⟨.miss key f true, sent, c⟩)]) p =
      if env.node = p then some (env, key, f) else storedAt tr p := by
  simp [storedAt]

theorem storedAt_other (tr : List (Env × Outcome)) (env : Env)
    (h : ∀ key f, o.reply ≠ .miss key f true) (p : Ptr) :
    storedAt (tr ++ [(env, o)]) p = storedAt tr p := by
  rw [storedAt, List.foldl_append, List.foldl_cons, List.foldl_nil]
  split
  · rename_i key f hr
    exact absurd hr (h key f)
  · rfl

theorem mem_of_storedAt {tr : List (Env × Outcome)} (h : storedAt tr p = some (env, key, f)) :
    ∃ o, (env, o) ∈ tr ∧ o.reply = .miss key f true := by
  induction tr using List.reverseRecOn with
  | nil => cases h
  | append_singleton tr a ih =>
    have hmem : ∀ o, (env, o) ∈ tr → (env, o) ∈ tr ++ [a] := fun o h => List.mem_append_left _ h
    rw [storedAt, List.foldl_append, List.foldl_cons, List.foldl_nil] at h
    split at h
    · rename_i key' f' hr
      split_ifs at h
      · cases h
        exact ⟨a.2, List.mem_append_right _ (List.mem_singleton_self _), hr⟩
      · obtain ⟨o, ho, hreply⟩ := ih h
        exact ⟨o, hmem o ho, hreply⟩
    · obtain ⟨o, ho, hreply⟩ := ih h
      exact ⟨o, hmem o ho, hreply⟩

/-- The node at `p` holds the answer `f` for `key` that the request in `env` has stored. -/
structure Provenance (tr : List (Env × Outcome)) (c : Cache) (p : Ptr) (env : Env) (key : Key)
    (f : Fetched) : Prop where
  stored : storedAt tr p = some (env, key, f)
  entry : c.entry p = f.entry key env.junk
  small : f.forward.sum < maxObjectSize
  digits : ∀ d ∈ key.port, isdigit d = true
  asked : f.toOrigin.head? = some (requestLine key.path)

/-- The invariant: no two nodes of the queue `L` match each other, and a request of the run has stored
what they hold. -/
structure Served (tr : List (Env × Outcome)) (c : Cache) (L : List Ptr) : Prop where
  repr : c.Repr L
  apart : L.Pairwise fun p q => (c.entry p).key.isMatch (c.entry q).key = false
  origin : ∀ p ∈ L, ∃ env key f, Provenance tr c p env key f

theorem Served.eq_of_isMatch {tr : List (Env × Outcome)} (h : Served tr c L) {q : Ptr} (hp : p ∈ L)
    (hq : q ∈ L) (hpk : (c.entry p).key.isMatch key = true)
    (hqk : (c.entry q).key.isMatch key = true) : p = q := by
  by_contra hne
  have : Std.Symm fun p q => (c.entry p).key.isMatch (c.entry q).key = false :=
    ⟨fun _ _ => Key.isMatch_false_symm⟩
  have := h.apart.forall hp hq hne
  rw [Key.isMatch_trans hpk (Key.isMatch_symm hqk)] at this
  cases this

theorem fetch_asked {fuel : ℕ} (hkey : key.Plain) (h : fetch fuel env nio key = .ok f) :
    f.toOrigin.head? = some (requestLine key.path) := by
  obtain ⟨_, _, -, -, hto, -⟩ := fetch_ok h
  rw [Except.ok.inj (hto.symm.trans (forwardRequest_eq env.loc.requestBuf hkey))]
  rfl

theorem Provenance.other {tr : List (Env × Outcome)} {a : Env × Outcome} {env' : Env}
    (h : Provenance tr c p env' key f) (hst : storedAt (tr ++ [a]) p = storedAt tr p)
    (hent : c'.entry p = c.entry p) : Provenance (tr ++ [a]) c' p env' key f where
  stored := hst.trans h.stored
  entry := hent.trans h.entry
  small := h.small
  digits := h.digits
  asked := h.asked

/-- **Every request keeps the invariant.** -/
theorem served_step {tr : List (Env × Outcome)} (h : Served tr c L) (hs : Serve c (env, o) c') :
    ∃ L', Served (tr ++ [(env, o)]) c' L' := by
  obtain ⟨L', he, hR'⟩ := effect_of_serve h.repr hs
  have hnode := hs.node_not_mem h.repr
  obtain rfl := hs.cache_eq
  refine ⟨L', hR', ?_, fun p hp => ?_⟩
  · cases he with
    | keep reply sent hhit hmiss => exact h.apart
    | hit key nio p ps qs c' hreq hL hfind hS =>
      subst hL
      simp only [hS.entry]
      exact ((Lru.perm_touch p ps qs).pairwise_iff Key.isMatch_false_symm).mpr h.apart
    | store key nio f d c' fuel hreq hfind hf hsum hle hstr hS =>
      refine List.Pairwise.sublist (Lru.evict_suffix _ _ _).sublist ?_
      have hent : ∀ q ∈ L, c'.entry q = c.entry q := fun q hq => hS.entry_of_mem hnode hq
      have hnew : c'.entry env.node = f.entry key env.junk := by
        rw [hS.entry, Function.update_self]
      refine List.pairwise_append.mpr ⟨?_, List.pairwise_singleton _ _, fun q hq r hr => ?_⟩
      · exact h.apart.imp_of_mem fun hp hq hpq => by rwa [hent _ hp, hent _ hq]
      · rw [List.mem_singleton.mp hr, hent q hq, hnew]
        -- the node was stored because no node matched its key
        have hnone := List.find?_eq_none.mp hfind q (List.mem_reverse.mpr hq)
        exact Bool.eq_false_iff.mpr hnone
  · cases he with
    | keep reply sent hhit hmiss =>
      obtain ⟨env', key, f, hP⟩ := h.origin p hp
      exact ⟨env', key, f, hP.other (storedAt_other tr env hmiss p) rfl⟩
    | hit key nio q ps qs c' hreq hL hfind hS =>
      subst hL
      obtain ⟨env', key', f, hP⟩ := h.origin p ((Lru.perm_touch q ps qs).mem_iff.mp hp)
      exact ⟨env', key', f, hP.other (storedAt_other tr env (fun _ _ h => by cases h) p)
        (congrFun hS.entry p)⟩
    | store key nio f d c' fuel hreq hfind hf hsum hle hstr hS =>
      obtain ⟨⟨s, hkey⟩, hplain⟩ := requestKey_of_receive hreq
      rcases List.mem_append.mp ((Lru.evict_suffix _ _ _).subset hp) with hmem | hmem
      · have hne : p ≠ env.node := fun e => hnode (e ▸ hmem)
        obtain ⟨env', key', f', hP⟩ := h.origin p hmem
        refine ⟨env', key', f', hP.other ?_ ?_⟩
        · rw [storedAt_store, if_neg hne.symm]
        · exact hS.entry_of_mem hnode hmem
      · obtain rfl := List.mem_singleton.mp hmem
        refine ⟨env, key, f, ?_, ?_, hsum, isdigit_of_requestKey hkey,
          fetch_asked hplain hf⟩
        · rw [storedAt_store, if_pos rfl]
        · exact (congrFun hS.entry _).trans (Function.update_self _ _ _)

/-- **The invariant holds in every run.** -/
theorem path_served (h₀ : IsInit c₀) {tr : List (Env × Outcome)} (h : Lts.Path Serve c₀ tr c) :
    ∃ L, Served tr c L :=
  Lts.Path.invariant (fun tr c => ∃ L, Served tr c L)
    ⟨[], h₀.repr, List.Pairwise.nil, fun _ hp => absurd hp List.not_mem_nil⟩
    (fun _ _ _ _ ⟨_, hI⟩ hs => served_step hI hs) h

/-! ## A small world -/

/-- A descriptor that gives the bytes `bs` one by one. -/
def Sock.ofBytes (bs : List UInt8) : Sock := ⟨bs.map fun b => .data b [], .eof⟩

@[simp] theorem Sock.bytes_ofBytes (bs : List UInt8) : (Sock.ofBytes bs).bytes = bs := by
  induction bs with
  | nil => rfl
  | cons b bs ih => exact congrArg (b :: ·) ih

/-- A client that sends `request`, and an origin that can be reached and answers `answer`. -/
def plainEnv (request answer : List UInt8) (node : Ptr) (junk : List UInt8) : Env :=
  { loc := ⟨Buf.zero _, Buf.zero _, Buf.zero _, Buf.zero _, Buf.zero _, Buf.zero _, Buf.zero _,
      Buf.zero _, Buf.zero _, Buf.zero _⟩
    connfd := .ofBytes request
    getaddrinfo := fun _ _ => some [⟨some 4, true⟩]
    origin := .ofBytes answer
    node := node
    junk := junk }

/-- `GET http://h/` with the path `/` followed by `s`. -/
def plainRequest (s : String) : List UInt8 := ascii ("GET http://h/" ++ s ++ " HTTP/1.0\r\n")

/-- The key of that request. -/
def plainKey (s : String) : Key := ⟨ascii "h", ascii "80", ascii ("/" ++ s)⟩

/-- The request is one for the key. -/
abbrev IsPlain (s : String) : Prop :=
  newline ∈ Lines.takeLine newline (maxline - 1) (plainRequest s) ∧
    requestKey (cstr (Lines.takeLine newline (maxline - 1) (plainRequest s))) = some (plainKey s) ∧
    0 ∉ (plainKey s).path ∧ (plainKey s).path.length + 15 < maxline

theorem plain_fetch {s : String} (hs : IsPlain s) (answer : List UInt8) (node : Ptr)
    (junk : List UInt8) (hlen : (forwarded answer).length < 2 ^ 64) :
    ∃ nio f, receive (plainEnv (plainRequest s) answer node junk).loc
        (plainEnv (plainRequest s) answer node junk).connfd = .ok (.accepted (plainKey s) nio) ∧
      Returns (fun fuel => fetch fuel (plainEnv (plainRequest s) answer node junk) nio (plainKey s))
        f := by
  obtain ⟨hline, hkey, -⟩ := hs
  obtain ⟨nio, hreq⟩ := receive_of_requestKey (plainEnv (plainRequest s) answer node junk).loc
    (.ofBytes (plainRequest s)) (plainKey s)
    (by rwa [Sock.bytes_ofBytes]) (by rwa [Sock.bytes_ofBytes])
  obtain ⟨f, hf⟩ := exists_fetch (plainEnv (plainRequest s) answer node junk) nio
    (requestKey_of_receive hreq).2 rfl rfl rfl (copiesFit_of_lt (by
      change 0 + (forwarded (Sock.ofBytes answer).bytes).length < _
      rwa [Sock.bytes_ofBytes, Nat.zero_add]) le_rfl)
  exact ⟨nio, f, hreq, hf⟩

theorem plain_store {s : String} (hs : IsPlain s) (answer : List UInt8)
    (hlen : (forwarded answer).length < maxObjectSize) (hnul : 0 ∉ (forwarded answer).dropLast) :
    ∃ f c, Serve emptyCache (plainEnv (plainRequest s) answer 3 [0],
        ⟨.miss (plainKey s) f true, f.forward.sent, c⟩) c ∧
      c.Repr [3] ∧ c.live 4 = false ∧
      c.entry 3 = ⟨plainKey s, forwarded answer ++ [0], (forwarded answer).length⟩ := by
  have horigin : (plainEnv (plainRequest s) answer 3 [0]).origin.bytes = answer :=
    Sock.bytes_ofBytes _
  have hmax : maxObjectSize = 102400 ∧ maxCacheSize = 1049000 := ⟨rfl, rfl⟩
  obtain ⟨nio, f, hreq, hf⟩ := plain_fetch hs answer 3 [0] (by omega : (forwarded answer).length < 2 ^ 64)
  obtain ⟨c, d, hS, hentry, hserve⟩ := serve_miss isInit_emptyCache.repr
    (by decide : (3 : Ptr) ≠ 0) (rfl : emptyCache.live 3 = false) hreq rfl hf (by rwa [horigin])
    (by rwa [horigin]) (List.mem_append_right _ (List.mem_singleton_self 0))
  rw [horigin] at hentry
  have hent : c.entry 3 = ⟨plainKey s, forwarded answer ++ [0], (forwarded answer).length⟩ :=
    (congrFun hS.entry 3).trans ((Function.update_self _ _ _).trans hentry)
  have hsize : c.size 3 ≤ maxCacheSize := by
    have hle := length_cstr_le (forwarded answer ++ [0])
    rw [List.length_append, List.length_singleton] at hle
    rw [size, hent]
    simp only
    omega
  have hR : c.Repr (Lru.evict c.size maxCacheSize [3]) := hS.repr
  rw [Lru.evict_of_le _ _ (by simpa using hsize)] at hR
  exact ⟨f, c, hserve, hR, hS.live 4, hent⟩

end MiniProxy
