import MiniProxy.Proxy.Hits

/-!
# The cache is transparent

A proxy without a cache asks the origin for every request. Where the origins give one answer to all
requests that `is_match` does not tell apart, a client cannot see the difference.

* `plainReply`: `worker_main` without a cache;
* `Steady`: the origin of a request gives the answer of its key; `Agree`: keys that match have the same
  answer;
* `Holds`, `holds_serve`: the nodes of the queue hold the answers for their keys;
* **`cache_transparent`**: in every run every client gets what a proxy without a cache would send.
-/

namespace MiniProxy

open Clib Cache

/-- `worker_main` without `is_cached` and `add_cache`: the buffers handed to `nio_writen` for
`connfd`. -/
def plainReply (fuel : ℕ) (env : Env) : Exec (List (List UInt8)) := do
  match ← receive env.loc env.connfd with
  | .nothing => return []
  | .rejected sent => return sent
  | .accepted key nio =>
    let f ← fetch fuel env nio key
    return f.forward.sent

/-- The origin that is asked for the request sends the answer for its key. -/
def Steady (answer : Key → List UInt8) (env : Env) : Prop :=
  ∀ key nio, receive env.loc env.connfd = .ok (.accepted key nio) → env.origin.bytes = answer key

/-- Requests that `is_match` does not tell apart have the same answer, which is shorter than a `size_t`
can count. -/
structure Agree (answer : Key → List UInt8) : Prop where
  same : ∀ a b : Key, a.isMatch b = true → answer a = answer b
  short : ∀ key, (forwarded (answer key)).length < 2 ^ 64

/-- The client gets what a proxy without a cache would send. -/
def Plainly (a : Env × Outcome) : Prop :=
  ∀ fuel sent, plainReply fuel a.1 = .ok sent → a.2.toClient.flatten = sent.flatten

/-- Every node of the queue holds what is forwarded of the answer for its key. -/
def Holds (answer : Key → List UInt8) (c : Cache) (L : List Ptr) : Prop :=
  ∀ p ∈ L, (c.entry p).payload.take (c.entry p).bytesize = forwarded (answer (c.entry p).key)

variable {answer : Key → List UInt8} {c c' c₀ : Cache} {L : List Ptr} {env : Env} {o : Outcome}
  {key : Key} {nio : Nio} {f : Fetched} {fuel : ℕ} {sent : List (List UInt8)}

theorem flatten_plainReply (hreq : receive env.loc env.connfd = .ok (.accepted key nio))
    (h : plainReply fuel env = .ok sent) : sent.flatten = forwarded env.origin.bytes := by
  rw [plainReply, hreq, ok_bind] at h
  obtain ⟨f, hf, h⟩ := bind_ok_iff.mp h
  cases h
  obtain ⟨hret, hfw⟩ := fetch_forward hf
  exact (forwardResponse_ok hret hfw).1

theorem take_entry (hf : fetch fuel env nio key = .ok f) (hsum : f.forward.sum < maxObjectSize)
    (hshort : (forwarded env.origin.bytes).length < 2 ^ 64) (junk : List UInt8) :
    (f.entry key junk).payload.take (f.entry key junk).bytesize = forwarded env.origin.bytes := by
  obtain ⟨hret, hfw⟩ := fetch_forward hf
  have hlen : (forwarded env.origin.bytes).length < maxObjectSize := by
    have := (forwardResponse_ok hret hfw).2
    rw [Nat.mod_eq_of_lt hshort] at this
    omega
  obtain ⟨-, hsum', hpay⟩ := fetch_small hf hlen
  rw [Fetched.entry, hpay, hsum', List.take_left, List.take_left]

/-- **A request keeps what the nodes hold**, and its client gets what a proxy without a cache would
send. -/
theorem holds_serve (hA : Agree answer) (hR : c.Repr L) (hH : Holds answer c L)
    (hs : Serve c (env, o) c') (hsteady : Steady answer env) :
    ∃ L', c'.Repr L' ∧ Holds answer c' L' ∧ Plainly (env, o) := by
  obtain ⟨L', he, hR'⟩ := effect_of_serve hR hs
  have hnode := hs.node_not_mem hR
  refine ⟨L', hR', ?_⟩
  cases hs with | mk _ _ _ _ hret
  obtain ⟨n, hn⟩ := hret
  cases he with
  | keep reply sent hhit hmiss =>
    refine ⟨hH, fun fuel out hout => ?_⟩
    cases exit_of_workerMain (hn n le_rfl) with
    | closed hreq =>
      rw [plainReply, hreq] at hout
      cases hout
      rfl
    | rejected _ hreq =>
      rw [plainReply, hreq] at hout
      cases hout
      rfl
    | hit key => exact absurd rfl (hhit key)
    | stored key nio f => exact absurd rfl (hmiss key f)
    | tooLong key nio f hreq _ hf =>
      obtain ⟨hret, hfw⟩ := fetch_forward hf
      exact ((forwardResponse_ok hret hfw).1).trans (flatten_plainReply hreq hout).symm
  | hit key nio p ps qs c' hreq hL hfind hS =>
    subst hL
    obtain ⟨hp, hmatch⟩ := isMatch_of_lookup hfind
    refine ⟨fun q hq => ?_, fun fuel out hout => ?_⟩
    · rw [hS.entry]
      exact hH q ((Lru.perm_touch p ps qs).mem_iff.mp hq)
    · show [(c.entry p).payload.take (c.entry p).bytesize].flatten = out.flatten
      rw [List.flatten_singleton, hH p hp, hA.same _ _ hmatch, ← hsteady key nio hreq]
      exact (flatten_plainReply hreq hout).symm
  | store key nio f d c' fuel hreq hfind hf hsum hle hstr hS =>
    refine ⟨fun q hq => ?_, fun fuel' out hout => ?_⟩
    · rcases List.mem_append.mp ((Lru.evict_suffix _ _ _).subset hq) with hmem | hmem
      · rw [hS.entry_of_mem hnode hmem]
        exact hH q hmem
      · rw [List.mem_singleton.mp hmem, hS.entry, Function.update_self]
        have hanswer := hsteady key nio hreq
        rw [take_entry hf hsum (by rw [hanswer]; exact hA.short key), hanswer]
        rfl
    · obtain ⟨hret, hfw⟩ := fetch_forward hf
      exact ((forwardResponse_ok hret hfw).1).trans (flatten_plainReply hreq hout).symm

/-- **The cache is transparent.** Where the origins give one answer to all requests that `is_match` does
not tell apart, every client of a run gets byte for byte what a proxy without a cache would send it. -/
theorem cache_transparent (hA : Agree answer) (h₀ : IsInit c₀) {tr : List (Env × Outcome)}
    (h : Lts.Path (Lts.Guarded Serve fun _ a => Steady answer a.1) c₀ tr c) : ∀ a ∈ tr, Plainly a := by
  obtain ⟨-, -, -, hall⟩ := Lts.Path.invariant
    (fun tr c => ∃ L, c.Repr L ∧ Holds answer c L ∧ ∀ a ∈ tr, Plainly a)
    ⟨[], h₀.repr, fun _ hp => absurd hp List.not_mem_nil, fun _ ha => absurd ha List.not_mem_nil⟩
    (fun tr c a c' ⟨L, hR, hH, hall⟩ hs => by
      obtain ⟨L', hR', hH', ha⟩ := holds_serve hA hR hH hs.1 hs.2
      refine ⟨L', hR', hH', fun b hb => ?_⟩
      rcases List.mem_append.mp hb with hb | hb
      · exact hall b hb
      · rw [List.mem_singleton.mp hb]
        exact ha) h
  exact hall

/-- A request and the same request again, which is a hit. -/
theorem cache_transparent_again : ∃ f c o, o.reply = .hit (plainKey "A") ∧
    ∀ a ∈ [(plainEnv (plainRequest "A") (ascii "A\n") 3 [0],
        ⟨.miss (plainKey "A") f true, f.forward.sent, c⟩)] ++
      [(plainEnv (plainRequest "A") (ascii "A\n") 4 [], o)], Plainly a := by
  have hterm : forwarded (ascii "A\n") = ascii "A\n" := forwarded_of_short (by decide) (by decide)
  have hplain : IsPlain "A" := by decide
  obtain ⟨f, c, hserve, hR, hlive, hent⟩ := plain_store hplain (ascii "A\n")
    (by rw [hterm]; decide) (by rw [hterm]; decide)
  obtain ⟨nio, -, hreq, -⟩ := plain_fetch hplain (ascii "A\n") 4 [] (by rw [hterm]; decide)
  have hfind : c.lookup [3] (plainKey "A") = some 3 := by
    simp [lookup, hent]
  obtain ⟨c', -, -, -, hserve'⟩ := serve_hit hR (by decide : (4 : Ptr) ≠ 0) hlive hreq hfind (by
    rw [hent, hterm]
    decide)
  have hsteady : ∀ node junk, Steady (fun _ => ascii "A\n")
      (plainEnv (plainRequest "A") (ascii "A\n") node junk) := fun node junk key nio _ =>
    Sock.bytes_ofBytes _
  have hA : Agree fun _ => ascii "A\n" := ⟨fun _ _ _ => rfl, fun _ => by rw [hterm]; decide⟩
  refine ⟨f, c, _, rfl, cache_transparent hA isInit_emptyCache
    ((Lts.Path.single ⟨hserve, hsteady 3 [0]⟩).snoc ⟨hserve', hsteady 4 []⟩)⟩

end MiniProxy
