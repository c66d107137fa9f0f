import MiniProxy.Proxy.Run

/-!
# Complete answers

`nio_read` returns `0` both at the end of the file and for `ECONNRESET`, so that `forward_response`
takes an answer that a reset cuts for a complete one.

* `Connects`: `open_clientfd` reaches an address of the origin;
* `OnlyComplete`: only an answer that ends with the end of the file reaches `add_cache`, and any other
  one leaves the cache as it was;
* `Uncut`: no answer that is short enough for the cache is cut by a reset;
* **`onlyComplete_iff`**: only the uncut requests are `OnlyComplete`;
* **`not_onlyComplete`**: the first line of an answer that a reset cuts there is stored.
-/

namespace MiniProxy

open Clib Cache Lines

/-- `open_clientfd` returns a socket for the origin that `key` names. -/
def Connects (env : Env) (key : Key) : Prop :=
  ∃ listp fd fdOps, env.getaddrinfo key.host key.port = some listp ∧
    openClientfdLoop listp = (some fd, fdOps)

/-- **Only complete answers reach the cache.** An answer with which `worker_main` calls `add_cache` was
ended by the end of the file; where the origin's stream ends otherwise, or nothing connects, a call that
returns leaves the cache as it was. -/
structure OnlyComplete (env : Env) (c : Cache) : Prop where
  stores : ∀ fuel key nio f, receive env.loc env.connfd = .ok (.accepted key nio) →
    c.findSec fuel key = .ok none → fetch fuel env nio key = .ok f →
    f.forward.sum < maxObjectSize → Connects env key ∧ env.origin.ending = .eof
  keeps : ∀ fuel o key f b, workerMain fuel env c = .ok o → o.reply = .miss key f b →
    ¬ (Connects env key ∧ env.origin.ending = .eof) → o.cache = c

/-- Where `is_cached` finds no node and the origin is reached, a reset does not follow on an answer
whose pieces add up to a `size_t` less than `MAX_OBJECT_SIZE`. Those of an answer of less than `2 ^ 64`
bytes always fit. -/
def Uncut (env : Env) (c : Cache) : Prop :=
  ∀ key nio, receive env.loc env.connfd = .ok (.accepted key nio) →
    Returns (fun fuel => c.findSec fuel key) none → Connects env key →
    env.origin.ending = .connreset → CopiesFit 0 0 ((lines env.origin.bytes).map wire) →
    maxObjectSize ≤ (forwarded env.origin.bytes).length % 2 ^ 64

variable {env : Env} {c : Cache}

theorem eof_of_uncut {fuel : ℕ} {key : Key} {nio : Nio} {f : Fetched} (h : Uncut env c)
    (hreq : receive env.loc env.connfd = .ok (.accepted key nio))
    (hfind : c.findSec fuel key = .ok none) (hf : fetch fuel env nio key = .ok f)
    (hsum : f.forward.sum < maxObjectSize) : Connects env key ∧ env.origin.ending = .eof := by
  obtain ⟨listp, fd, haddr, hopen, -, hret, hfw⟩ := fetch_ok hf
  have hconn : Connects env key := ⟨listp, fd, f.fdOps, haddr, hopen⟩
  refine ⟨hconn, ?_⟩
  cases he : env.origin.ending with
  | eof => rfl
  | connreset =>
    have hnone : Returns (fun fuel => c.findSec fuel key) none :=
      ⟨fuel, fun fuel' hle => findSec_mono hle hfind⟩
    have hfit := (exists_forwardResponse_iff env.loc.forwardNioBuf env.loc.forwardbuf
      (Buf.zero maxObjectSize) hret (Nat.lt_add_right fuel (Nat.lt_succ_self _))).mp
      ⟨f.forward, forwardResponse_mono (Nat.le_add_left fuel _) hfw⟩
    have hlen := h key nio hreq hnone hconn he hfit
    rw [← (forwardResponse_ok hret hfw).2] at hlen
    exact absurd hsum (Nat.not_lt.mpr hlen)
  | error =>
    rw [he] at hret
    cases hret

theorem onlyComplete_of_uncut (h : Uncut env c) : OnlyComplete env c where
  stores := fun _ _ _ _ hreq hfind hf hsum => eof_of_uncut h hreq hfind hf hsum
  keeps := by
    intro fuel o key f b hret hreply hno
    cases exit_of_workerMain hret with
    | stored key' nio f' c' hreq hfind hf hsum =>
      cases hreply
      exact absurd (eof_of_uncut h hreq hfind hf hsum) hno
    | tooLong => rfl
    | closed => cases hreply
    | rejected => cases hreply
    | hit => cases hreply

theorem uncut_of_onlyComplete (h : OnlyComplete env c) : Uncut env c := by
  intro key nio hreq hnone ⟨listp, fd, fdOps, haddr, hopen⟩ he hfit
  by_contra hlen
  have hret : env.origin.ending.ret = 0 := by
    rw [he]
    rfl
  obtain ⟨f, n, hn⟩ := exists_fetch env nio (requestKey_of_receive hreq).2 haddr hopen hret hfit
  obtain ⟨m, hm⟩ := hnone
  have hf := hn (n + m) (Nat.le_add_right n m)
  obtain ⟨-, hfw⟩ := fetch_forward hf
  obtain ⟨-, heof⟩ := h.stores _ _ _ _ hreq (hm (n + m) (Nat.le_add_left m n)) hf (by
    rw [(forwardResponse_ok hret hfw).2]
    exact Nat.lt_of_not_le hlen)
  rw [he] at heof
  cases heof

/-- **Only complete answers reach the cache exactly when** no answer short enough for it is cut by a
reset. -/
theorem onlyComplete_iff (env : Env) (c : Cache) : OnlyComplete env c ↔ Uncut env c :=
  ⟨uncut_of_onlyComplete, onlyComplete_of_uncut⟩

/-- A request for `http://h/`, which the origin answers with one line and a reset. -/
def cutEnv : Env :=
  { plainEnv (plainRequest "") [] 3 [0] with
    origin := ⟨(Sock.ofBytes (ascii "HTTP/1.0 200 OK\r\n")).evs, .connreset⟩ }

/-- The line is stored in the empty cache as the answer. -/
theorem not_onlyComplete : ¬ OnlyComplete cutEnv emptyCache ∧
    ∃ f c, Serve emptyCache (cutEnv, ⟨.miss (plainKey "") f true, f.forward.sent, c⟩) c ∧
      (c.entry 3).payload = ascii "HTTP/1.0 200 OK\r\n" ++ [0] ∧ (c.entry 3).bytesize = 17 := by
  have hbytes : cutEnv.origin.bytes = ascii "HTTP/1.0 200 OK\r\n" := Sock.bytes_ofBytes _
  have hfw : forwarded cutEnv.origin.bytes = ascii "HTTP/1.0 200 OK\r\n" := by
    rw [hbytes]
    exact forwarded_of_short (by decide) (by decide)
  obtain ⟨nio, -, hreq, -⟩ := plain_fetch (s := "") (by decide) [] 3 [0]
    (by rw [forwarded_nil]; decide)
  have hreq : receive cutEnv.loc cutEnv.connfd = .ok (.accepted (plainKey "") nio) := hreq
  have hfit : CopiesFit 0 0 ((lines cutEnv.origin.bytes).map wire) := by
    refine copiesFit_of_lt ?_ le_rfl
    change 0 + (forwarded cutEnv.origin.bytes).length < _
    rw [hfw]
    decide
  constructor
  · intro h
    have hlong := uncut_of_onlyComplete h _ nio hreq
      ⟨1, fun fuel hle => isInit_emptyCache.repr.findSec_eq _ hle⟩ ⟨_, 4, _, rfl, rfl⟩ rfl hfit
    rw [hfw] at hlong
    exact absurd hlong (by decide)
  · obtain ⟨f, hf⟩ := exists_fetch cutEnv nio (requestKey_of_receive hreq).2 rfl rfl rfl hfit
    obtain ⟨c, d, hS, hentry, hserve⟩ := serve_miss isInit_emptyCache.repr
      (by decide : (3 : Ptr) ≠ 0) (rfl : emptyCache.live 3 = false) hreq rfl hf
      (by rw [hfw]; decide) (by rw [hfw]; decide) (by rw [hfw]; decide)
    have hent : c.entry 3 = f.entry (plainKey "") cutEnv.junk :=
      (congrFun hS.entry 3).trans (Function.update_self _ _ _)
    rw [hentry, hfw] at hent
    exact ⟨f, c, hserve, by rw [hent]; rfl, by rw [hent]; rfl⟩

end MiniProxy
