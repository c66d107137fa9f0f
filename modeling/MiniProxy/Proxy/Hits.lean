import MiniProxy.Proxy.Run

/-!
# Whose answer a hit sends

`is_match` compares paths with `strcasecmp`, while `forward_request` asks the origin for the path as
the client wrote it.

* `SamePath`: a hit sends the answer to an earlier request for the same path;
* `NoOtherPath`: no node of the queue matches the request with another path;
* **`hit_samePath_iff`**: in every run a hit sends the answer for its path exactly when no other path
  matches;
* **`not_hit_samePath`**: a request for `/a` is answered with what the origin has sent for `/A`.
-/

namespace MiniProxy

open Clib Cache

/-- The node with which the request for `key` was answered was stored by an earlier request of the run,
for a host equal ignoring case, the same port and the same path; the client got the answer to the
request line that `forward_request` sends for `key`. -/
def SamePath (tr : List (Env × Outcome)) (c : Cache) (key : Key) (o : Outcome) : Prop :=
  ∃ p env key' f, Returns (fun fuel => c.findSec fuel key) (some p) ∧
    storedAt tr p = some (env, key', f) ∧
    (∃ o', (env, o') ∈ tr ∧ o'.reply = .miss key' f true) ∧
    strcasecmpEq key'.host key.host = true ∧ key'.port = key.port ∧ key'.path = key.path ∧
    f.toOrigin.head? = some (requestLine key.path) ∧
    o.toClient = [f.forward.payload.bytes.take f.forward.sum]

/-- Every node of the queue that matches `key` has its path. -/
def NoOtherPath (c : Cache) (key : Key) : Prop :=
  ∃ L, c.Repr L ∧ ∀ q ∈ L, (c.entry q).key.isMatch key = true → (c.entry q).key.path = key.path

variable {c c' c₀ : Cache} {env : Env} {o : Outcome} {key : Key} {tr : List (Env × Outcome)}

theorem noOtherPath_of_samePath {L : List Ptr} (hI : Served tr c L) (h : SamePath tr c key o) :
    NoOtherPath c key := by
  obtain ⟨p, env, key', f, ⟨n, hn⟩, hst, -, -, -, hpath, -⟩ := h
  obtain ⟨hp, hpk⟩ := isMatch_of_lookup (hI.repr.findSec_ok (hn n le_rfl)).symm
  refine ⟨L, hI.repr, fun q hq hqk => ?_⟩
  obtain rfl := hI.eq_of_isMatch hp hq hpk hqk
  obtain ⟨env₁, key₁, f₁, hP⟩ := hI.origin p hp
  cases hst.symm.trans hP.stored
  rw [hP.entry]
  exact hpath

/-- **A hit sends the answer to a request for the same path exactly when** no node of the queue matches
the request with another path. -/
theorem hit_samePath_iff (h₀ : IsInit c₀) (hrun : Lts.Path Serve c₀ tr c)
    (hs : Serve c (env, o) c') (hhit : o.reply = .hit key) :
    SamePath tr c key o ↔ NoOtherPath c key := by
  obtain ⟨L, hI⟩ := path_served h₀ hrun
  refine ⟨noOtherPath_of_samePath hI, fun ⟨L', hR', hno⟩ => ?_⟩
  obtain rfl := hI.repr.unique hR'
  obtain ⟨_, he, -⟩ := effect_of_serve hI.repr hs
  cases he with
  | keep reply sent h => exact absurd hhit (h key)
  | store => cases hhit
  | hit _ nio p ps qs c' hreq hL hfind hS =>
    cases hhit
    obtain ⟨hp, hpk⟩ := isMatch_of_lookup hfind
    obtain ⟨env', key', f, hP⟩ := hI.origin p hp
    obtain ⟨⟨s, hkey⟩, -⟩ := requestKey_of_receive hreq
    have hpath := hno p hp hpk
    rw [hP.entry] at hpk hpath
    have hpath : key'.path = key.path := hpath
    have hpk : key'.isMatch key = true := hpk
    rw [Key.isMatch, Bool.and_eq_true, Bool.and_eq_true] at hpk
    obtain ⟨⟨hhost, hport⟩, -⟩ := hpk
    have hlen : (f.forward.payload.bytes.take f.forward.sum).length = f.forward.sum := by
      rw [List.length_take, f.forward.payload.length_bytes]
      have := hP.small
      omega
    refine ⟨p, env', key', f, ⟨L.length + 1, fun fuel hf => ?_⟩, hP.stored,
      mem_of_storedAt hP.stored, hhost,
      eq_of_strcasecmpEq hP.digits (isdigit_of_requestKey hkey) hport, hpath, ?_, ?_⟩
    · rw [← hfind]
      exact hI.repr.findSec_eq key hf
    · rw [← hpath]
      exact hP.asked
    · rw [hP.entry, Fetched.entry]
      exact congrArg (fun l => [l]) (List.take_left' hlen)

theorem plain_hit {s t : String} (hs : IsPlain s) (ht : IsPlain t)
    (hmatch : (plainKey s).isMatch (plainKey t) = true) (answer : List UInt8)
    (hterm : forwarded answer = answer) (hlen : answer.length < maxObjectSize) (h0 : 0 ∉ answer) :
    ∃ f c o c', Lts.Path Serve emptyCache [(plainEnv (plainRequest s) answer 3 [0],
        ⟨.miss (plainKey s) f true, f.forward.sent, c⟩)] c ∧
      Serve c (plainEnv (plainRequest t) [] 4 [], o) c' ∧ o.reply = .hit (plainKey t) ∧
      o.toClient = [answer] ∧ c.Repr [3] ∧ (c.entry 3).key = plainKey s := by
  obtain ⟨f, c, hserve, hR, hlive, hent⟩ := plain_store hs answer (by rwa [hterm])
    (fun h => h0 (by rw [hterm] at h; exact List.mem_of_mem_dropLast h))
  obtain ⟨nio, -, hreq, -⟩ := plain_fetch ht [] 4 [] (by rw [forwarded_nil]; decide)
  have hfind : c.lookup [3] (plainKey t) = some 3 := by
    simp [lookup, hent, hmatch]
  obtain ⟨c', -, -, -, hserve'⟩ := serve_hit hR (by decide : (4 : Ptr) ≠ 0) hlive hreq hfind (by
    rw [hent, hterm]
    exact hlen.le)
  refine ⟨f, c, _, c', Lts.Path.single hserve, hserve', rfl, ?_, hR, by rw [hent]⟩
  rw [hent, hterm, List.take_left]

/-- A request and the same request again. -/
theorem hit_samePath_again : ∃ tr c env o c', Lts.Path Serve emptyCache tr c ∧
    Serve c (env, o) c' ∧ o.reply = .hit (plainKey "A") ∧ SamePath tr c (plainKey "A") o := by
  obtain ⟨f, c, o, c', hrun, hs, hhit, -, hR, hkey⟩ := plain_hit (s := "A") (t := "A") (by decide)
    (by decide) (by decide) (ascii "A\n") (forwarded_of_short (by decide) (by decide))
    (by decide) (by decide)
  refine ⟨_, c, _, o, c', hrun, hs, hhit, (hit_samePath_iff isInit_emptyCache hrun hs hhit).mpr
    ⟨[3], hR, fun q hq _ => ?_⟩⟩
  rw [List.mem_singleton.mp hq, hkey]

/-- A request for `/a` after one for `/A` gets the answer for `/A`. -/
theorem not_hit_samePath : ∃ tr c env o c', Lts.Path Serve emptyCache tr c ∧
    Serve c (env, o) c' ∧ o.reply = .hit (plainKey "a") ∧ o.toClient = [ascii "A\n"] ∧
      ¬ SamePath tr c (plainKey "a") o := by
  obtain ⟨f, c, o, c', hrun, hs, hhit, hout, hR, hkey⟩ := plain_hit (s := "A") (t := "a") (by decide)
    (by decide) (by decide) (ascii "A\n") (forwarded_of_short (by decide) (by decide))
    (by decide) (by decide)
  refine ⟨_, c, _, o, c', hrun, hs, hhit, hout, fun hsame => ?_⟩
  obtain ⟨L, hI⟩ := path_served isInit_emptyCache hrun
  obtain ⟨L', hR', hno⟩ := noOtherPath_of_samePath hI hsame
  obtain rfl := hR.unique hR'
  have hpath := hno 3 (List.mem_singleton_self 3) (by rw [hkey]; decide)
  rw [hkey] at hpath
  revert hpath
  decide

end MiniProxy
