import MiniProxy.Proxy.Replay
import MiniProxy.Proxy.Smuggling
import MiniProxy.Proxy.Transparent
import MiniProxy.Proxy.UriForm
import Mathlib.Data.Bool.AllAny

/-!
# A request from end to end

A client writes a request line for a uri; the proxy takes it apart, looks the object up or fetches it,
and answers.

* `Get`, `Get.render`: a request line for a uri, and its bytes;
* `token_append`, **`requestKey_render`**: what `parse_request` reads from the line is what the uri
  names;
* `Servable`: the origin can be reached and its answer can be replayed;
* **`get_served`**: from any state of any run the request is answered, by what the origin has to say,
  and its object is in the cache afterwards.
-/

namespace MiniProxy

open Clib Cache Lines

/-! ## Request lines -/

/-- A request line without its newline: `GET`, a uri and a version, in upper or lower case, with white
space in front of each; what follows the version is not read. -/
structure Get where
  lead : List UInt8
  method : List UInt8
  gap : List UInt8
  uri : Uri
  gap' : List UInt8
  version : List UInt8
  tail : List UInt8
  lead_ok : ∀ c ∈ lead, isspace c = true
  method_get : strcasecmpEq method (ascii "GET") = true
  gap_ok : gap ≠ [] ∧ ∀ c ∈ gap, isspace c = true
  uri_ok : ∀ c ∈ uri.render, isspace c = false
  gap'_ok : gap' ≠ [] ∧ ∀ c ∈ gap', isspace c = true
  version_http : strcasecmpEq version (ascii "HTTP/1.0") = true ∨
    strcasecmpEq version (ascii "HTTP/1.1") = true
  tail_ok : ∀ c ∈ tail.head?, isspace c = true
  one_line : newline ∉ lead ∧ newline ∉ gap ∧ newline ∉ gap' ∧ newline ∉ tail

theorem word_of_strcasecmpEq {s t : List UInt8} (h : strcasecmpEq s t = true)
    (ht : ∀ d ∈ t.map tolower, isspace d = false ∧ d ≠ 0) :
    ∀ c ∈ s, isspace c = false ∧ c ≠ 0 := by
  intro c hc
  have hmem : tolower c ∈ t.map tolower := by
    rw [← strcasecmpEq_iff.mp h]
    exact List.mem_map_of_mem hc
  obtain ⟨hspace, hzero⟩ := ht _ hmem
  constructor
  · by_contra hsp
    have hsp : isspace c = true := by simpa using hsp
    have hlow : tolower c = c := if_neg fun hup => by
      simp only [isspace, Bool.or_eq_true, beq_iff_eq, Bool.and_eq_true, decide_eq_true_eq] at hsp
      rcases hsp with rfl | hsp
      · exact absurd hup.1 (by decide)
      · exact absurd (UInt8.le_trans hup.1 hsp.2) (by decide)
    rw [hlow, hsp] at hspace
    cases hspace
  · rintro rfl
    exact hzero (by decide)

theorem token_append {gap w rest : List UInt8} (hgap : ∀ c ∈ gap, isspace c = true) (hne : w ≠ [])
    (hw : ∀ c ∈ w, isspace c = false) (hrest : ∀ c ∈ rest.head?, isspace c = true) :
    token (gap ++ (w ++ rest)) = w ∧ afterToken (gap ++ (w ++ rest)) = rest := by
  have hhead : ∀ c ∈ (w ++ rest).head?, isspace c = false := fun c hc => by
    obtain ⟨d, l, rfl⟩ := List.exists_cons_of_ne_nil hne
    obtain rfl : d = c := Option.mem_some.mp hc
    exact hw d List.mem_cons_self
  obtain ⟨-, hskip⟩ := scan_append (p := isspace) hgap hhead
  obtain ⟨htake, hdrop⟩ := scan_append (p := fun c => !isspace c) (s := w) (t := rest)
    (fun c hc => by rw [hw c hc]; rfl) (fun c hc => by rw [hrest c hc]; rfl)
  rw [token, afterToken, hskip]
  exact ⟨htake, hdrop⟩

namespace Get

variable (g : Get)

/-- The line without its newline. -/
def render : List UInt8 :=
  g.lead ++ (g.method ++ (g.gap ++ (g.uri.render ++ (g.gap' ++ (g.version ++ g.tail)))))

theorem method_word : g.method ≠ [] ∧ ∀ c ∈ g.method, isspace c = false ∧ c ≠ 0 := by
  refine ⟨?_, word_of_strcasecmpEq g.method_get (List.all_iff_forall_prop.mp (by decide))⟩
  intro hnil
  have hlen := length_eq_of_strcasecmpEq g.method_get
  rw [hnil] at hlen
  cases hlen

theorem version_word : g.version ≠ [] ∧ ∀ c ∈ g.version, isspace c = false ∧ c ≠ 0 := by
  refine ⟨?_, ?_⟩
  · intro hnil
    rcases g.version_http with h | h <;>
    · have hlen := length_eq_of_strcasecmpEq h
      rw [hnil] at hlen
      cases hlen
  · rcases g.version_http with h | h <;>
      exact word_of_strcasecmpEq h (List.all_iff_forall_prop.mp (by decide))

theorem uri_word : g.uri.render ≠ [] ∧ ∀ c ∈ g.uri.render, isspace c = false ∧ c ≠ 0 :=
  ⟨by simp [Uri.render], fun c hc => ⟨g.uri_ok c hc, fun h => g.uri.zero_not_mem_render (h ▸ hc)⟩⟩

theorem newline_not_mem_render : newline ∉ g.render := by
  have hword : ∀ {w : List UInt8}, (∀ c ∈ w, isspace c = false ∧ c ≠ 0) → newline ∉ w :=
    fun h hm => absurd (h _ hm).1 (by decide)
  obtain ⟨hlead, hgap, hgap', htail⟩ := g.one_line
  simp only [render, List.mem_append, not_or]
  exact ⟨hlead, hword g.method_word.2, hgap, hword g.uri_word.2, hgap', hword g.version_word.2, htail⟩

theorem exists_cstr_line : ∃ tail, (∀ c ∈ tail.head?, isspace c = true) ∧
    cstr (g.render ++ [newline]) =
      g.lead ++ (g.method ++ (g.gap ++ (g.uri.render ++ (g.gap' ++ (g.version ++ tail))))) := by
  have hblank : ∀ {s : List UInt8}, (∀ c ∈ s, isspace c = true) → 0 ∉ s :=
    fun h hm => absurd (h _ hm) (by decide)
  have hword : ∀ {w : List UInt8}, (∀ c ∈ w, isspace c = false ∧ c ≠ 0) → 0 ∉ w :=
    fun h hm => (h _ hm).2 rfl
  refine ⟨cstr (g.tail ++ [newline]), fun c hc => ?_, ?_⟩
  · cases htail : g.tail with
    | nil =>
      rw [htail] at hc
      obtain rfl : newline = c := Option.mem_some.mp hc
      decide
    | cons d l =>
      have hd := g.tail_ok d (by rw [htail]; rfl)
      have hne : d ≠ 0 := fun h => by
        rw [h] at hd
        exact absurd hd (by decide)
      rw [htail, List.cons_append, cstr, List.takeWhile_cons_of_pos (by simpa using hne)] at hc
      obtain rfl : d = c := Option.mem_some.mp hc
      exact hd
  · simp only [render, List.append_assoc]
    rw [cstr_append_of_not_mem (hblank g.lead_ok), cstr_append_of_not_mem (hword g.method_word.2),
      cstr_append_of_not_mem (hblank g.gap_ok.2), cstr_append_of_not_mem (hword g.uri_word.2),
      cstr_append_of_not_mem (hblank g.gap'_ok.2), cstr_append_of_not_mem (hword g.version_word.2)]

theorem head_gap {gap : List UInt8} (h : gap ≠ [] ∧ ∀ c ∈ gap, isspace c = true) (rest : List UInt8) :
    ∀ c ∈ (gap ++ rest).head?, isspace c = true := fun c hc => by
  obtain ⟨d, l, rfl⟩ := List.exists_cons_of_ne_nil h.1
  obtain rfl : d = c := Option.mem_some.mp hc
  exact h.2 d List.mem_cons_self

theorem uriKey_render (u : Uri) : uriKey u.render = some u.key := by
  have hrest : restKey (u.host ++ (u.portText ++ (u.pathText ++ []))) = u.key := u.restKey_rest nofun
  rw [List.append_nil] at hrest
  exact uriKey_eq_some_iff.mpr ⟨u.scheme, _, rfl, u.scheme_http, hrest.symm⟩

/-- **What `parse_request` reads from the line** is what its uri names. -/
theorem requestKey_render : requestKey (cstr (g.render ++ [newline])) = some g.uri.key := by
  obtain ⟨tail, htail, hline⟩ := g.exists_cstr_line
  obtain ⟨hm, hm'⟩ := token_append g.lead_ok g.method_word.1 (fun c hc => (g.method_word.2 c hc).1)
    (head_gap g.gap_ok (g.uri.render ++ (g.gap' ++ (g.version ++ tail))))
  obtain ⟨hu, hu'⟩ := token_append g.gap_ok.2 g.uri_word.1 g.uri_ok
    (head_gap g.gap'_ok (g.version ++ tail))
  obtain ⟨hv, -⟩ := token_append g.gap'_ok.2 g.version_word.1
    (fun c hc => (g.version_word.2 c hc).1) htail
  rw [hline, requestKey]
  simp only [hm, hm', hu, hu', hv]
  rw [if_pos ⟨g.method_get, g.version_http⟩]
  exact uriKey_render g.uri

end Get

/-! ## Service -/

/-- A request for `key` that can be served: `malloc` returns a block that is not in use, the origin can
be reached, its answer ends and can be replayed, and what `strlen` finds in the copy fits into the
cache. -/
structure Servable (c : Cache) (env : Env) (key : Key) : Prop where
  node : env.node ≠ 0
  free : c.live env.node = false
  reached : ∃ listp fd fdOps, env.getaddrinfo key.host key.port = some listp ∧
    openClientfdLoop listp = (some fd, fdOps)
  ends : env.origin.ending ≠ .error
  replayable : Replayable env.origin.bytes env.junk
  short : (forwarded env.origin.bytes).length < maxObjectSize
  fits : (cstr (forwarded env.origin.bytes ++ env.junk)).length ≤ maxCacheSize

variable {answer : Key → List UInt8} {c c' c₀ : Cache} {L : List Ptr} {p : Ptr} {env : Env}
  {key : Key} {nio : Nio} {f : Fetched} {rest : List UInt8}

theorem receive_get (loc : Locals) {connfd : Sock} (g : Get)
    (hline : connfd.bytes = g.render ++ newline :: rest) (hlen : g.render.length + 1 < maxline) :
    ∃ nio, receive loc connfd = .ok (.accepted g.uri.key nio) := by
  obtain ⟨htake, -⟩ := line_append newline g.newline_not_mem_render (k := maxline - 1) (by omega) rest
  rw [← hline] at htake
  refine receive_of_requestKey loc connfd g.uri.key ?_ ?_
  · rw [htake]
    exact List.mem_append_right _ (List.mem_singleton_self newline)
  · rw [htake]
    exact g.requestKey_render

theorem oneRequest_of_fetch {fuel : ℕ} (hkey : key.Plain) (hf : fetch fuel env nio key = .ok f) :
    OneRequest key f.toOrigin.flatten := by
  obtain ⟨_, _, -, -, hto, -⟩ := fetch_ok hf
  rw [← Except.ok.inj ((forwardRequest_eq env.loc.requestBuf hkey).symm.trans hto)]
  exact oneRequest_of_plain hkey

theorem exists_found (hR : c.Repr L) (hp : p ∈ L) (hkey : (c.entry p).key.isMatch key = true) :
    ∃ q, Returns (fun fuel => c.findSec fuel key) (some q) := by
  obtain ⟨q, hq⟩ : ∃ q, c.lookup L key = some q :=
    Option.isSome_iff_exists.mp (List.find?_isSome.mpr ⟨p, List.mem_reverse.mpr hp, hkey⟩)
  exact ⟨q, L.length + 1, fun fuel hf => (hR.findSec_eq key hf).trans (congrArg _ hq)⟩

theorem exists_found_of_hit {o : Outcome} (hR : c.Repr L) (hs : Serve c (env, o) c')
    (hhit : o.reply = .hit key) : ∃ q, Returns (fun fuel => c'.findSec fuel key) (some q) := by
  obtain ⟨L', he, hR'⟩ := effect_of_serve hR hs
  obtain rfl := hs.cache_eq
  cases he with
  | keep _ _ h => exact absurd hhit (h key)
  | store => cases hhit
  | hit _ _ p _ _ _ _ _ hfind hS =>
    cases hhit
    refine exists_found hR' (p := p) (List.mem_append_right _ (List.mem_singleton_self p)) ?_
    rw [hS.entry]
    exact (isMatch_of_lookup hfind).2

theorem mem_evict_new {w : Ptr → ℕ} (hw : w p ≤ maxCacheSize) : p ∈ Lru.evict w maxCacheSize (L ++ [p]) := by
  have hsum : ([p].map w).sum ≤ maxCacheSize := by simpa using hw
  obtain ⟨ps, hps⟩ := Lru.evict_keeps w maxCacheSize L hsum
  rw [hps]
  exact List.mem_append_right ps (List.mem_singleton_self p)

theorem Servable.exists_fetch (h : Servable c env key) (hkey : key.Plain) (nio : Nio) :
    ∃ f, Returns (fun fuel => fetch fuel env nio key) f := by
  obtain ⟨listp, fd, fdOps, haddr, hconn⟩ := h.reached
  refine MiniProxy.exists_fetch env nio hkey haddr hconn (Ending.ret_eq_zero_iff.mpr h.ends)
    (copiesFit_of_lt ?_ le_rfl)
  have hmax : maxObjectSize < 2 ^ 64 := by decide
  rw [Nat.zero_add]
  exact h.short.trans hmax

theorem forwarded_of_replayable {s junk : List UInt8} (h : Replayable s junk)
    (hlast : s = [] ∨ s.getLast? = some newline) : forwarded s = s :=
  forwarded_of_terminated (terminated_iff.mpr ⟨hlast, h.2.2.1⟩)

/-- **A request is served.** Where each origin gives one answer to all requests that `is_match` does not
tell apart, a client that asks for a uri is answered from any state of any run: it is sent what is
forwarded of the answer for the uri, and thus the answer itself if that is empty or ends with a newline.
What the origin is asked for, if it is asked, is one request for the uri, and the object is in the cache
afterwards. -/
theorem get_served (hA : Agree answer) (h₀ : IsInit c₀) {tr : List (Env × Outcome)}
    (hrun : Lts.Path (Lts.Guarded Serve fun _ a => Steady answer a.1) c₀ tr c) (g : Get)
    (hline : env.connfd.bytes = g.render ++ newline :: rest) (hlen : g.render.length + 1 < maxline)
    (hanswer : env.origin.bytes = answer g.uri.key) (hs : Servable c env g.uri.key) :
    ∃ o c', Serve c (env, o) c' ∧ o.toClient.flatten = forwarded (answer g.uri.key) ∧
      (answer g.uri.key = [] ∨ (answer g.uri.key).getLast? = some newline →
        o.toClient.flatten = answer g.uri.key) ∧
      (o.reply = .hit g.uri.key ∨
        ∃ f, o.reply = .miss g.uri.key f true ∧ OneRequest g.uri.key f.toOrigin.flatten) ∧
      ∃ p, Returns (fun fuel => c'.findSec fuel g.uri.key) (some p) := by
  obtain ⟨L, hI⟩ := path_served h₀ (hrun.mono fun _ _ _ h => h.1)
  have hR := hI.repr
  have hH : Holds answer c L := by
    obtain ⟨L', hR', hH⟩ := Lts.Path.invariant_state (fun c => ∃ L, c.Repr L ∧ Holds answer c L)
      ⟨[], h₀.repr, fun _ hp => absurd hp List.not_mem_nil⟩
      (fun _ a _ ⟨L, hR, hH⟩ hs => by
        obtain ⟨L', hR', hH', -⟩ := holds_serve hA hR hH hs.1 hs.2
        exact ⟨L', hR', hH'⟩) hrun
    rwa [hR.unique hR']
  obtain ⟨nio, hreq⟩ := receive_get env.loc g hline hlen
  have hplain := (requestKey_of_receive hreq).2
  have hsame : ∀ {sent : List UInt8}, sent = forwarded (answer g.uri.key) →
      (answer g.uri.key = [] ∨ (answer g.uri.key).getLast? = some newline →
        sent = answer g.uri.key) := fun hsent hlast => by
    rw [hsent]
    exact forwarded_of_replayable (hanswer ▸ hs.replayable) hlast
  cases hfind : c.lookup L g.uri.key with
  | some p =>
    obtain ⟨hp, hmatch⟩ := isMatch_of_lookup hfind
    obtain ⟨env₁, key₁, f₁, hP⟩ := hI.origin p hp
    obtain ⟨c', -, -, -, hserve⟩ := serve_hit hR hs.node hs.free hreq hfind (by
      rw [hP.entry]
      exact hP.small.le)
    have hsent : [(c.entry p).payload.take (c.entry p).bytesize].flatten =
        forwarded (answer g.uri.key) := by
      rw [List.flatten_singleton, hH p hp, hA.same _ _ hmatch]
    exact ⟨_, c', hserve, hsent, hsame hsent, .inl rfl, exists_found_of_hit hR hserve rfl⟩
  | none =>
    obtain ⟨-, hnul, hstr⟩ := replayable_iff.mp hs.replayable
    obtain ⟨f, hf⟩ := hs.exists_fetch hplain nio
    obtain ⟨n, hn⟩ := id hf
    obtain ⟨c', d, hS, hentry, hserve⟩ := serve_miss hR hs.node hs.free hreq hfind hf hs.short hnul hstr
    have hnew : c'.entry env.node = ⟨g.uri.key, forwarded env.origin.bytes ++ env.junk,
        (forwarded env.origin.bytes).length⟩ := by
      rw [hS.entry, Function.update_self, hentry]
    have hsent : f.forward.sent.flatten = forwarded (answer g.uri.key) := by
      rw [← hanswer]
      exact (fetch_small (hn n le_rfl) hs.short).1
    refine ⟨_, c', hserve, hsent, hsame hsent, .inr ⟨f, rfl, oneRequest_of_fetch hplain (hn n le_rfl)⟩,
      exists_found hS.repr (p := env.node) (mem_evict_new ?_) ?_⟩
    · rw [Cache.size, hnew]
      exact hs.fits
    · rw [hnew]
      exact Key.isMatch_refl g.uri.key

/-- `GET http://h/A HTTP/1.0`, in front of a CR. -/
def plainGet : Get where
  lead := []
  method := ascii "GET"
  gap := [32]
  uri :=
    { scheme := ascii "http"
      host := ascii "h"
      port := none
      path := some (ascii "/A")
      scheme_http := strcasecmpEq_refl _
      host_ok := by
        have h : (ascii "h").all (fun c => isHost c && c != 0) = true := by decide
        simpa using h
      port_ok := nofun
      path_ok := fun s hs => by
        obtain rfl : ascii "/A" = s := Option.mem_some.mp hs
        decide }
  gap' := [32]
  version := ascii "HTTP/1.0"
  tail := [carriageReturn]
  lead_ok := nofun
  method_get := strcasecmpEq_refl _
  gap_ok := ⟨by decide, List.all_iff_forall_prop.mp (by decide)⟩
  uri_ok := List.all_iff_forall_prop.mp (by decide)
  gap'_ok := ⟨by decide, List.all_iff_forall_prop.mp (by decide)⟩
  version_http := .inl (strcasecmpEq_refl _)
  tail_ok := fun c hc => by
    obtain rfl : carriageReturn = c := Option.mem_some.mp hc
    decide
  one_line := by decide

/-- The first request of a run. -/
theorem get_served_first : ∃ o c', Serve emptyCache (plainEnv (plainRequest "A") (ascii "A\n") 3 [0], o)
    c' ∧ o.toClient.flatten = ascii "A\n" := by
  have hterm : forwarded (ascii "A\n") = ascii "A\n" := forwarded_of_short (by decide) (by decide)
  have horigin : (plainEnv (plainRequest "A") (ascii "A\n") 3 [0]).origin.bytes = ascii "A\n" :=
    Sock.bytes_ofBytes _
  have hA : Agree fun _ => ascii "A\n" := ⟨fun _ _ _ => rfl, fun _ => by rw [hterm]; decide⟩
  have hline : (plainEnv (plainRequest "A") (ascii "A\n") 3 [0]).connfd.bytes =
      plainGet.render ++ newline :: [] := by
    rw [show (plainEnv (plainRequest "A") (ascii "A\n") 3 [0]).connfd.bytes = plainRequest "A" from
      Sock.bytes_ofBytes _]
    decide
  have hs : Servable emptyCache (plainEnv (plainRequest "A") (ascii "A\n") 3 [0])
      plainGet.uri.key := by
    refine ⟨by decide, by decide, ⟨_, 4, [.opened 4], rfl, rfl⟩, by decide, ?_, ?_, ?_⟩
    · rw [horigin]
      refine ⟨by decide, by decide, fun w hw hl => ?_, fun _ => List.mem_singleton_self 0⟩
      have hlen : w.length ≤ 1 := hw.length_le
      rw [hl] at hlen
      exact absurd hlen (by decide)
    · rw [horigin, hterm]
      decide
    · rw [horigin, hterm]
      decide
  obtain ⟨o, c', hserve, -, hsent, -⟩ := get_served hA isInit_emptyCache (Lts.Path.nil _) plainGet hline
    (by decide) horigin hs
  exact ⟨o, c', hserve, hsent (.inr (by decide))⟩

end MiniProxy
