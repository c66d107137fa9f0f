import MiniProxy.Proxy.Bounds

/-!
# The form of a uri

A uri is a scheme, `://`, a host, and maybe a port and a path.

* `Uri`, `Uri.render`, `Uri.key`: the parts of a uri, the uri, and the strings that it names;
* **`parseUri_render`**: `parse_uri` finds the parts again;
* `Accounted`, `StrictRest`: the parts make up the uri; **`parseUri_accounts_iff`**: so they do for what
  `parse_uri` accepts exactly when the host is there and has no `?`, and the port, if any, is there and is
  followed by the path or by nothing;
* `Independent`: what the arrays hold on entry does not matter; **`parseUri_independent_iff`**: so it is
  exactly when no port is given.
-/

namespace MiniProxy

open Clib

/-- `'?'`. -/
abbrev question : UInt8 := 63

theorem headD_ne {q : List UInt8} {d : UInt8} (hd : d ≠ 0) (h : q.head? ≠ some d) :
    q.headD 0 ≠ d := by
  cases q with
  | nil => exact hd.symm
  | cons c l => exact fun e => h (congrArg some e)

/-- The parts of a uri. -/
structure Uri where
  scheme : List UInt8
  host : List UInt8
  port : Option (List UInt8)
  path : Option (List UInt8)
  scheme_http : strcasecmpEq scheme (ascii "http") = true
  host_ok : ∀ c ∈ host, isHost c = true ∧ c ≠ 0
  port_ok : ∀ ds ∈ port, ds ≠ [] ∧ ∀ c ∈ ds, isdigit c = true
  path_ok : ∀ s ∈ path, s.head? = some slash ∧ newline ∉ s ∧ 0 ∉ s

namespace Uri

variable (u : Uri)

/-- `:` and the port, if it is given. -/
def portText : List UInt8 := u.port.elim [] fun ds => colon :: ds

/-- The path, if it is given. -/
def pathText : List UInt8 := u.path.getD []

/-- The uri. -/
def render : List UInt8 :=
  u.scheme ++ colon :: slash :: slash :: (u.host ++ (u.portText ++ u.pathText))

/-- The strings that it names: without a port `80`, without a path `/`. -/
def key : Key := ⟨u.host, u.port.getD (ascii "80"), u.path.getD (ascii "/")⟩

theorem head_pathText {suffix : List UInt8} (hsuf : ∀ c ∈ suffix.head?, c = newline) :
    ∀ c ∈ (u.pathText ++ suffix).head?, c = slash ∨ c = newline := by
  intro c hc
  cases hp : u.path with
  | none =>
    rw [pathText, hp] at hc
    exact Or.inr (hsuf c hc)
  | some s =>
    obtain ⟨hs, -, -⟩ := u.path_ok s hp
    rw [pathText, hp, Option.getD_some, List.head?_append, hs] at hc
    exact Or.inl (Option.mem_some.mp hc).symm

theorem zero_not_mem_portText : 0 ∉ u.portText := by
  cases hp : u.port with
  | none => simp [portText, hp]
  | some ds =>
    rw [portText, hp]
    intro h
    rcases List.mem_cons.mp h with h | h
    · exact absurd h (by decide)
    · exact absurd ((u.port_ok ds hp).2 0 h) (by decide)

theorem zero_not_mem_pathText : 0 ∉ u.pathText := by
  cases hp : u.path with
  | none => simp [pathText, hp]
  | some s =>
    rw [pathText, hp]
    exact (u.path_ok s hp).2.2

theorem zero_not_mem_render : 0 ∉ u.render := by
  intro h
  rw [render, List.mem_append, List.mem_cons, List.mem_cons, List.mem_cons, List.mem_append,
    List.mem_append] at h
  rcases h with h | h | h | h | h | h | h
  · exact (not_mem_of_http u.scheme_http).1 h
  · exact absurd h (by decide)
  · exact absurd h (by decide)
  · exact absurd h (by decide)
  · exact (u.host_ok 0 h).2 rfl
  · exact u.zero_not_mem_portText h
  · exact u.zero_not_mem_pathText h

section Suffix

variable {suffix : List UInt8} (hsuf : ∀ c ∈ suffix.head?, c = newline)

include hsuf

theorem scan_host :
    (u.host ++ (u.portText ++ (u.pathText ++ suffix))).takeWhile isHost = u.host ∧
      (u.host ++ (u.portText ++ (u.pathText ++ suffix))).dropWhile isHost =
        u.portText ++ (u.pathText ++ suffix) := by
  apply scan_append (fun c hc => (u.host_ok c hc).1)
  intro c hc
  cases hp : u.port with
  | none =>
    rw [portText, hp] at hc
    rcases u.head_pathText hsuf c hc with rfl | rfl <;> decide
  | some ds =>
    rw [portText, hp] at hc
    obtain rfl : colon = c := Option.mem_some.mp hc
    decide

theorem uriPort_portText : uriPort (u.portText ++ (u.pathText ++ suffix)) =
    (u.port.getD (ascii "80"), u.pathText ++ suffix) := by
  have hhead := u.head_pathText hsuf
  cases hp : u.port with
  | none =>
    have hcolon : (u.pathText ++ suffix).headD 0 ≠ colon := by
      refine headD_ne (by decide) fun h => ?_
      rcases hhead colon h with h | h <;> exact absurd h (by decide)
    rw [portText, hp, uriPort]
    exact if_neg hcolon
  | some ds =>
    obtain ⟨htake, hdrop⟩ := scan_append (p := isdigit) (s := ds) (t := u.pathText ++ suffix)
      (u.port_ok ds hp).2 (fun c hc => by rcases hhead c hc with rfl | rfl <;> decide)
    rw [portText, hp, uriPort, Option.elim_some, List.cons_append, List.headD_cons, if_pos rfl,
      List.tail_cons, htake, hdrop, Option.getD_some]

theorem uriPath_pathText : uriPath (u.pathText ++ suffix) = u.path.getD (ascii "/") := by
  cases hp : u.path with
  | none =>
    have hslash : suffix.headD 0 ≠ slash :=
      headD_ne (by decide) fun h => absurd (hsuf slash h) (by decide)
    rw [pathText, hp, uriPath]
    exact if_neg hslash
  | some s =>
    obtain ⟨hs, hnl, -⟩ := u.path_ok s hp
    obtain ⟨htake, -⟩ := scan_append (p := (· != newline)) (s := s) (t := suffix)
      (fun c hc => bne_iff_ne.mpr fun e => hnl (e ▸ hc)) (fun c hc => by rw [hsuf c hc]; rfl)
    obtain ⟨l, rfl⟩ : ∃ l, s = slash :: l := ⟨s.tail, List.eq_cons_of_mem_head? hs⟩
    rw [pathText, hp, uriPath, Option.getD_some, Option.getD_some, htake]
    exact if_pos rfl

theorem restKey_rest : restKey (u.host ++ (u.portText ++ (u.pathText ++ suffix))) = u.key := by
  obtain ⟨htake, hdrop⟩ := u.scan_host hsuf
  rw [restKey, htake, hdrop, u.uriPort_portText hsuf, u.uriPath_pathText hsuf]
  rfl

end Suffix

end Uri

/-- **`parse_uri` inverts the rendering of a uri**, with anything behind a newline after it: it returns
`1`, with the host, the port or `80`, and the path or `/`. -/
theorem parseUri_render (u : Uri) (suffix : List UInt8) (hsuf : ∀ c ∈ suffix.head?, c = newline)
    (hlen : (u.render ++ suffix).length < maxline) (scheme : Buf 10) {t : Target}
    (hport : t.port = Buf.zero maxline) :
    ∃ t', parseUri scheme (cstr (u.render ++ suffix)) t = .ok (true, t') ∧ t'.key = .ok u.key := by
  have hsuf' : ∀ c ∈ (cstr suffix).head?, c = newline := by
    intro c hc
    cases suffix with
    | nil => cases hc
    | cons d l =>
      obtain rfl := hsuf d rfl
      exact (Option.mem_some.mp hc).symm
  refine parseUri_of_uriKey scheme (not_mem_cstr _) ((length_cstr_le _).trans_lt hlen) hport
    (uriKey_eq_some_iff.mpr ⟨u.scheme, u.host ++ (u.portText ++ (u.pathText ++ cstr suffix)), ?_,
      u.scheme_http, (u.restKey_rest hsuf').symm⟩)
  rw [cstr_append_of_not_mem u.zero_not_mem_render, Uri.render]
  simp only [List.append_assoc, List.cons_append]

/-- The uri `HTTP://h:8080/a:1?b`, and a line behind it. -/
theorem parseUri_render_query : ∃ t', parseUri (Buf.zero 10)
    (cstr (ascii "HTTP://h:8080/a:1?b\nx")) ⟨Buf.zero _, Buf.zero _, Buf.zero _⟩ = .ok (true, t') ∧
      t'.key = .ok ⟨ascii "h", ascii "8080", ascii "/a:1?b"⟩ := by
  have hhost : (ascii "h").all (fun c => isHost c && c != 0) = true := by decide
  have hport : (ascii "8080").all isdigit = true := by decide
  have hdigits : ∀ ds ∈ some (ascii "8080"), ds ≠ [] ∧ ∀ c ∈ ds, isdigit c = true := by
    rintro ds hds
    obtain rfl := Option.mem_some.mp hds
    exact ⟨by decide, List.all_eq_true.mp hport⟩
  have hname : ∀ c ∈ ascii "h", isHost c = true ∧ c ≠ 0 := fun c hc => by
    simpa using List.all_eq_true.mp hhost c hc
  have hlen : (ascii "HTTP://h:8080/a:1?b" ++ ascii "\nx").length < maxline := by decide
  exact parseUri_render ⟨ascii "HTTP", ascii "h", some (ascii "8080"), some (ascii "/a:1?b"),
    by decide, hname, hdigits, by decide⟩ (ascii "\nx") (fun c hc => (Option.some.inj hc).symm)
    hlen _ rfl

/-! ## What is accepted -/

/-- The strings of `key` are the parts that make up the uri. -/
def Accounted (uri : List UInt8) (key : Key) : Prop :=
  ∃ u : Uri, uri = u.render ∧ u.host = key.host ∧ u.host ≠ [] ∧ question ∉ u.host ∧
    (∀ ds ∈ u.port, key.port = ds) ∧ ∀ s ∈ u.path, key.path = s

/-- Behind `://` stands a host without a `?`, and where a `:` follows it, digits, and the path or nothing
behind them. -/
def StrictRest (r : List UInt8) : Prop :=
  r.takeWhile isHost ≠ [] ∧ question ∉ r.takeWhile isHost ∧
    ((r.dropWhile isHost).head? = some colon →
      (r.dropWhile isHost).tail.takeWhile isdigit ≠ [] ∧
        ∀ c ∈ ((r.dropWhile isHost).tail.dropWhile isdigit).head?, c = slash)

theorem head_dropWhile_isHost {r : List UInt8} {c : UInt8} (hnl : newline ∉ r)
    (h : c ∈ (r.dropWhile isHost).head?) : c = slash ∨ c = colon := by
  have hmem : c ∈ r := (List.dropWhile_sublist _).subset (List.mem_of_head? h)
  have hstop := List.head?_dropWhile_not isHost r
  rw [Option.mem_def.mp h] at hstop
  have hne : c ≠ newline := fun e => hnl (e ▸ hmem)
  simp only [isHost, Bool.and_eq_false_iff, bne_eq_false_iff_eq] at hstop
  rcases hstop with (h | h) | h
  · exact Or.inl h
  · exact Or.inr h
  · exact absurd h hne

/-- The path `p`, if there is one. -/
def optPath (p : List UInt8) : Option (List UInt8) := if p = [] then none else some p

@[simp] theorem getD_optPath (p : List UInt8) : (optPath p).getD [] = p := by
  rw [optPath]
  split_ifs with h
  · exact h.symm
  · rfl

theorem uriPath_of_not_mem {p : List UInt8} (hp : ∀ c ∈ p.head?, c = slash) (hnl : newline ∉ p) :
    ∀ s ∈ optPath p, uriPath p = s ∧ s.head? = some slash ∧ s = p := by
  intro s hs
  rw [optPath] at hs
  split_ifs at hs with hnil
  · cases hs
  · obtain rfl : p = s := Option.mem_some.mp hs
    cases p with
    | nil => exact absurd rfl hnil
    | cons c l =>
      obtain rfl := hp c rfl
      refine ⟨?_, rfl, rfl⟩
      rw [uriPath, List.headD_cons, if_pos rfl]
      exact List.takeWhile_eq_self_iff.mpr fun c hc => bne_iff_ne.mpr fun e => hnl (e ▸ hc)

section Rest

variable {s r : List UInt8} (hs : strcasecmpEq s (ascii "http") = true)

include hs

theorem accounted_of_port {host l : List UInt8} (hhost : ∀ c ∈ host, isHost c = true ∧ c ≠ 0)
    (hne : host ≠ []) (hquestion : question ∉ host) (h0 : 0 ∉ l) (hnl : newline ∉ l)
    (hdigits : l.takeWhile isdigit ≠ []) (hpath : ∀ c ∈ (l.dropWhile isdigit).head?, c = slash) :
    Accounted (s ++ colon :: slash :: slash :: (host ++ colon :: l))
      ⟨host, l.takeWhile isdigit, uriPath (l.dropWhile isdigit)⟩ := by
  have hsub := List.dropWhile_sublist isdigit (l := l)
  have hparts := uriPath_of_not_mem hpath fun hm => hnl (hsub.subset hm)
  refine ⟨⟨s, host, some (l.takeWhile isdigit), optPath (l.dropWhile isdigit), hs, hhost, ?_, ?_⟩,
    ?_, rfl, hne, hquestion, fun ds hds => Option.mem_some.mp hds, fun p hp => (hparts p hp).1⟩
  · intro ds hds
    obtain rfl : l.takeWhile isdigit = ds := Option.mem_some.mp hds
    exact ⟨hdigits, fun c hc => List.mem_takeWhile_imp hc⟩
  · intro p hp
    obtain ⟨-, hhead, rfl⟩ := hparts p hp
    exact ⟨hhead, fun hm => hnl (hsub.subset hm), fun hm => h0 (hsub.subset hm)⟩
  · change _ = s ++ colon :: slash :: slash :: (host ++
      (colon :: l.takeWhile isdigit ++ (optPath (l.dropWhile isdigit)).getD []))
    rw [getD_optPath, List.cons_append, List.takeWhile_append_dropWhile]

theorem accounted_of_noPort {host q : List UInt8} (hhost : ∀ c ∈ host, isHost c = true ∧ c ≠ 0)
    (hne : host ≠ []) (hquestion : question ∉ host) (h0 : 0 ∉ q) (hnl : newline ∉ q)
    (hpath : ∀ c ∈ q.head?, c = slash) :
    Accounted (s ++ colon :: slash :: slash :: (host ++ q)) ⟨host, ascii "80", uriPath q⟩ := by
  have hparts := uriPath_of_not_mem hpath hnl
  refine ⟨⟨s, host, none, optPath q, hs, hhost, fun _ h => absurd h (Option.not_mem_none _), ?_⟩,
    ?_, rfl, hne, hquestion, fun _ h => absurd h (Option.not_mem_none _),
    fun p hp => (hparts p hp).1⟩
  · intro p hp
    obtain ⟨-, hhead, rfl⟩ := hparts p hp
    exact ⟨hhead, hnl, h0⟩
  · change _ = s ++ colon :: slash :: slash :: (host ++ ([] ++ (optPath q).getD []))
    rw [getD_optPath, List.nil_append]

theorem accounted_of_strictRest (h0 : 0 ∉ r) (hnl : newline ∉ r) (h : StrictRest r) :
    Accounted (s ++ colon :: slash :: slash :: r) (restKey r) := by
  obtain ⟨hne, hquestion, hport⟩ := h
  have hsplit := List.takeWhile_append_dropWhile (p := isHost) (l := r)
  have hhost : ∀ c ∈ r.takeWhile isHost, isHost c = true ∧ c ≠ 0 := fun c hc =>
    ⟨List.mem_takeWhile_imp hc, fun e => h0 (e ▸ (List.takeWhile_prefix _).sublist.subset hc)⟩
  have hsub := List.dropWhile_sublist isHost (l := r)
  have hstop := fun c => @head_dropWhile_isHost r c hnl
  rw [restKey]
  generalize r.takeWhile isHost = host at *
  generalize r.dropWhile isHost = q at *
  obtain rfl := hsplit
  have h0q : 0 ∉ q := fun hm => h0 (hsub.subset hm)
  have hnlq : newline ∉ q := fun hm => hnl (hsub.subset hm)
  by_cases hcolon : q.head? = some colon
  · obtain ⟨l, rfl⟩ : ∃ l, q = colon :: l := ⟨q.tail, List.eq_cons_of_mem_head? hcolon⟩
    obtain ⟨hdigits, hpath⟩ := hport hcolon
    exact accounted_of_port hs hhost hne hquestion (fun hm => h0q (List.mem_cons_of_mem _ hm))
      (fun hm => hnlq (List.mem_cons_of_mem _ hm)) hdigits hpath
  · have hpath : ∀ c ∈ q.head?, c = slash := by
      intro c hc
      rcases hstop c hc with h | rfl
      · exact h
      · exact absurd hc hcolon
    have hq : uriPort q = (ascii "80", q) := if_neg (headD_ne (by decide) hcolon)
    rw [hq]
    exact accounted_of_noPort hs hhost hne hquestion h0q hnlq hpath

theorem strictRest_of_accounted (hnl : newline ∉ r)
    (h : Accounted (s ++ colon :: slash :: slash :: r) (restKey r)) : StrictRest r := by
  obtain ⟨u, hu, hhost, hne, hquestion, -, -⟩ := h
  have hr : r = u.host ++ (u.portText ++ (u.pathText ++ [])) := by
    have hdrop := congrArg (fun l : List UInt8 => (l.dropWhile (· != colon)).drop 3) hu
    rw [Uri.render] at hdrop
    simp only [rest_eq hs, rest_eq u.scheme_http] at hdrop
    rw [hdrop, List.append_nil]
  have hsuf : ∀ c ∈ ([] : List UInt8).head?, c = newline := fun c hc => by cases hc
  have hhead := u.head_pathText hsuf
  obtain ⟨htake, hdrop⟩ := u.scan_host hsuf
  rw [← hr] at htake hdrop
  refine ⟨by rwa [htake], by rwa [htake], fun hcolon => ?_⟩
  rw [hdrop] at hcolon ⊢
  cases hp : u.port with
  | none =>
    rw [Uri.portText, hp] at hcolon
    rcases hhead colon hcolon with h | h <;> exact absurd h (by decide)
  | some ds =>
    obtain ⟨hds, hdigits⟩ := u.port_ok ds hp
    obtain ⟨htake', hdrop'⟩ := scan_append (t := u.pathText ++ []) hdigits
      (fun c hc => by rcases hhead c hc with rfl | rfl <;> decide)
    rw [Uri.portText, hp, Option.elim_some, List.cons_append, List.tail_cons, htake', hdrop']
    refine ⟨hds, fun c hc => (hhead c hc).resolve_right ?_⟩
    rintro rfl
    refine hnl ?_
    rw [hr]
    exact List.mem_append_right _ (List.mem_append_right _ (List.mem_of_head? hc))

end Rest

variable {uri : List UInt8}

/-- **What `parse_uri` accepts is made up of what it stores exactly when** no `http://` begins the uri, or
the rest of it is strict: the host is not empty and has no `?`, and a `:` after it is followed by a digit,
and the last digit by the path or by the end. -/
theorem parseUri_accounts_iff (scheme : Buf 10) (h0 : 0 ∉ uri) (hnl : newline ∉ uri)
    (hlen : uri.length < maxline) :
    (∀ t', parseUri scheme uri ⟨Buf.zero _, Buf.zero _, Buf.zero _⟩ = .ok (true, t') →
        ∃ key, t'.key = .ok key ∧ Accounted uri key) ↔
      ∀ s r, uri = s ++ colon :: slash :: slash :: r → strcasecmpEq s (ascii "http") = true →
        StrictRest r := by
  constructor
  · rintro h s r rfl hs
    obtain ⟨t', ht, hkey⟩ := parseUri_of_uriKey scheme (t := ⟨Buf.zero _, Buf.zero _, Buf.zero _⟩) h0
      hlen rfl (uriKey_eq_some_iff.mpr ⟨s, r, rfl, hs, rfl⟩)
    obtain ⟨key, hkey', hacc⟩ := h t' ht
    cases hkey.symm.trans hkey'
    exact strictRest_of_accounted hs (fun hm => hnl (by simp [hm])) hacc
  · intro h t' ht
    obtain ⟨key, hkey, hstr⟩ := uriKey_of_parseUri h0 hlen rfl ht
    obtain ⟨s, r, rfl, hs, rfl⟩ := uriKey_eq_some_iff.mp hkey
    exact ⟨_, hstr, accounted_of_strictRest hs (fun hm => h0 (by simp [hm]))
      (fun hm => hnl (by simp [hm])) (h s r rfl hs)⟩

/-- A uri with a port and a path. -/
theorem parseUri_accounts_port : ∃ t' key,
    parseUri (Buf.zero 10) (ascii "http://h:8080/a?b") ⟨Buf.zero _, Buf.zero _, Buf.zero _⟩ =
      .ok (true, t') ∧ t'.key = .ok key ∧ Accounted (ascii "http://h:8080/a?b") key := by
  have hhttp : strcasecmpEq (ascii "http") (ascii "http") = true := by decide
  have hname : uriKey (ascii "http://h:8080/a?b") =
      some ⟨ascii "h", ascii "8080", ascii "/a?b"⟩ :=
    uriKey_eq_some_iff.mpr ⟨ascii "http", ascii "h:8080/a?b", rfl, hhttp, rfl⟩
  obtain ⟨t', ht, -⟩ := parseUri_of_uriKey (t := ⟨Buf.zero _, Buf.zero _, Buf.zero _⟩)
    (Buf.zero 10) (by decide) (by decide) rfl hname
  obtain ⟨key, hkey, hacc⟩ := (parseUri_accounts_iff (Buf.zero 10) (by decide) (by decide)
    (by decide)).mpr (fun s r hu hs => by
      rw [← rest_eq (r := r) hs, ← hu]
      exact ⟨by decide, by decide, fun _ => ⟨by decide, fun c hc => (Option.some.inj hc).symm⟩⟩)
    t' ht
  exact ⟨t', key, ht, hkey, hacc⟩

/-- Of `http://h:80x/a` all that follows the port is discarded. -/
theorem not_parseUri_accounts : ∃ t',
    parseUri (Buf.zero 10) (ascii "http://h:80x/a") ⟨Buf.zero _, Buf.zero _, Buf.zero _⟩ =
      .ok (true, t') ∧ t'.key = .ok ⟨ascii "h", ascii "80", ascii "/"⟩ ∧
      ¬ ∃ key, t'.key = .ok key ∧ Accounted (ascii "http://h:80x/a") key := by
  have hhttp : strcasecmpEq (ascii "http") (ascii "http") = true := by decide
  have hname : uriKey (ascii "http://h:80x/a") = some ⟨ascii "h", ascii "80", ascii "/"⟩ :=
    uriKey_eq_some_iff.mpr ⟨ascii "http", ascii "h:80x/a", rfl, hhttp, rfl⟩
  obtain ⟨t', ht, hkey⟩ := parseUri_of_uriKey (t := ⟨Buf.zero _, Buf.zero _, Buf.zero _⟩)
    (Buf.zero 10) (by decide) (by decide) rfl hname
  refine ⟨t', ht, hkey, ?_⟩
  rintro ⟨key, hkey', hacc⟩
  cases hkey.symm.trans hkey'
  obtain ⟨-, -, hport⟩ := strictRest_of_accounted (r := ascii "h:80x/a") hhttp (by decide) hacc
  have hslash := (hport (by decide)).2 120 rfl
  exact absurd hslash (by decide)

/-! ## What the arrays hold -/

/-- Whatever the arrays hold on entry, `parse_uri` returns the same, and stores the same strings. -/
def Independent (uri : List UInt8) : Prop :=
  ∀ (scheme scheme' : Buf 10) (t t' : Target), ∃ b u u',
    parseUri scheme uri t = .ok (b, u) ∧ parseUri scheme' uri t' = .ok (b, u') ∧
      (b = true → ∃ key, u.key = .ok key ∧ u'.key = .ok key)

theorem readPort_default {port port' : Buf maxline} {q q' : List UInt8} (hq : q.head? ≠ some colon)
    (h : readPort port q = .ok (port', q')) : port'.str = .ok (ascii "80") := by
  rw [readPort, if_neg (headD_ne (by decide) hq)] at h
  obtain ⟨b, hb, h⟩ := bind_ok_iff.mp h
  cases h
  exact Buf.str_of_strcpy hb (by decide)

theorem readPort_given {port port' : Buf maxline} {q q' : List UInt8} (hq : q.head? = some colon)
    (h : readPort port q = .ok (port', q')) : port'.bytes = q.tail.takeWhile isdigit ++
      port.bytes.drop (q.tail.takeWhile isdigit).length := by
  obtain ⟨l, rfl⟩ : ∃ l, q = colon :: l := ⟨q.tail, List.eq_cons_of_mem_head? hq⟩
  rw [readPort, List.headD_cons, if_pos rfl] at h
  simp only at h
  obtain ⟨b, hb, h⟩ := bind_ok_iff.mp h
  cases h
  obtain ⟨-, hbytes⟩ := Buf.write_eq_ok.mp hb
  rw [hbytes, List.take_zero, List.nil_append, Nat.zero_add]

/-- An array without a NUL. -/
def ones (n : ℕ) : Buf n := ⟨List.replicate n 49, List.length_replicate⟩

/-- **`parse_uri` does not depend on what its arrays held exactly when** the uri does not begin with
`http://`, or no `:` follows the host. -/
theorem parseUri_independent_iff (h0 : 0 ∉ uri) (hlen : uri.length < maxline)
    (hshort : colon ∈ uri → (uri.takeWhile (· != colon)).length < 10) :
    Independent uri ↔ ∀ s r, uri = s ++ colon :: slash :: slash :: r →
      strcasecmpEq s (ascii "http") = true → (r.dropWhile isHost).head? ≠ some colon := by
  constructor
  · rintro h s r rfl hs hcolon
    obtain ⟨b, u, u', hu, -, hkey⟩ := h (Buf.zero 10) (Buf.zero 10) ⟨Buf.zero _, ones _, Buf.zero _⟩
      ⟨Buf.zero _, ones _, Buf.zero _⟩
    obtain ⟨t', ht, -, hport, -⟩ := exists_parseUri (Buf.zero 10) ⟨Buf.zero _, ones _, Buf.zero _⟩
      hs (fun hr => h0 (by simp [hr])) hlen
    cases hu.symm.trans ht
    obtain ⟨key, hkey, -⟩ := hkey rfl
    obtain ⟨hm, -⟩ := Buf.str_eq_ok.mp (Target.key_eq_ok.mp hkey).2.1
    rw [readPort_given hcolon hport] at hm
    rcases List.mem_append.mp hm with h | h
    · exact absurd (List.mem_takeWhile_imp h) (by decide)
    · exact absurd (List.eq_of_mem_replicate (List.mem_of_mem_drop h)) (by decide)
  · intro h scheme scheme' t t'
    cases hkey : uriKey uri with
    | none =>
      exact ⟨false, t, t', parseUri_of_none scheme t h0 hshort hkey,
        parseUri_of_none scheme' t' h0 hshort hkey, fun h => by cases h⟩
    | some key =>
      obtain ⟨s, r, rfl, hs, rfl⟩ := uriKey_eq_some_iff.mp hkey
      have hr : 0 ∉ r := fun hr => h0 (by simp [hr])
      have hcolon := h s r rfl hs
      obtain ⟨u, hu, hhost, hport, -, hpath⟩ := exists_parseUri scheme t hs hr hlen
      obtain ⟨u', hu', hhost', hport', -, hpath'⟩ := exists_parseUri scheme' t' hs hr hlen
      exact ⟨true, u, u', hu, hu', fun _ => ⟨⟨(restKey r).host, ascii "80", (restKey r).path⟩,
        Target.key_eq_ok.mpr ⟨hhost, readPort_default hcolon hport, hpath⟩,
        Target.key_eq_ok.mpr ⟨hhost', readPort_default hcolon hport', hpath'⟩⟩⟩

/-- A uri without a port. -/
theorem parseUri_independent_path : Independent (ascii "http://h/a:80") := by
  refine (parseUri_independent_iff (by decide) (by decide)
    (by decide)).mpr fun s r hu hs => ?_
  rw [← rest_eq (r := r) hs, ← hu]
  decide

/-- Behind `http://h:8080/`, in the same arrays, the port of `http://h:80/` is `8080`. -/
theorem not_parseUri_independent :
    (∃ u v w : Target,
      parseUri (Buf.zero 10) (ascii "http://h:8080/") ⟨Buf.zero _, Buf.zero _, Buf.zero _⟩ =
        .ok (true, u) ∧
      parseUri (Buf.zero 10) (ascii "http://h:80/") u = .ok (true, v) ∧
      parseUri (Buf.zero 10) (ascii "http://h:80/") ⟨Buf.zero _, Buf.zero _, Buf.zero _⟩ =
        .ok (true, w) ∧
      v.port.str = .ok (ascii "8080") ∧ w.port.str = .ok (ascii "80")) ∧
      ¬ Independent (ascii "http://h:80/") := by
  have hhttp : strcasecmpEq (ascii "http") (ascii "http") = true := by decide
  obtain ⟨u, hu, -, hup, -⟩ := exists_parseUri (s := ascii "http") (r := ascii "h:8080/")
    (Buf.zero 10) ⟨Buf.zero _, Buf.zero _, Buf.zero _⟩ hhttp (by decide) (by decide)
  obtain ⟨v, hv, -, hvp, -⟩ := exists_parseUri (s := ascii "http") (r := ascii "h:80/")
    (Buf.zero 10) u hhttp (by decide) (by decide)
  obtain ⟨w, hw, -, -, hws, -⟩ := exists_parseUri (s := ascii "http") (r := ascii "h:80/")
    (Buf.zero 10) ⟨Buf.zero _, Buf.zero _, Buf.zero _⟩ hhttp (by decide) (by decide)
  have hub := readPort_given (by decide) hup
  have hvb := readPort_given (by decide) hvp
  have hstr : v.port.str = .ok (ascii "8080") := by
    refine Buf.str_of_bytes (l := List.replicate 8187 0) ?_ (by decide)
    rw [hvb, hub, Buf.zero, List.drop_replicate]
    rfl
  refine ⟨⟨u, v, w, hu, hv, hw, hstr, hws rfl⟩, fun h => ?_⟩
  obtain ⟨b, v', w', hv', hw', hkey⟩ := h (Buf.zero 10) (Buf.zero 10) u
    ⟨Buf.zero _, Buf.zero _, Buf.zero _⟩
  cases hv.symm.trans hv'
  cases hw.symm.trans hw'
  obtain ⟨key, hvk, hwk⟩ := hkey rfl
  have hport := (Target.key_eq_ok.mp hvk).2.1
  have hport' := (Target.key_eq_ok.mp hwk).2.1
  have hsame := hstr.symm.trans (hport.trans (hport'.symm.trans (hws rfl)))
  exact absurd (Except.ok.inj hsame) (by decide)

end MiniProxy
