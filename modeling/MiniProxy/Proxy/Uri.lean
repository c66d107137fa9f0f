import MiniProxy.Cache.Model
import MiniProxy.Nio.Model

/-!
# The uri of a request

`parse_uri` splits a uri into host, port and path, which it stores in three arrays. A pointer into the
uri is modelled by the rest of the uri from it on.

* `Target`, `Target.key`: the arrays and the strings in them;
* `readHost`, `readPort`, `readPath`, `parseUri`: the function and its parts;
* `uriKey`, `restKey`: the strings that a uri names, `uriKey_eq_some_iff`;
* `exists_parseUri`, `parseUri_of_none`: what `parse_uri` does with a uri of the scheme `http`, and with
  others;
* **`parseUri_of_uriKey`**, **`stored_of_parseUri`**, **`uriKey_of_parseUri`**: `parse_uri` accepts the
  uris that name strings, and stores these, the port when its array holds zeros;
* `isdigit_of_uriKey`: a port consists of digits.
-/

namespace MiniProxy

open Clib

/-- `'/'`. -/
abbrev slash : UInt8 := 47

/-- `':'`. -/
abbrev colon : UInt8 := 58

/-- The arrays `host`, `port` and `path`. -/
structure Target where
  host : Buf maxline
  port : Buf maxline
  path : Buf maxline

/-- The strings in the arrays. -/
def Target.key (t : Target) : Exec Key := do
  let host ← t.host.str
  let port ← t.port.str
  let path ← t.path.str
  return ⟨host, port, path⟩

theorem Target.key_eq_ok {t : Target} {key : Key} : t.key = .ok key ↔
    t.host.str = .ok key.host ∧ t.port.str = .ok key.port ∧ t.path.str = .ok key.path := by
  constructor
  · intro h
    obtain ⟨host, hhost, h⟩ := bind_ok_iff.mp h
    obtain ⟨port, hport, h⟩ := bind_ok_iff.mp h
    obtain ⟨path, hpath, h⟩ := bind_ok_iff.mp h
    cases h
    exact ⟨hhost, hport, hpath⟩
  · rintro ⟨hhost, hport, hpath⟩
    rw [Target.key, hhost, hport, hpath]
    rfl

/-- The host goes on at `*q`. -/
def isHost (q : UInt8) : Bool := q != slash && q != colon && q != newline

/-- `parse_uri`, from `read host` on. -/
def readHost (host : Buf maxline) (p : List UInt8) : Exec (Buf maxline × List UInt8) := do
  let s := p.takeWhile isHost
  let host ← host.write 0 s
  let host ← host.write s.length [0]
  return (host, p.dropWhile isHost)

/-- `parse_uri`, from `read port` on. No NUL is written behind a port that the uri names. -/
def readPort (port : Buf maxline) (q : List UInt8) : Exec (Buf maxline × List UInt8) := do
  if q.headD 0 = colon then
    let p := q.tail
    let port ← port.write 0 (p.takeWhile isdigit)
    return (port, p.dropWhile isdigit)
  else
    let port ← port.strcpy (ascii "80")
    return (port, q)

/-- `parse_uri`, from `extract path` on. -/
def readPath (path : Buf maxline) (p : List UInt8) : Exec (Buf maxline) := do
  if p.headD 0 = slash then
    let s := p.takeWhile (· != newline)
    let path ← path.write 0 s
    path.write s.length [0]
  else path.strcpy (ascii "/")

/-- `parse_uri`, whose array `scheme` holds anything on entry. -/
def parseUri (scheme : Buf 10) (uri : List UInt8) (t : Target) : Exec (Bool × Target) := do
  let p := uri.dropWhile (· != colon)
  if p = [] then
    return (false, t)
  else
    let s := uri.takeWhile (· != colon)
    let scheme ← scheme.write 0 s
    let scheme ← scheme.write s.length [0]
    let name ← scheme.str
    if strcasecmpEq name (ascii "http") = false then
      return (false, t)
    else if p.getD 1 0 ≠ slash ∨ p.getD 2 0 ≠ slash then
      return (false, t)
    else
      let (host, q) ← readHost t.host (p.drop 3)
      let (port, p) ← readPort t.port q
      let path ← readPath t.path p
      return (true, ⟨host, port, path⟩)

/-! ## The strings of a uri -/

/-- The port that stands at the start of `q`, and what follows it. -/
def uriPort (q : List UInt8) : List UInt8 × List UInt8 :=
  if q.headD 0 = colon then (q.tail.takeWhile isdigit, q.tail.dropWhile isdigit) else (ascii "80", q)

/-- The path that stands at the start of `p`. -/
def uriPath (p : List UInt8) : List UInt8 :=
  if p.headD 0 = slash then p.takeWhile (· != newline) else ascii "/"

/-- The strings that a uri names. -/
def uriKey (uri : List UInt8) : Option Key :=
  let p := uri.dropWhile (· != colon)
  if strcasecmpEq (uri.takeWhile (· != colon)) (ascii "http") = true ∧ p.getD 1 0 = slash ∧
      p.getD 2 0 = slash then
    let q := (p.drop 3).dropWhile isHost
    some ⟨(p.drop 3).takeWhile isHost, (uriPort q).1, uriPath (uriPort q).2⟩
  else none

theorem isdigit_of_uriKey {uri : List UInt8} {key : Key} (h : uriKey uri = some key) :
    ∀ c ∈ key.port, isdigit c = true := by
  rw [uriKey] at h
  simp only at h
  split_ifs at h
  cases h
  intro c hc
  simp only [uriPort] at hc
  split_ifs at hc
  · exact List.mem_takeWhile_imp hc
  · have hdigits : (ascii "80").all isdigit = true := by decide
    exact List.all_eq_true.mp hdigits c hc

theorem uriPort_sublist (q : List UInt8) : (uriPort q).2.Sublist q := by
  rw [uriPort]
  split_ifs
  · exact (List.dropWhile_sublist _).trans (List.tail_sublist _)
  · exact List.Sublist.refl q

/-- The strings that the rest of a uri behind `://` names. -/
def restKey (r : List UInt8) : Key :=
  ⟨r.takeWhile isHost, (uriPort (r.dropWhile isHost)).1, uriPath (uriPort (r.dropWhile isHost)).2⟩

theorem not_mem_of_http {s : List UInt8} (h : strcasecmpEq s (ascii "http") = true) :
    0 ∉ s ∧ colon ∉ s := by
  have hmem : ∀ c ∈ s, tolower c ∈ (ascii "http").map tolower := fun c hc => by
    rw [← strcasecmpEq_iff.mp h]
    exact List.mem_map_of_mem hc
  exact ⟨fun hc => absurd (hmem 0 hc) (by decide), fun hc => absurd (hmem colon hc) (by decide)⟩

theorem scan_scheme {s : List UInt8} (h : strcasecmpEq s (ascii "http") = true) (l : List UInt8) :
    (s ++ colon :: l).takeWhile (· != colon) = s ∧
      (s ++ colon :: l).dropWhile (· != colon) = colon :: l :=
  scan_append (fun c hc => bne_iff_ne.mpr fun e => (not_mem_of_http h).2 (e ▸ hc)) (by simp)

theorem rest_eq {s r : List UInt8} (h : strcasecmpEq s (ascii "http") = true) :
    ((s ++ colon :: slash :: slash :: r).dropWhile (· != colon)).drop 3 = r := by
  rw [(scan_scheme h _).2]
  rfl

/-- **A uri that names strings** is the scheme `http`, `://`, and the rest that names them. -/
theorem uriKey_eq_some_iff {uri : List UInt8} {key : Key} : uriKey uri = some key ↔
    ∃ s r, uri = s ++ colon :: slash :: slash :: r ∧ strcasecmpEq s (ascii "http") = true ∧
      key = restKey r := by
  constructor
  · intro h
    rw [uriKey] at h
    simp only at h
    split_ifs at h with hc
    cases h
    obtain ⟨hs, h₁, h₂⟩ := hc
    refine ⟨uri.takeWhile (· != colon), (uri.dropWhile (· != colon)).drop 3, ?_, hs, rfl⟩
    have hsplit := List.takeWhile_append_dropWhile (p := (· != colon)) (l := uri)
    have hhead := List.head?_dropWhile_not (· != colon) uri
    generalize uri.dropWhile (· != colon) = p at h₁ h₂ hsplit hhead ⊢
    match p with
    | [] => cases h₁
    | [_] => cases h₁
    | [_, _] => cases h₂
    | a :: b :: c :: r =>
      obtain rfl : b = slash := h₁
      obtain rfl : c = slash := h₂
      obtain rfl : a = colon := by simpa using hhead
      exact hsplit.symm
  · rintro ⟨s, r, rfl, hs, rfl⟩
    obtain ⟨htake, hdrop⟩ := scan_scheme hs (slash :: slash :: r)
    rw [uriKey, htake, hdrop]
    exact if_pos ⟨hs, rfl, rfl⟩

theorem sublist_of_uriKey {uri : List UInt8} {key : Key} (h : uriKey uri = some key) :
    key.host.length + 7 ≤ uri.length ∧ key.path.length + 6 ≤ uri.length ∧
      (∀ c ∈ key.host, c ∈ uri) ∧ ∀ c ∈ key.path, c ∈ uri := by
  obtain ⟨s, r, rfl, hhttp, rfl⟩ := uriKey_eq_some_iff.mp h
  have hs : s.length = 4 := length_eq_of_strcasecmpEq hhttp
  have hhost := (List.takeWhile_prefix isHost (l := r)).sublist
  have hrest := (uriPort_sublist (r.dropWhile isHost)).trans (List.dropWhile_sublist isHost)
  have hpath : (uriPath (uriPort (r.dropWhile isHost)).2).Sublist r ∨
      uriPath (uriPort (r.dropWhile isHost)).2 = [slash] := by
    rw [uriPath]
    split_ifs
    · exact .inl ((List.takeWhile_prefix _).sublist.trans hrest)
    · exact .inr (by decide)
  simp only [restKey, List.length_append, List.length_cons, hs, List.mem_append, List.mem_cons]
  refine ⟨by have := hhost.length_le; omega, ?_, fun c hc => ?_, fun c hc => ?_⟩
  · rcases hpath with h | h
    · have := h.length_le
      omega
    · rw [h, List.length_singleton]
      omega
  · exact Or.inr (Or.inr (Or.inr (Or.inr (hhost.subset hc))))
  · rcases hpath with h | h
    · exact Or.inr (Or.inr (Or.inr (Or.inr (h.subset hc))))
    · rw [h, List.mem_singleton] at hc
      exact Or.inr (Or.inr (Or.inl hc))

theorem head?_path_of_uriKey {uri : List UInt8} {key : Key} (h : uriKey uri = some key) :
    key.path.head? = some slash := by
  obtain ⟨s, r, -, -, rfl⟩ := uriKey_eq_some_iff.mp h
  simp only [restKey, uriPath]
  split_ifs with hp
  · generalize (uriPort (r.dropWhile isHost)).2 = p at hp ⊢
    cases p with
    | nil => cases hp
    | cons c p =>
      obtain rfl : c = slash := hp
      rfl
  · rfl

section Parts

variable {s : List UInt8} (h0 : 0 ∉ s) (hlen : s.length < maxline)

include h0 hlen

theorem exists_readHost (host : Buf maxline) : ∃ b, readHost host s = .ok (b, s.dropWhile isHost) ∧
    b.str = .ok (s.takeWhile isHost) := by
  have hsub := (List.takeWhile_prefix isHost (l := s)).sublist
  obtain ⟨b, hb⟩ := host.exists_strcpy (s := s.takeWhile isHost) (by have := hsub.length_le; omega)
  refine ⟨b, ?_, Buf.str_of_strcpy hb fun h => h0 (hsub.subset h)⟩
  rw [← Buf.write_terminate] at hb
  obtain ⟨b', hb', hb⟩ := bind_ok_iff.mp hb
  simp only [readHost, hb', hb, ok_bind, pure_eq_ok]

theorem exists_readPort (port : Buf maxline) : ∃ b, readPort port s = .ok (b, (uriPort s).2) ∧
    (port = Buf.zero maxline → b.str = .ok (uriPort s).1) := by
  rw [readPort, uriPort]
  split_ifs
  · simp only
    have hsub := ((List.takeWhile_prefix isdigit (l := s.tail)).sublist).trans (List.tail_sublist s)
    have hle := hsub.length_le
    obtain ⟨b, hb, -⟩ := port.exists_write 0 (s.tail.takeWhile isdigit) (by omega)
    refine ⟨b, ?_, ?_⟩
    · simp only [hb, ok_bind, pure_eq_ok]
    · rintro rfl
      exact Buf.str_of_write_zero hb (by omega) fun h => h0 (hsub.subset h)
  · obtain ⟨b, hb⟩ := port.exists_strcpy (s := ascii "80") (by decide)
    have h80 : 0 ∉ ascii "80" := by decide
    refine ⟨b, ?_, fun _ => Buf.str_of_strcpy hb h80⟩
    simp only [hb, ok_bind, pure_eq_ok]

theorem exists_readPath (path : Buf maxline) : ∃ b, readPath path s = .ok b ∧
    b.str = .ok (uriPath s) := by
  rw [readPath, uriPath]
  split_ifs
  · have hsub := (List.takeWhile_prefix (· != newline) (l := s)).sublist
    obtain ⟨b, hb⟩ := path.exists_strcpy (s := s.takeWhile (· != newline)) (by
      have := hsub.length_le
      omega)
    exact ⟨b, (Buf.write_terminate _ _).trans hb, Buf.str_of_strcpy hb fun h => h0 (hsub.subset h)⟩
  · obtain ⟨b, hb⟩ := path.exists_strcpy (s := ascii "/") (by decide)
    exact ⟨b, hb, Buf.str_of_strcpy hb (by decide)⟩

end Parts

variable {uri : List UInt8} {scheme : Buf 10} {t t' : Target} {key : Key}

theorem exists_parseUri {s r : List UInt8} (scheme : Buf 10) (t : Target)
    (hs : strcasecmpEq s (ascii "http") = true) (h0 : 0 ∉ r)
    (hlen : (s ++ colon :: slash :: slash :: r).length < maxline) :
    ∃ t', parseUri scheme (s ++ colon :: slash :: slash :: r) t = .ok (true, t') ∧
      t'.host.str = .ok (restKey r).host ∧
      readPort t.port (r.dropWhile isHost) = .ok (t'.port, (uriPort (r.dropWhile isHost)).2) ∧
      (t.port = Buf.zero maxline → t'.port.str = .ok (restKey r).port) ∧
      t'.path.str = .ok (restKey r).path := by
  obtain ⟨htake, hdrop⟩ := scan_scheme hs (slash :: slash :: r)
  have hslen : s.length = 4 := length_eq_of_strcasecmpEq hs
  obtain ⟨b, hb⟩ := scheme.exists_strcpy (s := s) (by omega)
  have hstr := Buf.str_of_strcpy hb (not_mem_of_http hs).1
  rw [← Buf.write_terminate] at hb
  obtain ⟨b', hb', hb⟩ := bind_ok_iff.mp hb
  have hsub₁ := List.dropWhile_sublist isHost (l := r)
  have hsub₂ := (uriPort_sublist (r.dropWhile isHost)).trans hsub₁
  have hle {l : List UInt8} (hl : l.Sublist r) : l.length < maxline := by
    have := hl.length_le
    rw [List.length_append, List.length_cons, List.length_cons, List.length_cons] at hlen
    omega
  obtain ⟨host, hh, hhs⟩ := exists_readHost h0 (hle (List.Sublist.refl r)) t.host
  obtain ⟨port, hq, hqs⟩ := exists_readPort (fun h => h0 (hsub₁.subset h)) (hle hsub₁) t.port
  obtain ⟨path, hr, hrs⟩ := exists_readPath (fun h => h0 (hsub₂.subset h)) (hle hsub₂) t.path
  refine ⟨⟨host, port, path⟩, ?_, hhs, hq, hqs, hrs⟩
  have hcons : (colon :: slash :: slash :: r) ≠ [] := List.cons_ne_nil _ _
  rw [parseUri, htake, hdrop]
  simp only [hcons, if_false, hb', hb, ok_bind, hstr, hs, Bool.true_eq_false, List.getD_cons_succ,
    List.getD_cons_zero, ne_eq, not_true_eq_false, or_self, List.drop_succ_cons, List.drop_zero, hh,
    hq, hr, pure_eq_ok]

/-- **`parse_uri` accepts** a uri that names a host, a port and a path, and stores these. -/
theorem parseUri_of_uriKey (scheme : Buf 10) (h0 : 0 ∉ uri) (hlen : uri.length < maxline)
    (hport : t.port = Buf.zero maxline) (h : uriKey uri = some key) :
    ∃ t', parseUri scheme uri t = .ok (true, t') ∧ t'.key = .ok key := by
  obtain ⟨s, r, rfl, hs, rfl⟩ := uriKey_eq_some_iff.mp h
  obtain ⟨t', ht, hhost, -, hpstr, hpath⟩ := exists_parseUri scheme t hs
    (fun hr => h0 (by simp [hr])) hlen
  exact ⟨t', ht, Target.key_eq_ok.mpr ⟨hhost, hpstr hport, hpath⟩⟩

theorem short_of_parseUri {r : Bool × Target} (h : parseUri scheme uri t = .ok r) :
    colon ∈ uri → (uri.takeWhile (· != colon)).length < 10 := by
  intro hmem
  have hne : uri.dropWhile (· != colon) ≠ [] := fun hnil => by
    simpa using List.dropWhile_eq_nil_iff.mp hnil colon hmem
  rw [parseUri, if_neg hne] at h
  obtain ⟨b, -, h⟩ := bind_ok_iff.mp h
  obtain ⟨b', hb', -⟩ := bind_ok_iff.mp h
  exact (Buf.write_eq_ok.mp hb').1

/-- **`parse_uri` rejects** a uri that names none, if it gets behind the scheme. -/
theorem parseUri_of_none (scheme : Buf 10) (t : Target) (h0 : 0 ∉ uri)
    (hshort : colon ∈ uri → (uri.takeWhile (· != colon)).length < 10) (h : uriKey uri = none) :
    parseUri scheme uri t = .ok (false, t) := by
  rw [parseUri]
  simp only
  by_cases hne : uri.dropWhile (· != colon) = []
  · rw [if_pos hne]
    rfl
  · have hmem : colon ∈ uri := by
      by_contra hc
      exact hne (List.dropWhile_eq_nil_iff.mpr fun c hm => bne_iff_ne.mpr fun e => hc (e ▸ hm))
    obtain ⟨b, hb⟩ := scheme.exists_strcpy (hshort hmem)
    have hstr := Buf.str_of_strcpy hb fun h => h0 ((List.takeWhile_prefix _).sublist.subset h)
    rw [← Buf.write_terminate] at hb
    obtain ⟨b', hb', hb⟩ := bind_ok_iff.mp hb
    simp only [hne, if_false, hb', hb, ok_bind, hstr]
    split_ifs with hs hsl
    · rfl
    · rfl
    · rw [not_or, not_not, not_not] at hsl
      rw [Bool.not_eq_false] at hs
      rw [uriKey] at h
      simp only at h
      rw [if_pos ⟨hs, hsl⟩] at h
      cases h

theorem exists_uriKey (h0 : 0 ∉ uri) (h : parseUri scheme uri t = .ok (true, t')) :
    ∃ key, uriKey uri = some key := by
  by_contra hnone
  have hn : uriKey uri = none := Option.eq_none_iff_forall_ne_some.mpr fun key hk => hnone ⟨key, hk⟩
  cases h.symm.trans (parseUri_of_none scheme t h0 (short_of_parseUri h) hn)

/-- **What `parse_uri` stores**: the host and the path that the uri names, and the port when its array
holds zeros. -/
theorem stored_of_parseUri (h0 : 0 ∉ uri) (hlen : uri.length < maxline)
    (h : parseUri scheme uri t = .ok (true, t')) :
    ∃ key, uriKey uri = some key ∧ t'.host.str = .ok key.host ∧ t'.path.str = .ok key.path ∧
      (t.port = Buf.zero maxline → t'.port.str = .ok key.port) := by
  obtain ⟨key, hk⟩ := exists_uriKey h0 h
  obtain ⟨s, r, rfl, hs, rfl⟩ := uriKey_eq_some_iff.mp hk
  obtain ⟨t'', ht, hhost, -, hport, hpath⟩ := exists_parseUri scheme t hs
    (fun hr => h0 (by simp [hr])) hlen
  cases h.symm.trans ht
  exact ⟨_, hk, hhost, hpath, hport⟩

theorem uriKey_of_parseUri (h0 : 0 ∉ uri) (hlen : uri.length < maxline)
    (hport : t.port = Buf.zero maxline) (h : parseUri scheme uri t = .ok (true, t')) :
    ∃ key, uriKey uri = some key ∧ t'.key = .ok key := by
  obtain ⟨key, hk, hhost, hpath, hstr⟩ := stored_of_parseUri h0 hlen h
  exact ⟨key, hk, Target.key_eq_ok.mpr ⟨hhost, hstr hport, hpath⟩⟩

end MiniProxy
