import MiniProxy.Proxy.Request

/-!
# The buffers of the request parser

`parse_request` fills the arrays `method`, `uri` and `protocol`, and `parse_uri` fills `scheme`,
`host`, `port` and `path`. A store outside one of them faults, so that all are inside exactly when the
functions return.

* `ShortScheme`: less than ten bytes precede the first `:` of a uri that reaches `parse_uri`;
* `parseUri_ok_iff`: the arrays of `parse_uri`;
* **`parseLine_inBounds_iff`**: every store is inside its array exactly for the lines whose scheme is
  short;
* **`not_parseLine_inBounds`**: a line that overflows `scheme`.
-/

namespace MiniProxy

open Clib

/-- A line that reaches `parse_uri` has less than ten bytes before the first `:` of its uri, if any. -/
def ShortScheme (s : List UInt8) : Prop :=
  strcasecmpEq (token s) (ascii "GET") = true →
    (strcasecmpEq (token (afterToken (afterToken s))) (ascii "HTTP/1.0") = true ∨
      strcasecmpEq (token (afterToken (afterToken s))) (ascii "HTTP/1.1") = true) →
    colon ∈ token (afterToken s) →
    ((token (afterToken s)).takeWhile (· != colon)).length < 10

/-- **`parse_uri` stays inside its arrays exactly when** the scheme and its NUL fit into ten bytes. -/
theorem parseUri_ok_iff {uri : List UInt8} (scheme : Buf 10) (t : Target) (h0 : 0 ∉ uri)
    (hlen : uri.length < maxline) :
    (∃ r, parseUri scheme uri t = .ok r) ↔
      (colon ∈ uri → (uri.takeWhile (· != colon)).length < 10) := by
  refine ⟨fun ⟨_, h⟩ => short_of_parseUri h, fun hshort => ?_⟩
  cases hkey : uriKey uri with
  | none => exact ⟨_, parseUri_of_none scheme t h0 hshort hkey⟩
  | some key =>
    obtain ⟨s, r, rfl, hs, -⟩ := uriKey_eq_some_iff.mp hkey
    obtain ⟨t', ht, -⟩ := exists_parseUri scheme t hs (fun hr => h0 (by simp [hr])) hlen
    exact ⟨_, ht⟩

variable {request : Buf maxline} {s : List UInt8}

theorem parseUri_of_parseLine {scheme : Buf 10} {t : Target} {r : Option Page × Target}
    (hs : request.str = .ok s) (hget : strcasecmpEq (token s) (ascii "GET") = true)
    (hprot : strcasecmpEq (token (afterToken (afterToken s))) (ascii "HTTP/1.0") = true ∨
      strcasecmpEq (token (afterToken (afterToken s))) (ascii "HTTP/1.1") = true)
    (huri : token (afterToken s) ≠ []) (h : parseLine scheme request t = .ok r) :
    ∃ r, parseUri scheme (token (afterToken s)) t = .ok r := by
  rw [parseLine_of_get scheme t hs hget hprot huri] at h
  obtain ⟨r, hr, -⟩ := bind_ok_iff.mp h
  exact ⟨r, hr⟩

theorem shortScheme_of_parseLine {scheme : Buf 10} {t : Target} {r : Option Page × Target}
    (hs : request.str = .ok s) (h : parseLine scheme request t = .ok r) : ShortScheme s := by
  intro hget hprot hcolon
  have hsub := (token_sublist (afterToken s)).trans (afterToken_sublist s)
  have hparse := parseUri_of_parseLine hs hget hprot (List.ne_nil_of_mem hcolon) h
  exact (parseUri_ok_iff scheme t (fun h => Buf.not_mem_of_str hs (hsub.subset h))
    (hsub.length_le.trans_lt (Buf.length_lt_of_str hs))).mp hparse hcolon

theorem exists_parseLine (scheme : Buf 10) (t : Target) (hs : request.str = .ok s)
    (h : ShortScheme s) : ∃ r, parseLine scheme request t = .ok r := by
  have hsub := (token_sublist (afterToken s)).trans (afterToken_sublist s)
  rw [parseLine_eq scheme t hs]
  split_ifs with hempty hfield hget hprot
  · exact ⟨_, rfl⟩
  · exact ⟨_, rfl⟩
  · exact ⟨_, rfl⟩
  · exact ⟨_, rfl⟩
  · rw [Bool.not_eq_false] at hget
    rw [not_and_or, Bool.not_eq_false, Bool.not_eq_false] at hprot
    obtain ⟨r, hr⟩ := (parseUri_ok_iff scheme t
      (fun h => Buf.not_mem_of_str hs (hsub.subset h))
      (hsub.length_le.trans_lt (Buf.length_lt_of_str hs))).mpr (h hget hprot)
    rw [hr, ok_bind]
    split_ifs
    · exact ⟨_, rfl⟩
    · exact ⟨_, rfl⟩

/-- **Every store of the request parser is inside its array exactly when** the scheme is short, for
every line of at most `MAXLINE - 1` bytes. -/
theorem parseLine_inBounds_iff (scheme : Buf 10) (t : Target) (hs : request.str = .ok s) :
    (∃ r, parseLine scheme request t = .ok r) ↔ ShortScheme s :=
  ⟨fun ⟨_, h⟩ => shortScheme_of_parseLine hs h, exists_parseLine scheme t hs⟩

/-- A line with the scheme `http`, which is short, is parsed inside the arrays. -/
theorem parseLine_inBounds_http : ∃ request : Buf maxline,
    request.str = .ok (ascii "GET http://h:8080/a HTTP/1.1\r\n") ∧
      ShortScheme (ascii "GET http://h:8080/a HTTP/1.1\r\n") ∧
      ∃ r, parseLine (Buf.zero 10) request ⟨Buf.zero _, Buf.zero _, Buf.zero _⟩ = .ok r := by
  obtain ⟨request, hs⟩ := Buf.exists_str (n := maxline) (ascii "GET http://h:8080/a HTTP/1.1\r\n") (by decide)
    (by decide)
  have hshort : ShortScheme (ascii "GET http://h:8080/a HTTP/1.1\r\n") := fun _ _ _ => by decide
  exact ⟨request, hs, hshort, (parseLine_inBounds_iff _ _ hs).mpr hshort⟩

/-- A line with a scheme of ten bytes, whose NUL is stored behind `scheme`. -/
theorem not_parseLine_inBounds : ∃ request : Buf maxline,
    request.str = .ok (ascii "GET abcdefghij://h/ HTTP/1.0\r\n") ∧
      ¬ ∃ r, parseLine (Buf.zero 10) request ⟨Buf.zero _, Buf.zero _, Buf.zero _⟩ = .ok r := by
  obtain ⟨request, hs⟩ := Buf.exists_str (n := maxline) (ascii "GET abcdefghij://h/ HTTP/1.0\r\n") (by decide)
    (by decide)
  refine ⟨request, hs, fun ⟨r, h⟩ => ?_⟩
  have hlong := shortScheme_of_parseLine hs h (by decide) (by decide) (by decide)
  exact absurd hlong (by decide)

end MiniProxy
