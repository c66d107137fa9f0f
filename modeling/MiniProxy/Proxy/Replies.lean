import MiniProxy.Lib.Words
import MiniProxy.Proxy.Bounds

/-!
# Answers to request lines

`parse_request` accepts the lines of its grammar, and answers every other line with one error page.

* `Asks`: the line has the words of a request for a uri; `rejection`: the page for any other line;
* `words_token`, `parseLine_of_asks`, `parseLine_of_not_asks`: what `parse_request` does with the words;
  `parseLine_accepts_iff`, `page_of_parseLine`;
* **`parseRequest_decides`**: it accepts exactly the lines of the grammar with a uri that `parse_uri`
  accepts, and answers the others once;
* `pageText`, `Page.room`, `Framed`: an error page, the longest cause that fits into it, and the answer
  with it; `exists_responseFailure`, `length_of_responseFailure`;
* `rejectionTexts`, `rejection_spec`: the texts of the pages, and what they echo;
* **`reply_framed_iff`**: every store of an answer is inside its array, and the answer announces its
  length, exactly when the cause that it echoes fits.
-/

namespace MiniProxy

open Clib Words

/-- Arrays of zeros. -/
def Locals.zero : Locals :=
  ⟨Buf.zero _, Buf.zero _, Buf.zero _, Buf.zero _, Buf.zero _, Buf.zero _, Buf.zero _, Buf.zero _,
    Buf.zero _, Buf.zero _⟩

/-! ## The grammar -/

/-- The line begins with the words of a request for `uri`. -/
def Asks (s uri : List UInt8) : Prop :=
  ∃ method protocol rest, words isspace s = method :: uri :: protocol :: rest ∧
    strcasecmpEq method (ascii "GET") = true ∧
    (strcasecmpEq protocol (ascii "HTTP/1.0") = true ∨
      strcasecmpEq protocol (ascii "HTTP/1.1") = true)

/-- The page for a line that is rejected: `400` for a line of less than three words, else `501` for the
method, else `400` for the version, else `404` for the uri. -/
def rejection (s : List UInt8) : Page :=
  match words isspace s with
  | method :: uri :: protocol :: _ =>
    if strcasecmpEq method (ascii "GET") = false then
      ⟨method, "501", "Not implemented", "Mini Proxy does not implement this method yet"⟩
    else if strcasecmpEq protocol (ascii "HTTP/1.0") = false ∧
        strcasecmpEq protocol (ascii "HTTP/1.1") = false then
      ⟨protocol, "400", "Bad request",
        "Mini Proxy requires request version to be either HTTP/1.0 or HTPP/1.1"⟩
    else ⟨uri, "404", "Not found", "Mini Proxy couldn't parse the request"⟩
  | _ => ⟨s, "400", "Bad request", validFormat⟩

theorem words_token (s : List UInt8) :
    words isspace s = if token s = [] then [] else token s :: words isspace (afterToken s) := by
  have htoken : token s = [] ↔ s.dropWhile isspace = [] := by
    rw [token]
    have hhead := List.head?_dropWhile_not isspace s
    generalize s.dropWhile isspace = m at *
    cases m with
    | nil => simp
    | cons c m =>
      have hc : isspace c = false := by simpa using hhead
      simp [hc]
  rw [words_eq]
  simp only [htoken]
  rfl

theorem words_of_tokens {s : List UInt8} (h₁ : token s ≠ []) (h₂ : token (afterToken s) ≠ [])
    (h₃ : token (afterToken (afterToken s)) ≠ []) : ∃ rest, words isspace s =
      token s :: token (afterToken s) :: token (afterToken (afterToken s)) :: rest := by
  rw [words_token s, if_neg h₁, words_token (afterToken s), if_neg h₂,
    words_token (afterToken (afterToken s)), if_neg h₃]
  exact ⟨_, rfl⟩

theorem words_short {s : List UInt8} (h : token s = [] ∨ token (afterToken s) = [] ∨
    token (afterToken (afterToken s)) = []) : (words isspace s).length < 3 := by
  rw [words_token s, words_token (afterToken s), words_token (afterToken (afterToken s))]
  rcases h with h | h | h
  · rw [if_pos h]
    decide
  · rw [if_pos h]
    split_ifs <;> simp
  · rw [if_pos h]
    split_ifs <;> simp

variable {request : Buf maxline} {s uri : List UInt8}

theorem rejection_short (h : (words isspace s).length < 3) :
    rejection s = ⟨s, "400", "Bad request", validFormat⟩ := by
  rw [rejection]
  split
  · rename_i hw
    rw [hw] at h
    simp only [List.length_cons] at h
    omega
  · rfl

/-- **A line of the grammar** is accepted when `parse_uri` accepts its uri. -/
theorem parseLine_of_asks (scheme : Buf 10) (t : Target) (hs : request.str = .ok s)
    (h : Asks s uri) : parseLine scheme request t = parseUri scheme uri t >>= fun r =>
      if r.1 = false then .ok (some (rejection s), r.2) else .ok (none, r.2) := by
  obtain ⟨method, protocol, rest, hw, hget, hprot⟩ := h
  have hrej : rejection s = ⟨uri, "404", "Not found", "Mini Proxy couldn't parse the request"⟩ := by
    rw [rejection, hw]
    simp only
    rw [if_neg (by simp [hget]), if_neg (by rcases hprot with h | h <;> simp [h])]
  have hlong : ¬ (words isspace s).length < 3 := by
    rw [hw]
    simp only [List.length_cons]
    omega
  have htok : token s ≠ [] ∧ token (afterToken s) ≠ [] ∧ token (afterToken (afterToken s)) ≠ [] := by
    refine ⟨fun e => hlong (words_short ?_), fun e => hlong (words_short ?_),
      fun e => hlong (words_short ?_)⟩
    · exact Or.inl e
    · exact Or.inr (Or.inl e)
    · exact Or.inr (Or.inr e)
  obtain ⟨rest', hw'⟩ := words_of_tokens htok.1 htok.2.1 htok.2.2
  rw [hw'] at hw
  simp only [List.cons.injEq] at hw
  obtain ⟨rfl, rfl, rfl, -⟩ := hw
  rw [parseLine_of_get scheme t hs hget hprot htok.2.1, hrej]

/-- **Any other line** is rejected. -/
theorem parseLine_of_not_asks (scheme : Buf 10) (t : Target) (hs : request.str = .ok s)
    (h : ¬ ∃ uri, Asks s uri) : parseLine scheme request t = .ok (some (rejection s), t) := by
  rw [parseLine_eq scheme t hs]
  by_cases hnil : s = []
  · subst hnil
    rw [if_pos rfl, rejection_short (by decide)]
  rw [if_neg hnil]
  by_cases hempty : (token s).length = 0 ∨ (token (afterToken s)).length = 0 ∨
      (token (afterToken (afterToken s))).length = 0
  · rw [if_pos hempty]
    simp only [List.length_eq_zero_iff] at hempty
    rw [rejection_short (words_short hempty)]
  rw [if_neg hempty]
  simp only [List.length_eq_zero_iff, not_or] at hempty
  obtain ⟨rest, hw⟩ := words_of_tokens hempty.1 hempty.2.1 hempty.2.2
  rw [rejection, hw]
  simp only
  split_ifs with hget hprot
  · rfl
  · rfl
  · exfalso
    refine h ⟨_, _, _, rest, hw, by simpa using hget, ?_⟩
    rw [not_and_or] at hprot
    simpa using hprot

theorem parseLine_accepts_iff {scheme : Buf 10} {t t' : Target} (hs : request.str = .ok s) :
    parseLine scheme request t = .ok (none, t') ↔
      ∃ uri, Asks s uri ∧ parseUri scheme uri t = .ok (true, t') := by
  constructor
  · intro h
    by_cases hasks : ∃ uri, Asks s uri
    · obtain ⟨uri, hasks⟩ := hasks
      rw [parseLine_of_asks scheme t hs hasks] at h
      obtain ⟨⟨b, u⟩, hu, h⟩ := bind_ok_iff.mp h
      cases b with
      | false => cases h
      | true =>
        cases h
        exact ⟨uri, hasks, hu⟩
    · rw [parseLine_of_not_asks scheme t hs hasks] at h
      cases h
  · rintro ⟨uri, hasks, hu⟩
    rw [parseLine_of_asks scheme t hs hasks, hu]
    rfl

theorem page_of_parseLine {scheme : Buf 10} {t t' : Target} {p : Page} (hs : request.str = .ok s)
    (h : parseLine scheme request t = .ok (some p, t')) : p = rejection s := by
  by_cases hasks : ∃ uri, Asks s uri
  · obtain ⟨uri, hasks⟩ := hasks
    rw [parseLine_of_asks scheme t hs hasks] at h
    obtain ⟨r, -, h⟩ := bind_ok_iff.mp h
    split_ifs at h
    · cases h
      rfl
    · cases h
  · rw [parseLine_of_not_asks scheme t hs hasks] at h
    cases h
    rfl

/-- **`parse_request` decides its grammar and answers once.** Where all stores are inside their arrays it
returns `1` exactly for the lines of the grammar with a uri that `parse_uri` accepts; then the arrays
hold what `parse_uri` stores, and nothing is written to the client. Otherwise it returns `0`, and what is
written is one error page, with the status of `rejection`. -/
theorem parseRequest_decides {loc : Locals} {t t' : Target} {accepted : Bool}
    {sent : List (List UInt8)} (hs : request.str = .ok s)
    (h : parseRequest loc request t = .ok (accepted, t', sent)) :
    (accepted = true ↔ ∃ uri u, Asks s uri ∧ parseUri loc.scheme uri t = .ok (true, u)) ∧
      (accepted = true → sent = [] ∧
        ∃ uri, Asks s uri ∧ parseUri loc.scheme uri t = .ok (true, t')) ∧
      (accepted = false → responseFailure loc (rejection s).cause (rejection s).errnum
        (rejection s).shortmsg (rejection s).longmsg = .ok sent) := by
  rw [parseRequest_eq_parseLine loc t hs] at h
  obtain ⟨⟨page, u⟩, hline, h⟩ := bind_ok_iff.mp h
  cases page with
  | none =>
    cases h
    obtain ⟨uri, hasks, hu⟩ := (parseLine_accepts_iff hs).mp hline
    exact ⟨iff_of_true rfl ⟨uri, _, hasks, hu⟩, fun _ => ⟨rfl, uri, hasks, hu⟩,
      fun h => Bool.noConfusion h⟩
  | some page =>
    obtain ⟨sent', hsent, h⟩ := bind_ok_iff.mp h
    cases h
    rw [page_of_parseLine hs hline] at hsent
    refine ⟨iff_of_false Bool.false_ne_true ?_, fun h => Bool.noConfusion h, fun _ => hsent⟩
    rintro ⟨uri, u', hasks, hu⟩
    cases hline.symm.trans ((parseLine_accepts_iff hs).mpr ⟨uri, hasks, hu⟩)

/-- A line that asks for `http://h/`. -/
theorem parseRequest_decides_get : ∃ (request : Buf maxline) (t' : Target),
    request.str = .ok (ascii "GET http://h/ HTTP/1.0\r\n") ∧
      parseRequest .zero request ⟨Buf.zero _, Buf.zero _, Buf.zero _⟩ = .ok (true, t', []) ∧
      ∃ uri u, Asks (ascii "GET http://h/ HTTP/1.0\r\n") uri ∧
        parseUri Locals.zero.scheme uri ⟨Buf.zero _, Buf.zero _, Buf.zero _⟩ = .ok (true, u) := by
  obtain ⟨request, hs⟩ := Buf.exists_str (n := maxline) (ascii "GET http://h/ HTTP/1.0\r\n")
    (by decide) (by decide)
  have hkey : requestKey (ascii "GET http://h/ HTTP/1.0\r\n") =
      some ⟨ascii "h", ascii "80", ascii "/"⟩ := by decide
  obtain ⟨t', ht, -⟩ := parseRequest_of_requestKey (t := ⟨Buf.zero _, Buf.zero _, Buf.zero _⟩) .zero
    hs rfl hkey
  exact ⟨request, t', hs, ht, (parseRequest_decides hs ht).1.mp rfl⟩

/-! ## Error pages -/

/-- The text of an error page. -/
def pageText (p : Page) : List UInt8 :=
  ascii "<html><title>Proxy Error</title>" ++ ascii "<body bgcolor=ffffff>\r\n" ++
    (ascii p.errnum ++ ascii ": " ++ ascii p.shortmsg ++ ascii "\r\n") ++
    (ascii "<p>" ++ ascii p.longmsg ++ ascii ": " ++ p.cause ++ ascii "\r\n") ++
    ascii "<hr><em>The Mini Proxy server</em>\r\n"

/-- The status line of the answer with an error page. -/
def statusText (p : Page) : List UInt8 :=
  ascii "HTTP/1.0 " ++ ascii p.errnum ++ ascii " " ++ ascii p.shortmsg ++ ascii "\r\n"

/-- The line that announces a page of `n` bytes, and the blank line behind it. -/
def lengthText (n : ℕ) : List UInt8 := ascii "Content-length: " ++ ascii (toString n) ++ ascii "\r\n\r\n"

/-- The answer is the headers, which announce the length of the page, and the page. -/
def Framed (p : Page) (sent : List (List UInt8)) : Prop :=
  ∃ page, sent = [statusText p, ascii "Content-type: text/html\r\n", lengthText page.length, page]

/-- The length of the longest cause that fits into the page. -/
def Page.room (p : Page) : ℕ := maxbuf - 1 - (105 + p.shortmsg.length + p.longmsg.length)

@[simp] theorem length_ascii (s : String) : (ascii s).length = s.length := by
  rw [ascii, List.length_map, String.length_toList]

theorem exists_sprintfAppend {n : ℕ} {b : Buf n} {t s : List UInt8} (hb : b.str = .ok t)
    (h0 : 0 ∉ s) (h : (t ++ s).length < n) :
    ∃ c, sprintfAppend b s = .ok c ∧ c.str = .ok (t ++ s) := by
  obtain ⟨c, hc⟩ := b.exists_strcpy h
  refine ⟨c, ?_, Buf.str_of_strcpy hc ?_⟩
  · rw [sprintfAppend, hb, ok_bind, hc]
  · rw [List.mem_append, not_or]
    exact ⟨Buf.not_mem_of_str hb, h0⟩

theorem str_of_sprintfAppend {n : ℕ} {b c : Buf n} {t s : List UInt8} (hb : b.str = .ok t)
    (h0 : 0 ∉ s) (h : sprintfAppend b s = .ok c) : c.str = .ok (t ++ s) := by
  rw [sprintfAppend, hb, ok_bind] at h
  refine Buf.str_of_strcpy h ?_
  rw [List.mem_append, not_or]
  exact ⟨Buf.not_mem_of_str hb, h0⟩

theorem lengthText_ok {n : ℕ} (h : n < maxbuf) : 0 ∉ lengthText n ∧ (lengthText n).length < maxline := by
  have hdigit : 0 ∉ ascii (toString n) := by
    intro hm
    obtain ⟨c, hc, hz⟩ := List.mem_map.mp hm
    have hc : c ∈ n.repr.toList := hc
    rw [Nat.repr_eq_ofList_toDigits, String.toList_ofList] at hc
    have hd := Nat.isDigit_of_mem_toDigits (by decide) (by decide) hc
    rw [Char.isDigit, Bool.and_eq_true, decide_eq_true_eq, decide_eq_true_eq] at hd
    have hlow : 48 ≤ c.toNat := UInt32.le_iff_toNat_le.mp hd.1
    have hhigh : c.toNat ≤ 57 := UInt32.le_iff_toNat_le.mp hd.2
    have hbyte := congrArg UInt8.toNat hz
    rw [Nat.toUInt8_eq, UInt8.toNat_ofNat', UInt8.toNat_zero] at hbyte
    omega
  have hlen : (toString n).length ≤ 4 := (Nat.length_repr_le_iff (by decide)).mpr (by
    have : maxbuf = 8192 := rfl
    omega)
  have hmax : maxline = 8192 := rfl
  constructor
  · rw [lengthText, List.mem_append, List.mem_append]
    rintro ((h | h) | h)
    · exact absurd h (by decide)
    · exact hdigit h
    · exact absurd h (by decide)
  · have hname : (ascii "Content-length: ").length = 16 := by decide
    have hend : (ascii "\r\n\r\n").length = 4 := by decide
    rw [lengthText, List.length_append, List.length_append, length_ascii (toString n), hname, hend]
    omega

variable {loc : Locals} {p : Page}

/-- **An answer is built** from a page that fits into `body`. -/
theorem exists_responseFailure (h0 : 0 ∉ pageText p) (hs : 0 ∉ statusText p)
    (hslen : (statusText p).length < maxline) (h : (pageText p).length < maxbuf) :
    ∃ sent, responseFailure loc p.cause p.errnum p.shortmsg p.longmsg = .ok sent ∧ Framed p sent := by
  have hlen := lengthText_ok h
  rw [pageText, List.mem_append, not_or, List.mem_append, not_or, List.mem_append, not_or,
    List.mem_append, not_or] at h0
  obtain ⟨⟨⟨⟨h₁, h₂⟩, h₃⟩, h₄⟩, h₅⟩ := h0
  rw [pageText, List.length_append, List.length_append, List.length_append, List.length_append] at h
  obtain ⟨b₁, hb₁⟩ := loc.body.exists_strcpy (s := ascii "<html><title>Proxy Error</title>")
    (by decide)
  have hs₁ := Buf.str_of_strcpy hb₁ h₁
  obtain ⟨b₂, hb₂, hs₂⟩ := exists_sprintfAppend hs₁ h₂ (by rw [List.length_append]; omega)
  obtain ⟨b₃, hb₃, hs₃⟩ := exists_sprintfAppend hs₂ h₃ (by
    rw [List.length_append, List.length_append]
    omega)
  obtain ⟨b₄, hb₄, hs₄⟩ := exists_sprintfAppend hs₃ h₄ (by
    rw [List.length_append, List.length_append, List.length_append]
    omega)
  obtain ⟨b₅, hb₅, hs₅⟩ := exists_sprintfAppend hs₄ h₅ (by
    rw [List.length_append, List.length_append, List.length_append, List.length_append]
    omega)
  obtain ⟨c₁, hc₁⟩ := loc.buf.exists_strcpy hslen
  obtain ⟨c₂, hc₂⟩ := c₁.exists_strcpy (s := ascii "Content-type: text/html\r\n") (by decide)
  obtain ⟨c₃, hc₃⟩ := c₂.exists_strcpy hlen.2
  have ht₁ := Buf.str_of_strcpy hc₁ hs
  have ht₂ := Buf.str_of_strcpy hc₂ (by decide)
  have ht₃ := Buf.str_of_strcpy hc₃ hlen.1
  refine ⟨[statusText p, ascii "Content-type: text/html\r\n", lengthText (pageText p).length,
    pageText p], ?_, pageText p, rfl⟩
  rw [statusText] at hc₁
  rw [lengthText, pageText] at hc₃
  simp only [responseFailure, hb₁, hb₂, hb₃, hb₄, hb₅, hs₅, hc₁, hc₂, hc₃, ht₁, ht₂, ht₃, ok_bind,
    pure_eq_ok]
  rfl

/-- **Nothing else is built**: where an answer is, the page fits into `body`. -/
theorem length_of_responseFailure {sent : List (List UInt8)} (h0 : 0 ∉ pageText p)
    (h : responseFailure loc p.cause p.errnum p.shortmsg p.longmsg = .ok sent) :
    (pageText p).length < maxbuf := by
  rw [pageText, List.mem_append, not_or, List.mem_append, not_or, List.mem_append, not_or,
    List.mem_append, not_or] at h0
  obtain ⟨⟨⟨⟨h₁, h₂⟩, h₃⟩, h₄⟩, h₅⟩ := h0
  rw [responseFailure] at h
  obtain ⟨b₁, hb₁, h⟩ := bind_ok_iff.mp h
  obtain ⟨b₂, hb₂, h⟩ := bind_ok_iff.mp h
  obtain ⟨b₃, hb₃, h⟩ := bind_ok_iff.mp h
  obtain ⟨b₄, hb₄, h⟩ := bind_ok_iff.mp h
  obtain ⟨b₅, hb₅, -⟩ := bind_ok_iff.mp h
  have hs₁ := Buf.str_of_strcpy hb₁ h₁
  have hs₂ := str_of_sprintfAppend hs₁ h₂ hb₂
  have hs₃ := str_of_sprintfAppend hs₂ h₃ hb₃
  have hs₄ := str_of_sprintfAppend hs₃ h₄ hb₄
  exact Buf.length_lt_of_str (str_of_sprintfAppend hs₄ h₅ hb₅)

/-! ## The pages of `parse_request` -/

/-- The texts of these pages. -/
def rejectionTexts : List (String × String × String) :=
  [("400", "Bad request", validFormat),
    ("501", "Not implemented", "Mini Proxy does not implement this method yet"),
    ("400", "Bad request", "Mini Proxy requires request version to be either HTTP/1.0 or HTPP/1.1"),
    ("404", "Not found", "Mini Proxy couldn't parse the request")]

theorem rejectionTexts_ok : ∀ x ∈ rejectionTexts, x.1.length = 3 ∧
    105 + x.2.1.length + x.2.2.length < maxbuf ∧
    0 ∉ ascii x.1 ∧ 0 ∉ ascii x.2.1 ∧ 0 ∉ ascii x.2.2 := by
  decide

theorem rejection_spec (s : List UInt8) : (rejection s).cause.Sublist s ∧
    ((rejection s).errnum, (rejection s).shortmsg, (rejection s).longmsg) ∈ rejectionTexts := by
  by_cases hshort : token s = [] ∨ token (afterToken s) = [] ∨ token (afterToken (afterToken s)) = []
  · rw [rejection_short (words_short hshort)]
    exact ⟨List.Sublist.refl s, by simp [rejectionTexts]⟩
  · rw [not_or, not_or] at hshort
    obtain ⟨rest, hw⟩ := words_of_tokens hshort.1 hshort.2.1 hshort.2.2
    have hsub := afterToken_sublist s
    rw [rejection, hw]
    simp only
    split_ifs
    · exact ⟨token_sublist s, by simp [rejectionTexts]⟩
    · exact ⟨(token_sublist _).trans ((afterToken_sublist _).trans hsub), by simp [rejectionTexts]⟩
    · exact ⟨(token_sublist _).trans hsub, by simp [rejectionTexts]⟩

theorem rejection_texts (s : List UInt8) : (rejection s).errnum.length = 3 ∧
    105 + (rejection s).shortmsg.length + (rejection s).longmsg.length < maxbuf ∧
    0 ∉ ascii (rejection s).errnum ∧ 0 ∉ ascii (rejection s).shortmsg ∧
    0 ∉ ascii (rejection s).longmsg :=
  rejectionTexts_ok _ (rejection_spec s).2

theorem not_mem_pageText (h0 : 0 ∉ s) : 0 ∉ pageText (rejection s) := by
  obtain ⟨-, -, herrnum, hshort, hlong⟩ := rejection_texts s
  have hcause : 0 ∉ (rejection s).cause := fun h => h0 ((rejection_spec s).1.subset h)
  have hfixed : ∀ text ∈ ["<html><title>Proxy Error</title>", "<body bgcolor=ffffff>\r\n", ": ",
      "\r\n", "<p>", "<hr><em>The Mini Proxy server</em>\r\n"], 0 ∉ ascii text := by
    decide
  simp only [List.forall_mem_cons] at hfixed
  simp only [pageText, List.mem_append, not_or]
  simp only [hfixed, hcause, herrnum, hshort, hlong, not_false_eq_true, and_self]

theorem statusText_ok (s : List UInt8) :
    0 ∉ statusText (rejection s) ∧ (statusText (rejection s)).length < maxline := by
  obtain ⟨hlen, hroom, herrnum, hshort, -⟩ := rejection_texts s
  have hfixed : 0 ∉ ascii "HTTP/1.0 " ∧ 0 ∉ ascii " " ∧ 0 ∉ ascii "\r\n" := by decide
  have hmax : maxbuf = 8192 ∧ maxline = 8192 := ⟨rfl, rfl⟩
  constructor
  · simp only [statusText, List.mem_append, not_or]
    exact ⟨⟨⟨⟨hfixed.1, herrnum⟩, hfixed.2.1⟩, hshort⟩, hfixed.2.2⟩
  · have hname : (ascii "HTTP/1.0 ").length = 9 := by decide
    have hblank : (ascii " ").length = 1 ∧ (ascii "\r\n").length = 2 := by decide
    simp only [statusText, List.length_append, hname, hblank, length_ascii (rejection s).errnum,
      length_ascii (rejection s).shortmsg]
    omega

theorem length_pageText (s : List UInt8) : (pageText (rejection s)).length =
    105 + (rejection s).shortmsg.length + (rejection s).longmsg.length +
      (rejection s).cause.length := by
  obtain ⟨herrnum, -⟩ := rejection_texts s
  have htitle : (ascii "<html><title>Proxy Error</title>").length = 32 := by decide
  have hbody : (ascii "<body bgcolor=ffffff>\r\n").length = 23 := by decide
  have hrule : (ascii "<hr><em>The Mini Proxy server</em>\r\n").length = 36 := by decide
  have hsep : (ascii ": ").length = 2 ∧ (ascii "<p>").length = 3 ∧ (ascii "\r\n").length = 2 := by
    decide
  simp only [pageText, List.length_append, htitle, hbody, hrule, hsep,
    length_ascii (rejection s).errnum, length_ascii (rejection s).shortmsg,
    length_ascii (rejection s).longmsg]
  omega

theorem length_cause_le_iff (s : List UInt8) :
    (rejection s).cause.length ≤ (rejection s).room ↔ (pageText (rejection s)).length < maxbuf := by
  obtain ⟨-, hroom, -⟩ := rejection_texts s
  rw [length_pageText, Page.room]
  omega

theorem parseRequest_of_rejected {p : Page} {t t' : Target} (hs : request.str = .ok s)
    (h : parseLine loc.scheme request t = .ok (some p, t')) :
    parseRequest loc request t = responseFailure loc (rejection s).cause (rejection s).errnum
      (rejection s).shortmsg (rejection s).longmsg >>= fun sent => .ok (false, t', sent) := by
  rw [parseRequest_eq_parseLine loc t hs, h, ok_bind, page_of_parseLine hs h]
  rfl

/-- **An answer stays inside its arrays and announces its length exactly when** what it echoes is not
longer than the room that the fixed text leaves in `body`, for every line that is rejected. -/
theorem reply_framed_iff {p : Page} {t t' : Target} (hs : request.str = .ok s)
    (h : parseLine loc.scheme request t = .ok (some p, t')) :
    (∃ sent, parseRequest loc request t = .ok (false, t', sent) ∧ Framed (rejection s) sent) ↔
      (rejection s).cause.length ≤ (rejection s).room := by
  have h0 := not_mem_pageText (Buf.not_mem_of_str hs)
  rw [length_cause_le_iff, parseRequest_of_rejected hs h]
  constructor
  · rintro ⟨sent, hsent, -⟩
    obtain ⟨sent', hsent', -⟩ := bind_ok_iff.mp hsent
    exact length_of_responseFailure h0 hsent'
  · intro hfits
    obtain ⟨sent, hsent, hframed⟩ := @exists_responseFailure loc _ h0 (statusText_ok s).1
      (statusText_ok s).2 hfits
    rw [hsent]
    exact ⟨sent, rfl, hframed⟩

theorem words_replicate (n : ℕ) : (words isspace (List.replicate n 97)).length < 3 := by
  have hword : ∀ c ∈ List.replicate n (97 : UInt8), isspace c = false := by
    intro c hc
    rw [List.eq_of_mem_replicate hc]
    decide
  by_cases hn : List.replicate n (97 : UInt8) = []
  · rw [hn]
    decide
  · rw [← List.append_nil (List.replicate n 97), words_append hn hword (by simp), words_nil]
    simp

/-- The answer to a line with another method. -/
theorem reply_framed_post : ∃ request : Buf maxline,
    request.str = .ok (ascii "POST http://h/ HTTP/1.0\r\n") ∧
      ∃ sent, parseRequest .zero request ⟨Buf.zero _, Buf.zero _, Buf.zero _⟩ =
        .ok (false, ⟨Buf.zero _, Buf.zero _, Buf.zero _⟩, sent) ∧
        Framed (rejection (ascii "POST http://h/ HTTP/1.0\r\n")) sent := by
  obtain ⟨request, hs⟩ := Buf.exists_str (n := maxline) (ascii "POST http://h/ HTTP/1.0\r\n")
    (by decide) (by decide)
  have hline := parseLine_eq (Locals.zero.scheme) ⟨Buf.zero _, Buf.zero _, Buf.zero _⟩ hs
  rw [if_neg (by decide), if_neg (by decide), if_pos (by decide)] at hline
  exact ⟨request, hs, (reply_framed_iff hs hline).mpr (by decide)⟩

/-- A line of `MAXLINE - 1` bytes without spaces, whose page does not fit into `body`. -/
theorem not_reply_framed : ∃ (request : Buf maxline) (s : List UInt8) (p : Page) (t t' : Target),
    request.str = .ok s ∧ parseLine Locals.zero.scheme request t = .ok (some p, t') ∧
      ¬ ∃ sent, parseRequest .zero request t = .ok (false, t', sent) ∧
        Framed (rejection s) sent := by
  obtain ⟨s, h0, hshort, hlen⟩ : ∃ s : List UInt8, 0 ∉ s ∧ (words isspace s).length < 3 ∧
      s.length = 8191 :=
    ⟨List.replicate 8191 97, fun h => absurd (List.eq_of_mem_replicate h) (by decide),
      words_replicate 8191, List.length_replicate⟩
  obtain ⟨request, hs⟩ := Buf.exists_str (n := maxline) s h0 (by
    rw [hlen]
    decide)
  have hline := parseLine_of_not_asks Locals.zero.scheme ⟨Buf.zero _, Buf.zero _, Buf.zero _⟩ hs (by
    rintro ⟨uri, method, protocol, rest, hw, -⟩
    rw [hw, List.length_cons, List.length_cons, List.length_cons] at hshort
    omega)
  refine ⟨request, _, _, _, _, hs, hline, ?_⟩
  rintro ⟨sent, hsent, -⟩
  rw [parseRequest_of_rejected hs hline] at hsent
  obtain ⟨sent', hsent', -⟩ := bind_ok_iff.mp hsent
  have hfits := length_of_responseFailure (not_mem_pageText h0) hsent'
  rw [length_pageText, rejection_short hshort, hlen] at hfits
  have hmax : maxbuf = 8192 := rfl
  omega

end MiniProxy
