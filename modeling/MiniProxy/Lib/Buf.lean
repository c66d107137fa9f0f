import Mathlib.Data.List.TakeWhile
import Mathlib.Tactic.SplitIfs
import MiniProxy.Lib.Exec

/-!
# Arrays of bytes and the strings in them

`Buf n` is a C array of `n` bytes. Reading and writing outside it faults.

* `Buf.write`, `Buf.read`, `Buf.zero`: `memcpy` into and from an array, and `memset` to `0`;
* `cstr`: the bytes before the first NUL, and `Buf.str`: the string in an array;
* `Buf.strcpy`: a string is copied to an array; **`Buf.str_of_strcpy`**: it is then the string there;
* `ascii`, `strcmpEq`, `strcasecmpEq`, `isspace`, `isdigit`: literals, comparisons and characters.
-/

namespace Clib

/-- An array of `n` bytes. -/
structure Buf (n : ℕ) where
  bytes : List UInt8
  length_bytes : bytes.length = n

namespace Buf

variable {n : ℕ}

@[ext] theorem ext {b c : Buf n} (h : b.bytes = c.bytes) : b = c := by
  cases b
  cases c
  cases h
  rfl

/-- `memset(b, 0, sizeof b)`. -/
def zero (n : ℕ) : Buf n := ⟨List.replicate n 0, List.length_replicate⟩

/-- `memcpy(b + off, bs, n)` for the `n` bytes `bs`. -/
def write (b : Buf n) (off : ℕ) (bs : List UInt8) : Exec (Buf n) :=
  if h : off + bs.length ≤ n then
    .ok ⟨b.bytes.take off ++ bs ++ b.bytes.drop (off + bs.length), by
      simp [b.length_bytes]
      omega⟩
  else .error .oob

/-- The `len` bytes from `b + off` on. -/
def read (b : Buf n) (off len : ℕ) : Exec (List UInt8) :=
  if off + len ≤ n then .ok ((b.bytes.drop off).take len) else .error .oob

theorem write_eq_ok {b c : Buf n} {off : ℕ} {bs : List UInt8} :
    b.write off bs = .ok c ↔
      off + bs.length ≤ n ∧
        c.bytes = b.bytes.take off ++ bs ++ b.bytes.drop (off + bs.length) := by
  unfold write
  split
  · rename_i h
    refine ⟨fun e => ⟨h, ?_⟩, fun ⟨_, e⟩ => ?_⟩
    · cases e
      rfl
    · exact congrArg Except.ok (ext e.symm)
  · rename_i h
    exact ⟨nofun, fun e => absurd e.1 h⟩

theorem exists_write (b : Buf n) (off : ℕ) (bs : List UInt8) (h : off + bs.length ≤ n) :
    ∃ c, b.write off bs = .ok c ∧
      c.bytes = b.bytes.take off ++ bs ++ b.bytes.drop (off + bs.length) := by
  refine ⟨⟨_, ?_⟩, write_eq_ok.mpr ⟨h, rfl⟩, rfl⟩
  simp [b.length_bytes]
  omega

theorem take_of_write {b c : Buf n} {off : ℕ} {bs : List UInt8} (h : b.write off bs = .ok c) :
    c.bytes.take (off + bs.length) = b.bytes.take off ++ bs := by
  obtain ⟨hle, hc⟩ := write_eq_ok.mp h
  rw [hc, List.take_left' (by
    rw [List.length_append, List.length_take, b.length_bytes]
    omega)]

theorem read_eq_ok {b : Buf n} {off len : ℕ} {bs : List UInt8} :
    b.read off len = .ok bs ↔ off + len ≤ n ∧ bs = (b.bytes.drop off).take len := by
  unfold read
  exact ite_eq_ok

end Buf

theorem scan_append {p : UInt8 → Bool} {s t : List UInt8} (hs : ∀ c ∈ s, p c = true)
    (ht : ∀ c ∈ t.head?, p c = false) :
    (s ++ t).takeWhile p = s ∧ (s ++ t).dropWhile p = t := by
  have htake : t.takeWhile p = [] ∧ t.dropWhile p = t := by
    cases t with
    | nil => exact ⟨rfl, rfl⟩
    | cons c t =>
      have hc := ht c rfl
      rw [List.takeWhile_cons, List.dropWhile_cons, hc]
      exact ⟨rfl, rfl⟩
  rw [List.takeWhile_append_of_pos hs, List.dropWhile_append_of_pos hs, htake.1, htake.2,
    List.append_nil]
  exact ⟨rfl, rfl⟩

/-! ## Strings -/

/-- The string at the start of some memory: the bytes before the first NUL. -/
def cstr (l : List UInt8) : List UInt8 := l.takeWhile (· ≠ 0)

theorem not_mem_cstr (l : List UInt8) : 0 ∉ cstr l := fun h => by
  simpa using List.mem_takeWhile_imp h

theorem cstr_of_not_mem {s : List UInt8} (h : 0 ∉ s) : cstr s = s :=
  List.takeWhile_eq_self_iff.mpr fun a ha => by simpa using fun e : a = 0 => h (e ▸ ha)

theorem cstr_append_cons_zero (s l : List UInt8) : cstr (s ++ 0 :: l) = cstr s := by
  induction s with
  | nil => rfl
  | cons c s ih =>
    rw [cstr, cstr, List.cons_append, List.takeWhile_cons, List.takeWhile_cons]
    split
    · exact congrArg _ ih
    · rfl

theorem cstr_append_zero {s : List UInt8} (h : 0 ∉ s) (l : List UInt8) : cstr (s ++ 0 :: l) = s :=
  (cstr_append_cons_zero s l).trans (cstr_of_not_mem h)

theorem length_cstr_le (l : List UInt8) : (cstr l).length ≤ l.length :=
  (List.takeWhile_prefix _).length_le

theorem length_cstr_lt {l : List UInt8} (h : 0 ∈ l) : (cstr l).length < l.length := by
  refine lt_of_le_of_ne (length_cstr_le l) ?_
  intro he
  have heq : cstr l = l := (List.takeWhile_prefix _).eq_of_length he
  simpa using List.takeWhile_eq_self_iff.mp heq 0 h

theorem cstr_append_of_mem {l : List UInt8} (h : 0 ∈ l) (t : List UInt8) : cstr (l ++ t) = cstr l := by
  obtain ⟨s, r, rfl⟩ := List.append_of_mem h
  rw [List.append_assoc, List.cons_append, cstr_append_cons_zero, cstr_append_cons_zero]

theorem cstr_append_of_not_mem {s : List UInt8} (h : 0 ∉ s) (l : List UInt8) :
    cstr (s ++ l) = s ++ cstr l :=
  List.takeWhile_append_of_pos fun c hc => by simpa using fun e : c = 0 => h (e ▸ hc)

theorem le_length_cstr {l : List UInt8} {k : ℕ} (hk : k ≤ l.length) (h : 0 ∉ l.take k) :
    k ≤ (cstr l).length := by
  have hpre := cstr_append_of_not_mem h (l.drop k)
  rw [List.take_append_drop] at hpre
  rw [hpre, List.length_append, List.length_take]
  omega

theorem length_cstr_le_of_get {l : List UInt8} {k : ℕ} (h : l[k]? = some 0) :
    (cstr l).length ≤ k := by
  by_contra hlt
  obtain ⟨t, ht⟩ : cstr l <+: l := List.takeWhile_prefix _
  rw [← ht, List.getElem?_append_left (by omega)] at h
  exact not_mem_cstr l (List.mem_of_getElem? h)

theorem length_le_length_cstr_iff {l : List UInt8} :
    l.length ≤ (cstr l).length + 1 ↔ 0 ∉ l.dropLast := by
  induction l with
  | nil => simp
  | cons c l ih =>
    by_cases hl : l = []
    · simp [hl]
    rw [List.dropLast_cons_of_ne_nil hl, List.mem_cons, not_or, ← ih, cstr, List.takeWhile_cons]
    by_cases hc : c = 0
    · simp [hc, hl]
    · simp [hc, cstr, Ne.symm hc]

/-- `strlen` of the string at the start of some memory, which must hold a NUL. -/
def strlen (l : List UInt8) : Exec ℕ := if 0 ∈ l then .ok (cstr l).length else .error .oob

theorem strlen_of_mem {l : List UInt8} (h : 0 ∈ l) : strlen l = .ok (cstr l).length := if_pos h

theorem strlen_eq_ok {l : List UInt8} {n : ℕ} : strlen l = .ok n ↔ 0 ∈ l ∧ n = (cstr l).length := by
  unfold strlen
  exact ite_eq_ok

/-- The string in an array, which must hold a NUL. -/
def Buf.str {n : ℕ} (b : Buf n) : Exec (List UInt8) :=
  if 0 ∈ b.bytes then .ok (cstr b.bytes) else .error .oob

namespace Buf

variable {n : ℕ} {b c : Buf n} {s l : List UInt8}

theorem str_eq_ok : b.str = .ok s ↔ 0 ∈ b.bytes ∧ s = cstr b.bytes := by
  unfold str
  exact ite_eq_ok

theorem str_of_bytes (hb : b.bytes = s ++ 0 :: l) (hs : 0 ∉ s) : b.str = .ok s :=
  str_eq_ok.mpr ⟨by simp [hb], by rw [hb, cstr_append_zero hs]⟩

theorem str_zero : (zero (n + 1)).str = .ok [] := str_of_bytes (l := List.replicate n 0) rfl (by simp)

theorem not_mem_of_str (h : b.str = .ok s) : 0 ∉ s := by
  obtain ⟨-, rfl⟩ := str_eq_ok.mp h
  exact not_mem_cstr _

theorem length_lt_of_str (h : b.str = .ok s) : s.length < n := by
  obtain ⟨hm, rfl⟩ := str_eq_ok.mp h
  refine lt_of_le_of_ne ?_ fun e => not_mem_cstr b.bytes ?_
  · have := (List.takeWhile_prefix (fun c : UInt8 => decide (c ≠ 0)) (l := b.bytes)).length_le
    rwa [b.length_bytes] at this
  · have := (List.takeWhile_prefix (fun c : UInt8 => decide (c ≠ 0)) (l := b.bytes)).eq_of_length
      (e.trans b.length_bytes.symm)
    rw [cstr, this]
    exact hm

/-- `strcpy(b, s)`, which is also what `sprintf` does with the string `s`. -/
def strcpy (b : Buf n) (s : List UInt8) : Exec (Buf n) := b.write 0 (s ++ [0])

theorem exists_strcpy (b : Buf n) (h : s.length < n) : ∃ c, b.strcpy s = .ok c := by
  obtain ⟨c, hc, -⟩ := exists_write b 0 (s ++ [0]) (by
    rw [List.length_append, List.length_singleton]
    omega)
  exact ⟨c, hc⟩

/-- **The string just copied** is the string in the array. -/
theorem str_of_strcpy (h : b.strcpy s = .ok c) (hs : 0 ∉ s) : c.str = .ok s := by
  obtain ⟨-, hc⟩ := write_eq_ok.mp h
  refine str_of_bytes (l := b.bytes.drop (0 + (s ++ [0]).length)) ?_ hs
  rw [hc, List.take_zero, List.nil_append, List.append_assoc]
  rfl

theorem exists_str (s : List UInt8) (hs : 0 ∉ s) (h : s.length < n) : ∃ b : Buf n, b.str = .ok s := by
  obtain ⟨b, hb⟩ := (zero n).exists_strcpy h
  exact ⟨b, str_of_strcpy hb hs⟩

theorem write_terminate (b : Buf n) (s : List UInt8) :
    (b.write 0 s >>= fun b => b.write s.length [0]) = b.strcpy s := by
  by_cases hs : s.length < n
  · obtain ⟨c, hw, hc⟩ := exists_write b 0 s (by omega)
    rw [hw, ok_bind, strcpy, write, write, dif_pos (by simp; omega), dif_pos (by simp; omega)]
    refine congrArg Except.ok (ext ?_)
    simp [hc]
  · have hstr : b.strcpy s = .error .oob := dif_neg (by simp; omega)
    rw [hstr, write]
    split_ifs
    · exact dif_neg (by simp; omega)
    · rfl

theorem str_of_write_zero (h : (zero n).write 0 s = .ok c) (hlt : s.length < n) (hs : 0 ∉ s) :
    c.str = .ok s := by
  obtain ⟨-, hc⟩ := write_eq_ok.mp h
  refine str_of_bytes (l := List.replicate (n - s.length - 1) 0) ?_ hs
  rw [hc, zero, List.take_zero, List.nil_append, List.drop_replicate, ← List.replicate_succ]
  congr 2
  omega

end Buf

/-- The bytes of a string literal. -/
def ascii (s : String) : List UInt8 := s.toList.map fun c => c.toNat.toUInt8

/-- `strcmp(l, s) == 0` for the string at the start of the memory `l` and a literal `s`. -/
def strcmpEq (l s : List UInt8) : Bool := l.take (s.length + 1) == s ++ [0]

theorem strcmpEq_iff {l s : List UInt8} : strcmpEq l s = true ↔ ∃ t, l = s ++ 0 :: t := by
  rw [strcmpEq, beq_iff_eq]
  constructor
  · intro h
    refine ⟨l.drop (s.length + 1), ?_⟩
    rw [List.append_cons, ← h, List.take_append_drop]
  · rintro ⟨t, rfl⟩
    rw [List.append_cons, List.take_left' (by simp)]

theorem Buf.strcmpEq_nil {n : ℕ} {b : Buf n} {s : List UInt8} (h : b.str = .ok s) :
    strcmpEq b.bytes [] = decide (s = []) := by
  obtain ⟨hm, rfl⟩ := Buf.str_eq_ok.mp h
  cases hb : b.bytes with
  | nil => simp [hb] at hm
  | cons c cs =>
    by_cases hc : c = 0 <;> simp [strcmpEq, cstr, hc]

/-- `isspace`. -/
def isspace (c : UInt8) : Bool := c == 32 || (9 ≤ c && c ≤ 13)

/-- `isdigit`. -/
def isdigit (c : UInt8) : Bool := 48 ≤ c && c ≤ 57

/-- `tolower`. -/
def tolower (c : UInt8) : UInt8 := if 65 ≤ c ∧ c ≤ 90 then c + 32 else c

/-- `strcasecmp(s, t) == 0`. -/
def strcasecmpEq (s t : List UInt8) : Bool := s.map tolower == t.map tolower

theorem strcasecmpEq_iff {s t : List UInt8} :
    strcasecmpEq s t = true ↔ s.map tolower = t.map tolower := beq_iff_eq

theorem length_eq_of_strcasecmpEq {s t : List UInt8} (h : strcasecmpEq s t = true) :
    s.length = t.length := by
  have := congrArg List.length (strcasecmpEq_iff.mp h)
  rwa [List.length_map, List.length_map] at this

theorem tolower_of_isdigit {c : UInt8} (h : isdigit c = true) : tolower c = c := by
  rw [isdigit, Bool.and_eq_true, decide_eq_true_eq, decide_eq_true_eq] at h
  refine if_neg fun hc => absurd (UInt8.le_trans hc.1 h.2) (by decide)

theorem eq_of_strcasecmpEq {s t : List UInt8} (hs : ∀ c ∈ s, isdigit c = true)
    (ht : ∀ c ∈ t, isdigit c = true) (h : strcasecmpEq s t = true) : s = t := by
  have hid : ∀ l : List UInt8, (∀ c ∈ l, isdigit c = true) → l.map tolower = l := fun l hl =>
    (List.map_congr_left fun c hc => tolower_of_isdigit (hl c hc)).trans (List.map_id l)
  rw [strcasecmpEq_iff, hid s hs, hid t ht] at h
  exact h

@[simp] theorem strcasecmpEq_refl (s : List UInt8) : strcasecmpEq s s = true :=
  strcasecmpEq_iff.mpr rfl

end Clib
