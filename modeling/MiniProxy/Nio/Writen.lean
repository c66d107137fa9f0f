import Mathlib.Data.List.TakeDrop
import Mathlib.Algebra.Ring.Int.Defs
import Mathlib.Data.Int.Basic

/-!
# Writes of a block

`nio_writen` repeats `write` on what is left of its buffer. A `write` accepts at least one byte and at
most as many as it is asked for, or it fails.

* `WriteEv`, `WriteEv.write`: a result that `write` has still to give, and one `write`;
* `Written`, `nioWriten`: the function;
* `Stops`, `Written.Uses`: a loop uses the results one by one while bytes are left, and where it stops;
  `nioWritenLoop_uses`;
* `Written.Delivers`: the bytes accepted are those that the results used have accepted, all of the buffer
  when `n` is returned without `EPIPE`, and less than all of it when `-1` is;
* **`nioWriten_delivers`**: this holds of every schedule of short writes and failures, and failures
  with `EINTR` change nothing.
-/

namespace MiniProxy

/-! ## The function -/

/-- The values of `errno` that the callers of `write` tell apart. -/
inductive WriteErrno where
  | eintr
  | epipe
  | other
  deriving DecidableEq

/-- A result that `write` has still to give: it accepts `k + 1` bytes, or all when it is asked for
fewer, or it returns `0` or less and sets `errno`. -/
inductive WriteEv where
  | accepts (k : ℕ)
  | fails (e : WriteErrno)
  deriving DecidableEq

/-- What one `write` returns: a positive count, or a failure. -/
inductive WriteResult where
  | count (k : ℕ)
  | fail (e : WriteErrno)

/-- `write` of `n` bytes. -/
def WriteEv.write (n : ℕ) : WriteEv → WriteResult
  | accepts k => .count (min (k + 1) n)
  | fails e => .fail e

/-- What is known of a call of `nio_writen`: the value returned, `none` while it waits for a `write`,
the bytes that the `write`s have accepted, and the results still to come. -/
structure Written where
  ret : Option ℤ
  accepted : List UInt8
  rest : List WriteEv
  deriving DecidableEq

/-- The loop of `nio_writen`, whose `write`s have accepted `accepted` so far. -/
def nioWritenLoop (usrbuf : List UInt8) (n nleft bufp : ℕ) (accepted : List UInt8) :
    List WriteEv → Written
  | [] => if 0 < nleft then ⟨none, accepted, []⟩ else ⟨some n, accepted, []⟩
  | ev :: evs =>
    if 0 < nleft then
      match ev.write nleft with
      | .fail .eintr => nioWritenLoop usrbuf n nleft bufp accepted evs
      | .fail .epipe => ⟨some n, accepted, evs⟩
      | .fail .other => ⟨some (-1), accepted, evs⟩
      | .count k =>
        nioWritenLoop usrbuf n (nleft - k) (bufp + k) (accepted ++ (usrbuf.drop bufp).take k) evs
    else ⟨some n, accepted, ev :: evs⟩

/-- `nio_writen` of the whole of `usrbuf`. -/
def nioWriten (usrbuf : List UInt8) (evs : List WriteEv) : Written :=
  nioWritenLoop usrbuf usrbuf.length usrbuf.length 0 [] evs

/-! ## What is delivered -/

/-- The bytes that a result accepts, if it is asked for so many. -/
def WriteEv.count : WriteEv → ℕ
  | accepts k => k + 1
  | fails _ => 0

/-- The bytes that results accept one after the other, if they are asked for so many. -/
def counted : List WriteEv → ℕ
  | [] => 0
  | ev :: evs => ev.count + counted evs

/-- The value that `nio_writen` of `n` bytes returns at a result, if it returns there. -/
def WriteEv.nioRet (n : ℕ) : WriteEv → Option ℤ
  | accepts _ => none
  | fails .eintr => none
  | fails .epipe => some n
  | fails .other => some (-1)

/-- Where a loop over `n` bytes stops that began behind the first `b` and has used the results `used`:
when all bytes are accepted, at a result at which it returns, or when no result is left. -/
inductive Stops (ret : WriteEv → Option ℤ) (n b : ℕ) (used rest : List WriteEv) : Option ℤ → Prop
  | all (hgo : ∀ ev ∈ used, ret ev = none) (hall : n ≤ b + counted used) : Stops ret n b used rest (some n)
  | failed {u : List WriteEv} {ev : WriteEv} {r : ℤ} (hused : used = u ++ [ev])
      (hgo : ∀ ev ∈ u, ret ev = none) (hret : ret ev = some r) : Stops ret n b used rest (some r)
  | waiting (hgo : ∀ ev ∈ used, ret ev = none) (hleft : b + counted used < n) (hrest : rest = []) :
      Stops ret n b used rest none

/-- A loop that began behind the first `b` bytes has used the results `used`, each while bytes were left,
and they have accepted what it has delivered. -/
structure Written.Uses (ret : WriteEv → Option ℤ) (usrbuf : List UInt8) (b : ℕ) (evs : List WriteEv)
    (r : Written) (used : List WriteEv) : Prop where
  evs_eq : evs = used ++ r.rest
  accepted_eq : r.accepted = usrbuf.take (b + counted used)
  asked : ∀ u ev, u ++ [ev] <+: used → b + counted u < usrbuf.length
  stops : Stops ret usrbuf.length b used r.rest r.ret

/-- The bytes accepted are those that the results used have accepted, a prefix of the buffer; the call
returns `n` when that is all of it, or after a failure with `EPIPE`, and `-1` when some of it is left. -/
structure Written.Delivers (usrbuf : List UInt8) (evs : List WriteEv) (r : Written) : Prop where
  uses : ∃ used, r.Uses (WriteEv.nioRet usrbuf.length) usrbuf 0 evs used
  accepted_prefix : r.accepted <+: usrbuf
  ret_cases : r.ret = none ∨ r.ret = some (usrbuf.length : ℤ) ∨ r.ret = some (-1)
  all_of_ret : r.ret = some (usrbuf.length : ℤ) →
    r.accepted = usrbuf ∨ ∃ used, evs = used ++ .fails .epipe :: r.rest
  ne_of_ret : r.ret = some (-1) → r.accepted ≠ usrbuf

theorem counted_cons (ev : WriteEv) (evs : List WriteEv) : counted (ev :: evs) = ev.count + counted evs :=
  rfl

theorem counted_append (evs evs' : List WriteEv) :
    counted (evs ++ evs') = counted evs + counted evs' := by
  induction evs with
  | nil => rw [List.nil_append, counted, Nat.zero_add]
  | cons ev evs ih => rw [List.cons_append, counted_cons, counted_cons, ih, Nat.add_assoc]

theorem WriteEv.count_of_ret {n : ℕ} {ev : WriteEv} {r : ℤ} (h : ev.nioRet n = some r) : ev.count = 0 := by
  cases ev with
  | accepts k => cases h
  | fails e => rfl

theorem some_length_ne (usrbuf : List UInt8) : (some (usrbuf.length : ℤ)) ≠ some (-1) := fun h => by
  have := Option.some.inj h
  omega

namespace Written.Uses

variable {ret : WriteEv → Option ℤ} {usrbuf : List UInt8} {b : ℕ} {evs : List WriteEv} {r : Written}
  {used : List WriteEv}

theorem cons {v : WriteEv} (hb : b < usrbuf.length) (hev : ret v = none)
    (h : r.Uses ret usrbuf (b + v.count) evs used) : r.Uses ret usrbuf b (v :: evs) (v :: used) where
  evs_eq := congrArg (v :: ·) h.evs_eq
  accepted_eq := by
    rw [h.accepted_eq, counted_cons, Nat.add_assoc]
  asked u e hu := by
    cases u with
    | nil => exact hb
    | cons d u =>
      obtain ⟨rfl, hu⟩ := List.cons_prefix_cons.mp hu
      have := h.asked u e (by simpa using hu)
      rw [counted_cons]
      omega
  stops := by
    have hstops := h.stops
    generalize r.ret = v at hstops
    cases hstops with
    | all hgo hall =>
      refine .all (List.forall_mem_cons.mpr ⟨hev, hgo⟩) ?_
      rw [counted_cons]
      omega
    | failed hused hgo hret =>
      exact .failed (congrArg (v :: ·) hused) (List.forall_mem_cons.mpr ⟨hev, hgo⟩) hret
    | waiting hgo hleft hrest =>
      refine .waiting (List.forall_mem_cons.mpr ⟨hev, hgo⟩) ?_ hrest
      rw [counted_cons]
      omega

theorem nil_used {v : Option ℤ} (hstops : Stops ret usrbuf.length b [] evs v) :
    (Written.mk v (usrbuf.take b) evs).Uses ret usrbuf b evs [] where
  evs_eq := rfl
  accepted_eq := rfl
  asked u e hu := by simp at hu
  stops := hstops

theorem last {ev : WriteEv} {v : ℤ} (hb : b < usrbuf.length) (hcount : ev.count = 0)
    (hret : ret ev = some v) :
    (Written.mk (some v) (usrbuf.take b) evs).Uses ret usrbuf b (ev :: evs) [ev] where
  evs_eq := rfl
  accepted_eq := by rw [counted_cons, hcount]; rfl
  asked u e hu := by
    have hnil : u = [] := by simpa using hu.length_le
    rw [hnil]
    exact hb
  stops := .failed (u := []) rfl nofun hret

theorem length_accepted (h : r.Uses ret usrbuf b evs used) :
    r.accepted.length = min (b + counted used) usrbuf.length := by
  rw [h.accepted_eq, List.length_take]

end Written.Uses

theorem write_more {usrbuf : List UInt8} {b : ℕ} (hb : b < usrbuf.length) (k : ℕ) :
    usrbuf.length - b - min (k + 1) (usrbuf.length - b) = usrbuf.length - (b + (k + 1)) ∧
      min b usrbuf.length + min (k + 1) (usrbuf.length - b) = min (b + (k + 1)) usrbuf.length ∧
      usrbuf.take b ++ (usrbuf.drop (min b usrbuf.length)).take (min (k + 1) (usrbuf.length - b)) =
        usrbuf.take (b + (k + 1)) := by
  refine ⟨by omega, by omega, ?_⟩
  rw [Nat.min_eq_left (Nat.le_of_lt hb), List.take_add, ← List.length_drop, ← List.take_eq_take_min]

theorem nioWritenLoop_uses (usrbuf : List UInt8) (evs : List WriteEv) (b : ℕ) :
    ∃ used, (nioWritenLoop usrbuf usrbuf.length (usrbuf.length - b) (min b usrbuf.length) (usrbuf.take b)
      evs).Uses (WriteEv.nioRet usrbuf.length) usrbuf b evs used := by
  induction evs generalizing b with
  | nil =>
    rw [nioWritenLoop]
    split_ifs with hpos
    · exact ⟨[], .nil_used (.waiting nofun (Nat.lt_of_sub_pos hpos) rfl)⟩
    · exact ⟨[], .nil_used (.all nofun (by omega))⟩
  | cons ev evs ih =>
    rw [nioWritenLoop]
    split_ifs with hpos
    · have hb : b < usrbuf.length := Nat.lt_of_sub_pos hpos
      rcases ev with k | (_ | _ | _)
      · obtain ⟨used, hused⟩ := ih (b + (k + 1))
        obtain ⟨hleft, hptr, htake⟩ := write_more hb k
        simp only [WriteEv.write]
        rw [hleft, hptr, htake]
        exact ⟨_, hused.cons hb rfl⟩
      · obtain ⟨used, hused⟩ := ih b
        exact ⟨_, hused.cons (v := .fails .eintr) hb rfl⟩
      · exact ⟨_, .last hb rfl rfl⟩
      · exact ⟨_, .last hb rfl rfl⟩
    · exact ⟨[], .nil_used (.all nofun (by omega))⟩

theorem Written.Uses.delivers {usrbuf : List UInt8} {evs : List WriteEv} {r : Written}
    {used : List WriteEv} (h : r.Uses (WriteEv.nioRet usrbuf.length) usrbuf 0 evs used) :
    r.Delivers usrbuf evs := by
  have hacc := h.accepted_eq
  have hevs := h.evs_eq
  have hasked := h.asked
  have hstops := h.stops
  rw [Nat.zero_add] at hacc
  refine ⟨⟨used, h⟩, hacc ▸ List.take_prefix _ _, ?_, ?_, ?_⟩
  · generalize r.ret = v at hstops
    cases hstops with
    | all => exact .inr (.inl rfl)
    | waiting => exact .inl rfl
    | @failed _ ev v _ _ hret =>
      rcases ev with k | (_ | _ | _)
      · cases hret
      · cases hret
      · exact .inr (.inl (congrArg some (Option.some.inj hret).symm))
      · exact .inr (.inr (congrArg some (Option.some.inj hret).symm))
  · intro hret
    generalize hv : r.ret = v at hstops
    cases hstops with
    | all _ hall =>
      rw [Nat.zero_add] at hall
      exact .inl (hacc.trans (List.take_of_length_le hall))
    | waiting => cases hv.symm.trans hret
    | @failed u ev v hused _ hev =>
      rcases ev with k | (_ | _ | _)
      · cases hev
      · cases hev
      · exact .inr ⟨u, by rw [hevs, hused, List.append_assoc]; rfl⟩
      · exact absurd (hret.symm.trans (hv.trans hev.symm)) (some_length_ne usrbuf)
  · intro hret
    generalize hv : r.ret = v at hstops
    cases hstops with
    | all => exact absurd (hv.symm.trans hret) (some_length_ne usrbuf)
    | waiting => cases hv.symm.trans hret
    | @failed u ev v hused _ hev =>
      intro he
      have hlt := hasked u ev (hused ▸ List.prefix_refl _)
      have hlen := h.length_accepted
      rw [he, hused, counted_append, counted_cons, WriteEv.count_of_ret hev] at hlen
      have hnil : counted [] = 0 := rfl
      omega

theorem nioWriten_uses (usrbuf : List UInt8) (evs : List WriteEv) :
    ∃ used, (nioWriten usrbuf evs).Uses (WriteEv.nioRet usrbuf.length) usrbuf 0 evs used := by
  have h := nioWritenLoop_uses usrbuf evs 0
  rwa [Nat.zero_min, Nat.sub_zero, List.take_zero] at h

/-! ## Interruptions -/

/-- Whether a result is not a failure with `EINTR`. -/
def WriteEv.lasting (ev : WriteEv) : Bool := ev ≠ .fails .eintr

theorem nioWritenLoop_zero (usrbuf : List UInt8) (n bufp : ℕ) (accepted : List UInt8)
    (evs : List WriteEv) :
    nioWritenLoop usrbuf n 0 bufp accepted evs = ⟨some n, accepted, evs⟩ := by
  cases evs <;> rfl

theorem nioWritenLoop_lasting (usrbuf : List UInt8) (n nleft bufp : ℕ) (accepted : List UInt8)
    (evs : List WriteEv) :
    nioWritenLoop usrbuf n nleft bufp accepted (evs.filter WriteEv.lasting) =
      { nioWritenLoop usrbuf n nleft bufp accepted evs with
        rest := (nioWritenLoop usrbuf n nleft bufp accepted evs).rest.filter WriteEv.lasting } := by
  induction evs generalizing nleft bufp accepted with
  | nil =>
    simp only [List.filter_nil, nioWritenLoop]
    split_ifs <;> rfl
  | cons ev evs ih =>
    rcases Nat.eq_zero_or_pos nleft with rfl | hpos
    · simp only [nioWritenLoop_zero]
    · cases ev with
      | accepts k =>
        rw [List.filter_cons_of_pos (by rfl)]
        simp only [nioWritenLoop, if_pos hpos, WriteEv.write]
        exact ih _ _ _
      | fails e =>
        cases e with
        | eintr =>
          rw [List.filter_cons_of_neg (by decide)]
          simp only [nioWritenLoop, if_pos hpos, WriteEv.write]
          exact ih _ _ _
        | _ =>
          rw [List.filter_cons_of_pos (by rfl)]
          simp only [nioWritenLoop, if_pos hpos, WriteEv.write]

/-- **`nio_writen` delivers each byte once and in order**, under every schedule of short writes and
failures, and interruptions change neither what it returns nor what it delivers. -/
theorem nioWriten_delivers (usrbuf : List UInt8) (evs : List WriteEv) :
    (nioWriten usrbuf evs).Delivers usrbuf evs ∧
      nioWriten usrbuf (evs.filter WriteEv.lasting) =
        { nioWriten usrbuf evs with
          rest := (nioWriten usrbuf evs).rest.filter WriteEv.lasting } :=
  ⟨(nioWriten_uses usrbuf evs).elim fun _ h => h.delivers,
    nioWritenLoop_lasting usrbuf usrbuf.length usrbuf.length 0 [] evs⟩

/-- Two short writes around an interruption, then a broken pipe. -/
example : nioWriten [1, 2, 3, 4] [.accepts 0, .fails .eintr, .accepts 1, .fails .epipe] =
    ⟨some 4, [1, 2, 3], []⟩ := by decide

end MiniProxy
