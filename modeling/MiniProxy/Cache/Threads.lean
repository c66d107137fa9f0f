import MiniProxy.Cache.Repr
import MiniProxy.Lib.Threads

/-!
# Threads that use the cache

Any number of threads call `is_cached` and `add_cache`. A section between `pre_write` and
`post_write`, or between `pre_read` and `post_read`, is one step, and so are each `malloc` of
`new_node`, each `free_node`, each unlocked test of `cache_load` and the copy at the end of
`is_cached`; the other threads may run in between. A section that touches a freed node is no step: no
thread comes to one while the queue is intact and the nodes found are on it (`exists_step`).

* `Pc`, `Ev`, `TStep`: one thread's places, what a step shows, and its steps;
* `State`, `Step`: all threads together.
-/

namespace MiniProxy.Cache

open Clib

/-- The places of a thread. In `is_cached` for `key`: before the read section, with the node `p` found
before the write section of `update`, before its `cache_check`, and before the copy. In `add_cache`:
before `new_node`, before and after the write section of `enqueue`, at the tests of `if` and `while`,
before and after the write section of `dequeue`, and before `free_node`. -/
inductive Pc where
  | idle
  | find (key : Key)
  | promote (key : Key) (p : Ptr)
  | promoteCheck (key : Key) (p : Ptr)
  | copyOut (key : Key) (p : Ptr)
  | alloc (key : Key) (payload : List UInt8) (bytesize : ℕ)
  | link (node : Ptr)
  | linkCheck
  | testIf
  | testWhile
  | unlink
  | unlinkCheck (del : Ptr)
  | release (del : Ptr)

/-- What a step shows: a node taken out by `dequeue` or freed. -/
inductive Ev where
  | tau
  | dequeue (del : Ptr)
  | free (del : Ptr)

/-- The steps of one thread. -/
inductive TStep : Cache → Pc → Ev → Cache → Pc → Prop
  | callIsCached (c : Cache) (key : Key) : TStep c .idle .tau c (.find key)
  | miss (c : Cache) (key : Key) (fuel : ℕ) (h : c.findSec fuel key = .ok none) :
      TStep c (.find key) .tau c .idle
  | hit (c : Cache) (key : Key) (p : Ptr) (fuel : ℕ) (h : c.findSec fuel key = .ok (some p)) :
      TStep c (.find key) .tau c (.promote key p)
  | promote (c c' : Cache) (key : Key) (p : Ptr) (h : c.updateSec p = .ok c') :
      TStep c (.promote key p) .tau c' (.promoteCheck key p)
  | promoteCheck (c : Cache) (key : Key) (p : Ptr) (fuel : ℕ) (h : c.cacheCheck fuel = .ok ()) :
      TStep c (.promoteCheck key p) .tau c (.copyOut key p)
  | copyOut (c : Cache) (key : Key) (p : Ptr) (bytes : List UInt8) (h : c.copyOut p = .ok bytes) :
      TStep c (.copyOut key p) .tau c .idle
  | callAddCache (c : Cache) (key : Key) (payload : List UInt8) (bytesize : ℕ) :
      TStep c .idle .tau c (.alloc key payload bytesize)
  | alloc (c c' : Cache) (key : Key) (payload : List UInt8) (bytesize : ℕ) (p : Ptr)
      (junk : List UInt8) (hp : p ≠ 0) (hfree : c.live p = false)
      (h : c.newNode p junk key payload bytesize = .ok c') :
      TStep c (.alloc key payload bytesize) .tau c' (.link p)
  | link (c c' : Cache) (p : Ptr) (h : c.enqueueSec p = .ok c') : TStep c (.link p) .tau c' .linkCheck
  | linkCheck (c : Cache) (fuel : ℕ) (h : c.cacheCheck fuel = .ok ()) :
      TStep c .linkCheck .tau c .testIf
  | ifOver (c : Cache) (h : c.cacheLoad > maxCacheSize) : TStep c .testIf .tau c .testWhile
  | ifFits (c : Cache) (h : ¬ c.cacheLoad > maxCacheSize) : TStep c .testIf .tau c .idle
  | whileOver (c : Cache) (h : c.cacheLoad > maxCacheSize) : TStep c .testWhile .tau c .unlink
  | whileFits (c : Cache) (h : ¬ c.cacheLoad > maxCacheSize) : TStep c .testWhile .tau c .idle
  | unlink (c c' : Cache) (del : Ptr) (h : c.dequeueSec = .ok (del, c')) (hdel : del ≠ 0) :
      TStep c .unlink (.dequeue del) c' (.unlinkCheck del)
  | unlinkEmpty (c c' : Cache) (h : c.dequeueSec = .ok (0, c')) :
      TStep c .unlink .tau c' (.release 0)
  | unlinkCheck (c : Cache) (del : Ptr) (fuel : ℕ) (h : c.cacheCheck fuel = .ok ()) :
      TStep c (.unlinkCheck del) .tau c (.release del)
  | release (c c' : Cache) (del : Ptr) (h : c.freeNode del = .ok c') :
      TStep c (.release del) (.free del) c' .testWhile

/-- The cache shared by the threads `ι`. -/
abbrev State (ι : Type*) := Threads.Sys ι Cache Pc

/-- Any thread takes a step. -/
abbrev Step {ι : Type*} [DecidableEq ι] : State ι → ι × Ev → State ι → Prop := Threads.Step TStep

/-- The cache `c`, before any call. -/
def init {ι : Type*} (c : Cache) : State ι := ⟨c, fun _ => .idle⟩

/-! ## Calls of a thread on its own -/

/-- The steps of one thread on its own. -/
abbrev Solo : Cache × Pc → Ev → Cache × Pc → Prop := Threads.Solo TStep

variable {c : Cache} {L : List Ptr}

theorem not_mem_replicate (n : ℕ) : (0 : UInt8) ∉ List.replicate n 97 := fun hm => by
  have := List.eq_of_mem_replicate hm
  cases this

theorem size_of_entry {p : Ptr} {key : Key} {s : List UInt8} {n : ℕ}
    (h : c.entry p = ⟨key, s ++ [0], n⟩) (hs : 0 ∉ s) : c.size p = s.length := by
  rw [size, h, cstr_append_zero hs]

/-- `c'` is the cache `c` with a node at `p` for the string `s` appended to its queue `L`. -/
structure Added (c : Cache) (L : List Ptr) (p : Ptr) (key : Key) (s : List UInt8) (c' : Cache) :
    Prop where
  repr : c'.Repr (L ++ [p])
  entry : c'.entry = Function.update c.entry p ⟨key, s ++ [0], s.length + 1⟩
  live : c'.live = Function.update c.live p true
  front : c'.front = c.front
  endp : c'.endp = c.endp
  load : c'.cacheLoad = c.cacheLoad + s.length

theorem exists_added (h : c.Repr L) {p : Ptr} (hp : p ≠ 0) (hfree : c.live p = false) (key : Key)
    {s : List UInt8} (hs : 0 ∉ s) :
    ∃ c₁ c', c.newNode p [] key (s ++ [0]) (s.length + 1) = .ok c₁ ∧
      c₁.entry p = ⟨key, s ++ [0], s.length + 1⟩ ∧ c₁.enqueueSec p = .ok c' ∧
      Added c L p key s c' := by
  have hstr : cstr (s ++ [0]) = s := cstr_append_zero hs []
  have htake : (s ++ [0]).take (s.length + 1) = s ++ [0] := List.take_of_length_le (by simp)
  obtain ⟨c₁, hnew⟩ := c.exists_newNode p [] key (s ++ [0]) (s.length + 1)
    (by simp) (by rw [hstr])
  obtain ⟨hR, hf, he, -, hl, hent⟩ := h.newNode hfree hnew
  rw [htake, List.append_nil] at hent
  have hout := h.not_mem_of_free hfree
  have hsame : ∀ q ∈ L, c₁.size q = c.size q := fun q hq => by
    have hqp : q ≠ p := fun e => hout (by simp [← e, hq])
    rw [size, size, hent, Function.update_of_ne hqp]
  rw [← hf, ← he] at hout
  have ha : c₁.Alloc p := ⟨hp, by rw [hl, Function.update_self]⟩
  obtain ⟨c', hlink⟩ := hR.exists_enqueueSec ha hout (by rw [hent, Function.update_self]; simp)
  obtain ⟨hR', hS⟩ := hR.enqueueSec ha hout hlink
  refine ⟨c₁, c', hnew, by rw [hent, Function.update_self], hlink, hR', hS.entry.trans hent,
    hS.live.trans hl, hS.front.trans hf, hS.endp.trans he, ?_⟩
  rw [hR'.load, hS.size, List.map_append, List.sum_append, List.map_congr_left hsame, ← h.load,
    List.map_singleton, List.sum_singleton, size_of_entry (by rw [hent, Function.update_self]) hs]

/-- The steps of a thread that calls `add_cache` for the string `s`. -/
def Adding (s : List UInt8) (c : Cache) (a : Pc) (e : Ev) (c' : Cache) (a' : Pc) : Prop :=
  TStep c a e c' a' ∧ (∀ key, a' ≠ .find key) ∧
    ∀ p, a' = .link p → 0 ∈ (c'.entry p).payload ∧ c'.size p = s.length

theorem solo_add (h : c.Repr L) {p : Ptr} (hp : p ≠ 0) (hfree : c.live p = false) (key : Key)
    {s : List UInt8} (hs : 0 ∉ s) :
    ∃ c', Lts.Path (Threads.Solo (Adding s)) (c, .idle) [.tau, .tau, .tau, .tau] (c', .testIf) ∧
      Added c L p key s c' := by
  obtain ⟨c₁, c', hnew, hentry, hlink, hA⟩ := exists_added h hp hfree key hs
  have hcall : Adding s c .idle .tau c (.alloc key (s ++ [0]) (s.length + 1)) :=
    ⟨.callAddCache _ _ _ _, by rintro _ ⟨⟩, by rintro _ ⟨⟩⟩
  have halloc : Adding s c (.alloc key (s ++ [0]) (s.length + 1)) .tau c₁ (.link p) := by
    refine ⟨.alloc _ _ _ _ _ p [] hp hfree hnew, by rintro _ ⟨⟩, ?_⟩
    rintro _ ⟨⟩
    exact ⟨by simp [hentry], size_of_entry hentry hs⟩
  have henq : Adding s c₁ (.link p) .tau c' .linkCheck :=
    ⟨.link _ _ p hlink, by rintro _ ⟨⟩, by rintro _ ⟨⟩⟩
  have hcheck : Adding s c' .linkCheck .tau c' .testIf :=
    ⟨.linkCheck _ _ (hA.repr.cacheCheck_eq (Nat.lt_succ_self _)), by rintro _ ⟨⟩, by rintro _ ⟨⟩⟩
  exact ⟨c', (((Lts.Path.single (.mk hcall)).snoc (.mk halloc)).snoc (.mk henq)).snoc (.mk hcheck), hA⟩

theorem solo_of_adding {s : List UInt8} {x y : Cache × Pc} {es : List Ev}
    (h : Lts.Path (Threads.Solo (Adding s)) x es y) : Lts.Path Solo x es y :=
  Threads.path_mono (fun _ _ _ _ _ hs => hs.1) h

theorem solo_add_fits (h : c.Repr L) {p : Ptr} (hp : p ≠ 0) (hfree : c.live p = false) (key : Key)
    {s : List UInt8} (hs : 0 ∉ s) (hfits : c.cacheLoad + s.length ≤ maxCacheSize) :
    ∃ c', Lts.Path Solo (c, .idle) [.tau, .tau, .tau, .tau, .tau] (c', .idle) ∧
      Added c L p key s c' := by
  obtain ⟨c', hpath, hA⟩ := solo_add h hp hfree key hs
  exact ⟨c', (solo_of_adding hpath).snoc (.mk (.ifFits c' (by rw [hA.load]; omega))), hA⟩

theorem solo_add_over {d : Ptr} (h : c.Repr (d :: L)) {p : Ptr} (hp : p ≠ 0)
    (hfree : c.live p = false) (key : Key) {s : List UInt8} (hs : 0 ∉ s)
    (hover : maxCacheSize < c.cacheLoad + s.length) :
    ∃ c₁ c', Lts.Path Solo (c, .idle) [.tau, .tau, .tau, .tau, .tau, .tau, .dequeue d]
        (c', .unlinkCheck d) ∧ Added c (d :: L) p key s c₁ ∧ c₁.dequeueSec = .ok (d, c') := by
  obtain ⟨c₁, hpath, hA⟩ := solo_add h hp hfree key hs
  have hload : c₁.cacheLoad > maxCacheSize := by
    rw [hA.load]
    exact hover
  obtain ⟨c', hdeq, -, -⟩ := hA.repr.dequeueSec_cons rfl
  have hd : d ≠ 0 := (hA.repr.alloc_mem List.mem_cons_self).1
  exact ⟨c₁, c', (((solo_of_adding hpath).snoc (.mk (.ifOver c₁ hload))).snoc
    (.mk (.whileOver c₁ hload))).snoc (.mk (.unlink c₁ c' d hdeq hd)), hA, hdeq⟩

theorem solo_find (h : c.Repr L) {key : Key} {p : Ptr}
    (hfind : (L.reverse.find? fun q => (c.entry q).key.isMatch key) = some p) :
    Lts.Path Solo (c, .idle) [.tau, .tau] (c, .promote key p) :=
  ((Lts.Path.nil _).snoc (.mk (.callIsCached c key))).snoc
    (.mk (.hit c key p (L.length + 1) (by rw [h.findSec_eq key (Nat.lt_succ_self _), hfind])))

end MiniProxy.Cache
