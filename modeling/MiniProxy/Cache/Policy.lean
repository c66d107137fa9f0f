import MiniProxy.Cache.Calls
import MiniProxy.Lib.Run

/-!
# The least recently used node goes first

Calls of `add_cache` and `is_cached`, one at a time. Every node has the time of its last use, which is
its insertion or its latest hit.

* `Use`, `Call`: what a call does to the history, and one call; a call whose `strlen` or `memcpy`
  leaves its buffer does not exist;
* `Reached`: the invariant, `reached_call`, `path_reached`;
* **`lru_policy`**: the queue stands in the order of last use, and `add_cache` evicts the shortest
  prefix of it that makes the rest fit.
-/

namespace MiniProxy.Cache

open Clib

/-- What a call does to the history. -/
inductive Use where
  | add (p : Ptr)
  | hit (p : Ptr)
  | miss
  deriving DecidableEq

/-- The node that a call uses. -/
def Use.node : Use → Option Ptr
  | .add p | .hit p => some p
  | .miss => none

/-- One call that returns. -/
inductive Call : Cache → Use → Cache → Prop
  | add (c c' : Cache) (p : Ptr) (junk : List UInt8) (key : Key) (payload : List UInt8)
      (bytesize : ℕ) (hp : p ≠ 0) (hfree : c.live p = false)
      (h : Returns (fun fuel => c.addCache fuel p junk key payload bytesize) c') :
      Call c (.add p) c'
  | hit (c c' : Cache) (key : Key) (p : Ptr) (bytes : List UInt8)
      (hfind : Returns (fun fuel => c.findSec fuel key) (some p))
      (h : Returns (fun fuel => c.isCached fuel key) (some bytes, c')) : Call c (.hit p) c'
  | miss (c c' : Cache) (key : Key) (h : Returns (fun fuel => c.isCached fuel key) (none, c')) :
      Call c .miss c'

variable {c c' : Cache} {L : List Ptr}

/-- The queue stands in the order of last use. -/
def Reached (tr : List Use) (c : Cache) : Prop := ∃ L, c.Repr L ∧ Lru.Ordered Use.node tr L

/-- **Every call keeps the order.** -/
theorem reached_call {tr : List Use} {u : Use} (h : Reached tr c) (hs : Call c u c') :
    Reached (tr ++ [u]) c' := by
  obtain ⟨L, hR, hO⟩ := h
  cases hs with
  | add _ p junk key payload bytesize hp hfree h =>
    obtain ⟨-, -, d, hS⟩ := hR.stored_of_returns hp hfree h
    exact ⟨_, hS.repr, (hO.append (hR.not_mem hfree) rfl).sublist (Lru.evict_suffix _ _ _).sublist⟩
  | hit _ key p bytes hfind h =>
    obtain ⟨m, hm⟩ := hfind
    have hfind := (hR.findSec_ok (hm m le_rfl)).symm
    rcases hR.isCached_returns h with ⟨hr, -⟩ | ⟨p', ps, qs, -, -, hfind', hL, hR', -⟩
    · cases hr
    · cases hfind.symm.trans hfind'
      have hnd := hR.list.nodup
      rw [hL] at hO hnd
      refine ⟨_, hR', hO.touch (fun hm => ?_) rfl⟩
      have hperm : (ps ++ p :: qs).Perm (p :: (ps ++ qs)) := List.perm_middle
      have hnd' : (ps ++ p :: qs).Nodup :=
        (List.nodup_append.mp (List.nodup_cons.mp hnd).2).1
      exact (List.nodup_cons.mp (hperm.nodup_iff.mp hnd')).1 hm
  | miss _ key h =>
    rcases hR.isCached_returns h with ⟨-, rfl, -⟩ | ⟨p, ps, qs, bytes, hr, -⟩
    · exact ⟨L, hR, hO.other fun p _ => by simp [Use.node]⟩
    · cases hr

theorem path_reached {c₀ : Cache} (h₀ : c₀.Repr []) {tr : List Use}
    (h : Lts.Path Call c₀ tr c) : Reached tr c :=
  Lts.Path.invariant Reached ⟨[], h₀, List.Pairwise.nil⟩ (fun _ _ _ _ => reached_call) h

/-- **The cache evicts the least recently used nodes.** After any calls the queue `L` stands in the
strict order of last use. A call of `add_cache` with a string then returns; it appends the node `p` and
evicts the prefix `d` of the queue, the shortest one that brings the sum of the payloads' lengths to at
most `MAX_CACHE_SIZE`. It evicts nothing if the sum already fits, and the new node only if that alone
is too long; `cache_load` is the sum that remains. -/
theorem lru_policy {c₀ : Cache} (h₀ : IsInit c₀) {tr : List Use} (h : Lts.Path Call c₀ tr c) :
    ∃ L, c.Repr L ∧ L.Pairwise (fun p q => Lru.lastUse Use.node p tr < Lru.lastUse Use.node q tr) ∧
      ∀ (p : Ptr) (junk : List UInt8) (key : Key) (payload : List UInt8) (bytesize : ℕ),
        p ≠ 0 → c.live p = false → 0 ∈ payload → bytesize ≤ (cstr payload).length + 1 →
        0 ∈ payload.take bytesize ++ junk →
        ∃ c' d L', Returns (fun fuel => c.addCache fuel p junk key payload bytesize) c' ∧
          L ++ [p] = d ++ L' ∧ c'.Repr L' ∧ c'.cacheLoad = (L'.map c'.size).sum ∧
          c'.cacheLoad ≤ maxCacheSize ∧ (∀ q ∈ d, c'.live q = false) ∧
          (∀ d' m, L ++ [p] = d' ++ m → (m.map c'.size).sum ≤ maxCacheSize → d <+: d') ∧
          (((L ++ [p]).map c'.size).sum ≤ maxCacheSize → d = []) ∧
          (p ∈ d → maxCacheSize < c'.size p) := by
  obtain ⟨L, hR, hO⟩ := path_reached h₀.repr h
  refine ⟨L, hR, hO, fun p junk key payload bytesize hp hfree hterm hle hstr => ?_⟩
  obtain ⟨c', d, hS, hall⟩ := hR.addCache hp hfree junk payload key bytesize hterm hle hstr
  have hpL : p ∉ L := hR.not_mem hfree
  obtain ⟨d', hd', hsum, hmin⟩ := Lru.evict_minimal c'.size maxCacheSize (L ++ [p])
  obtain rfl : d' = d := List.append_cancel_right (hd'.symm.trans hS.split)
  refine ⟨c', d', _, ⟨L.length + 2, fun fuel hfuel => hall fuel (by omega)⟩, hS.split, hS.repr,
    hS.repr.load, by rw [hS.repr.load]; exact hsum, fun q hq => ?_, hmin, fun hle => ?_, fun hpd => ?_⟩
  · rw [hS.live]
    simp [hq]
  · exact List.prefix_nil.mp (hmin [] (L ++ [p]) rfl hle)
  · by_contra hlt
    have hpre := hmin L [p] rfl (by simpa using Nat.le_of_not_lt hlt)
    exact hpL (hpre.subset hpd)

/-- One object is stored, and a second one goes behind it. -/
theorem lru_policy_second :
    ∃ c L, Lts.Path Call emptyCache [.add 3] c ∧ c.Repr L ∧
      ∃ c' d L', Returns (fun fuel => c.addCache fuel 4 [] ⟨[104], [56, 48], [47]⟩ [98, 0] 2) c' ∧
        L ++ [4] = d ++ L' ∧ c'.Repr L' := by
  obtain ⟨c, d, hS, hall⟩ := isInit_emptyCache.repr.addCache (p := 3) (by decide)
    (by decide) [] [97, 0] ⟨[104], [56, 48], [47]⟩ 2 (by decide) (by decide) (by decide)
  have hpath : Lts.Path Call emptyCache [.add 3] c :=
    .single (.add _ _ 3 [] _ _ _ (by decide) (by decide) ⟨2, fun fuel hf => hall fuel hf⟩)
  obtain ⟨L, hR, -, hadd⟩ := lru_policy isInit_emptyCache hpath
  obtain ⟨c', d', L', hret, hsplit, hR', -⟩ := hadd 4 [] ⟨[104], [56, 48], [47]⟩ [98, 0] 2
    (by decide) (by rw [hS.live]; simp [emptyCache, cacheInit]) (by decide) (by decide) (by decide)
  exact ⟨c, L, hpath, hR, c', d', L', hret, hsplit, hR'⟩

end MiniProxy.Cache
