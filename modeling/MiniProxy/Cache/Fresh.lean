import MiniProxy.Cache.Policy

/-!
# A hit is the newest copy

`add_cache` does not replace an older node for the same key. Calls of `add_cache` and `is_cached`, one at
a time: of the nodes that match a key the one nearest to the end of the queue is the newest one, and
`is_cached` looks from the end.

* `Op`, `OpStep`: one call with its arguments;
* `newest`: the latest call of `add_cache` for a key;
* `Fresh`: the invariant; `fresh_add`, `fresh_hit`, `fresh_step`;
* **`no_stale_hit`**: a hit yields what the latest call of `add_cache` for the key was given, and there is
  a miss exactly when no node of the queue matches.
-/

namespace MiniProxy.Cache

open Clib
open Lru (findLast findLast_append findLast_none findLast_suffix findLast_touch findLast_congr
  mem_of_findLast)

/-- A call with its arguments. -/
inductive Op where
  | add (key : Key) (payload : List UInt8) (bytesize : ℕ)
  | look (key : Key)

/-- One call that returns. -/
inductive OpStep : Cache → Op → Cache → Prop
  | add (c c' : Cache) (p : Ptr) (junk : List UInt8) (key : Key) (payload : List UInt8)
      (bytesize : ℕ) (hp : p ≠ 0) (hfree : c.live p = false)
      (h : Returns (fun fuel => c.addCache fuel p junk key payload bytesize) c') :
      OpStep c (.add key payload bytesize) c'
  | look (c c' : Cache) (key : Key) (r : Option (List UInt8))
      (h : Returns (fun fuel => c.isCached fuel key) (r, c')) : OpStep c (.look key) c'

/-- The payload and the byte size of a call of `add_cache` whose key matches. -/
def Op.copy (key : Key) : Op → Option (List UInt8 × ℕ)
  | .add k payload bytesize => if k.isMatch key then some (payload, bytesize) else none
  | .look _ => none

/-- The payload and the byte size of the latest call of `add_cache` whose key matches. -/
def newest (tr : List Op) (key : Key) : Option (List UInt8 × ℕ) := tr.reverse.findSome? (Op.copy key)

theorem newest_append (tr : List Op) (u : Op) (key : Key) :
    newest (tr ++ [u]) key = (u.copy key).or (newest tr key) := by
  unfold newest
  rw [List.reverse_append, List.reverse_singleton, List.singleton_append, List.findSome?_cons]
  cases u.copy key <;> rfl

variable {c c' : Cache} {L : List Ptr}

/-- The node that `is_cached` finds. -/
abbrev found (c : Cache) (L : List Ptr) (key : Key) : Option Ptr :=
  findLast (fun p => (c.entry p).key.isMatch key) L

theorem found_congr {key key' : Key} {p : Ptr} (h : (c.entry p).key.isMatch key = true)
    (h' : (c.entry p).key.isMatch key' = true) : found c L key = found c L key' := by
  unfold found
  congr 1
  funext q
  rw [Bool.eq_iff_iff]
  have hkk : key.isMatch key' = true := Key.isMatch_trans (Key.isMatch_symm h) h'
  exact ⟨fun hq => Key.isMatch_trans hq hkk, fun hq => Key.isMatch_trans hq (Key.isMatch_symm hkk)⟩

/-- The invariant: the node found for a key holds the copy that the latest call for it made. -/
def Fresh (tr : List Op) (c : Cache) (L : List Ptr) : Prop :=
  ∀ key p, found c L key = some p → ∃ payload bytesize, newest tr key = some (payload, bytesize) ∧
    bytesize ≤ payload.length ∧ (c.entry p).bytesize = bytesize ∧
      payload.take bytesize <+: (c.entry p).payload

/-- **A call of `add_cache`** keeps the invariant. -/
theorem fresh_add {tr : List Op} {p : Ptr} {key : Key} {payload junk : List UInt8} {bytesize : ℕ}
    {d : List Ptr} (h : Fresh tr c L) (hpL : p ∉ L) (hle : bytesize ≤ payload.length)
    (hS : Stored c L p ⟨key, payload.take bytesize ++ junk, bytesize⟩ d c') :
    Fresh (tr ++ [.add key payload bytesize]) c' (Lru.evict c'.size maxCacheSize (L ++ [p])) := by
  intro key' q hq
  have hq := findLast_suffix (Lru.evict_suffix _ _ _) hq
  rw [findLast_append, hS.entry, Function.update_self] at hq
  rw [newest_append]
  simp only [Op.copy]
  split_ifs at hq with hm
  · cases hq
    rw [if_pos hm]
    rw [hS.entry, Function.update_self]
    exact ⟨payload, bytesize, rfl, hle, rfl, List.prefix_append _ _⟩
  · rw [if_neg hm]
    have hsame : ∀ r ∈ L, c'.entry r = c.entry r := fun r hr => hS.entry_of_mem hpL hr
    have hfind : found c L key' = some q := by
      rw [← hq]
      exact findLast_congr fun r hr => by rw [← hS.entry, hsame r hr]
    rw [hsame q (mem_of_findLast hfind).1]
    exact h key' q hfind

/-- **A hit** keeps the invariant. -/
theorem fresh_hit {tr : List Op} {key : Key} {p : Ptr} {ps qs : List Ptr} (h : Fresh tr c L)
    (hL : L = ps ++ p :: qs) (hfind : found c L key = some p) (hS : SameNodes c c') :
    Fresh (tr ++ [.look key]) c' (ps ++ qs ++ [p]) := by
  intro key' q hq
  have hmatch := (mem_of_findLast hfind).2
  rw [newest_append]
  unfold found at hq
  rw [hS.entry] at hq ⊢
  refine h key' q ?_
  by_cases hp : (c.entry p).key.isMatch key' = true
  · rw [findLast_append, if_pos hp] at hq
    rw [found_congr hp hmatch, hfind, hq]
  · rw [findLast_touch (f := fun q => (c.entry q).key.isMatch key') (Bool.eq_false_iff.mpr hp),
      ← hL] at hq
    exact hq

/-- **Every call keeps the invariant.** -/
theorem fresh_step {tr : List Op} {u : Op} (hR : c.Repr L) (h : Fresh tr c L) (hs : OpStep c u c') :
    ∃ L', c'.Repr L' ∧ Fresh (tr ++ [u]) c' L' := by
  cases hs with
  | add _ p junk key payload bytesize hp hfree hret =>
    obtain ⟨hterm, hle, d, hS⟩ := hR.stored_of_returns hp hfree hret
    have hpL : p ∉ L := hR.not_mem hfree
    have hlen : bytesize ≤ payload.length := hle.trans (length_cstr_lt hterm)
    exact ⟨_, hS.repr, fresh_add h hpL hlen hS⟩
  | look _ key r hret =>
    rcases hR.isCached_returns hret with ⟨rfl, rfl, -⟩ | ⟨p, ps, qs, bytes, rfl, hfind, hL, hR', hS, -⟩
    · refine ⟨L, hR, ?_⟩
      intro key' q hq
      rw [newest_append]
      exact h key' q hq
    · exact ⟨_, hR', fresh_hit h hL hfind hS⟩

theorem path_fresh {c₀ : Cache} (h₀ : IsInit c₀) {tr : List Op} (h : Lts.Path OpStep c₀ tr c) :
    ∃ L, c.Repr L ∧ Fresh tr c L :=
  Lts.Path.invariant (fun tr c => ∃ L, c.Repr L ∧ Fresh tr c L) ⟨[], h₀.repr, nofun⟩
    (fun _ _ _ _ ⟨_, hR, hF⟩ hs => fresh_step hR hF hs) h

/-- **No stale hit.** After any calls, with several nodes for one key or not, the bytes of a hit are the
payload of the latest call of `add_cache` whose key matches, as many as its byte size; and `is_cached`
returns `0` exactly when no node of the queue matches. -/
theorem no_stale_hit {c₀ : Cache} (h₀ : IsInit c₀) {tr : List Op} (h : Lts.Path OpStep c₀ tr c) :
    ∃ L, c.Repr L ∧ ∀ key,
      (∀ bytes c', Returns (fun fuel => c.isCached fuel key) (some bytes, c') →
        ∃ payload bytesize, newest tr key = some (payload, bytesize) ∧
          bytes = payload.take bytesize ∧ bytes.length = bytesize) ∧
      ((∃ c', Returns (fun fuel => c.isCached fuel key) (none, c')) ↔
        ∀ p ∈ L, (c.entry p).key.isMatch key = false) := by
  obtain ⟨L, hR, hF⟩ := path_fresh h₀ h
  refine ⟨L, hR, fun key => ⟨?_, ?_, ?_⟩⟩
  · intro bytes c' hret
    rcases hR.isCached_returns hret with ⟨hr, -⟩ | ⟨p, ps, qs, bytes', hr, hfind, hL, -, hS, hcopy⟩
    · cases hr
    · cases hr
      obtain ⟨payload, bytesize, hnew, hle, hsize, hpre⟩ := hF key p hfind
      obtain ⟨_, -, hcopy⟩ := bind_ok_iff.mp hcopy
      obtain ⟨_, -, hcopy⟩ := bind_ok_iff.mp hcopy
      have hlen : (payload.take bytesize).length = bytesize := by simp [hle]
      have hbytes : payload.take bytesize = bytes := by
        rw [← Except.ok.inj hcopy, hS.entry, hsize]
        exact (List.prefix_iff_eq_take.mp hpre).trans (by rw [hlen])
      refine ⟨payload, bytesize, hnew, hbytes.symm, ?_⟩
      rw [← hbytes, hlen]
  · rintro ⟨c', hret⟩
    rcases hR.isCached_returns hret with ⟨-, -, hnone⟩ | ⟨p, ps, qs, bytes, hr, -⟩
    · exact findLast_none.mp hnone
    · cases hr
  · intro hnone
    exact ⟨c, L.length + 1, fun fuel hf => hR.isCached_none (findLast_none.mpr hnone) hf⟩

/-- Two copies of one resource are stored, and a hit yields the second one. -/
theorem no_stale_hit_second :
    ∃ (tr : List Op) (c : Cache) (L : List Ptr), Lts.Path OpStep emptyCache tr c ∧ c.Repr L ∧
      newest tr ⟨[104], [56, 48], [47]⟩ = some ([98, 0], 2) ∧
      ∀ bytes c', Returns (fun fuel => c.isCached fuel ⟨[72], [56, 48], [47]⟩) (some bytes, c') →
        bytes = [98, 0] := by
  obtain ⟨c, d, hS, hall⟩ := isInit_emptyCache.repr.addCache (p := 3) (by decide)
    (by decide) [] [97, 0] ⟨[104], [56, 48], [47]⟩ 2 (by decide) (by decide) (by decide)
  obtain ⟨c', d', hS', hall'⟩ := hS.repr.addCache (p := 4) (by decide)
    (by rw [hS.live]; simp [emptyCache, cacheInit]) [] [98, 0] ⟨[104], [56, 48], [47]⟩ 2
    (by decide) (by decide) (by decide)
  have hpath : Lts.Path OpStep emptyCache [.add ⟨[104], [56, 48], [47]⟩ [97, 0] 2,
      .add ⟨[104], [56, 48], [47]⟩ [98, 0] 2] c' :=
    ((Lts.Path.nil _).snoc
      (.add _ _ 3 [] _ _ _ (by decide) (by decide) ⟨2, fun fuel hf => hall fuel hf⟩)).snoc
      (.add _ _ 4 [] _ _ _ (by decide) (by rw [hS.live]; simp [emptyCache, cacheInit])
        ⟨_, fun fuel hf => hall' fuel hf⟩)
  obtain ⟨L, hR, hhit⟩ := no_stale_hit isInit_emptyCache hpath
  refine ⟨_, c', L, hpath, hR, rfl, ?_⟩
  intro bytes c'' hret
  obtain ⟨payload, bytesize, hnew, hbytes, -⟩ := (hhit ⟨[72], [56, 48], [47]⟩).1 bytes c'' hret
  have heq : newest [.add ⟨[104], [56, 48], [47]⟩ [97, 0] 2, .add ⟨[104], [56, 48], [47]⟩ [98, 0] 2]
      ⟨[72], [56, 48], [47]⟩ = some ([98, 0], 2) := by decide
  cases hnew.symm.trans heq
  exact hbytes

end MiniProxy.Cache
