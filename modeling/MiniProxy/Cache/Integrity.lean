import MiniProxy.Cache.Threads

/-!
# The queue stays intact

`is_cached` finds a node in a read section and moves it in a later write section. The queue survives
every interleaving in which no `dequeue` takes out a node in between.

* `Pc.owns`: the node that a thread has in its hands outside of the queue;
* `KeepsFound`: a step does not take out a node that a thread has found and not yet moved;
* `Inv`: the invariant, `Inv.move`: a step of one thread, `inv_step`, `path_inv`;
* **`cache_integrity`**: the queue is intact in every state of such a run, and no `assert` fails;
* **`not_cache_integrity`**: a run in which a hit races with an eviction.
-/

namespace MiniProxy.Cache

open Clib DList

/-- The node that a thread has in its hands outside of the queue. -/
def Pc.owns : Pc → Option Ptr
  | .link p => some p
  | .unlinkCheck del => some del
  | .release del => if del = 0 then none else some del
  | _ => none

variable {ι : Type*}

/-- The step takes out no node that a thread has found and not yet moved. -/
def KeepsFound (s : State ι) (a : ι × Ev) : Prop :=
  ∀ del, a.2 = .dequeue del → ∀ j key, s.pc j ≠ .promote key del

/-- The invariant: the queue `L` is intact, the nodes found are on it, and every node outside of it is
in the hands of at most one thread. -/
structure Inv (c : Cache) (pc : ι → Pc) (L : List Ptr) : Prop where
  repr : c.Repr L
  found : ∀ i key p, pc i = .promote key p → p ∈ L
  owned : ∀ i p, (pc i).owns = some p → c.Alloc p ∧ p ∉ c.front :: L ++ [c.endp]
  once : ∀ i j p, (pc i).owns = some p → (pc j).owns = some p → i = j

theorem inv_init {c : Cache} (h : IsInit c) : Inv c (fun _ : ι => .idle) [] where
  repr := h.repr
  found := fun i key p hp => by cases hp
  owned := fun i p hp => by cases hp
  once := fun i j p hp => by cases hp

variable [DecidableEq ι] {c : Cache} {pc : ι → Pc} {L L' : List Ptr}

theorem Inv.move (h : Inv c pc L) (i : ι) {m : Cache} {a : Pc} (hR : m.Repr L')
    (hkeep : ∀ p ∈ L, p ∈ L' ∨ ∀ j key, pc j ≠ .promote key p)
    (hown : ∀ j, j ≠ i → ∀ p, (pc j).owns = some p → m.Alloc p ∧ p ∉ m.front :: L' ++ [m.endp])
    (hfound : ∀ key p, a = .promote key p → p ∈ L')
    (howned : ∀ p, a.owns = some p → m.Alloc p ∧ p ∉ m.front :: L' ++ [m.endp] ∧
      ∀ j, j ≠ i → (pc j).owns ≠ some p) :
    Inv m (Function.update pc i a) L' where
  repr := hR
  found := fun j key p hp => by
    by_cases hj : j = i
    · rw [hj, Function.update_self] at hp
      exact hfound key p hp
    · rw [Function.update_of_ne hj] at hp
      exact (hkeep p (h.found j key p hp)).resolve_right fun hno => hno j key hp
  owned := fun j p hp => by
    by_cases hj : j = i
    · rw [hj, Function.update_self] at hp
      exact ⟨(howned p hp).1, (howned p hp).2.1⟩
    · rw [Function.update_of_ne hj] at hp
      exact hown j hj p hp
  once := fun j k p hj hk => by
    by_cases hji : j = i <;> by_cases hki : k = i
    · rw [hji, hki]
    · rw [hji, Function.update_self] at hj
      rw [Function.update_of_ne hki] at hk
      exact absurd hk ((howned p hj).2.2 k hki)
    · rw [hki, Function.update_self] at hk
      rw [Function.update_of_ne hji] at hj
      exact absurd hj ((howned p hk).2.2 j hji)
    · rw [Function.update_of_ne hji] at hj
      rw [Function.update_of_ne hki] at hk
      exact h.once j k p hj hk

theorem Inv.stay (h : Inv c pc L) (i : ι) {m : Cache} {a : Pc} (hR : m.Repr L')
    (hS : SameNodes c m) (hmem : ∀ p, p ∈ L ↔ p ∈ L') (hfound : ∀ key p, a = .promote key p → p ∈ L)
    (howned : ∀ p, a.owns = some p → (pc i).owns = some p) : Inv m (Function.update pc i a) L' := by
  have hout : ∀ p, p ∉ c.front :: L ++ [c.endp] → p ∉ m.front :: L' ++ [m.endp] := fun p hp => by
    rw [hS.front, hS.endp]
    simpa [hmem] using hp
  refine h.move i hR (fun p hp => Or.inl ((hmem p).mp hp)) (fun j _ p hp => ?_)
    (fun key p ha => (hmem p).mp (hfound key p ha)) fun p hp => ?_
  · exact ⟨(hS.alloc p).mpr (h.owned j p hp).1, hout p (h.owned j p hp).2⟩
  · have hi := h.owned i p (howned p hp)
    exact ⟨(hS.alloc p).mpr hi.1, hout p hi.2, fun j hj hp' => hj (h.once j i p hp' (howned p hp))⟩

/-- **Every step keeps the invariant**, if it takes out no node that a thread has found. -/
theorem inv_step {s s' : State ι} {b : ι × Ev} (h : Inv s.mem s.pc L) (hs : Step s b s')
    (hG : KeepsFound s b) : ∃ L', Inv s'.mem s'.pc L' := by
  obtain ⟨hs⟩ := hs
  rename_i i e m a
  simp only
  generalize hp : s.pc i = a₀ at hs
  have hR := h.repr
  have hrefl := SameNodes.refl s.mem
  cases hs with
  | callIsCached | miss | promoteCheck | copyOut | callAddCache | linkCheck | ifOver | ifFits
  | whileOver | whileFits =>
    exact ⟨L, h.stay i hR hrefl (fun _ => Iff.rfl) (by simp) (by simp [Pc.owns])⟩
  | unlinkCheck del fuel hc =>
    refine ⟨L, h.stay i hR hrefl (fun _ => Iff.rfl) (by simp) fun p hown => ?_⟩
    rw [hp]
    simp only [Pc.owns] at hown ⊢
    split_ifs at hown
    exact hown
  | hit key p fuel hfind =>
    refine ⟨L, h.stay i hR hrefl (fun _ => Iff.rfl) (fun key' p' he => ?_) (by simp [Pc.owns])⟩
    cases he
    have hmem := List.mem_of_find?_eq_some (hR.findSec_ok hfind).symm
    exact List.mem_reverse.mp hmem
  | promote _ key p hup =>
    obtain ⟨ps, qs, rfl⟩ := List.append_of_mem (h.found i key p hp)
    obtain ⟨c', hup', hR', hS, -, -⟩ := hR.updateSec rfl
    cases hup.symm.trans hup'
    exact ⟨_, h.stay i hR' hS (fun q => (Lru.perm_touch p ps qs).symm.mem_iff) (by simp)
      (by simp [Pc.owns])⟩
  | alloc _ key payload bytesize p junk hp0 hfree hnew =>
    obtain ⟨hR', hf, he, -, hlive, -⟩ := hR.newNode hfree hnew
    have hout := hR.not_mem_of_free hfree
    refine ⟨L, h.move i hR' (fun p hp => Or.inl hp) (fun j _ q hq => ?_) (by simp) fun q hq => ?_⟩
    · obtain ⟨⟨hq0, hql⟩, hqo⟩ := h.owned j q hq
      refine ⟨⟨hq0, ?_⟩, by rwa [hf, he]⟩
      rw [hlive, Function.update_of_ne fun e => by rw [e, hfree] at hql; cases hql]
      exact hql
    · cases hq
      refine ⟨⟨hp0, by rw [hlive, Function.update_self]⟩, by rwa [hf, he], fun j _ hj => ?_⟩
      have := (h.owned j p hj).1.2
      rw [hfree] at this
      cases this
  | link _ p hlink =>
    have hown := h.owned i p (by rw [hp]; rfl)
    obtain ⟨hR', hS⟩ := hR.enqueueSec hown.1 hown.2 hlink
    refine ⟨L ++ [p], h.move i hR' (fun q hq => Or.inl (List.mem_append_left _ hq))
      (fun j hj q hq => ?_) (by simp) (by simp [Pc.owns])⟩
    have hqp : q ≠ p := fun e => hj (h.once j i p (e ▸ hq) (by rw [hp]; rfl))
    obtain ⟨hqa, hqo⟩ := h.owned j q hq
    refine ⟨(hS.alloc q).mpr hqa, ?_⟩
    rw [hS.front, hS.endp]
    simpa [hqp] using hqo
  | unlink _ del hdeq hdel =>
    obtain ⟨ps, rfl, hR', hS⟩ := hR.dequeueSec_some hdeq hdel
    refine ⟨ps, h.move i hR' (fun q hq => ?_) (fun j _ q hq => ?_) (by simp) fun q hq => ?_⟩
    · rcases List.mem_cons.mp hq with rfl | hq
      · exact Or.inr (hG _ rfl)
      · exact Or.inl hq
    · obtain ⟨hqa, hqo⟩ := h.owned j q hq
      refine ⟨(hS.alloc q).mpr hqa, ?_⟩
      rw [hS.front, hS.endp]
      simp only [List.cons_append, List.mem_cons, List.mem_append] at hqo ⊢
      tauto
    · cases hq
      refine ⟨(hS.alloc del).mpr (hR.alloc_mem List.mem_cons_self), ?_, fun j _ hj => ?_⟩
      · rw [hS.front, hS.endp]
        exact hR.list.head_not_mem
      · exact (h.owned j del hj).2 (by simp)
  | unlinkEmpty _ hdeq =>
    obtain ⟨rfl, rfl⟩ := hR.dequeueSec_null hdeq
    exact ⟨[], h.stay i hR hrefl (fun _ => Iff.rfl) (by simp) (by simp [Pc.owns])⟩
  | release _ del hfree =>
    have hdel : (s.pc i).owns = some del := by
      obtain ⟨_, ha, -⟩ := bind_ok_iff.mp hfree
      rw [hp, Pc.owns, if_neg (check_eq_ok.mp ha).1]
    have hown := h.owned i del hdel
    obtain ⟨hR', hf, he, -, hlive, -⟩ := hR.freeNode hown.2 hfree
    refine ⟨L, h.move i hR' (fun q hq => Or.inl hq) (fun j hj q hq => ?_) (by simp)
      (by simp [Pc.owns])⟩
    have hqd : q ≠ del := fun e => hj (h.once j i del (e ▸ hq) hdel)
    obtain ⟨⟨hq0, hql⟩, hqo⟩ := h.owned j q hq
    exact ⟨⟨hq0, by rw [hlive, Function.update_of_ne hqd]; exact hql⟩, by rwa [hf, he]⟩

/-- **The queue is intact** in every state of a run in which no `dequeue` takes out a node between the
read section in which a thread finds it and the write section in which that thread moves it: from
`front` the distinct allocated nodes `L` are linked both ways up to `end`, `cache_count` and
`cache_load` are their number and the sum of their payloads' lengths, and no `assert` of `cache_check`
fails. -/
theorem cache_integrity {c₀ : Cache} (h₀ : IsInit c₀) {tr : List (ι × Ev)} {s : State ι}
    (h : Lts.Path (Lts.Guarded Step KeepsFound) (init c₀) tr s) :
    ∃ L, s.mem.Repr L ∧ ∀ fuel, L.length < fuel → s.mem.cacheCheck fuel = .ok () := by
  have hinv : ∃ L, Inv s.mem s.pc L :=
    Lts.Path.invariant_state (fun s => ∃ L, Inv s.mem s.pc L) ⟨[], inv_init h₀⟩
      (fun _ _ _ ⟨_, hI⟩ hs => inv_step hI hs.1 hs.2) h
  obtain ⟨L, hI⟩ := hinv
  exact ⟨L, hI.repr, fun fuel hf => hI.repr.cacheCheck_eq hf⟩

/-- One thread stores an object and another one looks it up. -/
theorem path_hit (key : Key) {s : List UInt8} (hs : 0 ∉ s) (hfits : s.length ≤ maxCacheSize) :
    ∃ (tr : List (Fin 2 × Ev)) (c : Cache),
      Lts.Path Step (init emptyCache) tr
        ⟨c, Function.update (Function.update (fun _ => .idle) 0 .idle) 1 (.promote key 3)⟩ ∧
      Added emptyCache [] 3 key s c ∧ ∀ a ∈ tr, a.2 = .tau := by
  obtain ⟨c, hadd, hA⟩ := solo_add_fits isInit_emptyCache.repr (p := 3) (by decide) (by decide) key hs
    (by
      have : emptyCache.cacheLoad = 0 := rfl
      omega)
  have hfind : (([] ++ [3] : List Ptr).reverse.find? fun q => (c.entry q).key.isMatch key) =
      some 3 := by
    simp [hA.entry, Key.isMatch]
  refine ⟨_, c, (Threads.path_solo hadd (fun _ => .idle) (0 : Fin 2) rfl).append
    (Threads.path_solo (solo_find hA.repr hfind) _ (1 : Fin 2) rfl), hA, ?_⟩
  simp

/-- An object is stored and a lookup has found it. -/
theorem cache_integrity_hit :
    ∃ (tr : List (Fin 2 × Ev)) (s : State (Fin 2)) (L : List Ptr),
      Lts.Path (Lts.Guarded Step KeepsFound) (init emptyCache) tr s ∧
        (∃ key p, s.pc 1 = .promote key p) ∧ s.mem.Repr L := by
  obtain ⟨tr, c, h, -, htau⟩ := path_hit ⟨[104], [56, 48], [47]⟩ (s := [97]) (by decide)
    (by decide)
  have hG : Lts.Path (Lts.Guarded Step KeepsFound) (init emptyCache) tr _ :=
    h.guarded fun s a ha del hdel => by
      rw [htau a ha] at hdel
      cases hdel
  obtain ⟨L, hR, -⟩ := cache_integrity isInit_emptyCache hG
  exact ⟨tr, _, L, hG, ⟨_, _, rfl⟩, hR⟩

/-- A lookup finds the only node, another thread evicts it, and the lookup links it in again: the
queue then has two nodes and `cache_count` is `1`. -/
theorem not_cache_integrity :
    ∃ (tr : List (Fin 2 × Ev)) (s : State (Fin 2)),
      Lts.Path Step (init emptyCache) tr s ∧ ¬ ∃ L, s.mem.Repr L := by
  obtain ⟨tr, c, h, hA, -⟩ := path_hit ⟨[104], [56, 48], [47]⟩ (s := [97]) (by decide)
    (by decide)
  have hs := not_mem_replicate 1049000
  obtain ⟨c₁, c₂, hover, hA₁, hdeq⟩ := solo_add_over (L := []) hA.repr (p := 4) (by decide)
    (by rw [hA.live]; rfl) ⟨[104], [56, 48], [98]⟩ hs (by
      rw [hA.load, List.length_replicate]
      decide)
  have hR : c₁.Repr [3, 4] := hA₁.repr
  have hf : c₁.front = 1 := hA₁.front.trans hA.front
  have he : c₁.endp = 2 := hA₁.endp.trans hA.endp
  have hl : ∀ p ∈ [1, 3, 4, 2], c₁.live p = true := fun p hp =>
    (hR.alloc p (by rw [hf, he]; exact hp)).2
  simp only [List.forall_mem_cons, List.not_mem_nil, false_implies, implies_true, and_true] at hl
  obtain ⟨h₁, h₃', ht⟩ := hR.list.head
  obtain ⟨h₃, h₄', ht⟩ := ht.head
  obtain ⟨h₄, h₂', -⟩ := isList_nil.mp ht
  rw [hf] at h₁ h₃'
  rw [he] at h₄ h₂'
  have hc₂ := congrArg Prod.snd (Except.ok.inj (hdeq.symm.trans (hR.dequeueSec_eq rfl)))
  -- `update` links the node `3` in behind `4` once more
  obtain ⟨c₃, hup, hn₁, hn₄, hcount, hf₃, he₃⟩ : ∃ c₃, c₂.updateSec 3 = .ok c₃ ∧
      c₃.links.next 1 = 4 ∧ c₃.links.next 4 = 3 ∧ c₃.cacheCount = c₁.cacheCount - 1 ∧
      c₃.front = 1 ∧ c₃.endp = 2 := by
    simp only at hc₂
    subst hc₂
    simp [Cache.updateSec, getNext, getPrev, setNext, setPrev, deref, check, Alloc, Links.unlink, h₃', h₃,
      h₂', hl, he, hf]
  have hpromote : Lts.Path Solo (c₂, .promote ⟨[104], [56, 48], [47]⟩ 3) [.tau]
      (c₃, .promoteCheck ⟨[104], [56, 48], [47]⟩ 3) :=
    .single (.mk (.promote c₂ c₃ _ 3 hup))
  have hrun := (h.append (Threads.path_solo hover _ (0 : Fin 2) rfl)).append
    (Threads.path_solo hpromote _ (1 : Fin 2) rfl)
  refine ⟨_, _, hrun, ?_⟩
  rintro ⟨L, hL⟩
  -- one node is counted, but `3` follows `4`
  have hlen := hL.count
  simp only [hcount, hR.count] at hlen
  obtain ⟨x, rfl⟩ : ∃ x, L = [x] := List.length_eq_one_iff.mp (by simp at hlen; omega)
  obtain ⟨hx, -, ht⟩ := hL.list.head
  obtain ⟨hx', -, -⟩ := isList_nil.mp ht
  simp only [hf₃, he₃, hn₁] at hx hx'
  rw [← hx, hn₄] at hx'
  exact absurd hx' (by decide)

end MiniProxy.Cache
