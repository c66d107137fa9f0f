import MiniProxy.Cache.Integrity

/-!
# A hit reads a living node

`is_cached` finds a node under the read lock and copies its payload after the last lock is released.
The copy is safe as long as no `dequeue` takes the node out in between. Then the queue stays intact, and
what threads free is not on it.

* `Pc.held`: the node that a thread has found and will copy;
* `KeepsHeld`, `KeepsLinked`: a step does not free such a node, or take it out of the queue;
* `Held`: the nodes found are allocated and match, and `held_step`: a step keeps this;
* `Linked`: they are on the queue, and `linked_step`; `keepsHeld_of_linked`: what is freed is not;
* `Pc.Fails`, `exists_step`: no section fails because of a freed node;
* **`copyOut_alive`**: the node copied is allocated and matches the key;
* **`not_copyOut_alive`**: a run in which evictions free the node before the copy.
-/

namespace MiniProxy.Cache

open Clib

/-- The key that a thread looks for and the node that it has found and will copy. -/
def Pc.held : Pc → Option (Key × Ptr)
  | .promote key p | .promoteCheck key p | .copyOut key p => some (key, p)
  | _ => none

variable {ι : Type*}

/-- The step frees no node that a thread has found and will copy. -/
def KeepsHeld (s : State ι) (a : ι × Ev) : Prop :=
  ∀ del, a.2 = .free del → ∀ j key, (s.pc j).held ≠ some (key, del)

/-- The step takes out no node that a thread has found and not yet copied. -/
def KeepsLinked (s : State ι) (a : ι × Ev) : Prop :=
  ∀ del, a.2 = .dequeue del → ∀ j key, (s.pc j).held ≠ some (key, del)

/-- The nodes found are allocated and match. -/
def Held (c : Cache) (pc : ι → Pc) : Prop :=
  ∀ i key p, (pc i).held = some (key, p) → c.Alloc p ∧ (c.entry p).key.isMatch key = true

variable [DecidableEq ι] {c : Cache} {pc : ι → Pc}

theorem Held.move (h : Held c pc) (i : ι) {m : Cache} {a : Pc}
    (hkeep : ∀ j key p, (pc j).held = some (key, p) → m.Alloc p ∧ m.entry p = c.entry p)
    (ha : ∀ key p, a.held = some (key, p) → (pc i).held = some (key, p) ∨
      m.Alloc p ∧ (m.entry p).key.isMatch key = true) :
    Held m (Function.update pc i a) := fun j key p hp => by
  have hold : ∀ j, (pc j).held = some (key, p) →
      m.Alloc p ∧ (m.entry p).key.isMatch key = true := fun j hj => by
    obtain ⟨hal, hent⟩ := hkeep j key p hj
    exact ⟨hal, hent ▸ (h j key p hj).2⟩
  by_cases hj : j = i
  · rw [hj, Function.update_self] at hp
    exact (ha key p hp).elim (hold i) id
  · rw [Function.update_of_ne hj] at hp
    exact hold j hp

theorem Held.same (h : Held c pc) (i : ι) {m : Cache} {a : Pc} (hS : SameNodes c m)
    (ha : ∀ key p, a.held = some (key, p) → (pc i).held = some (key, p) ∨
      c.Alloc p ∧ (c.entry p).key.isMatch key = true) :
    Held m (Function.update pc i a) := by
  refine h.move i (fun j key p hj => ?_) fun key p hp => (ha key p hp).imp_right fun hm => ?_
  · exact ⟨(hS.alloc p).mpr (h j key p hj).1, by rw [hS.entry]⟩
  · rw [hS.entry]
    exact ⟨(hS.alloc p).mpr hm.1, hm.2⟩

/-- **Every step keeps the nodes found**, if it frees none of them. -/
theorem held_step {s s' : State ι} {b : ι × Ev} (h : Held s.mem s.pc) (hs : Step s b s')
    (hG : KeepsHeld s b) : Held s'.mem s'.pc := by
  obtain ⟨hs⟩ := hs
  rename_i i e m a
  simp only
  generalize hp : s.pc i = a₀ at hs
  cases hs with
  | callIsCached | miss | callAddCache | linkCheck | ifOver | ifFits | whileOver | whileFits
  | copyOut | unlinkCheck => exact h.same i (SameNodes.refl _) (by simp [Pc.held])
  | hit key p fuel hfind =>
    refine h.same i (SameNodes.refl _) fun key' p' he => Or.inr ?_
    cases he
    exact findSec_some hfind
  | promote _ key p hup =>
    exact h.same i (sameNodes_updateSec hup) fun key' p' he => Or.inl (by rw [hp]; exact he)
  | promoteCheck key p fuel hc =>
    exact h.same i (SameNodes.refl _) fun key' p' he => Or.inl (by rw [hp]; exact he)
  | alloc _ key payload bytesize p junk hp0 hfree hnew =>
    obtain ⟨n, -, hnew⟩ := bind_ok_iff.mp hnew
    obtain ⟨_, -, hnew⟩ := bind_ok_iff.mp hnew
    cases hnew
    refine h.move i (fun j key' q hj => ?_) (by simp [Pc.held])
    have hq := (h j key' q hj).1
    have hqp : q ≠ p := fun e => by
      have := hq.2
      rw [e, hfree] at this
      cases this
    exact ⟨⟨hq.1, (Function.update_of_ne hqp _ _).trans hq.2⟩, Function.update_of_ne hqp _ _⟩
  | link _ p hlink => exact h.same i (sameNodes_enqueueSec hlink) (by simp [Pc.held])
  | unlink _ del hdeq hdel => exact h.same i (sameNodes_dequeueSec hdeq) (by simp [Pc.held])
  | unlinkEmpty _ hdeq => exact h.same i (sameNodes_dequeueSec hdeq) (by simp [Pc.held])
  | release _ del hfree =>
    obtain ⟨_, -, hfree⟩ := bind_ok_iff.mp hfree
    cases hfree
    refine h.move i (fun j key q hj => ?_) (by simp [Pc.held])
    have hqd : q ≠ del := fun e => hG del rfl j key (e ▸ hj)
    have hq := (h j key q hj).1
    exact ⟨⟨hq.1, (Function.update_of_ne hqd _ _).trans hq.2⟩, rfl⟩

/-- The nodes found are on the queue `L`. -/
def Linked (pc : ι → Pc) (L : List Ptr) : Prop := ∀ i key p, (pc i).held = some (key, p) → p ∈ L

omit [DecidableEq ι] in
theorem keepsFound_of_keepsLinked {s : State ι} {a : ι × Ev} (h : KeepsLinked s a) : KeepsFound s a :=
  fun del hdel j key hj => h del hdel j key (by rw [hj]; rfl)

theorem Linked.move {L L' : List Ptr} (h : Linked pc L) (i : ι) {a : Pc}
    (hkeep : ∀ p ∈ L, p ∈ L' ∨ ∀ j key, (pc j).held ≠ some (key, p))
    (ha : ∀ key p, a.held = some (key, p) → (pc i).held = some (key, p) ∨ p ∈ L') :
    Linked (Function.update pc i a) L' := fun j key p hp => by
  have hold : ∀ j, (pc j).held = some (key, p) → p ∈ L' := fun j hj =>
    (hkeep p (h j key p hj)).resolve_right fun hno => hno j key hj
  by_cases hj : j = i
  · rw [hj, Function.update_self] at hp
    exact (ha key p hp).elim (hold i) id
  · rw [Function.update_of_ne hj] at hp
    exact hold j hp

/-- **Every step keeps the nodes found on the queue**, if it takes out none of them. -/
theorem linked_step {s s' : State ι} {b : ι × Ev} {L L' : List Ptr} (hI : Inv s.mem s.pc L)
    (h : Linked s.pc L) (hs : Step s b s') (hG : KeepsLinked s b) (hI' : Inv s'.mem s'.pc L') :
    Linked s'.pc L' := by
  obtain ⟨hs⟩ := hs
  rename_i i e m a
  simp only at hI' ⊢
  generalize hp : s.pc i = a₀ at hs
  have hR := hI.repr
  have hR' := hI'.repr
  cases hs with
  | callIsCached | miss | callAddCache | linkCheck | ifOver | ifFits | whileOver | whileFits
  | copyOut | unlinkCheck =>
    obtain rfl := hR.unique hR'
    exact h.move i (fun q hq => .inl hq) (by simp [Pc.held])
  | hit key p fuel hfind =>
    obtain rfl := hR.unique hR'
    refine h.move i (fun q hq => .inl hq) fun key' q hq => .inr ?_
    cases hq
    exact List.mem_reverse.mp (List.mem_of_find?_eq_some (hR.findSec_ok hfind).symm)
  | promote _ key p hup =>
    obtain ⟨ps, qs, rfl⟩ := List.append_of_mem (hI.found i key p hp)
    obtain ⟨c', hup', hL, -, -, -⟩ := hR.updateSec rfl
    cases hup.symm.trans hup'
    obtain rfl := hL.unique hR'
    exact h.move i (fun q hq => .inl ((Lru.perm_touch p ps qs).symm.mem_iff.mp hq))
      fun key' q hq => .inl (by rw [hp]; exact hq)
  | promoteCheck key p fuel hc =>
    obtain rfl := hR.unique hR'
    exact h.move i (fun q hq => .inl hq) fun key' q hq => .inl (by rw [hp]; exact hq)
  | alloc _ key payload bytesize p junk hp0 hfree hnew =>
    obtain rfl := (hR.newNode hfree hnew).1.unique hR'
    exact h.move i (fun q hq => .inl hq) (by simp [Pc.held])
  | link _ p hlink =>
    have hown := hI.owned i p (by rw [hp]; rfl)
    obtain rfl := (hR.enqueueSec hown.1 hown.2 hlink).1.unique hR'
    exact h.move i (fun q hq => .inl (List.mem_append_left _ hq)) (by simp [Pc.held])
  | unlink _ del hdeq hdel =>
    obtain ⟨ps, rfl, hL, -⟩ := hR.dequeueSec_some hdeq hdel
    obtain rfl := hL.unique hR'
    refine h.move i (fun q hq => ?_) (by simp [Pc.held])
    rcases List.mem_cons.mp hq with rfl | hq
    · exact .inr (hG _ rfl)
    · exact .inl hq
  | unlinkEmpty _ hdeq =>
    obtain ⟨rfl, rfl⟩ := hR.dequeueSec_null hdeq
    obtain rfl := hR.unique hR'
    exact h.move i (fun q hq => .inl hq) (by simp [Pc.held])
  | release _ del hfree =>
    have hdel : (s.pc i).owns = some del := by
      obtain ⟨_, ha, -⟩ := bind_ok_iff.mp hfree
      rw [hp, Pc.owns, if_neg (check_eq_ok.mp ha).1]
    obtain rfl := (hR.freeNode (hI.owned i del hdel).2 hfree).1.unique hR'
    exact h.move i (fun q hq => .inl hq) (by simp [Pc.held])

theorem keepsHeld_of_linked {s s' : State ι} {b : ι × Ev} {L : List Ptr} (hI : Inv s.mem s.pc L)
    (h : Linked s.pc L) (hs : Step s b s') : KeepsHeld s b := by
  intro del hdel j key hj
  obtain ⟨hs⟩ := hs
  rename_i i e m a
  simp only at hdel
  generalize hp : s.pc i = a₀ at hs
  cases hs with
  | release _ d hfree =>
    cases hdel
    have hown : (s.pc i).owns = some del := by
      obtain ⟨_, ha, -⟩ := bind_ok_iff.mp hfree
      rw [hp, Pc.owns, if_neg (check_eq_ok.mp ha).1]
    exact (hI.owned i del hown).2 (by simp [h j key del hj])
  | _ => cases hdel

/-- In such a run the queue is intact, and the nodes found are on it. -/
theorem path_linked {c₀ : Cache} (h₀ : IsInit c₀) {tr : List (ι × Ev)} {s : State ι}
    (h : Lts.Path (Lts.Guarded Step KeepsLinked) (init c₀) tr s) :
    (∃ L, Inv s.mem s.pc L ∧ Linked s.pc L) ∧ Held s.mem s.pc := by
  refine Lts.Path.invariant_state
    (fun s => (∃ L, Inv s.mem s.pc L ∧ Linked s.pc L) ∧ Held s.mem s.pc)
    ⟨⟨[], inv_init h₀, fun i key p hi => by cases hi⟩, fun i key p hi => by cases hi⟩ ?_ h
  rintro s b s' ⟨⟨L, hI, hL⟩, hH⟩ ⟨hs, hG⟩
  obtain ⟨L', hI'⟩ := inv_step hI hs (keepsFound_of_keepsLinked hG)
  exact ⟨⟨L', hI', linked_step hI hL hs hG hI'⟩, held_step hH hs (keepsHeld_of_linked hI hL hs)⟩

/-! ## Sections that fail -/

/-- What a thread can run into besides a freed node: `new_node` finds no memory or copies beyond its
buffers, `enqueue` measures a payload without a NUL, the node to free is `NULL`, and the object is too
long for the array of the caller of `is_cached`. -/
def Pc.Fails (c : Cache) : Pc → Prop
  | .alloc _ payload bytesize =>
    (∀ p, p ≠ 0 → c.live p = true) ∨ ¬ (0 ∈ payload ∧ bytesize ≤ (cstr payload).length + 1)
  | .link p => 0 ∉ (c.entry p).payload
  | .release del => del = 0
  | .copyOut _ p => maxObjectSize < (c.entry p).bytesize
  | _ => False

/-- **No section fails but for that**: every thread can take its next step, which touches no freed
node. -/
theorem exists_step {s : State ι} {L : List Ptr} (hI : Inv s.mem s.pc L) (hH : Held s.mem s.pc) (i : ι)
    (hok : ¬ (s.pc i).Fails s.mem) : ∃ e s', Step s (i, e) s' := by
  have hR := hI.repr
  have hcheck := hR.cacheCheck_eq (Nat.lt_succ_self L.length)
  suffices h : ∃ e m a, TStep s.mem (s.pc i) e m a by
    obtain ⟨e, m, a, h⟩ := h
    exact ⟨e, _, .mk h⟩
  generalize hp : s.pc i = a₀ at hok
  cases a₀ with
  | idle => exact ⟨_, _, _, .callIsCached _ ⟨[], [], []⟩⟩
  | find key =>
    have hfind := hR.findSec_eq key (Nat.lt_succ_self L.length)
    cases hr : L.reverse.find? fun p => (s.mem.entry p).key.isMatch key with
    | none => exact ⟨_, _, _, .miss _ key _ (hfind.trans (by rw [hr]))⟩
    | some p => exact ⟨_, _, _, .hit _ key p _ (hfind.trans (by rw [hr]))⟩
  | promote key p =>
    obtain ⟨ps, qs, hL⟩ := List.append_of_mem (hI.found i key p hp)
    obtain ⟨c', hup, -⟩ := hR.updateSec hL
    exact ⟨_, _, _, .promote _ c' key p hup⟩
  | promoteCheck key p => exact ⟨_, _, _, .promoteCheck _ key p _ hcheck⟩
  | copyOut key p =>
    have ha := (hH i key p (by rw [hp]; rfl)).1
    have hcopy : s.mem.copyOut p = .ok ((s.mem.entry p).payload.take (s.mem.entry p).bytesize) := by
      rw [Cache.copyOut, deref_of ha, ok_bind, check_of (Nat.le_of_not_lt hok)]
      rfl
    exact ⟨_, _, _, .copyOut _ key p _ hcopy⟩
  | alloc key payload bytesize =>
    obtain ⟨hmem, hrange⟩ := not_or.mp hok
    obtain ⟨hterm, hle⟩ := not_not.mp hrange
    push Not at hmem
    obtain ⟨p, hp0, hfree⟩ := hmem
    obtain ⟨c', hnew⟩ := s.mem.exists_newNode p [] key payload bytesize hterm hle
    exact ⟨_, _, _, .alloc _ c' key payload bytesize p [] hp0 (by simpa using hfree) hnew⟩
  | link p =>
    have hown := hI.owned i p (by rw [hp]; rfl)
    obtain ⟨c', hlink⟩ := hR.exists_enqueueSec hown.1 hown.2 (not_not.mp hok)
    exact ⟨_, _, _, .link _ c' p hlink⟩
  | linkCheck => exact ⟨_, _, _, .linkCheck _ _ hcheck⟩
  | testIf =>
    by_cases hover : s.mem.cacheLoad > maxCacheSize
    · exact ⟨_, _, _, .ifOver _ hover⟩
    · exact ⟨_, _, _, .ifFits _ hover⟩
  | testWhile =>
    by_cases hover : s.mem.cacheLoad > maxCacheSize
    · exact ⟨_, _, _, .whileOver _ hover⟩
    · exact ⟨_, _, _, .whileFits _ hover⟩
  | unlink =>
    cases L with
    | nil => exact ⟨_, _, _, .unlinkEmpty _ _ (hR.dequeueSec_nil rfl)⟩
    | cons d ps =>
      obtain ⟨c', hdeq, -⟩ := hR.dequeueSec_cons rfl
      exact ⟨_, _, _, .unlink _ c' d hdeq (hR.alloc_mem List.mem_cons_self).1⟩
  | unlinkCheck del => exact ⟨_, _, _, .unlinkCheck _ del _ hcheck⟩
  | release del =>
    have hown := hI.owned i del (by rw [hp]; exact if_neg hok)
    have hfree : s.mem.freeNode del = .ok { s.mem with live := Function.update s.mem.live del false } := by
      rw [freeNode, deref_of hown.1]
      rfl
    exact ⟨_, _, _, .release _ _ del hfree⟩

/-- **A hit copies a living node**, in every run in which no `dequeue` takes out a node between the read
section in which a thread finds it and the end of that thread's copy: at the copy the node is allocated
and matches, and what is copied are its payload's `bytesize` bytes. Nor does any other thread touch a
freed node: the next step of each is there, unless it runs into something else. -/
theorem copyOut_alive {c₀ : Cache} (h₀ : IsInit c₀) {tr : List (ι × Ev)} {s : State ι}
    (h : Lts.Path (Lts.Guarded Step KeepsLinked) (init c₀) tr s) {i : ι} {key : Key} {p : Ptr}
    (hp : s.pc i = .copyOut key p) :
    s.mem.Alloc p ∧ (s.mem.entry p).key.isMatch key = true ∧
      ((s.mem.entry p).bytesize ≤ maxObjectSize →
        s.mem.copyOut p = .ok ((s.mem.entry p).payload.take (s.mem.entry p).bytesize)) ∧
      ∀ j, (s.pc j).Fails s.mem ∨ ∃ e s', Step s (j, e) s' := by
  obtain ⟨⟨L, hI, -⟩, hH⟩ := path_linked h₀ h
  obtain ⟨ha, hm⟩ := hH i key p (by rw [hp]; rfl)
  refine ⟨ha, hm, fun hle => ?_, fun j => ?_⟩
  · rw [Cache.copyOut, deref_of ha, ok_bind, check_of hle]
    rfl
  · exact (Classical.em ((s.pc j).Fails s.mem)).imp_right (exists_step hI hH j)

/-- One thread stores an object and another one looks it up, up to the copy. -/
theorem path_copyOut (key : Key) {s : List UInt8} (hs : 0 ∉ s) (hfits : s.length ≤ maxCacheSize) :
    ∃ (tr : List (Fin 2 × Ev)) (c : Cache) (pc : Fin 2 → Pc),
      Lts.Path Step (init emptyCache) tr ⟨c, pc⟩ ∧ pc 0 = .idle ∧ pc 1 = .copyOut key 3 ∧
      c.Repr [3] ∧ c.live = Function.update emptyCache.live 3 true ∧ c.cacheLoad = s.length ∧
      ∀ a ∈ tr, a.2 = .tau := by
  obtain ⟨tr, c, h, hA, htau⟩ := path_hit key hs hfits
  have hL : [] ++ [3] = ([] ++ 3 :: [] : List Ptr) := rfl
  obtain ⟨c', hup, hR, hS, -, hload⟩ := hA.repr.updateSec hL
  have hmove : Lts.Path Solo (c, .promote key 3) [.tau, .tau] (c', .copyOut key 3) :=
    ((Lts.Path.nil _).snoc (.mk (.promote c c' key 3 hup))).snoc
      (.mk (.promoteCheck c' key 3 2 (hR.cacheCheck_eq (by decide))))
  refine ⟨_, c', _, h.append (Threads.path_solo hmove _ (1 : Fin 2) rfl), rfl, rfl, hR,
    hS.live.trans hA.live, ?_, ?_⟩
  · rw [hload, hA.load]
    exact Nat.zero_add _
  · intro a ha
    rcases List.mem_append.mp ha with ha | ha
    · exact htau a ha
    · obtain ⟨e, he, rfl⟩ := List.mem_map.mp ha
      simpa using he

/-- A lookup copies the object that another thread has stored. -/
theorem copyOut_alive_hit :
    ∃ (tr : List (Fin 2 × Ev)) (s : State (Fin 2)) (key : Key) (p : Ptr),
      Lts.Path (Lts.Guarded Step KeepsLinked) (init emptyCache) tr s ∧ s.pc 1 = .copyOut key p ∧
        s.mem.Alloc p ∧ (s.mem.entry p).key.isMatch key = true := by
  obtain ⟨tr, c, pc, h, -, hpc, -, -, -, htau⟩ := path_copyOut ⟨[104], [56, 48], [47]⟩
    (s := [97]) (by decide) (by decide)
  have hG : Lts.Path (Lts.Guarded Step KeepsLinked) (init emptyCache) tr ⟨c, pc⟩ :=
    h.guarded fun s a ha del hdel => by
      rw [htau a ha] at hdel
      cases hdel
  obtain ⟨ha, hm, -⟩ := copyOut_alive isInit_emptyCache hG hpc
  exact ⟨tr, _, _, _, hG, hpc, ha, hm⟩

/-- A lookup has moved the only node to the end of the queue, and another thread evicts and frees it
before the copy. -/
theorem not_copyOut_alive :
    ∃ (tr : List (Fin 2 × Ev)) (s : State (Fin 2)) (key : Key) (p : Ptr),
      Lts.Path Step (init emptyCache) tr s ∧ s.pc 1 = .copyOut key p ∧ ¬ s.mem.Alloc p ∧
        s.mem.copyOut p = .error .oob := by
  obtain ⟨tr, c, pc, h, hpc₀, hpc₁, hR, hlive, hload, -⟩ :=
    path_copyOut ⟨[104], [56, 48], [47]⟩ (s := [97]) (by decide) (by decide)
  have hs := not_mem_replicate 1049000
  obtain ⟨c₁, c₂, hover, hA, hdeq⟩ := solo_add_over hR (p := 4) (by decide)
    (by rw [hlive]; rfl) ⟨[104], [56, 48], [98]⟩ hs (by
      rw [hload, List.length_replicate]
      decide)
  obtain ⟨c₂', hdeq', hR₂, hS⟩ := hA.repr.dequeueSec_cons rfl
  cases hdeq.symm.trans hdeq'
  have h₃ : c₂.Alloc 3 := (hS.alloc 3).mpr (hA.repr.alloc_mem List.mem_cons_self)
  have hfree : c₂.freeNode 3 = .ok { c₂ with live := Function.update c₂.live 3 false } := by
    rw [freeNode, deref_of h₃]
    rfl
  have hrelease := (hover.snoc (.mk (.unlinkCheck c₂ 3 2 (hR₂.cacheCheck_eq (by decide))))).snoc
    (.mk (.release _ _ 3 hfree))
  have hdead : ¬ Alloc { c₂ with live := Function.update c₂.live 3 false } 3 := fun ha => by
    have := ha.2
    simp at this
  refine ⟨_, _, ⟨[104], [56, 48], [47]⟩, 3, h.append (Threads.path_solo hrelease pc (0 : Fin 2) hpc₀), ?_, hdead, ?_⟩
  · rw [← hpc₁]
    rfl
  · rw [copyOut, deref, check, if_neg hdead]
    rfl

end MiniProxy.Cache
