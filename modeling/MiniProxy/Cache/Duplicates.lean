import MiniProxy.Cache.Integrity

/-!
# Copies of one resource

A worker looks its key up and, when it misses, stores a node for it later. In between it holds no lock,
and `add_cache` does not look for the key again.

* `Worker`, `WStep`: one worker of `worker_main`, which remembers the key that it missed;
* `Alone`: no worker links a node for a key that another one has missed and not yet linked;
* `Unique`: the invariant; `Unique.move`, `unique_step`;
* **`one_copy`**: no two nodes of the queue match, in every state of a run whose steps are `Alone`;
* **`not_one_copy`**: two workers miss the same key and both store it.
-/

namespace MiniProxy.Cache

open Clib

/-- A worker in `worker_main`: its place in the calls of the cache, and the key that it has missed and
whose node it has not yet linked in. -/
structure Worker where
  pc : Pc
  missed : Option Key

/-- The places inside a call at which a worker holds no node to be linked in. -/
def Pc.inner : Pc → Bool
  | .idle | .find _ | .alloc _ _ _ | .link _ => false
  | _ => true

/-- The steps of one worker. A response that is too long is not stored. -/
inductive WStep : Cache → Worker → Ev → Cache → Worker → Prop
  | lookup {c c' : Cache} {e : Ev} {key : Key} (h : TStep c .idle e c' (.find key)) :
      WStep c ⟨.idle, none⟩ e c' ⟨.find key, none⟩
  | miss {c c' : Cache} {e : Ev} {key : Key} (h : TStep c (.find key) e c' .idle) :
      WStep c ⟨.find key, none⟩ e c' ⟨.idle, some key⟩
  | hit {c c' : Cache} {e : Ev} {key : Key} {p : Ptr}
      (h : TStep c (.find key) e c' (.promote key p)) :
      WStep c ⟨.find key, none⟩ e c' ⟨.promote key p, none⟩
  | tooLong (c : Cache) (key : Key) : WStep c ⟨.idle, some key⟩ .tau c ⟨.idle, none⟩
  | store {c c' : Cache} {e : Ev} {key : Key} {payload : List UInt8} {bytesize : ℕ}
      (h : TStep c .idle e c' (.alloc key payload bytesize)) :
      WStep c ⟨.idle, some key⟩ e c' ⟨.alloc key payload bytesize, some key⟩
  | alloc {c c' : Cache} {e : Ev} {key : Key} {payload : List UInt8} {bytesize : ℕ} {p : Ptr}
      (h : TStep c (.alloc key payload bytesize) e c' (.link p)) :
      WStep c ⟨.alloc key payload bytesize, some key⟩ e c' ⟨.link p, some key⟩
  | link {c c' : Cache} {e : Ev} {key : Key} {p : Ptr} (h : TStep c (.link p) e c' .linkCheck) :
      WStep c ⟨.link p, some key⟩ e c' ⟨.linkCheck, none⟩
  | inner {c c' : Cache} {e : Ev} {a a' : Pc} (ha : a.inner = true) (h : TStep c a e c' a') :
      WStep c ⟨a, none⟩ e c' ⟨a', none⟩

theorem WStep.tstep {c c' : Cache} {w w' : Worker} {e : Ev} (h : WStep c w e c' w') :
    TStep c w.pc e c' w'.pc ∨ (c' = c ∧ w'.pc = w.pc) := by
  cases h with
  | tooLong => exact .inr ⟨rfl, rfl⟩
  | lookup h | miss h | hit h | store h | alloc h | link h | inner _ h => exact .inl h

variable {ι : Type*}

/-- The cache shared by the workers `ι`. -/
abbrev Workers (ι : Type*) := Threads.Sys ι Cache Worker

/-- The cache `c`, before any request. -/
def workers (c : Cache) : Workers ι := ⟨c, fun _ => ⟨.idle, none⟩⟩

/-- The threads as they use the cache. -/
def Workers.threads (s : Workers ι) : State ι := ⟨s.mem, fun i => (s.pc i).pc⟩

/-- The step takes out no node that a worker has found and not yet moved, and links in no node for a key
that another worker has missed and not yet linked in. -/
def Alone (s : Workers ι) (a : ι × Ev) : Prop :=
  KeepsFound s.threads a ∧ ∀ p key, s.pc a.1 = ⟨.link p, some key⟩ →
    ∀ j key', j ≠ a.1 → (s.pc j).missed = some key' → key'.isMatch key = false

/-- The invariant. -/
structure Unique (c : Cache) (pc : ι → Worker) (L : List Ptr) : Prop where
  inv : Inv c (fun i => (pc i).pc) L
  key : ∀ i p key, pc i = ⟨.link p, some key⟩ → (c.entry p).key = key
  fresh : ∀ i key, (pc i).missed = some key → ∀ p ∈ L, (c.entry p).key.isMatch key = false
  distinct : ∀ p ∈ L, ∀ q ∈ L, p ≠ q → (c.entry p).key.isMatch (c.entry q).key = false

theorem unique_init {c : Cache} (h : IsInit c) : Unique c (fun _ : ι => ⟨.idle, none⟩) [] where
  inv := inv_init h
  key := nofun
  fresh := nofun
  distinct := nofun

variable [DecidableEq ι] {c : Cache} {pc : ι → Worker} {L L' : List Ptr}

theorem Unique.inv_step (h : Unique c pc L) {i : ι} {e : Ev} {m : Cache} {w : Worker}
    (hs : WStep c (pc i) e m w) (hG : KeepsFound (Workers.threads ⟨c, pc⟩) (i, e)) :
    ∃ L', Inv m (fun j => (Function.update pc i w j).pc) L' := by
  have hpc : (fun j => (Function.update pc i w j).pc) =
      Function.update (fun j => (pc j).pc) i w.pc := by
    funext j
    by_cases hj : j = i
    · subst hj
      simp
    · simp [hj]
  rw [hpc]
  rcases hs.tstep with ht | ⟨rfl, hw⟩
  · exact Cache.inv_step (s := ⟨c, fun j => (pc j).pc⟩) h.inv (Threads.Step.mk ht) hG
  · refine ⟨L, ?_⟩
    rw [hw, Function.update_eq_self_iff.mpr rfl]
    exact h.inv

theorem Unique.move (h : Unique c pc L) (i : ι) {m : Cache} {w : Worker}
    (hinv : Inv m (fun j => (Function.update pc i w j).pc) L') (hsub : ∀ p ∈ L', p ∈ L)
    (hentry : ∀ p, c.Alloc p → m.entry p = c.entry p)
    (hkey : ∀ p key, w = ⟨.link p, some key⟩ → (m.entry p).key = key)
    (hfresh : ∀ key, w.missed = some key → ∀ p ∈ L, (c.entry p).key.isMatch key = false) :
    Unique m (Function.update pc i w) L' := by
  have hsame : ∀ p ∈ L', m.entry p = c.entry p := fun p hp =>
    hentry p (h.inv.repr.alloc_mem (hsub p hp))
  refine ⟨hinv, ?_, ?_, ?_⟩
  · intro j p key hj
    by_cases hji : j = i
    · rw [hji, Function.update_self] at hj
      exact hkey p key hj
    · rw [Function.update_of_ne hji] at hj
      have hown := h.inv.owned j p (by rw [hj]; rfl)
      rw [hentry p hown.1]
      exact h.key j p key hj
  · intro j key hj p hp
    rw [hsame p hp]
    by_cases hji : j = i
    · rw [hji, Function.update_self] at hj
      exact hfresh key hj p (hsub p hp)
    · rw [Function.update_of_ne hji] at hj
      exact h.fresh j key hj p (hsub p hp)
  · intro p hp q hq hpq
    rw [hsame p hp, hsame q hq]
    exact h.distinct p (hsub p hp) q (hsub q hq) hpq

theorem Unique.append (h : Unique c pc L) (i : ι) {m : Cache} {w : Worker} {p : Ptr} {key : Key}
    (hinv : Inv m (fun j => (Function.update pc i w j).pc) (L ++ [p])) (hentry : m.entry = c.entry)
    (hpc : ∀ q key', w ≠ ⟨.link q, some key'⟩) (hmissed : w.missed = none)
    (hkey : (c.entry p).key = key) (hfresh : ∀ q ∈ L, (c.entry q).key.isMatch key = false)
    (hothers : ∀ j key', j ≠ i → (pc j).missed = some key' → key'.isMatch key = false) :
    Unique m (Function.update pc i w) (L ++ [p]) := by
  refine ⟨hinv, ?_, ?_, ?_⟩
  · intro j q key' hj
    by_cases hji : j = i
    · rw [hji, Function.update_self] at hj
      exact absurd hj (hpc q key')
    · rw [Function.update_of_ne hji] at hj
      rw [hentry]
      exact h.key j q key' hj
  · intro j key' hj q hq
    by_cases hji : j = i
    · rw [hji, Function.update_self, hmissed] at hj
      cases hj
    · rw [Function.update_of_ne hji] at hj
      rw [hentry]
      rcases List.mem_append.mp hq with hq | hq
      · exact h.fresh j key' hj q hq
      · rw [List.mem_singleton.mp hq, hkey]
        exact Key.isMatch_false_symm (hothers j key' hji hj)
  · intro q hq r hr hqr
    rw [hentry]
    rcases List.mem_append.mp hq with hq | hq <;> rcases List.mem_append.mp hr with hr | hr
    · exact h.distinct q hq r hr hqr
    · rw [List.mem_singleton.mp hr, hkey]
      exact hfresh q hq
    · rw [List.mem_singleton.mp hq, hkey]
      exact Key.isMatch_false_symm (hfresh r hr)
    · exact absurd ((List.mem_singleton.mp hq).trans (List.mem_singleton.mp hr).symm) hqr

omit [DecidableEq ι] in
theorem inner_step (hI : Inv c (fun i => (pc i).pc) L) {i : ι} {a a' : Pc} {e : Ev} {m : Cache}
    (hi : (pc i).pc = a) (ha : a.inner = true) (hs : TStep c a e m a') (hR' : m.Repr L') :
    (∀ p ∈ L', p ∈ L) ∧ m.entry = c.entry ∧ ∀ p, a' ≠ .link p := by
  have hR := hI.repr
  cases hs with
  | callIsCached | miss | hit | callAddCache | alloc | link => cases ha
  | promoteCheck | copyOut | linkCheck | ifOver | ifFits | whileOver | whileFits | unlinkCheck =>
    obtain rfl := hR'.unique hR
    exact ⟨fun p hp => hp, rfl, nofun⟩
  | promote _ key p hup =>
    obtain ⟨ps, qs, rfl⟩ := List.append_of_mem (hI.found i key p hi)
    obtain ⟨c', hup', hR'', hS, -, -⟩ := hR.updateSec rfl
    cases hup.symm.trans hup'
    obtain rfl := hR'.unique hR''
    refine ⟨?_, hS.entry, nofun⟩
    exact fun q hq => (Lru.perm_touch p ps qs).mem_iff.mp hq
  | unlink _ del hdeq hdel =>
    obtain ⟨ps, rfl, hR'', hS⟩ := hR.dequeueSec_some hdeq hdel
    obtain rfl := hR'.unique hR''
    exact ⟨fun q hq => List.mem_cons_of_mem _ hq, hS.entry, nofun⟩
  | unlinkEmpty _ hdeq =>
    obtain ⟨rfl, rfl⟩ := hR.dequeueSec_null hdeq
    obtain rfl := hR'.unique hR
    exact ⟨fun p hp => hp, rfl, nofun⟩
  | release _ del hfree =>
    obtain ⟨_, -, hs⟩ := bind_ok_iff.mp hfree
    cases hs
    obtain rfl := hR'.list.unique hR.list
    exact ⟨fun p hp => hp, rfl, nofun⟩

/-- **Every step keeps the invariant**, if it meets the condition. -/
theorem unique_step {s s' : Workers ι} {b : ι × Ev} (h : Unique s.mem s.pc L)
    (hs : Threads.Step WStep s b s') (hG : Alone s b) : ∃ L', Unique s'.mem s'.pc L' := by
  obtain ⟨hs⟩ := hs
  rename_i i e m w
  obtain ⟨L', hinv⟩ := h.inv_step hs hG.1
  refine ⟨L', ?_⟩
  have hR := h.inv.repr
  have hR' := hinv.repr
  simp only
  generalize hp : s.pc i = w₀ at hs
  cases hs with
  | lookup ht =>
    cases ht
    obtain rfl := hR'.unique hR
    exact h.move i hinv (fun _ hp => hp) (fun _ _ => rfl) nofun nofun
  | tooLong =>
    obtain rfl := hR'.unique hR
    exact h.move i hinv (fun _ hp => hp) (fun _ _ => rfl) nofun nofun
  | hit ht =>
    cases ht
    obtain rfl := hR'.unique hR
    exact h.move i hinv (fun _ hp => hp) (fun _ _ => rfl) nofun nofun
  | @miss _ _ key ht =>
    cases ht with
    | miss _ fuel hfind =>
      obtain rfl := hR'.unique hR
      have hnone := (hR.findSec_ok hfind).symm
      refine h.move i hinv (fun _ hp => hp) (fun _ _ => rfl) nofun ?_
      intro key' hk p hp
      cases hk
      have := List.find?_eq_none.mp hnone p (List.mem_reverse.mpr hp)
      simpa using this
  | @store _ _ key _ _ ht =>
    cases ht
    obtain rfl := hR'.unique hR
    refine h.move i hinv (fun _ hp => hp) (fun _ _ => rfl) nofun ?_
    intro key' hk
    cases hk
    exact h.fresh i key (by rw [hp])
  | @alloc _ _ key payload bytesize p ht =>
    cases ht with
    | alloc _ _ _ _ _ junk hp0 hfree hnew =>
      obtain ⟨hR'', -, -, -, -, hentry⟩ := hR.newNode hfree hnew
      obtain rfl := hR'.unique hR''
      refine h.move i hinv (fun _ hp => hp) ?_ ?_ ?_
      · intro q hq
        have hqp : q ≠ p := by
          rintro rfl
          exact absurd hq.2 (by simp [hfree])
        rw [hentry, Function.update_of_ne hqp]
      · rintro q key' ⟨⟩
        rw [hentry, Function.update_self]
      · intro key' hk
        cases hk
        exact h.fresh i key (by rw [hp])
  | @link _ _ key p ht =>
    cases ht with
    | link _ _ hsec =>
      have hown := h.inv.owned i p (by rw [hp]; rfl)
      obtain ⟨hR'', hS⟩ := hR.enqueueSec hown.1 hown.2 hsec
      obtain rfl := hR'.unique hR''
      exact h.append i hinv hS.entry (by simp) rfl (h.key i p key hp) (h.fresh i key (by rw [hp]))
        (hG.2 p key hp)
  | inner ha ht =>
    obtain ⟨hsub, hentry, -⟩ := inner_step h.inv (by rw [hp]) ha ht hR'
    exact h.move i hinv hsub (fun p _ => by rw [hentry]) nofun nofun

/-- **At most one copy of a resource** is in the queue, in every state of a run in which no worker links
in a node for a key that another one has missed and not yet linked in, and no `dequeue` takes out a node
that a worker has found and not yet moved. -/
theorem one_copy {c₀ : Cache} (h₀ : IsInit c₀) {tr : List (ι × Ev)} {s : Workers ι}
    (h : Lts.Path (Lts.Guarded (Threads.Step WStep) Alone) (workers c₀) tr s) :
    ∃ L, s.mem.Repr L ∧
      ∀ p ∈ L, ∀ q ∈ L, p ≠ q → (s.mem.entry p).key.isMatch (s.mem.entry q).key = false := by
  have hinv : ∃ L, Unique s.mem s.pc L :=
    Lts.Path.invariant_state (fun s => ∃ L, Unique s.mem s.pc L) ⟨[], unique_init h₀⟩
      (fun _ _ _ ⟨_, hU⟩ hs => unique_step hU hs.1 hs.2) h
  obtain ⟨L, hU⟩ := hinv
  exact ⟨L, hU.inv.repr, hU.distinct⟩

/-! ## Runs -/

/-- A step of one worker that takes out no node and links in none but for `key`. -/
def LinksFor (key : Key) (x : Cache × Worker) (e : Ev) : Prop :=
  e = .tau ∧ ∀ p key', x.2 = ⟨.link p, some key'⟩ → key' = key

theorem solo_missed (h : c.Repr L) (key : Key)
    (hnone : (L.reverse.find? fun q => (c.entry q).key.isMatch key) = none) :
    Lts.Path (Lts.Guarded (Threads.Solo WStep) (LinksFor key)) (c, ⟨.idle, none⟩) [.tau, .tau]
      (c, ⟨.idle, some key⟩) := by
  have hmiss : TStep c (.find key) .tau c .idle :=
    .miss c key (L.length + 1) (by rw [h.findSec_eq key (Nat.lt_succ_self _), hnone])
  have hcall : Lts.Guarded (Threads.Solo WStep) (LinksFor key) (c, ⟨.idle, none⟩) .tau
      (c, ⟨.find key, none⟩) :=
    ⟨.mk (.lookup (.callIsCached c key)), rfl, by rintro _ _ ⟨⟩⟩
  exact (Lts.Path.single hcall).snoc ⟨.mk (.miss hmiss), rfl, by rintro _ _ ⟨⟩⟩

theorem solo_stored (h : c.Repr L) {p : Ptr} (hp : p ≠ 0) (hfree : c.live p = false) (key : Key)
    {s : List UInt8} (hs : 0 ∉ s) :
    ∃ c', Lts.Path (Lts.Guarded (Threads.Solo WStep) (LinksFor key)) (c, ⟨.idle, some key⟩)
      [.tau, .tau, .tau] (c', ⟨.linkCheck, none⟩) ∧ Added c L p key s c' := by
  obtain ⟨c₁, c', hnew, -, hlink, hA⟩ := exists_added h hp hfree key hs
  have hcall : Lts.Guarded (Threads.Solo WStep) (LinksFor key) (c, ⟨.idle, some key⟩) .tau
      (c, ⟨.alloc key (s ++ [0]) (s.length + 1), some key⟩) :=
    ⟨.mk (.store (.callAddCache c key (s ++ [0]) (s.length + 1))), rfl, by rintro _ _ ⟨⟩⟩
  have halloc : Lts.Guarded (Threads.Solo WStep) (LinksFor key)
      (c, ⟨.alloc key (s ++ [0]) (s.length + 1), some key⟩) .tau (c₁, ⟨.link p, some key⟩) :=
    ⟨.mk (.alloc (.alloc _ _ _ _ _ p [] hp hfree hnew)), rfl, by rintro _ _ ⟨⟩⟩
  exact ⟨c', ((Lts.Path.single hcall).snoc halloc).snoc
    ⟨.mk (.link (.link _ _ p hlink)), rfl, by rintro _ _ ⟨⟩; rfl⟩, hA⟩

omit [DecidableEq ι] in
theorem alone_of_linksFor {i : ι} {key : Key} [DecidableEq ι]
    (hfresh : ∀ j key', j ≠ i → (pc j).missed = some key' → key'.isMatch key = false) {m : Cache}
    {w : Worker} {e : Ev} (h : LinksFor key (m, w) e) : Alone ⟨m, Function.update pc i w⟩ (i, e) := by
  obtain ⟨rfl, hlink⟩ := h
  refine ⟨by rintro del ⟨⟩, fun p key' hp j key'' hj hm => ?_⟩
  simp only [Function.update_self] at hp
  simp only [Function.update_of_ne hj] at hm
  rw [hlink p key' hp]
  exact hfresh j key'' hj hm

/-- Two workers miss two keys, one after the other, and then store a node each. -/
theorem one_copy_stored :
    ∃ (tr : List (Fin 2 × Ev)) (s : Workers (Fin 2)) (L : List Ptr),
      Lts.Path (Lts.Guarded (Threads.Step WStep) Alone) (workers emptyCache) tr s ∧
        s.pc 0 = ⟨.linkCheck, none⟩ ∧ s.pc 1 = ⟨.linkCheck, none⟩ ∧ s.mem.Repr L ∧ 3 ∈ L ∧ 4 ∈ L ∧
        ∀ p ∈ L, ∀ q ∈ L, p ≠ q → (s.mem.entry p).key.isMatch (s.mem.entry q).key = false := by
  have hmiss := solo_missed isInit_emptyCache.repr ⟨[104], [56, 48], [47]⟩ rfl
  have hmiss' := solo_missed isInit_emptyCache.repr ⟨[104], [56, 48], [98]⟩ rfl
  obtain ⟨c, hstore, hA⟩ := solo_stored isInit_emptyCache.repr (p := 3) (by decide) (by decide)
    ⟨[104], [56, 48], [47]⟩ (s := [97]) (by decide)
  obtain ⟨c', hstore', hA'⟩ := solo_stored hA.repr (p := 4) (by decide) (by rw [hA.live]; rfl)
    ⟨[104], [56, 48], [98]⟩ (s := [98]) (by decide)
  have h₀ := Threads.path_solo_guarded (G := Alone) hmiss (fun _ => ⟨.idle, none⟩) (0 : Fin 2) rfl
    fun _ _ _ => alone_of_linksFor (by rintro _ _ - ⟨⟩)
  have h₁ := h₀.append (Threads.path_solo_guarded hmiss' _ (1 : Fin 2) rfl
    fun _ _ _ => alone_of_linksFor (by
      intro j key' hj hm
      obtain rfl : j = 0 := by omega
      cases hm
      decide))
  have h₂ := h₁.append (Threads.path_solo_guarded hstore _ (0 : Fin 2) rfl
    fun _ _ _ => alone_of_linksFor (by
      intro j key' hj hm
      obtain rfl : j = 1 := by omega
      cases hm
      decide))
  have h₃ := h₂.append (Threads.path_solo_guarded hstore' _ (1 : Fin 2) rfl
    fun _ _ _ => alone_of_linksFor (by
      intro j key' hj hm
      obtain rfl : j = 0 := by omega
      cases hm))
  obtain ⟨L, hR, hL⟩ := one_copy isInit_emptyCache h₃
  obtain rfl := hA'.repr.unique hR
  exact ⟨_, _, _, h₃, rfl, rfl, hR, by simp, by simp, hL⟩

/-- Two workers miss the same key, and both store a node for it. -/
theorem not_one_copy :
    ∃ (tr : List (Fin 2 × Ev)) (s : Workers (Fin 2)) (L : List Ptr),
      Lts.Path (Threads.Step WStep) (workers emptyCache) tr s ∧ s.mem.Repr L ∧
        ∃ p ∈ L, ∃ q ∈ L, p ≠ q ∧ (s.mem.entry p).key.isMatch (s.mem.entry q).key = true := by
  have hmiss := solo_missed isInit_emptyCache.repr ⟨[104], [56, 48], [47]⟩ rfl
  obtain ⟨c, hstore, hA⟩ := solo_stored isInit_emptyCache.repr (p := 3) (by decide) (by decide)
    ⟨[104], [56, 48], [47]⟩ (s := [97]) (by decide)
  obtain ⟨c', hstore', hA'⟩ := solo_stored hA.repr (p := 4) (by decide) (by rw [hA.live]; rfl)
    ⟨[104], [56, 48], [47]⟩ (s := [98]) (by decide)
  have hsolo : ∀ {key : Key} {x y : Cache × Worker} {es : List Ev},
      Lts.Path (Lts.Guarded (Threads.Solo WStep) (LinksFor key)) x es y →
        Lts.Path (Threads.Solo WStep) x es y := fun h => h.mono fun _ _ _ hs => hs.1
  have h₀ := Threads.path_solo (hsolo hmiss) (fun _ => ⟨.idle, none⟩) (0 : Fin 2) rfl
  have h₁ := h₀.append (Threads.path_solo (hsolo hmiss) _ (1 : Fin 2) rfl)
  have h₂ := h₁.append (Threads.path_solo (hsolo hstore) _ (0 : Fin 2) rfl)
  have h₃ := h₂.append (Threads.path_solo (hsolo hstore') _ (1 : Fin 2) rfl)
  refine ⟨_, _, [3, 4], h₃, hA'.repr, 3, by simp, 4, by simp, by decide, ?_⟩
  simp [hA'.entry, hA.entry]

end MiniProxy.Cache
