import MiniProxy.Cache.Alive

/-!
# What a hit copies

Any number of threads store objects and look others up. What a lookup copies is what one call of
`add_cache` was given, for a key that matches, as long as no thread takes out or frees a node between the
read section in which another one finds it and the copy.

* `CallStep`: threads that call `add_cache` for objects with a property;
* `Undisturbed`: a step takes out or frees no node that a thread has found;
* `Stocked`: the nodes hold such objects; `Stocked.move`, `stocked_step`: every step keeps it;
* **`hit_contents`**: so does every copy.
-/

namespace MiniProxy.Cache

open Clib

/-- The steps of a thread whose calls of `add_cache` are for objects with the property `P`. -/
def CallStep (P : Key → List UInt8 → ℕ → Prop) (c : Cache) (a : Pc) (e : Ev) (c' : Cache) (a' : Pc) :
    Prop :=
  TStep c a e c' a' ∧ ∀ key payload bytesize, a' = .alloc key payload bytesize → P key payload bytesize

variable {ι : Type*}

/-- The step takes out or frees no node that a thread has found and will use. -/
def Undisturbed (s : State ι) (a : ι × Ev) : Prop := KeepsFound s a ∧ KeepsHeld s a

theorem undisturbed_of_tau {s : State ι} {a : ι × Ev} (h : a.2 = .tau) : Undisturbed s a := by
  constructor
  · intro del hdel
    rw [h] at hdel
    cases hdel
  · intro del hdel
    rw [h] at hdel
    cases hdel

/-- The entry is what `new_node` makes of an object with the property `P`. -/
def Holding (P : Key → List UInt8 → ℕ → Prop) (e : Entry) : Prop :=
  ∃ key payload bytesize junk, P key payload bytesize ∧ bytesize ≤ payload.length ∧
    e = ⟨key, payload.take bytesize ++ junk, bytesize⟩

theorem Holding.take {P : Key → List UInt8 → ℕ → Prop} {e : Entry} (h : Holding P e) :
    ∃ payload, P e.key payload e.bytesize ∧ e.payload.take e.bytesize = payload.take e.bytesize := by
  obtain ⟨key, payload, bytesize, junk, hP, hle, rfl⟩ := h
  exact ⟨payload, hP, List.take_left' (List.length_take_of_le hle)⟩

/-- The nodes in use, but for `front` and `end`, hold objects with the property `P`, and those that
threads have found are among them. -/
structure Stocked (P : Key → List UInt8 → ℕ → Prop) (c : Cache) (pc : ι → Pc) : Prop where
  nodes : ∀ p, c.live p = true → p ≠ c.front → p ≠ c.endp → Holding P (c.entry p)
  called : ∀ i key payload bytesize, pc i = .alloc key payload bytesize → P key payload bytesize
  found : ∀ i key p, (pc i).held = some (key, p) → p ≠ c.front ∧ p ≠ c.endp

variable {P : Key → List UInt8 → ℕ → Prop} {c c' : Cache} {pc : ι → Pc}

theorem stocked_init (h : IsInit c) : Stocked P c (fun _ : ι => .idle) where
  nodes p hlive hf he := by
    obtain ⟨links, entry, front, endp, -, -, -⟩ := h
    rcases of_decide_eq_true hlive with rfl | rfl
    · exact absurd rfl hf
    · exact absurd rfl he
  called _ _ _ _ h := by cases h
  found _ _ _ h := by cases h

variable [DecidableEq ι]

theorem Stocked.move (h : Stocked P c pc) (i : ι) {m : Cache} {a : Pc} (hf : m.front = c.front)
    (he : m.endp = c.endp)
    (hnodes : ∀ p, m.live p = true → c.live p = true ∧ m.entry p = c.entry p ∨ Holding P (m.entry p))
    (hcalled : ∀ key payload bytesize, a = .alloc key payload bytesize → P key payload bytesize)
    (hfound : ∀ key p, a.held = some (key, p) → (pc i).held = some (key, p) ∨
      p ≠ c.front ∧ p ≠ c.endp) : Stocked P m (Function.update pc i a) where
  nodes p hlive hpf hpe := by
    rcases hnodes p hlive with ⟨hl, hent⟩ | hnew
    · rw [hent]
      exact h.nodes p hl (hf ▸ hpf) (he ▸ hpe)
    · exact hnew
  called j key payload bytesize hj := by
    by_cases hji : j = i
    · rw [hji, Function.update_self] at hj
      exact hcalled _ _ _ hj
    · rw [Function.update_of_ne hji] at hj
      exact h.called j _ _ _ hj
  found j key p hj := by
    rw [hf, he]
    by_cases hji : j = i
    · rw [hji, Function.update_self] at hj
      exact (hfound key p hj).elim (h.found i key p) id
    · rw [Function.update_of_ne hji] at hj
      exact h.found j key p hj

theorem Stocked.same (h : Stocked P c pc) (i : ι) {m : Cache} {a : Pc} (hS : SameNodes c m)
    (hcalled : ∀ key payload bytesize, a = .alloc key payload bytesize → P key payload bytesize)
    (hfound : ∀ key p, a.held = some (key, p) → (pc i).held = some (key, p) ∨
      p ≠ c.front ∧ p ≠ c.endp) : Stocked P m (Function.update pc i a) :=
  h.move i hS.front hS.endp
    (fun p hlive => .inl ⟨by rw [← hS.live]; exact hlive, by rw [hS.entry]⟩) hcalled hfound

theorem Repr.ne_ends {L : List Ptr} {p : Ptr} (h : c.Repr L) (hp : p ∈ L) : p ≠ c.front ∧ p ≠ c.endp := by
  have hnd := (List.nodup_cons.mp h.list.nodup).1
  exact ⟨fun e => hnd (e ▸ List.mem_append_left _ hp), h.list.ne_end (List.mem_cons_of_mem _ hp)⟩

/-- **Every step keeps the objects.** -/
theorem stocked_step {s s' : State ι} {L : List Ptr} {b : ι × Ev} (hI : Inv s.mem s.pc L)
    (h : Stocked P s.mem s.pc) (hs : Threads.Step (CallStep P) s b s') :
    Stocked P s'.mem s'.pc := by
  obtain ⟨⟨hs, hcall⟩⟩ := hs
  rename_i i e m a
  simp only
  generalize hp : s.pc i = a₀ at hs
  cases hs with
  | callIsCached | miss | callAddCache | linkCheck | ifOver | ifFits | whileOver | whileFits
  | copyOut | unlinkCheck => exact h.same i (SameNodes.refl _) hcall (by simp [Pc.held])
  | hit key p fuel hfind =>
    refine h.same i (SameNodes.refl _) hcall fun key' q hq => .inr ?_
    cases hq
    have hmem := List.mem_of_find?_eq_some (hI.repr.findSec_ok hfind).symm
    exact hI.repr.ne_ends (List.mem_reverse.mp hmem)
  | promote _ key p hup =>
    exact h.same i (sameNodes_updateSec hup) hcall fun key' q hq => .inl (by rw [hp]; exact hq)
  | promoteCheck key p fuel hc =>
    exact h.same i (SameNodes.refl _) hcall fun key' q hq => .inl (by rw [hp]; exact hq)
  | link _ p hlink => exact h.same i (sameNodes_enqueueSec hlink) hcall (by simp [Pc.held])
  | unlink _ del hdeq hdel => exact h.same i (sameNodes_dequeueSec hdeq) hcall (by simp [Pc.held])
  | unlinkEmpty _ hdeq => exact h.same i (sameNodes_dequeueSec hdeq) hcall (by simp [Pc.held])
  | alloc _ key payload bytesize p junk hp0 hfree hnew =>
    obtain ⟨hterm, hle, rfl⟩ := newNode_eq_ok.mp hnew
    refine h.move i rfl rfl (fun q hlive => ?_) hcall (by simp [Pc.held])
    by_cases hqp : q = p
    · subst hqp
      right
      simp only [Function.update_self]
      have hlen := length_cstr_lt hterm
      exact ⟨key, payload, bytesize, junk, h.called i _ _ _ hp, by omega, rfl⟩
    · left
      simp only [Function.update_of_ne hqp] at hlive ⊢
      exact ⟨hlive, trivial⟩
  | release _ del hfree =>
    obtain ⟨_, -, hfree⟩ := bind_ok_iff.mp hfree
    cases hfree
    refine h.move i rfl rfl (fun q hlive => .inl ⟨?_, rfl⟩) hcall (by simp [Pc.held])
    by_cases hqd : q = del
    · simp [hqd] at hlive
    · simpa [hqd] using hlive

theorem step_of_call {s s' : State ι} {b : ι × Ev} (hs : Threads.Step (CallStep P) s b s') :
    Step s b s' := by
  obtain ⟨⟨hs, -⟩⟩ := hs
  exact .mk hs

/-- The objects are kept in every run that does not disturb the threads that have found one. -/
theorem path_stocked {c₀ : Cache} (h₀ : IsInit c₀) {tr : List (ι × Ev)} {s : State ι}
    (h : Lts.Path (Lts.Guarded (Threads.Step (CallStep P)) Undisturbed) (init c₀) tr s) :
    (∃ L, Inv s.mem s.pc L) ∧ Held s.mem s.pc ∧ Stocked P s.mem s.pc := by
  refine Lts.Path.invariant_state
    (fun s => (∃ L, Inv s.mem s.pc L) ∧ Held s.mem s.pc ∧ Stocked P s.mem s.pc)
    ⟨⟨[], inv_init h₀⟩, ?_, stocked_init h₀⟩ ?_ h
  · intro i key p hp
    cases hp
  · rintro s b s' ⟨⟨L, hI⟩, hH, hS⟩ ⟨hs, hfound, hheld⟩
    have hs' := step_of_call hs
    exact ⟨inv_step hI hs' hfound, held_step hH hs' hheld, stocked_step hI hS hs⟩

/-- **What a hit copies was stored for a matching key.** Whatever property the objects have for which
threads call `add_cache`, in every interleaving in which no thread takes out or frees a node that
another one has found: a thread that copies has found a node in use whose key matches its own, the key
and the `bytesize` of the node are those of such an object, and so are the `bytesize` bytes of its payload.
They are what is copied, if they fit into the array of the caller. -/
theorem hit_contents {c₀ : Cache} (h₀ : IsInit c₀) {tr : List (ι × Ev)} {s : State ι}
    (h : Lts.Path (Lts.Guarded (Threads.Step (CallStep P)) Undisturbed) (init c₀) tr s) {i : ι}
    {key : Key} {p : Ptr} (hp : s.pc i = .copyOut key p) :
    s.mem.Alloc p ∧ (s.mem.entry p).key.isMatch key = true ∧
      ∃ payload, P (s.mem.entry p).key payload (s.mem.entry p).bytesize ∧
        (s.mem.entry p).payload.take (s.mem.entry p).bytesize =
          payload.take (s.mem.entry p).bytesize ∧
        ((s.mem.entry p).bytesize ≤ maxObjectSize →
          s.mem.copyOut p = .ok (payload.take (s.mem.entry p).bytesize)) := by
  obtain ⟨-, hH, hS⟩ := path_stocked h₀ h
  have hheld : (s.pc i).held = some (key, p) := by rw [hp]; rfl
  obtain ⟨halloc, hmatch⟩ := hH i key p hheld
  obtain ⟨hf, he⟩ := hS.found i key p hheld
  obtain ⟨payload, hP, htake⟩ := (hS.nodes p halloc.2 hf he).take
  refine ⟨halloc, hmatch, payload, hP, htake, fun hle => ?_⟩
  rw [Cache.copyOut, deref_of halloc, ok_bind, check_of hle, ← htake]
  rfl

/-- The object of one byte and its NUL. -/
def IsByte (key : Key) (payload : List UInt8) (bytesize : ℕ) : Prop :=
  key = ⟨[104], [56, 48], [47]⟩ ∧ payload = [97, 0] ∧ bytesize = 2

/-- One thread stores this object, and another one has found it. -/
theorem hit_contents_byte : ∃ (tr : List (Fin 2 × Ev)) (s : State (Fin 2)) (p : Ptr),
    Lts.Path (Lts.Guarded (Threads.Step (CallStep IsByte)) Undisturbed) (init emptyCache) tr s ∧
      s.pc 1 = .copyOut ⟨[104], [56, 48], [47]⟩ p ∧ s.mem.copyOut p = .ok [97, 0] := by
  obtain ⟨c₁, c₂, hnew, -, hlink, hA⟩ := exists_added isInit_emptyCache.repr (p := 3) (by decide)
    (by decide) ⟨[104], [56, 48], [47]⟩ (s := [97]) (by decide)
  have hload : c₂.cacheLoad = 1 := hA.load
  have hcall : CallStep IsByte emptyCache .idle .tau emptyCache
      (.alloc ⟨[104], [56, 48], [47]⟩ [97, 0] 2) := by
    refine ⟨.callAddCache _ _ _ _, fun key payload bytesize h => ?_⟩
    cases h
    exact ⟨rfl, rfl, rfl⟩
  have hadd : Lts.Path (Threads.Solo (CallStep IsByte)) (emptyCache, .idle)
      [.tau, .tau, .tau, .tau, .tau] (c₂, .idle) :=
    (((((Lts.Path.nil _).snoc (.mk hcall)).snoc
      (.mk ⟨.alloc _ _ _ _ _ 3 [] (by decide) (by decide) hnew, by rintro _ _ _ ⟨⟩⟩)).snoc
      (.mk ⟨.link _ _ 3 hlink, by rintro _ _ _ ⟨⟩⟩)).snoc
      (.mk ⟨.linkCheck _ 2 (hA.repr.cacheCheck_eq (by decide)), by rintro _ _ _ ⟨⟩⟩)).snoc
      (.mk ⟨.ifFits _ (by rw [hload]; decide), by rintro _ _ _ ⟨⟩⟩)
  have hfind : c₂.findSec 2 ⟨[104], [56, 48], [47]⟩ = .ok (some 3) := by
    rw [hA.repr.findSec_eq _ (by decide)]
    simp [hA.entry, Key.isMatch]
  have hL : [] ++ [3] = ([] ++ 3 :: [] : List Ptr) := rfl
  obtain ⟨c₃, hup, hR, -, -, -⟩ := hA.repr.updateSec hL
  have hcopy : Lts.Path (Threads.Solo (CallStep IsByte)) (c₂, .idle) [.tau, .tau, .tau, .tau]
      (c₃, .copyOut ⟨[104], [56, 48], [47]⟩ 3) :=
    ((((Lts.Path.nil _).snoc (.mk ⟨.callIsCached _ _, by rintro _ _ _ ⟨⟩⟩)).snoc
      (.mk ⟨.hit _ _ 3 2 hfind, by rintro _ _ _ ⟨⟩⟩)).snoc
      (.mk ⟨.promote _ _ _ 3 hup, by rintro _ _ _ ⟨⟩⟩)).snoc
      (.mk ⟨.promoteCheck _ _ 3 2 (hR.cacheCheck_eq (by decide)), by rintro _ _ _ ⟨⟩⟩)
  have hrun := ((Threads.path_solo hadd (fun _ => .idle) (0 : Fin 2) rfl).append
    (Threads.path_solo hcopy _ (1 : Fin 2) rfl)).guarded (G := Undisturbed) fun s a ha => by
      refine undisturbed_of_tau ?_
      simp only [List.map_cons, List.map_nil, List.mem_append, List.mem_cons, List.not_mem_nil,
        or_false, or_self] at ha
      rcases ha with rfl | rfl <;> rfl
  obtain ⟨-, -, payload, ⟨-, rfl, hsize⟩, -, hbytes⟩ := hit_contents isInit_emptyCache hrun (i := 1) rfl
  rw [hsize] at hbytes
  exact ⟨_, _, 3, hrun, rfl, hbytes (by decide)⟩

end MiniProxy.Cache
