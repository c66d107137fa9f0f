import MiniProxy.Cache.Reading
import MiniProxy.Cache.Lifetime
import MiniProxy.Cache.Alive

/-!
# The statements of the cache refine its sections

A run of the code, statement by statement, goes along with a run in which a section is one step. The
section happens at its last statement, or at the `P(&mutex)` of `post_read`.

* `write_step`, **`commit_step`**: a statement of a write section, and its last one;
* `Agrees`: a state of the code and one of the sections; `Agrees.silent`, `Agrees.commit`: steps of both;
* `commits`, `Pulls`, `Advances`: which steps complete a section, and what may go wrong;
* **`access_step`**, **`test_step`**, **`lock_act_step`**: the statements.
-/

namespace MiniProxy.CacheCode

open Clib Code
open Cache (Repr SameNodes Inv Held InRange)

variable {c d : Cache} {x y : Vars} {L : List Ptr} {m m' : Point} {sec : Sec} {k : ℕ} {a : Access}

/-! ## Write sections -/

theorem relink_vars (a : Access) (c : Cache) (x : Vars) :
    (a.relink c x).2 = { x with del := (a.relink c x).2.del } := by
  cases a <;> rfl

theorem exists_write {ι : Type*} {pc : ι → Cache.Pc} (hI : Inv c pc L) {j : ι}
    (hpc : pc j = sec.pc x) (hm : (Point.write sec k).Holds c d L x)
    (ha : sec.accesses[k]? = some a) :
    ∃ del z, a.eval 0 [] d x = .ok z ∧
      run (sec.accesses.take (k + 1)) (c, { x with del := del }) = .ok z := by
  obtain ⟨hready, hk, del, hrun⟩ := hm
  obtain ⟨z, hz⟩ := exists_run (x := { x with del := del }) hI (hpc.trans (by cases sec <;> rfl))
    (show sec.Ready _ L { x with del := del } by cases sec <;> exact hready)
  have htake : sec.accesses.take (k + 1) = sec.accesses.take k ++ [a] := by
    rw [List.take_add_one, ha]
    rfl
  rw [← List.take_append_drop (k + 1) sec.accesses, run_append] at hz
  obtain ⟨w, hw, -⟩ := bind_ok_iff.mp hz
  refine ⟨del, w, ?_, hw⟩
  rw [htake, run_append, hrun] at hw
  exact (run_single a (d, x)).symm.trans hw

/-- **A statement of a write section before the last one** changes links and counters only. -/
theorem write_step {ι : Type*} {pc : ι → Cache.Pc} (hI : Inv c pc L) {j : ι}
    (hpc : pc j = sec.pc x) (hm : (Point.write sec k).Holds c d L x)
    (ha : sec.accesses[k]? = some a) (hk : k + 1 < sec.accesses.length) :
    ∃ d' y, a.eval 0 [] d x = .ok (d', y) ∧ (Point.write sec (k + 1)).Holds c d' L y ∧
      sec.pc y = sec.pc x ∧ SameNodes d d' ∧ d'.cacheLoad = d.cacheLoad := by
  obtain ⟨del, ⟨d', y⟩, heval, hrun⟩ := exists_write hI hpc hm ha
  have hlinks : a.links = true := links_of_mem_take hk (List.mem_of_getElem? (i := k) (by
    rw [List.getElem?_take_of_lt (Nat.lt_succ_self k), ha]))
  have hz := relink_eq hlinks heval
  obtain ⟨hS, hload⟩ := sameNodes_relink a d x
  have hvars := relink_vars a d x
  rw [← hz] at hS hload hvars
  obtain ⟨v, rfl⟩ : ∃ v, y = { x with del := v } := ⟨y.del, hvars⟩
  exact ⟨d', _, heval, ⟨by cases sec <;> exact hm.1, hk, del, hrun⟩, by cases sec <;> rfl, hS, hload⟩

/-- **The last statement of a write section** completes the section. -/
theorem commit_step {ι : Type*} {pc : ι → Cache.Pc} (hI : Inv c pc L) {j : ι}
    (hpc : pc j = sec.pc x) (hm : (Point.write sec k).Holds c d L x)
    (ha : sec.accesses[k]? = some a) (hk : k + 1 = sec.accesses.length) :
    ∃ ev d' y, a.eval 0 [] d x = .ok (d', y) ∧ Cache.TStep c (sec.pc x) ev d' (sec.checkPc y) ∧
      SameNodes c d' := by
  obtain ⟨del, ⟨d', y⟩, heval, hrun⟩ := exists_write hI hpc hm ha
  have hready := hm.1
  rw [hk, List.take_length] at hrun
  cases sec with
  | link =>
    rw [run_link] at hrun
    obtain ⟨c', hc', hrun⟩ := bind_ok_iff.mp hrun
    cases hrun
    exact ⟨.tau, _, _, heval, .link _ _ _ hc', Cache.sameNodes_enqueueSec hc'⟩
  | unlink =>
    obtain ⟨p, ps, rfl⟩ := List.exists_cons_of_ne_nil hready
    rw [run_unlink _ _ (by rw [hI.repr.isEmpty]; rfl)] at hrun
    obtain ⟨⟨p', c'⟩, hc', hrun⟩ := bind_ok_iff.mp hrun
    cases hrun
    obtain ⟨c'', hc'', -, -⟩ := hI.repr.dequeueSec_cons rfl
    cases hc'.symm.trans hc''
    have hp : p ≠ 0 := (hI.repr.alloc_mem List.mem_cons_self).1
    exact ⟨.dequeue p, _, _, heval, .unlink _ _ _ hc' hp, Cache.sameNodes_dequeueSec hc'⟩
  | promote =>
    rw [run_promote] at hrun
    obtain ⟨c', hc', hrun⟩ := bind_ok_iff.mp hrun
    cases hrun
    rw [show x.tomove = x.p from hready] at hc'
    exact ⟨.tau, _, _, heval, .promote _ _ _ _ hc', Cache.sameNodes_updateSec hc'⟩

/-! ## Threads -/

section Threads

variable {ι : Type*}

/-- The node at `p` fits into the array of a caller of `is_cached`. -/
structure Small (c : Cache) (p : Ptr) : Prop where
  bytesize : (c.entry p).bytesize ≤ maxObjectSize
  size : c.size p < maxObjectSize

/-- The state `s` of the code and the state `t` of the sections agree, where the threads are at the
points `pt` and the queue is `L`. While no write section is unfinished, the heap is the same. -/
structure Agrees (s : State ι Cache Vars) (t : Cache.State ι) (pt : ι → Mode) (L : List Ptr) :
    Prop where
  pc : ∀ i, t.pc i = (pt i).1.pc (s.pc i).vars
  holds : ∀ i, (pt i).1.Holds t.mem s.mem.data L (s.pc i).vars
  same : SameNodes t.mem s.mem.data
  load : s.mem.data.cacheLoad = t.mem.cacheLoad
  quiet : (∀ i, (pt i).1.inWrite = false) → s.mem.data = t.mem
  inv : Inv t.mem t.pc L
  held : Held t.mem t.pc
  small : ∀ p, t.mem.live p = true → Small t.mem p

variable [DecidableEq ι]

/-- A step of thread `i` takes out or frees a node that another thread has found. -/
def Pulls (t : Cache.State ι) (i : ι) : Prop :=
  ∃ e t', Cache.Step t (i, e) t' ∧ ¬ (Cache.KeepsFound t (i, e) ∧ Cache.KeepsHeld t (i, e))

variable {s : State ι Cache Vars} {t : Cache.State ι} {pt : ι → Mode} {i : ι} {lk : RwLock.Lock}
  {th : Thread Vars} {z : Mode}

theorem Agrees.silent (h : Agrees s t pt L) (hpc : z.1.pc th.vars = (pt i).1.pc (s.pc i).vars)
    (hholds : z.1.Holds t.mem d L th.vars) (hnodes : SameNodes s.mem.data d)
    (hload : d.cacheLoad = s.mem.data.cacheLoad)
    (hd : d = s.mem.data ∧ (z.1.inWrite = false → (pt i).1.inWrite = false) ∨
      z.1.inWrite = true ∧ ∀ j, j ≠ i → (pt j).1.inRead = false ∧ (pt j).1.inWrite = false) :
    Agrees ⟨⟨lk, d⟩, Function.update s.pc i th⟩ t (Function.update pt i z) L where
  pc j := by
    by_cases hj : j = i
    · subst hj
      simpa [hpc] using h.pc j
    · simpa [hj] using h.pc j
  holds j := by
    by_cases hj : j = i
    · subst hj
      simpa using hholds
    · have hold := h.holds j
      rcases hd with ⟨rfl, -⟩ | ⟨-, hout⟩
      · simpa [hj] using hold
      · simpa [hj] using hold.outside (hout j hj).1 (hout j hj).2 fun _ => rfl
  same := h.same.trans hnodes
  load := hload.trans h.load
  quiet hq := by
    have hz : z.1.inWrite = false := by simpa using hq i
    rcases hd with ⟨rfl, hi⟩ | ⟨hw, -⟩
    · refine h.quiet fun j => ?_
      by_cases hj : j = i
      · subst hj
        exact hi hz
      · simpa [hj] using hq j
    · rw [hz] at hw
      cases hw
  inv := h.inv
  held := h.held
  small := h.small

theorem Agrees.commit (h : Agrees s t pt L) {e : Cache.Ev} {a : Cache.Pc}
    (hstep : Cache.TStep t.mem (t.pc i) e c a) (ha : a = z.1.pc th.vars)
    (hholds : ∀ L', Inv c (Function.update t.pc i a) L' → z.1.Holds c d L' th.vars ∧
      ∀ j, j ≠ i → (pt j).1.Holds c d L' (s.pc j).vars)
    (hnodes : SameNodes c d) (hload : d.cacheLoad = c.cacheLoad)
    (hquiet : z.1.inWrite = false → (∀ j, j ≠ i → (pt j).1.inWrite = false) → d = c)
    (hsmall : ∀ p, c.live p = true → Small c p) :
    Pulls t i ∨ ∃ t' L', Cache.Step t (i, e) t' ∧
      Agrees ⟨⟨lk, d⟩, Function.update s.pc i th⟩ t' (Function.update pt i z) L' := by
  have hs : Cache.Step t (i, e) ⟨c, Function.update t.pc i a⟩ := Threads.Step.mk hstep
  by_cases hK : Cache.KeepsFound t (i, e) ∧ Cache.KeepsHeld t (i, e)
  · obtain ⟨L', hI⟩ := Cache.inv_step h.inv hs hK.1
    have hH := Cache.held_step h.held hs hK.2
    obtain ⟨hi, hothers⟩ := hholds L' hI
    refine .inr ⟨_, L', hs, ?_, ?_, hnodes, hload, ?_, hI, hH, hsmall⟩
    · intro j
      by_cases hj : j = i
      · subst hj
        simpa using ha
      · simpa [hj] using h.pc j
    · intro j
      by_cases hj : j = i
      · subst hj
        simpa using hi
      · simpa [hj] using hothers j hj
    · intro hq
      exact hquiet (by simpa using hq i) fun j hj => by simpa [hj] using hq j
  · exact .inl ⟨e, _, hs, hK⟩

theorem Agrees.commit_read (h : Agrees s t pt L) {a : Cache.Pc}
    (hstep : Cache.TStep t.mem (t.pc i) .tau t.mem a) (ha : a = z.1.pc th.vars)
    (hholds : z.1.Holds t.mem s.mem.data L th.vars)
    (hw : (pt i).1.inWrite = false) :
    Pulls t i ∨ ∃ t' L', Cache.Step t (i, .tau) t' ∧
      Agrees ⟨⟨lk, s.mem.data⟩, Function.update s.pc i th⟩ t' (Function.update pt i z) L' := by
  refine h.commit hstep ha (fun L' hI => ?_) h.same h.load (fun _ hothers => h.quiet fun j => ?_)
    h.small
  · obtain rfl := h.inv.repr.unique hI.repr
    exact ⟨hholds, fun j _ => h.holds j⟩
  · by_cases hj : j = i
    · rw [hj]
      exact hw
    · exact hothers j hj

theorem Agrees.commit_write (h : Agrees s t pt L) {e : Cache.Ev} {a : Cache.Pc}
    (hstep : Cache.TStep t.mem (t.pc i) e d a) (ha : a = z.1.pc th.vars)
    (hholds : ∀ L', z.1.Holds d d L' th.vars) (hS : SameNodes t.mem d)
    (hout : ∀ j, j ≠ i → (pt j).1.inRead = false ∧ (pt j).1.inWrite = false) :
    Pulls t i ∨ ∃ t' L', Cache.Step t (i, e) t' ∧
      Agrees ⟨⟨lk, d⟩, Function.update s.pc i th⟩ t' (Function.update pt i z) L' := by
  refine h.commit hstep ha (fun L' _ => ⟨hholds L', fun j hj => ?_⟩) (SameNodes.refl d) rfl
    (fun _ _ => rfl) fun p hp => ?_
  · exact (h.holds j).outside (hout j hj).1 (hout j hj).2 fun _ => by rw [hS.entry]
  · rw [hS.live] at hp
    exact ⟨by rw [hS.entry]; exact (h.small p hp).bytesize, by rw [hS.size]; exact (h.small p hp).size⟩

theorem Agrees.commit_nodes (h : Agrees s t pt L) {e : Cache.Ev} {a : Cache.Pc} {l : Ptr → Bool}
    {e' : Ptr → Entry} (hstep : Cache.TStep t.mem (t.pc i) e (withNodes t.mem l e') a)
    (ha : a = z.1.pc th.vars) (hR : (withNodes t.mem l e').Repr L)
    (hholds : z.1.Holds (withNodes t.mem l e') (withNodes s.mem.data l e') L th.vars)
    (hL : ∀ q ∈ L, e' q = t.mem.entry q)
    (hown : ∀ j q, j ≠ i → (t.pc j).owns = some q → e' q = t.mem.entry q)
    (hw : (pt i).1.inWrite = false)
    (hsmall : ∀ p, l p = true → Small (withNodes t.mem l e') p) :
    Pulls t i ∨ ∃ t' L', Cache.Step t (i, e) t' ∧
      Agrees ⟨⟨lk, withNodes s.mem.data l e'⟩, Function.update s.pc i th⟩ t' (Function.update pt i z)
        L' := by
  refine h.commit hstep ha (fun L' hI => ?_) ⟨rfl, rfl, h.same.front, h.same.endp⟩ h.load
    (fun _ hothers => ?_) hsmall
  · obtain rfl := hR.unique hI.repr
    refine ⟨hholds, fun j hj => ?_⟩
    have hpc : Function.update t.pc i a j = (pt j).1.pc (s.pc j).vars := by
      rw [Function.update_of_ne hj]
      exact h.pc j
    exact (h.holds j).beside hI hpc hL fun hlink => hown j _ hj (by rw [h.pc j, hlink]; rfl)
  · rw [h.quiet fun j => ?_]
    by_cases hj : j = i
    · rw [hj]
      exact hw
    · exact hothers j hj

/-! ## Steps -/

/-- The statements that complete a step of the sections. -/
def Access.commits : Access → Bool
  | .loadAdd | .loadSub | .tomovePrevNextTomove | .copyOut | .newNode | .freeDel => true
  | _ => false

/-- The steps of the code that complete a step of the sections. -/
def commits : Label Act Cond Fn → Bool
  | .start _ | .act .postRead (.P .mutex) | .test (.queue .overLoad) _ => true
  | .act _ (.access a) => a.commits
  | _ => false

theorem commits_access (f : Fn) (a : Access) : commits (.act f (.access a)) = a.commits := by
  cases f <;> rfl

/-- A step of thread `i` that completes a step of the sections if `b` says so, and leaves them where they
are otherwise; unless it pulls a node out from under another thread. -/
def Advances (t : Cache.State ι) (i : ι) (b : Bool) (s' : State ι Cache Vars) (pt' : ι → Mode) :
    Prop :=
  (b = true ∧ Pulls t i) ∨ (b = false ∧ ∃ L', Agrees s' t pt' L') ∨
    (b = true ∧ ∃ e t' L', Cache.Step t (i, e) t' ∧ Agrees s' t' pt' L')

theorem advances_silent {s' : State ι Cache Vars} {pt' : ι → Mode} (h : Agrees s' t pt' L) :
    Advances t i false s' pt' := .inr (.inl ⟨rfl, L, h⟩)

theorem advances_commit {s' : State ι Cache Vars} {pt' : ι → Mode} {e : Cache.Ev}
    (h : Pulls t i ∨ ∃ t' L', Cache.Step t (i, e) t' ∧ Agrees s' t' pt' L') :
    Advances t i true s' pt' := by
  rcases h with h | ⟨t', L', hs, hA⟩
  · exact .inl ⟨rfl, h⟩
  · exact .inr (.inr ⟨rfl, e, t', L', hs, hA⟩)

/-- `dequeue` finds the queue empty. -/
def Underflows (t : Cache.State ι) (i : ι) : Prop := t.pc i = .unlink ∧ t.mem.isEmpty = .ok true

theorem commits_of_lt (ha : sec.accesses[k]? = some a) (hk : k + 1 < sec.accesses.length) :
    a.commits = false := by
  have hlinks : a.links = true := links_of_mem_take hk (List.mem_of_getElem? (i := k) (by
    rw [List.getElem?_take_of_lt (Nat.lt_succ_self k), ha]))
  cases a <;> first | rfl | cases hlinks

theorem commits_of_last (ha : sec.accesses[k]? = some a) (hk : k + 1 = sec.accesses.length) :
    a.commits = true := by
  have hlast : sec.accesses[sec.accesses.length - 1]? = some a := by
    rw [← hk]
    exact ha
  cases sec <;> cases hlast <;> rfl

theorem newing_of_newNode (ha : Access.newNode.point m = some m') : m = .newing ∧ m' = .linkWait := by
  cases m with
  | newing =>
    cases ha
    exact ⟨rfl, rfl⟩
  | write sec k =>
    simp only [Access.point, Sec.point] at ha
    split_ifs at ha with hmem
    all_goals
      have hin := List.mem_of_getElem? hmem
      cases sec <;> simp [Sec.accesses] at hin
  | check sec n => cases n <;> cases ha
  | _ => cases ha

theorem commits_of_inRead (hm : m.inRead = true) (ha : a.point m = some m') : a.commits = false := by
  unfold Access.point at ha
  split at ha <;> first | rfl | cases hm | cases ha

theorem point_of_lock {f : Fn} {b : Act} (hb : ∀ a, b ≠ .access a) (h : b.point f m = some m') :
    (m' = m ∧ commits (.act f b) = false) ∨ (m.enterRead = some m' ∧ commits (.act f b) = false) ∨
      (m.leaveRead = some m' ∧ commits (.act f b) = true) ∨
      (m.enterWrite = some m' ∧ commits (.act f b) = false) := by
  have hstay : some m = some m' → m' = m := fun h => (Option.some.inj h).symm
  cases b with
  | access a => exact absurd rfl (hb a)
  | readcntInc | readcntDec => cases f <;> exact .inl ⟨hstay h, rfl⟩
  | P s =>
    cases s with
    | mutex =>
      cases f with
      | postRead => exact .inr (.inr (.inl ⟨h, rfl⟩))
      | _ => exact .inl ⟨hstay h, rfl⟩
    | w =>
      cases f with
      | preWrite => exact .inr (.inr (.inr ⟨h, rfl⟩))
      | _ => exact .inl ⟨hstay h, rfl⟩
  | V s =>
    cases s with
    | mutex =>
      cases f with
      | preRead => exact .inr (.inl ⟨h, rfl⟩)
      | _ => exact .inl ⟨hstay h, rfl⟩
    | w => cases f <;> exact .inl ⟨hstay h, rfl⟩

/-- `new_node` in the heap `d`, where `malloc` returns memory and the copy of the payload is a string
that fits. -/
def Makes (d : Cache) (x : Vars) (d' : Cache) (y : Vars) : Prop :=
  ∃ p junk, p ≠ 0 ∧ d.live p = false ∧ InRange x.payload junk x.bytesize ∧
    (cstr (x.payload.take x.bytesize ++ junk)).length < maxObjectSize ∧
    Access.newNode.eval p junk d x = .ok (d', y)

theorem run_eq {w : Cache × Vars} (hrun : cacheData.run a (c, x) (d, y)) (ha : a ≠ .newNode)
    (h : a.eval 0 [] c x = .ok w) : w = (d, y) := by
  obtain ⟨fresh, junk, -, hw⟩ := hrun
  exact (hw w ((eval_fresh ha fresh junk c x).trans h)).symm

section Access

variable (hA : Agrees s t pt L) {st : List (Frame Act Cond Fn)} {own : Own}

include hA

theorem newNode_step (hm : (pt i).1 = .newing) (hz : z.1 = .linkWait)
    (hnew : Makes s.mem.data (s.pc i).vars d y) :
    Advances t i true ⟨⟨lk, d⟩, Function.update s.pc i ⟨st, y, own⟩⟩ (Function.update pt i z) := by
  obtain ⟨p, junk, hp0, hfree, hrange, hshort, heval⟩ := hnew
  have hpc := hA.pc i
  rw [hm] at hpc
  generalize (s.pc i).vars = x at hrange hshort heval hpc
  obtain ⟨c', hc', heval⟩ : ∃ c', s.mem.data.newNode p junk x.key x.payload x.bytesize = .ok c' ∧
      (c', { x with node := p }) = (d, y) := by
    simpa [Access.eval, check_of hp0, bind_ok_iff] using heval
  obtain ⟨-, -, rfl⟩ := Cache.newNode_eq_ok.mp hc'
  cases heval
  rw [hA.same.live] at hfree
  rw [hA.same.live, hA.same.entry]
  have hnew : t.mem.newNode p junk x.key x.payload x.bytesize =
      .ok (withNodes t.mem (Function.update t.mem.live p true) (Function.update t.mem.entry p
        ⟨x.key, x.payload.take x.bytesize ++ junk, x.bytesize⟩)) :=
    Cache.newNode_eq_ok.mpr ⟨hrange.term, hrange.copy, rfl⟩
  obtain ⟨hR, -⟩ := hA.inv.repr.newNode hfree hnew
  have hne : ∀ q, t.mem.live q = true → q ≠ p := by
    rintro q hq rfl
    rw [hfree] at hq
    cases hq
  have hkeep : ∀ (v : Entry) q, t.mem.live q = true →
      Function.update t.mem.entry p v q = t.mem.entry q :=
    fun v q hq => Function.update_of_ne (hne q hq) _ _
  have hstep := Cache.TStep.alloc _ _ _ _ _ p junk hp0 hfree hnew
  rw [show Cache.Pc.alloc x.key x.payload x.bytesize = t.pc i from hpc.symm] at hstep
  refine advances_commit (hA.commit_nodes hstep (by rw [hz]; rfl) hR ?_ ?_ ?_ (by rw [hm]; rfl) ?_)
  · rw [hz]
    simpa [Point.Holds, withNodes] using hrange.str
  · exact fun q hq => hkeep _ q (hA.inv.repr.alloc_mem hq).2
  · exact fun j q _ hq => hkeep _ q (hA.inv.owned j q hq).1.2
  · intro q hq
    by_cases hqp : q = p
    · subst hqp
      exact ⟨by simpa [withNodes] using hrange.size, by simpa [Cache.size, withNodes] using hshort⟩
    · rw [Function.update_of_ne hqp] at hq
      have hsmall := hA.small q hq
      exact ⟨by simpa [withNodes, hqp] using hsmall.bytesize,
        by simpa [Cache.size, withNodes, hqp] using hsmall.size⟩

theorem freeDel_step (hm : (pt i).1 = .freeing) (hz : z.1 = .testWhile) :
    ∃ w, Access.freeDel.eval 0 [] s.mem.data (s.pc i).vars = .ok w ∧ Advances t i true
      ⟨⟨lk, w.1⟩, Function.update s.pc i ⟨st, w.2, own⟩⟩ (Function.update pt i z) := by
  have hpc := hA.pc i
  have hdel := hA.holds i
  rw [hm] at hpc hdel
  generalize (s.pc i).vars = x at hpc hdel
  have hown : (t.pc i).owns = some x.del := by
    rw [hpc]
    exact if_neg hdel
  obtain ⟨ha, hout⟩ := hA.inv.owned i x.del hown
  have hfree : ∀ c : Cache, c.Alloc x.del → c.freeNode x.del =
      .ok (withNodes c (Function.update c.live x.del false) c.entry) := by
    intro c hc
    rw [Cache.freeNode, Cache.deref_of hc]
    rfl
  have heval : Access.freeDel.eval 0 [] s.mem.data x = .ok
      (withNodes s.mem.data (Function.update s.mem.data.live x.del false) s.mem.data.entry, x) := by
    simp only [Access.eval, hfree _ ((hA.same.alloc _).mpr ha)]
    rfl
  have hstep := Cache.TStep.release _ _ _ (hfree _ ha)
  rw [show Cache.Pc.release x.del = t.pc i from hpc.symm] at hstep
  refine ⟨_, heval, ?_⟩
  rw [hA.same.live, hA.same.entry]
  refine advances_commit (hA.commit_nodes hstep (by rw [hz]; rfl)
    (hA.inv.repr.freeNode hout (hfree _ ha)).1 (by rw [hz]; trivial) (fun q _ => rfl)
    (fun j q _ _ => rfl) (by rw [hm]; rfl) fun q hq => ?_)
  have hq : t.mem.live q = true := by
    by_cases hqd : q = x.del
    · simp [hqd] at hq
    · rwa [Function.update_of_ne hqd] at hq
  exact ⟨(hA.small q hq).bytesize, (hA.small q hq).size⟩

theorem copyOut_step (hm : (pt i).1 = .copying) (hz : z.1 = .idle) :
    ∃ w, Access.copyOut.eval 0 [] s.mem.data (s.pc i).vars = .ok w ∧ Advances t i true
      ⟨⟨lk, w.1⟩, Function.update s.pc i ⟨st, w.2, own⟩⟩ (Function.update pt i z) := by
  have hpc := hA.pc i
  rw [hm] at hpc
  generalize (s.pc i).vars = x at hpc
  obtain ⟨ha, -⟩ := hA.held i x.key x.p (by rw [hpc]; rfl)
  have hcopy : ∀ c : Cache, c.Alloc x.p → (c.entry x.p).bytesize ≤ maxObjectSize →
      c.copyOut x.p = .ok ((c.entry x.p).payload.take (c.entry x.p).bytesize) := by
    intro c hc hle
    rw [Cache.copyOut, Cache.deref_of hc, ok_bind, check_of hle]
    rfl
  have hle := (hA.small x.p ha.2).bytesize
  have hcopyd := hcopy s.mem.data ((hA.same.alloc _).mpr ha) (by rw [hA.same.entry]; exact hle)
  have heval : Access.copyOut.eval 0 [] s.mem.data x = .ok (s.mem.data, { x with
      out := (s.mem.data.entry x.p).payload.take (s.mem.data.entry x.p).bytesize }) := by
    simp only [Access.eval, hcopyd]
    rfl
  have hstep : Cache.TStep t.mem (t.pc i) .tau t.mem .idle := by
    rw [hpc]
    exact .copyOut _ _ _ _ (hcopy _ ha hle)
  exact ⟨_, heval, advances_commit (hA.commit_read hstep (by rw [hz]; rfl) (by rw [hz]; trivial)
    (by rw [hm]; rfl))⟩

theorem overLoad_step {m : Point} {v : Bool} (hm : (pt i).1 = m) (hw : m.inWrite = false)
    (hz : z.1.Holds t.mem s.mem.data L (s.pc i).vars)
    (hstep : v = decide (t.mem.cacheLoad > maxCacheSize) →
      Cache.TStep t.mem (m.pc (s.pc i).vars) .tau t.mem (z.1.pc (s.pc i).vars)) :
    ∃ b, Test.overLoad.eval s.mem.data (s.pc i).vars = .ok b ∧
      (v = b → (Test.overLoad = .isEmpty ∧ v = true ∧ Underflows t i) ∨ Advances t i true
        ⟨⟨lk, s.mem.data⟩, Function.update s.pc i ⟨st, (s.pc i).vars, own⟩⟩
        (Function.update pt i z)) := by
  have hpc := hA.pc i
  rw [hm] at hpc
  rw [← hpc] at hstep
  refine ⟨_, rfl, fun hv => ?_⟩
  rw [hA.load] at hv
  exact .inr (advances_commit (hA.commit_read (hstep hv) rfl hz (by rw [hm]; exact hw)))

variable [Fintype ι] (hF : Follows s pt)

include hF

theorem data_of_inRead (hr : (pt i).1.inRead = true) : s.mem.data = t.mem :=
  hA.quiet fun j => hF.no_writer hr j

theorem write_access (hm : (pt i).1 = .write sec k) (ha : sec.point k a = some z.1) :
    ∃ w, a.eval 0 [] s.mem.data (s.pc i).vars = .ok w ∧ Advances t i a.commits
      ⟨⟨lk, w.1⟩, Function.update s.pc i ⟨st, w.2, own⟩⟩ (Function.update pt i z) := by
  have hpc := hA.pc i
  have hholds := hA.holds i
  have hout : ∀ j, j ≠ i → (pt j).1.inRead = false ∧ (pt j).1.inWrite = false :=
    fun j hj => hF.alone hj.symm (by rw [hm]; rfl)
  rw [hm] at hpc hholds
  unfold Sec.point at ha
  split_ifs at ha with hmem hlast
  · obtain ⟨e, d', y', heval, hstep, hS⟩ := commit_step hA.inv hpc hholds hmem hlast
    rw [commits_of_last hmem hlast]
    rw [show Sec.pc _ sec = t.pc i from hpc.symm] at hstep
    exact ⟨_, heval, advances_commit (hA.commit_write hstep (by rw [← Option.some.inj ha]; rfl)
      (fun _ => by rw [← Option.some.inj ha]; trivial) hS hout)⟩
  · have hlt : k + 1 < sec.accesses.length := by
      have := hholds.2.1
      omega
    obtain ⟨d', y', heval, hz, hzpc, hS, hload⟩ := write_step hA.inv hpc hholds hmem hlt
    rw [commits_of_lt hmem hlt]
    refine ⟨_, heval, advances_silent (hA.silent ?_ ?_ hS hload (.inr ⟨?_, hout⟩))⟩
    · rw [← Option.some.inj ha, hm]
      exact hzpc
    · rw [← Option.some.inj ha]
      exact hz
    · rw [← Option.some.inj ha]
      rfl

/-- **The statements on the queue** are defined: they touch no freed node, and no `assert` fails. -/
theorem access_step (lk : RwLock.Lock) (st : List (Frame Act Cond Fn)) (own : Own)
    (ha : a.point (pt i).1 = some z.1) (hne : a ≠ .newNode) :
    ∃ w, a.eval 0 [] s.mem.data (s.pc i).vars = .ok w ∧ Advances t i a.commits
      ⟨⟨lk, w.1⟩, Function.update s.pc i ⟨st, w.2, own⟩⟩ (Function.update pt i z) := by
  have hholds := hA.holds i
  have hrefl := SameNodes.refl s.mem.data
  by_cases hr : (pt i).1.inRead = true
  · have hd := data_of_inRead hA hF hr
    rw [hd] at hholds
    obtain ⟨y, heval, hz, hzpc⟩ := read_step hA.inv.repr hholds hr ha 0 []
    rw [← hd] at heval
    rw [commits_of_inRead hr ha]
    refine ⟨_, heval, advances_silent (hA.silent hzpc ?_ hrefl rfl
      (.inl ⟨rfl, fun _ => hF.no_writer hr i⟩))⟩
    rw [hd]
    exact hz
  · unfold Access.point at ha
    split at ha
    case h_16 =>
      rename_i a _ _ sec k hm
      exact write_access hA hF hm ha
    case h_3 =>
      rename_i hm
      refine ⟨_, rfl, advances_silent (hA.silent ?_ ?_ hrefl rfl
        (.inl ⟨rfl, fun _ => by rw [hm]; rfl⟩))⟩
      · rw [hm, ← Option.some.inj ha]
        rfl
      · rw [← Option.some.inj ha]
        rfl
    case h_4 =>
      rename_i hm
      rw [hm] at hholds
      refine ⟨_, rfl, advances_silent (hA.silent ?_ ?_ hrefl rfl
        (.inl ⟨rfl, fun _ => by rw [hm]; rfl⟩))⟩
      · rw [hm, ← Option.some.inj ha]
        rfl
      · rw [← Option.some.inj ha]
        exact hholds
    case h_5 =>
      rename_i hm
      exact copyOut_step hA hm (Option.some.inj ha).symm
    case h_6 => exact absurd rfl hne
    case h_7 =>
      rename_i hm
      rw [hm] at hholds
      exact hholds.elim
    case h_8 =>
      rename_i hm
      exact freeDel_step hA hm (Option.some.inj ha).symm
    case h_17 => cases ha
    all_goals
      rename_i hm
      exact absurd (by rw [hm]; rfl) hr

/-- **The tests on the queue.** -/
theorem test_step (lk : RwLock.Lock) (st : List (Frame Act Cond Fn)) (own : Own) {q : Test} {v : Bool}
    (hq : q.point v (pt i).1 = some z.1) :
    ∃ b, q.eval s.mem.data (s.pc i).vars = .ok b ∧
      (v = b → (q = .isEmpty ∧ v = true ∧ Underflows t i) ∨
        Advances t i (commits (.test (.queue q) v))
          ⟨⟨lk, s.mem.data⟩, Function.update s.pc i ⟨st, (s.pc i).vars, own⟩⟩
          (Function.update pt i z)) := by
  have hpc := hA.pc i
  have hholds := hA.holds i
  have hrefl := SameNodes.refl s.mem.data
  by_cases hr : (pt i).1.inRead = true
  · have hd := data_of_inRead hA hF hr
    rw [hd] at hholds
    obtain ⟨b, heval, hz, hzpc⟩ := read_test hA.inv.repr hholds hr hq
    rw [← hd] at heval
    have hcommits : commits (.test (.queue q) v) = false := by
      unfold Test.point at hq
      split at hq <;> rename_i hm <;> first | rfl | (rw [hm] at hr; cases hr) | cases hq
    rw [hcommits]
    refine ⟨b, heval, fun hb => .inr (advances_silent (hA.silent hzpc ?_ hrefl rfl
      (.inl ⟨rfl, fun _ => hF.no_writer hr i⟩)))⟩
    rw [hd]
    exact hz hb
  · unfold Test.point at hq
    split at hq
    case h_7 =>
      rename_i hm
      rw [hm] at hpc hholds
      have hd : s.mem.data = t.mem := hholds
      refine ⟨_, (by rw [hd]; exact hA.inv.repr.isEmpty), fun hempty => .inl ⟨rfl, rfl, hpc, ?_⟩⟩
      rw [hA.inv.repr.isEmpty, ← hempty]
    case h_8 =>
      rename_i hm
      rw [hm] at hholds
      have hd : s.mem.data = t.mem := hholds
      refine ⟨_, (by rw [hd]; exact hA.inv.repr.isEmpty), fun hempty =>
        .inr (advances_silent (hA.silent ?_ ?_ hrefl rfl (.inl ⟨rfl, ?_⟩)))⟩
      · rw [hm, ← Option.some.inj hq]
        rfl
      · rw [← Option.some.inj hq, hd]
        exact ⟨of_decide_eq_false hempty.symm, by decide, _, rfl⟩
      · rw [← Option.some.inj hq]
        exact nofun
    case h_9 =>
      rename_i hm
      refine overLoad_step hA hm rfl (by rw [← Option.some.inj hq]; trivial) fun h => ?_
      rw [← Option.some.inj hq]
      exact .ifOver _ (of_decide_eq_true h.symm)
    case h_10 =>
      rename_i hm
      refine overLoad_step hA hm rfl (by rw [← Option.some.inj hq]; trivial) fun h => ?_
      rw [← Option.some.inj hq]
      exact .ifFits _ (of_decide_eq_false h.symm)
    case h_11 =>
      rename_i hm
      refine overLoad_step hA hm rfl (by rw [← Option.some.inj hq]; trivial) fun h => ?_
      rw [← Option.some.inj hq]
      exact .whileOver _ (of_decide_eq_true h.symm)
    case h_12 =>
      rename_i hm
      refine overLoad_step hA hm rfl (by rw [← Option.some.inj hq]; trivial) fun h => ?_
      rw [← Option.some.inj hq]
      exact .whileFits _ (of_decide_eq_false h.symm)
    case h_17 => cases hq
    all_goals
      rename_i hm
      exact absurd (by rw [hm]; rfl) hr

omit hF in
/-- **The statements on the lock.** A read section is complete when it is left. -/
theorem lock_act_step {f : Fn} {b : Act} (hb : ∀ a, b ≠ .access a)
    (h : b.point f (pt i).1 = some z.1)
    (hF' : Follows ⟨⟨lk, s.mem.data⟩, Function.update s.pc i ⟨st, (s.pc i).vars, own⟩⟩
      (Function.update pt i z)) :
    Advances t i (commits (.act f b))
      ⟨⟨lk, s.mem.data⟩, Function.update s.pc i ⟨st, (s.pc i).vars, own⟩⟩
      (Function.update pt i z) := by
  have hpc := hA.pc i
  have hholds := hA.holds i
  have hrefl := SameNodes.refl s.mem.data
  have hR := hA.inv.repr
  rcases point_of_lock hb h with ⟨hz, hc⟩ | ⟨hz, hc⟩ | ⟨hz, hc⟩ | ⟨hz, hc⟩ <;> rw [hc]
  · exact advances_silent (hA.silent (by rw [hz]) (by rw [hz]; exact hholds) hrefl rfl
      (.inl ⟨rfl, by rw [hz]; exact id⟩))
  · obtain ⟨hm, hz⟩ | ⟨sec, hm, hz⟩ := enterRead_eq hz
    · exact advances_silent (hA.silent (by rw [hz, hm]; rfl) (by rw [hz]; trivial) hrefl rfl
        (.inl ⟨rfl, fun _ => by rw [hm]; rfl⟩))
    · exact advances_silent (hA.silent (by rw [hz, hm]; rfl) (by rw [hz]; trivial) hrefl rfl
        (.inl ⟨rfl, fun _ => by rw [hm]; rfl⟩))
  · obtain ⟨hm, hz⟩ | ⟨hm, hz⟩ | ⟨sec, hm, hz⟩ := leaveRead_eq hz
    · rw [hm] at hpc hholds
      have hfind := hR.findSec_eq (s.pc i).vars.key (Nat.lt_succ_self _)
      rw [show List.find? _ _ = none from hholds] at hfind
      have hstep := Cache.TStep.miss _ _ _ hfind
      rw [show Cache.Pc.find (s.pc i).vars.key = t.pc i from hpc.symm] at hstep
      exact advances_commit (hA.commit_read hstep (by rw [hz]; rfl) (by rw [hz]; trivial)
        (by rw [hm]; rfl))
    · rw [hm] at hpc hholds
      have hfind := hR.findSec_eq (s.pc i).vars.key (Nat.lt_succ_self _)
      rw [show List.find? _ _ = some _ from hholds] at hfind
      have hstep := Cache.TStep.hit _ _ _ _ hfind
      rw [show Cache.Pc.find (s.pc i).vars.key = t.pc i from hpc.symm] at hstep
      exact advances_commit (hA.commit_read hstep (by rw [hz]; rfl) (by rw [hz]; trivial)
        (by rw [hm]; rfl))
    · rw [hm] at hpc hholds
      have hcheck := hR.cacheCheck_eq (Nat.lt_succ_self _)
      have hw : (pt i).1.inWrite = false := by rw [hm]; rfl
      cases sec with
      | link =>
        have hstep := Cache.TStep.linkCheck _ _ hcheck
        rw [show Cache.Pc.linkCheck = t.pc i from hpc.symm] at hstep
        exact advances_commit (hA.commit_read hstep (by rw [hz]; rfl) (by rw [hz]; trivial) hw)
      | unlink =>
        have hstep := Cache.TStep.unlinkCheck _ (s.pc i).vars.del _ hcheck
        rw [show Cache.Pc.unlinkCheck (s.pc i).vars.del = t.pc i from hpc.symm] at hstep
        have hdel := (hA.inv.owned i (s.pc i).vars.del (by rw [hpc]; rfl)).1.1
        exact advances_commit (hA.commit_read hstep (by rw [hz]; rfl) (by rw [hz]; exact hdel) hw)
      | promote =>
        have hstep := Cache.TStep.promoteCheck _ (s.pc i).vars.key (s.pc i).vars.p _ hcheck
        rw [show Cache.Pc.promoteCheck (s.pc i).vars.key (s.pc i).vars.p = t.pc i from
          hpc.symm] at hstep
        exact advances_commit (hA.commit_read hstep (by rw [hz]; rfl) (by rw [hz]; trivial) hw)
  · have hzw : z.1.inWrite = true := by
      obtain ⟨-, hz⟩ | ⟨-, hz⟩ | ⟨-, hz⟩ := enterWrite_eq hz <;> rw [hz] <;> rfl
    have hmw : (pt i).1.inWrite = false := by
      obtain ⟨hm, -⟩ | ⟨hm, -⟩ | ⟨hm, -⟩ := enterWrite_eq hz <;> rw [hm] <;> rfl
    -- no section is unfinished when a write section begins
    have hd : s.mem.data = t.mem := by
      refine hA.quiet fun j => ?_
      by_cases hj : j = i
      · rw [hj]
        exact hmw
      · have := (hF'.alone (Ne.symm hj) (by simpa using hzw)).2
        simpa [hj] using this
    obtain ⟨hm, hz⟩ | ⟨hm, hz⟩ | ⟨hm, hz⟩ := enterWrite_eq hz
    · rw [hm] at hholds
      refine advances_silent (hA.silent (by rw [hz, hm]; rfl) ?_ hrefl rfl
        (.inl ⟨rfl, fun _ => hmw⟩))
      rw [hz, hd]
      exact ⟨hholds, by decide, _, rfl⟩
    · refine advances_silent (hA.silent (by rw [hz, hm]; rfl) ?_ hrefl rfl
        (.inl ⟨rfl, fun _ => hmw⟩))
      rw [hz]
      exact hd
    · rw [hm] at hholds
      refine advances_silent (hA.silent (by rw [hz, hm]; rfl) ?_ hrefl rfl
        (.inl ⟨rfl, fun _ => hmw⟩))
      rw [hz, hd]
      exact ⟨hholds, by decide, _, rfl⟩

end Access

end Threads

end MiniProxy.CacheCode
