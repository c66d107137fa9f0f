import MiniProxy.Cache.Eviction
import MiniProxy.Cache.Refine
import MiniProxy.Lib.BigStep

/-!
# The functions of the cache as a whole

While no other thread is inside of the lock, the code of a function does, statement by statement, what the
function computes as one.

* `Here`, `Effects`, `Outcome`: the memory as one thread sees it, and what its statements do;
* `runs_accesses`: the statements of a section are what `run` computes;
* `runs_preWrite`, `runs_postWrite`, `runs_preRead`, `runs_postRead`: the lock;
* `runs_cacheCheck`, `runs_enqueue`, `runs_dequeue`, `runs_update`: the functions that the others call;
* **`ends_addCache`**, **`ends_isCached`**: `add_cache` and `is_cached`;
* `TSound`: the steps of a thread that calls them; `path_of_leads`; `path_fill`, `path_over`, `path_evict`:
  a thread that stores objects, and evicts.
-/

namespace MiniProxy.CacheCode

open Clib Code
open Cache (InRange)
open RwLock (Lock lockInit)

/-- What a thread has: the memory, its variables, and what it has taken of the lock. -/
structure Here where
  lock : Lock
  data : Cache
  vars : Vars
  own : Own

/-- What a statement does, where `new_node` makes its node. -/
def Effects (f : Fn) (a : Act) (x y : Here) : Prop :=
  Effect cacheData ⟨x.lock, x.data⟩ x.vars (.act f a) ⟨y.lock, y.data⟩ y.vars ∧
    y.own = x.own.after (.act f a) ∧ (a = .access .newNode → Makes x.data x.vars y.data y.vars)

/-- How a test comes out. -/
def Outcome (b : Cond) (v : Bool) (x : Here) : Prop :=
  Effect cacheData ⟨x.lock, x.data⟩ x.vars (.test b v) ⟨x.lock, x.data⟩ x.vars

abbrev Runs : Fn → Stmt Act Cond Fn → Here → Here → Prop := Code.Runs body Effects Outcome

abbrev RunsAll : Fn → List (Stmt Act Cond Fn) → Here → Here → Prop := Code.RunsAll body Effects Outcome

abbrev Leaves : Fn → Stmt Act Cond Fn → Here → Here → Prop := Code.Leaves body Effects Outcome

abbrev Ends : Fn → List (Stmt Act Cond Fn) → Here → Here → Prop := Code.Ends body Effects Outcome

/-! ## Statements on the queue -/

variable {f : Fn} {lk : Lock} {o : Own} {c c' d : Cache} {x y : Vars} {L : List Ptr}

theorem effects_access {a : Access} (hne : a ≠ .newNode) (h : a.eval 0 [] c x = .ok (d, y)) :
    Effects f (.access a) ⟨lk, c, x, o⟩ ⟨lk, d, y, o⟩ := by
  refine ⟨.access _ _ _ _ _ _ _ ⟨0, [], .inl rfl, fun z hz => ?_⟩, rfl, ?_⟩
  · exact Except.ok.inj (h.symm.trans hz)
  · rintro ⟨⟩
    exact absurd rfl hne

theorem runs_access {a : Access} (hne : a ≠ .newNode) (h : a.eval 0 [] c x = .ok (d, y)) :
    Runs f (acc a) ⟨lk, c, x, o⟩ ⟨lk, d, y, o⟩ :=
  .act (effects_access hne h)

theorem runs_accesses {as : List Access} (has : ∀ a ∈ as, a ≠ .newNode)
    (h : run as (c, x) = .ok (d, y)) : RunsAll f (as.map acc) ⟨lk, c, x, o⟩ ⟨lk, d, y, o⟩ := by
  induction as generalizing c x with
  | nil =>
    cases h
    exact .nil _
  | cons a as ih =>
    obtain ⟨⟨c₁, x₁⟩, ha, h⟩ := bind_ok_iff.mp h
    exact .cons (runs_access (has a List.mem_cons_self) ha)
      (ih (fun b hb => has b (List.mem_cons_of_mem a hb)) h)

theorem outcome_queue {t : Test} {v : Bool} (h : t.eval c x = .ok v) :
    Outcome (.queue t) v ⟨lk, c, x, o⟩ :=
  .queue _ _ _ _ fun _ hb => Except.ok.inj (h.symm.trans hb)

/-! ## The lock -/

/-- Outside of every section, and no other thread is inside of one. -/
def Here.free (c : Cache) (x : Vars) : Here := ⟨lockInit, c, x, .none⟩

/-- Inside of a write section. -/
def Here.writing (c : Cache) (x : Vars) : Here := ⟨{ lockInit with w := 0 }, c, x, ⟨0, 0, 1⟩⟩

/-- Inside of a read section, alone. -/
def Here.reading (c : Cache) (x : Vars) : Here := ⟨⟨1, 0, 1⟩, c, x, ⟨0, 1, 0⟩⟩

theorem runs_preWrite : Runs f (.call .preWrite) (.free c x) (.writing c x) :=
  .call (.of_runs (.act ⟨.pW _ _ _ _ Nat.one_pos, rfl, nofun⟩))

theorem runs_postWrite : Runs f (.call .postWrite) (.writing c x) (.free c x) :=
  .call (.of_runs (.act ⟨.vW _ _ _ _, rfl, nofun⟩))

theorem runs_preRead : Runs f (.call .preRead) (.free c x) (.reading c x) := by
  have hlock : Runs .preRead (.act (.P .mutex)) (.free c x) ⟨⟨0, 1, 0⟩, c, x, ⟨1, 0, 0⟩⟩ :=
    .act ⟨.pMutex _ _ _ _ Nat.one_pos, rfl, nofun⟩
  have hinc : Runs .preRead (.act .readcntInc) ⟨⟨0, 1, 0⟩, c, x, ⟨1, 0, 0⟩⟩
      ⟨⟨0, 1, 1⟩, c, x, ⟨1, 1, 0⟩⟩ := .act ⟨.readcntInc _ _ _ _, rfl, nofun⟩
  have hfirst : Runs .preRead (.act (.P .w)) ⟨⟨0, 1, 1⟩, c, x, ⟨1, 1, 0⟩⟩
      ⟨⟨0, 0, 1⟩, c, x, ⟨1, 1, 0⟩⟩ := .act ⟨.pW _ _ _ _ Nat.one_pos, rfl, nofun⟩
  have hunlock : Runs .preRead (.act (.V .mutex)) ⟨⟨0, 0, 1⟩, c, x, ⟨1, 1, 0⟩⟩ (.reading c x) :=
    .act ⟨.vMutex _ _ _ _, rfl, nofun⟩
  exact .call (.of_runs (.block (.cons hlock (.cons hinc
    (.cons (.ite (v := true) (.readcnt _ _ 1) hfirst) (.cons hunlock (.nil _)))))))

theorem runs_postRead : Runs f (.call .postRead) (.reading c x) (.free c x) := by
  have hlock : Runs .postRead (.act (.P .mutex)) (.reading c x) ⟨⟨0, 0, 1⟩, c, x, ⟨1, 1, 0⟩⟩ :=
    .act ⟨.pMutex _ _ _ _ Nat.one_pos, rfl, nofun⟩
  have hdec : Runs .postRead (.act .readcntDec) ⟨⟨0, 0, 1⟩, c, x, ⟨1, 1, 0⟩⟩
      ⟨⟨0, 0, 0⟩, c, x, ⟨1, 0, 0⟩⟩ := .act ⟨.readcntDec _ _ _ _, rfl, nofun⟩
  have hlast : Runs .postRead (.act (.V .w)) ⟨⟨0, 0, 0⟩, c, x, ⟨1, 0, 0⟩⟩
      ⟨⟨0, 1, 0⟩, c, x, ⟨1, 0, 0⟩⟩ := .act ⟨.vW _ _ _ _, rfl, nofun⟩
  have hunlock : Runs .postRead (.act (.V .mutex)) ⟨⟨0, 1, 0⟩, c, x, ⟨1, 0, 0⟩⟩ (.free c x) :=
    .act ⟨.vMutex _ _ _ _, rfl, nofun⟩
  exact .call (.of_runs (.block (.cons hlock (.cons hdec
    (.cons (.ite (v := true) (.readcnt _ _ 0) hlast) (.cons hunlock (.nil _)))))))

/-! ## The functions -/

variable {fuel n : ℕ} {p : Ptr}

theorem runs_checkLoop {n : ℕ} (h : c.checkLoop fuel x.check x.count = .ok n) :
    ∃ q, Runs .cacheCheck
      (.loop (.queue .notEnd) (.block [acc .checkCount, acc .assertLinked, acc .checkNext]))
      (.reading c x) (.reading c { x with check := q, count := n }) := by
  induction fuel generalizing x with
  | zero => cases h
  | succ fuel ih =>
    rw [Cache.checkLoop] at h
    split_ifs at h with hne
    · obtain ⟨q, hprev, h⟩ := bind_ok_iff.mp h
      obtain ⟨r, hnext, h⟩ := bind_ok_iff.mp h
      obtain ⟨_, hlinked, h⟩ := bind_ok_iff.mp h
      obtain ⟨q', hmove, h⟩ := bind_ok_iff.mp h
      obtain ⟨q'', hloop⟩ := ih (x := { x with count := x.count + 1, check := q' }) h
      have hrun : run [.checkCount, .assertLinked, .checkNext] (c, x) =
          .ok (c, { x with count := x.count + 1, check := q' }) := by
        simp [run_cons, Access.eval, hprev, hnext, hlinked, hmove]
      have hturn : RunsAll .cacheCheck [acc .checkCount, acc .assertLinked, acc .checkNext]
          (.reading c x) (.reading c { x with count := x.count + 1, check := q' }) :=
        runs_accesses (by decide) hrun
      exact ⟨q'', .loop (outcome_queue (by simp [Test.eval, hne])) (.block hturn) hloop⟩
    · cases h
      exact ⟨x.check, .exit (outcome_queue (by simpa [Test.eval] using hne))⟩

theorem isEmpty_of_empty (h : c.cacheCheck fuel = .ok ()) (hcount : c.cacheCount = 0) :
    c.isEmpty = .ok true ∧ c.getPrev c.front = .ok 0 ∧ c.getNext c.endp = .ok 0 := by
  rw [Cache.cacheCheck, if_pos hcount] at h
  obtain ⟨b, hempty, h⟩ := bind_ok_iff.mp h
  obtain ⟨_, hb, h⟩ := bind_ok_iff.mp h
  obtain ⟨q, hprev, h⟩ := bind_ok_iff.mp h
  obtain ⟨r, hnext, h⟩ := bind_ok_iff.mp h
  obtain ⟨hq, hr⟩ := check_eq_ok.mp h
  exact ⟨check_eq_ok.mp hb ▸ hempty, hq ▸ hprev, hr ▸ hnext⟩

/-- `cache_check`. -/
theorem runs_cacheCheck (h : c.cacheCheck fuel = .ok ()) :
    ∃ q n, Runs f (.call .cacheCheck) (.free c x) (.free c { x with check := q, count := n }) := by
  by_cases hcount : c.cacheCount = 0
  · obtain ⟨hempty, hprev, hnext⟩ := isEmpty_of_empty h hcount
    have hrun : run [.assertEmpty, .assertEnds] (c, x) = .ok (c, x) := by
      simp [run_cons, Access.eval, hempty, hprev, hnext, check_of]
    have hasserts : RunsAll .cacheCheck [acc .assertEmpty, acc .assertEnds] (.reading c x)
        (.reading c x) := runs_accesses (by decide) hrun
    have hzero : Outcome (.queue .countZero) true (.reading c x) :=
      outcome_queue (by simp [Test.eval, hcount])
    exact ⟨x.check, x.count, .call (.of_runs (.block (.cons runs_preRead
      (.cons (.ite hzero (.block hasserts)) (.cons runs_postRead (.nil _))))))⟩
  · rw [Cache.cacheCheck, if_neg hcount] at h
    obtain ⟨p, hfirst, h⟩ := bind_ok_iff.mp h
    obtain ⟨n, hloop, h⟩ := bind_ok_iff.mp h
    obtain ⟨q, hrounds⟩ := runs_checkLoop (x := { x with count := 0, check := p }) hloop
    have hstart : Runs .cacheCheck (acc .checkFirst) (.reading c x)
        (.reading c { x with count := 0, check := p }) :=
      runs_access (by decide) (by simp [Access.eval, hfirst])
    have htotal : Runs .cacheCheck (acc .assertCount) (.reading c { x with check := q, count := n })
        (.reading c { x with check := q, count := n }) :=
      runs_access (by decide) (by simp [Access.eval, h])
    have hmany : Outcome (.queue .countZero) false (.reading c x) :=
      outcome_queue (by simp [Test.eval, hcount])
    exact ⟨q, n, .call (.of_runs (.block (.cons runs_preRead
      (.cons (.ite hmany (.block (.cons hstart (.cons hrounds (.cons htotal (.nil _))))))
        (.cons runs_postRead (.nil _))))))⟩

/-- `enqueue`. -/
theorem runs_enqueue (h : c.enqueue fuel x.node = .ok c') :
    ∃ q n, Runs f (.call .enqueue) (.free c x) (.free c' { x with check := q, count := n }) := by
  obtain ⟨d, hlink, h⟩ := bind_ok_iff.mp h
  obtain ⟨_, hcheck, h⟩ := bind_ok_iff.mp h
  obtain rfl := Except.ok.inj h
  obtain ⟨q, n, hcheck⟩ := runs_cacheCheck (f := .enqueue) (x := x) hcheck
  have hsec : run Sec.link.accesses (c, x) = .ok (d, x) := by
    rw [run_link, hlink]
    rfl
  have hall : RunsAll .enqueue (Sec.link.accesses.map acc) (.writing c x) (.writing d x) :=
    runs_accesses (by decide) hsec
  exact ⟨q, n, .call (.of_runs (.block (.cons runs_preWrite
    (hall.append (.cons runs_postWrite (.cons hcheck (.nil _)))))))⟩

/-- `update`. -/
theorem runs_update (h : c.update fuel x.node = .ok c') :
    ∃ q n, Runs f (.call .update) (.free c x)
      (.free c' { x with tomove := x.node, check := q, count := n }) := by
  obtain ⟨d, hmove, h⟩ := bind_ok_iff.mp h
  obtain ⟨_, hcheck, h⟩ := bind_ok_iff.mp h
  obtain rfl := Except.ok.inj h
  obtain ⟨q, n, hcheck⟩ := runs_cacheCheck (f := .update) (x := { x with tomove := x.node }) hcheck
  have htomove : Runs .update (acc .tomove) (.free c x) (.free c { x with tomove := x.node }) :=
    runs_access (by decide) rfl
  have hsec : run Sec.promote.accesses (c, { x with tomove := x.node }) =
      .ok (d, { x with tomove := x.node }) := by
    rw [run_promote, hmove]
    rfl
  have hall : RunsAll .update (Sec.promote.accesses.map acc) (.writing c { x with tomove := x.node })
      (.writing d { x with tomove := x.node }) := runs_accesses (by decide) hsec
  exact ⟨q, n, .call (.of_runs (.block (.cons htomove (.cons runs_preWrite
    (hall.append (.cons runs_postWrite (.cons hcheck (.nil _))))))))⟩

/-- `dequeue` of a queue that is not empty. -/
theorem runs_dequeue (h : c.dequeue fuel = .ok (p, c')) (hp : p ≠ 0) :
    ∃ q n, Runs f (.call .dequeue) (.free c x)
      (.free c' { x with del := p, check := q, count := n }) := by
  obtain ⟨⟨del, d⟩, hdeq, h⟩ := bind_ok_iff.mp h
  have hdel : del ≠ 0 := by
    rintro rfl
    cases h
    exact hp rfl
  simp only [if_neg hdel] at h
  obtain ⟨_, hcheck, h⟩ := bind_ok_iff.mp h
  cases h
  obtain ⟨q, n, hcheck⟩ := runs_cacheCheck (f := .dequeue) (x := { x with del := p }) hcheck
  have hempty : c.isEmpty = .ok false := by
    obtain ⟨b, hb, h⟩ := bind_ok_iff.mp hdeq
    cases b with
    | false => exact hb
    | true =>
      cases h
      exact absurd rfl hp
  have hsec : run Sec.unlink.accesses (c, x) = .ok (c', { x with del := p }) := by
    rw [run_unlink c x hempty, hdeq]
    rfl
  have hall : RunsAll .dequeue (Sec.unlink.accesses.map acc) (.writing c x)
      (.writing c' { x with del := p }) := runs_accesses (by decide) hsec
  have hsome : Outcome (.queue .isEmpty) false (.writing c x) := outcome_queue hempty
  have hbody : RunsAll .dequeue
      ([.call .preWrite, .ite (.queue .isEmpty) (.block [.call .postWrite, acc .delNull, .ret]) .skip] ++
        (Sec.unlink.accesses.map acc ++ [.call .postWrite, .call .cacheCheck]))
      (.free c x) (.free c' { x with del := p, check := q, count := n }) :=
    .cons runs_preWrite (.cons (.ite hsome .skip)
      (hall.append (.cons runs_postWrite (.cons hcheck (.nil _)))))
  exact ⟨q, n, .call (.of_leaves (.block hbody .ret))⟩

theorem makes_newNode {junk : List UInt8} (h : c.newNode p junk x.key x.payload x.bytesize = .ok d)
    (hp : p ≠ 0) (hfree : c.live p = false) (hin : InRange x.payload junk x.bytesize)
    (hshort : (cstr (x.payload.take x.bytesize ++ junk)).length < maxObjectSize) :
    Makes c x d { x with node := p } :=
  ⟨p, junk, hp, hfree, hin, hshort, by simp [Access.eval, check_of hp, h]⟩

theorem runs_newNode (h : Makes c x d y) : Runs f (acc .newNode) (.free c x) (.free d y) := by
  have hmakes := h
  obtain ⟨p, junk, -, hfree, -, -, heval⟩ := h
  exact .act ⟨.access _ _ _ _ _ _ _ ⟨p, junk, .inr hfree, fun z hz =>
    Except.ok.inj (heval.symm.trans hz)⟩, rfl, fun _ => hmakes⟩

/-- What a call of `add_cache` has left to do once it has stored its node. -/
def evictLoop : Stmt Act Cond Fn :=
  .loop (.queue .overLoad) (.block [.call .dequeue, acc .freeDel])

theorem runs_freeDel (hp : x.del = p) (h : c.freeNode p = .ok d) :
    Runs f (acc .freeDel) (.free c x) (.free d x) :=
  runs_access (by decide) (by simp [Access.eval, hp, h])

theorem runs_evictLoop (h : Cache.evictLoop fuel c = .ok c') :
    ∃ y, Runs .addCache evictLoop (.free c x) (.free c' y) := by
  induction fuel generalizing c x with
  | zero => cases h
  | succ fuel ih =>
    rw [Cache.evictLoop] at h
    split_ifs at h with hover
    · obtain ⟨⟨p, c₁⟩, hdeq, h⟩ := bind_ok_iff.mp h
      obtain ⟨c₂, hfree, h⟩ := bind_ok_iff.mp h
      have hp : p ≠ 0 := by
        obtain ⟨_, ha, -⟩ := bind_ok_iff.mp hfree
        exact (check_eq_ok.mp ha).1
      obtain ⟨q, n, hcall⟩ := runs_dequeue (f := .addCache) (x := x) hdeq hp
      obtain ⟨y, hloop⟩ := ih (x := { x with del := p, check := q, count := n }) h
      exact ⟨y, .loop (outcome_queue (by simp [Test.eval, hover]))
        (.block (.cons hcall (.cons (runs_freeDel rfl hfree) (.nil _)))) hloop⟩
    · cases h
      exact ⟨x, .exit (outcome_queue (by simpa [Test.eval] using hover))⟩

/-- **`add_cache`.** Where it returns as one, its code does, and has stored and evicted the same. -/
theorem ends_addCache {junk : List UInt8}
    (h : c.addCache fuel p junk x.key x.payload x.bytesize = .ok c') (hp : p ≠ 0)
    (hfree : c.live p = false) (hin : InRange x.payload junk x.bytesize)
    (hshort : (cstr (x.payload.take x.bytesize ++ junk)).length < maxObjectSize) :
    ∃ y, Ends .addCache [body .addCache] (.free c x) (.free c' y) := by
  obtain ⟨c₁, hnew, h⟩ := bind_ok_iff.mp h
  obtain ⟨c₂, henq, h⟩ := bind_ok_iff.mp h
  have hmakes := runs_newNode (f := .addCache) (makes_newNode hnew hp hfree hin hshort)
  obtain ⟨q, n, henq⟩ := runs_enqueue (f := .addCache) (x := { x with node := p }) henq
  split_ifs at h with hover
  · obtain ⟨y, hloop⟩ := runs_evictLoop (x := { x with node := p, check := q, count := n }) h
    have hload : Outcome (.queue .overLoad) true
        (.free c₂ { x with node := p, check := q, count := n }) :=
      outcome_queue (by simp [Test.eval, hover])
    exact ⟨y, .of_runs (.block (.cons hmakes (.cons henq (.cons (.ite hload hloop) (.nil _)))))⟩
  · obtain rfl := Except.ok.inj h
    have hload : Outcome (.queue .overLoad) false
        (.free c₂ { x with node := p, check := q, count := n }) :=
      outcome_queue (by simpa [Test.eval] using hover)
    exact ⟨_, .of_runs (.block (.cons hmakes (.cons henq (.cons (.ite (v := false) hload .skip) (.nil _)))))⟩

/-- The loop of `is_cached`. -/
def findLoop : Stmt Act Cond Fn :=
  .loop (.queue .notFront) (.block
    [.ite (.queue .isMatch)
      (.block [.call .postRead, acc .passFound, .call .update, acc .copyOut, .ret]) .skip, acc .pPrev])

/-- A turn of the loop of `is_cached` that does not find the key. -/
theorem runs_turn {q : Ptr} (hmatch : c.isMatch x.p x.key = .ok false) (hprev : c.getPrev x.p = .ok q) :
    Runs .isCached (.block
      [.ite (.queue .isMatch)
        (.block [.call .postRead, acc .passFound, .call .update, acc .copyOut, .ret]) .skip, acc .pPrev])
      (.reading c x) (.reading c { x with p := q }) :=
  .block (.cons (.ite (v := false) (outcome_queue hmatch) .skip)
    (.cons (runs_access (by decide) (by simp [Access.eval, hprev])) (.nil _)))

theorem runs_findLoop (h : c.findLoop x.key fuel x.p = .ok none) :
    ∃ q, Runs .isCached findLoop (.reading c x) (.reading c { x with p := q }) := by
  induction fuel generalizing x with
  | zero => cases h
  | succ fuel ih =>
    rw [Cache.findLoop] at h
    split_ifs at h with hne
    · obtain ⟨b, hmatch, h⟩ := bind_ok_iff.mp h
      cases b with
      | true => cases h
      | false =>
        obtain ⟨q, hprev, h⟩ := bind_ok_iff.mp h
        obtain ⟨q', hloop⟩ := ih (x := { x with p := q }) h
        exact ⟨q', .loop (outcome_queue (by simp [Test.eval, hne])) (runs_turn hmatch hprev) hloop⟩
    · exact ⟨x.p, .exit (outcome_queue (by simpa [Test.eval] using hne))⟩

/-- From the loop of `is_cached` the call returns once it has found the key. -/
theorem leaves_findLoop {bytes : List UInt8} (h : c.findLoop x.key fuel x.p = .ok (some p))
    (hmove : c.update n p = .ok c') (hcopy : c'.copyOut p = .ok bytes) :
    ∃ y, Leaves .isCached findLoop (.reading c x) (.free c' y) ∧ y.out = bytes := by
  induction fuel generalizing x with
  | zero => cases h
  | succ fuel ih =>
    rw [Cache.findLoop] at h
    split_ifs at h with hne
    · have hin : Outcome (.queue .notFront) true (.reading c x) :=
        outcome_queue (by simp [Test.eval, hne])
      obtain ⟨b, hmatch, h⟩ := bind_ok_iff.mp h
      cases b with
      | false =>
        obtain ⟨q, hprev, h⟩ := bind_ok_iff.mp h
        obtain ⟨y, hloop, hy⟩ := ih (x := { x with p := q }) h
        exact ⟨y, .turn hin (runs_turn hmatch hprev) hloop, hy⟩
      | true =>
        obtain rfl : x.p = p := Option.some.inj (Except.ok.inj h)
        obtain ⟨q, j, hcall⟩ := runs_update (f := .isCached) (x := { x with node := x.p }) hmove
        have hpass : Runs .isCached (acc .passFound) (.free c x) (.free c { x with node := x.p }) :=
          runs_access (by decide) rfl
        have hout : Runs .isCached (acc .copyOut)
            (.free c' { x with node := x.p, tomove := x.p, check := q, count := j })
            (.free c' { x with node := x.p, tomove := x.p, check := q, count := j, out := bytes }) :=
          runs_access (by decide) (by simp [Access.eval, hcopy])
        have hhit : RunsAll .isCached [.call .postRead, acc .passFound, .call .update, acc .copyOut]
            (.reading c x)
            (.free c' { x with node := x.p, tomove := x.p, check := q, count := j, out := bytes }) :=
          .cons runs_postRead (.cons hpass (.cons hcall (.cons hout (.nil _))))
        exact ⟨_, .loop hin (.block (l := []) (.nil _)
          (.ite (v := true) (outcome_queue hmatch) (.block hhit .ret))), rfl⟩
    · cases h

/-- **`is_cached`.** Where it returns as one, its code does, with the same cache and on a hit with the same
bytes. -/
theorem ends_isCached {r : Option (List UInt8)} (h : c.isCached fuel x.key = .ok (r, c')) :
    ∃ y, Ends .isCached [body .isCached] (.free c x) (.free c' y) ∧ y.out = r.getD x.out := by
  obtain ⟨found, hfind, h⟩ := bind_ok_iff.mp h
  obtain ⟨b, hempty, hfind⟩ := bind_ok_iff.mp hfind
  cases b with
  | true =>
    cases hfind
    cases h
    have hnone : Leaves .isCached
        (.ite (.queue .isEmpty) (.block [.call .postRead, .ret]) .skip) (.reading c x) (.free c x) :=
      .ite (v := true) (outcome_queue hempty) (.block (.cons runs_postRead (.nil _)) .ret)
    exact ⟨x, .of_leaves (.block (.cons runs_preRead (.nil _)) hnone), rfl⟩
  | false =>
    obtain ⟨q, hlast, hloop⟩ := bind_ok_iff.mp hfind
    have hfirst : RunsAll .isCached
        [.call .preRead, .ite (.queue .isEmpty) (.block [.call .postRead, .ret]) .skip, acc .pLast]
        (.free c x) (.reading c { x with p := q }) :=
      .cons runs_preRead (.cons (.ite (v := false) (outcome_queue hempty) .skip)
        (.cons (runs_access (by decide) (by simp [Access.eval, hlast])) (.nil _)))
    cases found with
    | none =>
      cases h
      obtain ⟨q', hrounds⟩ := runs_findLoop (x := { x with p := q }) hloop
      exact ⟨_, .of_leaves (.block
        (hfirst.append (.cons hrounds (.cons runs_postRead (.nil _)))) .ret), rfl⟩
    | some p =>
      obtain ⟨d, hmove, h⟩ := bind_ok_iff.mp h
      obtain ⟨bytes, hcopy, h⟩ := bind_ok_iff.mp h
      cases h
      obtain ⟨y, hleaves, hy⟩ := leaves_findLoop (x := { x with p := q }) hloop hmove hcopy
      exact ⟨y, .of_leaves (.block hfirst hleaves), hy⟩

/-! ## A thread on its own -/

/-- The steps of a thread that calls `is_cached` and `add_cache` only. In `new_node`, `malloc` returns
memory and the copy of the payload is a string that fits. -/
structure TSound (m : Mem Cache) (th : Thread Vars) (l : Label Act Cond Fn) (m' : Mem Cache)
    (th' : Thread Vars) : Prop where
  step : TStep cacheData m th l m' th'
  starts : ∀ f, l = .start f → f = .isCached ∨ f = .addCache
  makes : ∀ f, l = .act f (.access .newNode) → Makes m.data th.vars m'.data th'.vars

/-- The steps of a thread that only calls `add_cache`. -/
abbrev AddStep : Mem Cache × Thread Vars → Label Act Cond Fn → Mem Cache × Thread Vars → Prop :=
  Lts.Guarded (Threads.Solo TSound) fun _ l => ∀ f, l = .start f → f = .addCache

/-- The memory, and a thread whose unfinished calls are `st`. -/
def Here.with (h : Here) (st : List (Frame Act Cond Fn)) : Mem Cache × Thread Vars :=
  (⟨h.lock, h.data⟩, ⟨st, h.vars, h.own⟩)

theorem addStep_of_act {st st' : List (Frame Act Cond Fn)} {a : Act} {p q : Here}
    (hm : Move body Fn.Api st (.act f a) st') (h : Effects f a p q) :
    AddStep (p.with st) (.act f a) (q.with st') := by
  obtain ⟨heff, hown, hnew⟩ := h
  have hstep := TStep.mk (t := ⟨st, p.vars, p.own⟩) hm heff
  rw [← hown] at hstep
  refine ⟨.mk ⟨hstep, nofun, ?_⟩, nofun⟩
  rintro f ⟨⟩
  exact hnew rfl

theorem addStep_of_goes {p q : List (Frame Act Cond Fn) × Here} (h : Goes body Effects Outcome p q) :
    ∃ l, AddStep (p.2.with p.1) l (q.2.with q.1) := by
  have hle : ∀ f : Fn, False → f.Api := fun _ => False.elim
  cases h with
  | tau hm x => exact ⟨_, .mk ⟨.mk (hm.mono hle) (.tau _ _), nofun, nofun⟩, nofun⟩
  | call hm x => exact ⟨_, .mk ⟨.mk (hm.mono hle) (.call _ _ _), nofun, nofun⟩, nofun⟩
  | ret hm x => exact ⟨_, .mk ⟨.mk (hm.mono hle) (.ret _ _ _), nofun, nofun⟩, nofun⟩
  | test hm h => exact ⟨.test _ _, .mk ⟨.mk (hm.mono hle) h, nofun, nofun⟩, nofun⟩
  | act hm h => exact ⟨_, addStep_of_act (hm.mono hle) h⟩

theorem addStep_start : AddStep ((Here.free c x).with []) (.start .addCache)
    ((Here.free c x).with [⟨.addCache, [body .addCache]⟩]) := by
  refine ⟨.mk ⟨.mk (.start _ trivial) (.start _ _ _ _ rfl), ?_, ?_⟩, ?_⟩
  · rintro f ⟨⟩
    exact .inr rfl
  · rintro f ⟨⟩
  · rintro f ⟨⟩
    rfl

theorem path_of_leads {p q : List (Frame Act Cond Fn) × Here} (h : Leads body Effects Outcome p q) :
    ∃ ls, Lts.Path AddStep (p.2.with p.1) ls (q.2.with q.1) := by
  induction h with
  | refl => exact ⟨[], .nil _⟩
  | tail _ hs ih =>
    obtain ⟨ls, hpath⟩ := ih
    obtain ⟨l, hl⟩ := addStep_of_goes hs
    exact ⟨_, hpath.snoc hl⟩

/-- The arguments of a call of `add_cache` for a string of `n` bytes. -/
def Stores (n : ℕ) (x : Vars) : Prop := x.payload = List.replicate n 97 ++ [0] ∧ x.bytesize = n + 1

theorem Stores.makes (hx : Stores n x) (hn : n < maxObjectSize) (hp : p ≠ 0) (hfree : c.live p = false)
    (hnew : c.newNode p [] x.key (List.replicate n 97 ++ [0]) (n + 1) = .ok d) :
    Makes c x d { x with node := p } := by
  obtain ⟨hpayload, hbytesize⟩ := hx
  have hstr : cstr (List.replicate n 97 ++ [0]) = List.replicate n 97 :=
    cstr_append_zero (Cache.not_mem_replicate n) []
  have htake : (List.replicate n (97 : UInt8) ++ [0]).take (n + 1) = List.replicate n 97 ++ [0] :=
    List.take_of_length_le (by simp)
  rw [← hpayload, ← hbytesize] at hnew
  refine makes_newNode hnew hp hfree ⟨?_, ?_, ?_, hbytesize.trans_le hn⟩ ?_
  · simp [hpayload]
  · simp [hpayload, hbytesize, hstr]
  · simp [hpayload, hbytesize, htake]
  · simpa [hpayload, hbytesize, htake, hstr] using hn

variable {k m : ℕ}

/-- A call of `add_cache`, up to the first test of `cache_load`. -/
theorem path_add (h : Cache.Filled n k m c L) (hm : m ≠ 0) (hx : Stores n x) (hn : n < maxObjectSize) :
    ∃ c' y ls, Lts.Path AddStep ((Here.free c x).with []) ls ((Here.free c' y).with
        [⟨.addCache, [.ite (.queue .overLoad) evictLoop .skip, .skip]⟩]) ∧
      Stores n y ∧ Cache.Filled n (k + 1) (m + 1) c' (L ++ [m]) := by
  have hfree := h.free m le_rfl
  obtain ⟨c₁, c', hnew, -, hlink, hA⟩ := Cache.exists_added h.repr hm hfree x.key
    (Cache.not_mem_replicate n)
  rw [List.length_replicate] at hnew
  have henq : c₁.enqueue ((L ++ [m]).length + 1) m = .ok c' := by
    simp only [Cache.enqueue, hlink, ok_bind, hA.repr.cacheCheck_eq (Nat.lt_succ_self _), pure_eq_ok]
  have hmakes := runs_newNode (f := .addCache) (hx.makes hn hm hfree hnew)
  obtain ⟨q, j, hcall⟩ := runs_enqueue (f := .addCache) (x := { x with node := m }) henq
  have hbody : Leads body Effects Outcome ([⟨.addCache, [body .addCache]⟩], .free c x)
      ([⟨.addCache, [.ite (.queue .overLoad) evictLoop .skip, .skip]⟩],
        .free c' { x with node := m, check := q, count := j }) := by
    refine .head (.tau (.seq _ _ _ _ _) _) ((hmakes _ _).trans ?_)
    refine .head (.tau (.seq _ _ _ _ _) _) ((hcall _ _).trans ?_)
    exact .single (.tau (.seq _ _ _ _ _) _)
  obtain ⟨ls, hpath⟩ := path_of_leads hbody
  exact ⟨c', _, _, (Lts.Path.single addStep_start).append hpath, hx,
    h.added (Cache.not_mem_replicate n) List.length_replicate hA⟩

/-- The call ends if the cache fits. -/
theorem path_fits (h : Cache.Filled n k m c L) (hfits : k * n ≤ maxCacheSize) :
    ∃ ls, Lts.Path AddStep ((Here.free c x).with
        [⟨.addCache, [.ite (.queue .overLoad) evictLoop .skip, .skip]⟩]) ls ((Here.free c x).with []) := by
  have hload : Outcome (.queue .overLoad) false (.free c x) :=
    outcome_queue (by simp [Test.eval, h.load, hfits])
  exact path_of_leads (Ends.cons (.ite hload .skip) (.of_runs .skip) [])

/-- Calls that fit, one after the other. -/
theorem path_fill (hx : Stores n x) (hn : n < maxObjectSize) (k : ℕ) (hk : k * n ≤ maxCacheSize) :
    ∃ c y L ls, Lts.Path AddStep ((Here.free Cache.emptyCache x).with []) ls ((Here.free c y).with []) ∧
      Stores n y ∧ Cache.Filled n k (k + 3) c L := by
  induction k with
  | zero => exact ⟨_, x, _, [], .nil _, hx, Cache.filled_emptyCache⟩
  | succ k ih =>
    obtain ⟨c, y, L, ls, hpath, hy, h⟩ := ih (le_trans (Nat.mul_le_mul_right n (Nat.le_succ k)) hk)
    obtain ⟨c', y', ls', hadd, hy', h'⟩ := path_add h (Nat.succ_ne_zero _) hy hn
    obtain ⟨ls'', hfits⟩ := path_fits (x := y') h' hk
    rw [Nat.add_right_comm] at h'
    exact ⟨c', y', _, _, (hpath.append hadd).append hfits, hy', h'⟩

/-- A call that sees the cache over its limit enters the loop. -/
theorem path_over (h : Cache.Filled n k m c L) (hover : maxCacheSize < k * n) :
    ∃ ls, Lts.Path AddStep ((Here.free c x).with
        [⟨.addCache, [.ite (.queue .overLoad) evictLoop .skip, .skip]⟩]) ls ((Here.free c x).with
        [⟨.addCache, [.block [.call .dequeue, acc .freeDel], evictLoop, .skip]⟩]) := by
  have hload : Outcome (.queue .overLoad) true (.free c x) :=
    outcome_queue (by simp [Test.eval, h.load, hover])
  exact path_of_leads (.head (.test (.ite _ _ true _ _ _ _) hload)
    (.single (.test (.loop _ _ _ _ _) hload)))

/-- In the loop it takes out the first node and frees it. -/
theorem path_evict (h : Cache.Filled n (k + 1) m c L) (hx : Stores n x) :
    ∃ c' y L' ls ls', Lts.Path AddStep ((Here.free c x).with
        [⟨.addCache, [.block [.call .dequeue, acc .freeDel], evictLoop, .skip]⟩])
        (ls ++ [.act .addCache (.access .freeDel)] ++ ls')
        ((Here.free c' y).with [⟨.addCache, [evictLoop, .skip]⟩]) ∧
      Stores n y ∧ Cache.Filled n k m c' L' := by
  obtain ⟨d, ps, c₁, c', rfl, hd, hsec, hR, hfree, h'⟩ := h.exists_evict
  have hdeq : c.dequeue (ps.length + 1) = .ok (d, c₁) := by
    simp only [Cache.dequeue, hsec, ok_bind, if_neg hd, hR.cacheCheck_eq (Nat.lt_succ_self _),
      pure_eq_ok]
  obtain ⟨q, j, hcall⟩ := runs_dequeue (f := .addCache) (x := x) hdeq hd
  have hbefore : Leads body Effects Outcome
      ([⟨.addCache, [.block [.call .dequeue, acc .freeDel], evictLoop, .skip]⟩], .free c x)
      ([⟨.addCache, [acc .freeDel, .skip, evictLoop, .skip]⟩],
        .free c₁ { x with del := d, check := q, count := j }) :=
    .head (.tau (.seq _ _ _ _ _) _) ((hcall _ _).trans (.single (.tau (.seq _ _ _ _ _) _)))
  have hfreeDel : AddStep ((Here.free c₁ { x with del := d, check := q, count := j }).with
      [⟨.addCache, [acc .freeDel, .skip, evictLoop, .skip]⟩]) (.act .addCache (.access .freeDel))
      ((Here.free c' { x with del := d, check := q, count := j }).with
        [⟨.addCache, [.skip, evictLoop, .skip]⟩]) :=
    addStep_of_act (.act _ _ _ _) (effects_access (by decide) (by simp [Access.eval, hfree]))
  have hafter : Leads body Effects Outcome ([⟨.addCache, [.skip, evictLoop, .skip]⟩],
      .free c' { x with del := d, check := q, count := j })
      ([⟨.addCache, [evictLoop, .skip]⟩], .free c' { x with del := d, check := q, count := j }) :=
    Code.Runs.skip _ _
  obtain ⟨ls, hls⟩ := path_of_leads hbefore
  obtain ⟨ls', hls'⟩ := path_of_leads hafter
  exact ⟨c', _, ps, ls, ls', (hls.snoc hfreeDel).append hls', hx, h'⟩

/-- The loop ends where the cache fits again. -/
theorem path_exit (h : Cache.Filled n k m c L) (hfits : k * n ≤ maxCacheSize) :
    ∃ ls, Lts.Path AddStep ((Here.free c x).with [⟨.addCache, [evictLoop, .skip]⟩]) ls
      ((Here.free c x).with []) := by
  have hload : Outcome (.queue .overLoad) false (.free c x) :=
    outcome_queue (by simp [Test.eval, h.load, hfits])
  exact path_of_leads (Ends.cons (.exit hload) (.of_runs .skip) [])

end MiniProxy.CacheCode
