import MiniProxy.Cache.Model
import MiniProxy.Cache.RwLock
import MiniProxy.Lib.Code

/-!
# The code of the cache, statement by statement

The functions of `cache.c` as code over `P`, `V`, the statements on `readcnt`, and the statements that
touch the queue, each of them one step.

* `Access`, `Test`, `Act`, `Fn`, `body`: the statements and the functions;
* `Data`: what the statements on the queue do and how the tests come out;
* `Thread`, `TStep`, `Step`: any number of threads, each of which calls the functions of `Api` in any
  order;
* `Access.eval`, `Test.eval`, `cacheData`: the statements on the queue itself;
* `exec`: a thread on its own, executed; `exec_path`.
-/

namespace MiniProxy.CacheCode

open Clib Code
open RwLock (Lock lockInit)

/-- The statements on the queue. -/
inductive Access
  -- `enqueue`
  | nodePrev
  | nodeNext
  | endPrev
  | nodePrevNext
  | countInc
  | loadAdd
  -- `dequeue`
  | delNull
  | delFirst
  | frontNext
  | frontNextPrev
  | countDec
  | loadSub
  -- `update`
  | tomove
  | tomovePrevNext
  | tomoveNextPrev
  | tomoveNext
  | tomovePrev
  | endPrevTomove
  | tomovePrevNextTomove
  -- `is_cached`
  | pLast
  | pPrev
  | passFound
  | copyOut
  -- `cache_check`
  | assertEmpty
  | assertEnds
  | checkFirst
  | checkCount
  | assertLinked
  | checkNext
  | assertCount
  -- `add_cache`
  | newNode
  | freeDel
  -- `cache_destroy`
  | destroyFront
  | destroyNext
  | destroyFree
  | destroyMove
  | loadZero
  | countZero

/-- The tests on the queue. -/
inductive Test
  | isEmpty
  | notFront
  | isMatch
  | countZero
  | notEnd
  | overLoad
  | notNull

/-- The semaphores of the cache. -/
inductive Sem
  | mutex
  | w

/-- The statements. -/
inductive Act
  | P (s : Sem)
  | V (s : Sem)
  | readcntInc
  | readcntDec
  | access (a : Access)

/-- The conditions: `readcnt == n`, or a test on the queue. -/
inductive Cond
  | readcnt (n : ℤ)
  | queue (t : Test)

/-- The functions. -/
inductive Fn
  | preRead
  | postRead
  | preWrite
  | postWrite
  | cacheCheck
  | enqueue
  | dequeue
  | update
  | isCached
  | addCache
  | cacheDestroy
  | sigtermHandler
  deriving DecidableEq

/-- The functions that the threads call. -/
def Fn.Api : Fn → Prop
  | .enqueue | .dequeue | .update | .isCached | .addCache => True
  | _ => False

/-- A statement on the queue. -/
abbrev acc (a : Access) : Stmt Act Cond Fn := .act (.access a)

/-- The bodies of the functions. -/
def body : Fn → Stmt Act Cond Fn
  | .preRead => .block
    [.act (.P .mutex), .act .readcntInc, .ite (.readcnt 1) (.act (.P .w)) .skip, .act (.V .mutex)]
  | .postRead => .block
    [.act (.P .mutex), .act .readcntDec, .ite (.readcnt 0) (.act (.V .w)) .skip, .act (.V .mutex)]
  | .preWrite => .act (.P .w)
  | .postWrite => .act (.V .w)
  | .cacheCheck => .block
    [.call .preRead,
      .ite (.queue .countZero) (.block [acc .assertEmpty, acc .assertEnds])
        (.block [acc .checkFirst,
          .loop (.queue .notEnd) (.block [acc .checkCount, acc .assertLinked, acc .checkNext]),
          acc .assertCount]),
      .call .postRead]
  | .enqueue => .block
    [.call .preWrite, acc .nodePrev, acc .nodeNext, acc .endPrev, acc .nodePrevNext, acc .countInc,
      acc .loadAdd, .call .postWrite, .call .cacheCheck]
  | .dequeue => .block
    [.call .preWrite,
      .ite (.queue .isEmpty) (.block [.call .postWrite, acc .delNull, .ret]) .skip,
      acc .delFirst, acc .frontNext, acc .frontNextPrev, acc .countDec, acc .loadSub,
      .call .postWrite, .call .cacheCheck, .ret]
  | .update => .block
    [acc .tomove, .call .preWrite, acc .tomovePrevNext, acc .tomoveNextPrev, acc .tomoveNext,
      acc .tomovePrev, acc .endPrevTomove, acc .tomovePrevNextTomove, .call .postWrite,
      .call .cacheCheck]
  | .isCached => .block
    [.call .preRead, .ite (.queue .isEmpty) (.block [.call .postRead, .ret]) .skip,
      acc .pLast,
      .loop (.queue .notFront) (.block
        [.ite (.queue .isMatch)
          (.block [.call .postRead, acc .passFound, .call .update, acc .copyOut, .ret]) .skip,
          acc .pPrev]),
      .call .postRead, .ret]
  | .addCache => .block
    [acc .newNode, .call .enqueue,
      .ite (.queue .overLoad)
        (.loop (.queue .overLoad) (.block [.call .dequeue, acc .freeDel])) .skip]
  | .cacheDestroy => .block
    [.call .preWrite, acc .destroyFront,
      .loop (.queue .notNull) (.block [acc .destroyNext, acc .destroyFree, acc .destroyMove]),
      acc .loadZero, acc .countZero, .call .postWrite]
  | .sigtermHandler => .block [.call .cacheDestroy, .ret]

/-! ## Threads -/

/-- What the statements on the queue do to the shared data `D` and the caller's variables `V`, how the
tests come out, and with what arguments a function is called. Where C leaves this open there may be
several results, but every statement ends. -/
structure Data (D V : Type*) where
  enter : Fn → V → V → Prop
  run : Access → D × V → D × V → Prop
  test : Test → D × V → Bool → Prop
  run_total : ∀ a x, ∃ y, run a x y
  test_total : ∀ t x, ∃ v, test t x v

/-- The shared memory. -/
structure Mem (D : Type*) where
  lock : Lock
  data : D

/-- What a thread has taken of the lock: `P(&mutex)` less `V(&mutex)`, increments of `readcnt` less
decrements, and write sections entered less left. -/
@[ext] structure Own where
  mutex : ℤ
  readcnt : ℤ
  write : ℤ

/-- Nothing taken. -/
def Own.none : Own := ⟨0, 0, 0⟩

/-- `own` after a step. -/
def Own.after (o : Own) : Label Act Cond Fn → Own
  | .act _ (.P .mutex) => { o with mutex := o.mutex + 1 }
  | .act _ (.V .mutex) => { o with mutex := o.mutex - 1 }
  | .act _ .readcntInc => { o with readcnt := o.readcnt + 1 }
  | .act _ .readcntDec => { o with readcnt := o.readcnt - 1 }
  | .act .preWrite (.P .w) => { o with write := o.write + 1 }
  | .act .postWrite (.V .w) => { o with write := o.write - 1 }
  | _ => o

/-- The calls that a thread has not finished, its variables, and what it has taken of the lock. -/
structure Thread (V : Type*) where
  stack : List (Frame Act Cond Fn)
  vars : V
  own : Own

section Steps

variable {D V : Type*} (I : Data D V)

/-- What a step does to the memory and to the variables of the thread that takes it. -/
inductive Effect : Mem D → V → Label Act Cond Fn → Mem D → V → Prop
  | tau (m : Mem D) (x : V) : Effect m x .tau m x
  | start (m : Mem D) (x y : V) (f : Fn) (h : I.enter f x y) : Effect m x (.start f) m y
  | call (m : Mem D) (x : V) (f : Fn) : Effect m x (.call f) m x
  | ret (m : Mem D) (x : V) (f : Fn) : Effect m x (.ret f) m x
  | pMutex (l : Lock) (d : D) (x : V) (f : Fn) (h : 0 < l.mutex) :
      Effect ⟨l, d⟩ x (.act f (.P .mutex)) ⟨{ l with mutex := l.mutex - 1 }, d⟩ x
  | pW (l : Lock) (d : D) (x : V) (f : Fn) (h : 0 < l.w) :
      Effect ⟨l, d⟩ x (.act f (.P .w)) ⟨{ l with w := l.w - 1 }, d⟩ x
  | vMutex (l : Lock) (d : D) (x : V) (f : Fn) :
      Effect ⟨l, d⟩ x (.act f (.V .mutex)) ⟨{ l with mutex := l.mutex + 1 }, d⟩ x
  | vW (l : Lock) (d : D) (x : V) (f : Fn) :
      Effect ⟨l, d⟩ x (.act f (.V .w)) ⟨{ l with w := l.w + 1 }, d⟩ x
  | readcntInc (l : Lock) (d : D) (x : V) (f : Fn) :
      Effect ⟨l, d⟩ x (.act f .readcntInc) ⟨{ l with readcnt := l.readcnt + 1 }, d⟩ x
  | readcntDec (l : Lock) (d : D) (x : V) (f : Fn) :
      Effect ⟨l, d⟩ x (.act f .readcntDec) ⟨{ l with readcnt := l.readcnt - 1 }, d⟩ x
  | access (l : Lock) (d d' : D) (x y : V) (f : Fn) (a : Access) (h : I.run a (d, x) (d', y)) :
      Effect ⟨l, d⟩ x (.act f (.access a)) ⟨l, d'⟩ y
  | readcnt (m : Mem D) (x : V) (n : ℤ) :
      Effect m x (.test (.readcnt n) (decide (m.lock.readcnt = n))) m x
  | queue (m : Mem D) (x : V) (t : Test) (v : Bool) (h : I.test t (m.data, x) v) :
      Effect m x (.test (.queue t) v) m x

/-- What a statement does to the lock. -/
def Act.onLock (l : Lock) : Act → Lock
  | .P .mutex => { l with mutex := l.mutex - 1 }
  | .P .w => { l with w := l.w - 1 }
  | .V .mutex => { l with mutex := l.mutex + 1 }
  | .V .w => { l with w := l.w + 1 }
  | .readcntInc => { l with readcnt := l.readcnt + 1 }
  | .readcntDec => { l with readcnt := l.readcnt - 1 }
  | .access _ => l

/-- The statement does not wait at a semaphore. -/
def Act.Ready (l : Lock) : Act → Prop
  | .P .mutex => 0 < l.mutex
  | .P .w => 0 < l.w
  | _ => True

instance (l : Lock) : (a : Act) → Decidable (a.Ready l)
  | .P .mutex => inferInstanceAs (Decidable (0 < l.mutex))
  | .P .w => inferInstanceAs (Decidable (0 < l.w))
  | .V _ | .readcntInc | .readcntDec | .access _ => inferInstanceAs (Decidable True)

theorem effect_onLock {l : Lock} {a : Act} (ha : ∀ b, a ≠ .access b) (h : a.Ready l) (d : D) (x : V)
    (f : Fn) : Effect I ⟨l, d⟩ x (.act f a) ⟨a.onLock l, d⟩ x := by
  cases a with
  | P s =>
    cases s with
    | mutex => exact .pMutex l d x f h
    | w => exact .pW l d x f h
  | V s =>
    cases s with
    | mutex => exact .vMutex l d x f
    | w => exact .vW l d x f
  | readcntInc => exact .readcntInc l d x f
  | readcntDec => exact .readcntDec l d x f
  | access b => exact absurd rfl (ha b)

/-- The steps of one thread. -/
inductive TStep : Mem D → Thread V → Label Act Cond Fn → Mem D → Thread V → Prop
  | mk {m m' : Mem D} {t : Thread V} {l : Label Act Cond Fn} {st : List (Frame Act Cond Fn)} {y : V}
      (hmove : Move body Fn.Api t.stack l st) (heff : Effect I m t.vars l m' y) :
      TStep m t l m' ⟨st, y, t.own.after l⟩

/-- The cache shared by the threads `ι`. -/
abbrev State (ι D V : Type*) := Threads.Sys ι (Mem D) (Thread V)

/-- Any thread takes a step. -/
abbrev Step {ι : Type*} [DecidableEq ι] :
    State ι D V → ι × Label Act Cond Fn → State ι D V → Prop :=
  Threads.Step (TStep I)

end Steps

/-- After `cache_init`, before any call. -/
def init {ι D V : Type*} (d : D) (x : ι → V) : State ι D V :=
  ⟨⟨lockInit, d⟩, fun i => ⟨[], x i, .none⟩⟩

/-! ## The queue -/

/-- The arguments and the local variables of a thread's calls. `del` is the one of `dequeue` and, when
it has returned, the one of `add_cache`; `p` belongs to `is_cached`, `check` and `count` to
`cache_check`, and `cur` and `nxt` to `cache_destroy`. -/
structure Vars where
  key : Key
  payload : List UInt8
  bytesize : ℕ
  node : Ptr
  del : Ptr
  tomove : Ptr
  p : Ptr
  out : List UInt8
  check : Ptr
  count : ℕ
  cur : Ptr
  nxt : Ptr

/-- What a statement does, where `malloc` returns `fresh` and `junk` lies behind the copy of a payload. -/
def Access.eval (fresh : Ptr) (junk : List UInt8) (c : Cache) (x : Vars) :
    Access → Exec (Cache × Vars)
  | .nodePrev => do
    let q ← c.getPrev c.endp
    return (← c.setPrev x.node q, x)
  | .nodeNext => do return (← c.setNext x.node c.endp, x)
  | .endPrev => do return (← c.setPrev c.endp x.node, x)
  | .nodePrevNext => do
    let q ← c.getPrev x.node
    return (← c.setNext q x.node, x)
  | .countInc => return ({ c with cacheCount := c.cacheCount + 1 }, x)
  | .loadAdd => do
    let n ← c.payloadLen x.node
    return ({ c with cacheLoad := c.cacheLoad + n }, x)
  | .delNull => return (c, { x with del := 0 })
  | .delFirst => do return (c, { x with del := ← c.getNext c.front })
  | .frontNext => do
    let q ← c.getNext x.del
    return (← c.setNext c.front q, x)
  | .frontNextPrev => do
    let q ← c.getNext c.front
    return (← c.setPrev q c.front, x)
  | .countDec => return ({ c with cacheCount := c.cacheCount - 1 }, x)
  | .loadSub => do
    let n ← c.payloadLen x.del
    return ({ c with cacheLoad := subSize c.cacheLoad n }, x)
  | .tomove => return (c, { x with tomove := x.node })
  | .tomovePrevNext => do
    let q ← c.getPrev x.tomove
    let r ← c.getNext x.tomove
    return (← c.setNext q r, x)
  | .tomoveNextPrev => do
    let q ← c.getNext x.tomove
    let r ← c.getPrev x.tomove
    return (← c.setPrev q r, x)
  | .tomoveNext => do return (← c.setNext x.tomove c.endp, x)
  | .tomovePrev => do
    let q ← c.getPrev c.endp
    return (← c.setPrev x.tomove q, x)
  | .endPrevTomove => do return (← c.setPrev c.endp x.tomove, x)
  | .tomovePrevNextTomove => do
    let q ← c.getPrev x.tomove
    return (← c.setNext q x.tomove, x)
  | .pLast => do return (c, { x with p := ← c.getPrev c.endp })
  | .pPrev => do return (c, { x with p := ← c.getPrev x.p })
  | .passFound => return (c, { x with node := x.p })
  | .copyOut => do return (c, { x with out := ← c.copyOut x.p })
  | .assertEmpty => do
    let empty ← c.isEmpty
    Clib.check (empty = true) .abort
    return (c, x)
  | .assertEnds => do
    let q ← c.getPrev c.front
    let r ← c.getNext c.endp
    Clib.check (q = 0 ∧ r = 0) .abort
    return (c, x)
  | .checkFirst => do return (c, { x with count := 0, check := ← c.getNext c.front })
  | .checkCount => return (c, { x with count := x.count + 1 })
  | .assertLinked => do
    let q ← c.getPrev x.check
    let r ← c.getNext q
    Clib.check (x.check = r) .abort
    return (c, x)
  | .checkNext => do return (c, { x with check := ← c.getNext x.check })
  | .assertCount => do
    Clib.check ((x.count : ℤ) = c.cacheCount) .abort
    return (c, x)
  | .newNode => do
    Clib.check (fresh ≠ 0) .oob
    return (← c.newNode fresh junk x.key x.payload x.bytesize, { x with node := fresh })
  | .freeDel => do return (← c.freeNode x.del, x)
  | .destroyFront => return (c, { x with cur := c.front })
  | .destroyNext => do return (c, { x with nxt := ← c.getNext x.cur })
  | .destroyFree => do return (← c.freeNode x.cur, x)
  | .destroyMove => return (c, { x with cur := x.nxt })
  | .loadZero => return ({ c with cacheLoad := 0 }, x)
  | .countZero => return ({ c with cacheCount := 0 }, x)

/-- How a test comes out. -/
def Test.eval (c : Cache) (x : Vars) : Test → Exec Bool
  | .isEmpty => c.isEmpty
  | .notFront => return decide (x.p ≠ c.front)
  | .isMatch => c.isMatch x.p x.key
  | .countZero => return decide (c.cacheCount = 0)
  | .notEnd => return decide (x.check ≠ c.endp)
  | .overLoad => return decide (c.cacheLoad > maxCacheSize)
  | .notNull => return decide (x.cur ≠ 0)

/-- The queue as the data of the code. `malloc` returns `NULL` or an address that is not in use. After
an access to a freed node or through `NULL`, and past a failed `assert`, anything may follow. -/
def cacheData : Data Cache Vars where
  enter _ x y := x = { y with
    key := x.key, payload := x.payload, bytesize := x.bytesize, node := x.node }
  run a x y := ∃ fresh junk, (fresh = 0 ∨ x.1.live fresh = false) ∧
    ∀ z, a.eval fresh junk x.1 x.2 = .ok z → y = z
  test t x v := ∀ b, t.eval x.1 x.2 = .ok b → v = b
  run_total a x := by
    cases h : a.eval 0 [] x.1 x.2 with
    | error e => exact ⟨x, 0, [], .inl rfl, by simp [h]⟩
    | ok z => exact ⟨z, 0, [], .inl rfl, by simp [h]⟩
  test_total t x := by
    cases h : t.eval x.1 x.2 with
    | error e => exact ⟨true, by simp⟩
    | ok b => exact ⟨b, by simp⟩

/-! ## Execution -/

/-- How a condition comes out; one way where C leaves it open. -/
def Cond.exec (m : Mem Cache) (x : Vars) : Cond → Bool
  | .readcnt n => decide (m.lock.readcnt = n)
  | .queue t =>
    match t.eval m.data x with
    | .ok b => b
    | .error _ => false

/-- What a statement does, where `malloc` returns `NULL`; `none` at a `P` that waits. -/
def Act.exec (m : Mem Cache) (x : Vars) : Act → Option (Mem Cache × Vars)
  | .access a =>
    match a.eval 0 [] m.data x with
    | .ok z => some ({ m with data := z.1 }, z.2)
    | .error _ => some (m, x)
  | a => if a.Ready m.lock then some ({ m with lock := a.onLock m.lock }, x) else none

/-- What a step of the control flow does. -/
def execLabel (m : Mem Cache) (x : Vars) : Label Act Cond Fn → Option (Mem Cache × Vars)
  | .act _ a => a.exec m x
  | _ => some (m, x)

theorem effect_exec {m m' : Mem Cache} {x y : Vars} {l : Label Act Cond Fn}
    (h : execLabel m x l = some (m', y)) (hstart : ∀ f, l ≠ .start f)
    (htest : ∀ b v, l = .test b v → v = b.exec m x) : Effect cacheData m x l m' y := by
  cases l with
  | start f => exact absurd rfl (hstart f)
  | tau =>
    cases h
    exact .tau _ _
  | call f =>
    cases h
    exact .call _ _ _
  | ret f =>
    cases h
    exact .ret _ _ _
  | test b v =>
    cases h
    obtain rfl := htest b v rfl
    cases b with
    | readcnt n => exact .readcnt _ _ _
    | queue t =>
      refine .queue _ _ _ _ fun b hb => ?_
      simp only [Cond.exec, hb]
  | act f a =>
    simp only [execLabel] at h
    unfold Act.exec at h
    split at h
    · rename_i a
      split at h
      · rename_i z hz
        cases h
        exact .access _ _ _ _ _ _ _
          ⟨0, [], .inl rfl, fun z' hz' => Except.ok.inj (hz.symm.trans hz')⟩
      · rename_i e he
        cases h
        refine .access _ _ _ _ _ _ _ ⟨0, [], .inl rfl, fun z' hz' => ?_⟩
        rw [he] at hz'
        cases hz'
    · rename_i ha
      split_ifs at h with hready
      cases h
      exact effect_onLock _ ha hready _ _ _

/-- The steps of a thread on its own, at most `n` of them, and where they lead. It stops where its
calls have returned and at a `P` that waits. -/
def exec : ℕ → Mem Cache × Thread Vars → List (Label Act Cond Fn) × Mem Cache × Thread Vars
  | 0, x => ([], x)
  | n + 1, x =>
    match next body (Cond.exec x.1 x.2.vars) x.2.stack with
    | none => ([], x)
    | some (l, st) =>
      match execLabel x.1 x.2.vars l with
      | none => ([], x)
      | some (m, y) =>
        let z := exec n (m, ⟨st, y, x.2.own.after l⟩)
        (l :: z.1, z.2)

theorem exec_path (n : ℕ) (x : Mem Cache × Thread Vars) :
    Lts.Path (Threads.Solo (TStep cacheData)) x (exec n x).1 (exec n x).2 ∧
      ∀ l ∈ (exec n x).1, ∀ f, l ≠ .start f := by
  induction n generalizing x with
  | zero => exact ⟨.nil x, by simp [exec]⟩
  | succ n ih =>
    obtain ⟨m, t⟩ := x
    unfold exec
    split
    · exact ⟨.nil _, by simp⟩
    · rename_i l st hnext
      split
      · exact ⟨.nil _, by simp⟩
      · rename_i m' y hexec
        obtain ⟨hmove, hstart, htest⟩ := @move_next _ _ _ body Fn.Api _ _ _ _ hnext
        obtain ⟨hpath, hrest⟩ := ih (m', ⟨st, y, t.own.after l⟩)
        have hs := Threads.Solo.mk (TStep.mk hmove (effect_exec hexec hstart htest))
        exact ⟨(Lts.Path.single hs).append hpath, List.forall_mem_cons.mpr ⟨hstart, hrest⟩⟩

end MiniProxy.CacheCode
