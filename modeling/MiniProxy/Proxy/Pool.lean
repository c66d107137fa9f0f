import Mathlib.Data.Fintype.Option
import MiniProxy.Lib.Dispatch
import MiniProxy.Proxy.Descriptors
import MiniProxy.Sbuf.Fifo

/-!
# The listener and its workers

`main` starts the workers `ω` and then runs `listen_on`. The listener accepts connections and puts
their descriptors into the ring buffer `sbuf`; every worker takes a descriptor out, serves the
connection and closes it. All threads share one descriptor table, and a number that was closed may be
handed out again.

* `File`, `Process`: what a descriptor refers to, and what the threads share;
* `LPc`, `LStep`: `listen_on`; `WPc`, `WStep`: `worker`; `State`, `Step`, `init`: all threads;
* `fdOps_of_workerMain`: what `worker_main` does to the descriptor table;
* `State.ring`, **`ring_step`**: the threads are inserters and removers of the ring buffer;
* `path_noWrap`: the running indices of the ring buffer do not wrap.
-/

namespace MiniProxy.Pool

variable {ω : Type*}

/-- What an open descriptor refers to: the connection of the `k`-th call of `accept`, a socket that a
worker has opened to an origin, or something else. -/
inductive File (ω : Type*) where
  | client (k : ℕ)
  | origin (wid : ω)
  | other

/-- What the threads share: the ring buffer, the descriptor table, and how often `accept` was
called. -/
structure Process (ω : Type*) where
  sbuf : Sbuf
  table : ℤ → Option (File ω)
  accepts : ℕ
  exited : Bool

/-- `open` and `accept` put an entry into the table, and `close` takes it out. -/
def Process.set (κ : Process ω) (fd : ℤ) (file : Option (File ω)) : Process ω :=
  { κ with table := Function.update κ.table fd file }

theorem Process.set_self (κ : Process ω) (fd : ℤ) (file : Option (File ω)) :
    (κ.set fd file).table fd = file := by
  simp only [Process.set, Function.update_self]

theorem Process.set_of_ne (κ : Process ω) (file : Option (File ω)) {fd x : ℤ} (hx : x ≠ fd) :
    (κ.set fd file).table x = κ.table x := by
  simp only [Process.set, Function.update_of_ne hx]

theorem Process.set_keeps (κ : Process ω) {file : Option (File ω)} {fd x : ℤ}
    {f : File ω} (hfd : κ.table fd = none) (hx : κ.table x = some f) :
    (κ.set fd file).table x = some f := by
  have hne : x ≠ fd := by
    rintro rfl
    cases hfd.symm.trans hx
  exact (κ.set_of_ne file hne).trans hx

theorem Process.set_nonneg (κ : Process ω) {file : Option (File ω)} {fd : ℤ} (h₀ : 0 ≤ fd)
    (h : ∀ x, κ.table x ≠ none → 0 ≤ x) {x : ℤ} (hx : (κ.set fd file).table x ≠ none) : 0 ≤ x := by
  by_cases hne : x = fd
  · exact hne ▸ h₀
  · exact h x fun hnone => hx ((κ.set_of_ne file hne).trans hnone)

/-- What a step shows. -/
inductive Ev where
  | ring (e : Sbuf.Ev)
  | accepted (connfd : ℤ)
  | named
  | fd (op : FdOp)
  | released (connfd : ℤ)
  | exited

/-! ## `listen_on` -/

/-- The places of the listener. -/
inductive LPc where
  | accept
  | insert (p : Sbuf.Pc)
  | getnameinfo

/-- The loop of `listen_on`. -/
inductive LStep : Process ω → LPc → Ev → Process ω → LPc → Prop
  | accept (κ : Process ω) (connfd : ℤ) (h₀ : 0 ≤ connfd) (hfd : κ.table connfd = none) :
      LStep κ .accept (.accepted connfd)
        { κ.set connfd (some (.client κ.accepts)) with accepts := κ.accepts + 1 }
        (.insert (.insSlots connfd))
  -- what `accept` returns is not checked
  | refuse (κ : Process ω) :
      LStep κ .accept (.accepted (-1)) { κ with accepts := κ.accepts + 1 }
        (.insert (.insSlots (-1)))
  | insert {κ : Process ω} {sp : Sbuf} {p p' : Sbuf.Pc} {e : Sbuf.Ev}
      (h : Sbuf.TStep κ.sbuf p e sp p') (hp : p' ≠ .idle) :
      LStep κ (.insert p) (.ring e) { κ with sbuf := sp } (.insert p')
  | inserted {κ : Process ω} {sp : Sbuf} {p : Sbuf.Pc} {e : Sbuf.Ev}
      (h : Sbuf.TStep κ.sbuf p e sp .idle) :
      LStep κ (.insert p) (.ring e) { κ with sbuf := sp } .getnameinfo
  | named (κ : Process ω) : LStep κ .getnameinfo .named κ .accept
  | unnamed (κ : Process ω) : LStep κ .getnameinfo .exited { κ with exited := true } .getnameinfo

/-! ## `worker` -/

/-- The places of a worker; in `serve`, the calls that `worker_main` has yet to make on the table. -/
inductive WPc where
  | idle
  | remove (p : Sbuf.Pc)
  | serve (connfd : ℤ) (ops : List FdOp)

/-- The loop of `worker`. `worker_main` asks an origin at the addresses `listp`, or at none. -/
inductive WStep (wid : ω) : Process ω → WPc → Ev → Process ω → WPc → Prop
  | call (κ : Process ω) : WStep wid κ .idle (.ring .tau) κ (.remove .remItems)
  | remove {κ : Process ω} {sp : Sbuf} {p p' : Sbuf.Pc} {e : Sbuf.Ev}
      (h : Sbuf.TStep κ.sbuf p e sp p') (hp : p' ≠ .idle) :
      WStep wid κ (.remove p) (.ring e) { κ with sbuf := sp } (.remove p')
  | removed {κ : Process ω} {sp : Sbuf} {connfd : ℤ} {e : Sbuf.Ev} (listp : List Candidate)
      (h : Sbuf.TStep κ.sbuf (.remSlots connfd) e sp .idle) :
      WStep wid κ (.remove (.remSlots connfd)) (.ring e) { κ with sbuf := sp }
        (.serve connfd (openClientfdLoop listp).2)
  | opened (κ : Process ω) (connfd : ℤ) (fd : ℕ) (ops : List FdOp) (hfd : κ.table fd = none) :
      WStep wid κ (.serve connfd (.opened fd :: ops)) (.fd (.opened fd))
        (κ.set fd (some (.origin wid))) (.serve connfd ops)
  | closed (κ : Process ω) (connfd : ℤ) (fd : ℕ) (ops : List FdOp) :
      WStep wid κ (.serve connfd (.closed fd :: ops)) (.fd (.closed fd)) (κ.set fd none)
        (.serve connfd ops)
  -- `getaddrinfo` fails in `open_clientfd`
  | exit (κ : Process ω) (connfd : ℤ) (ops : List FdOp) :
      WStep wid κ (.serve connfd ops) .exited { κ with exited := true } (.serve connfd ops)
  | close (κ : Process ω) (connfd : ℤ) :
      WStep wid κ (.serve connfd []) (.released connfd) (κ.set connfd none) .idle

theorem fdOps_of_workerMain {fuel : ℕ} {env : Env} {c : Cache} {o : Outcome}
    (h : workerMain fuel env c = .ok o) : ∃ listp, o.reply.fdOps = (openClientfdLoop listp).2 := by
  by_cases ha : Answered c env
  · exact ⟨[], fdOps_of_answered h ha⟩
  · obtain ⟨listp, fd, hopen⟩ := fdOps_of_not_answered h ha
    exact ⟨listp, (congrArg Prod.snd hopen).symm⟩

/-! ## All threads -/

/-- The process and the places of its threads. -/
structure State (ω : Type*) where
  proc : Process ω
  listener : LPc
  worker : ω → WPc

variable [DecidableEq ω]

/-- A thread takes a step; `none` is the listener. -/
inductive Step : State ω → Option ω × Ev → State ω → Prop
  | listen {s : State ω} {e : Ev} {κ : Process ω} {p : LPc} (hrun : s.proc.exited = false)
      (h : LStep s.proc s.listener e κ p) :
      Step s (none, e) { s with proc := κ, listener := p }
  | work {s : State ω} {w : ω} {e : Ev} {κ : Process ω} {p : WPc} (hrun : s.proc.exited = false)
      (h : WStep w s.proc (s.worker w) e κ p) :
      Step s (some w, e) { s with proc := κ, worker := Function.update s.worker w p }

/-- After `sbuf_setup(&sbuf, n)` and `worker_setup`, with the descriptors `fds` open. -/
def init (n : ℕ) (fds : Finset ℕ) : State ω where
  proc :=
    { sbuf := sbufSetup n
      table := fun fd => if 0 ≤ fd ∧ fd.toNat ∈ fds then some .other else none
      accepts := 0
      exited := false }
  listener := .accept
  worker := fun _ => .idle

/-! ## The ring buffer -/

/-- Where the listener stands in `sbuf_insert`. -/
def LPc.ring : LPc → Sbuf.Pc
  | .insert p => p
  | _ => .idle

/-- Where a worker stands in `sbuf_remove`. -/
def WPc.ring : WPc → Sbuf.Pc
  | .remove p => p
  | _ => .idle

/-- The threads as callers of the ring buffer. -/
def State.ring (s : State ω) : Sbuf.State (Option ω) :=
  ⟨s.proc.sbuf, fun i => i.elim s.listener.ring fun w => (s.worker w).ring⟩

/-- The step of a call of the ring buffer that the event is. `accept` returns into one. -/
def Ev.ring? : Ev → Option Sbuf.Ev
  | .ring e => some e
  | .accepted _ => some .tau
  | _ => none

/-- A run of the threads as one of the ring buffer. -/
def ringTrace (tr : List (Option ω × Ev)) : List (Option ω × Sbuf.Ev) :=
  tr.filterMap fun a => a.2.ring?.map (Prod.mk a.1)

theorem ring_listen (s : State ω) (κ : Process ω) (p : LPc) :
    State.ring { s with proc := κ, listener := p } =
      ⟨κ.sbuf, Function.update s.ring.pc none p.ring⟩ := by
  refine congrArg (Threads.Sys.mk κ.sbuf) (funext fun i => ?_)
  cases i with
  | none => rw [Function.update_self]; rfl
  | some w => rw [Function.update_of_ne (Option.some_ne_none w)]; rfl

theorem ring_work (s : State ω) (κ : Process ω) (w : ω) (p : WPc) :
    State.ring { s with proc := κ, worker := Function.update s.worker w p } =
      ⟨κ.sbuf, Function.update s.ring.pc (some w) p.ring⟩ := by
  refine congrArg (Threads.Sys.mk κ.sbuf) (funext fun i => ?_)
  cases i with
  | none => rw [Function.update_of_ne (Option.some_ne_none w).symm]; rfl
  | some v =>
    by_cases hv : v = w
    · rw [hv, Function.update_self]
      simp only [Option.elim, Function.update_self]
    · rw [Function.update_of_ne fun e => hv (Option.some.inj e)]
      simp only [Option.elim, Function.update_of_ne hv]
      rfl

theorem ring_listen_stays (s : State ω) (κ : Process ω) (p : LPc) (hκ : κ.sbuf = s.proc.sbuf)
    (hp : p.ring = s.listener.ring) : State.ring { s with proc := κ, listener := p } = s.ring := by
  rw [ring_listen, hκ, hp]
  exact congrArg (Threads.Sys.mk s.proc.sbuf) (Function.update_eq_self none s.ring.pc)

theorem ring_work_stays (s : State ω) (κ : Process ω) (w : ω) (p : WPc)
    (hκ : κ.sbuf = s.proc.sbuf) (hp : p.ring = (s.worker w).ring) :
    State.ring { s with proc := κ, worker := Function.update s.worker w p } = s.ring := by
  rw [ring_work, hκ, hp]
  exact congrArg (Threads.Sys.mk s.proc.sbuf) (Function.update_eq_self (some w) s.ring.pc)

/-- **The threads use the ring buffer** as its inserters and removers do. -/
theorem ring_step :
    Lts.Simulates (Step (ω := ω)) Sbuf.Step (fun a => a.2.ring?.map (Prod.mk a.1))
      fun s t => t = s.ring := by
  rintro s a s' _ rfl hs
  cases hs with
  | @listen e κ p hrun h =>
    have hring := ring_listen s κ p
    generalize hl : s.listener = l at h
    have hpc : s.ring.pc none = l.ring := by rw [← hl]; rfl
    cases h with
    | accept connfd h₀ hfd | refuse =>
      refine .inr ⟨_, _, rfl, .mk ?_, hring.symm⟩
      rw [hpc]
      exact .insert _ _
    | insert h hp | inserted h =>
      refine .inr ⟨_, _, rfl, .mk ?_, hring.symm⟩
      rw [hpc]
      exact h
    | named | unnamed =>
      refine .inl ⟨rfl, (ring_listen_stays s _ _ ?_ ?_).symm⟩
      · rfl
      · exact hpc.symm
  | @work w e κ p hrun h =>
    have hring := ring_work s κ w p
    generalize hw : s.worker w = q at h
    have hpc : s.ring.pc (some w) = q.ring := by rw [← hw]; rfl
    cases h with
    | call =>
      refine .inr ⟨_, _, rfl, .mk ?_, hring.symm⟩
      rw [hpc]
      exact .remove _
    | remove h hp | removed listp h =>
      refine .inr ⟨_, _, rfl, .mk ?_, hring.symm⟩
      rw [hpc]
      exact h
    | opened connfd fd ops hfd | closed connfd fd ops | exit connfd ops | close connfd =>
      refine .inl ⟨rfl, (ring_work_stays s _ w _ ?_ ?_).symm⟩
      · rfl
      · exact hpc.symm

variable {s : State ω} {tr : List (Option ω × Ev)} {n : ℕ} {fds : Finset ℕ}

omit [DecidableEq ω] in
theorem ring_init (n : ℕ) (fds : Finset ℕ) : (init n fds : State ω).ring = Sbuf.init n := by
  refine congrArg (Threads.Sys.mk (sbufSetup n)) (funext fun i => ?_)
  cases i <;> rfl

theorem path_ring (h : Lts.Path Step (init n fds) tr s) :
    Lts.Path Sbuf.Step (Sbuf.init n) (ringTrace tr) s.ring := by
  obtain ⟨_, hpath, rfl⟩ := ring_step.path rfl h
  rw [← ring_init n fds]
  exact hpath

/-- A step of the ring buffer after which `rear` has not wrapped. -/
def noWrap (s : State ω) (a : Option ω × Ev) : Prop :=
  ∀ e, a.2.ring? = some e → Sbuf.noWrap s.ring (a.1, e)

/-- With fewer than `2 ^ 31` connections, `rear` never wraps. -/
theorem path_noWrap [Fintype ω] (h : Lts.Path Step (init n fds) tr s)
    (hlt : (Sbuf.inserted (ringTrace tr)).length < 2 ^ 31) :
    Lts.Path (Lts.Guarded Step noWrap) (init n fds) tr s := by
  induction h with
  | nil => exact Lts.Path.nil _
  | @snoc s₁ s₂ tr a hpath hs ih =>
    rw [ringTrace, List.filterMap_append, ← ringTrace, Sbuf.inserted, Sbuf.shown,
      List.filterMap_append, List.length_append] at hlt
    refine Lts.Path.snoc (ih (by rw [Sbuf.inserted, Sbuf.shown]; omega)) ⟨hs, fun e he hi => ?_⟩
    obtain ⟨item, hitem⟩ := Option.isSome_iff_exists.mp hi
    have hr := (Sbuf.path_counts (path_ring hpath)).1.rear
    simp only [List.filterMap_cons, he, Option.map_some, List.filterMap_nil, hitem,
      List.length_singleton] at hlt
    rw [hr, Sbuf.inserted, Sbuf.shown, Sbuf.int32_of_lt (by omega) (by omega)]
    omega

/-! ## Connections that meet no other thread -/

theorem listen_step {κ κ' : Process ω} {l l' : LPc} {W : ω → WPc} {e : Ev}
    (hrun : κ.exited = false) (h : LStep κ l e κ' l') :
    Step ⟨κ, l, W⟩ (none, e) ⟨κ', l', W⟩ :=
  .listen (s := ⟨κ, l, W⟩) hrun h

theorem work_step {κ κ' : Process ω} {l : LPc} {W : ω → WPc} {w : ω} {e : Ev} {p p' : WPc}
    (hrun : κ.exited = false) (h : WStep w κ p e κ' p') :
    Step ⟨κ, l, Function.update W w p⟩ (some w, e) ⟨κ', l, Function.update W w p'⟩ := by
  have hs : Step ⟨κ, l, Function.update W w p⟩ (some w, e)
      ⟨κ', l, Function.update (Function.update W w p) w p'⟩ :=
    .work hrun (by simpa only [Function.update_self] using h)
  rwa [Function.update_idem] at hs

/-- The listener accepts a connection and puts it into the ring buffer. -/
theorem path_listen {κ : Process ω} (W : ω → WPc) {connfd : ℤ} (hrun : κ.exited = false)
    (h₀ : 0 ≤ connfd) (hfd : κ.table connfd = none) (hs : 0 < κ.sbuf.slots)
    (hm : 0 < κ.sbuf.mutex) :
    Lts.Path Step ⟨κ, .accept, W⟩
      [(none, .accepted connfd), (none, .ring .tau), (none, .ring .tau),
        (none, .ring (.stored κ.sbuf.rearIndex connfd)), (none, .ring .tau), (none, .ring .tau),
        (none, .named)]
      ⟨{ κ.set connfd (some (.client κ.accepts)) with
          accepts := κ.accepts + 1
          sbuf := { κ.sbuf.store connfd with
            mutex := κ.sbuf.mutex - 1 + 1, slots := κ.sbuf.slots - 1,
            items := κ.sbuf.items + 1 } }, .accept, W⟩ := by
  have h₁ : Lts.Path (Step (ω := ω)) _ [_, _, _] _ :=
    (((Lts.Path.nil _).snoc (listen_step (W := W) hrun (.accept κ connfd h₀ hfd))).snoc
      (listen_step hrun (.insert (.insSlots κ.sbuf connfd hs) (by simp)))).snoc
      (listen_step hrun (.insert (.insMutex _ connfd hm) (by simp)))
  have h₂ := (h₁.snoc (listen_step hrun (.insert (.insStore _ connfd) (by simp)))).snoc
    (listen_step hrun (.insert (.insPost _) (by simp)))
  exact (h₂.snoc (listen_step hrun (.inserted (.insItems _)))).snoc (listen_step hrun (.named _))

/-- A worker takes a connection out of the ring buffer. -/
theorem path_take {κ : Process ω} (l : LPc) (W : ω → WPc) (w : ω) (hrun : κ.exited = false)
    (hi : 0 < κ.sbuf.items) (hm : 0 < κ.sbuf.mutex) :
    Lts.Path Step ⟨κ, l, Function.update W w .idle⟩
      [(some w, .ring .tau), (some w, .ring .tau), (some w, .ring .tau),
        (some w, .ring (.loaded κ.sbuf.frontIndex κ.sbuf.load.1)), (some w, .ring .tau),
        (some w, .ring .tau)]
      ⟨{ κ with
          sbuf := { κ.sbuf.load.2 with
            mutex := κ.sbuf.mutex - 1 + 1, slots := κ.sbuf.slots + 1,
            items := κ.sbuf.items - 1 } },
        l, Function.update W w (.serve κ.sbuf.load.1 [])⟩ := by
  have h₁ : Lts.Path (Step (ω := ω)) _ [_, _, _] _ :=
    (((Lts.Path.nil _).snoc (work_step (l := l) (W := W) (w := w) hrun (.call κ))).snoc
      (work_step hrun (.remove (.remItems κ.sbuf hi) (by simp)))).snoc
      (work_step hrun (.remove (.remMutex _ hm) (by simp)))
  have h₂ := (h₁.snoc (work_step hrun (.remove (.remLoad _) (by simp)))).snoc
    (work_step hrun (.remove (.remPost _ _) (by simp)))
  exact h₂.snoc (work_step hrun (.removed [] (.remSlots _ _)))

theorem exists_serve {κ : Process ω} (wid : ω) (connfd : ℤ) (hrun : κ.exited = false)
    (h₀ : 0 ≤ connfd) (hfd : κ.table connfd = none) (hidx : κ.sbuf.front = κ.sbuf.rear)
    (hm : κ.sbuf.mutex = 1) (hs : 0 < κ.sbuf.slots) (hi : κ.sbuf.items = 0) :
    ∃ tr κ', Lts.Path Step ⟨κ, .accept, fun _ => .idle⟩ tr
        ⟨κ', .accept, Function.update (fun _ => .idle) wid (.serve connfd [])⟩ ∧
      (Sbuf.inserted (ringTrace tr)).length = 1 ∧ κ'.exited = false ∧
      κ'.table = (κ.set connfd (some (.client κ.accepts))).table ∧ κ'.accepts = κ.accepts + 1 ∧
      κ'.sbuf.front = κ'.sbuf.rear ∧ κ'.sbuf.mutex = 1 ∧ κ'.sbuf.slots = κ.sbuf.slots ∧
      κ'.sbuf.items = 0 := by
  have hload : (κ.sbuf.store connfd).load.1 = connfd := by
    -- the cell that is read is the one that was written
    have hindex : (κ.sbuf.store connfd).frontIndex = κ.sbuf.rearIndex := by
      simp only [Sbuf.frontIndex, Sbuf.rearIndex, Sbuf.store, hidx]
    show (κ.sbuf.store connfd).buf (κ.sbuf.store connfd).frontIndex = connfd
    rw [hindex]
    exact Function.update_self _ _ _
  obtain ⟨κ₁, h₁, hload₁, hrun₁, hi₁, hm₁, hs₁, hidx₁, htable₁, haccepts₁⟩ :
      ∃ κ₁, Lts.Path Step ⟨κ, .accept, fun _ : ω => .idle⟩ _ ⟨κ₁, .accept, fun _ => .idle⟩ ∧
        κ₁.sbuf.load.1 = connfd ∧ κ₁.exited = false ∧ κ₁.sbuf.items = 1 ∧ κ₁.sbuf.mutex = 1 ∧
        κ₁.sbuf.slots + 1 = κ.sbuf.slots ∧ int32 (κ₁.sbuf.front + 1) = κ₁.sbuf.rear ∧
        κ₁.table = (κ.set connfd (some (.client κ.accepts))).table ∧
        κ₁.accepts = κ.accepts + 1 := by
    refine ⟨_, path_listen _ hrun h₀ hfd hs (by omega), hload, hrun, ?_, ?_, ?_, ?_, rfl, rfl⟩
    · simp only [hi]
    · simp only [hm]
    · simp only
      omega
    · simp only [Sbuf.store, hidx]
  have h₂ := path_take .accept (fun _ : ω => .idle) wid hrun₁ (by omega) (by omega)
  rw [hload₁, Function.update_eq_self wid (fun _ : ω => WPc.idle)] at h₂
  refine ⟨_, _, h₁.append h₂, ?_, hrun₁, htable₁, haccepts₁, hidx₁, ?_, hs₁, ?_⟩
  · simp [ringTrace, Ev.ring?, Sbuf.inserted, Sbuf.shown, Sbuf.Ev.item?]
  · simp only [hm₁]
  · simp only [hi₁]

end MiniProxy.Pool
