import Mathlib.Data.List.Forall2
import MiniProxy.Proxy.Pool

/-!
# Every connection is served once

Descriptor numbers are reused, so the number that a worker takes out of the ring buffer says nothing
by itself. `Tracks` relates the threads to a dispatcher of jobs, in which the `k`-th call of `accept`
is job `k`: a number that is on its way from the listener to a worker, or that a worker serves, is the
descriptor of its connection.

* `op?`: what an event does to a connection; `Names`: the descriptor of a connection;
* `Tracks`, **`tracks_step`**: every step of a thread is an operation on the jobs, or none;
* **`pool_dispatches`**: every run is a run of the dispatcher;
* **`pool_exclusive`**: a worker serves the connection that it took, no other thread has it, and the
  connections are taken in the order of their arrival;
* **`pool_bounded`**: how many connections are open, and when none is.
-/

namespace MiniProxy

/-! ## Places in the ring buffer -/

namespace Sbuf

/-- The value that the thread has not put into a cell, or has taken out of one. -/
def Pc.held : Pc → Option ℤ
  | .insSlots item | .insMutex item | .insStore item => some item
  | .remPost removed | .remSlots removed => some removed
  | _ => none

/-- The thread is in `sbuf_insert`. -/
def Pc.inserting : Pc → Bool
  | .insSlots _ | .insMutex _ | .insStore _ | .insPost | .insItems => true
  | _ => false

/-- The thread is in `sbuf_remove`. -/
def Pc.removing : Pc → Bool
  | .remItems | .remMutex | .remLoad | .remPost _ | .remSlots _ => true
  | _ => false

variable {sp sp' : Sbuf} {p p' : Pc}

theorem TStep.insert_tau (h : TStep sp p .tau sp' p') (hp : p.inserting = true) :
    p'.held = p.held ∧ (p' = .idle ∨ p'.inserting = true) := by
  cases h with
  | insert | remove | remItems | remMutex | remPost | remSlots => cases hp
  | insSlots | insMutex | insPost => exact ⟨rfl, .inr rfl⟩
  | insItems => exact ⟨rfl, .inl rfl⟩

theorem TStep.remove_tau (h : TStep sp p .tau sp' p') (hp : p.removing = true) (hp' : p' ≠ .idle) :
    p'.held = p.held ∧ p'.removing = true := by
  cases h with
  | insert | insSlots | insMutex | insPost | insItems | remove => cases hp
  | remItems | remMutex | remPost => exact ⟨rfl, rfl⟩
  | remSlots => exact absurd rfl hp'

theorem TStep.tau_of_idle {e : Ev} (h : TStep sp p e sp' .idle) : e = .tau := by
  cases h <;> rfl

end Sbuf

namespace Pool

variable {ω : Type*}

/-- What an event does to a connection. -/
def op? : Option ω × Ev → Option (Dispatch.Op ω)
  | (none, .accepted _) => some .arrive
  | (none, .ring (.stored _ _)) => some .put
  | (some w, .ring (.loaded _ _)) => some (.take w)
  | (some w, .released _) => some (.finish w)
  | _ => none

/-! ## Descriptors -/

/-- The `k`-th call of `accept` has returned `fd`, which refers to its connection. Where the call has
failed, there is no connection. -/
def Names (table : ℤ → Option (File ω)) (fd : ℤ) (k : ℕ) : Prop :=
  ∀ x, table x = some (.client k) ↔ x = fd ∧ 0 ≤ fd

/-- The tables agree on the connection. -/
def Agree (table table' : ℤ → Option (File ω)) (k : ℕ) : Prop :=
  ∀ x, table' x = some (.client k) ↔ table x = some (.client k)

section Table

variable {table table' : ℤ → Option (File ω)} {fd : ℤ} {k : ℕ}

theorem Names.mono (h : Names table fd k) (hT : Agree table table' k) : Names table' fd k :=
  fun x => (hT x).trans (h x)

theorem agree_update {file : Option (File ω)} (hold : table fd ≠ some (.client k))
    (hnew : file ≠ some (.client k)) : Agree table (Function.update table fd file) k := by
  intro x
  by_cases hx : x = fd
  · rw [hx, Function.update_self]
    exact ⟨fun h => absurd h hnew, fun h => absurd h hold⟩
  · rw [Function.update_of_ne hx]

theorem forall₂_names {q : List ℤ} {l : List ℕ} (h : List.Forall₂ (Names table) q l)
    (hT : ∀ k ∈ l, Agree table table' k) : List.Forall₂ (Names table') q l := by
  induction h with
  | nil => exact .nil
  | cons hk _ ih =>
    exact .cons (hk.mono (hT _ List.mem_cons_self)) (ih fun k hk => hT k (List.mem_cons_of_mem _ hk))

theorem rel_names {a : Option ℤ} {b : Option ℕ} (h : Option.Rel (Names table) a b)
    (hT : ∀ k, b = some k → Agree table table' k) : Option.Rel (Names table') a b := by
  cases h with
  | none => exact .none
  | some hk => exact .some (hk.mono (hT _ rfl))

theorem rel_none {a : Option ℤ} {b : Option ℕ} (h : Option.Rel (Names table) a b) (ha : a = none) :
    b = none := by
  cases h with
  | none => rfl
  | some => cases ha

theorem rel_some {a : Option ℤ} {b : Option ℕ} (h : Option.Rel (Names table) a b)
    (ha : a = some fd) : ∃ k, b = some k ∧ Names table fd k := by
  cases h with
  | none => cases ha
  | some hk =>
    cases ha
    exact ⟨_, rfl, hk⟩

end Table

/-! ## Places -/

/-- The descriptor that the listener has accepted and not yet put into the ring buffer. -/
def LPc.held : LPc → Option ℤ
  | .insert p => p.held
  | _ => none

/-- The descriptor that a worker has taken out of the ring buffer and not yet closed. -/
def WPc.held : WPc → Option ℤ
  | .idle => none
  | .remove p => p.held
  | .serve connfd _ => some connfd

/-- The listener calls `sbuf_insert` only. -/
def LPc.Ok : LPc → Prop
  | .insert p => p.inserting = true
  | _ => True

/-- What is left of `open_clientfd`: the socket that is closed next is the worker's own. -/
def Asks (table : ℤ → Option (File ω)) (wid : ω) (ops : List FdOp) : Prop :=
  (∃ listp, ops = (openClientfdLoop listp).2) ∨
    ∃ (fd : ℕ) (listp : List Candidate), ops = .closed fd :: (openClientfdLoop listp).2 ∧
      table fd = some (.origin wid)

/-- A worker calls `sbuf_remove` only, and closes no socket but its own. -/
def WPc.Ok (table : ℤ → Option (File ω)) (wid : ω) : WPc → Prop
  | .idle => True
  | .remove p => p.removing = true
  | .serve _ ops => Asks table wid ops

theorem WPc.Ok.mono {table table' : ℤ → Option (File ω)} {wid : ω} {p : WPc} (h : p.Ok table wid)
    (hT : ∀ x, table x = some (.origin wid) → table' x = some (.origin wid)) : p.Ok table' wid := by
  match p, h with
  | .idle, _ => exact trivial
  | .remove p, h => exact h
  | .serve connfd ops, .inl hops => exact .inl hops
  | .serve connfd ops, .inr ⟨fd, listp, hops, hfd⟩ => exact .inr ⟨fd, listp, hops, hT fd hfd⟩

theorem openClientfdLoop_ops (listp : List Candidate) :
    (openClientfdLoop listp).2 = [] ∨ (∃ fd, (openClientfdLoop listp).2 = [.opened fd]) ∨
      ∃ fd rest, (openClientfdLoop listp).2 =
        .opened fd :: .closed fd :: (openClientfdLoop rest).2 := by
  induction listp with
  | nil => exact .inl rfl
  | cons p listp ih =>
    obtain ⟨_ | clientfd, _ | _⟩ := p
    · exact ih
    · exact ih
    · exact .inr (.inr ⟨clientfd, listp, rfl⟩)
    · exact .inr (.inl ⟨clientfd, rfl⟩)

theorem Asks.opened {table : ℤ → Option (File ω)} {wid : ω} {fd : ℕ} {ops : List FdOp}
    (h : Asks table wid (.opened fd :: ops)) :
    Asks (Function.update table fd (some (.origin wid))) wid ops := by
  rcases h with ⟨listp, h⟩ | ⟨fd', listp, h, -⟩
  · rcases openClientfdLoop_ops listp with h' | ⟨fd', h'⟩ | ⟨fd', rest, h'⟩
    · rw [h'] at h
      cases h
    · rw [h'] at h
      cases h
      exact .inl ⟨[], rfl⟩
    · rw [h'] at h
      cases h
      exact .inr ⟨fd, rest, rfl, Function.update_self _ _ _⟩
  · cases h

theorem Asks.closed {table : ℤ → Option (File ω)} {wid : ω} {fd : ℕ} {ops : List FdOp}
    (h : Asks table wid (.closed fd :: ops)) :
    table fd = some (.origin wid) ∧ ∃ listp, ops = (openClientfdLoop listp).2 := by
  rcases h with ⟨listp, h⟩ | ⟨fd', listp, h, hfd⟩
  · rcases openClientfdLoop_ops listp with h' | ⟨fd', h'⟩ | ⟨fd', rest, h'⟩ <;> rw [h'] at h <;>
      cases h
  · cases h
    exact ⟨hfd, listp, rfl⟩

/-! ## The threads and the dispatcher -/

variable [DecidableEq ω] [Fintype ω] {n : ℕ}

/-- The threads carry out what the dispatcher does. -/
structure Tracks (n : ℕ) (s : State ω) (t : Dispatch.State ω) : Prop where
  reached : ∃ tr, Lts.Path (Dispatch.Step n) Dispatch.init tr t
  arrived : t.arrived = s.proc.accepts
  waiting : ∃ q, Sbuf.Refines n s.ring q ∧ List.Forall₂ (Names s.proc.table) q t.waiting
  arriving : Option.Rel (Names s.proc.table) s.listener.held t.arriving
  busy : ∀ w, Option.Rel (Names s.proc.table) (s.worker w).held (t.busy w)
  listener : s.listener.Ok
  worker : ∀ w, (s.worker w).Ok s.proc.table w
  clients : ∀ fd k, s.proc.table fd = some (.client k) → t.Held k
  nonneg : ∀ fd, s.proc.table fd ≠ none → 0 ≤ fd

variable {s s' : State ω} {t : Dispatch.State ω}

theorem Tracks.fresh (h : Tracks n s t) (x : ℤ) :
    s.proc.table x ≠ some (.client s.proc.accepts) := by
  intro hx
  obtain ⟨tr, hreach⟩ := h.reached
  have hlt := Dispatch.lt_of_held hreach (h.clients x _ hx)
  rw [h.arrived] at hlt
  exact Nat.lt_irrefl _ hlt

theorem Tracks.stay (h : Tracks n s t) (haccepts : s'.proc.accepts = s.proc.accepts)
    (hring : ∀ q, Sbuf.Refines n s.ring q → Sbuf.Refines n s'.ring q)
    (hl : s'.listener.held = s.listener.held) (hw : ∀ w, (s'.worker w).held = (s.worker w).held)
    (hT : ∀ k, Agree s.proc.table s'.proc.table k) (hlok : s'.listener.Ok)
    (hwok : ∀ w, (s'.worker w).Ok s'.proc.table w)
    (hnn : ∀ fd, s'.proc.table fd ≠ none → 0 ≤ fd) : Tracks n s' t where
  reached := h.reached
  arrived := h.arrived.trans haccepts.symm
  waiting := by
    obtain ⟨q, hq, hnames⟩ := h.waiting
    exact ⟨q, hring q hq, forall₂_names hnames fun k _ => hT k⟩
  arriving := by
    rw [hl]
    exact rel_names h.arriving fun k _ => hT k
  busy := by
    intro w
    rw [hw]
    exact rel_names (h.busy w) fun k _ => hT k
  listener := hlok
  worker := hwok
  clients := fun fd k hfd => h.clients fd k ((hT k fd).mp hfd)
  nonneg := hnn

theorem Tracks.arrive (h : Tracks n s t) (hl : s.listener = .accept) (connfd : ℤ)
    (table : ℤ → Option (File ω)) (hnew : Names table connfd s.proc.accepts)
    (hT : ∀ k, k ≠ s.proc.accepts → Agree s.proc.table table k)
    (horigin : ∀ w x, s.proc.table x = some (.origin w) → table x = some (.origin w))
    (hnn : ∀ fd, table fd ≠ none → 0 ≤ fd) :
    ∃ t', Dispatch.Step n t (.arrive, t.arrived) t' ∧ Tracks n
      { s with
        proc := { s.proc with table := table, accepts := s.proc.accepts + 1 }
        listener := .insert (.insSlots connfd) } t' := by
  obtain ⟨tr, hreach⟩ := h.reached
  have hnone : t.arriving = none := rel_none h.arriving (by rw [hl]; rfl)
  have hstep : Dispatch.Step n t (.arrive, t.arrived) _ := .arrive t hnone
  have hheld : ∀ k, t.Held k → Agree s.proc.table table k := by
    intro k hk
    have hlt := Dispatch.lt_of_held hreach hk
    rw [h.arrived] at hlt
    exact hT k (Nat.ne_of_lt hlt)
  refine ⟨_, hstep, ⟨⟨_, hreach.snoc hstep⟩, ?_, ?_, ?_, ?_, rfl, ?_, ?_, hnn⟩⟩
  · simp only [h.arrived]
  · obtain ⟨q, hq, hnames⟩ := h.waiting
    refine ⟨q, ?_, forall₂_names hnames fun k hk => hheld k (.inr (.inl hk))⟩
    rw [ring_listen]
    refine hq.tau none ?_
    have hpc : s.ring.pc none = .idle := by
      show s.listener.ring = .idle
      rw [hl]
      rfl
    rw [hpc]
    exact .insert _ _
  · rw [h.arrived]
    exact .some hnew
  · exact fun w => rel_names (h.busy w) fun k hk => hheld k (.inr (.inr ⟨w, hk⟩))
  · exact fun w => (h.worker w).mono (horigin w)
  · intro fd k hfd
    by_cases hk : k = s.proc.accepts
    · exact .inl (by rw [hk, ← h.arrived])
    · rcases h.clients fd k ((hT k hk fd).mp hfd) with ha | hq | hb
      · rw [hnone] at ha
        cases ha
      · exact .inr (.inl hq)
      · exact .inr (.inr hb)

theorem Tracks.put (h : Tracks n s t) {item : ℤ} (hl : s.listener = .insert (.insStore item))
    (hw : s.proc.sbuf.rear + 1 < 2 ^ 31) :
    ∃ k t', Dispatch.Step n t (.put, k) t' ∧ Tracks n
      { s with
        proc := { s.proc with sbuf := s.proc.sbuf.store item }
        listener := .insert .insPost } t' := by
  obtain ⟨tr, hreach⟩ := h.reached
  obtain ⟨q, hq, hnames⟩ := h.waiting
  obtain ⟨k, hk, hitem⟩ : ∃ k, t.arriving = some k ∧ Names s.proc.table item k :=
    rel_some h.arriving (by rw [hl]; rfl)
  have hpc : s.ring.pc none = .insStore item := by
    show s.listener.ring = .insStore item
    rw [hl]
    rfl
  obtain ⟨hlt, hq'⟩ := hq.store none hpc hw
  have hstep : Dispatch.Step n t (.put, k) _ := .put t k hk (hnames.length_eq ▸ hlt)
  refine ⟨k, _, hstep, ⟨⟨_, hreach.snoc hstep⟩, h.arrived, ?_, .none, h.busy, rfl, h.worker, ?_,
    h.nonneg⟩⟩
  · refine ⟨q ++ [item], ?_, List.rel_append hnames (.cons hitem .nil)⟩
    rw [ring_listen]
    exact hq'
  · intro fd j hfd
    rcases h.clients fd j hfd with ha | hmem | hb
    · rw [hk] at ha
      cases ha
      exact .inr (.inl (List.mem_append_right _ (List.mem_singleton_self k)))
    · exact .inr (.inl (List.mem_append_left _ hmem))
    · exact .inr (.inr hb)

theorem Tracks.take (h : Tracks n s t) {w : ω} (hp : s.worker w = .remove .remLoad) :
    ∃ k t', Dispatch.Step n t (.take w, k) t' ∧ Names s.proc.table s.proc.sbuf.load.1 k ∧ Tracks n
      { s with
        proc := { s.proc with sbuf := s.proc.sbuf.load.2 }
        worker := Function.update s.worker w (.remove (.remPost s.proc.sbuf.load.1)) } t' := by
  obtain ⟨tr, hreach⟩ := h.reached
  obtain ⟨q, hq, hnames⟩ := h.waiting
  have hpc : s.ring.pc (some w) = .remLoad := by
    show (s.worker w).ring = .remLoad
    rw [hp]
    rfl
  obtain ⟨q', rfl, hq'⟩ := hq.load (some w) hpc
  obtain ⟨k, l, hk, hnames', hwait⟩ := List.forall₂_cons_left_iff.mp hnames
  have hidle : t.busy w = none := rel_none (h.busy w) (by rw [hp]; rfl)
  have hstep : Dispatch.Step n t (.take w, k) _ := .take t w k l hwait hidle
  refine ⟨k, _, hstep, hk, ⟨⟨_, hreach.snoc hstep⟩, h.arrived, ?_, h.arriving, ?_, h.listener, ?_,
    ?_, h.nonneg⟩⟩
  · refine ⟨q', ?_, hnames'⟩
    rw [ring_work]
    exact hq'
  · intro v
    by_cases hv : v = w
    · subst hv
      simp only [Function.update_self]
      exact .some hk
    · simp only [Function.update_of_ne hv]
      exact h.busy v
  · exact (Function.forall_update_iff _ fun v q => WPc.Ok s.proc.table v q).mpr
      ⟨rfl, fun v _ => h.worker v⟩
  · intro fd j hfd
    rcases h.clients fd j hfd with ha | hmem | ⟨v, hv⟩
    · exact .inl ha
    · rw [hwait] at hmem
      rcases List.mem_cons.mp hmem with rfl | hmem
      · exact .inr (.inr ⟨w, Function.update_self _ _ _⟩)
      · exact .inr (.inl hmem)
    · have hvw : v ≠ w := by
        rintro rfl
        rw [hidle] at hv
        cases hv
      exact .inr (.inr ⟨v, (Function.update_of_ne hvw _ _).trans hv⟩)

theorem Tracks.finish (h : Tracks n s t) {w : ω} {connfd : ℤ} (hp : s.worker w = .serve connfd []) :
    ∃ k t', Dispatch.Step n t (.finish w, k) t' ∧ Tracks n
      { s with
        proc := s.proc.set connfd none
        worker := Function.update s.worker w .idle } t' := by
  obtain ⟨tr, hreach⟩ := h.reached
  obtain ⟨k, hk, hnames⟩ : ∃ k, t.busy w = some k ∧ Names s.proc.table connfd k :=
    rel_some (h.busy w) (by rw [hp]; rfl)
  -- nothing but the worker's own connection is closed
  have hown : ∀ file, s.proc.table connfd = some file → file = .client k := by
    intro file hfile
    have hnn : 0 ≤ connfd := h.nonneg connfd (by rw [hfile]; exact Option.some_ne_none file)
    exact Option.some.inj (hfile.symm.trans ((hnames connfd).mpr ⟨rfl, hnn⟩))
  have hT : ∀ j, j ≠ k → Agree s.proc.table (s.proc.set connfd none).table j := fun j hj =>
    agree_update (fun hfd => hj (File.client.inj (hown _ hfd))) (Option.some_ne_none _).symm
  have hstep : Dispatch.Step n t (.finish w, k) _ := .finish t w k hk
  refine ⟨k, _, hstep, ⟨⟨_, hreach.snoc hstep⟩, h.arrived, ?_, ?_, ?_, h.listener, ?_, ?_, ?_⟩⟩
  · obtain ⟨q, hq, hwait⟩ := h.waiting
    refine ⟨q, ?_, forall₂_names hwait fun j hj => hT j ?_⟩
    · rw [ring_work_stays]
      · exact hq
      · rfl
      · rw [hp]
        rfl
    · rintro rfl
      exact Dispatch.not_mem_waiting hreach hk hj
  · refine rel_names h.arriving fun j hj => hT j ?_
    rintro rfl
    exact Dispatch.not_arriving hreach hk hj
  · intro v
    by_cases hv : v = w
    · subst hv
      simp only [Function.update_self]
      exact .none
    · simp only [Function.update_of_ne hv]
      refine rel_names (h.busy v) fun j hj => hT j ?_
      rintro rfl
      exact hv (Dispatch.busy_inj hreach hj hk)
  · refine (Function.forall_update_iff _ fun v q => WPc.Ok (s.proc.set connfd none).table v q).mpr
      ⟨trivial, fun v _ => (h.worker v).mono fun x hx => ?_⟩
    have hne : x ≠ connfd := by
      rintro rfl
      cases hown _ hx
    exact (Process.set_of_ne s.proc none hne).trans hx
  · intro fd j hfd
    have hne : fd ≠ connfd := by
      rintro rfl
      cases (Process.set_self s.proc fd none).symm.trans hfd
    replace hfd := (Process.set_of_ne s.proc none hne).symm.trans hfd
    rcases h.clients fd j hfd with ha | hmem | ⟨v, hv⟩
    · exact .inl ha
    · exact .inr (.inl hmem)
    · have hvw : v ≠ w := by
        rintro rfl
        rw [hk] at hv
        cases hv
        exact hne ((hnames fd).mp hfd).1
      exact .inr (.inr ⟨v, (Function.update_of_ne hvw _ _).trans hv⟩)
  · intro fd hfd
    by_cases hne : fd = connfd
    · subst hne
      exact absurd (Process.set_self s.proc fd none) hfd
    · exact h.nonneg fd fun hnone => hfd ((Process.set_of_ne s.proc none hne).trans hnone)

/-- The event is an operation on the jobs, or none. -/
def Matched (n : ℕ) (t : Dispatch.State ω) (a : Option ω × Ev) (s' : State ω) : Prop :=
  (op? a = none ∧ Tracks n s' t) ∨
    ∃ b t', op? a = some b.1 ∧ Dispatch.Step n t b t' ∧ Tracks n s' t'

theorem Tracks.listen (h : Tracks n s t) {e : Ev} {κ : Process ω} {p : LPc}
    (hs : LStep s.proc s.listener e κ p) (hw : noWrap s (none, e)) :
    Matched n t (none, e) { s with proc := κ, listener := p } := by
  generalize hl : s.listener = l at hs
  have hok : l.Ok := hl ▸ h.listener
  have hpc : s.ring.pc none = l.ring := by rw [← hl]; rfl
  -- a step in `sbuf_insert` that is no array statement
  have htau : ∀ {sp q q'} {p' : LPc}, l = .insert q → Sbuf.TStep s.proc.sbuf q .tau sp q' →
      p'.ring = q' → p'.held = q'.held → p'.Ok →
      Tracks n { s with proc := { s.proc with sbuf := sp }, listener := p' } t := by
    rintro sp q q' p' rfl hq hring hheld hok'
    refine h.stay rfl (fun r hr => ?_) ?_ (fun w => rfl) (fun k x => Iff.rfl) hok' h.worker h.nonneg
    · rw [ring_listen, hring]
      exact hr.tau none (hpc ▸ hq)
    · rw [hl]
      exact hheld.trans (hq.insert_tau hok).1
  cases hs with
  | accept connfd h₀ hfd =>
    have hnew : Names (s.proc.set connfd (some (.client s.proc.accepts))).table connfd
        s.proc.accepts := by
      intro x
      by_cases hx : x = connfd
      · rw [hx, Process.set_self]
        exact ⟨fun _ => ⟨rfl, h₀⟩, fun _ => rfl⟩
      · rw [Process.set_of_ne _ _ hx]
        exact ⟨fun hk => absurd hk (h.fresh x), fun hk => absurd hk.1 hx⟩
    have hT : ∀ k, k ≠ s.proc.accepts →
        Agree s.proc.table (s.proc.set connfd (some (.client s.proc.accepts))).table k := fun k hk =>
      agree_update (by rw [hfd]; exact (Option.some_ne_none _).symm)
        fun he => hk (File.client.inj (Option.some.inj he)).symm
    obtain ⟨t', hstep, hR⟩ := h.arrive hl connfd _ hnew hT (fun w x => s.proc.set_keeps hfd)
      (fun _ => s.proc.set_nonneg h₀ h.nonneg)
    exact .inr ⟨_, t', rfl, hstep, hR⟩
  | refuse =>
    have hnew : Names s.proc.table (-1) s.proc.accepts := fun x =>
      ⟨fun hk => absurd hk (h.fresh x), fun hk => absurd hk.2 (by decide)⟩
    obtain ⟨t', hstep, hR⟩ := h.arrive hl (-1) s.proc.table hnew (fun k _ x => Iff.rfl)
      (fun w x hx => hx) h.nonneg
    exact .inr ⟨_, t', rfl, hstep, hR⟩
  | @insert sp q q' e hq hne =>
    cases e with
    | tau =>
      obtain ⟨hheld, hidle | hins⟩ := hq.insert_tau hok
      · exact absurd hidle hne
      · exact .inl ⟨rfl, htau rfl hq rfl rfl hins⟩
    | stored c item =>
      obtain ⟨rfl, -, rfl, rfl⟩ := hq.stored_inv
      obtain ⟨k, t', hstep, hR⟩ := h.put hl (hw _ rfl rfl)
      exact .inr ⟨_, t', rfl, hstep, hR⟩
    | loaded c r =>
      obtain ⟨rfl, -⟩ := hq.loaded_inv
      cases hok
  | @inserted sp q e hq =>
    obtain rfl := hq.tau_of_idle
    exact .inl ⟨rfl, htau rfl hq rfl rfl trivial⟩
  | named | unnamed =>
    refine .inl ⟨rfl, h.stay rfl (fun q hq => ?_) (by simp only [hl, LPc.held]) (fun w => rfl)
      (fun k x => Iff.rfl) trivial h.worker h.nonneg⟩
    rw [ring_listen_stays]
    · exact hq
    · rfl
    · exact hpc.symm

theorem Tracks.work_stay (h : Tracks n s t) {w : ω} {κ : Process ω} {p : WPc}
    (haccepts : κ.accepts = s.proc.accepts)
    (hring : ∀ q, Sbuf.Refines n s.ring q →
      Sbuf.Refines n ⟨κ.sbuf, Function.update s.ring.pc (some w) p.ring⟩ q)
    (hheld : p.held = (s.worker w).held) (hT : ∀ k, Agree s.proc.table κ.table k)
    (horigin : ∀ v, v ≠ w → ∀ x, s.proc.table x = some (.origin v) → κ.table x = some (.origin v))
    (hok : p.Ok κ.table w) (hnn : ∀ fd, κ.table fd ≠ none → 0 ≤ fd) :
    Tracks n { s with proc := κ, worker := Function.update s.worker w p } t := by
  refine h.stay haccepts (fun q hq => ?_) rfl ?_ hT h.listener ?_ hnn
  · rw [ring_work]
    exact hring q hq
  · refine (Function.forall_update_iff _ fun v q => WPc.held q = (s.worker v).held).mpr
      ⟨hheld, fun v _ => rfl⟩
  · refine (Function.forall_update_iff _ fun v q => WPc.Ok κ.table v q).mpr
      ⟨hok, fun v hv => (h.worker v).mono (horigin v hv)⟩

theorem Tracks.work (h : Tracks n s t) {w : ω} {e : Ev} {κ : Process ω} {p : WPc}
    (hs : WStep w s.proc (s.worker w) e κ p) :
    Matched n t (some w, e) { s with proc := κ, worker := Function.update s.worker w p } := by
  generalize hp : s.worker w = p₀ at hs
  have hok : p₀.Ok s.proc.table w := hp ▸ h.worker w
  have hpc : s.ring.pc (some w) = p₀.ring := by rw [← hp]; rfl
  -- outside the ring buffer
  have hout : ∀ {connfd ops} {p : WPc}, p₀ = .serve connfd ops → p.ring = .idle →
      ∀ q, Sbuf.Refines n s.ring q →
        Sbuf.Refines n ⟨s.proc.sbuf, Function.update s.ring.pc (some w) p.ring⟩ q := by
    rintro connfd ops p rfl hring q hq
    rw [hring, show (Sbuf.Pc.idle : Sbuf.Pc) = s.ring.pc (some w) from hpc.symm,
      Function.update_eq_self]
    exact hq
  cases hs with
  | call =>
    refine .inl ⟨rfl, h.work_stay rfl (fun q hq => hq.tau (some w) ?_) (by rw [hp]; rfl)
      (fun k x => Iff.rfl) (fun v _ x hx => hx) rfl h.nonneg⟩
    rw [hpc]
    exact .remove _
  | @remove sp q q' e hq hne =>
    cases e with
    | tau =>
      obtain ⟨hheld, hrem⟩ := hq.remove_tau hok hne
      refine .inl ⟨rfl, h.work_stay rfl (fun r hr => hr.tau (some w) ?_) (by rw [hp]; exact hheld)
        (fun k x => Iff.rfl) (fun v _ x hx => hx) hrem h.nonneg⟩
      rw [hpc]
      exact hq
    | stored c item =>
      obtain ⟨rfl, -⟩ := hq.stored_inv
      cases hok
    | loaded c r =>
      obtain ⟨rfl, -, rfl, rfl, rfl⟩ := hq.loaded_inv
      obtain ⟨k, t', hstep, -, hR⟩ := h.take hp
      exact .inr ⟨_, t', rfl, hstep, hR⟩
  | @removed sp connfd e listp hq =>
    obtain rfl := hq.tau_of_idle
    refine .inl ⟨rfl, h.work_stay rfl (fun r hr => hr.tau (some w) ?_) (by rw [hp]; rfl)
      (fun k x => Iff.rfl) (fun v _ x hx => hx) (.inl ⟨listp, rfl⟩) h.nonneg⟩
    rw [hpc]
    exact hq
  | opened connfd fd ops hfd =>
    refine .inl ⟨rfl, h.work_stay rfl (hout rfl rfl) (by rw [hp]; rfl) (fun k => ?_)
      (fun v _ x => s.proc.set_keeps hfd) hok.opened
      (fun _ => s.proc.set_nonneg (Int.natCast_nonneg fd) h.nonneg)⟩
    exact agree_update (by rw [hfd]; exact (Option.some_ne_none _).symm) (by simp)
  | closed connfd fd ops =>
    obtain ⟨hown, hops⟩ := hok.closed
    refine .inl ⟨rfl, h.work_stay rfl (hout rfl rfl) (by rw [hp]; rfl) (fun k => ?_)
      (fun v hv x hx => ?_) (.inl hops)
      (fun _ => s.proc.set_nonneg (Int.natCast_nonneg fd) h.nonneg)⟩
    · exact agree_update (by simp [hown]) (Option.some_ne_none _).symm
    · have hne : x ≠ fd := by
        rintro rfl
        exact hv (File.origin.inj (Option.some.inj (hx.symm.trans hown)))
      exact (s.proc.set_of_ne none hne).trans hx
  | exit connfd ops =>
    exact .inl ⟨rfl, h.work_stay rfl (hout rfl rfl) (by rw [hp]) (fun k x => Iff.rfl)
      (fun v _ x hx => hx) hok h.nonneg⟩
  | close connfd =>
    obtain ⟨k, t', hstep, hR⟩ := h.finish hp
    exact .inr ⟨_, t', rfl, hstep, hR⟩

/-- **Every step of a thread** that does not wrap the indices is an operation on the jobs, or none. -/
theorem tracks_step :
    Lts.SimulatesUntil (Lts.Guarded (Step (ω := ω)) noWrap) (Dispatch.Step n) op? Prod.fst
      (fun _ _ => False) (Tracks n) := by
  rintro s a s' t hR ⟨hs, hw⟩
  refine .inr ?_
  cases hs with
  | listen hrun hs => exact hR.listen hs hw
  | work hrun hs => exact hR.work hs

/-! ## Runs -/

variable {fds : Finset ℕ} {tr : List (Option ω × Ev)}

theorem tracks_init (n : ℕ) (fds : Finset ℕ) : Tracks n (init n fds : State ω) Dispatch.init where
  reached := ⟨[], .nil _⟩
  arrived := rfl
  waiting := ⟨[], ring_init n fds ▸ Sbuf.refines_init n, .nil⟩
  arriving := .none
  busy := fun _ => .none
  listener := trivial
  worker := fun _ => trivial
  clients := by
    intro fd k hfd
    simp only [init] at hfd
    split_ifs at hfd
    cases hfd
  nonneg := by
    intro fd hfd
    simp only [init] at hfd
    split_ifs at hfd with h
    · exact h.1
    · exact absurd rfl hfd

/-- Every run is a run of the dispatcher. -/
theorem path_tracks (h : Lts.Path Step (init n fds) tr s)
    (hlt : (Sbuf.inserted (ringTrace tr)).length < 2 ^ 31) :
    ∃ (btr : List (Dispatch.Op ω × ℕ)) (t : Dispatch.State ω),
      Lts.Path (Dispatch.Step n) Dispatch.init btr t ∧
        btr.map Prod.fst = tr.filterMap op? ∧ Tracks n s t := by
  rcases tracks_step.path (tracks_init n fds) (path_noWrap h hlt) with
    ⟨tr₁, a, btr, t, -, -, -, hbad⟩ | hruns
  · exact hbad.elim
  · exact hruns

theorem exists_reuse : ∃ (tr : List (Option (Fin 8) × Ev)) (s : State (Fin 8)),
    Lts.Path Step (init 64 {0, 1, 2, 3}) tr s ∧
      (Sbuf.inserted (ringTrace tr)).length = 2 ∧ s.worker 1 = .serve 4 [] ∧
      s.proc.accepts = 2 ∧ s.proc.exited = false ∧ s.listener = .accept ∧
      (∀ w, w ≠ 1 → s.worker w = .idle) ∧ s.proc.sbuf.items = 0 := by
  obtain ⟨tr₁, κ₁, h₁, hlen₁, hrun₁, htable₁, haccepts₁, hidx₁, hm₁, hs₁, hi₁⟩ :=
    exists_serve (κ := (init 64 {0, 1, 2, 3} : State (Fin 8)).proc) (0 : Fin 8) 4 rfl
      (by decide) (by decide) rfl rfl (by decide) rfl
  have hclose := Lts.Path.single (work_step (l := .accept) (W := fun _ => .idle) (w := (0 : Fin 8))
    hrun₁ (.close κ₁ 4))
  rw [Function.update_eq_self (0 : Fin 8) (fun _ => WPc.idle)] at hclose
  obtain ⟨tr₂, κ₂, h₂, hlen₂, hrun₂, htable₂, haccepts₂, hidx₂, hm₂, hs₂, hi₂⟩ :=
    exists_serve (κ := κ₁.set 4 none) (1 : Fin 8) 4 hrun₁ (by decide)
      (κ₁.set_self 4 none) hidx₁ hm₁ (by rw [Process.set, hs₁]; decide) hi₁
  refine ⟨_, _, (h₁.append hclose).append h₂, ?_, ?_, ?_, hrun₂, rfl, ?_, hi₂⟩
  · rw [ringTrace, List.filterMap_append, List.filterMap_append, Sbuf.inserted, Sbuf.shown,
      List.filterMap_append, List.filterMap_append, List.length_append, List.length_append]
    rw [ringTrace, Sbuf.inserted, Sbuf.shown] at hlen₁ hlen₂
    rw [hlen₁, hlen₂]
    rfl
  · simp only [Function.update_self]
  · rw [haccepts₂, Process.set, haccepts₁]
    rfl
  · intro w hw
    simp only [Function.update_of_ne hw]

/-- **The connections are served in the order in which they are accepted, and each once.** While fewer
than `2 ^ 31` of them have been put into the ring buffer, a run of the threads is a run of the
dispatcher, and `Tracks` tells which descriptor belongs to which connection. -/
theorem pool_dispatches (h : Lts.Path Step (init n fds) tr s)
    (hlt : (Sbuf.inserted (ringTrace tr)).length < 2 ^ 31) :
    ∃ (btr : List (Dispatch.Op ω × ℕ)) (t : Dispatch.State ω),
      (Lts.Path (Dispatch.Step n) Dispatch.init btr t ∧
        btr.map Prod.fst = tr.filterMap op? ∧ Tracks n s t) ∧
      Dispatch.taken btr <+: List.range s.proc.accepts ∧
      Dispatch.finished btr ⊆ Dispatch.taken btr ∧ (Dispatch.finished btr).Nodup := by
  obtain ⟨btr, t, hpath, hops, hR⟩ := path_tracks h hlt
  refine ⟨btr, t, ⟨hpath, hops, hR⟩, ?_, Dispatch.finished_of_taken hpath⟩
  rw [← hR.arrived, ← Dispatch.path_taken hpath, List.append_assoc]
  exact List.prefix_append _ _

/-- Two connections with one descriptor. -/
theorem pool_dispatches_reuse : ∃ (tr : List (Option (Fin 8) × Ev)) (s : State (Fin 8))
    (btr : List (Dispatch.Op (Fin 8) × ℕ)) (t : Dispatch.State (Fin 8)),
    Lts.Path Step (init 64 {0, 1, 2, 3}) tr s ∧ s.proc.accepts = 2 ∧ s.worker 1 = .serve 4 [] ∧
      btr.map Prod.fst = tr.filterMap op? ∧ Tracks 64 s t ∧
      Dispatch.taken btr <+: List.range 2 := by
  obtain ⟨tr, s, h, hlen, hw, haccepts, -⟩ := exists_reuse
  obtain ⟨btr, t, ⟨-, hops, hR⟩, htaken, -⟩ := pool_dispatches h (by rw [hlen]; decide)
  exact ⟨tr, s, btr, t, h, haccepts, hw, hops, hR, haccepts ▸ htaken⟩

/-- The number of descriptors that the workers have taken out of the ring buffer. -/
def takes (tr : List (Option ω × Ev)) : ℕ := ((tr.filterMap op?).filter Dispatch.Op.isTake).length

omit [Fintype ω] in
theorem loaded_of_step {w : ω} {c r : ℤ} (h : Step s (some w, .ring (.loaded c r)) s') :
    s.worker w = .remove .remLoad ∧ r = s.proc.sbuf.load.1 := by
  cases h with
  | work hrun h =>
    generalize hp : s.worker w = p at h
    cases h with
    | remove h hne =>
      obtain ⟨rfl, -, rfl, -⟩ := h.loaded_inv
      exact ⟨rfl, rfl⟩
    | removed listp h => cases h

omit [Fintype ω] in
theorem closed_of_step {w : ω} {fd : ℕ} (h : Step s (some w, .fd (.closed fd)) s') :
    ∃ connfd ops, s.worker w = .serve connfd (.closed fd :: ops) := by
  cases h with
  | work hrun h =>
    generalize hp : s.worker w = p at h
    cases h with
    | closed connfd fd ops => exact ⟨connfd, ops, rfl⟩

theorem Tracks.names (h : Tracks n s t) {w : ω} {connfd : ℤ}
    (hw : (s.worker w).held = some connfd) :
    ∃ k, t.busy w = some k ∧ Names s.proc.table connfd k := rel_some (h.busy w) hw

/-- Descriptors are not mixed up: a worker has an open descriptor for itself, it is that of the
connection that the worker has taken, the `k`-th worker to take one gets the `k`-th connection, and a
worker closes no socket but its own. -/
theorem pool_exclusive (h : Lts.Path Step (init n fds) tr s)
    (hlt : (Sbuf.inserted (ringTrace tr)).length < 2 ^ 31) :
    (∀ w connfd, (s.worker w).held = some connfd → 0 ≤ connfd →
      (∃ k, s.proc.table connfd = some (.client k)) ∧ s.listener.held ≠ some connfd ∧
        ∀ v, (s.worker v).held = some connfd → v = w) ∧
    (∀ w c r s', Step s (some w, .ring (.loaded c r)) s' → 0 ≤ r →
      s.proc.table r = some (.client (takes tr))) ∧
    ∀ w fd s', Step s (some w, .fd (.closed fd)) s' → s.proc.table fd = some (.origin w) := by
  obtain ⟨btr, t, hpath, hops, hR⟩ := path_tracks h hlt
  refine ⟨fun w connfd hw hnn => ?_, fun w c r s' hs hnn => ?_, fun w fd s' hs => ?_⟩
  · obtain ⟨k, hk, hnames⟩ := hR.names hw
    have hopen : s.proc.table connfd = some (.client k) := (hnames connfd).mpr ⟨rfl, hnn⟩
    refine ⟨⟨k, hopen⟩, fun hl => ?_, fun v hv => ?_⟩
    · obtain ⟨j, hj, hnames'⟩ := rel_some hR.arriving hl
      have hopen' := (hnames' connfd).mpr ⟨rfl, hnn⟩
      cases hopen.symm.trans hopen'
      exact Dispatch.not_arriving hpath hk hj
    · obtain ⟨j, hj, hnames'⟩ := hR.names hv
      have hopen' := (hnames' connfd).mpr ⟨rfl, hnn⟩
      cases hopen.symm.trans hopen'
      exact Dispatch.busy_inj hpath hj hk
  · obtain ⟨hp, rfl⟩ := loaded_of_step hs
    obtain ⟨k, t', hstep, hnames, -⟩ := hR.take hp
    have hk : k = takes tr := by
      cases hstep with
      | take w k q hq hw =>
        rw [takes, ← hops, ← Dispatch.length_jobs]
        exact Dispatch.head_waiting hpath hq
    exact hk ▸ (hnames _).mpr ⟨rfl, hnn⟩
  · obtain ⟨connfd, ops, hp⟩ := closed_of_step hs
    have hok : (s.worker w).Ok s.proc.table w := hR.worker w
    rw [hp] at hok
    exact hok.closed.1

/-- The second of two connections with one descriptor. -/
theorem pool_exclusive_reuse : ∃ (tr : List (Option (Fin 8) × Ev)) (s : State (Fin 8)),
    Lts.Path Step (init 64 {0, 1, 2, 3}) tr s ∧ s.proc.accepts = 2 ∧ s.worker 1 = .serve 4 [] ∧
      (∃ k, s.proc.table 4 = some (.client k)) ∧ s.listener.held ≠ some 4 ∧
      ∀ v, (s.worker v).held = some 4 → v = 1 := by
  obtain ⟨tr, s, h, hlen, hw, haccepts, -⟩ := exists_reuse
  exact ⟨tr, s, h, haccepts, hw, (pool_exclusive h (by rw [hlen]; decide)).1 1 4
    (by rw [hw]; rfl) (by decide)⟩

theorem Tracks.names_of_held (h : Tracks n s t) {k : ℕ} (hk : t.Held k) :
    ∃ connfd, Names s.proc.table connfd k := by
  have hrel : ∀ {a : Option ℤ} {b : Option ℕ}, Option.Rel (Names s.proc.table) a b → b = some k →
      ∃ connfd, Names s.proc.table connfd k := by
    intro a b hab hb
    cases hab with
    | none => cases hb
    | some hnames =>
      cases hb
      exact ⟨_, hnames⟩
  rcases hk with ha | hq | ⟨w, hw⟩
  · exact hrel h.arriving ha
  · obtain ⟨q, -, hnames⟩ := h.waiting
    obtain ⟨j, hj, rfl⟩ := List.getElem_of_mem hq
    exact ⟨_, hnames.get (hnames.length_eq ▸ hj) hj⟩
  · exact hrel (h.busy w) hw

theorem Tracks.client_inj (h : Tracks n s t) {fd fd' : ℤ} {k : ℕ}
    (hfd : s.proc.table fd = some (.client k)) (hfd' : s.proc.table fd' = some (.client k)) :
    fd = fd' := by
  obtain ⟨connfd, hnames⟩ := h.names_of_held (h.clients fd k hfd)
  exact ((hnames fd).mp hfd).1.trans ((hnames fd').mp hfd').1.symm

/-- **How many connections are open**: at most one for each slot and each worker, and the listener's;
and none when the listener is outside `sbuf_insert` and every worker waits for an item. -/
theorem pool_bounded (h : Lts.Path Step (init n fds) tr s)
    (hlt : (Sbuf.inserted (ringTrace tr)).length < 2 ^ 31) :
    (∀ S : Finset ℤ, (∀ fd ∈ S, ∃ k, s.proc.table fd = some (.client k)) →
      S.card ≤ n + Fintype.card ω + 1) ∧
    (s.listener.ring = .idle → (∀ w, s.worker w = .idle ∨ s.worker w = .remove .remItems) →
      s.proc.sbuf.items = 0 → ∀ fd k, s.proc.table fd ≠ some (.client k)) := by
  obtain ⟨btr, t, hpath, -, hR⟩ := path_tracks h hlt
  refine ⟨fun S hS => ?_, fun hl hw hitems fd k hfd => ?_⟩
  · choose! job hjob using hS
    have hinj : Set.InjOn job S := fun fd hfd fd' hfd' he =>
      hR.client_inj (hjob fd hfd) (he ▸ hjob fd' hfd')
    rw [← Finset.card_image_of_injOn hinj]
    refine Dispatch.card_le_of_held hpath fun k hk => ?_
    obtain ⟨fd, hfd, rfl⟩ := Finset.mem_image.mp hk
    exact hR.clients fd _ (hjob fd hfd)
  · obtain ⟨q, hq, hnames⟩ := hR.waiting
    have htaken : Threads.total Sbuf.Pc.itemsTaken s.ring.pc = 0 := by
      refine Threads.total_eq_zero.mpr fun i => ?_
      cases i with
      | none => exact congrArg Sbuf.Pc.itemsTaken hl
      | some w =>
        rcases hw w with hidle | hrem
        · exact congrArg (fun p => Sbuf.Pc.itemsTaken p.ring) hidle
        · exact congrArg (fun p => Sbuf.Pc.itemsTaken p.ring) hrem
    have hcount := hq.counts.items
    rw [htaken, show s.ring.mem.items = 0 from hitems] at hcount
    have hwait : t.waiting = [] :=
      List.length_eq_zero_iff.mp (hnames.length_eq ▸ hcount.symm)
    have harr : t.arriving = none := rel_none hR.arriving (by
      cases hp : s.listener with
      | insert p =>
        rw [hp] at hl
        exact congrArg Sbuf.Pc.held hl
      | accept | getnameinfo => rfl)
    have hbusy : ∀ w, t.busy w = none := fun w => rel_none (hR.busy w) (by
      rcases hw w with hidle | hrem
      · rw [hidle]
        rfl
      · rw [hrem]
        rfl)
    exact Dispatch.not_held harr hwait hbusy (hR.clients fd k hfd)

/-- After both connections with one descriptor are closed. -/
theorem pool_bounded_reuse : ∃ (tr : List (Option (Fin 8) × Ev)) (s : State (Fin 8)),
    Lts.Path Step (init 64 {0, 1, 2, 3}) tr s ∧ s.proc.accepts = 2 ∧
      (∀ S : Finset ℤ, (∀ fd ∈ S, ∃ k, s.proc.table fd = some (.client k)) → S.card ≤ 73) ∧
      ∀ fd k, s.proc.table fd ≠ some (.client k) := by
  obtain ⟨tr, s, h, hlen, hw, haccepts, hrun, hl, hidle, hi⟩ := exists_reuse
  have hclose : Step s (some 1, .released 4) _ := .work hrun (by rw [hw]; exact .close s.proc 4)
  have hlen' : (Sbuf.inserted (ringTrace (tr ++ [(some 1, .released 4)]))).length < 2 ^ 31 := by
    rw [ringTrace, List.filterMap_append, Sbuf.inserted, Sbuf.shown, List.filterMap_append,
      List.length_append]
    rw [ringTrace, Sbuf.inserted, Sbuf.shown] at hlen
    rw [hlen]
    decide
  obtain ⟨hbound, hnone⟩ := pool_bounded (h.snoc hclose) hlen'
  refine ⟨_, _, h.snoc hclose, haccepts, hbound, hnone ?_ ?_ hi⟩
  · exact congrArg LPc.ring hl
  · intro w
    by_cases hw1 : w = 1
    · subst hw1
      simp only [Function.update_self]
      exact .inl trivial
    · simp only [Function.update_of_ne hw1]
      exact .inl (hidle w hw1)

end Pool

end MiniProxy
