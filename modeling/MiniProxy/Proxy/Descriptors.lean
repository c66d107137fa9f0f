import MiniProxy.Proxy.Hits
import Mathlib.Data.Finset.Basic

/-!
# Open descriptors

`listen_on` accepts a connection, `worker` hands it to `worker_main` and closes it, and
`open_clientfd` opens a socket to the origin, which nobody closes.

* `Fds`: what calls of `socket`, `accept` and `close` do to the set of open descriptors;
* `openClientfdLoop_fds`: `open_clientfd` closes every candidate but the one that it returns;
* `Server`, `Event`, `Server.Step`: connections being accepted and handled;
* `Balanced`, `Answered`: the descriptors of a connection are closed, and the proxy answers it itself;
* **`descriptors_balanced`**: in every run that asks no origin nothing accumulates, and the next
  connection is balanced exactly when it asks no origin either;
* **`not_descriptors_balanced`**: a request after which the socket to the origin is still open.
-/

namespace MiniProxy

open Clib Cache

/-! ## The descriptor table -/

/-- What a list of calls does to the set of open descriptors: a new one is not open yet. -/
inductive Fds : Finset ℕ → List FdOp → Finset ℕ → Prop
  | nil (s : Finset ℕ) : Fds s [] s
  | opened {s s' : Finset ℕ} {fd : ℕ} {ops : List FdOp} (hfd : fd ∉ s)
      (h : Fds (insert fd s) ops s') : Fds s (.opened fd :: ops) s'
  | closed {s s' : Finset ℕ} {fd : ℕ} {ops : List FdOp} (h : Fds (s.erase fd) ops s') :
      Fds s (.closed fd :: ops) s'

theorem fds_append {s s'' : Finset ℕ} {ops ops' : List FdOp} (h : Fds s (ops ++ ops') s'') :
    ∃ s', Fds s ops s' ∧ Fds s' ops' s'' := by
  induction ops generalizing s with
  | nil => exact ⟨s, .nil s, h⟩
  | cons op ops ih =>
    cases h with
    | opened hfd h =>
      obtain ⟨s', h₁, h₂⟩ := ih h
      exact ⟨s', .opened hfd h₁, h₂⟩
    | closed h =>
      obtain ⟨s', h₁, h₂⟩ := ih h
      exact ⟨s', .closed h₁, h₂⟩

/-- **`open_clientfd` leaves the socket open that it returns**, and no other one. -/
theorem openClientfdLoop_fds {listp : List Candidate} {r : Option ℕ} {ops : List FdOp}
    {s s' : Finset ℕ} (hopen : openClientfdLoop listp = (r, ops)) (h : Fds s ops s') :
    r.elim (s' = s) fun fd => fd ∉ s ∧ s' = insert fd s := by
  induction listp generalizing ops s with
  | nil =>
    cases hopen
    cases h
    rfl
  | cons p listp ih =>
    obtain ⟨_ | clientfd, _ | _⟩ := p
    · exact ih hopen h
    · exact ih hopen h
    · -- the candidate that failed to connect is closed before the next one is opened
      obtain ⟨r', ops', hrest⟩ : ∃ r' ops', openClientfdLoop listp = (r', ops') := ⟨_, _, rfl⟩
      rw [openClientfdLoop, hrest] at hopen
      cases hopen
      cases h with
      | opened hfd h =>
        cases h with
        | closed h =>
          rw [Finset.erase_insert hfd] at h
          exact ih hrest h
    · cases hopen
      cases h with
      | opened hfd h =>
        cases h
        exact ⟨hfd, rfl⟩

/-! ## Connections -/

/-- What `worker_main` does to the descriptors on its way out. -/
def Reply.fdOps : Reply → List FdOp
  | .miss _ f _ => f.fdOps
  | _ => []

/-- The proxy between two connections: the cache, the open descriptors, and those of them that are in
the ring buffer. -/
structure Server where
  cache : Cache
  fds : Finset ℕ
  waiting : Finset ℕ

/-- What happens to a connection. -/
inductive Event where
  | accept (connfd : ℕ)
  | turn (connfd : ℕ) (env : Env) (o : Outcome)

/-- The loop of `listen_on` and the loop of `worker`, in which `worker_main` returns. -/
inductive Server.Step : Server → Event → Server → Prop
  | accept (c : Cache) (s q : Finset ℕ) (connfd : ℕ) (hfd : connfd ∉ s) :
      Step ⟨c, s, q⟩ (.accept connfd) ⟨c, insert connfd s, insert connfd q⟩
  | turn (c : Cache) (s q s' : Finset ℕ) (connfd : ℕ) (env : Env) (o : Outcome) (fuel : ℕ)
      (hfd : connfd ∈ q) (hret : workerMain fuel env c = .ok o)
      (hfds : Fds s (o.reply.fdOps ++ [.closed connfd]) s') :
      Step ⟨c, s, q⟩ (.turn connfd env o) ⟨o.cache, s', q.erase connfd⟩

/-- The descriptors of a connection are closed: the open ones are those before without `connfd`, and
`worker_main` has closed every socket as often as it has opened it. -/
structure Balanced (s : Finset ℕ) (connfd : ℕ) (o : Outcome) (s' : Finset ℕ) : Prop where
  fds : s' = s.erase connfd
  once : ∀ fd, o.reply.fdOps.count (.closed fd) = o.reply.fdOps.count (.opened fd)

/-- The proxy answers the request itself: it is empty, it is rejected, or `is_cached` finds a node for
it. -/
def Answered (c : Cache) (env : Env) : Prop :=
  ∀ key nio, receive env.loc env.connfd = .ok (.accepted key nio) →
    ∃ p, Returns (fun fuel => c.findSec fuel key) (some p)

variable {c : Cache} {env : Env} {o : Outcome} {fuel connfd : ℕ} {s s' : Finset ℕ}

theorem fdOps_of_answered (h : workerMain fuel env c = .ok o) (ha : Answered c env) :
    o.reply.fdOps = [] := by
  have hmiss : ∀ key nio, receive env.loc env.connfd = .ok (.accepted key nio) →
      c.findSec fuel key ≠ .ok none := by
    intro key nio hreq hfind
    obtain ⟨p, n, hn⟩ := ha key nio hreq
    have hbig := findSec_mono (Nat.le_add_right fuel n) hfind
    cases hbig.symm.trans (hn (fuel + n) (Nat.le_add_left n fuel))
  cases exit_of_workerMain h with
  | closed => rfl
  | rejected => rfl
  | hit => rfl
  | stored key nio f c' hreq hfind => exact absurd hfind (hmiss key nio hreq)
  | tooLong key nio f hreq hfind => exact absurd hfind (hmiss key nio hreq)

theorem fdOps_of_not_answered (h : workerMain fuel env c = .ok o) (ha : ¬ Answered c env) :
    ∃ listp fd, openClientfdLoop listp = (some fd, o.reply.fdOps) := by
  cases exit_of_workerMain h with
  | closed hreq =>
    refine absurd (fun key nio hacc => ?_) ha
    cases hreq.symm.trans hacc
  | rejected sent hreq =>
    refine absurd (fun key nio hacc => ?_) ha
    cases hreq.symm.trans hacc
  | hit key nio p sent c' hreq hfind =>
    refine absurd (fun key' nio' hacc => ?_) ha
    cases hreq.symm.trans hacc
    exact ⟨p, fuel, fun fuel' hle => findSec_mono hle hfind⟩
  | stored key nio f c' hreq hfind hf =>
    obtain ⟨listp, fd, -, hopen, -⟩ := fetch_ok hf
    exact ⟨listp, fd, hopen⟩
  | tooLong key nio f hreq hfind hf =>
    obtain ⟨listp, fd, -, hopen, -⟩ := fetch_ok hf
    exact ⟨listp, fd, hopen⟩

/-- **What a connection leaves open**: nothing, or the socket to the origin. -/
theorem fds_of_turn (h : workerMain fuel env c = .ok o)
    (hfds : Fds s (o.reply.fdOps ++ [.closed connfd]) s') :
    (Answered c env → s' = s.erase connfd) ∧
      (¬ Answered c env → ∃ fd, fd ∉ s ∧ s' = (insert fd s).erase connfd) := by
  obtain ⟨s₁, h₁, h₂⟩ := fds_append hfds
  have hclose : s' = s₁.erase connfd := by
    cases h₂ with
    | closed h₂ =>
      cases h₂
      rfl
  constructor
  · intro ha
    rw [fdOps_of_answered h ha] at h₁
    cases h₁
    exact hclose
  · intro ha
    obtain ⟨listp, fd, hopen⟩ := fdOps_of_not_answered h ha
    obtain ⟨hfd, rfl⟩ := openClientfdLoop_fds hopen h₁
    exact ⟨fd, hfd, hclose⟩

/-- **A connection is balanced exactly when** the proxy answers it itself. -/
theorem balanced_iff (h : workerMain fuel env c = .ok o) (hfd : connfd ∈ s)
    (hfds : Fds s (o.reply.fdOps ++ [.closed connfd]) s') :
    Balanced s connfd o s' ↔ Answered c env := by
  obtain ⟨hyes, hno⟩ := fds_of_turn h hfds
  constructor
  · intro hB
    by_contra ha
    obtain ⟨fd, hnew, hs'⟩ := hno ha
    have hne : fd ≠ connfd := fun e => hnew (e ▸ hfd)
    have hmem : fd ∈ s' := by
      rw [hs']
      exact Finset.mem_erase_of_ne_of_mem hne (Finset.mem_insert_self fd s)
    rw [hB.fds] at hmem
    exact hnew (Finset.mem_of_mem_erase hmem)
  · intro ha
    refine ⟨hyes ha, fun fd => ?_⟩
    rw [fdOps_of_answered h ha]
    rfl

/-! ## Runs -/

/-- The proxy answers the request of the event itself. -/
def Local (σ : Server) : Event → Prop
  | .accept _ => True
  | .turn _ env _ => Answered σ.cache env

variable {σ σ' : Server} {tr : List Event}

theorem waiting_step {a : Event} (hq : σ.waiting ⊆ σ.fds) (h : σ.Step a σ') :
    σ'.waiting ⊆ σ'.fds := by
  cases h with
  | accept c s q connfd hfd => exact Finset.insert_subset_insert connfd hq
  | turn c s q s' connfd env o fuel hfd hret hfds =>
    obtain ⟨hyes, hno⟩ := fds_of_turn hret hfds
    by_cases ha : Answered c env
    · simp only [hyes ha]
      exact Finset.erase_subset_erase connfd hq
    · obtain ⟨fd, -, hs'⟩ := hno ha
      simp only [hs']
      exact Finset.erase_subset_erase connfd (hq.trans (Finset.subset_insert fd s))

theorem fds_step {a : Event} (hq : σ.waiting ⊆ σ.fds) (h : σ.Step a σ') (hl : Local σ a) :
    σ'.fds \ σ'.waiting = σ.fds \ σ.waiting := by
  cases h with
  | accept c s q connfd hfd =>
    ext fd
    simp only [Finset.mem_sdiff, Finset.mem_insert, not_or]
    constructor
    · rintro ⟨hmem, hne, hnq⟩
      exact ⟨hmem.resolve_left hne, hnq⟩
    · rintro ⟨hmem, hnq⟩
      exact ⟨.inr hmem, fun e => hfd (e ▸ hmem), hnq⟩
  | turn c s q s' connfd env o fuel hfd hret hfds =>
    have hs' : s' = s.erase connfd := (fds_of_turn hret hfds).1 hl
    ext fd
    simp only [hs', Finset.mem_sdiff, Finset.mem_erase, not_and]
    constructor
    · rintro ⟨⟨hne, hmem⟩, hnq⟩
      exact ⟨hmem, hnq hne⟩
    · rintro ⟨hmem, hnq⟩
      exact ⟨⟨fun e => hnq (e ▸ hfd), hmem⟩, fun _ => hnq⟩

/-- **No descriptor accumulates** over a run in which the proxy answers every request itself, and the
next connection is balanced exactly when the proxy answers it itself. -/
theorem descriptors_balanced (hq : σ.waiting ⊆ σ.fds)
    (hrun : Lts.Path (Lts.Guarded Server.Step Local) σ tr σ') :
    σ'.fds \ σ'.waiting = σ.fds \ σ.waiting ∧
      ∀ connfd env o σ'', σ'.Step (.turn connfd env o) σ'' →
        (Balanced σ'.fds connfd o σ''.fds ↔ Answered σ'.cache env) := by
  obtain ⟨hq', hkeep⟩ : σ'.waiting ⊆ σ'.fds ∧ σ'.fds \ σ'.waiting = σ.fds \ σ.waiting :=
    Lts.Path.invariant_state
      (fun τ => τ.waiting ⊆ τ.fds ∧ τ.fds \ τ.waiting = σ.fds \ σ.waiting) ⟨hq, rfl⟩
      (fun _ _ _ ⟨hq, hkeep⟩ h =>
        ⟨waiting_step hq h.1, (fds_step hq h.1 h.2).trans hkeep⟩) hrun
  refine ⟨hkeep, fun connfd env o σ'' h => ?_⟩
  cases h with
  | turn c s q s' _ _ _ fuel hfd hret hfds => exact balanced_iff hret (hq' hfd) hfds

/-- After a connection is accepted, a request that is a hit is balanced. -/
theorem descriptors_balanced_hit : ∃ σ tr σ' env o σ'',
    Lts.Path (Lts.Guarded Server.Step Local) σ tr σ' ∧ σ'.fds = {7} ∧
      σ'.Step (.turn 7 env o) σ'' ∧ o.reply = .hit (plainKey "A") ∧ σ''.fds = ∅ ∧
      σ'.fds \ σ'.waiting = σ.fds \ σ.waiting ∧
      (Balanced σ'.fds 7 o σ''.fds ↔ Answered σ'.cache env) := by
  obtain ⟨f, c, o, c', -, hs, hhit, -⟩ := plain_hit (s := "A") (t := "A") (by decide)
    (by decide) (by decide) (ascii "A\n") (forwarded_of_short (by decide) (by decide))
    (by decide) (by decide)
  cases hs with
  | mk _ _ _ _ hret =>
    obtain ⟨n, hn⟩ := hret
    have haccept : Server.Step ⟨c, ∅, ∅⟩ (.accept 7) ⟨c, {7}, {7}⟩ := .accept c ∅ ∅ 7 (by decide)
    have hturn : Server.Step ⟨c, {7}, {7}⟩ (.turn 7 _ o) ⟨o.cache, ∅, ∅⟩ :=
      .turn c {7} {7} ∅ 7 _ o n (by decide) (hn n le_rfl) (by
        rw [hhit]
        exact .closed (.nil _))
    have hrun : Lts.Path (Lts.Guarded Server.Step Local) ⟨c, ∅, ∅⟩ [.accept 7] ⟨c, {7}, {7}⟩ :=
      .single ⟨haccept, trivial⟩
    obtain ⟨hkeep, hnext⟩ := descriptors_balanced (Finset.Subset.refl _) hrun
    exact ⟨_, _, _, _, o, _, hrun, rfl, hturn, hhit, rfl, hkeep, hnext _ _ _ _ hturn⟩

/-- A request that the origin answers on the socket `4`, which is open when the connection `7` is
closed. -/
theorem not_descriptors_balanced : ∃ env o c,
    Server.Step ⟨emptyCache, {7}, {7}⟩ (.turn 7 env o) ⟨c, {4}, ∅⟩ ∧
      ¬ Balanced {7} 7 o {4} := by
  obtain ⟨f, c, hserve, -⟩ := plain_store (s := "") (by decide) (ascii "ok\n")
    (by rw [forwarded_of_short (by decide) (by decide)]; decide)
    (by rw [forwarded_of_short (by decide) (by decide)]; decide)
  have hops : f.fdOps = [.opened 4] := by
    cases hserve with
    | mk _ _ _ _ hret =>
      obtain ⟨n, hn⟩ := hret
      cases exit_of_workerMain (hn n le_rfl) with
      | stored key nio f c' hreq hfind hf =>
        obtain ⟨listp, fd, haddr, hopen, -⟩ := fetch_ok hf
        cases haddr
        exact (congrArg Prod.snd hopen).symm
  cases hserve with
  | mk _ _ _ _ hret =>
    obtain ⟨n, hn⟩ := hret
    refine ⟨_, _, c, .turn emptyCache {7} {7} {4} 7 _ _ n (by decide) (hn n le_rfl) ?_, ?_⟩
    · simp only [Reply.fdOps, hops]
      exact .opened (by decide) (.closed (.nil _))
    · rintro ⟨hfds, -⟩
      exact absurd hfds (by decide)

end MiniProxy
