import MiniProxy.Cache.Discipline
import MiniProxy.Lib.Outline

/-!
# The points of the code of the cache

The places of a thread that runs `is_cached` or `add_cache`, statement by statement. Together with the
place in the lock they are the modes of an outline, which all bodies fit.

* `Sec`, `Sec.accesses`: the write sections and their statements;
* `Check`, `Point`: the points; `Point.inRead`, `Point.inWrite`: those inside of a section;
* `Act.point`, `Cond.point`: the statements and conditions; `outline`, `outlined`;
* `lock_after`: what the outline says of the lock is what the discipline says of it;
* `Placed`: a point inside of a section goes with a place inside of it; `placed_after`;
* `Follows`, **`Follows.step`**: the points of all threads; `Follows.alone`, `Follows.no_writer`.
-/

namespace MiniProxy.CacheCode

open Code

deriving instance DecidableEq for Access

/-! ## Points -/

/-- The write sections, by the functions that they belong to. -/
inductive Sec
  | link
  | unlink
  | promote
  deriving DecidableEq

/-- The statements of a write section. The test `is_empty` of `dequeue` comes before them. -/
def Sec.accesses : Sec → List Access
  | .link => [.nodePrev, .nodeNext, .endPrev, .nodePrevNext, .countInc, .loadAdd]
  | .unlink => [.delFirst, .frontNext, .frontNextPrev, .countDec, .loadSub]
  | .promote =>
    [.tomovePrevNext, .tomoveNextPrev, .tomoveNext, .tomovePrev, .endPrevTomove, .tomovePrevNextTomove]

/-- The points of a call of `cache_check`: before its read section, and at each of its statements. -/
inductive Check
  | wait
  | zero
  | assertEmpty
  | assertEnds
  | first
  | loop
  | count
  | linked
  | next
  | total
  | done
  deriving DecidableEq

/-- The points of a thread. `write sec k` is before the statement `k` of the section, `check sec c` in
the call of `cache_check` that follows it; a section ends at its last statement, or at the `P(&mutex)`
of `post_read`. -/
inductive Point
  | idle
  -- `is_cached`
  | findWait
  | findEmpty
  | findLast
  | findLoop
  | findMatch
  | findPrev
  | findMissed
  | findFound
  | found
  | passed
  | promoteWait
  | copying
  -- `add_cache`
  | newing
  | linkWait
  | testIf
  | testWhile
  | unlinkWait
  | unlinkTest
  | unlinkNull
  | freeing
  -- sections
  | write (sec : Sec) (k : ℕ)
  | check (sec : Sec) (c : Check)
  deriving DecidableEq

/-- What follows the call of `cache_check`. -/
def Sec.next : Sec → Point
  | .link => .testIf
  | .unlink => .freeing
  | .promote => .copying

/-- Inside of a read section. -/
def Point.inRead : Point → Bool
  | .findEmpty | .findLast | .findLoop | .findMatch | .findPrev | .findMissed | .findFound => true
  | .check _ .wait => false
  | .check _ _ => true
  | _ => false

/-- Inside of a write section and before its last statement. -/
def Point.inWrite : Point → Bool
  | .unlinkTest | .write _ _ => true
  | _ => false

/-- A read section begins. -/
def Point.enterRead : Point → Option Point
  | .findWait => some .findEmpty
  | .check sec .wait => some (.check sec .zero)
  | _ => none

/-- A read section ends. -/
def Point.leaveRead : Point → Option Point
  | .findMissed => some .idle
  | .findFound => some .found
  | .check sec .done => some sec.next
  | _ => none

/-- A write section begins. -/
def Point.enterWrite : Point → Option Point
  | .linkWait => some (.write .link 0)
  | .unlinkWait => some .unlinkTest
  | .promoteWait => some (.write .promote 0)
  | _ => none

/-- A write section ends. -/
def Point.leaveWrite : Point → Option Point
  | .unlinkNull => some .unlinkNull
  | .check sec .wait => some (.check sec .wait)
  | _ => none

/-- The statement `k` of a write section. -/
def Sec.point (sec : Sec) (k : ℕ) (a : Access) : Option Point :=
  if sec.accesses[k]? = some a then
    if k + 1 = sec.accesses.length then some (.check sec .wait) else some (.write sec (k + 1))
  else none

/-- The statements on the queue. -/
def Access.point : Access → Point → Option Point
  | .pLast, .findLast => some .findLoop
  | .pPrev, .findPrev => some .findLoop
  | .passFound, .found => some .passed
  | .tomove, .passed => some .promoteWait
  | .copyOut, .copying => some .idle
  | .newNode, .newing => some .linkWait
  | .delNull, .unlinkNull => some .freeing
  | .freeDel, .freeing => some .testWhile
  | .assertEmpty, .check sec .assertEmpty => some (.check sec .assertEnds)
  | .assertEnds, .check sec .assertEnds => some (.check sec .done)
  | .checkFirst, .check sec .first => some (.check sec .loop)
  | .checkCount, .check sec .count => some (.check sec .linked)
  | .assertLinked, .check sec .linked => some (.check sec .next)
  | .checkNext, .check sec .next => some (.check sec .loop)
  | .assertCount, .check sec .total => some (.check sec .done)
  | a, .write sec k => sec.point k a
  | _, _ => none

/-- The statements. -/
def Act.point : Fn → Act → Point → Option Point
  | _, .access a, m => a.point m
  | .preRead, .V .mutex, m => m.enterRead
  | .postRead, .P .mutex, m => m.leaveRead
  | .preWrite, .P .w, m => m.enterWrite
  | _, _, m => some m

/-- The tests on the queue. -/
def Test.point : Test → Bool → Point → Option Point
  | .isEmpty, true, .findEmpty => some .findMissed
  | .isEmpty, false, .findEmpty => some .findLast
  | .notFront, true, .findLoop => some .findMatch
  | .notFront, false, .findLoop => some .findMissed
  | .isMatch, true, .findMatch => some .findFound
  | .isMatch, false, .findMatch => some .findPrev
  | .isEmpty, true, .unlinkTest => some .unlinkNull
  | .isEmpty, false, .unlinkTest => some (.write .unlink 0)
  | .overLoad, true, .testIf => some .testWhile
  | .overLoad, false, .testIf => some .idle
  | .overLoad, true, .testWhile => some .unlinkWait
  | .overLoad, false, .testWhile => some .idle
  | .countZero, true, .check sec .zero => some (.check sec .assertEmpty)
  | .countZero, false, .check sec .zero => some (.check sec .first)
  | .notEnd, true, .check sec .loop => some (.check sec .count)
  | .notEnd, false, .check sec .loop => some (.check sec .total)
  | _, _, _ => none

/-- The conditions. -/
def Cond.point : Cond → Bool → Point → Option Point
  | .readcnt _, _, m => some m
  | .queue t, v, m => t.point v m

/-- A mode: a point and a place in the lock. -/
abbrev Mode := Point × RwLock.Pc

/-- The calls: the mode in which a body starts, and the one in which it returns. -/
def Fn.calls : Fn → Mode → Option (Mode × Mode)
  | .preRead, (m, .out) => m.enterRead.map fun m' => ((m, .preReadP), (m', .reading))
  | .postRead, (m, .reading) => m.leaveRead.map fun m' => ((m, .postReadP), (m', .out))
  | .preWrite, (m, .out) => m.enterWrite.map fun m' => ((m, .preWrite), (m', .writing))
  | .postWrite, (m, .writing) => m.leaveWrite.map fun m' => ((m, .postWrite), (m', .out))
  | .cacheCheck, (.check sec .wait, .out) => some ((.check sec .wait, .out), (sec.next, .out))
  | .enqueue, (.linkWait, .out) => some ((.linkWait, .out), (.testIf, .out))
  | .dequeue, (.unlinkWait, .out) => some ((.unlinkWait, .out), (.freeing, .out))
  | .update, (.passed, .out) => some ((.passed, .out), (.copying, .out))
  | _, _ => none

/-- The calls from outside. -/
def Fn.starts : Fn → Option Mode
  | .isCached => some (.findWait, .out)
  | .addCache => some (.newing, .out)
  | _ => none

/-- The outline of `is_cached` and `add_cache`. -/
def outline : Outline Act Cond Fn Mode where
  act f a m := do return (← a.point f m.1, ← actMode f a m.2)
  test b v m := do return (← b.point v m.1, ← condMode b v m.2)
  call := Fn.calls
  start := Fn.starts
  idle := (.idle, .out)

theorem enterRead_eq {m m' : Point} (h : m.enterRead = some m') :
    (m = .findWait ∧ m' = .findEmpty) ∨ ∃ sec, m = .check sec .wait ∧ m' = .check sec .zero := by
  unfold Point.enterRead at h
  split at h <;> cases h
  · exact .inl ⟨rfl, rfl⟩
  · exact .inr ⟨_, rfl, rfl⟩

theorem leaveRead_eq {m m' : Point} (h : m.leaveRead = some m') :
    (m = .findMissed ∧ m' = .idle) ∨ (m = .findFound ∧ m' = .found) ∨
      ∃ sec, m = .check sec .done ∧ m' = sec.next := by
  unfold Point.leaveRead at h
  split at h <;> cases h
  · exact .inl ⟨rfl, rfl⟩
  · exact .inr (.inl ⟨rfl, rfl⟩)
  · exact .inr (.inr ⟨_, rfl, rfl⟩)

theorem enterWrite_eq {m m' : Point} (h : m.enterWrite = some m') :
    (m = .linkWait ∧ m' = .write .link 0) ∨ (m = .unlinkWait ∧ m' = .unlinkTest) ∨
      (m = .promoteWait ∧ m' = .write .promote 0) := by
  unfold Point.enterWrite at h
  split at h <;> cases h
  · exact .inl ⟨rfl, rfl⟩
  · exact .inr (.inl ⟨rfl, rfl⟩)
  · exact .inr (.inr ⟨rfl, rfl⟩)

theorem leaveWrite_eq {m m' : Point} (h : m.leaveWrite = some m') :
    m' = m ∧ (m = .unlinkNull ∨ ∃ sec, m = .check sec .wait) := by
  unfold Point.leaveWrite at h
  split at h <;> cases h
  · exact ⟨rfl, .inl rfl⟩
  · exact ⟨rfl, .inr ⟨_, rfl⟩⟩

/-- **Every body fits the outline**, on each of its paths. -/
theorem outlined : outline.Checked body where
  call f m x e h := by
    simp only [outline] at h
    unfold Fn.calls at h
    split at h
    · obtain ⟨m', hm, h⟩ := Option.map_eq_some_iff.mp h
      cases h
      obtain ⟨rfl, rfl⟩ | ⟨sec, rfl, rfl⟩ := enterRead_eq hm
      · exact Outline.fits_of_flow rfl
      · cases sec <;> exact Outline.fits_of_flow rfl
    · obtain ⟨m', hm, h⟩ := Option.map_eq_some_iff.mp h
      cases h
      obtain ⟨rfl, rfl⟩ | ⟨rfl, rfl⟩ | ⟨sec, rfl, rfl⟩ := leaveRead_eq hm
      · exact Outline.fits_of_flow rfl
      · exact Outline.fits_of_flow rfl
      · cases sec <;> exact Outline.fits_of_flow rfl
    · obtain ⟨m', hm, h⟩ := Option.map_eq_some_iff.mp h
      cases h
      obtain ⟨rfl, rfl⟩ | ⟨rfl, rfl⟩ | ⟨rfl, rfl⟩ := enterWrite_eq hm <;> exact Outline.fits_of_flow rfl
    · obtain ⟨m', hm, h⟩ := Option.map_eq_some_iff.mp h
      cases h
      obtain ⟨rfl, rfl | ⟨sec, rfl⟩⟩ := leaveWrite_eq hm
      · exact Outline.fits_of_flow rfl
      · cases sec <;> exact Outline.fits_of_flow rfl
    · rename_i sec
      cases h
      cases sec <;> exact Outline.fits_of_flow rfl
    · cases h
      exact Outline.fits_of_flow rfl
    · cases h
      exact Outline.fits_of_returns rfl
    · cases h
      exact Outline.fits_of_flow rfl
    · cases h
  start f x h := by
    cases f <;> cases h
    · exact Outline.fits_of_returns rfl
    · exact Outline.fits_of_flow rfl

/-! ## The places in the lock -/

theorem calls_eq {f : Fn} {y x e : Mode} (h : f.calls y = some (x, e)) :
    y.2 = discipline.pre f ∧ x.2 = discipline.entry f ∧ x.1 = y.1 := by
  unfold Fn.calls at h
  split at h
  · obtain ⟨_, -, h⟩ := Option.map_eq_some_iff.mp h
    cases h
    exact ⟨rfl, rfl, rfl⟩
  · obtain ⟨_, -, h⟩ := Option.map_eq_some_iff.mp h
    cases h
    exact ⟨rfl, rfl, rfl⟩
  · obtain ⟨_, -, h⟩ := Option.map_eq_some_iff.mp h
    cases h
    exact ⟨rfl, rfl, rfl⟩
  · obtain ⟨_, -, h⟩ := Option.map_eq_some_iff.mp h
    cases h
    exact ⟨rfl, rfl, rfl⟩
  · cases h
    exact ⟨rfl, rfl, rfl⟩
  · cases h
    exact ⟨rfl, rfl, rfl⟩
  · cases h
    exact ⟨rfl, rfl, rfl⟩
  · cases h
    exact ⟨rfl, rfl, rfl⟩
  · cases h

variable {l : Label Act Cond Fn} {x y : Mode}

theorem lock_after (h : outline.after l y = some x) (hl : ∀ f, l ≠ .ret f)
    (hstart : ∀ f, l = .start f → y.2 = .out) : Discipline.after discipline l y.2 = some x.2 := by
  cases l with
  | tau =>
    cases h
    rfl
  | act f a =>
    obtain ⟨m₁, -, h⟩ := Option.bind_eq_some_iff.mp h
    obtain ⟨p₁, hp, h⟩ := Option.bind_eq_some_iff.mp h
    cases h
    exact hp
  | test b v =>
    obtain ⟨m₁, -, h⟩ := Option.bind_eq_some_iff.mp h
    obtain ⟨p₁, hp, h⟩ := Option.bind_eq_some_iff.mp h
    cases h
    exact hp
  | start f =>
    have hout := hstart f rfl
    cases f <;> cases h <;> simp [Discipline.after, discipline, hout]
  | call f =>
    obtain ⟨⟨x', e⟩, hcall, h⟩ := Option.map_eq_some_iff.mp h
    cases h
    obtain ⟨hpre, hentry, -⟩ := calls_eq hcall
    simp only [Discipline.after]
    rw [if_pos hpre, hentry]
  | ret f => exact absurd rfl (hl f)

theorem point_of_act {f : Fn} {a : Act} (h : outline.after (.act f a) y = some x) :
    a.point f y.1 = some x.1 := by
  obtain ⟨m₁, hm, h⟩ := Option.bind_eq_some_iff.mp h
  obtain ⟨p₁, -, h⟩ := Option.bind_eq_some_iff.mp h
  cases h
  exact hm

theorem point_of_test {b : Cond} {v : Bool} (h : outline.after (.test b v) y = some x) :
    b.point v y.1 = some x.1 := by
  obtain ⟨m₁, hm, h⟩ := Option.bind_eq_some_iff.mp h
  obtain ⟨p₁, -, h⟩ := Option.bind_eq_some_iff.mp h
  cases h
  exact hm

theorem point_of_call {f : Fn} (h : outline.after (.call f) y = some x) : x.1 = y.1 := by
  obtain ⟨⟨x', e⟩, hcall, h⟩ := Option.map_eq_some_iff.mp h
  cases h
  exact (calls_eq hcall).2.2

/-- A thread inside of a section stands inside of it in the lock. -/
structure Placed (y : Mode) : Prop where
  read : y.1.inRead = true → y.2 = .reading ∨ y.2 = .postReadP
  write : y.1.inWrite = true → y.2 = .writing

theorem placed_idle : Placed (.idle, .out) := ⟨nofun, nofun⟩

theorem inside_of_access {a : Access} {m m' : Point} (h : a.point m = some m') :
    (m'.inRead = true → m.inRead = true) ∧ (m'.inWrite = true → m.inWrite = true) := by
  unfold Access.point at h
  split at h
  all_goals try (cases h <;> simp [Point.inRead, Point.inWrite])
  unfold Sec.point at h
  split_ifs at h <;> cases h <;> simp [Point.inRead, Point.inWrite]

theorem inside_of_test {t : Test} {v : Bool} {m m' : Point} (h : t.point v m = some m') :
    (m'.inRead = true → m.inRead = true) ∧ (m'.inWrite = true → m.inWrite = true) := by
  unfold Test.point at h
  split at h <;> cases h <;> simp [Point.inRead, Point.inWrite]

theorem Placed.outside (h : Placed y) (hr : y.2 ≠ .reading ∧ y.2 ≠ .postReadP ∧ y.2 ≠ .writing) :
    y.1.inRead = false ∧ y.1.inWrite = false := by
  constructor
  · by_contra hn
    rcases h.read (by simpa using hn) with h | h
    · exact hr.1 h
    · exact hr.2.1 h
  · by_contra hn
    exact hr.2.2 (h.write (by simpa using hn))

theorem placed_of_outside (h : x.1.inRead = false ∧ x.1.inWrite = false) : Placed x :=
  ⟨fun hr => by simp [h.1] at hr, fun hw => by simp [h.2] at hw⟩

theorem placed_act {f : Fn} {a : Act} {m m' : Point} {p p' : RwLock.Pc} (hP : Placed (m, p))
    (hm : a.point f m = some m') (hp : actMode f a p = some p') : Placed (m', p') := by
  by_cases ha : ∃ b, a = .access b
  · obtain ⟨b, rfl⟩ := ha
    obtain rfl := eq_of_actMode_access hp
    have hin := inside_of_access (show b.point m = some m' by cases f <;> exact hm)
    exact ⟨fun h => hP.read (hin.1 h), fun h => hP.write (hin.2 h)⟩
  · rw [not_exists] at ha
    unfold actMode at hp
    split at hp <;> cases hp
    -- the four statements that begin or end a section in the lock
    case h_4 =>
      obtain ⟨rfl, rfl⟩ | ⟨sec, rfl, rfl⟩ := enterRead_eq hm <;>
        exact ⟨fun _ => .inl rfl, by simp [Point.inWrite]⟩
    case h_5 =>
      obtain ⟨rfl, rfl⟩ | ⟨rfl, rfl⟩ | ⟨sec, rfl, rfl⟩ := leaveRead_eq hm
      · exact placed_of_outside ⟨rfl, rfl⟩
      · exact placed_of_outside ⟨rfl, rfl⟩
      · cases sec <;> exact placed_of_outside ⟨rfl, rfl⟩
    case h_9 =>
      obtain ⟨rfl, rfl⟩ | ⟨rfl, rfl⟩ | ⟨rfl, rfl⟩ := enterWrite_eq hm <;>
        exact ⟨by simp [Point.inRead], fun _ => rfl⟩
    case h_11 => exact absurd rfl (ha _)
    all_goals
      cases hm
      exact placed_of_outside (hP.outside (by simp))

theorem placed_call {f : Fn} {e : Mode} (hP : Placed y) (h : f.calls y = some (x, e)) : Placed x := by
  obtain ⟨hy, hentry, hx⟩ := calls_eq h
  have hout : discipline.pre f = .out → Placed x := by
    intro hpre
    refine placed_of_outside ?_
    rw [hx]
    exact hP.outside (by simp [hy, hpre])
  cases f with
  | postRead =>
    refine ⟨fun _ => .inr hentry, fun hw => ?_⟩
    rw [hx] at hw
    exact absurd (hy.symm.trans (hP.write hw)) (by simp [discipline])
  | postWrite =>
    unfold Fn.calls at h
    split at h <;> rename_i hf <;> try cases hf
    · obtain ⟨m', hm, h⟩ := Option.map_eq_some_iff.mp h
      cases h
      obtain ⟨-, rfl | ⟨sec, rfl⟩⟩ := leaveWrite_eq hm <;> exact placed_of_outside ⟨rfl, rfl⟩
    · cases h
  | _ => exact hout rfl

/-- **A section of the code is a section of the lock.** -/
theorem placed_after (hP : Placed y) (h : outline.after l y = some x) : Placed x := by
  cases l with
  | tau | ret =>
    cases h
    exact hP
  | act f a =>
    obtain ⟨m₁, hm, h⟩ := Option.bind_eq_some_iff.mp h
    obtain ⟨p₁, hp, h⟩ := Option.bind_eq_some_iff.mp h
    cases h
    exact placed_act hP hm hp
  | test b v =>
    obtain ⟨m₁, hm, h⟩ := Option.bind_eq_some_iff.mp h
    obtain ⟨p₁, hp, h⟩ := Option.bind_eq_some_iff.mp h
    cases h
    unfold condMode at hp
    split at hp <;> cases hp
    case h_5 =>
      have hin := inside_of_test hm
      exact ⟨fun h => hP.read (hin.1 h), fun h => hP.write (hin.2 h)⟩
    all_goals
      cases hm
      exact placed_of_outside (hP.outside (by simp [*]))
  | start f => cases f <;> cases h <;> exact placed_of_outside ⟨rfl, rfl⟩
  | call f =>
    obtain ⟨⟨x', e⟩, hcall, h⟩ := Option.map_eq_some_iff.mp h
    cases h
    exact placed_call hP hcall

/-! ## Threads -/

section Threads

variable {ι D V : Type*} {I : Data D V}

/-- The threads only call `is_cached` and `add_cache`. -/
def Starts (a : ι × Label Act Cond Fn) : Prop :=
  ∀ f, a.2 = .start f → f = .isCached ∨ f = .addCache

variable [Fintype ι] [DecidableEq ι]

/-- Every thread is at the point and at the place in the lock to which its calls have brought it. -/
structure Follows (s : State ι D V) (pt : ι → Mode) : Prop where
  fine : ∀ i, outline.Fine (s.pc i).stack (pt i)
  placed : ∀ i, Placed (pt i)
  own : ∀ i, (s.pc i).own = Own.of (pt i).2
  lock : ∃ g, RwLock.Inv ⟨s.mem.lock, fun i => (pt i).2⟩ g

variable {s s' : State ι D V} {pt : ι → Mode}

omit [DecidableEq ι] in
theorem follows_init (d : D) (x : ι → V) : Follows (init d x) fun _ => (.idle, .out) where
  fine _ := rfl
  placed _ := placed_idle
  own _ := rfl
  lock := ⟨0, RwLock.inv_init⟩

omit [Fintype ι] in
theorem snd_update (pt : ι → Mode) (i : ι) (z : Mode) :
    (fun j => (Function.update pt i z j).2) = Function.update (fun j => (pt j).2) i z.2 := by
  funext j
  by_cases hj : j = i
  · subst hj
    simp
  · simp [hj]

/-- **Every step takes its thread on as the outline says.** -/
theorem Follows.step {i : ι} (h : Follows s pt) (hs : Step I s (i, l) s') (hf : Starts (i, l)) :
    ∃ z, outline.after l (pt i) = some z ∧ Follows s' (Function.update pt i z) := by
  obtain ⟨⟨hmove, heff⟩⟩ := hs
  rename_i m st v
  obtain ⟨z, hz, hfine⟩ := (h.fine i).move outlined hmove fun f hl => by
    rcases hf f hl with rfl | rfl <;> exact ⟨_, rfl⟩
  have hidle : ∀ f, l = .start f → (pt i).2 = .out := by
    rintro f rfl
    have hst : (s.pc i).stack = [] := by
      generalize (s.pc i).stack = st₀ at hmove
      cases hmove
      rfl
    have hfine := h.fine i
    rw [hst] at hfine
    rw [show pt i = (.idle, .out) from hfine]
  have hlock : (s.pc i).own.after l = Own.of z.2 ∧
      ∃ g, RwLock.Inv ⟨m.lock, Function.update (fun j => (pt j).2) i z.2⟩ g := by
    obtain ⟨g, hI⟩ := h.lock
    have hsame : m.lock = s.mem.lock → z.2 = (pt i).2 →
        RwLock.Inv ⟨m.lock, Function.update (fun j => (pt j).2) i z.2⟩ g := by
      intro hl hp
      rw [hl, hp, Function.update_eq_self]
      exact hI
    by_cases hret : ∃ f, l = .ret f
    · obtain ⟨f, rfl⟩ := hret
      cases hz
      have hm : m = s.mem := by
        generalize s.mem = m₀ at heff
        cases heff
        rfl
      exact ⟨h.own i, g, hsame (by rw [hm]) rfl⟩
    · rw [not_exists] at hret
      have hafter := lock_after hz hret hidle
      refine ⟨by rw [h.own i, own_after hafter], ?_⟩
      rcases lock_step heff hafter with ⟨-, hl, hp⟩ | ⟨-, hstep⟩
      · exact ⟨g, hsame hl hp⟩
      · exact RwLock.inv_step hI (Threads.Step.mk (i := i) hstep)
  refine ⟨z, hz, ?_, ?_, ?_, ?_⟩
  · intro j
    by_cases hj : j = i
    · subst hj
      simpa using hfine
    · simpa [hj] using h.fine j
  · intro j
    by_cases hj : j = i
    · subst hj
      simpa using placed_after (h.placed j) hz
    · simpa [hj] using h.placed j
  · intro j
    by_cases hj : j = i
    · subst hj
      simpa using hlock.1
    · simpa [hj] using h.own j
  · rw [snd_update]
    exact hlock.2

theorem Follows.alone (h : Follows s pt) {i j : ι} (hij : i ≠ j) (hw : (pt i).1.inWrite = true) :
    (pt j).1.inRead = false ∧ (pt j).1.inWrite = false := by
  obtain ⟨g, hI⟩ := h.lock
  have hi := (h.placed i).write hw
  have hw := hI.w
  constructor
  · by_contra hr
    have hj : RwLock.Pc.inRead (pt j).2 = true := by
      rcases (h.placed j).read (by simpa using hr) with hj | hj <;> rw [hj] <;> rfl
    have hg := hI.held hj
    have hle := Threads.le_total (fun p => (RwLock.Pc.inWrite p).toNat) (fun k => (pt k).2) i
    simp only [RwLock.tally, hi, RwLock.Pc.inWrite, Bool.toNat_true] at hle hw
    omega
  · by_contra hr
    have hj := (h.placed j).write (by simpa using hr)
    have hle := Threads.add_le_total (fun p => (RwLock.Pc.inWrite p).toNat) (fun k => (pt k).2) hij
    simp only [RwLock.tally, hi, hj, RwLock.Pc.inWrite, Bool.toNat_true] at hle hw
    omega

theorem Follows.no_writer (h : Follows s pt) {j : ι} (hr : (pt j).1.inRead = true) (i : ι) :
    (pt i).1.inWrite = false := by
  by_contra hw
  have hw : (pt i).1.inWrite = true := by simpa using hw
  by_cases hij : i = j
  · subst hij
    have h₁ := (h.placed i).write hw
    rcases (h.placed i).read hr with h₂ | h₂ <;> rw [h₁] at h₂ <;> cases h₂
  · have := (h.alone hij hw).1
    rw [hr] at this
    cases this

end Threads

end MiniProxy.CacheCode
