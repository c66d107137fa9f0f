import Mathlib.Data.Int.Basic
import MiniProxy.Lib.Run
import MiniProxy.Lib.Threads

/-!
# The message queue of connection descriptors

`sbuf_t` is a ring of `n` cells with two running indices and three semaphores. `sbuf_insert` and
`sbuf_remove` are modelled one `P`, `V` or array statement at a time, so that any number of threads
can be interleaved between these steps.

* `Sbuf`, `sbufSetup`: the record and its initial value; `int32`: the value an `int` keeps;
* `rearIndex`, `frontIndex`: the cells of `buf[(++rear) % n]` and `buf[(++front) % n]`;
* `Pc`, `Ev`, `TStep`: one thread's places, what a step shows, and its steps;
* `Step`, `init`: all threads together; `inserted`, `removed`: what a run shows.
-/

namespace MiniProxy

/-- The value a 32-bit signed `int` keeps of `x`. -/
def int32 (x : ℤ) : ℤ := x.bmod (2 ^ 32)

/-- `sbuf_t`. The array is addressed by the offset from `sp->buf`; its cells are `0, …, n - 1`. -/
structure Sbuf where
  buf : ℤ → ℤ
  n : ℕ
  front : ℤ
  rear : ℤ
  mutex : ℕ
  slots : ℕ
  items : ℕ

/-- `sbuf_setup`: `calloc` clears the cells. -/
def sbufSetup (n : ℕ) : Sbuf :=
  { buf := fun _ => 0, n := n, front := 0, rear := 0, mutex := 1, slots := n, items := 0 }

namespace Sbuf

/-! ## The array statements -/

/-- `(++sp->rear) % sp->n`, with C's remainder. -/
def rearIndex (sp : Sbuf) : ℤ := (int32 (sp.rear + 1)).tmod sp.n

/-- `(++sp->front) % sp->n`, with C's remainder. -/
def frontIndex (sp : Sbuf) : ℤ := (int32 (sp.front + 1)).tmod sp.n

/-- `sp->buf[(++sp->rear) % sp->n] = item`. -/
def store (sp : Sbuf) (item : ℤ) : Sbuf :=
  { sp with buf := Function.update sp.buf sp.rearIndex item, rear := int32 (sp.rear + 1) }

/-- `removed = sp->buf[(++sp->front) % sp->n]`: the value read, and the state left behind. -/
def load (sp : Sbuf) : ℤ × Sbuf :=
  (sp.buf sp.frontIndex, { sp with front := int32 (sp.front + 1) })

/-! ## Threads -/

/-- The places of a thread: the statement of `sbuf_insert` or `sbuf_remove` it is about to run. -/
inductive Pc where
  | idle
  | insSlots (item : ℤ)
  | insMutex (item : ℤ)
  | insStore (item : ℤ)
  | insPost
  | insItems
  | remItems
  | remMutex
  | remLoad
  | remPost (removed : ℤ)
  | remSlots (removed : ℤ)
  deriving DecidableEq

/-- What a step shows: the cell written or read by an array statement, and its value. -/
inductive Ev where
  | tau
  | stored (index item : ℤ)
  | loaded (index removed : ℤ)
  deriving DecidableEq

/-- The steps of one thread. -/
inductive TStep : Sbuf → Pc → Ev → Sbuf → Pc → Prop
  | insert (sp : Sbuf) (item : ℤ) : TStep sp .idle .tau sp (.insSlots item)
  | insSlots (sp : Sbuf) (item : ℤ) (h : 0 < sp.slots) :
      TStep sp (.insSlots item) .tau { sp with slots := sp.slots - 1 } (.insMutex item)
  | insMutex (sp : Sbuf) (item : ℤ) (h : 0 < sp.mutex) :
      TStep sp (.insMutex item) .tau { sp with mutex := sp.mutex - 1 } (.insStore item)
  | insStore (sp : Sbuf) (item : ℤ) :
      TStep sp (.insStore item) (.stored sp.rearIndex item) (sp.store item) .insPost
  | insPost (sp : Sbuf) : TStep sp .insPost .tau { sp with mutex := sp.mutex + 1 } .insItems
  | insItems (sp : Sbuf) : TStep sp .insItems .tau { sp with items := sp.items + 1 } .idle
  | remove (sp : Sbuf) : TStep sp .idle .tau sp .remItems
  | remItems (sp : Sbuf) (h : 0 < sp.items) :
      TStep sp .remItems .tau { sp with items := sp.items - 1 } .remMutex
  | remMutex (sp : Sbuf) (h : 0 < sp.mutex) :
      TStep sp .remMutex .tau { sp with mutex := sp.mutex - 1 } .remLoad
  | remLoad (sp : Sbuf) :
      TStep sp .remLoad (.loaded sp.frontIndex sp.load.1) sp.load.2 (.remPost sp.load.1)
  | remPost (sp : Sbuf) (removed : ℤ) :
      TStep sp (.remPost removed) .tau { sp with mutex := sp.mutex + 1 } (.remSlots removed)
  | remSlots (sp : Sbuf) (removed : ℤ) :
      TStep sp (.remSlots removed) .tau { sp with slots := sp.slots + 1 } .idle

variable {ι : Type*} [DecidableEq ι]

/-- A queue shared by the threads `ι`. -/
abbrev State (ι : Type*) := Threads.Sys ι Sbuf Pc

/-- Any thread takes a step. -/
abbrev Step : State ι → ι × Ev → State ι → Prop := Threads.Step TStep

/-- After `sbuf_setup(sp, n)`, before any call. -/
def init (n : ℕ) : State ι := ⟨sbufSetup n, fun _ => .idle⟩

/-! ## What a run shows -/

/-- The value put in by an insert's array statement. -/
def Ev.item? : Ev → Option ℤ
  | .stored _ item => some item
  | _ => none

/-- The value taken out by a remove's array statement. -/
def Ev.removed? : Ev → Option ℤ
  | .loaded _ removed => some removed
  | _ => none

/-- The cell an insert writes. -/
def Ev.storedAt? : Ev → Option ℤ
  | .stored index _ => some index
  | _ => none

/-- The cell a remove reads. -/
def Ev.loadedAt? : Ev → Option ℤ
  | .loaded index _ => some index
  | _ => none

/-- What is shown along a run, in the order of the mutex sections. -/
def shown {β : Type*} (f : Ev → Option β) (tr : List (ι × Ev)) : List β :=
  tr.filterMap fun a => f a.2

/-- The values inserted along a run. -/
abbrev inserted (tr : List (ι × Ev)) : List ℤ := shown Ev.item? tr

/-- The values removed along a run. -/
abbrev removed (tr : List (ι × Ev)) : List ℤ := shown Ev.removed? tr

/-- The thread has passed its first `P` and not yet its last `V`. -/
def Pc.mid : Pc → Bool
  | .idle | .insSlots _ | .remItems => false
  | _ => true

end Sbuf

end MiniProxy
