import Mathlib.Algebra.Ring.Int.Defs
import Mathlib.Algebra.Ring.Nat
import MiniProxy.Lib.Buf
import MiniProxy.Lib.DList

/-!
# The cache queue

The queue is a doubly linked list of `cnode_t` between two sentinels, with a count of its nodes and
the sum of their payloads' lengths. Every access goes through a check that the node is allocated, so
that a computation which is `.ok` touched no freed node and no `NULL`. What runs between `pre_write`
and `post_write`, or between `pre_read` and `post_read`, is a definition of its own (a *section*).

* `Key`, `Entry`, `Cache`: the fields of a node and the global variables; `cacheInit`;
* `enqueueSec`, `dequeueSec`, `updateSec`, `findSec`, `cacheCheck`: the sections;
* `newNode`, `freeNode`, `copyOut`: what runs outside of them;
* `enqueue`, `dequeue`, `update`, `addCache`, `isCached`, `printCache`: the functions, for one thread.
-/

namespace MiniProxy

open Clib DList

/-- `MAX_CACHE_SIZE`. -/
def maxCacheSize : ℕ := 1049000

/-- `MAX_OBJECT_SIZE`. -/
def maxObjectSize : ℕ := 102400

/-- An address. `NULL` is `0`. -/
abbrev Ptr := ℕ

/-- The key of a node: the strings `host`, `port` and `path`. -/
structure Key where
  host : List UInt8
  port : List UInt8
  path : List UInt8
  deriving DecidableEq

/-- The fields of a node besides its links. `payload` is the memory from `node->payload` on. -/
structure Entry where
  key : Key
  payload : List UInt8
  bytesize : ℕ

/-- The heap of nodes and the global variables. `cache_count` is an `int`: this is the cache while less
than `2 ^ 31` nodes are queued. `cacheLoad` adds up the lengths of strings that lie side by side in
memory, so that it does not leave its `size_t` from above. -/
structure Cache where
  links : Links Ptr
  entry : Ptr → Entry
  live : Ptr → Bool
  front : Ptr
  endp : Ptr
  cacheCount : ℤ
  cacheLoad : ℕ

/-- `cache_init`, where `new_node` returns the addresses `front` and `endp` in a heap that holds
`links` and `entry`. -/
def cacheInit (links : Links Ptr) (entry : Ptr → Entry) (front endp : Ptr) : Cache :=
  { links := (((links.setNext front endp).setPrev front 0).setPrev endp front).setNext endp 0
    entry := Function.update (Function.update entry front ⟨⟨[], [], []⟩, [], 0⟩) endp
      ⟨⟨[], [], []⟩, [], 0⟩
    live := fun p => decide (p = front ∨ p = endp)
    front := front
    endp := endp
    cacheCount := 0
    cacheLoad := 0 }

/-- `a - b` for a `size_t`. -/
def subSize (a b : ℕ) : ℕ := if b ≤ a then a - b else a + 2 ^ 64 - b

namespace Cache

/-! ## Fields of nodes -/

/-- There is a node at `p`. -/
abbrev Alloc (c : Cache) (p : Ptr) : Prop := p ≠ 0 ∧ c.live p = true

/-- An access to the node at `p`. -/
def deref (c : Cache) (p : Ptr) : Exec Unit := check (c.Alloc p) .oob

/-- `p->next`. -/
def getNext (c : Cache) (p : Ptr) : Exec Ptr := do
  c.deref p
  return c.links.next p

/-- `p->prev`. -/
def getPrev (c : Cache) (p : Ptr) : Exec Ptr := do
  c.deref p
  return c.links.prev p

/-- `p->next = q`. -/
def setNext (c : Cache) (p q : Ptr) : Exec Cache := do
  c.deref p
  return { c with links := c.links.setNext p q }

/-- `p->prev = q`. -/
def setPrev (c : Cache) (p q : Ptr) : Exec Cache := do
  c.deref p
  return { c with links := c.links.setPrev p q }

/-- `strlen(p->payload)`. -/
def payloadLen (c : Cache) (p : Ptr) : Exec ℕ := do
  c.deref p
  strlen (c.entry p).payload

/-- `is_empty`. -/
def isEmpty (c : Cache) : Exec Bool := do
  let n ← c.getNext c.front
  if n = c.endp then
    let q ← c.getPrev c.endp
    return decide (c.front = q)
  else return false

end Cache

/-- The comparisons of `is_match`. -/
def Key.isMatch (node key : Key) : Bool :=
  strcasecmpEq node.host key.host && strcasecmpEq node.port key.port &&
    strcasecmpEq node.path key.path

theorem Key.isMatch_iff {a b : Key} : a.isMatch b = true ↔
    a.host.map tolower = b.host.map tolower ∧ a.port.map tolower = b.port.map tolower ∧
      a.path.map tolower = b.path.map tolower := by
  simp only [Key.isMatch, Bool.and_eq_true, strcasecmpEq_iff, and_assoc]

@[simp] theorem Key.isMatch_refl (a : Key) : a.isMatch a = true := isMatch_iff.mpr ⟨rfl, rfl, rfl⟩

theorem Key.isMatch_symm {a b : Key} (h : a.isMatch b = true) : b.isMatch a = true := by
  obtain ⟨h₁, h₂, h₃⟩ := isMatch_iff.mp h
  exact isMatch_iff.mpr ⟨h₁.symm, h₂.symm, h₃.symm⟩

theorem Key.isMatch_false_symm {a b : Key} (h : a.isMatch b = false) : b.isMatch a = false := by
  rw [← Bool.not_eq_true] at h ⊢
  exact fun hb => h (isMatch_symm hb)

theorem Key.isMatch_trans {a b d : Key} (h : a.isMatch b = true) (h' : b.isMatch d = true) :
    a.isMatch d = true := by
  obtain ⟨h₁, h₂, h₃⟩ := isMatch_iff.mp h
  obtain ⟨h₁', h₂', h₃'⟩ := isMatch_iff.mp h'
  exact isMatch_iff.mpr ⟨h₁.trans h₁', h₂.trans h₂', h₃.trans h₃'⟩

namespace Cache

/-- `is_match`. -/
def isMatch (c : Cache) (node : Ptr) (key : Key) : Exec Bool := do
  c.deref node
  return (c.entry node).key.isMatch key

/-! ## Sections -/

/-- The write section of `enqueue`. -/
def enqueueSec (c : Cache) (node : Ptr) : Exec Cache := do
  let q ← c.getPrev c.endp
  let c ← c.setPrev node q
  let c ← c.setNext node c.endp
  let c ← c.setPrev c.endp node
  let q ← c.getPrev node
  let c ← c.setNext q node
  let n ← c.payloadLen node
  return { c with cacheCount := c.cacheCount + 1, cacheLoad := c.cacheLoad + n }

/-- The write section of `dequeue`, which returns `NULL` from an empty queue. -/
def dequeueSec (c : Cache) : Exec (Ptr × Cache) := do
  if ← c.isEmpty then
    return (0, c)
  else
    let del ← c.getNext c.front
    let q ← c.getNext del
    let c ← c.setNext c.front q
    let q ← c.getNext c.front
    let c ← c.setPrev q c.front
    let n ← c.payloadLen del
    return (del, { c with cacheCount := c.cacheCount - 1, cacheLoad := subSize c.cacheLoad n })

/-- The write section of `update`. -/
def updateSec (c : Cache) (tomove : Ptr) : Exec Cache := do
  let q ← c.getPrev tomove
  let r ← c.getNext tomove
  let c ← c.setNext q r
  let q ← c.getNext tomove
  let r ← c.getPrev tomove
  let c ← c.setPrev q r
  let c ← c.setNext tomove c.endp
  let q ← c.getPrev c.endp
  let c ← c.setPrev tomove q
  let c ← c.setPrev c.endp tomove
  let q ← c.getPrev tomove
  c.setNext q tomove

/-- The loop of `is_cached`, at the node `p`. -/
def findLoop (c : Cache) (key : Key) : ℕ → Ptr → Exec (Option Ptr)
  | 0, _ => .error .fuel
  | fuel + 1, p => do
    if p ≠ c.front then
      if ← c.isMatch p key then
        return some p
      else
        let q ← c.getPrev p
        c.findLoop key fuel q
    else return none

/-- The read section of `is_cached`. -/
def findSec (fuel : ℕ) (c : Cache) (key : Key) : Exec (Option Ptr) := do
  if ← c.isEmpty then
    return none
  else
    let p ← c.getPrev c.endp
    c.findLoop key fuel p

/-- The loop of `cache_check`, at the node `p`. -/
def checkLoop (c : Cache) : ℕ → Ptr → ℕ → Exec ℕ
  | 0, _, _ => .error .fuel
  | fuel + 1, p, count => do
    if p ≠ c.endp then
      let q ← c.getPrev p
      let r ← c.getNext q
      check (p = r) .abort
      let p ← c.getNext p
      c.checkLoop fuel p (count + 1)
    else return count

/-- `cache_check`: a failed `assert` aborts. -/
def cacheCheck (fuel : ℕ) (c : Cache) : Exec Unit := do
  if c.cacheCount = 0 then
    let empty ← c.isEmpty
    check (empty = true) .abort
    let q ← c.getPrev c.front
    let r ← c.getNext c.endp
    check (q = 0 ∧ r = 0) .abort
  else
    let p ← c.getNext c.front
    let count ← c.checkLoop fuel p 0
    check ((count : ℤ) = c.cacheCount) .abort

/-! ## Outside of the sections -/

/-- `new_node`, where `malloc` returns the address `p` of a free block. The memory from the copy of the
payload on holds `junk`. -/
def newNode (c : Cache) (p : Ptr) (junk : List UInt8) (key : Key) (payload : List UInt8)
    (bytesize : ℕ) : Exec Cache := do
  let n ← strlen payload
  check (bytesize ≤ n + 1) .oob
  return { c with
    live := Function.update c.live p true
    entry := Function.update c.entry p ⟨key, payload.take bytesize ++ junk, bytesize⟩ }

/-- `free_node`. -/
def freeNode (c : Cache) (p : Ptr) : Exec Cache := do
  c.deref p
  return { c with live := Function.update c.live p false }

/-- The copy at the end of `is_cached` into a buffer of `MAX_OBJECT_SIZE` bytes. -/
def copyOut (c : Cache) (p : Ptr) : Exec (List UInt8) := do
  c.deref p
  check ((c.entry p).bytesize ≤ maxObjectSize) .oob
  return (c.entry p).payload.take (c.entry p).bytesize

/-! ## The functions of one thread -/

/-- `enqueue`. -/
def enqueue (fuel : ℕ) (c : Cache) (node : Ptr) : Exec Cache := do
  let c ← c.enqueueSec node
  c.cacheCheck fuel
  return c

/-- `dequeue`. -/
def dequeue (fuel : ℕ) (c : Cache) : Exec (Ptr × Cache) := do
  let (del, c) ← c.dequeueSec
  if del = 0 then
    return (0, c)
  else
    c.cacheCheck fuel
    return (del, c)

/-- `update`. -/
def update (fuel : ℕ) (c : Cache) (node : Ptr) : Exec Cache := do
  let c ← c.updateSec node
  c.cacheCheck fuel
  return c

/-- The `while` loop of `add_cache`. -/
def evictLoop : ℕ → Cache → Exec Cache
  | 0, _ => .error .fuel
  | fuel + 1, c => do
    if c.cacheLoad > maxCacheSize then
      let (del, c) ← c.dequeue fuel
      let c ← c.freeNode del
      evictLoop fuel c
    else return c

/-- `add_cache`. -/
def addCache (fuel : ℕ) (c : Cache) (p : Ptr) (junk : List UInt8) (key : Key)
    (payload : List UInt8) (bytesize : ℕ) : Exec Cache := do
  let c ← c.newNode p junk key payload bytesize
  let c ← c.enqueue fuel p
  if c.cacheLoad > maxCacheSize then evictLoop fuel c else return c

/-- `is_cached`: on a hit the bytes copied out, which are `*bytesize` many. -/
def isCached (fuel : ℕ) (c : Cache) (key : Key) : Exec (Option (List UInt8) × Cache) := do
  match ← c.findSec fuel key with
  | none => return (none, c)
  | some p =>
    let c ← c.update fuel p
    let bytes ← c.copyOut p
    return (some bytes, c)

/-- The loop of `print_cache`, at the node `p`: the keys and sizes it prints. -/
def printLoop (c : Cache) : ℕ → Ptr → Exec (List (Key × ℕ))
  | 0, _ => .error .fuel
  | fuel + 1, p => do
    if p ≠ c.endp then
      c.deref p
      let q ← c.getNext p
      let rest ← c.printLoop fuel q
      return ((c.entry p).key, (c.entry p).bytesize) :: rest
    else return []

/-- `print_cache`. -/
def printCache (fuel : ℕ) (c : Cache) : Exec (List (Key × ℕ)) := do
  let p ← c.getNext c.front
  c.printLoop fuel p

end Cache

end MiniProxy
