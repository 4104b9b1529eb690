import Std.Data.HashMap
import UtilityCss.Number.Double

/-!
# Bounded caches

A cache holds at most so many entries under text keys and counts the look-ups that found an entry
and those that did not. When a new key comes to a full cache, the oldest key goes: the one inserted
first, or the one read or written least recently.

The order of the keys is kept in a queue of stamped keys. An entry carries the stamp of its current
place in the queue; a key that moves to the end is stamped anew and queued again, and its old place
goes stale. Stale places are passed over, and cleared away once the queue has grown past twice the
capacity. The queue itself is two lists: entries leave at the front and enter at the back, which is kept
reversed; the view `Queue.toList` has them in the order in which they leave.
-/

namespace UtilityCss

/-! ## Queues -/

structure Queue (α : Type) where
  front : List α
  back : List α
  size : Nat
  size_eq : size = front.length + back.length

namespace Queue

variable {α : Type}

/-- The entries in the order in which they leave. -/
def toList (q : Queue α) : List α := q.front ++ q.back.reverse

def empty : Queue α := ⟨[], [], 0, rfl⟩

/-- Let an entry enter. -/
def push (q : Queue α) (a : α) : Queue α :=
  ⟨q.front, a :: q.back, q.size + 1, by simp [q.size_eq]; omega⟩

/-- The queue that lets the entries of a list leave. -/
def ofList (l : List α) : Queue α := ⟨l, [], l.length, rfl⟩

/-- The entries that satisfy `p`. -/
def filter (p : α → Bool) (q : Queue α) : Queue α := ofList (q.toList.filter p)

/-- Let entries leave up to the first one that satisfies `p`, and return it with the rest. -/
def popWhere? (p : α → Bool) (q : Queue α) : Option (α × Queue α) :=
  match q.front.dropWhile (fun a => !p a) with
  | a :: rest => some (a, ⟨rest, q.back, rest.length + q.back.length, rfl⟩)
  | [] =>
    match q.back.reverse.dropWhile (fun a => !p a) with
    | a :: rest => some (a, ofList rest)
    | [] => none

@[simp] theorem toList_empty : (empty : Queue α).toList = [] := rfl

@[simp] theorem toList_ofList (l : List α) : (ofList l).toList = l := by simp [toList, ofList]

@[simp] theorem toList_push (q : Queue α) (a : α) : (q.push a).toList = q.toList ++ [a] := by
  simp [toList, push]

@[simp] theorem toList_filter (p : α → Bool) (q : Queue α) :
    (q.filter p).toList = q.toList.filter p := by
  simp [filter]

theorem length_toList (q : Queue α) : q.toList.length = q.size := by
  simp [toList, q.size_eq]

/-- What leaves is cut off the view at the first entry that satisfies the test. -/
theorem popWhere?_map_toList (p : α → Bool) (q : Queue α) :
    ((q.popWhere? p).map fun (a, r) => a :: r.toList) =
      match q.toList.dropWhile (fun a => !p a) with
      | [] => none
      | l => some l := by
  unfold popWhere? toList
  split
  · next a rest h => simp [List.dropWhile_append, h]
  · next h =>
    rw [List.dropWhile_append, h]
    split
    · next a rest h' => simp [h', ofList]
    · next h' => simp [h']

end Queue

/-! ## Caches -/

/-- Which key a full cache gives up. -/
inductive EvictionPolicy where
  /-- The key that was inserted first. -/
  | fifo
  /-- The key that was read or written least recently. -/
  | lru
  deriving DecidableEq, Repr

/-- A cached value with the stamp of its place in the queue. -/
structure Slot (α : Type) where
  value : α
  stamp : Nat

/-- The use of a cache. -/
structure CacheStats where
  size : Nat
  capacity : Nat
  hits : Nat
  misses : Nat
  deriving DecidableEq, Repr

/-- The share of look-ups that found an entry; zero before the first one. -/
def CacheStats.hitRate (s : CacheStats) : Double := Double.nearest s.hits (s.hits + s.misses)

structure Cache (α : Type) where
  slots : Std.HashMap String (Slot α)
  /-- The stamped keys, oldest first. -/
  order : Queue (String × Nat)
  capacity : Nat
  policy : EvictionPolicy
  /-- The last stamp that was given. -/
  clock : Nat
  hits : Nat
  misses : Nat

namespace Cache

variable {α : Type}

def new (capacity : Nat) (policy : EvictionPolicy) : Cache α :=
  ⟨∅, .empty, capacity, policy, 0, 0, 0⟩

/-- The number of entries. -/
def size (c : Cache α) : Nat := c.slots.size

def contains (c : Cache α) (key : String) : Bool := c.slots.contains key

/-- The value under a key, without a trace. -/
def peek? (c : Cache α) (key : String) : Option α := c.slots[key]?.map Slot.value

/-- Whether a stamped key is the current place of its entry. -/
def isLive (c : Cache α) (place : String × Nat) : Bool :=
  match c.slots[place.1]? with
  | some slot => slot.stamp == place.2
  | none => false

/-- The greatest machine word. -/
def maxWord : Nat := Nat.pow 2 64 - 1

/-- The length of the queue past which stale places are cleared away. -/
def compactionLimit (c : Cache α) : Nat := min (2 * c.capacity + 16) maxWord

/-- Clear away the stale places of a queue that has grown too long. -/
def tidy (c : Cache α) : Cache α :=
  if c.policy = .lru && c.compactionLimit < c.order.size then
    { c with order := c.order.filter c.isLive }
  else c

/-- Put a value under a key at the end of the queue. -/
def place (c : Cache α) (key : String) (value : α) : Cache α :=
  { c with
    slots := c.slots.insert key ⟨value, c.clock + 1⟩
    order := c.order.push (key, c.clock + 1)
    clock := c.clock + 1 }

/-- Look a key up, and count it. A key that is found has been read. -/
def get (c : Cache α) (key : String) : Option α × Cache α :=
  let c := c.tidy
  match c.slots[key]? with
  | some slot =>
    let c := { c with hits := c.hits + 1 }
    (some slot.value, if c.policy = .lru then c.place key slot.value else c)
  | none => (none, { c with misses := c.misses + 1 })

/-- Give up the oldest key. -/
def evict (c : Cache α) : Cache α :=
  match c.order.popWhere? c.isLive with
  | some (place, rest) => { c with slots := c.slots.erase place.1, order := rest }
  | none => { c with order := .empty }

/-- Give up keys until one more fits in. -/
def makeRoom (c : Cache α) : Cache α := Nat.repeat evict (c.size + 1 - c.capacity) c

/-- Put a value under a key. A key that is there keeps its place, unless writing renews it. -/
def insert (c : Cache α) (key : String) (value : α) : Cache α :=
  if c.capacity = 0 then c
  else
    let c := c.tidy
    match c.slots[key]? with
    | some slot =>
      if c.policy = .lru then c.place key value
      else { c with slots := c.slots.insert key { slot with value := value } }
    | none => c.makeRoom.place key value

/-- Give up all entries and start the counts again. -/
def clear (c : Cache α) : Cache α :=
  { c with slots := ∅, order := .empty, hits := 0, misses := 0 }

def stats (c : Cache α) : CacheStats := ⟨c.size, c.capacity, c.hits, c.misses⟩

end Cache
end UtilityCss
