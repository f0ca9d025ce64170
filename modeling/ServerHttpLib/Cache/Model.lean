import ServerHttpLib.Http.Bytes
import ServerHttpLib.Lib.AssocMap

/-!
# The cache (`LRUCache`)

`lru_` is a `std::list`: its nodes keep their address when others are moved or removed, and an
iterator is such an address.  `map_` finds the node of a key, which holds the entry and an iterator
into the list.  Every public method holds the mutex for its whole body, so what several threads do
is a sequence of calls.

A call takes its readings of `steady_clock` from a sequence.  Time points are signed 64-bit numbers
of nanoseconds and counters are of type `size_t`; both wrap.
-/

namespace ServerHttpLib

namespace LRUCache

/-- `Clock::time_point` -/
abbrev Time := Int

/-- the readings of the clock that a call takes, one after the other -/
abbrev Readings := Nat → Time

def Readings.tail (clk : Readings) : Readings := fun n => clk (n + 1)

def ticksPerMs : Int := 1000000

/-- a time point plus a number of milliseconds -/
def Time.addMs (t : Time) (ms : Int) : Time := Int.bmod (t + ms * ticksPerMs) (2 ^ 64)

structure Entry where
  key : Bytes
  value : Bytes
  keySize : Nat
  valueSize : Nat
  expireAt : Time
  deriving DecidableEq

structure Node where
  entry : Entry
  /-- an iterator into the list -/
  lruIt : Nat
  deriving DecidableEq

/-- a node of the list, with its address -/
structure Cell where
  addr : Nat
  key : Bytes
  deriving DecidableEq

end LRUCache

open LRUCache in
structure LRUCache where
  capacityBytes : Nat
  usedBytes : Nat
  /-- the front is the most recently used key -/
  lru : List Cell
  map : AssocMap Bytes Node
  /-- the address of the next node that is allocated -/
  next : Nat

namespace LRUCache

def noExpireTime : Time := 2 ^ 63 - 1

def Entry.isNoExpire (e : Entry) : Bool := e.expireAt = noExpireTime

/-- reads the clock only for an entry that can expire -/
def Entry.isExpired (e : Entry) (clk : Readings) : Bool × Readings :=
  if e.isNoExpire then (false, clk) else (decide (e.expireAt ≤ clk 0), clk.tail)

def new (capacityMb : Nat) : LRUCache where
  capacityBytes := sizeT (capacityMb * 1024 * 1024)
  usedBytes := 0
  lru := []
  map := .empty
  next := 0

/-! ## the helpers -/

/-- `lru_.splice(lru_.begin(), lru_, it)`, unless the node is the first one -/
def touch (c : LRUCache) (it : Nat) : LRUCache :=
  if (c.lru.head?.map Cell.addr) = some it then c
  else
    { c with
      lru := (c.lru.filter fun x => x.addr = it) ++ c.lru.filter fun x => x.addr ≠ it }

/-- `erase_it` with both iterators -/
def eraseBoth (c : LRUCache) (key : Bytes) (node : Node) (lruIt : Nat) : LRUCache :=
  { c with
    usedBytes := sizeSub c.usedBytes (sizeT (node.entry.keySize + node.entry.valueSize))
    lru := c.lru.filter fun x => x.addr ≠ lruIt
    map := c.map.erase key }

/-- `erase_it` with the iterator of the map -/
def eraseIt (c : LRUCache) (key : Bytes) (node : Node) : LRUCache :=
  c.eraseBoth key node node.lruIt

/-- the loop of `prune_unlocked`; it steps on before it erases, so it goes over the list as it was
at the start -/
def pruneLoop : List Cell → Readings → LRUCache → LRUCache × Readings
  | [], clk, c => (c, clk)
  | x :: rest, clk, c =>
    match c.map.find? x.key with
    | none => pruneLoop rest clk c
    | some node =>
      let r := node.entry.isExpired clk
      pruneLoop rest r.2 (if r.1 then c.eraseBoth x.key node x.addr else c)

def pruneUnlocked (c : LRUCache) (clk : Readings) : LRUCache × Readings :=
  if c.map.isEmpty then (c, clk) else pruneLoop c.lru clk c

/-- the loop of `evict_over_capacity`, over the list from its back -/
def evictLoop : List Cell → LRUCache → LRUCache
  | [], c => c
  | back :: rest, c =>
    if c.capacityBytes < c.usedBytes then
      match c.map.find? back.key with
      | none => evictLoop rest { c with lru := c.lru.dropLast }
      | some node => evictLoop rest (c.eraseBoth back.key node back.addr)
    else c

def evictOverCapacity (c : LRUCache) : LRUCache := evictLoop c.lru.reverse c

/-! ## the methods -/

def update (c : LRUCache) (key value : Bytes) (node : Node) (exp : Time) : LRUCache :=
  let e := node.entry
  let used :=
    if e.keySize ≠ key.length then sizeT (sizeSub c.usedBytes e.keySize + key.length)
    else c.usedBytes
  let e' : Entry :=
    { e with keySize := key.length, value := value, valueSize := value.length, expireAt := exp }
  { c with
    usedBytes := sizeT (sizeSub used e.valueSize + value.length)
    map := c.map.insertOrAssign key { node with entry := e' } }.touch node.lruIt

def insert (c : LRUCache) (key value : Bytes) (exp : Time) : LRUCache :=
  { c with
    usedBytes := sizeT (c.usedBytes + sizeT (key.length + value.length))
    lru := ⟨c.next, key⟩ :: c.lru
    map := c.map.insert key ⟨⟨key, value, key.length, value.length, exp⟩, c.next⟩
    next := c.next + 1 }

/-- `set` up to its last line -/
def store (c : LRUCache) (key value : Bytes) (ttlMs : Int) (clk : Readings) : LRUCache :=
  let r := c.pruneUnlocked clk
  let exp := if ttlMs = 0 then noExpireTime else (r.2 0).addMs ttlMs
  match r.1.map.find? key with
  | some node => r.1.update key value node exp
  | none => r.1.insert key value exp

def set (c : LRUCache) (key value : Bytes) (ttlMs : Int) (clk : Readings) : LRUCache :=
  (c.store key value ttlMs clk).evictOverCapacity

def get (c : LRUCache) (key : Bytes) (clk : Readings) : Option Bytes × LRUCache :=
  match c.map.find? key with
  | none => (none, c)
  | some node =>
    if (node.entry.isExpired clk).1 then (none, c.eraseIt key node)
    else (some node.entry.value, c.touch node.lruIt)

/-- the remaining milliseconds; it asks for the time a second time behind `is_expired` -/
def ttlLeft (c : LRUCache) (key : Bytes) (clk : Readings) : Option Int × LRUCache :=
  match c.map.find? key with
  | none => (none, c)
  | some node =>
    let r := node.entry.isExpired clk
    if r.1 then (none, c.eraseIt key node)
    else if node.entry.expireAt = noExpireTime then (none, c)
    else if node.entry.expireAt ≤ r.2 0 then (none, c.eraseIt key node)
    else (some ((node.entry.expireAt - r.2 0).tdiv ticksPerMs), c)

def contains (c : LRUCache) (key : Bytes) (clk : Readings) : Bool × LRUCache :=
  match c.map.find? key with
  | none => (false, c)
  | some node => if (node.entry.isExpired clk).1 then (false, c.eraseIt key node) else (true, c)

def erase (c : LRUCache) (key : Bytes) : Bool × LRUCache :=
  match c.map.find? key with
  | none => (false, c)
  | some node => (true, c.eraseIt key node)

def clear (c : LRUCache) : LRUCache := { c with map := .empty, lru := [], usedBytes := 0 }

def prune (c : LRUCache) (clk : Readings) : LRUCache := (c.pruneUnlocked clk).1

/-! ## sequences of calls -/

inductive Call where
  | set (key value : Bytes) (ttlMs : Int)
  | get (key : Bytes)
  | ttlLeft (key : Bytes)
  | contains (key : Bytes)
  | erase (key : Bytes)
  | clear
  | prune
  deriving DecidableEq

inductive Result where
  | unit
  | value (v : Option Bytes)
  | left (ms : Option Int)
  | bool (b : Bool)
  deriving DecidableEq

def call (c : LRUCache) (clk : Readings) : Call → Result × LRUCache
  | .set key value ttlMs => (.unit, c.set key value ttlMs clk)
  | .get key => (.value (c.get key clk).1, (c.get key clk).2)
  | .ttlLeft key => (.left (c.ttlLeft key clk).1, (c.ttlLeft key clk).2)
  | .contains key => (.bool (c.contains key clk).1, (c.contains key clk).2)
  | .erase key => (.bool (c.erase key).1, (c.erase key).2)
  | .clear => (.unit, c.clear)
  | .prune => (.unit, c.prune clk)

/-- what a sequence of calls returns, each with its readings of the clock, and the state behind -/
def runCalls : LRUCache → List (Call × Readings) → List Result × LRUCache
  | c, [] => ([], c)
  | c, (q, clk) :: calls =>
    let r := c.call clk q
    let rs := runCalls r.2 calls
    (r.1 :: rs.1, rs.2)

def totalBytes (c : LRUCache) : Nat :=
  (c.map.entries.map fun e => e.1.length + e.2.entry.value.length).sum

/-- the key that an iterator points to -/
def deref (c : LRUCache) (it : Nat) : Option Bytes :=
  (c.lru.find? fun x => x.addr = it).map Cell.key

end LRUCache
end ServerHttpLib
