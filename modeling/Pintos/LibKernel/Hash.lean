import Pintos.LibKernel.ListLaws

/-!
# Hash tables

The functions of `lib/kernel/hash.c` that build, search and change a table, on the heap of list
elements. A hash element is its embedded list element, so both have one address. The hash function
and the comparison are functions of the element (`h->hash` and `h->less` with `h->aux` applied).

`malloc` is left open: the state says what it returns for each size, and zero bytes are a null
pointer as in `threads/malloc.c`. The array of buckets at an address is a sequence of `struct list`
of 32 bytes, so bucket `i` has its head at offset `32 * i` and its tail 16 bytes further. Freed
memory is not modelled. The state has one record besides what the C code has: the elements that
`rehash` has relinked, in order.
-/

set_option autoImplicit false

namespace Pintos.LibKernel.Hash

open Lib.StateExcept Lib.LinkedNodes
open LibKernel.List ListLaws

/-- A table, the heap that it lives in, and what memory allocation does. -/
structure HashState where
  heap : Heap Address
  /-- `elem_cnt` of `struct hash`. -/
  elemCnt : Nat
  /-- `bucket_cnt` of `struct hash`. -/
  bucketCnt : Nat
  /-- `buckets` of `struct hash`: the address of the array. -/
  buckets : Address
  /-- What `malloc` returns for a size. -/
  mallocResult : Nat → Option Address
  /-- The elements that `rehash` has moved. -/
  moved : List Address

/-- Code on hash tables. -/
abbrev HashM (α : Type) : Type := Comp HashState ListPanic α

/-- A list function, on the heap. -/
def onHeap {α : Type} (c : ListM Address α) : HashM α := fun s =>
  match c s.heap with
  | .ok (a, h) => .ok (a, { s with heap := h })
  | .error e => .error e

/-- `sizeof (struct list)`. -/
def sizeofList : Nat := 32

/-- `&buckets[i]`. -/
def bucketAt (buckets : Address) (i : Nat) : KList Address :=
  ⟨buckets + UInt64.ofNat (sizeofList * i), buckets + UInt64.ofNat (sizeofList * i + 16)⟩

/-- `malloc`. -/
def malloc (size : Nat) : HashM (Option Address) := do
  if size = 0 then return none
  return (← get).mallocResult size

/-- More iterations than a loop over the elements of a list can need: there are no more elements
than addresses. -/
def loopBound : Nat := 2 ^ 64

section Functions

variable (hash : Address → UInt64) (less : Address → Address → Bool)

/-- `find_bucket`. -/
def findBucket (e : Address) : HashM (KList Address) := do
  let s ← get
  return bucketAt s.buckets ((hash e).toNat &&& (s.bucketCnt + 2 ^ 64 - 1) % 2 ^ 64)

/-- The loop of `find_elem`. -/
def findElemFrom (bucket : KList Address) (e : Address) :
    Nat → Option Address → HashM (Option Address)
  | 0, _ => throw .endless
  | fuel + 1, i => do
    if i = listEnd bucket then return none
    let hi ← onHeap (deref i)
    if !less hi e && !less e hi then return some hi
    findElemFrom bucket e fuel (← onHeap (listNext i))

/-- `find_elem`. -/
def findElem (bucket : KList Address) (e : Address) : HashM (Option Address) := do
  findElemFrom less bucket e loopBound (← onHeap (listBegin bucket))

/-- `insert_elem`. -/
def insertElem (bucket : KList Address) (e : Address) : HashM Unit := do
  modify fun s => { s with elemCnt := (s.elemCnt + 1) % 2 ^ 64 }
  onHeap (listPushFront bucket (some e))

/-- `remove_elem`. -/
def removeElem (e : Address) : HashM Unit := do
  modify fun s => { s with elemCnt := (s.elemCnt + 2 ^ 64 - 1) % 2 ^ 64 }
  let _ ← onHeap (listRemove (some e))

/-- `turn_off_least_1bit`. -/
def turnOffLeast1bit (x : Nat) : Nat := x &&& (x + 2 ^ 64 - 1) % 2 ^ 64

/-- `is_power_of_2`. -/
def isPowerOf2 (x : Nat) : Bool := x ≠ 0 && turnOffLeast1bit x = 0

/-- The loop of `rehash` that makes the bucket count a power of 2. -/
def roundDownPowerOf2 : Nat → Nat → HashM Nat
  | 0, _ => throw .endless
  | fuel + 1, n =>
    if isPowerOf2 n then return n else roundDownPowerOf2 fuel (turnOffLeast1bit n)

/-- The bucket count that `rehash` aims at. -/
def newBucketCnt (elemCnt : Nat) : HashM Nat :=
  let n := elemCnt / 2
  roundDownPowerOf2 loopBound (if n < 4 then 4 else n)

/-- The inner loop of `rehash`: move the elements of an old bucket, from `elem` on. -/
def moveElems (oldBucket : KList Address) : Nat → Option Address → HashM Unit
  | 0, _ => throw .endless
  | fuel + 1, elem => do
    if elem = listEnd oldBucket then return
    let e ← onHeap (deref elem)
    let newBucket ← findBucket hash e
    let next ← onHeap (listNext elem)
    let _ ← onHeap (listRemove elem)
    onHeap (listPushFront newBucket elem)
    modify fun s => { s with moved := s.moved ++ [e] }
    moveElems oldBucket fuel next

/-- `rehash`. -/
def rehash : HashM Unit := do
  let s ← get
  let oldBuckets := s.buckets
  let oldBucketCnt := s.bucketCnt
  let newCnt ← newBucketCnt s.elemCnt
  if newCnt = oldBucketCnt then return
  match ← malloc (sizeofList * newCnt % 2 ^ 64) with
  | none => return
  | some newBuckets =>
    (List.range newCnt).forM fun i => onHeap (listInit (bucketAt newBuckets i))
    modify fun s => { s with buckets := newBuckets, bucketCnt := newCnt }
    (List.range oldBucketCnt).forM fun i => do
      let oldBucket := bucketAt oldBuckets i
      moveElems hash oldBucket loopBound (← onHeap (listBegin oldBucket))

/-- The loop of `hash_clear` over the elements of a bucket. -/
def destroyElems (destructor : Address → HashM Unit) (bucket : KList Address) : Nat → HashM Unit
  | 0 => throw .endless
  | fuel + 1 => do
    if (← onHeap (listEmpty bucket)) then return
    let e ← onHeap (do deref (← listPopFront bucket))
    destructor e
    destroyElems destructor bucket fuel

/-- The loop of `hash_clear` over the buckets, for one of them. -/
def clearBucket (destructor : Option (Address → HashM Unit)) (bucket : KList Address) :
    HashM Unit := do
  match destructor with
  | some destructor => destroyElems destructor bucket loopBound
  | none => pure ()
  onHeap (listInit bucket)

/-- `hash_clear`; the destructor may do what it likes to the element that it is given. -/
def hashClear (destructor : Option (Address → HashM Unit)) : HashM Unit := do
  let s ← get
  (List.range s.bucketCnt).forM fun i => clearBucket destructor (bucketAt s.buckets i)
  modify fun s => { s with elemCnt := 0 }

/-- `hash_init`. -/
def hashInit : HashM Bool := do
  modify fun s => { s with elemCnt := 0, bucketCnt := 4 }
  match ← malloc (sizeofList * 4 % 2 ^ 64) with
  | some buckets =>
    modify fun s => { s with buckets := buckets }
    hashClear none
    return true
  | none => return false

/-- `hash_insert`. -/
def hashInsert (new : Address) : HashM (Option Address) := do
  let bucket ← findBucket hash new
  let old ← findElem less bucket new
  if old = none then insertElem bucket new
  rehash hash
  return old

/-- `hash_replace`. -/
def hashReplace (new : Address) : HashM (Option Address) := do
  let bucket ← findBucket hash new
  let old ← findElem less bucket new
  match old with
  | some e => removeElem e
  | none => pure ()
  insertElem bucket new
  rehash hash
  return old

/-- `hash_find`. -/
def hashFind (e : Address) : HashM (Option Address) := do
  findElem less (← findBucket hash e) e

/-- `hash_delete`. -/
def hashDelete (e : Address) : HashM (Option Address) := do
  let found ← findElem less (← findBucket hash e) e
  match found with
  | some x =>
    removeElem x
    rehash hash
  | none => pure ()
  return found

end Functions

/-- A list function is executed on the heap alone. -/
@[simp] theorem wp_onHeap {α : Type} (c : ListM Address α) (s : HashState)
    (Q : α → HashState → Prop) :
    wp (onHeap c) s Q ↔ wp c s.heap fun a h => Q a { s with heap := h } := by
  constructor
  · rintro ⟨a, t, hrun, hQ⟩
    unfold onHeap at hrun
    split at hrun
    · rename_i b h hc
      cases hrun
      exact ⟨_, _, hc, hQ⟩
    · cases hrun
  · rintro ⟨a, h, hc, hQ⟩
    refine ⟨a, { s with heap := h }, ?_, hQ⟩
    rw [onHeap, hc]

/-- A list function that only reads. -/
theorem wp_onHeap_read {α : Type} {c : ListM Address α} {s : HashState} {a : α}
    (hc : ∀ Q : α → Heap Address → Prop, wp c s.heap Q ↔ Q a s.heap)
    (Q : α → HashState → Prop) : wp (onHeap c) s Q ↔ Q a s := by
  rw [wp_onHeap, hc]

theorem reads_onHeap {α : Type} {c : ListM Address α} {s : HashState} {a : α}
    (hc : ∀ Q : α → Heap Address → Prop, wp c s.heap Q ↔ Q a s.heap) : Reads (onHeap c) s a := by
  obtain ⟨b, h, hrun, rfl, rfl⟩ := (hc fun b h => b = a ∧ h = s.heap).2 ⟨rfl, rfl⟩
  change onHeap c s = _
  rw [onHeap, hrun]

end Pintos.LibKernel.Hash
