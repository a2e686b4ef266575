import Pintos.Lib.StateExcept
import Pintos.Lib.LinkedNodes

/-!
# Doubly linked lists

The functions of `lib/kernel/list.c` on a heap of list elements. A node stands for the address of a
`struct list_elem`, `none` for the null pointer, and a `struct list` for the addresses of its two
header elements, so `ASSERT (list != NULL)` holds of every argument. Reading or writing through a
null pointer stops with `nullPointer`, a failed `ASSERT` with its function and condition. A loop
takes the number of iterations that it may make; one that needs more stops with `endless`.
-/

set_option autoImplicit false

namespace Pintos.LibKernel.List

open Lib.StateExcept Lib.LinkedNodes

/-- Why a list function stops. -/
inductive ListPanic where
  | nullPointer
  | endless
  | listNextElem
  | listPrevElem
  | listInsertBefore
  | listInsertElem
  | listSpliceBefore
  | listSpliceFirst
  | listSpliceLast
  | listRemoveElem
  | listFrontNonempty
  | listBackNonempty
  | findEndOfRunA
  | findEndOfRunB
  | findEndOfRunNonempty
  | inplaceMergeA0
  | inplaceMergeA1b0
  | inplaceMergeB1
  | inplaceMergeFirstSorted
  | inplaceMergeSecondSorted
  | listSortSorted
  | listInsertOrderedElem
  deriving DecidableEq

/-- `struct list`: where its head and its tail are. -/
@[ext] structure KList (ν : Type) where
  head : ν
  tail : ν
  deriving DecidableEq

variable {ν : Type} [DecidableEq ν]

/-- Code on the heap of list elements. -/
abbrev ListM (ν : Type) (α : Type) : Type := Comp (Heap ν) ListPanic α

/-! ## Pointers -/

/-- The node that a pointer leads to. -/
def deref (p : Option ν) : ListM ν ν :=
  match p with
  | some x => pure x
  | none => throw .nullPointer

/-- `p->prev`. -/
def readPrev (p : Option ν) : ListM ν (Option ν) := do
  let x ← deref p
  return ((← get) x).prev

/-- `p->next`. -/
def readNext (p : Option ν) : ListM ν (Option ν) := do
  let x ← deref p
  return ((← get) x).next

/-- `p->prev = q`. -/
def writePrev (p q : Option ν) : ListM ν Unit := do
  let x ← deref p
  modify fun h => setPrev h x q

/-- `p->next = q`. -/
def writeNext (p q : Option ν) : ListM ν Unit := do
  let x ← deref p
  modify fun h => setNext h x q

/-- `is_head`. -/
def isHead (h : Heap ν) : Option ν → Bool
  | some x => (h x).prev.isNone && (h x).next.isSome
  | none => false

/-- `is_interior`. -/
def isInterior (h : Heap ν) : Option ν → Bool
  | some x => (h x).prev.isSome && (h x).next.isSome
  | none => false

/-- `is_tail`. -/
def isTail (h : Heap ν) : Option ν → Bool
  | some x => (h x).prev.isSome && (h x).next.isNone
  | none => false

/-! ## Traversal -/

/-- `list_init`. -/
def listInit (list : KList ν) : ListM ν Unit := do
  writePrev (some list.head) none
  writeNext (some list.head) (some list.tail)
  writePrev (some list.tail) (some list.head)
  writeNext (some list.tail) none

/-- `list_begin`. -/
def listBegin (list : KList ν) : ListM ν (Option ν) := readNext (some list.head)

/-- `list_next`. -/
def listNext (elem : Option ν) : ListM ν (Option ν) := do
  let h ← get
  check (isHead h elem ∨ isInterior h elem) .listNextElem
  readNext elem

/-- `list_end`. -/
def listEnd (list : KList ν) : Option ν := some list.tail

/-- `list_rbegin`. -/
def listRbegin (list : KList ν) : ListM ν (Option ν) := readPrev (some list.tail)

/-- `list_prev`. -/
def listPrev (elem : Option ν) : ListM ν (Option ν) := do
  let h ← get
  check (isInterior h elem ∨ isTail h elem) .listPrevElem
  readPrev elem

/-- `list_rend`. -/
def listRend (list : KList ν) : Option ν := some list.head

/-- `list_empty`. -/
def listEmpty (list : KList ν) : ListM ν Bool := do
  return (← listBegin list) = listEnd list

/-- `list_front`. -/
def listFront (list : KList ν) : ListM ν (Option ν) := do
  check ((← listEmpty list) = false) .listFrontNonempty
  readNext (some list.head)

/-- `list_back`. -/
def listBack (list : KList ν) : ListM ν (Option ν) := do
  check ((← listEmpty list) = false) .listBackNonempty
  readPrev (some list.tail)

/-- The loop of `list_size`. `size_t` has 64 bits. -/
def listSizeFrom (list : KList ν) : Nat → Option ν → Nat → ListM ν Nat
  | 0, _, _ => throw .endless
  | fuel + 1, e, cnt => do
    if e = listEnd list then return cnt
    listSizeFrom list fuel (← listNext e) ((cnt + 1) % 2 ^ 64)

/-- `list_size`. -/
def listSize (fuel : Nat) (list : KList ν) : ListM ν Nat := do
  listSizeFrom list fuel (← listBegin list) 0

/-- The elements that a loop from `e` by `list_next` up to `list_end` visits. -/
def forwardFrom (list : KList ν) : Nat → Option ν → ListM ν (List ν)
  | 0, _ => throw .endless
  | fuel + 1, e => do
    if e = listEnd list then return []
    let x ← deref e
    return x :: (← forwardFrom list fuel (← listNext e))

/-- `for (e = list_begin (list); e != list_end (list); e = list_next (e))`. -/
def forward (fuel : Nat) (list : KList ν) : ListM ν (List ν) := do
  forwardFrom list fuel (← listBegin list)

/-- The elements that a loop from `e` by `list_prev` up to `list_rend` visits. -/
def backwardFrom (list : KList ν) : Nat → Option ν → ListM ν (List ν)
  | 0, _ => throw .endless
  | fuel + 1, e => do
    if e = listRend list then return []
    let x ← deref e
    return x :: (← backwardFrom list fuel (← listPrev e))

/-- `for (e = list_rbegin (list); e != list_rend (list); e = list_prev (e))`. -/
def backward (fuel : Nat) (list : KList ν) : ListM ν (List ν) := do
  backwardFrom list fuel (← listRbegin list)

/-! ## Insertion and removal -/

/-- `list_insert`. -/
def listInsert (before elem : Option ν) : ListM ν Unit := do
  let h ← get
  check (isInterior h before ∨ isTail h before) .listInsertBefore
  check (elem ≠ none) .listInsertElem
  writePrev elem (← readPrev before)
  writeNext elem before
  writeNext (← readPrev before) elem
  writePrev before elem

/-- `list_splice`. -/
def listSplice (before first last : Option ν) : ListM ν Unit := do
  let h ← get
  check (isInterior h before ∨ isTail h before) .listSpliceBefore
  if first = last then return
  let last ← listPrev last
  check (isInterior h first) .listSpliceFirst
  check (isInterior h last) .listSpliceLast
  -- remove FIRST...LAST from its current list
  writeNext (← readPrev first) (← readNext last)
  writePrev (← readNext last) (← readPrev first)
  -- splice FIRST...LAST into the new list
  writePrev first (← readPrev before)
  writeNext last before
  writeNext (← readPrev before) first
  writePrev before last

/-- `list_push_front`. -/
def listPushFront (list : KList ν) (elem : Option ν) : ListM ν Unit := do
  listInsert (← listBegin list) elem

/-- `list_push_back`. -/
def listPushBack (list : KList ν) (elem : Option ν) : ListM ν Unit :=
  listInsert (listEnd list) elem

/-- `list_remove`: returns the element that followed. -/
def listRemove (elem : Option ν) : ListM ν (Option ν) := do
  let h ← get
  check (isInterior h elem) .listRemoveElem
  writeNext (← readPrev elem) (← readNext elem)
  writePrev (← readNext elem) (← readPrev elem)
  readNext elem

/-- `list_pop_front`. -/
def listPopFront (list : KList ν) : ListM ν (Option ν) := do
  let front ← listFront list
  let _ ← listRemove front
  return front

/-- `list_pop_back`. -/
def listPopBack (list : KList ν) : ListM ν (Option ν) := do
  let back ← listBack list
  let _ ← listRemove back
  return back

/-! ## Reversal -/

/-- `swap (&e->prev, &e->next)`. -/
def swapLinks (e : Option ν) : ListM ν Unit := do
  let prev ← readPrev e
  let next ← readNext e
  writePrev e next
  writeNext e prev

/-- The loop of `list_reverse`. -/
def listReverseFrom (list : KList ν) : Nat → Option ν → ListM ν Unit
  | 0, _ => throw .endless
  | fuel + 1, e => do
    if e = listEnd list then return
    swapLinks e
    listReverseFrom list fuel (← readPrev e)

/-- `list_reverse`. -/
def listReverse (fuel : Nat) (list : KList ν) : ListM ν Unit := do
  if (← listEmpty list) then return
  listReverseFrom list fuel (← listBegin list)
  -- swap (&list->head.next, &list->tail.prev)
  let first ← readNext (some list.head)
  let last ← readPrev (some list.tail)
  writeNext (some list.head) last
  writePrev (some list.tail) first
  -- swap (&list->head.next->prev, &list->tail.prev->next)
  let front ← readNext (some list.head)
  let back ← readPrev (some list.tail)
  let prev ← readPrev front
  let next ← readNext back
  writePrev front next
  writeNext back prev

/-! ## Rules for the pointer operations -/

section Rules

variable {h : Heap ν}

omit [DecidableEq ν] in
@[simp] theorem wp_deref (x : ν) (Q : ν → Heap ν → Prop) : wp (deref (some x)) h Q ↔ Q x h :=
  wp_pure x h Q

omit [DecidableEq ν] in
@[simp] theorem wp_readPrev (x : ν) (Q : Option ν → Heap ν → Prop) :
    wp (readPrev (some x)) h Q ↔ Q (h x).prev h := by
  simp [readPrev]

omit [DecidableEq ν] in
@[simp] theorem wp_readNext (x : ν) (Q : Option ν → Heap ν → Prop) :
    wp (readNext (some x)) h Q ↔ Q (h x).next h := by
  simp [readNext]

@[simp] theorem wp_writePrev (x : ν) (q : Option ν) (Q : Unit → Heap ν → Prop) :
    wp (writePrev (some x) q) h Q ↔ Q () (setPrev h x q) := by
  simp [writePrev]

@[simp] theorem wp_writeNext (x : ν) (q : Option ν) (Q : Unit → Heap ν → Prop) :
    wp (writeNext (some x) q) h Q ↔ Q () (setNext h x q) := by
  simp [writeNext]

end Rules

end Pintos.LibKernel.List
