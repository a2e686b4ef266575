import Pintos.Lib.ByteMemory
import Pintos.Lib.StateExcept

/-!
# Memory with unmapped addresses

A byte memory of which only some addresses may be accessed; a load or a store anywhere else is a
fault. A computation that succeeds in every memory in which certain addresses are mapped accesses no
others, since it also succeeds where no others are mapped.

`Text M a t` says that a string is at an address: the bytes of `t`, none of which is zero, and a
zero behind them.
-/

set_option autoImplicit false

namespace Pintos.Lib.MappedMemory

open ByteMemory StateExcept

/-- Bytes at 64-bit addresses. The null pointer is not an address of anything. -/
structure Memory where
  bytes : Bytes
  mapped : Nat → Bool
  null : mapped 0 = false
  bounded : ∀ a, mapped a = true → a < 2 ^ 64

/-- Why a computation does not go on. -/
inductive Fault where
  | access (a : Nat)
  | assertion
  /-- A loop has gone once through the address space. -/
  | endless
  deriving DecidableEq

abbrev MemoryM (α : Type) : Type := Comp Memory Fault α

/-- The byte at an address. -/
def load (a : Nat) : MemoryM UInt8 := do
  check ((← get).mapped a = true) (.access a)
  return (← get).bytes a

/-- The memory with another byte at an address. -/
def Memory.put (M : Memory) (a : Nat) (b : UInt8) : Memory :=
  { M with bytes := patch M.bytes a 1 fun _ => b }

/-- Set the byte at an address. -/
def store (a : Nat) (b : UInt8) : MemoryM Unit := do
  check ((← get).mapped a = true) (.access a)
  modify fun M => M.put a b

/-- The `n` bytes from an address on may be accessed. -/
def Mapped (M : Memory) (a n : Nat) : Prop := ∀ i < n, M.mapped (a + i) = true

/-- The string `t` is at the address. -/
structure Text (M : Memory) (a : Nat) (t : List UInt8) : Prop where
  mapped : Mapped M a (t.length + 1)
  bytes : Holds M.bytes a (t ++ [0])
  nonzero : ∀ c ∈ t, c ≠ 0

/-! ## Accesses -/

section Access

variable {M : Memory} {a n : Nat}

theorem wp_load (h : M.mapped a = true) {Q : UInt8 → Memory → Prop} (hQ : Q (M.bytes a) M) :
    wp (load a) M Q := by
  simp only [load, wp_bind, wp_get, wp_check, wp_pure]
  exact ⟨h, hQ⟩

theorem wp_store (h : M.mapped a = true) {b : UInt8} {Q : Unit → Memory → Prop}
    (hQ : Q () (M.put a b)) : wp (store a b) M Q := by
  simp only [store, wp_bind, wp_get, wp_check, wp_modify]
  exact ⟨h, hQ⟩

@[simp] theorem put_mapped (M : Memory) (a : Nat) (b : UInt8) : (M.put a b).mapped = M.mapped := rfl

theorem put_bytes (M : Memory) (a : Nat) (b : UInt8) :
    (M.put a b).bytes = patch M.bytes a 1 fun _ => b :=
  rfl

theorem put_bytes_self (M : Memory) (a : Nat) (b : UInt8) : (M.put a b).bytes a = b := by
  rw [put_bytes, patch_inside le_rfl (by omega)]

theorem put_bytes_of_ne {x : Nat} (h : x ≠ a) (b : UInt8) : (M.put a b).bytes x = M.bytes x := by
  rw [put_bytes, patch_outside (by omega)]

theorem Mapped.head (h : Mapped M a (n + 1)) : M.mapped a = true := h 0 (Nat.succ_pos n)

theorem Mapped.tail (h : Mapped M a (n + 1)) : Mapped M (a + 1) n := by
  intro i hi
  rw [add_assoc, add_comm 1 i]
  exact h (i + 1) (by omega)

theorem Mapped.ne_null (h : Mapped M a n) : a ≠ 0 ∨ n = 0 := by
  cases n with
  | zero => exact Or.inr rfl
  | succ n =>
    refine Or.inl fun ha => ?_
    have hnull := h.head
    rw [ha, M.null] at hnull
    cases hnull

end Access

/-! ## Strings -/

namespace Text

variable {M : Memory} {a : Nat} {t : List UInt8}

theorem ne_null (h : Text M a t) : a ≠ 0 := h.mapped.ne_null.resolve_right (Nat.succ_ne_zero _)

theorem mapped_head (h : Text M a t) : M.mapped a = true := h.mapped.head

theorem byte_nil (h : Text M a []) : M.bytes a = 0 := h.bytes.1

theorem byte_cons {c : UInt8} (h : Text M a (c :: t)) : M.bytes a = c := h.bytes.1

theorem tail {c : UInt8} (h : Text M a (c :: t)) : Text M (a + 1) t :=
  ⟨h.mapped.tail, h.bytes.2, fun x hx => h.nonzero x (List.mem_cons_of_mem c hx)⟩

theorem drop {t' : List UInt8} (h : Text M a (t ++ t')) : Text M (a + t.length) t' := by
  induction t generalizing a with
  | nil => exact h
  | cons c t ih =>
    have htail := ih h.tail
    rwa [add_assoc, add_comm 1] at htail

/-- A string that is not written to stays. -/
theorem congr {M' : Memory} (h : Text M a t) (hmapped : M'.mapped = M.mapped)
    (hbytes : ∀ i ≤ t.length, M'.bytes (a + i) = M.bytes (a + i)) : Text M' a t := by
  refine ⟨fun i hi => by rw [hmapped]; exact h.mapped i hi, h.bytes.congr fun j hj => ?_, h.nonzero⟩
  rw [List.length_append, List.length_singleton] at hj
  exact hbytes j (by omega)

end Text

end Pintos.Lib.MappedMemory
