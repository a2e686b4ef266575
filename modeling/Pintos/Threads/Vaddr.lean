import Mathlib.Data.Nat.Bitwise
import Mathlib.Tactic

/-!
# Virtual addresses and page-table entries

The macros of `threads/vaddr.h`, `threads/pte.h` and `threads/loader.h`. Addresses and entries are
64-bit numbers, written here as natural numbers with the reduction modulo `2 ^ 64` wherever the C
arithmetic can wrap. Masking is the bitwise operation of the source; each macro has a lemma that
says which quotient or remainder it is.
-/

set_option autoImplicit false

namespace Pintos.Threads.Vaddr

/-- Bytes in a page. -/
def pgSize : Nat := 4096

/-- The page offset bits. -/
def pgMask : Nat := 0xfff

/-- Kernel virtual address start (`LOADER_KERN_BASE`). -/
def kernBase : Nat := 0x8004000000

/-- User stack start. -/
def userStack : Nat := 0x47480000

/-- Offset within a page. -/
def pgOfs (va : Nat) : Nat := va &&& pgMask

/-- The bits above the page offset, `va & ~PGMASK`. -/
def pgRoundDown (va : Nat) : Nat := va &&& 0xfffffffffffff000

/-- Kernel virtual addresses. -/
def isKernelVaddr (va : Nat) : Prop := kernBase ≤ va

/-- User virtual addresses. -/
def isUserVaddr (va : Nat) : Prop := ¬ isKernelVaddr va

instance (va : Nat) : Decidable (isKernelVaddr va) := inferInstanceAs (Decidable (_ ≤ _))

instance (va : Nat) : Decidable (isUserVaddr va) := inferInstanceAs (Decidable (¬ _))

/-- The kernel virtual address at which a physical address is mapped. -/
def ptov (paddr : Nat) : Nat := (paddr + kernBase) % 2 ^ 64

/-- Index into the page-map level 4. -/
def pml4Index (la : Nat) : Nat := (la >>> 39) &&& 0x1ff

/-- Index into a page-directory-pointer table. -/
def pdpeIndex (la : Nat) : Nat := (la >>> 30) &&& 0x1ff

/-- Index into a page directory. -/
def pdx (la : Nat) : Nat := (la >>> 21) &&& 0x1ff

/-- Index into a page table. -/
def ptx (la : Nat) : Nat := (la >>> 12) &&& 0x1ff

/-- The address bits of an entry. -/
def pteAddr (pte : Nat) : Nat := pte &&& 0xfffffffffffff000

/-- Entry flag: present. -/
def pteP : Nat := 0x1

/-- Entry flag: writable. -/
def pteW : Nat := 0x2

/-- Entry flag: user. -/
def pteU : Nat := 0x4

/-- Entry flag: accessed. -/
def pteA : Nat := 0x20

/-- Entry flag: dirty. -/
def pteD : Nat := 0x40

/-! ## Masks as quotients and remainders -/

theorem pgOfs_eq (va : Nat) : pgOfs va = va % 4096 :=
  Nat.and_two_pow_sub_one_eq_mod va 12

theorem isUserVaddr_iff (va : Nat) : isUserVaddr va ↔ va < 0x8004000000 := by
  simp only [isUserVaddr, isKernelVaddr, kernBase]
  omega

/-- Clearing the twelve low bits of a 64-bit number. -/
theorem and_high_bits {x : Nat} (hx : x < 2 ^ 64) : x &&& 0xfffffffffffff000 = x - x % 4096 := by
  have hsplit : x - x % 4096 = x / 2 ^ 12 * 2 ^ 12 := by omega
  rw [hsplit]
  apply Nat.eq_of_testBit_eq
  intro i
  have hmask : (0xfffffffffffff000 : Nat) = (2 ^ 52 - 1) * 2 ^ 12 := by norm_num
  rw [Nat.testBit_and, hmask, Nat.testBit_mul_two_pow, Nat.testBit_mul_two_pow,
    Nat.testBit_two_pow_sub_one, Nat.testBit_div_two_pow]
  by_cases h12 : 12 ≤ i
  · by_cases h64 : i < 64
    · have h52 : i - 12 < 52 := by omega
      have hi : i - 12 + 12 = i := by omega
      simp [h12, h52, hi]
    · have hhigh : x.testBit i = false := by
        apply Nat.testBit_lt_two_pow
        exact lt_of_lt_of_le hx (Nat.pow_le_pow_right (by norm_num) (by omega))
      have hi : i - 12 + 12 = i := by omega
      simp [hhigh, hi]
  · simp [h12]

theorem pgRoundDown_eq {va : Nat} (h : va < 2 ^ 64) : pgRoundDown va = va - va % 4096 :=
  and_high_bits h

theorem pteAddr_eq {pte : Nat} (h : pte < 2 ^ 64) : pteAddr pte = pte - pte % 4096 :=
  and_high_bits h

theorem shift_index_eq (la n : Nat) : (la >>> n) &&& 0x1ff = la / 2 ^ n % 512 := by
  rw [Nat.shiftRight_eq_div_pow]
  exact Nat.and_two_pow_sub_one_eq_mod _ 9

theorem pml4Index_eq (la : Nat) : pml4Index la = la / 2 ^ 39 % 512 := shift_index_eq la 39

theorem pdpeIndex_eq (la : Nat) : pdpeIndex la = la / 2 ^ 30 % 512 := shift_index_eq la 30

theorem pdx_eq (la : Nat) : pdx la = la / 2 ^ 21 % 512 := shift_index_eq la 21

theorem ptx_eq (la : Nat) : ptx la = la / 2 ^ 12 % 512 := shift_index_eq la 12

/-- The present bit is the lowest bit. -/
theorem and_pteP (e : Nat) : e &&& pteP = e % 2 := Nat.and_two_pow_sub_one_eq_mod e 1

/-- The writable bit is the second one. -/
theorem and_pteW (e : Nat) : e &&& pteW ≠ 0 ↔ e / 2 % 2 = 1 := by
  have h : e &&& pteW = (e.testBit 1).toNat * 2 ^ 1 := Nat.and_two_pow e 1
  rw [h, Nat.testBit_eq_decide_div_mod_eq, pow_one]
  by_cases hb : e / 2 % 2 = 1
  · simp [hb]
  · simp [hb]

/-- Joining flags to a page-aligned address adds them. -/
theorem or_flags {a f : Nat} (ha : a % 4096 = 0) (hf : f < 4096) : a ||| f = a + f := by
  have h := Nat.two_pow_add_eq_or_of_lt (i := 12) (b := f) (by omega) (a / 4096)
  have e : 2 ^ 12 * (a / 4096) = a := by omega
  rw [e] at h
  exact h.symm

end Pintos.Threads.Vaddr
