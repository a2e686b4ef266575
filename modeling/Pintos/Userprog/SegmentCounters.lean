import Pintos.Userprog.Load

/-!
# The counters of a segment

The arithmetic of the counters that `load` hands to `load_segment`. Whatever a valid program header
holds, the narrowed counters add up to a number of whole pages that the segment really spans
(`segmentCounters_whole`, `segmentCounters_le`), so the subtractions of the page loop never wrap and
the loop ends (`advance_iterate`). The narrowing itself may lose pages: `span` is the size that the
header asks for, and the counters add up to it exactly when it fits (`segmentCounters_span`).
-/

set_option autoImplicit false

namespace Pintos.Userprog.SegmentCounters

open Function Threads.Vaddr
open Elf Userprog.Load

/-! ## Valid headers -/

/-- The bytes from the segment's first page to the end of its last one. -/
def span (phdr : Phdr) : Nat := (phdr.vaddr % 4096 + phdr.memsz + 4095) / 4096 * 4096

/-- The bytes of the first pages that come from the file, without the narrowing. -/
def fileSpan (phdr : Phdr) : Nat := if phdr.filesz > 0 then phdr.vaddr % 4096 + phdr.filesz else 0

/-- What `validate_segment` establishes. -/
structure ValidSegment (phdr : Phdr) (length : Nat) : Prop where
  offset : phdr.offset % 4096 = phdr.vaddr % 4096
  inside : phdr.offset ≤ length
  sizes : phdr.filesz ≤ phdr.memsz
  nonempty : 0 < phdr.memsz
  user : phdr.vaddr + phdr.memsz < kernBase
  start : 4096 ≤ phdr.vaddr

theorem validSegment_of_validate {phdr : Phdr} {file : File}
    (h : validateSegment phdr file = true) : ValidSegment phdr file.exe.bytes.length := by
  have hm := phdr.memsz_lt
  simp only [validateSegment, fileLength, isUserVaddr_iff] at h
  -- each test that the header passed gives one field
  split at h
  · cases h
  rename_i hofs
  split at h
  · cases h
  split at h
  · cases h
  split at h
  · cases h
  split at h
  · cases h
  split at h
  · cases h
  split at h
  · cases h
  split at h
  · cases h
  rename_i hstart
  simp only [pgSize] at hstart
  have hofs' : phdr.offset % 4096 = phdr.vaddr % 4096 := by
    rw [← pgOfs_eq, ← pgOfs_eq]
    exact not_not.1 hofs
  have huser : phdr.vaddr + phdr.memsz < kernBase := by
    simp only [kernBase]
    omega
  exact ⟨hofs', by omega, by omega, by omega, huser, by omega⟩

/-! ## Whole pages -/

/-- The counters fit in 32 bits and add up to whole pages. -/
structure Whole (c : Counters) : Prop where
  read_lt : c.readBytes < 2 ^ 32
  zero_lt : c.zeroBytes < 2 ^ 32
  pages : (c.readBytes + c.zeroBytes) % 4096 = 0

theorem roundUp_eq {x : Nat} (h : x < 2 ^ 63) : roundUp x = (x + 4095) / 4096 * 4096 := by
  have hlt : x + 4096 - 1 < 2 ^ 64 := by omega
  have hsub : x + 4096 - 1 = x + 4095 := by omega
  rw [roundUp, pgSize, Nat.mod_eq_of_lt hlt, hsub]

section Segment

variable {phdr : Phdr} {length : Nat}

/-- The narrowed counters of a valid segment, in terms of the sizes that the header asks for. -/
theorem segmentCounters_eq (h : ValidSegment phdr length) :
    segmentCounters phdr = ⟨fileSpan phdr % 2 ^ 32,
      (span phdr - fileSpan phdr % 2 ^ 32) % 2 ^ 32⟩ ∧ fileSpan phdr ≤ span phdr := by
  have hu := h.user
  have hs := h.sizes
  simp only [kernBase] at hu
  have hofs : phdr.vaddr &&& pgMask = phdr.vaddr % 4096 := pgOfs_eq phdr.vaddr
  have hmod : (phdr.vaddr % 4096 + phdr.memsz) % 2 ^ 64 = phdr.vaddr % 4096 + phdr.memsz :=
    Nat.mod_eq_of_lt (by omega)
  have hround : roundUp (phdr.vaddr % 4096 + phdr.memsz) = span phdr := roundUp_eq (by omega)
  have hle : fileSpan phdr ≤ span phdr := by
    simp only [fileSpan, span]
    split <;> omega
  refine ⟨?_, hle⟩
  simp only [segmentCounters, hofs, hmod, hround]
  by_cases hf : phdr.filesz > 0
  · rw [if_pos hf]
    have hfs : fileSpan phdr = phdr.vaddr % 4096 + phdr.filesz := if_pos hf
    rw [← hfs]
    have hwrap : (span phdr + 2 ^ 64 - fileSpan phdr % 2 ^ 32) % 2 ^ 32 =
        (span phdr - fileSpan phdr % 2 ^ 32) % 2 ^ 32 := by omega
    rw [hwrap]
  · rw [if_neg hf]
    have hfs : fileSpan phdr = 0 := if_neg hf
    rw [hfs, Nat.zero_mod, Nat.sub_zero]

theorem span_page (phdr : Phdr) : span phdr % 4096 = 0 := Nat.mul_mod_left _ _

theorem segmentCounters_whole (h : ValidSegment phdr length) : Whole (segmentCounters phdr) := by
  obtain ⟨heq, hle⟩ := segmentCounters_eq h
  have hp := span_page phdr
  rw [heq]
  -- 4096 divides the 2 ^ 32 that the narrowing takes off
  refine ⟨Nat.mod_lt _ (by norm_num), Nat.mod_lt _ (by norm_num), ?_⟩
  show (fileSpan phdr % 2 ^ 32 + (span phdr - fileSpan phdr % 2 ^ 32) % 2 ^ 32) % 4096 = 0
  omega

/-- The counters never add up to more than the segment spans. -/
theorem segmentCounters_le (h : ValidSegment phdr length) :
    (segmentCounters phdr).readBytes + (segmentCounters phdr).zeroBytes ≤ span phdr := by
  obtain ⟨heq, hle⟩ := segmentCounters_eq h
  rw [heq]
  show fileSpan phdr % 2 ^ 32 + (span phdr - fileSpan phdr % 2 ^ 32) % 2 ^ 32 ≤ span phdr
  omega

/-- The pages of a valid segment lie below `KERN_BASE`. -/
theorem span_user (h : ValidSegment phdr length) :
    phdr.vaddr - phdr.vaddr % 4096 + span phdr ≤ kernBase := by
  have hu := h.user
  simp only [kernBase] at hu ⊢
  simp only [span]
  omega

/-- The sizes that the header asks for fit in the counters. -/
def Fits (phdr : Phdr) : Prop := fileSpan phdr < 2 ^ 32 ∧ span phdr - fileSpan phdr < 2 ^ 32

instance (phdr : Phdr) : Decidable (Fits phdr) := inferInstanceAs (Decidable (_ ∧ _))

/-- The counters cover the segment exactly when its sizes fit. -/
theorem segmentCounters_span (h : ValidSegment phdr length) :
    (segmentCounters phdr).readBytes + (segmentCounters phdr).zeroBytes = span phdr ↔
      Fits phdr := by
  obtain ⟨heq, hle⟩ := segmentCounters_eq h
  rw [heq, Fits]
  show fileSpan phdr % 2 ^ 32 + (span phdr - fileSpan phdr % 2 ^ 32) % 2 ^ 32 = span phdr ↔ _
  omega

theorem segmentCounters_read (h : ValidSegment phdr length) (hfit : Fits phdr) :
    (segmentCounters phdr).readBytes = fileSpan phdr := by
  rw [(segmentCounters_eq h).1]
  exact Nat.mod_eq_of_lt hfit.1

end Segment

/-! ## The page loop -/

section Advance

variable {c : Counters}

theorem pageReadBytes_eq (c : Counters) : c.pageReadBytes = min c.readBytes 4096 := by
  have hpg : pgSize = 4096 := rfl
  unfold Counters.pageReadBytes
  split <;> omega

/-- One page: the subtractions do not wrap, and the counters lose one page. -/
theorem advance_spec (h : Whole c) (hc : c.readBytes > 0 ∨ c.zeroBytes > 0) :
    c.pageReadBytes ≤ c.readBytes ∧ c.pageZeroBytes ≤ c.zeroBytes ∧ Whole c.advance ∧
      c.advance.readBytes = c.readBytes - 4096 ∧
      c.advance.readBytes + c.advance.zeroBytes + 4096 = c.readBytes + c.zeroBytes := by
  obtain ⟨hr, hz, hp⟩ := h
  have hread := pageReadBytes_eq c
  have hzero : c.pageZeroBytes = 4096 - min c.readBytes 4096 := by
    rw [Counters.pageZeroBytes, hread, pgSize]
  have hle : c.pageZeroBytes ≤ c.zeroBytes := by omega
  have hr' : c.advance.readBytes = c.readBytes - 4096 := by
    show (c.readBytes + 2 ^ 32 - c.pageReadBytes) % 2 ^ 32 = _
    omega
  have hz' : c.advance.zeroBytes = c.zeroBytes - c.pageZeroBytes := by
    show (c.zeroBytes + 2 ^ 32 - c.pageZeroBytes) % 2 ^ 32 = _
    omega
  refine ⟨by omega, hle, ⟨by omega, by omega, ?_⟩, hr', ?_⟩
  · omega
  · omega

/-- From whole pages the loop reaches 0 after one iteration for each page, and none of its
subtractions wraps. -/
theorem advance_iterate {n : Nat} (h : Whole c) (hn : c.readBytes + c.zeroBytes = 4096 * n) :
    Counters.advance^[n] c = ⟨0, 0⟩ ∧ ∀ k < n,
      (Counters.advance^[k] c).pageReadBytes ≤ (Counters.advance^[k] c).readBytes ∧
      (Counters.advance^[k] c).pageZeroBytes ≤ (Counters.advance^[k] c).zeroBytes := by
  induction n generalizing c with
  | zero =>
    obtain ⟨r, z⟩ := c
    simp only at hn
    refine ⟨?_, fun k hk => absurd hk (Nat.not_lt_zero k)⟩
    have hr : r = 0 := by omega
    have hz : z = 0 := by omega
    subst hr hz
    rfl
  | succ n ih =>
    obtain ⟨hread, hzero, hwhole, -, hsum⟩ := advance_spec h (by omega)
    obtain ⟨hend, hsub⟩ := ih hwhole (by omega)
    rw [iterate_succ_apply]
    refine ⟨hend, ?_⟩
    intro k hk
    cases k with
    | zero =>
      rw [iterate_zero_apply]
      exact ⟨hread, hzero⟩
    | succ k =>
      rw [iterate_succ_apply]
      exact hsub k (by omega)

end Advance

end Pintos.Userprog.SegmentCounters
