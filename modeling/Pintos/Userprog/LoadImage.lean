import Pintos.Userprog.Processes

/-!
# The image of a loaded process

What a process sees after `load` has returned true. `ImageCorrect` is the image that the file's
program headers ask for. The loader makes it when nothing is lost on the way to its narrow types
(`Exact`): the offset of the header table must fit in `off_t`, and the sizes of every loadable
segment in the 32-bit counters. A segment of `2 ^ 32` bytes passes `validate_segment` and is then
not loaded at all (`lost_segment`). When the segments share no page with each other or with the
stack, a lost page is never made up for, so the condition is exact.
-/

set_option autoImplicit false

namespace Pintos.Userprog.LoadImage

open Lib.StateExcept Lib.ByteMemory
open Threads.Vaddr Threads.Palloc Threads.Mmu
open Threads.PageTables Threads.PageMap
open Threads.Isolation
open Elf Userprog.Load SegmentCounters
open Userprog.Image LoadSpec Processes

/-! ## The specification -/

/-- Program header `i`, at the place that the executable header names. -/
def phdr (exe : Executable) (i : Nat) : Phdr := exe.phdrAt (exe.ehdr.phoff + phdrSize * i)

/-- The page of `va` holds an address of the segment. -/
def Touches (p : Phdr) (va : Nat) : Prop :=
  ∃ va', va' / 4096 = va / 4096 ∧ p.vaddr ≤ va' ∧ va' < p.vaddr + p.memsz

/-- `va` is mapped to a byte as the segment asks for: the file's byte or 0, writable or not. -/
def ByteAt (exe : Executable) (p : Phdr) (pml4 va : Nat) (s : Machine) : Prop :=
  ∃ a pte, pml4GetPage pml4 va s = .ok (some a, s) ∧
    (va - p.vaddr < p.filesz → exe.bytes[p.offset + (va - p.vaddr)]? = some (s.mem a)) ∧
    (p.filesz ≤ va - p.vaddr → s.mem a = 0) ∧
    pml4eWalk pml4 va false s = .ok (some pte, s) ∧
    (readLE s.mem 8 pte &&& pteW ≠ 0 ↔ p.flags &&& pfW ≠ 0)

/-- The image that the file asks for, and nothing else, is in the map; `phdrs` are the headers that
the loader has processed. -/
structure ImageCorrect (exe : Executable) (phdrs : List Phdr) (pml4 : Nat)
    (s : Machine) : Prop where
  headers : ∀ i < exe.ehdr.phnum,
    exe.ehdr.phoff + phdrSize * i + phdrSize ≤ exe.bytes.length ∧ phdrs[i]? = some (phdr exe i)
  segments : ∀ p ∈ phdrs, p.type = ptLoad → ∀ va, p.vaddr ≤ va → va < p.vaddr + p.memsz →
    ByteAt exe p pml4 va s
  unmapped : ∀ va, isUserVaddr va → (∀ p ∈ phdrs, p.type = ptLoad → ¬ Touches p va) →
    va / 4096 ≠ (userStack - 4096) / 4096 → pml4GetPage pml4 va s = .ok (none, s)

/-- Nothing is lost in the conversions to `off_t` and to the 32-bit counters. -/
def Exact (exe : Executable) : Prop :=
  (exe.ehdr.phnum = 0 ∨ exe.ehdr.phoff < 2 ^ 32) ∧
    ∀ i < exe.ehdr.phnum, (phdr exe i).type = ptLoad → Fits (phdr exe i)

instance (exe : Executable) : Decidable (Exact exe) :=
  inferInstanceAs (Decidable (_ ∧ ∀ i < exe.ehdr.phnum, _ → _))

/-- The loadable segments share no page with each other or with the stack. -/
structure PagesApart (exe : Executable) : Prop where
  segments : ∀ i < exe.ehdr.phnum, ∀ j < exe.ehdr.phnum, i ≠ j → (phdr exe i).type = ptLoad →
    (phdr exe j).type = ptLoad → ∀ va, Touches (phdr exe i) va → ¬ Touches (phdr exe j) va
  stack : ∀ i < exe.ehdr.phnum, (phdr exe i).type = ptLoad →
    ¬ Touches (phdr exe i) (userStack - 4096)

/-! ## The pages of a segment -/

variable {exe : Executable} {pg : ImagePage} {va : Nat}

section Segment

variable {p : Phdr} {length : Nat}

/-- A page of the segment is one of those counted by `span`. -/
theorem touches_iff (hv : ValidSegment p length) (va : Nat) :
    Touches p va ↔ p.vaddr / 4096 ≤ va / 4096 ∧ va / 4096 < p.vaddr / 4096 + span p / 4096 := by
  have hn := hv.nonempty
  have hspan : span p / 4096 = (p.vaddr % 4096 + p.memsz + 4095) / 4096 :=
    Nat.mul_div_cancel _ (by norm_num)
  constructor
  · rintro ⟨va', hpage, h1, h2⟩
    omega
  · rintro ⟨h1, h2⟩
    -- the first address of the page, or of the segment
    refine ⟨max (va / 4096 * 4096) p.vaddr, ?_, ?_, ?_⟩
    · omega
    · omega
    · omega

/-- A page that the loader maps for a segment. -/
theorem mem_phdrPages (hp : p.type = ptLoad) (hpg : pg ∈ phdrPages exe p) :
    ∃ j < ((segmentCounters p).readBytes + (segmentCounters p).zeroBytes) / 4096,
      pg = segmentPage exe (p.flags &&& pfW ≠ 0) (p.offset - p.offset % 4096)
        (p.vaddr - p.vaddr % 4096) (segmentCounters p).readBytes j := by
  rw [phdrPages, if_pos hp, segmentPages] at hpg
  obtain ⟨j, hj, rfl⟩ := List.mem_map.1 hpg
  exact ⟨j, List.mem_range.1 hj, rfl⟩

/-- The page `j` of a segment covers the addresses of the `j`-th page. -/
theorem segmentPage_covers {w : Bool} {pos readBytes j : Nat} :
    (segmentPage exe w pos (p.vaddr - p.vaddr % 4096) readBytes j).Covers va ↔
      va / 4096 = p.vaddr / 4096 + j := by
  show va / 4096 = (p.vaddr - p.vaddr % 4096 + 4096 * j) / 4096 ↔ _
  omega

/-- What is mapped for a segment belongs to it. -/
theorem touches_of_covers (hv : ValidSegment p length) (hp : p.type = ptLoad)
    (hpg : pg ∈ phdrPages exe p) (hc : pg.Covers va) :
    Touches p va := by
  obtain ⟨j, hj, rfl⟩ := mem_phdrPages hp hpg
  rw [segmentPage_covers] at hc
  have hle := segmentCounters_le hv
  rw [touches_iff hv]
  omega

/-- The last page of a segment that does not fit is not mapped for it. -/
theorem not_covers_last (hv : ValidSegment p length) (hp : p.type = ptLoad) (hfit : ¬ Fits p)
    (hpg : pg ∈ phdrPages exe p) :
    ¬ pg.Covers (p.vaddr + p.memsz - 1) := by
  obtain ⟨j, hj, rfl⟩ := mem_phdrPages hp hpg
  have hle := segmentCounters_le hv
  have hne : (segmentCounters p).readBytes + (segmentCounters p).zeroBytes ≠ span p :=
    fun e => hfit ((segmentCounters_span hv).1 e)
  have hspan := span_page p
  have hlast : (p.vaddr + p.memsz - 1) / 4096 = p.vaddr / 4096 + span p / 4096 - 1 := by
    rw [span, Nat.mul_div_cancel _ (by norm_num)]
    omega
  rw [segmentPage_covers, hlast]
  omega

/-- A segment that fits has a page for each of its addresses. -/
theorem covers_of_fits (exe : Executable) (hv : ValidSegment p length) (hp : p.type = ptLoad)
    (hfit : Fits p) (hva : Touches p va) :
    ∃ j, segmentPage exe (p.flags &&& pfW ≠ 0) (p.offset - p.offset % 4096)
        (p.vaddr - p.vaddr % 4096) (fileSpan p) j ∈ phdrPages exe p ∧
      va / 4096 = p.vaddr / 4096 + j := by
  rw [touches_iff hv] at hva
  have hsum := (segmentCounters_span hv).2 hfit
  refine ⟨va / 4096 - p.vaddr / 4096, ?_, by omega⟩
  rw [phdrPages, if_pos hp, segmentPages, hsum, segmentCounters_read hv hfit]
  exact List.mem_map_of_mem (List.mem_range.2 (by omega))

end Segment

/-! ## Reading the image -/

section Read

variable {own₀ own : Frame → Option Label} {rb r : Frame} {t : Nat → Nat} {img : List ImagePage}
  {s : Machine}

/-- An address of a page of the image is mapped to the page's byte, with its permission. -/
theorem read_image (h : Holds own₀ own rb r t img s) (hpg : pg ∈ img) (hu : isUserVaddr va)
    (hc : pg.Covers va) :
    ∃ a pte, pml4GetPage (kva r) va s = .ok (some a, s) ∧ s.mem a = pg.bytes (va % 4096) ∧
      pml4eWalk (kva r) va false s = .ok (some pte, s) ∧
      (readLE s.mem 8 pte &&& pteW ≠ 0 ↔ pg.writable = true) := by
  obtain ⟨f, -, -, hmap, hbytes⟩ := h.pages pg hpg
  have htr := hmap va hu hc
  have hwalk := pml4eWalk_eq h.tables h.root hu
  cases hl : leafOf s.mem 3 r va with
  | none =>
    -- a missing leaf translates to 0, but the entry of a page is present
    rw [translate_of_leafOf_none hl, (leafEntry_kva f pg.writable).1] at htr
    split at htr <;> omega
  | some g =>
    rw [hl] at hwalk
    refine ⟨kva f + va % 4096, _, ?_, hbytes _ (Nat.mod_lt _ (by norm_num)), hwalk, ?_⟩
    · obtain ⟨ha, hk, hlt⟩ := kva_facts f
      rw [pml4GetPage_eq h.tables h.root hu, htr, mapped_leafEntry hk ha (by omega)]
    · rw [translate_of_leafOf_some hl] at htr
      show entry s.mem g (indexAt 0 va) &&& pteW ≠ 0 ↔ _
      rw [htr, and_pteW, (leafEntry_kva f pg.writable).1]
      cases pg.writable with
      | true => simp; omega
      | false => simp; omega

/-- An address outside the image is mapped as before the loading. -/
theorem read_rest (h : Holds own₀ own rb r t img s) (hu : isUserVaddr va)
    (hno : ∀ pg ∈ img, ¬ pg.Covers va) : pml4GetPage (kva r) va s = .ok (mapped (t va) va, s) := by
  rw [pml4GetPage_eq h.tables h.root hu, h.rest va hu hno]

end Read

/-- The bytes of the pages of a segment that fits are those that the header asks for. -/
theorem segmentPage_bytes {p : Phdr} (hv : ValidSegment p exe.bytes.length)
    (hfile : fileSpan p = 0 ∨ p.offset - p.offset % 4096 + fileSpan p ≤ exe.bytes.length) {w : Bool}
    {j : Nat} (h1 : p.vaddr ≤ va) (hj : va / 4096 = p.vaddr / 4096 + j) :
    (va - p.vaddr < p.filesz → exe.bytes[p.offset + (va - p.vaddr)]? = some ((segmentPage exe w
      (p.offset - p.offset % 4096) (p.vaddr - p.vaddr % 4096) (fileSpan p) j).bytes (va % 4096))) ∧
    (p.filesz ≤ va - p.vaddr → (segmentPage exe w (p.offset - p.offset % 4096)
      (p.vaddr - p.vaddr % 4096) (fileSpan p) j).bytes (va % 4096) = 0) := by
  have hofs := hv.offset
  have hat : 4096 * j + va % 4096 = va - p.vaddr + p.vaddr % 4096 := by omega
  simp only [segmentPage, hat]
  constructor
  · intro hlt
    have hspan : fileSpan p = p.vaddr % 4096 + p.filesz := if_pos (by omega)
    have hin : p.offset + (va - p.vaddr) < exe.bytes.length := by omega
    have hidx : p.offset - p.offset % 4096 + (va - p.vaddr + p.vaddr % 4096) =
        p.offset + (va - p.vaddr) := by omega
    rw [if_pos (by omega), hidx, Executable.byte, List.getD_eq_getElem?_getD,
      List.getElem?_eq_getElem hin]
    rfl
  · intro hle
    have hspan : fileSpan p ≤ va - p.vaddr + p.vaddr % 4096 := by
      unfold fileSpan
      split <;> omega
    rw [if_neg (by omega)]

/-! ## The main result -/

section Main

variable {own₀ own : Frame → Option Label} {rb r : Frame} {t : Nat → Nat} {s : Machine}
  {exe : Executable} {phdrs : List Phdr}

/-- The headers read from the narrowed offset are those of the file when the offset fits. -/
theorem headers_of_exact (hfrom : PhdrsFrom exe (toOff exe.ehdr.phoff).toNat exe.ehdr.phnum phdrs)
    (hofs : exe.ehdr.phnum = 0 ∨ 0 ≤ toOff exe.ehdr.phoff)
    (hexact : exe.ehdr.phnum = 0 ∨ exe.ehdr.phoff < 2 ^ 32) :
    phdrs = (List.range exe.ehdr.phnum).map (phdr exe) ∧
      (exe.ehdr.phnum = 0 ∨ exe.ehdr.phoff + phdrSize * exe.ehdr.phnum ≤ exe.bytes.length) := by
  rcases Nat.eq_zero_or_pos exe.ehdr.phnum with h0 | hpos
  · have hnil := hfrom.1
    rw [h0, List.range_zero, List.map_nil] at hnil ⊢
    exact ⟨hnil, Or.inl rfl⟩
  · have hconv : toOff exe.ehdr.phoff = exe.ehdr.phoff :=
      toOff_nonneg (hexact.resolve_left (by omega)) (hofs.resolve_left (by omega))
    rw [hconv, Int.toNat_natCast] at hfrom
    exact hfrom

section

variable (h : Holds own₀ own rb r t (phdrs.flatMap (phdrPages exe) ++ [stackPage]) s)
  (hbase : ∀ va, isUserVaddr va → mapped (t va) va = none) (hloaded : ∀ p ∈ phdrs, PhdrLoaded exe p)
include h hbase hloaded

/-- With headers that fit, the pages of the segments and the stack are the image that is asked
for. -/
theorem imageCorrect_of_exact (hphdrs : phdrs = (List.range exe.ehdr.phnum).map (phdr exe))
    (hlen : exe.ehdr.phnum = 0 ∨ exe.ehdr.phoff + phdrSize * exe.ehdr.phnum ≤ exe.bytes.length)
    (hfit : ∀ i < exe.ehdr.phnum, (phdr exe i).type = ptLoad → Fits (phdr exe i)) :
    ImageCorrect exe phdrs (kva r) s where
  headers := by
    intro i hi
    refine ⟨?_, ?_⟩
    · simp only [phdrSize] at hlen ⊢
      omega
    · rw [hphdrs, List.getElem?_map, List.getElem?_range hi]
      rfl
  segments := by
    intro p hp hload va h1 h2
    obtain ⟨hv, hfile⟩ := hloaded p hp hload
    have hfits : Fits p := by
      rw [hphdrs] at hp
      obtain ⟨i, hi, rfl⟩ := List.mem_map.1 hp
      exact hfit i (List.mem_range.1 hi) hload
    rw [segmentCounters_read hv hfits] at hfile
    obtain ⟨j, hmem, hj⟩ := covers_of_fits exe hv hload hfits ⟨va, rfl, h1, h2⟩
    have hu : isUserVaddr va := by
      have huser := hv.user
      rw [isUserVaddr_iff]
      simp only [kernBase] at huser
      omega
    have himg := List.mem_append_left [stackPage] (List.mem_flatMap_of_mem hp hmem)
    obtain ⟨a, pte, hget, hbyte, hwalk, hwr⟩ := read_image h himg hu (segmentPage_covers.2 hj)
    obtain ⟨hread, hzero⟩ := segmentPage_bytes hv hfile
      (w := (p.flags &&& pfW ≠ 0)) h1 hj
    refine ⟨a, pte, hget, ?_, ?_, hwalk, ?_⟩
    · intro hlt
      rw [hbyte]
      exact hread hlt
    · intro hle
      rw [hbyte]
      exact hzero hle
    · rw [hwr]
      simp [segmentPage]
  unmapped := by
    intro va hu hno hstack
    rw [read_rest h hu, hbase va hu]
    intro pg hpg hc
    rcases List.mem_append.1 hpg with hpg | hpg
    · obtain ⟨p, hp, hpg⟩ := List.mem_flatMap.1 hpg
      by_cases hload : p.type = ptLoad
      · exact hno p hp hload (touches_of_covers (hloaded p hp hload).1 hload hpg hc)
      · rw [phdrPages, if_neg hload] at hpg
        cases hpg
    · rw [List.mem_singleton.1 hpg] at hc
      exact hstack hc

/-- The last page of a segment that does not fit is not mapped, if no other segment maps it. -/
theorem exact_of_imageCorrect (hlen : phdrs.length = exe.ehdr.phnum) (hapart : PagesApart exe)
    (himg : ImageCorrect exe phdrs (kva r) s) : Exact exe := by
  refine ⟨?_, ?_⟩
  · rcases Nat.eq_zero_or_pos exe.ehdr.phnum with h0 | hpos
    · exact Or.inl h0
    · have hin := (himg.headers 0 hpos).1
      have hlt := exe.length_lt
      exact Or.inr (by omega)
  · intro i hi hload
    by_contra hfit
    have hmem : phdr exe i ∈ phdrs := List.mem_of_getElem? (himg.headers i hi).2
    obtain ⟨hv, -⟩ := hloaded _ hmem hload
    have hn := hv.nonempty
    obtain ⟨a, pte, hget, -⟩ := himg.segments _ hmem hload
      ((phdr exe i).vaddr + (phdr exe i).memsz - 1) (by omega) (by omega)
    have htouch : Touches (phdr exe i) ((phdr exe i).vaddr + (phdr exe i).memsz - 1) :=
      ⟨_, rfl, by omega, by omega⟩
    have hu : isUserVaddr ((phdr exe i).vaddr + (phdr exe i).memsz - 1) := by
      have huser := hv.user
      rw [isUserVaddr_iff]
      simp only [kernBase] at huser
      omega
    -- no page of the image covers the last address, so it is not mapped
    rw [read_rest h hu, hbase _ hu] at hget
    · cases hget
    intro pg hpg hc
    rcases List.mem_append.1 hpg with hpg | hpg
    · obtain ⟨q, hq, hpg⟩ := List.mem_flatMap.1 hpg
      by_cases hqload : q.type = ptLoad
      · obtain ⟨j, hj, hqj⟩ := List.getElem_of_mem hq
        have hqj' : phdr exe j = q := by
          have := (himg.headers j (by omega)).2
          rw [List.getElem?_eq_getElem hj, hqj] at this
          exact (Option.some.inj this).symm
        by_cases hij : i = j
        · subst hij
          subst hqj'
          exact not_covers_last hv hload hfit hpg hc
        · subst hqj'
          exact hapart.segments i hi j (by omega) hij hload hqload _ htouch
            (touches_of_covers (hloaded _ hq hqload).1 hqload hpg hc)
      · rw [phdrPages, if_neg hqload] at hpg
        cases hpg
    · rw [List.mem_singleton.1 hpg] at hc
      obtain ⟨va', hpage, h1, h2⟩ := htouch
      exact hapart.stack i hi hload ⟨va', hpage.trans hc, h1, h2⟩

end

end Main

/-- Let `load` return true in a state where the base page map maps no user address. If nothing is
lost in the conversions to narrow types, the process sees the image that the file asks for; if the
segments share no page, it sees it only then. -/
theorem load_image {w : World} (hw : Reach w)
    (hbase : ∀ va, isUserVaddr va →
      pml4GetPage w.machine.basePml4 va w.machine = .ok (none, w.machine))
    {exe : Executable} {frame : IntrFrame} {res : Loaded} {s : Machine}
    (hload : load (some exe) frame w.machine = .ok (res, s)) (hok : res.success = true) :
    ∃ pml4, res.pml4 = some pml4 ∧
      (Exact exe → ImageCorrect exe res.phdrs pml4 s) ∧
      (PagesApart exe → (ImageCorrect exe res.phdrs pml4 s ↔ Exact exe)) := by
  obtain ⟨own, rb, hinv⟩ := reach_mapsInv hw
  obtain ⟨own', hpost⟩ := wp_of_eq_ok (wp_load hinv.base (some exe) frame) hload
  obtain ⟨e, r, ⟨⟩, hpml4, hholds, hloaded, hfrom, hofs⟩ := hpost.image hok
  have hnone : ∀ va, isUserVaddr va → mapped (translate w.machine.mem 3 rb va) va = none := by
    intro va hu
    have hget := hbase va hu
    rw [hinv.base.base, pml4GetPage_eq hinv.base.tables hinv.base.root hu] at hget
    simpa using hget
  have hlen : res.phdrs.length = exe.ehdr.phnum := by
    rw [hfrom.1, List.length_map, List.length_range]
  have hforward : Exact exe → ImageCorrect exe res.phdrs (kva r) s := by
    rintro ⟨hphoff, hfit⟩
    obtain ⟨hphdrs, hin⟩ := headers_of_exact hfrom hofs hphoff
    exact imageCorrect_of_exact hholds hnone hloaded hphdrs hin hfit
  refine ⟨kva r, hpml4, hforward, fun hapart => ⟨?_, hforward⟩⟩
  exact exact_of_imageCorrect hholds hnone hloaded hlen hapart

/-- After `paging_init` the base page map maps no user address. -/
theorem boot_base_unmapped {memEnd textStart textEnd : Nat} (hmem : kernBase + memEnd ≤ 2 ^ 48)
    {m : Machine} {w : World} (hboot : boot memEnd textStart textEnd m = some w)
    (hu : isUserVaddr va) :
    pml4GetPage w.machine.basePml4 va w.machine = .ok (none, w.machine) := by
  obtain ⟨rb, own, h⟩ := boot_inv hmem hboot
  rw [h.base, pml4GetPage_eq h.tables h.root hu, h.user va hu]
  rfl

/-- What `load` leaves in the machine `bootedForty`. -/
def loadSample (exe : Executable) : Option (Loaded × Machine) :=
  (load (some exe) ⟨0, 0⟩ bootedForty.machine).toOption

theorem load_eq_of_sample {res : Loaded} {s : Machine} (h : loadSample exe = some (res, s)) :
    load (some exe) ⟨0, 0⟩ bootedForty.machine = .ok (res, s) := by
  rw [loadSample] at h
  cases hl : load (some exe) ⟨0, 0⟩ bootedForty.machine with
  | error e =>
    rw [hl] at h
    cases h
  | ok p =>
    rw [hl] at h
    cases h
    rfl

/-- A segment of 5000 bytes, the first 120 of them from the file. -/
theorem load_image_sample :
    ∃ res s pml4, load (some (sampleExe 7 0 0x400000 120 5000)) ⟨0, 0⟩ bootedForty.machine =
        .ok (res, s) ∧ res.success = true ∧ res.pml4 = some pml4 ∧
      ImageCorrect (sampleExe 7 0 0x400000 120 5000) res.phdrs pml4 s := by
  obtain ⟨⟨res, s⟩, hsample, hok⟩ := Option.map_eq_some_iff.1
    (show (loadSample (sampleExe 7 0 0x400000 120 5000)).map (fun r => r.1.success) = some true by
      decide +kernel)
  have hload := load_eq_of_sample hsample
  obtain ⟨pml4, hpml4, himage, -⟩ := load_image reach_bootedForty
    (fun va hu => boot_base_unmapped (by decide) bootedForty_eq hu) hload hok
  exact ⟨res, s, pml4, hload, hok, hpml4, himage (by decide +kernel)⟩

/-- A segment of `2 ^ 32` zero bytes is accepted, and none of it is mapped. -/
theorem lost_segment :
    ∃ res s pml4, load (some (sampleExe 7 0 0x400000 0 (2 ^ 32))) ⟨0, 0⟩ bootedForty.machine =
        .ok (res, s) ∧ res.success = true ∧ res.pml4 = some pml4 ∧
      ¬ ImageCorrect (sampleExe 7 0 0x400000 0 (2 ^ 32)) res.phdrs pml4 s := by
  obtain ⟨⟨res, s⟩, hsample, hres⟩ := Option.map_eq_some_iff.1
    (show (loadSample (sampleExe 7 0 0x400000 0 (2 ^ 32))).map (fun r => (r.1.success, r.1.pml4,
        r.1.phdrs, (pml4GetPage 0x8004004000 0x400000 r.2).toOption.map Prod.fst)) =
      some (true, some 0x8004004000, [phdr (sampleExe 7 0 0x400000 0 (2 ^ 32)) 0], some none) by
      decide +kernel)
  simp only [Prod.mk.injEq] at hres
  obtain ⟨hok, hpml4, hphdrs, hget⟩ := hres
  refine ⟨res, s, 0x8004004000, load_eq_of_sample hsample, hok, hpml4, ?_⟩
  intro himage
  rw [hphdrs] at himage
  obtain ⟨a, pte, hsome, -⟩ := himage.segments _ (List.mem_singleton_self _) (by decide +kernel)
    0x400000 (by decide +kernel) (by decide +kernel)
  rw [hsome] at hget
  cases hget

end Pintos.Userprog.LoadImage
