import Pintos.Userprog.Image

/-!
# The loader's functions as steps on the image

One specification for each function of the loader, from the page loop up to `load`. All of them say
that the function returns, so that none of its assertions fails; where it succeeds, they say by
which pages the image has grown.
-/

set_option autoImplicit false

namespace Pintos.Userprog.LoadSpec

open Lib.StateExcept Lib.ByteMemory List
open Threads.Vaddr Threads.Palloc
open Threads.PageTables Threads.PageWalk Threads.PageMap
open Elf Userprog.Load SegmentCounters
open Userprog.Image

/-! ## The pages of a segment -/

/-- Page `j` of a segment read from the offset `pos` and mapped from `upage` on. -/
def segmentPage (exe : Executable) (w : Bool) (pos upage readBytes j : Nat) : ImagePage where
  upage := upage + 4096 * j
  writable := w
  bytes := fun i => if 4096 * j + i < readBytes then exe.byte (pos + (4096 * j + i)) else 0

/-- The pages that the page loop maps. -/
def segmentPages (exe : Executable) (w : Bool) (pos upage : Nat) (c : Counters) : List ImagePage :=
  (List.range ((c.readBytes + c.zeroBytes) / 4096)).map (segmentPage exe w pos upage c.readBytes)

variable {c : Counters} {phdrs : List Phdr}

/-- The first page, and the pages from the advanced counters. -/
theorem segmentPages_step (exe : Executable) (w : Bool) (pos upage : Nat) (h : Whole c)
    (hc : c.readBytes > 0 ∨ c.zeroBytes > 0) :
    segmentPages exe w pos upage c = segmentPage exe w pos upage c.readBytes 0 ::
      segmentPages exe w (pos + c.pageReadBytes) (upage + 4096) c.advance := by
  have hup : ∀ j, upage + 4096 * (j + 1) = upage + 4096 + 4096 * j := fun j => by omega
  obtain ⟨hread, -, -, hr', hsum⟩ := advance_spec h hc
  have hn : (c.readBytes + c.zeroBytes) / 4096 =
      (c.advance.readBytes + c.advance.zeroBytes) / 4096 + 1 := by omega
  rw [segmentPages, segmentPages, hn, range_succ_eq_map, map_cons, map_map]
  congr 1
  apply map_congr_left
  intro j _
  apply ImagePage.ext
  · exact hup j
  · rfl
  show (fun i => if 4096 * (j + 1) + i < c.readBytes then
      exe.byte (pos + (4096 * (j + 1) + i)) else 0) =
    fun i => if 4096 * j + i < c.advance.readBytes then
      exe.byte (pos + c.pageReadBytes + (4096 * j + i)) else 0
  funext i
  by_cases hbig : c.readBytes < 4096
  · -- the file part ends in the first page
    rw [if_neg (by omega), if_neg (by omega)]
  · have hpr : c.pageReadBytes = 4096 := by
      rw [pageReadBytes_eq]
      omega
    by_cases hi : 4096 * (j + 1) + i < c.readBytes
    · rw [if_pos hi, if_pos (by omega)]
      congr 1
      omega
    · rw [if_neg hi, if_neg (by omega)]

/-! ## The page loop -/

section Loop

variable {own₀ own : Frame → Option Label} {rb r : Frame} {t : Nat → Nat} {img : List ImagePage}
  {s : Machine} {upage n : Nat} {exe : Executable}

/-- A taken page of the user pool with any content that leaves the other pages alone. -/
theorem filled_of_mem {f : Frame} (hpool : s.poolOf f = some .user) (hfree : s.used f = false)
    (flags : PallocFlags) {m : Bytes} (hm : ∀ g, g ≠ f → SamePage s.mem m g)
    {bytes : Nat → UInt8} (hb : ∀ i < 4096, m (kva f + i) = bytes i) :
    Filled s { s.take flags f with mem := m } f bytes :=
  ⟨hfree, hpool, rfl, rfl, rfl, hm, hb⟩

theorem wp_loadPage (h : Holds own₀ own rb r t img s) (hua : upage % 4096 = 0)
    (hu : isUserVaddr upage) (w : Bool) (file : File) (c : Counters) :
    wp (loadPage (kva r) w file upage c) s fun res s' => (res = none ∧ NoTrace s s') ∨
      ((fileRead file c.pageReadBytes).1 = c.pageReadBytes ∧
        res = some { file with pos := file.pos + c.pageReadBytes } ∧ ∃ own',
        Holds own₀ own' rb r t
          (img ++ [segmentPage file.exe w file.pos upage c.readBytes 0]) s') := by
  rw [loadPage, wp_bind]
  apply wp_pallocGetPage rfl
  · intro f hpool hfree
    have hahead : ∀ n g, n ≤ 4096 → g ≠ f →
        SamePage s.mem (patch s.mem (kva f) n file.ahead) g :=
      fun n g hn hg => samePage_patch le_rfl (by omega) hg
    have hpr := pageReadBytes_eq c
    have hle : c.pageReadBytes ≤ 4096 := by omega
    have hzero : c.pageZeroBytes = 4096 - c.pageReadBytes := rfl
    have hlt : ∀ i < 4096, i < c.pageReadBytes ↔ i < c.readBytes := fun i hi => by omega
    obtain ⟨n, hn⟩ : ∃ n, fileRead file c.pageReadBytes = (n, { file with pos := file.pos + n }) ∧
        n ≤ c.pageReadBytes := ⟨_, rfl, Nat.min_le_left _ _⟩
    simp only [wp_bind, wp_modify, hn, wp_ite, ne_eq, not_not]
    refine ⟨?_, ?_⟩
    · -- the file ended early: the page is given back
      intro hshort
      have hfill : Filled s { s.take { user := true } f with
          mem := patch s.mem (kva f) n file.ahead } f _ :=
        filled_of_mem hpool hfree _ (fun g hg => hahead _ g (by omega) hg) fun _ _ => rfl
      refine wp_free_filled hfill (noTrace_answers _ _) ?_
      intro u hu
      rw [wp_pure]
      exact .inl ⟨rfl, hu⟩
    · rintro rfl
      have hfill : Filled s { s.take { user := true } f with
          mem := fill (patch s.mem (kva f) c.pageReadBytes file.ahead)
            (kva f + c.pageReadBytes) c.pageZeroBytes 0 } f
          (segmentPage file.exe w file.pos upage c.readBytes 0).bytes := by
        apply filled_of_mem hpool hfree
        · exact fun g hg => (hahead _ g hle hg).trans (samePage_patch (by omega) (by omega) hg)
        · intro i hi
          simp only [segmentPage, mul_zero, zero_add, ← hlt i hi]
          by_cases hir : i < c.pageReadBytes
          · rw [if_pos hir, fill, patch_outside (by omega), patch_inside (by omega) (by omega)]
            simp [File.ahead]
          · rw [if_neg hir, fill, patch_inside (by omega) (by omega)]
      refine wp_mono (wp_install_filled h hfill hua hu w) ?_
      rintro ok s' (⟨rfl, hs⟩ | ⟨rfl, hs⟩)
      · refine ⟨fun h => absurd h (by simp), fun _ => wp_free_filled hfill hs ?_⟩
        intro u hu
        rw [wp_pure]
        exact .inl ⟨rfl, hu⟩
      · refine ⟨fun _ => ?_, fun h => absurd rfl h⟩
        rw [wp_pure]
        exact .inr ⟨rfl, rfl, hs⟩
  · rw [wp_pure]
    exact .inl ⟨rfl, noTrace_answers s _⟩

/-- The page loop returns; where it succeeds, the file held all the bytes to read and the image has
grown by the pages of the segment. -/
theorem wp_loadPages (w : Bool) : ∀ {own : Frame → Option Label} {img : List ImagePage}
    {s : Machine} {upage : Nat} {c : Counters} {fuel : Nat} {file : File},
    Holds own₀ own rb r t img s → Whole c → c.readBytes + c.zeroBytes = 4096 * n →
      upage % 4096 = 0 →
    upage + 4096 * n ≤ kernBase → n < fuel →
    wp (loadPages (kva r) w fuel file upage c) s fun ok s' => ∃ own' img',
      Holds own₀ own' rb r t img' s' ∧ (ok = true →
        (c.readBytes = 0 ∨ file.pos + c.readBytes ≤ file.exe.bytes.length) ∧
        img' = img ++ segmentPages file.exe w file.pos upage c) := by
  induction n with
  | zero =>
    intro own img s upage c fuel file h hw hn hua hu hfuel
    obtain ⟨fuel, rfl⟩ : ∃ k, fuel = k + 1 := ⟨fuel - 1, by omega⟩
    rw [loadPages, if_neg (by omega), wp_pure]
    refine ⟨own, img, h, fun _ => ⟨.inl (by omega), ?_⟩⟩
    rw [segmentPages, hn]
    simp
  | succ n ih =>
    intro own img s upage c fuel file h hw hn hua hu hfuel
    obtain ⟨fuel, rfl⟩ : ∃ k, fuel = k + 1 := ⟨fuel - 1, by omega⟩
    have hc : c.readBytes > 0 ∨ c.zeroBytes > 0 := by omega
    obtain ⟨-, -, hw', hr', hsum⟩ := advance_spec hw hc
    have huser : isUserVaddr upage := by
      rw [isUserVaddr_iff]
      simp only [kernBase] at hu
      omega
    rw [loadPages, if_pos hc, wp_bind]
    refine wp_mono (wp_loadPage h hua huser w file c) ?_
    rintro res s' (⟨rfl, hs⟩ | ⟨hread, rfl, own', h'⟩)
    · rw [wp_pure]
      exact ⟨own, img, h.noTrace hs, fun hok => by cases hok⟩
    · refine wp_mono (ih h' hw' (by omega) (by simp only [pgSize]; omega)
        (by simp only [pgSize]; omega) (by omega)) ?_
      rintro ok s'' ⟨own'', img'', h'', hok⟩
      refine ⟨own'', img'', h'', fun htrue => ?_⟩
      obtain ⟨hfile, himg⟩ := hok htrue
      constructor
      · have hfull := fileRead_full hread
        simp only at hfile
        rw [pageReadBytes_eq c] at hfull hfile
        omega
      · rw [himg, segmentPages_step file.exe w file.pos upage hw hc, append_assoc]
        rfl

/-! ## Segments and the stack -/

theorem wp_loadSegment (h : Holds own₀ own rb r t img s) (w : Bool) (hw : Whole c) {pos : Nat}
    (hpos : pos % 4096 = 0) (hua : upage % 4096 = 0)
    (hu : upage + (c.readBytes + c.zeroBytes) ≤ kernBase) (file : File) :
    wp (loadSegment (kva r) file pos upage c w) s fun ok s' => ∃ own' img',
      Holds own₀ own' rb r t img' s' ∧ (ok = true →
        (c.readBytes = 0 ∨ pos + c.readBytes ≤ file.exe.bytes.length) ∧
        img' = img ++ segmentPages file.exe w pos upage c) := by
  have hpage := hw.pages
  have hsize : (c.readBytes + c.zeroBytes) % 2 ^ 32 % pgSize = 0 := by
    have hpg : pgSize = 4096 := rfl
    rw [hpg]
    omega
  have hmod : (pos : Int).tmod pgSize = 0 := by
    have hpg : pgSize = 4096 := rfl
    rw [hpg, Int.tmod_eq_emod_of_nonneg (by omega)]
    omega
  rw [loadSegment]
  simp only [wp_bind, wp_check, wp_fileSeek]
  refine ⟨hsize, by rw [pgOfs_eq]; exact hua, hmod, by omega, ?_⟩
  exact wp_loadPages (n := (c.readBytes + c.zeroBytes) / 4096) w h hw (by omega) hua (by omega)
    (by omega)

/-- The pages that the loader maps for a program header. -/
def phdrPages (exe : Executable) (p : Phdr) : List ImagePage :=
  if p.type = ptLoad then
    segmentPages exe (p.flags &&& pfW ≠ 0) (p.offset - p.offset % 4096)
      (p.vaddr - p.vaddr % 4096) (segmentCounters p)
  else []

/-- A loadable header that has been loaded was valid, and the file held the bytes it was read
from. -/
def PhdrLoaded (exe : Executable) (p : Phdr) : Prop :=
  p.type = ptLoad → ValidSegment p exe.bytes.length ∧
    ((segmentCounters p).readBytes = 0 ∨
      p.offset - p.offset % 4096 + (segmentCounters p).readBytes ≤ exe.bytes.length)

theorem wp_loadPhdr (h : Holds own₀ own rb r t img s) (p : Phdr) (file : File) :
    wp (loadPhdr (kva r) p file) s fun ok s' => ∃ own' img', Holds own₀ own' rb r t img' s' ∧
      (ok = true → PhdrLoaded file.exe p ∧ img' = img ++ phdrPages file.exe p) := by
  rw [loadPhdr]
  by_cases hbad : p.type = ptDynamic ∨ p.type = ptInterp ∨ p.type = ptShlib
  · rw [if_pos hbad, wp_pure]
    exact ⟨own, img, h, fun hok => by cases hok⟩
  rw [if_neg hbad]
  by_cases hload : p.type = ptLoad
  · rw [if_pos hload]
    by_cases hval : validateSegment p file = true
    · have hv := validSegment_of_validate hval
      have hw := segmentCounters_whole hv
      have hle := segmentCounters_le hv
      have huser := span_user hv
      have hfit : p.offset - p.offset % 4096 < 2 ^ 31 := by
        have h1 := hv.inside
        have h2 := file.exe.length_lt
        omega
      have hofs : toOff ((p.offset &&& 0xfffffffffffff000 : Nat) : Int) =
          ((p.offset - p.offset % 4096 : Nat) : Int) := by
        rw [and_high_bits p.offset_lt]
        exact toOff_of_lt (by omega) (by omega)
      rw [if_pos hval]
      simp only [hofs, and_high_bits p.vaddr_lt]
      refine wp_mono (wp_loadSegment h _ hw (by omega) (by omega) (by omega) file) ?_
      rintro ok s' ⟨own', img', h', hok⟩
      refine ⟨own', img', h', fun htrue => ?_⟩
      obtain ⟨hfile, himg⟩ := hok htrue
      refine ⟨fun _ => ⟨hv, hfile⟩, ?_⟩
      rw [himg, phdrPages, if_pos hload]
    · rw [if_neg hval, wp_pure]
      exact ⟨own, img, h, fun hok => by cases hok⟩
  · rw [if_neg hload, wp_pure]
    refine ⟨own, img, h, fun _ => ⟨fun hp => absurd hp hload, ?_⟩⟩
    rw [phdrPages, if_neg hload, append_nil]

/-- The stack page. -/
def stackPage : ImagePage := ⟨userStack - 4096, true, fun _ => 0⟩

theorem wp_setupStack (h : Holds own₀ own rb r t img s) :
    wp (setupStack (kva r)) s fun ok s' => ∃ own' img', Holds own₀ own' rb r t img' s' ∧
      (ok = true → img' = img ++ [stackPage]) := by
  rw [setupStack, wp_bind]
  apply wp_pallocGetPage rfl
  · intro f hpool hfree
    have hfill : Filled s (s.take { user := true, zero := true } f) f stackPage.bytes := by
      refine filled_of_mem (m := fill s.mem (kva f) 4096 0) hpool hfree
        { user := true, zero := true } ?_ ?_
      · exact fun g hg => samePage_page hg
      · exact fun i hi => patch_inside (by omega) (by omega)
    rw [wp_bind]
    refine wp_mono (wp_install_filled h hfill (by decide) (by decide) true) ?_
    rintro ok s' (⟨rfl, hs⟩ | ⟨rfl, own', h'⟩)
    · simp only [Bool.not_false, if_true, wp_bind]
      refine wp_free_filled hfill hs ?_
      intro u hu
      rw [wp_pure]
      exact ⟨own, img, h.noTrace hu, fun hok => by cases hok⟩
    · simp only [Bool.not_true, Bool.false_eq_true, if_false, wp_pure]
      exact ⟨own', _, h', fun _ => rfl⟩
  · rw [wp_pure]
    exact ⟨own, img, h.noTrace (noTrace_answers s _), fun hok => by cases hok⟩

/-! ## The header loop -/

/-- The headers are those stored one after the other from the offset `ofs` on. -/
def PhdrsFrom (exe : Executable) (ofs n : Nat) (phdrs : List Phdr) : Prop :=
  phdrs = (List.range n).map (fun i => exe.phdrAt (ofs + phdrSize * i)) ∧
    (n = 0 ∨ ofs + phdrSize * n ≤ exe.bytes.length)

theorem PhdrsFrom.cons {ofs : Nat} (h : PhdrsFrom exe (ofs + phdrSize) n phdrs)
    (hofs : ofs + phdrSize ≤ exe.bytes.length) :
    PhdrsFrom exe ofs (n + 1) (exe.phdrAt ofs :: phdrs) := by
  obtain ⟨rfl, hlen⟩ := h
  constructor
  · rw [range_succ_eq_map, map_cons, map_map, mul_zero, add_zero]
    congr 1
    apply map_congr_left
    intro i _
    show exe.phdrAt (ofs + phdrSize + phdrSize * i) = exe.phdrAt (ofs + phdrSize * (i + 1))
    congr 1
    ring
  · simp only [phdrSize] at hlen hofs ⊢
    omega

theorem wp_loadPhdrs : ∀ {own : Frame → Option Label}
    {img : List ImagePage} {s : Machine} {ofs : Int} {file : File}, file.exe = exe →
    Holds own₀ own rb r t img s →
    wp (loadPhdrs (kva r) file n ofs) s fun res s' => ∃ own' img', Holds own₀ own' rb r t img' s' ∧
      ∀ phdrs, res = some phdrs → img' = img ++ phdrs.flatMap (phdrPages exe) ∧
        (∀ p ∈ phdrs, PhdrLoaded exe p) ∧ PhdrsFrom exe ofs.toNat n phdrs ∧ (n = 0 ∨ 0 ≤ ofs) := by
  induction n with
  | zero =>
    intro own img s ofs file hexe h
    rw [loadPhdrs, wp_pure]
    refine ⟨own, img, h, ?_⟩
    simp [PhdrsFrom]
  | succ n ih =>
    intro own img s ofs file hexe h
    have hfail : ∃ own' img', Holds own₀ own' rb r t img' s ∧ ∀ phdrs, none = some phdrs →
        img' = img ++ phdrs.flatMap (phdrPages exe) ∧ (∀ p ∈ phdrs, PhdrLoaded exe p) ∧
          PhdrsFrom exe ofs.toNat (n + 1) phdrs ∧ (n + 1 = 0 ∨ 0 ≤ ofs) :=
      ⟨own, img, h, fun _ hno => by cases hno⟩
    rw [loadPhdrs]
    by_cases hout : ofs < 0 ∨ ofs > fileLength file
    · rw [if_pos hout, wp_pure]
      exact hfail
    rw [if_neg hout]
    simp only [wp_bind, wp_fileSeek]
    refine ⟨by omega, ?_⟩
    obtain ⟨m, hm⟩ : ∃ m, fileRead { file with pos := ofs.toNat } phdrSize =
        (m, { file with pos := ofs.toNat + m }) := ⟨_, rfl⟩
    simp only [hm, wp_ite, ne_eq, not_not, wp_pure]
    refine ⟨fun _ => hfail, ?_⟩
    rintro rfl
    have hread : ofs.toNat + phdrSize ≤ exe.bytes.length := by
      have hfull : (fileRead { file with pos := ofs.toNat } phdrSize).1 = phdrSize := by rw [hm]
      rcases fileRead_full hfull with h0 | hle
      · cases h0
      · rw [← hexe]
        exact hle
    have hnext : toOff (ofs + phdrSize) = ((ofs.toNat + phdrSize : Nat) : Int) := by
      have hlt := exe.length_lt
      rw [toOff_of_lt (by omega) (by omega)]
      omega
    have hphdr : readPhdr (File.ahead { file with pos := ofs.toNat }) = exe.phdrAt ofs.toNat := by
      rw [← hexe]
      rfl
    rw [hphdr, hnext, wp_bind]
    refine wp_mono (wp_loadPhdr h (exe.phdrAt ofs.toNat)
      { file with pos := ofs.toNat + phdrSize }) ?_
    rintro ok s' ⟨own', img', h', hok⟩
    rw [hexe] at hok
    cases ok with
    | false =>
      simp only [Bool.false_eq_true, if_false, wp_pure]
      exact ⟨own', img', h', fun _ hno => by cases hno⟩
    | true =>
      obtain ⟨hloaded, rfl⟩ := hok rfl
      simp only [if_true, wp_bind]
      refine wp_mono (ih hexe h') ?_
      rintro rest s'' ⟨own'', img'', h'', hrest⟩
      rw [wp_pure]
      refine ⟨own'', img'', h'', ?_⟩
      intro phdrs hphdrs
      obtain ⟨rest', rfl, rfl⟩ := Option.map_eq_some_iff.1 hphdrs
      obtain ⟨himg, hall, hfrom, -⟩ := hrest rest' rfl
      refine ⟨?_, ?_, hfrom.cons hread, .inr (by omega)⟩
      · rw [himg, flatMap_cons, append_assoc]
      · intro p hp
        rcases mem_cons.1 hp with rfl | hp
        · exact hloaded
        · exact hall p hp

end Loop

/-! ## The loader -/

section Loader

variable {own : Frame → Option Label} {rb : Frame} {s : Machine}

/-- What `load` leaves. -/
structure LoadPost (own own' : Frame → Option Label) (rb : Frame) (s : Machine)
    (exe : Option Executable) (res : Loaded) (s' : Machine) : Prop where
  base : BaseMap none own' rb s'
  keeps : ∀ f l, own f = some l → own' f = some l
  map : ∀ p, res.pml4 = some p → ∃ r, p = kva r ∧ own' r = some ⟨some p, 3, 0⟩
  /-- Where it succeeds, the headers are those of the file's header table at the narrowed offset,
  and the new map holds their pages and the stack. -/
  image : res.success = true → ∃ e r, exe = some e ∧ res.pml4 = some (kva r) ∧
    Holds own own' rb r (translate s.mem 3 rb)
      (res.phdrs.flatMap (phdrPages e) ++ [stackPage]) s' ∧
    (∀ p ∈ res.phdrs, PhdrLoaded e p) ∧
    PhdrsFrom e (toOff e.ehdr.phoff).toNat e.ehdr.phnum res.phdrs ∧
    (e.ehdr.phnum = 0 ∨ 0 ≤ toOff e.ehdr.phoff)

/-- A load that fails after it has made the map `g`. -/
theorem loadPost_failed {own' : Frame → Option Label} {g : Frame} {t : Nat → Nat}
    {img : List ImagePage} {s' : Machine} {exe : Option Executable} {frame : IntrFrame}
    (h : Holds own own' rb g t img s') :
    LoadPost own own' rb s exe ⟨false, some (kva g), frame, phdrs⟩ s' where
  base := h.baseMap
  keeps := h.keeps
  map := by
    rintro p ⟨⟩
    exact ⟨g, rfl, h.root⟩
  image := fun hno => by cases hno

/-- **The loader returns**, with what `LoadPost` says. -/
theorem wp_load (h : BaseMap none own rb s) (exe : Option Executable) (frame : IntrFrame) :
    wp (load exe frame) s fun res s' => ∃ own', LoadPost own own' rb s exe res s' := by
  rw [load, wp_bind]
  apply wp_pml4Create
  · intro g hpool hfree
    have hnew := holds_newMap h hpool hfree
    cases exe with
    | none =>
      rw [wp_pure]
      exact ⟨_, loadPost_failed hnew⟩
    | some e =>
      obtain ⟨m, hm⟩ : ∃ m, fileRead ⟨e, 0⟩ ehdrSize = (m, ⟨e, 0 + m⟩) := ⟨_, rfl⟩
      have hahead : File.ahead ⟨e, 0⟩ = e.byte := by
        funext i
        exact congrArg e.byte (zero_add i)
      have hehdr : readEhdr (File.ahead ⟨e, 0⟩) = e.ehdr := by rw [hahead, Executable.ehdr]
      simp only [hm, hehdr, wp_ite, wp_pure]
      refine ⟨fun _ => ⟨_, loadPost_failed hnew⟩, fun _ => ?_⟩
      rw [wp_bind]
      refine wp_mono (wp_loadPhdrs (show (⟨e, 0 + m⟩ : File).exe = e from rfl) hnew) ?_
      rintro res s' ⟨own', img', h', hres⟩
      cases res with
      | none =>
        rw [wp_pure]
        exact ⟨_, loadPost_failed h'⟩
      | some phdrs =>
        obtain ⟨rfl, hall, hfrom, hofs⟩ := hres phdrs rfl
        simp only [wp_bind]
        refine wp_mono (wp_setupStack h') ?_
        rintro ok s'' ⟨own'', img'', h'', hok⟩
        cases ok with
        | false =>
          simp only [Bool.false_eq_true, if_false, wp_pure]
          exact ⟨_, loadPost_failed h''⟩
        | true =>
          obtain rfl := hok rfl
          simp only [if_true, wp_pure]
          refine ⟨own'', h''.baseMap, h''.keeps, ?_,
            fun _ => ⟨e, g, rfl, rfl, h'', hall, hfrom, hofs⟩⟩
          rintro p ⟨⟩
          exact ⟨g, rfl, h''.root⟩
  · intro s' hs
    rw [wp_pure]
    refine ⟨own, ⟨hs.tables h.tables, h.root, hs.base.trans h.base⟩, fun _ _ hl => hl, ?_, ?_⟩
    · rintro p ⟨⟩
    · exact fun hno => by cases hno

end Loader

end Pintos.Userprog.LoadSpec
