import Pintos.Threads.Isolation
import Pintos.Userprog.LoadSpec

/-!
# Loading in a running kernel

The states in which `load` is called: after `paging_init`, calls that make and change page maps and
loads of any executables, with other activity in between (`Reach`). The other activity is everything
else that runs on the machine: user programs write their pages, the kernel allocates and frees
pages, processes exit and their maps are given up. All that is asked of it is that it leaves alone
the tables of the maps still in use.

In all these states the loader returns, whatever the executable holds (`load_returns`).
-/

set_option autoImplicit false

namespace Pintos.Userprog.Processes

open Lib.StateExcept Lib.ByteMemory
open Threads.Vaddr Threads.Palloc Threads.Mmu
open Threads.PageTables Threads.PageMap
open Threads.Isolation
open Elf Userprog.Load SegmentCounters
open Userprog.Image LoadSpec

/-! ## Reachable states -/

/-- From `w`, other activity leads to the machine `s` with the maps `maps` still in use. -/
structure Undisturbed (w : World) (s : Machine) (maps : List Nat) : Prop where
  still : maps ⊆ w.maps
  base : s.basePml4 = w.machine.basePml4
  pool : s.poolOf = w.machine.poolOf
  tables : ∀ d f, TableOf w.machine maps d f → s.used f = true ∧ SamePage w.machine.mem s.mem f

/-- The worlds of a running kernel. -/
inductive Reach : World → Prop where
  | boot {memEnd textStart textEnd : Nat} {s : Machine} {w : World} :
      kernBase + memEnd ≤ 2 ^ 48 → boot memEnd textStart textEnd s = some w → Reach w
  | call {w w' : World} {op : Op} : Reach w → step w op = some w' → Reach w'
  | load {w : World} {exe : Option Executable} {frame : IntrFrame} {res : Loaded} {s : Machine} :
      Reach w → load exe frame w.machine = .ok (res, s) → Reach ⟨s, res.pml4.toList ++ w.maps⟩
  | other {w : World} {s : Machine} {maps : List Nat} :
      Reach w → Undisturbed w s maps → Reach ⟨s, maps⟩

/-- The base page map is a tree of tables, and every map has a labelled top level. -/
structure MapsInv (own : Frame → Option Label) (rb : Frame) (w : World) : Prop where
  base : BaseMap none own rb w.machine
  maps : ∀ p ∈ w.maps, ∃ r, p = kva r ∧ own r = some ⟨some p, 3, 0⟩

section Steps

variable {own own' : Frame → Option Label} {rb : Frame} {w w' : World} {s : Machine}
  {maps : List Nat} {f : Frame}

/-- Labels that are kept keep the maps. -/
theorem MapsInv.grow (h : MapsInv own rb w) (ht : Tables own' s)
    (hkeep : ∀ f l, own f = some l → own' f = some l) (hbase : s.basePml4 = w.machine.basePml4) :
    MapsInv own' rb ⟨s, w.maps⟩ where
  base := h.base.grow ht hkeep hbase
  maps := by
    intro p hp
    obtain ⟨r, hr, hl⟩ := h.maps p hp
    exact ⟨r, hr, hkeep r _ hl⟩

theorem MapsInv.noTrace (h : MapsInv own rb w) (hs : NoTrace w.machine s) :
    MapsInv own rb ⟨s, w.maps⟩ :=
  h.grow (hs.tables h.base.tables) (fun _ _ hl => hl) hs.base

/-- Reached tables are labelled with their depth. -/
theorem tableOf_label (h : MapsInv own rb w) (hmaps : maps ⊆ w.maps) {d : Nat}
    (hf : TableOf w.machine maps d f) : ∃ o k, own f = some ⟨o, d, k⟩ := by
  induction hf with
  | root hroot =>
    rcases hroot with hbase | hmap
    · have hrb := kva_injective (h.base.base.symm.trans hbase)
      exact ⟨none, 0, hrb ▸ h.base.root⟩
    · obtain ⟨r, hr, hl⟩ := h.maps _ (hmaps hmap)
      obtain rfl := kva_injective hr
      exact ⟨_, 0, hl⟩
  | child _ hi htarget ih =>
    obtain ⟨o, k, hk⟩ := ih
    obtain ⟨o', hown, -⟩ := h.base.tables.child_of_target hk hi htarget
    exact ⟨o', _, hown⟩

open Classical in
/-- The labels of the tables that can still be reached. -/
noncomputable def reached (own : Frame → Option Label) (s : Machine) (maps : List Nat) :
    Frame → Option Label :=
  fun f => if ∃ d, TableOf s maps d f then own f else none

theorem reached_eq {d : Nat} (hf : TableOf s maps d f) :
    reached own s maps f = own f := if_pos ⟨d, hf⟩

theorem tableOf_of_reached (h : MapsInv own rb w) (hmaps : maps ⊆ w.maps) {l : Label}
    (hl : reached own w.machine maps f = some l) :
    own f = some l ∧ TableOf w.machine maps l.depth f := by
  by_cases hf : ∃ d, TableOf w.machine maps d f
  · obtain ⟨d, hd⟩ := hf
    rw [reached_eq hd] at hl
    obtain ⟨o, k, hk⟩ := tableOf_label h hmaps hd
    rw [hl] at hk
    cases hk
    exact ⟨hl, hd⟩
  · rw [reached, if_neg hf] at hl
    cases hl

/-- Other activity keeps the tables in use: the labels of what is no longer reached are dropped. -/
theorem MapsInv.undisturbed (h : MapsInv own rb w) (hs : Undisturbed w s maps) :
    MapsInv (reached own w.machine maps) rb ⟨s, maps⟩ := by
  have hrb : TableOf w.machine maps 3 rb := .root (Or.inl h.base.base)
  refine ⟨⟨⟨?_, ?_⟩, (reached_eq hrb).trans h.base.root, hs.base.trans h.base.base⟩, ?_⟩
  · intro f l hl
    obtain ⟨hown, hf⟩ := tableOf_of_reached h hs.still hl
    refine ⟨(hs.tables _ f hf).1, ?_⟩
    rw [hs.pool]
    exact (h.base.tables.used f l hown).2
  · intro f o d k hl i hi
    obtain ⟨hown, hf⟩ := tableOf_of_reached h hs.still hl
    rw [(hs.tables _ f hf).2.entry hi]
    rcases h.base.tables.child f o d k hown i hi with h0 | ⟨g, o', hg, hgown, hco⟩
    · exact Or.inl h0
    · exact Or.inr ⟨g, o', hg, (reached_eq (.child hf hi hg)).trans hgown, hco⟩
  · intro p hp
    obtain ⟨r, rfl, hl⟩ := h.maps p (hs.still hp)
    exact ⟨r, rfl, (reached_eq (.root (Or.inr hp))).trans hl⟩

theorem MapsInv.newMap (h : MapsInv own rb w) {g : Frame}
    (hpool : w.machine.poolOf g = some .kernel) (hfree : w.machine.used g = false) :
    MapsInv (labelMap own g) rb ⟨Threads.PageMap.newMap w.machine g, kva g :: w.maps⟩ := by
  have hgrow := h.grow (s := Threads.PageMap.newMap w.machine g)
    (newMap_tables h.base.tables h.base.root h.base.base hpool hfree)
    (labelMap_keeps h.base.tables hfree) rfl
  refine ⟨hgrow.base, ?_⟩
  intro q hq
  rcases List.mem_cons.1 hq with rfl | hq
  · exact ⟨g, rfl, Function.update_self ..⟩
  · exact hgrow.maps q hq

/-- Calls keep the invariant, whatever addresses they are given. -/
theorem step_mapsInv {op : Op} (h : MapsInv own rb w) (hw : step w op = some w') :
    ∃ own', MapsInv own' rb w' := by
  cases step_effect id h.base.tables h.maps hw with
  | noTrace hnt => exact ⟨own, h.noTrace hnt⟩
  | create hpool hfree => exact ⟨_, h.newMap hpool hfree⟩
  | setPage _ hst => exact ⟨_, h.grow hst.tables hst.keeps hst.base⟩
  | clearPage _ _ _ _ hst => exact ⟨_, h.grow hst.tables hst.keeps hst.base⟩

theorem load_mapsInv {exe : Option Executable} {frame : IntrFrame} {res : Loaded}
    (h : MapsInv own rb w) (hload : load exe frame w.machine = .ok (res, s)) :
    ∃ own', MapsInv own' rb ⟨s, res.pml4.toList ++ w.maps⟩ := by
  obtain ⟨own', hpost⟩ := wp_of_eq_ok (wp_load h.base exe frame) hload
  refine ⟨own', hpost.base, ?_⟩
  intro p hp
  rcases List.mem_append.1 hp with hp | hp
  · exact hpost.map p (Option.mem_toList.1 hp)
  · obtain ⟨r, hr, hl⟩ := h.maps p hp
    exact ⟨r, hr, hpost.keeps r _ hl⟩

end Steps

/-- In every reachable state the base page map and the maps in use are made of tables. -/
theorem reach_mapsInv {w : World} (hw : Reach w) : ∃ own rb, MapsInv own rb w := by
  induction hw with
  | boot hmem hboot =>
    obtain ⟨rb, own, h⟩ := boot_inv hmem hboot
    exact ⟨own, rb, h.toBaseMap, h.labelled⟩
  | call _ hstep ih =>
    obtain ⟨own, rb, h⟩ := ih
    obtain ⟨own', h'⟩ := step_mapsInv h hstep
    exact ⟨own', rb, h'⟩
  | load _ hload ih =>
    obtain ⟨own, rb, h⟩ := ih
    obtain ⟨own', h'⟩ := load_mapsInv h hload
    exact ⟨own', rb, h'⟩
  | other _ hother ih =>
    obtain ⟨own, rb, h⟩ := ih
    exact ⟨_, rb, h.undisturbed hother⟩

/-! ## A sample executable -/

/-- The bytes of numbers, each given with its width in bytes. -/
def fieldsLE (l : List (Nat × Nat)) : List UInt8 := l.flatMap fun field => bytesLE field.1 field.2

theorem length_fieldsLE (l : List (Nat × Nat)) : (fieldsLE l).length = (l.map Prod.fst).sum := by
  simp only [fieldsLE, List.length_flatMap, length_bytesLE]

/-- The executable header, for one program header that follows it. -/
def sampleEhdr : List (Nat × Nat) :=
  [(8, 0x00010102464c457f), (8, 0), (2, 2), (2, 0x3e), (4, 1), (8, 0x400000),
    (8, 64), (8, 0), (4, 0), (2, 64), (2, 56), (2, 1), (2, 0), (2, 0), (2, 0)]

/-- An executable with one loadable segment. -/
def sampleExe (flags offset vaddr filesz memsz : Nat) : Executable where
  bytes := fieldsLE (sampleEhdr ++ [(4, ptLoad), (4, flags), (8, offset), (8, vaddr), (8, vaddr),
    (8, filesz), (8, memsz), (8, 4096)])
  length_lt := by
    rw [length_fieldsLE, List.map_append]
    show ([8, 8, 2, 2, 4, 8, 8, 8, 4, 2, 2, 2, 2, 2, 2] ++ [4, 4, 8, 8, 8, 8, 8, 8]).sum < 2 ^ 31
    decide

/-- Twenty pages of the kernel pool and twenty of the user pool, found in the order in which booting
and loading a two-page segment ask for them. -/
def fortyPages : Machine where
  mem := fun _ => 0
  poolOf := fun f => if f.val < 20 then some .kernel else if f.val < 40 then some .user else none
  used := fun _ => false
  answers := ([0, 1, 2, 3, 4, 20, 5, 6, 7, 21, 22, 8, 9] : List (Fin 40)).map
    fun i => some (Fin.castLE (by decide) i)
  basePml4 := 0

/-- The world after `paging_init` for one page of memory. -/
def bootedForty : World := (boot 0x1000 0 0 fortyPages).get (by decide +kernel)

theorem bootedForty_eq : boot 0x1000 0 0 fortyPages = some bootedForty := (Option.some_get _).symm

theorem reach_bootedForty : Reach bootedForty := .boot (by decide) bootedForty_eq

/-! ## The loader never panics -/

/-- Whatever the executable holds, `load` returns: no assertion fails and no loop runs forever. For
every segment that `validate_segment` lets pass, the counters of the page loop never wrap and are 0
after finitely many pages. -/
theorem load_returns {w : World} (hw : Reach w) (exe : Option Executable) (frame : IntrFrame) :
    (∃ res s, load exe frame w.machine = .ok (res, s)) ∧
    ∀ (phdr : Phdr) (file : File), validateSegment phdr file = true →
      ∃ n, Counters.advance^[n] (segmentCounters phdr) = ⟨0, 0⟩ ∧ ∀ k < n,
        (Counters.advance^[k] (segmentCounters phdr)).pageReadBytes ≤
          (Counters.advance^[k] (segmentCounters phdr)).readBytes ∧
        (Counters.advance^[k] (segmentCounters phdr)).pageZeroBytes ≤
          (Counters.advance^[k] (segmentCounters phdr)).zeroBytes := by
  constructor
  · obtain ⟨own, rb, h⟩ := reach_mapsInv hw
    obtain ⟨res, s, hload, -⟩ := wp_load h.base exe frame
    exact ⟨res, s, hload⟩
  · intro phdr file hval
    have hwhole := segmentCounters_whole (validSegment_of_validate hval)
    have hpages := hwhole.pages
    exact ⟨((segmentCounters phdr).readBytes + (segmentCounters phdr).zeroBytes) / 4096,
      advance_iterate hwhole (by omega)⟩

theorem load_returns_sample :
    ∃ res s, load (some (sampleExe 7 0 0x400000 120 5000)) ⟨0, 0⟩ bootedForty.machine =
      .ok (res, s) :=
  (load_returns reach_bootedForty (some (sampleExe 7 0 0x400000 120 5000)) ⟨0, 0⟩).1

end Pintos.Userprog.Processes
