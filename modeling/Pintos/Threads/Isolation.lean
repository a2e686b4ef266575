import Pintos.Lib.Runs
import Pintos.Threads.PageMap

/-!
# Isolation of page maps

The page maps that a running kernel has made with `pml4_create`, and the calls that change them. A
`World` is a machine with the list of those maps; `step` takes one call, and is `none` where the
kernel panics.

The top level of a new map is a copy of the base page map's, so all maps share the tables below the
indices that `paging_init` filled. `KERN_BASE` is not a multiple of the `2 ^ 39` bytes that one
top-level entry covers: the user addresses from `2 ^ 39` to `KERN_BASE` go through an entry that is
shared. A call of `pml4_set_page` for such an address writes into the tables of every process
(`shared_window`). While those addresses are not mapped, a sequence of calls on one map is invisible
in every other map and in the tables of the base page map (`isolation`).
-/

set_option autoImplicit false

namespace Pintos.Threads.Isolation

open Lib.StateExcept Lib.ByteMemory Lib.Runs
open Vaddr Palloc Mmu
open PageTables PageMap

/-! ## The system -/

/-- A call that makes or changes a page map. -/
inductive Op where
  | create
  | setPage (pml4 upage kpage : Nat) (rw : Bool)
  | clearPage (pml4 upage : Nat)

/-- The machine and the page maps made so far. -/
structure World where
  machine : Machine
  maps : List Nat

/-- Take one call. -/
def step (w : World) : Op → Option World
  | .create =>
    match pml4Create w.machine with
    | .ok (some p, s) => some ⟨s, p :: w.maps⟩
    | .ok (none, s) => some ⟨s, w.maps⟩
    | .error _ => none
  | .setPage pml4 upage kpage rw =>
    if pml4 ∈ w.maps then
      match pml4SetPage pml4 upage kpage rw w.machine with
      | .ok (_, s) => some ⟨s, w.maps⟩
      | .error _ => none
    else none
  | .clearPage pml4 upage =>
    if pml4 ∈ w.maps then
      match pml4ClearPage pml4 upage w.machine with
      | .ok (_, s) => some ⟨s, w.maps⟩
      | .error _ => none
    else none

/-- The world after `paging_init`. -/
def boot (memEnd textStart textEnd : Nat) (s : Machine) : Option World :=
  match pagingInit memEnd textStart textEnd s with
  | .ok (_, s') => some ⟨s', []⟩
  | .error _ => none

/-- The call maps no page that shares its top-level entry with the kernel. -/
def Op.Low : Op → Prop
  | .setPage _ upage _ _ => pml4Index upage = 0
  | _ => True

/-- The call is on the map `pml4`. -/
def Op.On (pml4 : Nat) : Op → Prop
  | .create => False
  | .setPage p _ _ _ => p = pml4
  | .clearPage p _ => p = pml4

/-- The tables that can be reached from the base page map or from one of `maps`, with their
depth. -/
inductive TableOf (s : Machine) (maps : List Nat) : Nat → Frame → Prop where
  | root {f : Frame} : s.basePml4 = kva f ∨ kva f ∈ maps → TableOf s maps 3 f
  | child {d i : Nat} {f g : Frame} : TableOf s maps (d + 1) f → i < 512 →
      target (entry s.mem f i) = some g → TableOf s maps d g

/-- What a call does when the page maps have labelled tables: it leaves no trace, copies the base
page map into a free page, or stores a leaf entry of the map that it is on. -/
inductive Effect (own : Frame → Option Label) (owner : Nat → Nat) (w : World) :
    Op → World → Prop where
  | noTrace {op : Op} {s : Machine} : NoTrace w.machine s → Effect own owner w op ⟨s, w.maps⟩
  | create {g : Frame} : w.machine.poolOf g = some .kernel → w.machine.used g = false →
      Effect own owner w .create ⟨newMap w.machine g, kva g :: w.maps⟩
  | setPage {own' : Frame → Option Label} {r : Frame} {upage kpage v : Nat}
      {rw : Bool} {s : Machine} : own r = some ⟨some (owner (kva r)), 3, 0⟩ →
      Stored own own' w.machine s r (some (owner (kva r))) upage v →
      Effect own owner w (.setPage (kva r) upage kpage rw) ⟨s, w.maps⟩
  | clearPage {r : Frame} {upage v : Nat} {s : Machine} : kva r ∈ w.maps →
      own r = some ⟨some (owner (kva r)), 3, 0⟩ → isUserVaddr upage →
      translate w.machine.mem 3 r upage % 2 = 1 →
      Stored own own w.machine s r (some (owner (kva r))) upage v →
      Effect own owner w (.clearPage (kva r) upage) ⟨s, w.maps⟩

theorem user_lt {va : Nat} (hu : isUserVaddr va) : va < 2 ^ 48 := by
  rw [isUserVaddr_iff] at hu
  omega

theorem step_effect {own : Frame → Option Label} {w w' : World} {op : Op} (owner : Nat → Nat)
    (ht : Tables own w.machine)
    (hmaps : ∀ p ∈ w.maps, ∃ r, p = kva r ∧ own r = some ⟨some (owner p), 3, 0⟩)
    (hw : step w op = some w') : Effect own owner w op w' := by
  cases op with
  | create =>
    have hcreate : wp pml4Create w.machine fun p s =>
        Effect own owner w .create ⟨s, p.toList ++ w.maps⟩ :=
      wp_pml4Create (fun g hpool hfree => .create hpool hfree) fun s hnt => .noTrace hnt
    simp only [step] at hw
    split at hw
    · rename_i p s hrun
      cases hw
      exact wlp_of_wp hcreate _ _ hrun
    · rename_i s hrun
      cases hw
      exact wlp_of_wp hcreate _ _ hrun
    · cases hw
  | setPage p upage kpage rw =>
    simp only [step] at hw
    split at hw
    · rename_i hp
      obtain ⟨r, rfl, hl⟩ := hmaps p hp
      split at hw
      · rename_i ok s hrun
        cases hw
        obtain ⟨-, ⟨-, hnt⟩ | ⟨-, own', hst⟩⟩ :=
          wlp_pml4SetPage ht hl (Option.some_ne_none _) upage kpage rw ok s hrun
        · exact .noTrace hnt
        · exact .setPage hl hst
      · cases hw
    · cases hw
  | clearPage p upage =>
    simp only [step] at hw
    split at hw
    · rename_i hp
      obtain ⟨r, rfl, hl⟩ := hmaps p hp
      split at hw
      · rename_i ok s hrun
        cases hw
        obtain ⟨hu, rfl | ⟨hpres, g, hleaf, rfl⟩⟩ := wlp_pml4ClearPage ht hl upage ok s hrun
        · exact .noTrace (PageWalk.noTrace_answers _ _)
        · exact .clearPage hp hl hu hpres (stored_of_storeLeaf ht hl (user_lt hu) hleaf)
      · cases hw
    · cases hw

/-! ## The invariant -/

/-- The page map `p` has a labelled top level of its own, and translates no user address outside
the top-level entry 0. -/
def MapAt (own : Frame → Option Label) (m : Bytes) (p : Nat) : Prop :=
  ∃ r, p = kva r ∧ own r = some ⟨some p, 3, 0⟩ ∧
    ∀ va, isUserVaddr va → indexAt 3 va ≠ 0 → translate m 3 r va = 0

/-- What holds between calls. -/
structure WorldInv (own : Frame → Option Label) (rb : Frame) (w : World) : Prop
    extends BaseMap none own rb w.machine where
  user : ∀ va, isUserVaddr va → translate w.machine.mem 3 rb va = 0
  maps : ∀ p ∈ w.maps, MapAt own w.machine.mem p

/-- Between the worlds nothing has changed but the map `p`. -/
structure Isolated (p : Nat) (own : Frame → Option Label) (rb : Frame) (w w' : World) : Prop where
  maps : w'.maps = w.maps
  inv : ∃ own', WorldInv own' rb w' ∧ ∀ f l, own f = some l → own' f = some l
  page : ∀ f l, own f = some l → l.owner ≠ some p → SamePage w.machine.mem w'.machine.mem f
  trans : ∀ f o, own f = some ⟨o, 3, 0⟩ → o ≠ some p → ∀ va < 2 ^ 48,
    translate w'.machine.mem 3 f va = translate w.machine.mem 3 f va

section Steps

variable {own : Frame → Option Label} {rb : Frame} {w w' : World} {p : Nat} {va upage : Nat}
  {own' : Frame → Option Label} {w'' : World} {s : Machine} {op : Op}

theorem Isolated.refl (h : WorldInv own rb w) : Isolated p own rb w w :=
  ⟨rfl, ⟨own, h, fun _ _ hl => hl⟩, fun f _ _ _ => SamePage.refl _ f, fun _ _ _ _ _ _ => rfl⟩

/-- Labels only grow, so what the later calls leave alone the earlier ones knew as well. -/
theorem Isolated.trans' (h : Isolated p own rb w w')
    (hkeep : ∀ f l, own f = some l → own' f = some l) (h' : Isolated p own' rb w' w'') :
    Isolated p own rb w w'' where
  maps := h'.maps.trans h.maps
  inv := by
    obtain ⟨own'', hinv, hkeep'⟩ := h'.inv
    exact ⟨own'', hinv, fun f l hl => hkeep' f l (hkeep f l hl)⟩
  page := fun f l hl hne => (h.page f l hl hne).trans (h'.page f l (hkeep f l hl) hne)
  trans := fun f o hl hne va hva =>
    (h'.trans f o (hkeep f _ hl) hne va hva).trans (h.trans f o hl hne va hva)

/-- A call that fails is invisible. -/
theorem isolated_of_noTrace (h : WorldInv own rb w) (hs : NoTrace w.machine s) :
    Isolated p own rb w ⟨s, w.maps⟩ := by
  have htr : ∀ f o, own f = some ⟨o, 3, 0⟩ → ∀ va,
      translate s.mem 3 f va = translate w.machine.mem 3 f va :=
    fun f o hl va => hs.translate h.tables hl va
  refine ⟨rfl, ⟨own, ⟨h.noTrace hs, ?_, ?_⟩, fun _ _ hl => hl⟩,
    fun f l hl _ => hs.page f (h.tables.used f l hl).1, fun f o hl _ va _ => htr f o hl va⟩
  · exact fun va hu => (htr rb none h.root va).trans (h.user va hu)
  · intro q hq
    obtain ⟨r, hr, hl, hwin⟩ := h.maps q hq
    exact ⟨r, hr, hl, fun va hu hi => (htr r _ hl va).trans (hwin va hu hi)⟩

/-- A leaf entry stored below the top-level entry 0 of the map at `r` shows in that map only. -/
theorem isolated_of_stored (h : WorldInv own rb w) {r : Frame} {v : Nat} (hp : p = kva r)
    (hr : own r = some ⟨some p, 3, 0⟩) (hs : Stored own own' w.machine s r (some p) va v)
    (hlow : indexAt 3 va = 0) :
    Isolated p own rb w ⟨s, w.maps⟩ := by
  have hother : ∀ f o, own f = some ⟨o, 3, 0⟩ → o ≠ some p → ∀ va' < 2 ^ 48,
      translate s.mem 3 f va' = translate w.machine.mem 3 f va' :=
    fun f o hl hne va' hva' => hs.translate_other hlow hl hne (by simp) hva'
  refine ⟨rfl, ⟨own', ⟨h.stored hs, ?_, ?_⟩, hs.keeps⟩,
    ?_, hother⟩
  · exact fun va' hu => (hother rb none h.root (by simp) va' (user_lt hu)).trans (h.user va' hu)
  · intro q hq
    obtain ⟨rq, hrq, hl, hwin⟩ := h.maps q hq
    refine ⟨rq, hrq, hs.keeps rq _ hl, ?_⟩
    intro va' hu hi
    refine Eq.trans ?_ (hwin va' hu hi)
    by_cases hqp : q = p
    · -- in the map itself the entry is at another top-level index than `va'`
      have hrr : rq = r := kva_injective (by rw [← hrq, hqp, hp])
      subst hrr
      rw [hs.translate_self hr (user_lt hu), if_neg]
      intro hpage
      rw [indexAt, part_same_page hpage, ← indexAt] at hi
      exact hi hlow
    · exact hother rq _ hl (fun e => hqp (Option.some.inj e)) va' (user_lt hu)
  · intro f l hl hne
    refine hs.page f (h.tables.used f l hl).1 ?_
    intro l' hl' hv
    rw [hl] at hl'
    cases hl'
    rcases hv with hv | ⟨-, -, hv⟩
    · exact hne hv
    · exact hv hlow

/-- `pml4_create` leaves the invariant. -/
theorem WorldInv.newMap (h : WorldInv own rb w) {g : Frame}
    (hpool : w.machine.poolOf g = some .kernel) (hfree : w.machine.used g = false) :
    WorldInv (labelMap own g) rb ⟨PageMap.newMap w.machine g, kva g :: w.maps⟩ := by
  have hkeep := labelMap_keeps h.tables hfree
  have htr : ∀ f o, own f = some ⟨o, 3, 0⟩ → ∀ va,
      translate (PageMap.newMap w.machine g).mem 3 f va = translate w.machine.mem 3 f va :=
    fun f o hl va => h.tables.translate_congr
      (fun f' l hl' => newMap_samePage (h.tables.ne_free hl' hfree)) va 3 f o 0 hl
  refine ⟨h.grow (newMap_tables h.tables h.root h.base hpool hfree) hkeep rfl, ?_, ?_⟩
  · exact fun va hu => (htr rb none h.root va).trans (h.user va hu)
  · intro q hq
    rcases List.mem_cons.1 hq with rfl | hq
    · refine ⟨g, rfl, Function.update_self .., ?_⟩
      intro va hu _
      exact (newMap_translate h.tables h.root h.base hfree va).trans (h.user va hu)
    · obtain ⟨r, hr, hl, hwin⟩ := h.maps q hq
      exact ⟨r, hr, hkeep r _ hl, fun va hu hi => (htr r _ hl va).trans (hwin va hu hi)⟩

theorem WorldInv.labelled (h : WorldInv own rb w) :
    ∀ p ∈ w.maps, ∃ r, p = kva r ∧ own r = some ⟨some p, 3, 0⟩ := by
  intro p hp
  obtain ⟨r, hr, hl, -⟩ := h.maps p hp
  exact ⟨r, hr, hl⟩

/-- A call on a map below the shared entries changes this map only. Nothing is mapped outside the
top-level entry 0, so there is nothing to clear there. -/
theorem call_isolated (h : WorldInv own rb w) (hw : step w op = some w') (hon : op.On p)
    (hlow : op.Low) : Isolated p own rb w w' := by
  cases step_effect id h.tables h.labelled hw with
  | noTrace hnt => exact isolated_of_noTrace h hnt
  | create => exact hon.elim
  | setPage hl hst =>
    obtain rfl : kva _ = p := hon
    exact isolated_of_stored h rfl hl hst ((indexAt_three _).trans hlow)
  | @clearPage r upage _ _ hp hl hu hpres hst =>
    obtain rfl : kva r = p := hon
    refine isolated_of_stored h rfl hl hst ?_
    by_contra hi
    obtain ⟨r', hr, -, hwin⟩ := h.maps _ hp
    rw [kva_injective hr, hwin upage hu hi] at hpres
    cases hpres

/-- Every call below the shared entries keeps the invariant. -/
theorem step_inv (hlow : op.Low) (h : ∃ own, WorldInv own rb w) (hw : step w op = some w') :
    ∃ own, WorldInv own rb w' := by
  obtain ⟨own, h⟩ := h
  cases op with
  | create =>
    cases step_effect id h.tables h.labelled hw with
    | noTrace hnt => exact (isolated_of_noTrace (p := 0) h hnt).inv.imp fun _ h => h.1
    | create hpool hfree => exact ⟨_, h.newMap hpool hfree⟩
  | setPage p upage kpage rw => exact (call_isolated h hw rfl hlow).inv.imp fun _ h => h.1
  | clearPage p upage => exact (call_isolated h hw rfl hlow).inv.imp fun _ h => h.1

/-- A call on `p` extends a sequence of calls on `p`. -/
theorem step_isolated (hop : op.On p ∧ op.Low) (h : Isolated p own rb w w')
    (hw : step w' op = some w'') : Isolated p own rb w w'' := by
  obtain ⟨own', hinv, hkeep⟩ := h.inv
  exact h.trans' hkeep (call_isolated hinv hw hop.1 hop.2)

theorem boot_inv {memEnd textStart textEnd : Nat} (hmem : kernBase + memEnd ≤ 2 ^ 48)
    (hw : boot memEnd textStart textEnd s = some w) :
    ∃ rb own, WorldInv own rb w := by
  unfold boot at hw
  split at hw
  · rename_i u s' hs
    cases hw
    obtain ⟨own, rb, hb⟩ := wlp_pagingInit hmem textStart textEnd s u s' hs
    exact ⟨rb, own, hb.toBaseMap, hb.user, by simp⟩
  · cases hw

/-- The tables reached from the base page map are labelled as its tables. -/
theorem baseTable_label (h : WorldInv own rb w) {d : Nat} {f : Frame}
    (hf : TableOf w.machine [] d f) : ∃ k, own f = some ⟨none, d, k⟩ := by
  induction hf with
  | root hroot =>
    have hrb := kva_injective (h.base.symm.trans (hroot.resolve_right (by simp)))
    exact ⟨0, hrb ▸ h.root⟩
  | @child d i f g _ hi htarget ih =>
    obtain ⟨k, hk⟩ := ih
    obtain ⟨o', hown, hco⟩ := h.tables.child_of_target hk hi htarget
    have ho : o' = none := by
      rcases hco.1 with ho | ⟨-, ho⟩ <;> exact ho
    exact ⟨512 * k + i, ho ▸ hown⟩

/-- What `pml4_get_page` returns for a user address of a map. -/
theorem getPage_eq (h : WorldInv own rb w) (hp : p ∈ w.maps) (hu : isUserVaddr va) :
    ∃ r, p = kva r ∧ own r = some ⟨some p, 3, 0⟩ ∧
      pml4GetPage p va w.machine = .ok (mapped (translate w.machine.mem 3 r va) va, w.machine) := by
  obtain ⟨r, rfl, hl, -⟩ := h.maps p hp
  exact ⟨r, rfl, hl, pml4GetPage_eq h.tables hl hu⟩

end Steps

/-! ## Whole runs -/

/-- While no page is mapped outside the top-level entry 0, calls on the map `A` leave what every
other map `B` translates, and every table that can be reached from the base page map. -/
theorem isolation {memEnd textStart textEnd : Nat} (hmem : kernBase + memEnd ≤ 2 ^ 48)
    {s : Machine} {w₀ w w' : World} {before calls : List Op} {A B : Nat}
    (hboot : boot memEnd textStart textEnd s = some w₀)
    (hbefore : run step w₀ before = some w) (hlow : ∀ op ∈ before, op.Low)
    (hB : B ∈ w.maps) (hAB : A ≠ B)
    (hcalls : run step w calls = some w') (hon : ∀ op ∈ calls, op.On A ∧ op.Low) :
    (∀ va, isUserVaddr va → ∃ r, pml4GetPage B va w.machine = .ok (r, w.machine) ∧
      pml4GetPage B va w'.machine = .ok (r, w'.machine)) ∧
    ∀ d f, TableOf w.machine [] d f → SamePage w.machine.mem w'.machine.mem f := by
  obtain ⟨rb, h₀⟩ := boot_inv hmem hboot
  obtain ⟨own, hinv⟩ : ∃ own, WorldInv own rb w :=
    run_invariant (fun _ _ _ hop h hw => step_inv hop h hw) hlow h₀ hbefore
  have hiso : Isolated A own rb w w' :=
    run_invariant (fun _ _ _ hop h hw => step_isolated hop h hw) hon (Isolated.refl hinv) hcalls
  constructor
  · intro va hu
    obtain ⟨own', hinv', hkeep⟩ := hiso.inv
    obtain ⟨r, hr, hl, hget⟩ := getPage_eq hinv hB hu
    obtain ⟨r', hr', -, hget'⟩ := getPage_eq hinv' (hiso.maps ▸ hB) hu
    have hrr : r' = r := kva_injective (hr'.symm.trans hr)
    subst hrr
    have htr := hiso.trans r' _ hl (fun e => hAB (Option.some.inj e).symm) va (user_lt hu)
    rw [htr] at hget'
    exact ⟨_, hget, hget'⟩
  · intro d f hf
    obtain ⟨k, hk⟩ := baseTable_label hinv hf
    exact hiso.page f _ hk (by simp)

/-- A machine with twenty free pages, handed out in order. -/
def twentyPages : Machine where
  mem := fun _ => 0
  poolOf := fun f => if f.val < 20 then some .kernel else none
  used := fun _ => false
  answers := (List.finRange 20).map fun i => some (Fin.castLE (by decide) i)
  basePml4 := 0

/-- The world after `paging_init` for one page of memory. -/
def booted : World := (boot 0x1000 0 0 twentyPages).get (by decide +kernel)

/-- The world after two calls of `pml4_create`. -/
def twoMaps : World := (run step booted [.create, .create]).get (by decide +kernel)

/-- The top level of the first of the two maps. -/
def firstMap : Frame := ⟨4, by decide⟩

theorem booted_eq : boot 0x1000 0 0 twentyPages = some booted := (Option.some_get _).symm

theorem twoMaps_eq : run step booted [.create, .create] = some twoMaps := (Option.some_get _).symm

/-- The calls map a page in the first map and unmap it again. -/
theorem isolation_twoMaps :
    ∃ w', run step twoMaps [.setPage 0x8004004000 0x400000 0x8004009000 true,
        .clearPage 0x8004004000 0x400000] = some w' ∧
      (∀ va, isUserVaddr va → ∃ r,
        pml4GetPage 0x8004005000 va twoMaps.machine = .ok (r, twoMaps.machine) ∧
        pml4GetPage 0x8004005000 va w'.machine = .ok (r, w'.machine)) ∧
      ∀ d f, TableOf twoMaps.machine [] d f → SamePage twoMaps.machine.mem w'.machine.mem f := by
  obtain ⟨w', hw'⟩ := Option.isSome_iff_exists.1 (show (run step twoMaps
    [.setPage 0x8004004000 0x400000 0x8004009000 true,
      .clearPage 0x8004004000 0x400000]).isSome = true by decide +kernel)
  refine ⟨w', hw', isolation (A := 0x8004004000) (by decide) booted_eq twoMaps_eq ?_
    (by decide +kernel) ?_ hw' ?_⟩
  · intro op hop
    fin_cases hop <;> trivial
  · decide
  · intro op hop
    fin_cases hop
    · exact ⟨rfl, rfl⟩
    · exact ⟨rfl, trivial⟩

/-- A page mapped at `2 ^ 39` in the first map appears in the second: the address is a user address
that `pml4_set_page` admits, and its top-level entry names a table of the base page map. -/
theorem shared_window :
    ∃ w', run step twoMaps [.setPage 0x8004004000 0x8000000000 0x8004009000 true] = some w' ∧
      twoMaps.maps = [0x8004005000, 0x8004004000] ∧ isUserVaddr 0x8000000000 ∧
      (pml4GetPage 0x8004005000 0x8000000000 twoMaps.machine).toOption.map Prod.fst = some none ∧
      (pml4GetPage 0x8004005000 0x8000000000 w'.machine).toOption.map Prod.fst =
        some (some 0x8004009000) := by
  refine ⟨(run step twoMaps [.setPage 0x8004004000 0x8000000000 0x8004009000 true]).get
    (by decide +kernel), (Option.some_get _).symm, ?_, by decide, ?_, ?_⟩
  · decide +kernel
  · decide +kernel
  · decide +kernel

end Pintos.Threads.Isolation
