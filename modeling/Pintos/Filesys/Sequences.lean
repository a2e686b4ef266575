import Pintos.Lib.Runs
import Pintos.Filesys.FileHandles
import Pintos.Filesys.Create
import Pintos.Filesys.Format

/-!
# Sequences of calls

The calls of the file system as steps from state to state, with memory allocation succeeding. A call
is made with a file that is open and is not the free map's own, and with arguments that fit an
`off_t`; a call that panics is no step. Every step from a consistent state leads to a consistent
state, and `StepEffect` says what it may change.
-/

set_option autoImplicit false

namespace Pintos.Filesys.Sequences

open Lib Lib.Runs Lib.StateExcept
open Filesys.State
open Filesys.File Directory Operations
open Layout Invariant Calls
open FileCalls FileHandles Create Filesys.Format

/-! ## The steps -/

/-- A call of the file system. Files are pointers, buffers are bytes by position. -/
inductive Call where
  | create (name : CString) (initialSize : Int)
  | openFile (name : CString)
  | remove (name : CString)
  | read (file : Nat) (buffer : Nat → UInt8) (size : Int)
  | write (file : Nat) (buffer : Nat → UInt8) (size : Int)
  | seek (file : Nat) (newPos : Int)
  | reopen (file : Nat)
  | duplicate (file : Nat)
  | denyWrite (file : Nat)
  | allowWrite (file : Nat)
  | close (file : Nat)

/-- The pointer is that of an open file other than the free map file. -/
def UserFile (s : Fs) (file : Nat) : Prop :=
  (∃ f ∈ s.files, f.ptr = file) ∧ s.freeMapFile ≠ some file

instance (s : Fs) (file : Nat) : Decidable (UserFile s file) := inferInstanceAs (Decidable (_ ∧ _))

/-- The call is made with an open file, and the size of a new file is an `off_t`. -/
def Valid (s : Fs) : Call → Prop
  | .create _ initialSize => -2 ^ 31 ≤ initialSize ∧ initialSize < 2 ^ 31
  | .openFile _ | .remove _ => True
  | .read file _ _ | .write file _ _ | .seek file _ | .reopen file | .duplicate file
  | .denyWrite file | .allowWrite file | .close file => UserFile s file

instance (s : Fs) (c : Call) : Decidable (Valid s c) := by
  cases c <;> (unfold Valid; infer_instance)

/-- The call, its result left out. -/
def exec : Call → FsM Unit
  | .create name initialSize => (fun _ => ()) <$> filesysCreate name initialSize
  | .openFile name => (fun _ => ()) <$> filesysOpen name
  | .remove name => (fun _ => ()) <$> filesysRemove name
  | .read file buffer size => (fun _ => ()) <$> fileRead file buffer size
  | .write file buffer size => (fun _ => ()) <$> fileWrite file buffer size
  | .seek file newPos => fileSeek file newPos
  | .reopen file => (fun _ => ()) <$> fileReopen file
  | .duplicate file => (fun _ => ()) <$> fileDuplicate file
  | .denyWrite file => fileDenyWrite file
  | .allowWrite file => fileAllowWrite file
  | .close file => fileClose (some file)

/-- The state after a valid call that returns. -/
def step (s : Fs) (c : Call) : Option Fs :=
  if Valid s c then (exec c s).toOption.map Prod.snd else none

theorem step_iff {s t : Fs} {c : Call} :
    step s c = some t ↔ Valid s c ∧ exec c s = .ok ((), t) := by
  unfold step
  by_cases hv : Valid s c
  · cases exec c s with
    | error e => simp [Except.toOption]
    | ok p => simp [Except.toOption, Prod.ext_iff]
  · simp [hv]

/-! ## What a step may change -/

/-- The call is a `file_write` to the inode in sector `h`. -/
def Writes (s : Fs) : Call → Nat → Prop
  | .write file _ _, h => ∃ f ∈ s.files, f.ptr = file ∧
    ∃ i ∈ s.openInodes, i.ptr = f.inode ∧ i.sector = h
  | _, _ => False

/-- What a call does to the free map. -/
def MapEffect (s t : Fs) : Call → Prop
  | .create _ _ => ∀ x, s.freeMap.test x = true → t.freeMap.test x = true
  | .remove name =>
    ((∀ k < rootEntries, ¬ EntryFor (rootSlot s.disk k) name) → t.freeMap = s.freeMap) ∧
      ∀ k h, EntryFor (rootSlot s.disk k) name → Bound s.disk k h → RemoveEffect s t h
  | .close file => ∀ f ∈ s.files, f.ptr = file → ∀ i ∈ s.openInodes, i.ptr = f.inode →
    CloseEffect s t i
  | _ => t.freeMap = s.freeMap

/-- What a call does from a consistent state. -/
structure StepEffect (s t : Fs) (c : Call) : Prop where
  inv : Inv t []
  keeps : KeepsInodes s t
  data : ∀ h, LiveIn s h → h ≠ freeMapSector → h ≠ rootDirSector → ¬ Writes s c h →
    AgreeOn s.disk t.disk (owned s.disk h)
  map : MapEffect s t c

section Effects

variable {s t : Fs} {c : Call} (hs : Inv s []) {file : Nat}

include hs

theorem effect_of_quiet (ht : Inv t []) (hq : Quiet s t) (hmap : MapEffect s t c) :
    StepEffect s t c where
  inv := ht
  keeps := hq.keeps
  data := fun _ hl h0 h1 _ => hq.keepsFile hs hl h0 h1
  map := hmap

/-- A file of the user, with its inode. -/
theorem file_of_user (hu : UserFile s file) :
    ∃ f ∈ s.files, f.ptr = file ∧ s.freeMapFile ≠ some f.ptr ∧
      ∃ i ∈ s.openInodes, i.ptr = f.inode := by
  obtain ⟨⟨f, hf, rfl⟩, hmap⟩ := hu
  obtain ⟨i, hi, hptr, -, -⟩ := inode_of_user hs hf hmap
  exact ⟨f, hf, rfl, hmap, i, hi, hptr⟩

theorem effect_create {name : CString} {size : Int} (hlt : size < 2 ^ 31) :
    wlp (filesysCreate name size) s fun _ t => StepEffect s t (.create name size) := by
  refine wlp_mono (wlp_filesysCreate hs hlt name) ?_
  rintro b t ⟨ht, he⟩
  exact {
    inv := ht
    keeps := ⟨fun j hj _ => ⟨j, he.untouched.inodes ▸ hj, .refl j⟩, he.untouched.next⟩
    data := fun h hl h0 h1 _ => he.untouched.data h hl h0 h1
    map := he.marks }

section

variable (hu : UserFile s file)
include hu

theorem effect_read (buffer : Nat → UInt8) (size : Int) :
    wp (fileRead file buffer size) s fun _ t => StepEffect s t (.read file buffer size) := by
  obtain ⟨f, hf, rfl, hmap, i, hi, hptr⟩ := file_of_user hs hu
  rw [wp_fileRead hs hf hi hptr]
  exact effect_of_quiet hs (inv_advanced hs hf hmap _) (quiet_mapFile _ _) rfl

theorem effect_write (buffer : Nat → UInt8) (size : Int) :
    wp (fileWrite file buffer size) s fun _ t => StepEffect s t (.write file buffer size) := by
  obtain ⟨f, hf, rfl, hmap, i, hi, hptr⟩ := file_of_user hs hu
  by_cases hdeny : i.denyWriteCnt = 0
  · rw [wp_fileWrite hs hf hi hptr hdeny]
    have hs1 := inv_written hs hf hmap hi hptr buffer size
    refine ⟨inv_advanced hs1 hf hmap _, keepsInodes_of_eq rfl rfl, ?_, rfl⟩
    intro h hl _ _ hnot
    apply (written_agree hs hf hi buffer size).mono
    intro x hx hmem
    have hne : h ≠ i.sector := fun e => hnot ⟨f, hf, rfl, i, hi, hptr, e.symm⟩
    exact Set.disjoint_left.1 (hs.disk.disjoint _ _ hl (live_of_open hi) hne) hx
      (extent_subset hmem)
  · rw [wp_fileWrite_denied hs hf hi hptr hdeny]
    exact effect_of_quiet hs (inv_advanced hs hf hmap _) (quiet_mapFile _ _) rfl

theorem effect_seek (newPos : Int) :
    wlp (fileSeek file newPos) s fun _ t => StepEffect s t (.seek file newPos) := by
  obtain ⟨f, hf, rfl, hmap, -⟩ := file_of_user hs hu
  by_cases h0 : 0 ≤ newPos
  · apply wlp_of_wp
    rw [wp_fileSeek f.ptr h0]
    refine effect_of_quiet hs ?_ (quiet_mapFile _ _) rfl
    exact hs.movePos (fun _ => rfl) (fun _ => rfl) (fun _ => rfl) hf hmap h0
  · rw [fileSeek, wlp_bind, wlp_check]
    exact fun hpos => absurd hpos h0

theorem effect_denyWrite :
    wp (fileDenyWrite file) s fun _ t => StepEffect s t (.denyWrite file) := by
  obtain ⟨f, hf, rfl, hmap, -⟩ := file_of_user hs hu
  rw [wp_fileDenyWrite hs hf hmap]
  cases hdeny : f.denyWrite with
  | true => exact effect_of_quiet hs hs (quiet_of_disk rfl (keepsInodes_of_eq rfl rfl)) rfl
  | false => exact effect_of_quiet hs (inv_denying hs hf hmap hdeny) quiet_denying rfl

theorem effect_allowWrite :
    wp (fileAllowWrite file) s fun _ t => StepEffect s t (.allowWrite file) := by
  obtain ⟨f, hf, rfl, hmap, -⟩ := file_of_user hs hu
  rw [wp_fileAllowWrite hs hf hmap]
  cases hdeny : f.denyWrite with
  | true => exact effect_of_quiet hs (inv_allowing hs hf hmap hdeny) quiet_allowing rfl
  | false => exact effect_of_quiet hs hs (quiet_of_disk rfl (keepsInodes_of_eq rfl rfl)) rfl

theorem effect_close :
    wp (fileClose (some file)) s fun _ t => StepEffect s t (.close file) := by
  obtain ⟨f, hf, rfl, hmap, i, hi, hptr⟩ := file_of_user hs hu
  apply wp_mono (wp_fileClose hs hf hmap hi hptr)
  rintro _ t ⟨ht, hq, he, -⟩
  refine effect_of_quiet hs ht hq ?_
  intro g hg hgptr j hj hjptr
  obtain rfl := hs.heap.uniqueFile.eq_of_key hg hf hgptr
  obtain rfl := hs.heap.eq_of_ptr hj hi (hjptr.trans hptr.symm)
  exact he

end

theorem effect_exec (hv : Valid s c) : wlp (exec c) s fun _ t => StepEffect s t c := by
  cases c with
  | create name size =>
    rw [exec, wlp_map]
    exact effect_create hs hv.2
  | openFile name =>
    rw [exec, wlp_map]
    refine wlp_mono (wlp_of_wp (wp_filesysOpen hs name)) ?_
    rintro _ t ⟨ht, hq, hmap, -⟩
    exact effect_of_quiet hs ht hq hmap
  | remove name =>
    rw [exec, wlp_map]
    refine wlp_mono (wlp_of_wp (wp_filesysRemove hs name)) ?_
    rintro _ t ⟨ht, hq, hmap⟩
    exact effect_of_quiet hs ht hq hmap
  | read file buffer size =>
    rw [exec, wlp_map]
    exact wlp_of_wp (effect_read hs hv buffer size)
  | write file buffer size =>
    rw [exec, wlp_map]
    exact wlp_of_wp (effect_write hs hv buffer size)
  | seek file newPos => exact effect_seek hs hv newPos
  | reopen file =>
    obtain ⟨f, hf, rfl, hmap, -⟩ := file_of_user hs hv
    rw [exec, wlp_map]
    refine wlp_mono (wlp_of_wp (wp_fileReopen hs hf hmap)) ?_
    rintro _ t ⟨ht, hq, hmap, -⟩
    exact effect_of_quiet hs ht hq hmap
  | duplicate file =>
    obtain ⟨f, hf, rfl, hmap, -⟩ := file_of_user hs hv
    rw [exec, wlp_map]
    refine wlp_mono (wlp_of_wp (wp_fileDuplicate hs hf hmap)) ?_
    rintro _ t ⟨ht, hq, hmap, -⟩
    exact effect_of_quiet hs ht hq hmap
  | denyWrite file => exact wlp_of_wp (effect_denyWrite hs hv)
  | allowWrite file => exact wlp_of_wp (effect_allowWrite hs hv)
  | close file => exact wlp_of_wp (effect_close hs hv)

/-- **Every step from a consistent state is described by `StepEffect`.** -/
theorem step_effect (h : step s c = some t) : StepEffect s t c := by
  obtain ⟨hv, hrun⟩ := step_iff.1 h
  exact effect_exec hs hv () t hrun

end Effects

/-! ## Runs -/

/-- The states that calls lead to from a freshly formatted disk. -/
def Reachable (s : Fs) : Prop :=
  ∃ s0 junk s1 calls, Booted s0 ∧ filesysInit true junk s0 = .ok ((), s1) ∧
    run step s1 calls = some s

/-- **Every reachable state is consistent.** -/
theorem inv_of_reachable {s : Fs} (h : Reachable s) : Inv s [] := by
  obtain ⟨s0, junk, s1, calls, hb, hinit, hrun⟩ := h
  have hs1 : Inv s1 [] := wlp_filesysInit hb junk () s1 hinit
  have hstep : ∀ s c t, True → Inv s [] → step s c = some t → Inv t [] :=
    fun s c t _ hs hst => (step_effect hs hst).inv
  exact run_invariant hstep (fun _ _ => trivial) hs1 hrun

end Pintos.Filesys.Sequences
