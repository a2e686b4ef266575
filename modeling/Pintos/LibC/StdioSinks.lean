import Pintos.Lib.MachineIntegers
import Pintos.LibC.StdioFormats

/-!
# Where formatted output goes

The two callbacks of `__vprintf` that keep their output in memory: the helper of `vsnprintf`, which
fills the caller's buffer, and `add_char` of the user library, which fills a buffer of 64 characters
and hands it to `write`. Writing outside of a buffer stops with `bufferOverflow`. For each callback
there is an invariant over the output so far, kept by one character (`vsnprintfHelper_step`,
`addChar_step`), and from it the state after the whole output.
-/

set_option autoImplicit false

namespace Pintos.LibC.StdioSinks

open Function Lib.StateExcept Lib.Emission Lib.MachineIntegers LibC.Stdio List
open StdioFormats

/-! ## `vsnprintf` -/

/-- `struct vsnprintf_aux`, with the characters from `buffer` on; `p` counts from there. -/
structure VsnprintfAux where
  buffer : Nat → Char
  p : Nat
  length : Int32
  maxLength : Int32

/-- A store into a buffer of `size` characters. -/
def store (size : Nat) (buffer : Nat → Char) (i : Nat) (ch : Char) : Except Fault (Nat → Char) :=
  if i < size then .ok (update buffer i ch) else .error .bufferOverflow

/-- `vsnprintf_helper`. -/
def vsnprintfHelper (bufSize : UInt64) (ch : Char) : Comp VsnprintfAux Fault Unit := do
  let aux ← get
  if aux.length < aux.maxLength then
    let buffer ← finish (store bufSize.toNat aux.buffer aux.p ch)
    set { aux with length := aux.length + 1, buffer := buffer, p := aux.p + 1 }
  else
    set { aux with length := aux.length + 1 }

/-- The auxiliary data that `vsnprintf` sets up. -/
def vsnprintfAux (buffer : Nat → Char) (bufSize : UInt64) : VsnprintfAux where
  buffer := buffer
  p := 0
  length := 0
  maxLength := (if bufSize > 0 then bufSize - 1 else 0).toUInt32.toInt32

/-- `vsnprintf`: the returned length, and the memory from `buffer` on afterwards. -/
def vsnprintf (buffer : Nat → Char) (bufSize : UInt64) (mem : Memory) (format : List Char)
    (args : VaList) : Except Fault (Int32 × (Nat → Char)) := do
  let (_, aux) ← vprintf (vsnprintfHelper bufSize) mem format args (vsnprintfAux buffer bufSize)
  if bufSize > 0 then
    let buffer ← store bufSize.toNat aux.buffer aux.p '\x00'
    return (aux.length, buffer)
  else
    return (aux.length, aux.buffer)

/-- Memory after a string has been stored, with its terminator. -/
def stored (buffer : Nat → Char) (s : List Char) : Nat → Char := fun i =>
  if i < s.length then s.getD i '\x00' else if i = s.length then '\x00' else buffer i

variable {s : List Char} {mem : Memory} {format : List Char} {args : VaList}

section Vsnprintf

variable {buffer : Nat → Char} {bufSize : UInt64}

/-- The state of `vsnprintf` after the output `s`. -/
def Filled (buffer : Nat → Char) (limit : Nat) (s : List Char) (aux : VsnprintfAux) : Prop :=
  aux.length = Int32.ofNat s.length ∧ aux.maxLength.toInt = limit ∧ aux.p = min s.length limit ∧
    aux.buffer = fun i => if i < min s.length limit then s.getD i '\x00' else buffer i

theorem vsnprintfHelper_eq (ch : Char) (aux : VsnprintfAux) :
    vsnprintfHelper bufSize ch aux =
      if aux.length < aux.maxLength then
        (store bufSize.toNat aux.buffer aux.p ch).map fun buffer =>
          ((), { aux with length := aux.length + 1, buffer := buffer, p := aux.p + 1 })
      else .ok ((), { aux with length := aux.length + 1 }) := by
  change (if aux.length < aux.maxLength then _ else _ : Comp VsnprintfAux Fault Unit) aux = _
  split_ifs
  · rw [store]
    split_ifs <;> rfl
  · rfl

theorem toInt_ofNat_length (hs : s.length < 2 ^ 31) :
    (Int32.ofNat s.length).toInt = s.length := Int32.toInt_ofNat_of_lt hs

theorem ofNat_length_append (s : List Char) (ch : Char) :
    Int32.ofNat s.length + 1 = Int32.ofNat (s ++ [ch]).length := by
  rw [length_append, Int32.ofNat_add]
  rfl

/-- The characters of a longer output. -/
theorem getD_append_singleton (s : List Char) (ch : Char) (i : Nat) :
    (s ++ [ch]).getD i '\x00' = if i = s.length then ch else s.getD i '\x00' := by
  simp only [getD_eq_getElem?_getD, List.getElem?_append, List.getElem?_singleton]
  grind

/-- One character. -/
theorem vsnprintfHelper_step {limit : Nat} {aux : VsnprintfAux} (ch : Char)
    (hlimit : limit < bufSize.toNat ∨ limit = 0) (hs : s.length < 2 ^ 31)
    (h : Filled buffer limit s aux) :
    ∃ aux', vsnprintfHelper bufSize ch aux = .ok ((), aux') ∧
      Filled buffer limit (s ++ [ch]) aux' := by
  obtain ⟨hlen, hmax, hp, hbuf⟩ := h
  have hlt : aux.length < aux.maxLength ↔ s.length < limit := by
    rw [Int32.lt_iff_toInt_lt, hlen, hmax, toInt_ofNat_length hs]
    exact Int.ofNat_lt
  have hlength : (s ++ [ch]).length = s.length + 1 := length_append
  rw [vsnprintfHelper_eq]
  by_cases hroom : s.length < limit
  · have hpos : aux.p = s.length := hp.trans (min_eq_left hroom.le)
    rw [if_pos (hlt.mpr hroom), store, if_pos (by omega)]
    refine ⟨_, rfl, ?_, hmax, ?_, ?_⟩
    · rw [hlen]
      exact ofNat_length_append s ch
    · change aux.p + 1 = _
      omega
    · funext i
      change update aux.buffer aux.p ch i = _
      rw [hbuf, hpos, getD_append_singleton, hlength, update_apply, min_eq_left hroom.le,
        min_eq_left (Nat.succ_le_of_lt hroom)]
      split_ifs <;> first | rfl | omega
  · rw [if_neg fun h => hroom (hlt.mp h)]
    refine ⟨_, rfl, ?_, hmax, ?_, ?_⟩
    · rw [hlen]
      exact ofNat_length_append s ch
    · rw [hlength, hp]
      omega
    · funext i
      rw [hbuf, getD_append_singleton, hlength, min_eq_right (by omega), min_eq_right (by omega)]
      dsimp only
      split_ifs <;> first | rfl | omega

/-- `max_length` of `vsnprintf`. -/
theorem toInt_maxLength (hsize : bufSize.toNat ≤ 2 ^ 31) :
    (if bufSize > 0 then bufSize - 1 else 0).toUInt32.toInt32.toInt =
    (bufSize.toNat - 1 : Nat) := by
  have hpos : bufSize > 0 ↔ 0 < bufSize.toNat := UInt64.lt_iff_toNat_lt
  have hvalue : (if bufSize > 0 then bufSize - 1 else 0).toNat = bufSize.toNat - 1 := by
    split_ifs with h
    · exact UInt64.toNat_sub_of_le _ _ (UInt64.le_iff_toNat_le.mpr (hpos.mp h))
    · rw [Nat.eq_zero_of_not_pos (mt hpos.mpr h)]
      rfl
  rw [toInt_of_lt (by omega), hvalue]

theorem filled_start (hsize : bufSize.toNat ≤ 2 ^ 31) (buffer : Nat → Char) :
    Filled buffer (bufSize.toNat - 1) [] (vsnprintfAux buffer bufSize) :=
  ⟨rfl, toInt_maxLength hsize, (Nat.min_eq_left (Nat.zero_le _)).symm, by
    funext i
    exact (if_neg (Nat.not_lt_zero _ ∘ fun h => lt_of_lt_of_le h (Nat.min_le_left _ _))).symm⟩

/-- The whole output. -/
theorem run_vsnprintfHelper (hs : s.length < 2 ^ 31) (hsize : bufSize.toNat ≤ 2 ^ 31)
    (buffer : Nat → Char) :
    ∃ aux, s.forM (vsnprintfHelper bufSize) (vsnprintfAux buffer bufSize) = .ok ((), aux) ∧
      Filled buffer (bufSize.toNat - 1) s aux := by
  refine forM_invariant (Filled buffer (bufSize.toNat - 1)) (filled_start hsize buffer) ?_
  intro done ch rest aux hsplit hinv
  have hdone : done.length < s.length := by
    rw [← hsplit, length_append, length_cons]
    omega
  exact vsnprintfHelper_step ch (by omega) (by omega) hinv

/-- The buffer with its terminator. -/
theorem update_filled (buffer : Nat → Char) (s : List Char) (limit : Nat) :
    update (fun i => if i < min s.length limit then s.getD i '\x00' else buffer i)
      (min s.length limit) '\x00' = stored buffer (s.take limit) := by
  funext i
  rw [update_apply, stored, length_take, min_comm limit]
  by_cases hlt : i < min s.length limit
  · rw [if_neg (by omega), if_pos hlt, if_pos hlt, getD_eq_getElem?_getD,
      getD_eq_getElem?_getD, List.getElem?_take_of_lt (by omega)]
  · rw [if_neg hlt, if_neg hlt]

/-- `vsnprintf` stores the part of the output that fits, and returns the length of the whole. -/
theorem vsnprintf_eq (h : Emits (printed mem format args) s (.ok ())) (hs : s.length < 2 ^ 31)
    (hsize : bufSize.toNat ≤ 2 ^ 31) (buffer : Nat → Char) :
    vsnprintf buffer bufSize mem format args = .ok (Int32.ofNat s.length,
      if bufSize = 0 then buffer else stored buffer (s.take (bufSize.toNat - 1))) := by
  have hpos : bufSize > 0 ↔ 0 < bufSize.toNat := UInt64.lt_iff_toNat_lt
  have hzero : bufSize = 0 ↔ bufSize.toNat = 0 := UInt64.toNat_inj.symm
  obtain ⟨aux, hrun, hlen, -, hp, hbuf⟩ := run_vsnprintfHelper hs hsize buffer
  have hvprintf : vprintf (vsnprintfHelper bufSize) mem format args =
      s.forM (vsnprintfHelper bufSize) := h.eq_forM (vsnprintfHelper bufSize)
  rw [vsnprintf, hvprintf, hrun]
  change (if bufSize > 0 then (store bufSize.toNat aux.buffer aux.p '\x00' >>= fun buffer =>
    pure (aux.length, buffer)) else pure (aux.length, aux.buffer)) = _
  rw [hlen]
  by_cases hsome : bufSize > 0
  · have hne : ¬ bufSize = 0 := by
      rw [hzero]
      exact Nat.pos_iff_ne_zero.mp (hpos.mp hsome)
    have hin : aux.p < bufSize.toNat := by
      have := hpos.mp hsome
      omega
    rw [if_pos hsome, if_neg hne, store, if_pos hin, hbuf, hp, update_filled]
    rfl
  · have heq : bufSize.toNat = 0 := Nat.eq_zero_of_not_pos (mt hpos.mpr hsome)
    rw [if_neg hsome, if_pos (hzero.mpr heq), hbuf, heq]
    refine congrArg (fun b => Except.ok (Int32.ofNat s.length, b)) ?_
    funext i
    exact if_neg (by omega)

end Vsnprintf

/-! ## `vhprintf` -/

/-- `struct vhprintf_aux`; `p` counts from the beginning of `buf`. -/
structure VhprintfAux where
  buf : Nat → Char
  p : Nat
  charCnt : Int32
  handle : Int32

/-- A call of `write`. -/
structure WriteCall where
  handle : Int32
  bytes : List Char

/-- `flush`. -/
def flush : Comp (VhprintfAux × List WriteCall) Fault Unit :=
  modify fun (aux, calls) =>
    ({ aux with p := 0 },
      if aux.p > 0 then calls ++ [⟨aux.handle, (List.range aux.p).map aux.buf⟩] else calls)

/-- `add_char`. -/
def addChar (c : Char) : Comp (VhprintfAux × List WriteCall) Fault Unit := do
  let (aux, calls) ← get
  let buf ← finish (store 64 aux.buf aux.p c)
  set ({ aux with buf := buf, p := aux.p + 1 }, calls)
  onlyIf (aux.p + 1 ≥ 64) flush
  modify fun (aux, calls) => ({ aux with charCnt := aux.charCnt + 1 }, calls)

/-- `vhprintf`: the returned count, and the calls of `write`. The buffer is not initialised. -/
def vhprintf (handle : Int32) (buf : Nat → Char) (mem : Memory) (format : List Char)
    (args : VaList) : Except Fault (Int32 × List WriteCall) := do
  let (_, state) ← vprintf addChar mem format args (⟨buf, 0, 0, handle⟩, [])
  let (_, aux, calls) ← flush state
  return (aux.charCnt, calls)

section Vhprintf

variable {handle : Int32} {aux : VhprintfAux}

/-- Calls that `vhprintf` may make. -/
def AllowedCalls (handle : Int32) (calls : List WriteCall) : Prop :=
  ∀ call ∈ calls, call.handle = handle ∧ 1 ≤ call.bytes.length ∧ call.bytes.length ≤ 64

/-- The characters that wait in the buffer. -/
def pending (aux : VhprintfAux) : List Char := (List.range aux.p).map aux.buf

/-- The state of `vhprintf` after the output `s`. -/
def Buffered (handle : Int32) (s : List Char) (state : VhprintfAux × List WriteCall) : Prop :=
  state.1.handle = handle ∧ state.1.charCnt = Int32.ofNat s.length ∧ state.1.p < 64 ∧
    AllowedCalls handle state.2 ∧ state.2.flatMap WriteCall.bytes ++ pending state.1 = s

theorem length_pending (aux : VhprintfAux) : (pending aux).length = aux.p := by
  rw [pending, length_map, length_range]

/-- A character in the buffer. -/
theorem pending_update (aux : VhprintfAux) (c : Char) :
    pending { aux with buf := update aux.buf aux.p c, p := aux.p + 1 } =
      pending aux ++ [c] := by
  simp only [pending, range_succ, map_append, map_cons, map_nil,
    update_self]
  congr 1
  refine map_congr_left fun i hi => update_of_ne ?_ _ _
  exact (mem_range.mp hi).ne

/-- `flush` hands over what waits in the buffer. -/
theorem flush_eq {calls : List WriteCall} (hp : aux.p ≤ 64) (hhandle : aux.handle = handle)
    (hcalls : AllowedCalls handle calls) :
    ∃ calls', flush (aux, calls) = .ok ((), { aux with p := 0 }, calls') ∧
      AllowedCalls handle calls' ∧
      calls'.flatMap WriteCall.bytes = calls.flatMap WriteCall.bytes ++ pending aux := by
  refine ⟨_, rfl, ?_, ?_⟩
  · split_ifs with hpos
    · intro call hcall
      rcases mem_append.mp hcall with hold | hnew
      · exact hcalls call hold
      · rw [mem_singleton.mp hnew]
        exact ⟨hhandle, (length_pending aux).symm ▸ hpos, (length_pending aux).symm ▸ hp⟩
    · exact hcalls
  · split_ifs with hpos
    · rw [flatMap_append, flatMap_singleton]
      rfl
    · rw [pending, Nat.eq_zero_of_not_pos hpos, range_zero, map_nil, append_nil]

theorem addChar_eq (hp : aux.p < 64) (calls : List WriteCall) (c : Char) :
    addChar c (aux, calls) =
      (onlyIf (aux.p + 1 ≥ 64) flush >>= fun _ =>
        modify fun (aux, calls) => ({ aux with charCnt := aux.charCnt + 1 }, calls))
        ({ aux with buf := update aux.buf aux.p c, p := aux.p + 1 }, calls) := by
  have hstore : (finish (store 64 aux.buf aux.p c) : Comp (VhprintfAux × List WriteCall) Fault _)
      (aux, calls) = .ok (update aux.buf aux.p c, aux, calls) := by
    rw [store, if_pos hp]
    rfl
  exact (bind_eq_of_ok (x := get) rfl).trans (bind_eq_of_ok hstore)

/-- One character. -/
theorem addChar_step {state : VhprintfAux × List WriteCall} (c : Char)
    (h : Buffered handle s state) :
    ∃ state', addChar c state = .ok ((), state') ∧ Buffered handle (s ++ [c]) state' := by
  obtain ⟨aux, calls⟩ := state
  obtain ⟨hhandle, hcnt, hp, hcalls, htext⟩ := h
  have hcnt' : aux.charCnt + 1 = Int32.ofNat (s ++ [c]).length := by
    rw [hcnt]
    exact ofNat_length_append s c
  rw [addChar_eq hp]
  by_cases hfull : aux.p + 1 ≥ 64
  · -- the buffer is full and is handed over
    obtain ⟨calls', hflush, hcalls', htext'⟩ := @flush_eq handle
      { aux with buf := update aux.buf aux.p c, p := aux.p + 1 } calls hp hhandle hcalls
    refine ⟨({ aux with buf := update aux.buf aux.p c, p := 0, charCnt := aux.charCnt + 1 },
      calls'), ?_, hhandle, hcnt', Nat.succ_pos _, hcalls', ?_⟩
    · rw [onlyIf, if_pos (decide_eq_true hfull)]
      exact bind_eq_of_ok hflush
    · rw [pending_update, ← append_assoc, htext] at htext'
      rw [htext']
      exact append_nil _
  · refine ⟨({ aux with buf := update aux.buf aux.p c, p := aux.p + 1,
                         charCnt := aux.charCnt + 1 }, calls), ?_, hhandle, hcnt', ?_, hcalls, ?_⟩
    · rw [onlyIf, if_neg (by simpa using hfull)]
      rfl
    · exact Nat.lt_of_not_le hfull
    · have hpending := pending_update { aux with charCnt := aux.charCnt + 1 } c
      rw [hpending, ← append_assoc]
      exact congrArg (· ++ [c]) htext

/-- `vhprintf` writes the whole output in calls of 1 to 64 characters, and returns its length. -/
theorem vhprintf_eq (h : Emits (printed mem format args) s (.ok ())) (handle : Int32)
    (buf : Nat → Char) :
    ∃ calls, vhprintf handle buf mem format args = .ok (Int32.ofNat s.length, calls) ∧
      AllowedCalls handle calls ∧ calls.flatMap WriteCall.bytes = s := by
  have hstart : Buffered handle [] (⟨buf, 0, 0, handle⟩, []) :=
    ⟨rfl, rfl, Nat.succ_pos _, fun _ h => absurd h not_mem_nil, rfl⟩
  have hvprintf : vprintf addChar mem format args = s.forM addChar := h.eq_forM addChar
  obtain ⟨⟨aux, calls⟩, hrun, hhandle, hcnt, hp, hcalls, htext⟩ :=
    forM_invariant (Buffered handle) hstart fun done c rest state _ hinv =>
      addChar_step (s := done) c hinv
  obtain ⟨calls', hflush, hcalls', htext'⟩ := flush_eq (le_of_lt hp) hhandle hcalls
  refine ⟨calls', ?_, hcalls', htext'.trans htext⟩
  rw [vhprintf, hvprintf, hrun]
  change (flush (aux, calls) >>= fun q => pure (q.2.1.charCnt, q.2.2)) = _
  rw [hflush]
  exact congrArg (fun n => Except.ok (n, calls')) hcnt

end Vhprintf

/-! ## Both agree with the output -/

/-- When the output of a format and its arguments is `s`, with fewer than `2 ^ 31` characters, then
`vsnprintf` stores the first characters of `s` that fit, with a terminator, writes nothing else and
returns the length of `s`; and `vhprintf` writes `s` in calls of 1 to 64 characters and returns its
length. -/
theorem sinks_agree (mem : Memory) (format : List Char) (args : VaList) (s : List Char)
    (h : printed mem format args (List Char) collect [] = .ok ((), s)) (hs : s.length < 2 ^ 31) :
    (∀ (buffer : Nat → Char) (bufSize : UInt64), bufSize.toNat ≤ 2 ^ 31 →
      ∃ length after, vsnprintf buffer bufSize mem format args = .ok (length, after) ∧
        length.toInt = s.length ∧
        (bufSize = 0 → after = buffer) ∧
        (bufSize ≠ 0 → after = stored buffer (s.take (bufSize.toNat - 1)))) ∧
    (∀ (handle : Int32) (buf : Nat → Char),
      ∃ length calls, vhprintf handle buf mem format args = .ok (length, calls) ∧
        length.toInt = s.length ∧ AllowedCalls handle calls ∧
          calls.flatMap WriteCall.bytes = s) := by
  have hemits : Emits (printed mem format args) s (.ok ()) := by
    rcases ends_printed mem format args with ⟨-, text, htext⟩ | ⟨-, text, htext⟩
    · obtain rfl : text = s := by simpa using htext.collect.symm.trans h
      exact htext
    · cases htext.collect_error.symm.trans h
  constructor
  · intro buffer bufSize hsize
    refine ⟨_, _, vsnprintf_eq hemits hs hsize buffer, toInt_ofNat_length hs, ?_, ?_⟩
    · exact fun hzero => if_pos hzero
    · exact fun hne => if_neg hne
  · intro handle buf
    obtain ⟨calls, hrun, hcalls, htext⟩ := vhprintf_eq hemits handle buf
    exact ⟨_, calls, hrun, toInt_ofNat_length hs, hcalls, htext⟩

/-- `%d` of 42 in a buffer of two characters. -/
theorem sinks_agree_truncated :
    ∃ length after, vsnprintf (fun _ => 'z') 2 blank "%d".toList (fun _ => 42) =
        .ok (length, after) ∧ length.toInt = 2 ∧ after 0 = '4' ∧ after 1 = '\x00' ∧
          after 2 = 'z' := by
  have hagree :=
    sinks_agree blank "%d".toList (fun _ => 42) ['4', '2'] (by decide +kernel) (by decide)
  obtain ⟨length, after, hrun, hlength, -, hafter⟩ := hagree.1 (fun _ => 'z') 2 (by decide)
  rw [hafter (by decide)] at hrun
  exact ⟨length, _, hrun, hlength, rfl, rfl, rfl⟩

end Pintos.LibC.StdioSinks
