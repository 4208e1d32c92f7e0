/-
What a system call answers and prints.

`reply` is the reference: the word a program gets back and the bytes that are
written to the screen, read off the number, the range and the page table.  A
range is taken or turned away as a whole, a `Write` prints what is in memory,
and a call that is turned away leaves no trace.

* `printBytes_eq` — printing a slice is writing the bytes that it reads;
* `resolve_reply` — the checks come to what the reference decides by;
* `syscallHandlerInner_reply` — `syscall_handler_inner` is the reference, for
  every non-empty slice a program in the lower half can hold: these do not start
  at address 0.
-/
import ZuluOs.SyscallHandler
import ZuluOs.VgaTerminal

/-- The byte a read through the table finds, where it does not fault. -/
def PageTable.byteAt (pt : PageTable) (mem : PhysMemory) (a : ℕ) : UInt8 :=
  match (pt.loadByte mem a : Outcome Empty UInt8) with
  | .ok byte => byte
  | _ => 0

namespace Syscalls

open VgaBuffer

/-- `println!("read")` and `println!("write")` of `io`. -/
def readLine : List UInt8 := "read\n".toUTF8.toList

def writeLine : List UInt8 := "write\n".toUTF8.toList

/-- The bytes of a range. -/
def rangeBytes (view : ℕ → UInt8) (ptr bytes : ℕ) : List UInt8 :=
  (List.range bytes).map fun i => view (ptr + i)

open Classical in
/-- The word a call other than `Exit` returns, and the bytes it writes, where
`view` is the memory of the program. -/
noncomputable def reply (pt : PageTable) (view : ℕ → UInt8) (num ptr bytes : UInt64) :
    UInt64 × List UInt8 :=
  if num = 1 then
    if RangeAccessible pt .readWrite ptr.toNat bytes.toNat then (bytes, readLine) else (-1, [])
  else if num = 2 then
    if RangeAccessible pt .readOnly ptr.toNat bytes.toNat then
      (bytes, writeLine ++ rangeBytes view ptr.toNat bytes.toNat)
    else (-1, [])
  else (0, [])

variable {o : Overflow} {pt : PageTable} {mem : PhysMemory}
variable {num arg0 ptr bytes arg3 arg4 : UInt64}

/-! ### Printing a slice -/

theorem loadByte_of_accessible {access : ReadAccess} {a : ℕ} (h : Accessible pt access a) :
    (pt.loadByte mem a : Outcome Error UInt8) = .ok (pt.byteAt mem a) := by
  obtain ⟨v, rfl, frame, flags, hmap, -⟩ := h
  rw [PageTable.byteAt, PageTable.loadByte_ok hmap, PageTable.loadByte_ok hmap]

/-- The bytes of a slice of the lower half are those of its range. -/
theorem byteAddr_of_low (hlow : ptr.toNat + bytes.toNat ≤ 2 ^ 47) {i : ℕ} (hi : i < bytes.toNat) :
    (⟨ptr.toNat, bytes.toNat⟩ : UserSlice).byteAddr i = ptr.toNat + i := by
  show (ptr.toNat + i) % 2 ^ 64 = _
  omega

/-- A slice is printed as the bytes that are there. -/
theorem printBytes_eq (hlow : ptr.toNat + bytes.toNat ≤ 2 ^ 47)
    (h : RangeAccessible pt .readOnly ptr.toNat bytes.toNat) (w : Writer) :
    printBytes pt mem ⟨ptr.toNat, bytes.toNat⟩ w
      = w.writeBytes (rangeBytes (pt.byteAt mem) ptr.toNat bytes.toNat) := by
  rw [printBytes, rangeBytes, Writer.writeBytes, List.foldlM_map]
  refine Outcome.foldlM_congr (fun i hi w => ?_) w
  have hi : i < bytes.toNat := List.mem_range.mp hi
  rw [byteAddr_of_low hlow hi, loadByte_of_accessible (h _ (by omega) (by omega)),
    Outcome.ok_bind]

theorem writeString_readLine (w : Writer) :
    (w.writeString "read\n".toUTF8.toList : Outcome Error Writer) = w.writeBytes readLine :=
  congrArg _ (show "read\n".toUTF8.toList.map displayed = readLine by decide +kernel)

theorem writeString_writeLine (w : Writer) :
    (w.writeString "write\n".toUTF8.toList : Outcome Error Writer) = w.writeBytes writeLine :=
  congrArg _ (show "write\n".toUTF8.toList.map displayed = writeLine by decide +kernel)

theorem ioWrite_eq (hlow : ptr.toNat + bytes.toNat ≤ 2 ^ 47)
    (h : RangeAccessible pt .readOnly ptr.toNat bytes.toNat) (w : Writer) :
    ioWrite pt mem ⟨ptr.toNat, bytes.toNat⟩ w =
      (w.writeBytes (writeLine ++ rangeBytes (pt.byteAt mem) ptr.toNat bytes.toNat) >>=
        fun w => .ok (bytes.toNat, w)) := by
  rw [ioWrite, writeString_writeLine, Writer.writeBytes, Writer.writeBytes, List.foldlM_append]
  obtain ⟨w₁, hw₁⟩ := w.writeBytes_ok (ε := Error) writeLine
  rw [Writer.writeBytes] at hw₁
  rw [hw₁, Outcome.ok_bind, Outcome.ok_bind, printBytes_eq hlow h]
  rfl

/-! ### The handler -/

theorem encode_bytes (hlow : ptr.toNat + bytes.toNat ≤ 2 ^ 47) {w w' : Writer} :
    encode w (.ok (bytes.toNat, w')) = .ok (bytes, w') := by
  have hmax : bytes.toNat ≤ isizeMax := by
    unfold isizeMax
    omega
  rw [encode_ok hmax, UInt64.ofNat_toNat]

/-- What a call in the lower half is resolved to, and the answer of the reference. -/
theorem resolve_reply (o : Overflow) (pt : PageTable) (view : ℕ → UInt8) (arg0 : UInt64)
    (hexit : num ≠ 3)
    (hrange : num = 1 ∨ num = 2 →
      1 ≤ ptr.toNat ∧ 1 ≤ bytes.toNat ∧ ptr.toNat + bytes.toNat ≤ 2 ^ 47) :
    (ptr.toNat + bytes.toNat ≤ 2 ^ 47 ∧
      resolve o pt num arg0 ptr bytes = .ok (.read arg0 ⟨ptr.toNat, bytes.toNat⟩) ∧
      reply pt view num ptr bytes = (bytes, readLine)) ∨
    (ptr.toNat + bytes.toNat ≤ 2 ^ 47 ∧ RangeAccessible pt .readOnly ptr.toNat bytes.toNat ∧
      resolve o pt num arg0 ptr bytes = .ok (.write arg0 ⟨ptr.toNat, bytes.toNat⟩) ∧
      reply pt view num ptr bytes
        = (bytes, writeLine ++ rangeBytes view ptr.toNat bytes.toNat)) ∨
    ∃ e, resolve o pt num arg0 ptr bytes = .err e ∧
      reply pt view num ptr bytes = (-e.asU8.toUInt64, []) := by
  by_cases h₁ : num = 1
  · obtain ⟨hptr, hbytes, hlow⟩ := hrange (.inl h₁)
    subst h₁
    rw [resolve_read, withUserSliceMut, constructUserSliceMut, reply, if_pos rfl]
    by_cases hacc : RangeAccessible pt .readWrite ptr.toNat bytes.toNat
    · rw [if_pos hacc, (constructUserRange_lower hbytes hlow).1 hacc,
        sliceFromRawParts_of_ne (by omega)]
      exact .inl ⟨hlow, rfl, rfl⟩
    · rw [if_neg hacc, (constructUserRange_lower hbytes hlow).2 hacc]
      exact .inr (.inr ⟨_, rfl, rfl⟩)
  · by_cases h₂ : num = 2
    · obtain ⟨hptr, hbytes, hlow⟩ := hrange (.inr h₂)
      subst h₂
      rw [resolve_write, withUserSlice, constructUserSlice, reply, if_neg h₁, if_pos rfl]
      by_cases hacc : RangeAccessible pt .readOnly ptr.toNat bytes.toNat
      · rw [if_pos hacc, (constructUserRange_lower hbytes hlow).1 hacc,
          sliceFromRawParts_of_ne (by omega)]
        exact .inr (.inl ⟨hlow, hacc, rfl, rfl⟩)
      · rw [if_neg hacc, (constructUserRange_lower hbytes hlow).2 hacc]
        exact .inr (.inr ⟨_, rfl, rfl⟩)
    · rw [resolve_unknown h₁ h₂ hexit, reply, if_neg h₁, if_neg h₂]
      exact .inr (.inr ⟨_, rfl, rfl⟩)

/-- **The handler is the reference.**  For every page table and memory, a call
other than `Exit`, with a range of the lower half above address 0 if it takes
one, returns the word of the reference and leaves what its bytes leave on the
screen. -/
theorem syscallHandlerInner_reply (o : Overflow) (pt : PageTable) (mem : PhysMemory)
    (num arg0 ptr bytes arg3 arg4 : UInt64) (w : Writer) (hexit : num ≠ 3)
    (hrange : num = 1 ∨ num = 2 →
      1 ≤ ptr.toNat ∧ 1 ≤ bytes.toNat ∧ ptr.toNat + bytes.toNat ≤ 2 ^ 47) :
    ∃ w', (w.writeBytes (reply pt (pt.byteAt mem) num ptr bytes).2 : Outcome Error Writer)
        = .ok w' ∧
      syscallHandlerInner o pt mem num arg0 ptr bytes arg3 arg4 w
        = .ok ((reply pt (pt.byteAt mem) num ptr bytes).1, w') := by
  rw [syscallHandlerInner]
  rcases resolve_reply o pt (pt.byteAt mem) arg0 hexit hrange with
    ⟨hlow, hcall, hreply⟩ | ⟨hlow, hacc, hcall, hreply⟩ | ⟨e, hcall, hreply⟩
  · obtain ⟨w', hw'⟩ := w.writeBytes_ok (ε := Error) readLine
    rw [hcall, hreply, Outcome.ok_bind, perform, ioRead, writeString_readLine, hw',
      Outcome.ok_bind, encode_bytes hlow]
    exact ⟨w', rfl, rfl⟩
  · obtain ⟨w', hw'⟩ := w.writeBytes_ok (ε := Error)
      (writeLine ++ rangeBytes (pt.byteAt mem) ptr.toNat bytes.toNat)
    rw [hcall, hreply, Outcome.ok_bind, perform, ioWrite_eq hlow hacc, hw', Outcome.ok_bind,
      encode_bytes hlow]
    exact ⟨w', rfl, rfl⟩
  · rw [hcall, hreply]
    exact ⟨w, rfl, rfl⟩

end Syscalls
