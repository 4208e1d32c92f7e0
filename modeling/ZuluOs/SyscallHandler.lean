/-
System calls: `syscall_handler_inner` of `syscall/handler.rs`, with
`syscall/io.rs`, `syscall/process.rs` and the enums of the `syscall` crate.

A call is first resolved, i.e. its number is decoded and its user slice is
checked (`resolve`), and then performed (`perform`); the result is encoded in
one word.  The words of user memory that a `Write` prints are read through the
page table, so a slice that was accepted wrongly faults here.

* `userSlice_sound_iff` — the arguments for which every slice handed to
  `io::read` or `io::write` is accessible to user code, under every page table;
* `syscallHandlerInner_returns_iff` — with overflow checks, the arguments for
  which the handler returns, whatever the page table;
* `syscallHandlerInner_unambiguous` — the arguments for which the word says what
  the result was: a known number, and no null slice whose length ends in a zero
  byte;
* `userSlice_exact_iff` — a non-empty slice of the lower half is handed to the
  closure iff each of its bytes is accessible, unless it is accessible at
  address 0.
-/
import ZuluOs.UserSlice
import ZuluOs.VgaBuffer

namespace Syscalls

open VgaBuffer

/-- `syscall::Syscall` -/
inductive Syscall where
  | read
  | write
  | exit
deriving DecidableEq, Repr

/-- The discriminants of `Syscall`, as `TryFromPrimitive` reads them back. -/
def Syscall.tryFromPrimitive (n : UInt8) : Option Syscall :=
  if n = 1 then some .read
  else if n = 2 then some .write
  else if n = 3 then some .exit
  else none

/-- `e as u8` -/
def Error.asU8 : Error → UInt8
  | .noSys => 0
  | .invalidArgument => 1
  | .invalid byte => byte

theorem Error.asU8_ofByte (byte : UInt8) : (Error.ofByte byte).asU8 = byte := by
  unfold Error.ofByte
  split
  · next h => exact h.symm
  · split
    · next h => exact h.symm
    · rfl

/-- A system call with checked arguments: what the closures of
`syscall_handler_inner` hand to `io` and `process`. -/
inductive Call where
  | read (fd : UInt64) (bytes : UserSlice)
  | write (fd : UInt64) (bytes : UserSlice)
  | exit (code : UInt8)
deriving DecidableEq, Repr

/-- `with_user_slice` -/
def withUserSlice {α : Type} (o : Overflow) (pt : PageTable) (ptr bytes : UInt64)
    (f : UserSlice → α) : Outcome Error α := do
  .ok (f (← constructUserSlice o pt ptr bytes))

/-- `with_user_slice_mut` -/
def withUserSliceMut {α : Type} (o : Overflow) (pt : PageTable) (ptr bytes : UInt64)
    (f : UserSlice → α) : Outcome Error α := do
  .ok (f (← constructUserSliceMut o pt ptr bytes))

/-- `usize` to `u8` -/
def tryIntoU8 (n : UInt64) : Option UInt8 := if n.toNat < 256 then some n.toUInt8 else none

/-- `inner`, up to the bodies of its closures. -/
def resolve (o : Overflow) (pt : PageTable) (syscallNum arg0 arg1 arg2 : UInt64) :
    Outcome Error Call := do
  let syscallNum ← .okOr .noSys (tryIntoU8 syscallNum)
  let syscall ← .okOr .noSys (Syscall.tryFromPrimitive syscallNum)
  match syscall with
  | .read => withUserSliceMut o pt arg1 arg2 (Call.read arg0)
  | .write => withUserSlice o pt arg1 arg2 (Call.write arg0)
  | .exit => .ok (.exit arg0.toUInt8)

/-- `print_bytes` on a user slice: one byte is read, one byte is written. -/
def printBytes (pt : PageTable) (mem : PhysMemory) (bytes : UserSlice) (w : Writer) :
    Outcome Error Writer :=
  (List.range bytes.len).foldlM
    (fun w i => do
      let byte ← pt.loadByte mem (bytes.byteAddr i)
      w.writeByte byte) w

/-- `io::write`; `println!("write")` comes first. -/
def ioWrite (pt : PageTable) (mem : PhysMemory) (bytes : UserSlice) (w : Writer) :
    Outcome Error (ℕ × Writer) := do
  let w ← w.writeString "write\n".toUTF8.toList
  let w ← printBytes pt mem bytes w
  .ok (bytes.len, w)

/-- `io::read`; it does not look at the bytes. -/
def ioRead (bytes : UserSlice) (w : Writer) : Outcome Error (ℕ × Writer) := do
  let w ← w.writeString "read\n".toUTF8.toList
  .ok (bytes.len, w)

/-- The bodies of the closures, and `process::exit`, which parks the core. -/
def perform (pt : PageTable) (mem : PhysMemory) (w : Writer) : Call → Outcome Error (ℕ × Writer)
  | .read _ bytes => ioRead bytes w
  | .write _ bytes => ioWrite pt mem bytes w
  | .exit _ => .stop .halt

/-- The word returned to user space.  No error comes after the screen has been
written to, so the writer is the old one there. -/
def encode (w : Writer) : Outcome Error (ℕ × Writer) → Outcome Empty (UInt64 × Writer)
  | .ok (val, w') =>
    -- `expect("kernel returned too large return value")`
    if val ≤ isizeMax then .ok (UInt64.ofNat val, w') else .stop .panic
  | .err e => .ok (-e.asU8.toUInt64, w)
  | .stop s => .stop s

/-- `syscall_handler_inner` -/
def syscallHandlerInner (o : Overflow) (pt : PageTable) (mem : PhysMemory)
    (syscallNum arg0 arg1 arg2 _arg3 _arg4 : UInt64) (w : Writer) :
    Outcome Empty (UInt64 × Writer) :=
  encode w (resolve o pt syscallNum arg0 arg1 arg2 >>= perform pt mem w)

variable {o : Overflow} {pt : PageTable} {mem : PhysMemory}
variable {num arg0 arg1 arg2 arg3 arg4 : UInt64}

/-! ### Decoding -/

/-- The three system calls, by number. -/
theorem resolve_read : resolve o pt 1 arg0 arg1 arg2
    = withUserSliceMut o pt arg1 arg2 (Call.read arg0) := rfl

theorem resolve_write : resolve o pt 2 arg0 arg1 arg2
    = withUserSlice o pt arg1 arg2 (Call.write arg0) := rfl

theorem resolve_exit : resolve o pt 3 arg0 arg1 arg2 = .ok (.exit arg0.toUInt8) := rfl

theorem resolve_unknown (h₁ : num ≠ 1) (h₂ : num ≠ 2) (h₃ : num ≠ 3) :
    resolve o pt num arg0 arg1 arg2 = .err .noSys := by
  rw [resolve, tryIntoU8]
  by_cases hlt : num.toNat < 256
  · -- the cast loses nothing, so the byte is none of the three numbers either
    have hne : ∀ k : UInt64, k.toNat < 256 → num ≠ k → ¬ num.toUInt8 = k.toUInt8 := by
      intro k hk hnum heq
      have hnat := congrArg UInt8.toNat heq
      simp only [UInt64.toNat_toUInt8] at hnat
      exact hnum (UInt64.toNat_inj.mp (by omega))
    have hnone : Syscall.tryFromPrimitive num.toUInt8 = none := by
      rw [Syscall.tryFromPrimitive]
      exact (if_neg (hne 1 (by decide) h₁)).trans
        ((if_neg (hne 2 (by decide) h₂)).trans (if_neg (hne 3 (by decide) h₃)))
    rw [if_pos hlt, Outcome.okOr, Outcome.ok_bind, hnone]
    rfl
  · rw [if_neg hlt]
    rfl

/-- What a resolved call is. -/
theorem resolve_cases {call : Call} (h : resolve o pt num arg0 arg1 arg2 = .ok call) :
    (∃ s, call = .read arg0 s ∧ constructUserSliceMut o pt arg1 arg2 = .ok s) ∨
    (∃ s, call = .write arg0 s ∧ constructUserSlice o pt arg1 arg2 = .ok s) ∨
    call = .exit arg0.toUInt8 := by
  by_cases h₁ : num = 1
  · rw [h₁, resolve_read, withUserSliceMut, Outcome.bind_eq_ok] at h
    obtain ⟨s, hs, h⟩ := h
    exact .inl ⟨s, (Outcome.ok.inj h).symm, hs⟩
  · by_cases h₂ : num = 2
    · rw [h₂, resolve_write, withUserSlice, Outcome.bind_eq_ok] at h
      obtain ⟨s, hs, h⟩ := h
      exact .inr (.inl ⟨s, (Outcome.ok.inj h).symm, hs⟩)
    · by_cases h₃ : num = 3
      · rw [h₃, resolve_exit] at h
        exact .inr (.inr (Outcome.ok.inj h).symm)
      · rw [resolve_unknown h₁ h₂ h₃] at h
        cases h

/-! ### User-pointer soundness -/

/-- The slice of a call, if it has one, is accessible at every byte as the
call uses it: a `Write` reads its bytes, a `Read` may write them. -/
def Call.Sound (pt : PageTable) : Call → Prop
  | .read _ s => ∀ i < s.len, Accessible pt .readWrite (s.byteAddr i)
  | .write _ s => ∀ i < s.len, Accessible pt .readOnly (s.byteAddr i)
  | .exit _ => True

/-- **User-pointer soundness, exactly.**  Under every page table the slices
built from `ptr` and `bytes`, and so the calls resolved with them, are sound
iff the page walk covers the raw range. -/
theorem userSlice_sound_iff (o : Overflow) (ptr bytes : UInt64) :
    ((∀ pt s, constructUserSlice o pt ptr bytes = .ok s →
        ∀ i < s.len, Accessible pt .readOnly (s.byteAddr i)) ↔
      WalkCovers o ptr.toNat bytes.toNat) ∧
    ((∀ pt s, constructUserSliceMut o pt ptr bytes = .ok s →
        ∀ i < s.len, Accessible pt .readWrite (s.byteAddr i)) ↔
      WalkCovers o ptr.toNat bytes.toNat) ∧
    ((∀ pt num arg0 call, resolve o pt num arg0 ptr bytes = .ok call → call.Sound pt) ↔
      WalkCovers o ptr.toNat bytes.toNat) := by
  refine ⟨rangeSound_iff .readOnly, rangeSound_iff .readWrite, ?_, ?_⟩
  · intro h
    refine (rangeSound_iff .readOnly).mp fun pt s hs i hi => ?_
    have hcall : resolve o pt 2 0 ptr bytes = .ok (.write 0 s) := by
      rw [resolve_write, withUserSlice, constructUserSlice, hs, Outcome.ok_bind]
    exact h pt 2 0 _ hcall i hi
  · intro hcov pt num arg0 call h
    rcases resolve_cases h with ⟨s, rfl, hs⟩ | ⟨s, rfl, hs⟩ | rfl
    · exact (rangeSound_iff .readWrite).mpr hcov pt s hs
    · exact (rangeSound_iff .readOnly).mpr hcov pt s hs
    · trivial

/-- Without overflow checks, a range that wraps at the top of memory is
accepted although every page is the kernel's; with them, a sign-extended
pointer is accepted and dereferenced in the hole. -/
theorem userSlice_unsound :
    (constructUserSlice .wrap kernelTable 0xfffffffffffff000 0x1001
        = .ok ⟨0xfffffffffffff000, 0x1001⟩ ∧
      ¬ Accessible kernelTable .readOnly 0xfffffffffffff000) ∧
    (constructUserSlice .panic openTable 0x800000000000 1 = .ok ⟨0x800000000000, 1⟩ ∧
      ¬ Accessible openTable .readOnly 0x800000000000) :=
  ⟨⟨by decide, not_accessible_kernelTable _⟩,
    ⟨by decide, not_accessible_of_not_canonical (by decide)⟩⟩

/-! ### Returning to user space -/

/-- Printing a sound slice succeeds. -/
theorem printBytes_ok {s : UserSlice} (h : ∀ i < s.len, Accessible pt .readOnly (s.byteAddr i))
    (w : Writer) : ∃ w', printBytes pt mem s w = .ok w' := by
  refine Outcome.foldlM_total (fun i hi w => ?_) w
  obtain ⟨v, hv, frame, flags, hmap, -⟩ := h i (List.mem_range.mp hi)
  rw [← hv, PageTable.loadByte_ok hmap, Outcome.ok_bind]
  exact w.writeByte_ok _

/-- A slice that is printed has no byte in the hole. -/
theorem canonical_of_printBytes {s : UserSlice} {w w' : Writer}
    (h : printBytes pt mem s w = .ok w') {i : ℕ} (hi : i < s.len) :
    Canonical (s.byteAddr i) := by
  obtain ⟨c, c', hc⟩ := Outcome.foldlM_ok_mem h (List.mem_range.mpr hi)
  obtain ⟨byte, hbyte, -⟩ := Outcome.bind_eq_ok.mp hc
  exact PageTable.canonical_of_loadByte hbyte

theorem printBytes_ne_err (s : UserSlice) (w : Writer) (e : Error) :
    printBytes pt mem s w ≠ .err e := by
  refine Outcome.foldlM_ne_err (fun i _ c e => ?_) w e
  cases hload : pt.loadByte mem (s.byteAddr i) with
  | ok byte =>
    obtain ⟨c', hc'⟩ := c.writeByte_ok (ε := Error) byte
    rw [Outcome.ok_bind, hc']
    simp
  | err e' => exact absurd hload (pt.loadByte_ne_err mem _ e')
  | stop s => simp

theorem ioRead_ok (s : UserSlice) (w : Writer) : ∃ w', ioRead s w = .ok (s.len, w') := by
  obtain ⟨w', hw'⟩ := w.writeString_ok (ε := Error) "read\n".toUTF8.toList
  exact ⟨w', by rw [ioRead, hw', Outcome.ok_bind]⟩

theorem ioWrite_ok {s : UserSlice} (h : ∀ i < s.len, Accessible pt .readOnly (s.byteAddr i))
    (w : Writer) : ∃ w', ioWrite pt mem s w = .ok (s.len, w') := by
  obtain ⟨w₁, hw₁⟩ := w.writeString_ok (ε := Error) "write\n".toUTF8.toList
  obtain ⟨w₂, hw₂⟩ : ∃ w₂, printBytes pt mem s w₁ = .ok w₂ := printBytes_ok h w₁
  exact ⟨w₂, by rw [ioWrite, hw₁, Outcome.ok_bind, hw₂, Outcome.ok_bind]⟩

theorem encode_ok {val : ℕ} {w w' : Writer} (h : val ≤ isizeMax) :
    encode w (.ok (val, w')) = .ok (UInt64.ofNat val, w') := if_pos h

/-- The handler returns iff `inner` returns, and with a value that fits. -/
theorem encode_isOk {x : Outcome Error (ℕ × Writer)} {w : Writer} :
    (∃ r, encode w x = .ok r) ↔
      (∃ e, x = .err e) ∨ ∃ val w', x = .ok (val, w') ∧ val ≤ isizeMax := by
  cases x with
  | ok p =>
    obtain ⟨val, w'⟩ := p
    by_cases hval : val ≤ isizeMax
    · simp [encode_ok hval, hval]
    · simp [encode, hval]
  | err e => simp [encode]
  | stop s => simp [encode]

/-- A call with an accepted range that is empty, or whose end is out of reach,
panics. -/
theorem resolve_panics (hnum : num = 1 ∨ num = 2) (hrej : ¬ Rejected arg1.toNat arg2.toNat)
    (h : arg2.toNat = 0 ∨ EndPanics .panic arg1.toNat arg2.toNat) :
    resolve .panic pt num arg0 arg1 arg2 = .stop .panic := by
  rcases hnum with rfl | rfl
  · rw [resolve_read, withUserSliceMut, constructUserSliceMut, constructUserRange_panics hrej h]
    rfl
  · rw [resolve_write, withUserSlice, constructUserSlice, constructUserRange_panics hrej h]
    rfl

/-- A call with a null range panics where every page is open to the user. -/
theorem resolve_null_panics (hnum : num = 1 ∨ num = 2) (hb : 0 < arg2.toNat)
    (hnull : arg1.toNat = 0) (hrej : ¬ Rejected arg1.toNat arg2.toNat)
    (hend : ¬ EndPanics .panic arg1.toNat arg2.toNat) :
    resolve .panic openTable num arg0 arg1 arg2 = .stop .panic := by
  have hslice : ∀ access, constructUserRange access .panic openTable arg1 arg2 = .stop .panic := by
    intro access
    rw [constructUserRange_of_walk (le_isizeMax_of_not_rejected hrej)
      (walkPasses_openTable access hb hrej hend), hnull]
    rfl
  rcases hnum with rfl | rfl
  · rw [resolve_read, withUserSliceMut, constructUserSliceMut, hslice, Outcome.stop_bind]
  · rw [resolve_write, withUserSlice, constructUserSlice, hslice, Outcome.stop_bind]

/-- A `Write` of an accepted range that leaves a canonical half does not come
back when the walk lets it pass. -/
theorem write_stops (hb : 0 < arg2.toNat) (hne : arg1.toNat ≠ 0)
    (hrej : ¬ Rejected arg1.toNat arg2.toNat)
    (hend : ¬ EndPanics .panic arg1.toNat arg2.toNat)
    (hhalf : ¬ InOneHalf arg1.toNat arg2.toNat) (w : Writer) :
    ∃ s, resolve .panic openTable 2 arg0 arg1 arg2 >>= perform openTable mem w = .stop s := by
  -- with overflow checks the range does not wrap, so a byte of it is in the hole
  obtain ⟨i, hi, hole⟩ := exists_hole hb hhalf (by
    have hext := VirtAddr.signExtend_cases arg1.toNat
    unfold EndPanics at hend
    unfold InOneHalf at hhalf
    simp only [true_or, and_true] at hend
    omega)
  obtain ⟨s, hs, -⟩ := unsound_of_hole .readOnly hi hne hrej hend hole
  obtain ⟨rfl, -⟩ := constructUserRange_eq_ok.mp hs
  obtain ⟨w₁, hw₁⟩ := w.writeString_ok (ε := Error) "write\n".toUTF8.toList
  rw [resolve_write, withUserSlice, constructUserSlice, hs, Outcome.ok_bind, Outcome.ok_bind,
    perform, ioWrite, hw₁, Outcome.ok_bind]
  cases hprint : printBytes openTable mem ⟨arg1.toNat, arg2.toNat⟩ w₁ with
  | ok w₂ => exact absurd (canonical_of_printBytes hprint hi) hole
  | err e => exact absurd hprint (printBytes_ne_err _ _ e)
  | stop s => exact ⟨s, rfl⟩

/-- A `Read` whose slice is rejected or can be walked returns. -/
theorem read_returns (h : Rejected arg1.toNat arg2.toNat ∨
    0 < arg2.toNat ∧ arg1.toNat ≠ 0 ∧ ¬ EndPanics .panic arg1.toNat arg2.toNat) (w : Writer) :
    ∃ r, encode w (resolve .panic pt 1 arg0 arg1 arg2 >>= perform pt mem w) = .ok r := by
  rw [resolve_read, withUserSliceMut, constructUserSliceMut, encode_isOk]
  rcases constructUserRange_returns h with ⟨s, hs⟩ | ⟨e, he⟩
  · obtain ⟨rfl, -, hmax, -⟩ := constructUserRange_eq_ok.mp hs
    obtain ⟨w', hw'⟩ := ioRead_ok ⟨arg1.toNat, arg2.toNat⟩ w
    rw [hs]
    exact .inr ⟨_, w', hw', hmax⟩
  · rw [he]
    exact .inl ⟨e, rfl⟩

/-- So does a `Write` whose slice, if it is not rejected, lies in one half. -/
theorem write_returns (h : Rejected arg1.toNat arg2.toNat ∨
    0 < arg2.toNat ∧ arg1.toNat ≠ 0 ∧ ¬ EndPanics .panic arg1.toNat arg2.toNat ∧
      InOneHalf arg1.toNat arg2.toNat) (w : Writer) :
    ∃ r, encode w (resolve .panic pt 2 arg0 arg1 arg2 >>= perform pt mem w) = .ok r := by
  rw [resolve_write, withUserSlice, constructUserSlice, encode_isOk]
  rcases constructUserRange_returns (h.imp_right fun h => ⟨h.1, h.2.1, h.2.2.1⟩) with
    ⟨s, hs⟩ | ⟨e, he⟩
  · have hhalf : InOneHalf arg1.toNat arg2.toNat := by
      rcases h with hrej | h
      · rw [constructUserRange_of_rejected hrej] at hs
        cases hs
      · exact h.2.2.2
    obtain ⟨w', hw'⟩ : ∃ w', ioWrite pt mem s w = .ok (s.len, w') :=
      ioWrite_ok (constructUserRange_sound hhalf hs) w
    obtain ⟨rfl, -, hmax, -⟩ := constructUserRange_eq_ok.mp hs
    rw [hs]
    exact .inr ⟨_, w', hw', hmax⟩
  · rw [he]
    exact .inl ⟨e, rfl⟩

/-- The arguments for which the handler returns, whatever the page table: the
number is unknown, or the slice is rejected with an error, or it is not empty
and not null, its end can be computed, and a `Write` does not leave a canonical
half. -/
def Returns (num : UInt64) (ptr bytes : ℕ) : Prop :=
  num ≠ 1 ∧ num ≠ 2 ∨ Rejected ptr bytes ∨
    0 < bytes ∧ ptr ≠ 0 ∧ ¬ EndPanics .panic ptr bytes ∧ (num = 2 → InOneHalf ptr bytes)

/-- **When the handler returns.**  With overflow checks, a call other than
`Exit` returns under every page table iff its arguments are among `Returns`. -/
theorem syscallHandlerInner_returns_iff (num arg0 arg1 arg2 arg3 arg4 : UInt64)
    (hexit : num ≠ 3) :
    (∀ pt mem w, ∃ r,
      syscallHandlerInner .panic pt mem num arg0 arg1 arg2 arg3 arg4 w = .ok r) ↔
    Returns num arg1.toNat arg2.toNat := by
  constructor
  · intro h
    by_contra hret
    simp only [Returns, not_or] at hret
    obtain ⟨hnum, hrej, hret⟩ := hret
    -- outside of `Returns` the handler stops where every page is open to the user
    have hstop : ∃ pt s, resolve .panic pt num arg0 arg1 arg2 >>=
        perform pt (fun _ _ => 0) default = .stop s := by
      by_cases hpanic : arg2.toNat = 0 ∨ EndPanics .panic arg1.toNat arg2.toNat
      · refine ⟨openTable, .panic, ?_⟩
        rw [resolve_panics (by tauto) hrej hpanic, Outcome.stop_bind]
      obtain ⟨hb, hend⟩ := not_or.mp hpanic
      have hb := Nat.pos_of_ne_zero hb
      by_cases hnull : arg1.toNat = 0
      · refine ⟨openTable, .panic, ?_⟩
        rw [resolve_null_panics (by tauto) hb hnull hrej hend, Outcome.stop_bind]
      · obtain ⟨rfl, hhalf⟩ : num = 2 ∧ ¬ InOneHalf arg1.toNat arg2.toNat := by
          simpa [hb, hnull, hend] using hret
        exact ⟨openTable, write_stops hb hnull hrej hend hhalf _⟩
    obtain ⟨pt, s, hs⟩ := hstop
    obtain ⟨r, hr⟩ := h pt (fun _ _ => 0) default
    rw [syscallHandlerInner, hs] at hr
    cases hr
  · intro hret pt mem w
    by_cases h₁ : num = 1
    · subst h₁
      exact read_returns (by simpa [Returns] using hret) w
    · by_cases h₂ : num = 2
      · subst h₂
        exact write_returns (by simpa [Returns] using hret) w
      · rw [syscallHandlerInner, resolve_unknown h₁ h₂ hexit]
        exact ⟨_, rfl⟩

/-- The empty `Write`, which `syscall::write(fd, &[])` makes, panics even where
every page is open to the user.  So does a `Write` at address 0 there. -/
theorem syscallHandlerInner_panics_on_empty_write :
    syscallHandlerInner .panic openTable (fun _ _ => 0) 2 0 0x660000 0 0 0 default
      = .stop .panic ∧
    syscallHandlerInner .panic openTable (fun _ _ => 0) 2 0 0 1 0 0 default = .stop .panic := by
  constructor
  · rw [syscallHandlerInner, resolve_panics (.inr rfl) (by unfold Rejected; decide) (.inl rfl)]
    rfl
  · rw [syscallHandlerInner, resolve_null_panics (.inr rfl) (by decide) rfl
      (by unfold Rejected; decide) (by unfold EndPanics; decide)]
    rfl

theorem syscallHandlerInner_returns_iff_write :
    (2 : UInt64) ≠ 3 ∧ Returns 2 0x660000 5 ∧
    ((∀ pt mem w, ∃ r, syscallHandlerInner .panic pt mem 2 0 0x660000 5 0 0 w = .ok r) ↔
      Returns 2 0x660000 5) :=
  ⟨by decide, .inr (.inr (by unfold EndPanics InOneHalf; decide)),
    syscallHandlerInner_returns_iff 2 0 0x660000 5 0 0 (by decide)⟩

/-! ### Results in one word -/

/-- The numbers of the three system calls. -/
def Known (num : UInt64) : Prop := num = 1 ∨ num = 2 ∨ num = 3

/-- What `inner()` returns, less the screen. -/
def innerResult (o : Overflow) (pt : PageTable) (mem : PhysMemory) (num arg0 arg1 arg2 : UInt64)
    (w : Writer) : Outcome Error ℕ := do
  let (val, _) ← resolve o pt num arg0 arg1 arg2 >>= perform pt mem w
  .ok val

/-- No error comes from `io`. -/
theorem perform_ne_err (call : Call) (w : Writer) (e : Error) : perform pt mem w call ≠ .err e := by
  cases call with
  | read fd s =>
    obtain ⟨w', hw'⟩ := ioRead_ok s w
    rw [perform, hw']
    simp
  | write fd s =>
    obtain ⟨w₁, hw₁⟩ := w.writeString_ok (ε := Error) "write\n".toUTF8.toList
    rw [perform, ioWrite, hw₁, Outcome.ok_bind]
    cases hprint : printBytes pt mem s w₁ with
    | ok w₂ => simp
    | err e' => exact absurd hprint (printBytes_ne_err s w₁ e')
    | stop st => simp
  | exit code => simp [perform]

/-- The arguments for which a word says what the result was: the number is one
of the three, and the call is not one that gives a build without overflow checks
a null slice with a low length byte of 0, the byte of `NoSys`. -/
def Unambiguous (o : Overflow) (num : UInt64) (ptr bytes : ℕ) : Prop :=
  Known num ∧ ¬ (o = .wrap ∧ num ≠ 3 ∧ ptr = 0 ∧ bytes ≤ 2 ^ 48 ∧ bytes % 256 = 0)

/-- An error is the one of its byte, and the byte is not 0 where the arguments
are unambiguous. -/
theorem inner_err {w : Writer} {e : Error}
    (h : resolve o pt num arg0 arg1 arg2 >>= perform pt mem w = .err e) :
    e = .ofByte e.asU8 ∧ (Unambiguous o num arg1.toNat arg2.toNat → e.asU8 ≠ 0) := by
  rw [Outcome.bind_eq_err] at h
  have h := h.resolve_right fun ⟨call, _, hcall⟩ => perform_ne_err call w e hcall
  -- the error of a user range
  have hrange : ∀ access, num ≠ 3 → constructUserRange access o pt arg1 arg2 = .err e →
      e = .ofByte e.asU8 ∧ (Unambiguous o num arg1.toNat arg2.toNat → e.asU8 ≠ 0) := by
    intro access hnum herr
    rcases constructUserRange_err herr with rfl | ⟨ho, hnull, hlen, rfl⟩
    · exact ⟨rfl, fun _ => by decide⟩
    · rw [Error.asU8_ofByte]
      refine ⟨rfl, fun hunamb hzero => hunamb.2 ⟨ho, hnum, hnull, hlen, ?_⟩⟩
      have hbyte := congrArg UInt8.toNat hzero
      rwa [UInt8.toNat_ofNat'] at hbyte
  by_cases h₁ : num = 1
  · subst h₁
    rw [resolve_read, withUserSliceMut, Outcome.bind_eq_err] at h
    exact hrange .readWrite (by decide) (h.resolve_right (by simp))
  by_cases h₂ : num = 2
  · subst h₂
    rw [resolve_write, withUserSlice, Outcome.bind_eq_err] at h
    exact hrange .readOnly (by decide) (h.resolve_right (by simp))
  by_cases h₃ : num = 3
  · rw [h₃, resolve_exit] at h
    cases h
  · rw [resolve_unknown h₁ h₂ h₃, Outcome.err.injEq] at h
    obtain rfl := h
    refine ⟨rfl, fun hunamb => absurd hunamb.1 ?_⟩
    unfold Known
    tauto

/-- What a call that returns did, and the word it returned. -/
theorem syscallHandlerInner_cases {w w' : Writer} {word : UInt64}
    (h : syscallHandlerInner o pt mem num arg0 arg1 arg2 arg3 arg4 w = .ok (word, w')) :
    (∃ val ≤ isizeMax, innerResult o pt mem num arg0 arg1 arg2 w = .ok val ∧
      word = UInt64.ofNat val) ∨
    ∃ e, innerResult o pt mem num arg0 arg1 arg2 w = .err e ∧ word = -e.asU8.toUInt64 ∧
      e = .ofByte e.asU8 ∧ (Unambiguous o num arg1.toNat arg2.toNat → e.asU8 ≠ 0) := by
  rw [syscallHandlerInner] at h
  unfold innerResult
  cases hx : resolve o pt num arg0 arg1 arg2 >>= perform pt mem w with
  | ok p =>
    obtain ⟨val, w₁⟩ := p
    rw [hx, encode] at h
    split at h
    · next hval =>
      obtain ⟨rfl, -⟩ := Prod.mk.inj (Outcome.ok.inj h)
      exact .inl ⟨val, hval, rfl, rfl⟩
    · cases h
  | err e =>
    rw [hx, encode, Outcome.ok.injEq, Prod.mk.injEq] at h
    obtain ⟨rfl, -⟩ := h
    exact .inr ⟨e, rfl, rfl, inner_err hx⟩
  | stop s =>
    rw [hx] at h
    cases h

/-- A word is negative as an `isize` iff its top bit is set. -/
theorem toInt64_neg_iff (word : UInt64) : word.toInt64 < 0 ↔ isizeMax < word.toNat := by
  have hlt := word.toNat_lt
  rw [Int64.lt_iff_toInt_lt, ← Int64.toInt_toBitVec, Int64.toInt_zero]
  show word.toBitVec.toInt < 0 ↔ _
  rw [BitVec.toInt_eq_toNat_cond, UInt64.toNat_toBitVec, isizeMax]
  split <;> omega

theorem toNat_ofNat_of_le {val : ℕ} (h : val ≤ isizeMax) : (UInt64.ofNat val).toNat = val := by
  rw [UInt64.toNat_ofNat']
  unfold isizeMax at h
  omega

theorem ofNat_inj_of_le {val val' : ℕ} (h : val ≤ isizeMax) (h' : val' ≤ isizeMax)
    (heq : UInt64.ofNat val = UInt64.ofNat val') : val = val' := by
  rw [← toNat_ofNat_of_le h, heq, toNat_ofNat_of_le h']

theorem toNat_neg_toUInt64 (byte : UInt8) :
    (-byte.toUInt64).toNat = (2 ^ 64 - byte.toNat) % 2 ^ 64 := by
  rw [UInt64.toNat_neg, UInt8.toNat_toUInt64]
  rfl

/-- The word of an error is negative unless its byte is 0. -/
theorem neg_toInt64_neg_iff (byte : UInt8) : (-byte.toUInt64).toInt64 < 0 ↔ byte ≠ 0 := by
  have hlt := byte.toNat_lt
  rw [toInt64_neg_iff, toNat_neg_toUInt64, isizeMax, ne_eq, ← UInt8.toNat_inj, UInt8.toNat_zero]
  omega

theorem neg_toUInt64_inj {byte byte' : UInt8} (h : -byte.toUInt64 = -byte'.toUInt64) :
    byte = byte' := by
  have hlt := byte.toNat_lt
  have hlt' := byte'.toNat_lt
  have hnat := congrArg UInt64.toNat h
  rw [toNat_neg_toUInt64, toNat_neg_toUInt64] at hnat
  exact UInt8.toNat_inj.mp (by omega)

/-- A count is not the word of an error whose byte is not 0. -/
theorem ofNat_ne_neg {val : ℕ} (h : val ≤ isizeMax) {byte : UInt8} (hbyte : byte ≠ 0) :
    UInt64.ofNat val ≠ -byte.toUInt64 := by
  intro hword
  have hneg := (neg_toInt64_neg_iff byte).mpr hbyte
  rw [← hword, toInt64_neg_iff, toNat_ofNat_of_le h] at hneg
  exact absurd h (Nat.not_le.mpr hneg)

/-- Where the arguments are unambiguous, the sign of the word tells an error. -/
theorem neg_iff_err {w w' : Writer} {word : UInt64}
    (hunamb : Unambiguous o num arg1.toNat arg2.toNat)
    (h : syscallHandlerInner o pt mem num arg0 arg1 arg2 arg3 arg4 w = .ok (word, w')) :
    word.toInt64 < 0 ↔ ∃ e, innerResult o pt mem num arg0 arg1 arg2 w = .err e := by
  rcases syscallHandlerInner_cases h with ⟨val, hval, hres, rfl⟩ | ⟨e, hres, rfl, -, hbyte⟩
  · rw [toInt64_neg_iff, toNat_ofNat_of_le hval, hres]
    simp [Nat.not_lt.mpr hval]
  · rw [neg_toInt64_neg_iff, hres]
    exact iff_of_true (hbyte hunamb) ⟨e, rfl⟩

/-- Where they are not, some page table makes the call return 0 for an error. -/
theorem exists_zero_err (mem : PhysMemory) (arg0 arg3 arg4 : UInt64)
    (h : ¬ Unambiguous o num arg1.toNat arg2.toNat) :
    ∃ e, innerResult o openTable mem num arg0 arg1 arg2 default = .err e ∧
      syscallHandlerInner o openTable mem num arg0 arg1 arg2 arg3 arg4 default
        = .ok (0, default) := by
  -- in each case the call is resolved to `NoSys`, whose byte is 0
  suffices hresolve : resolve o openTable num arg0 arg1 arg2 = .err .noSys by
    refine ⟨.noSys, ?_, ?_⟩
    · rw [innerResult, hresolve]
      rfl
    · rw [syscallHandlerInner, hresolve]
      rfl
  by_cases hknown : Known num
  swap
  · unfold Known at hknown
    exact resolve_unknown (by tauto) (by tauto) (by tauto)
  have hnull := not_not.mp fun hnot => h ⟨hknown, hnot⟩
  obtain ⟨rfl, hnum, hptr, hlen, hlow⟩ := hnull
  have hslice : ∀ access, constructUserRange access .wrap openTable arg1 arg2 = .err .noSys := by
    intro access
    have hwalk : WalkPasses access .wrap openTable arg1 arg2 := by
      by_cases hb : arg2.toNat = 0
      · -- `0 - 1` wraps, and the walk goes over every page there is
        obtain rfl : arg1 = 0 := UInt64.toNat_inj.mp hptr
        obtain rfl : arg2 = 0 := UInt64.toNat_inj.mp hb
        exact ⟨⟨0, by decide⟩, ⟨2 ^ 64 - 1, by decide⟩, by decide, by decide +kernel,
          fun page _ => checkUserAddr_openTable _⟩
      · refine walkPasses_openTable access (Nat.pos_of_ne_zero hb) ?_ ?_
        · unfold Rejected
          omega
        · unfold EndPanics
          omega
    have hbyte : UInt8.ofNat arg2.toNat = 0 := by
      rw [← UInt8.toNat_inj, UInt8.toNat_ofNat', UInt8.toNat_zero]
      exact hlow
    rw [constructUserRange_of_walk (by unfold isizeMax; omega) hwalk, hptr, sliceFromRawParts,
      hbyte]
    rfl
  rcases hknown with rfl | rfl | rfl
  · rw [resolve_read, withUserSliceMut, constructUserSliceMut, hslice, Outcome.err_bind]
  · rw [resolve_write, withUserSlice, constructUserSlice, hslice, Outcome.err_bind]
  · exact absurd rfl hnum

/-- **Results in one word.**  Under every page table the word is negative iff
the result is an error, exactly for the unambiguous arguments; and two calls
with such arguments return one word only for one result. -/
theorem syscallHandlerInner_unambiguous (o : Overflow) (num arg0 arg1 arg2 arg3 arg4 : UInt64) :
    ((∀ pt mem w w' word,
        syscallHandlerInner o pt mem num arg0 arg1 arg2 arg3 arg4 w = .ok (word, w') →
        (word.toInt64 < 0 ↔ ∃ e, innerResult o pt mem num arg0 arg1 arg2 w = .err e)) ↔
      Unambiguous o num arg1.toNat arg2.toNat) ∧
    ∀ num₂ b0 b1 b2 b3 b4 pt mem w w' pt₂ mem₂ w₂ w₂' word,
      Unambiguous o num arg1.toNat arg2.toNat → Unambiguous o num₂ b1.toNat b2.toNat →
      syscallHandlerInner o pt mem num arg0 arg1 arg2 arg3 arg4 w = .ok (word, w') →
      syscallHandlerInner o pt₂ mem₂ num₂ b0 b1 b2 b3 b4 w₂ = .ok (word, w₂') →
      innerResult o pt₂ mem₂ num₂ b0 b1 b2 w₂ = innerResult o pt mem num arg0 arg1 arg2 w := by
  refine ⟨⟨?_, ?_⟩, ?_⟩
  · intro hsign
    by_contra hamb
    obtain ⟨e, herr, hzero⟩ := exists_zero_err (fun _ _ => 0) arg0 arg3 arg4 hamb
    exact absurd ((hsign _ _ _ _ _ hzero).mpr ⟨e, herr⟩) (by decide)
  · intro hunamb pt mem w w' word h
    exact neg_iff_err hunamb h
  · intro num₂ b0 b1 b2 b3 b4 pt mem w w' pt₂ mem₂ w₂ w₂' word hunamb hunamb₂ h h₂
    rcases syscallHandlerInner_cases h with ⟨val, hval, hres, hword⟩ | ⟨e, hres, hword, he, hbyte⟩
    · rcases syscallHandlerInner_cases h₂ with ⟨val₂, hval₂, hres₂, hword₂⟩ |
        ⟨e₂, -, hword₂, -, hbyte₂⟩
      · rw [hres, hres₂, ofNat_inj_of_le hval hval₂ (hword.symm.trans hword₂)]
      · exact absurd (hword.symm.trans hword₂) (ofNat_ne_neg hval (hbyte₂ hunamb₂))
    · rcases syscallHandlerInner_cases h₂ with ⟨val₂, hval₂, -, hword₂⟩ |
        ⟨e₂, hres₂, hword₂, he₂, -⟩
      · exact absurd (hword₂.symm.trans hword) (ofNat_ne_neg hval₂ (hbyte hunamb))
      · rw [hres, hres₂, he, he₂, neg_toUInt64_inj (hword.symm.trans hword₂)]

/-- An unknown number is an error with the word 0, in either build.  Without
overflow checks, that word is also the count of a `Read` of no bytes, and the
word of a `Write` at address 0 that the walk lets pass. -/
theorem syscallHandlerInner_ambiguous :
    (∀ o, syscallHandlerInner o kernelTable (fun _ _ => 0) 0 0 0 0 0 0 default = .ok (0, default) ∧
      innerResult o kernelTable (fun _ _ => 0) 0 0 0 0 default = .err .noSys ∧
      ¬ (0 : UInt64).toInt64 < 0) ∧
    (∃ w, syscallHandlerInner .wrap kernelTable (fun _ _ => 0) 1 0 0x660000 0 0 0 default
        = .ok (0, w) ∧
      innerResult .wrap kernelTable (fun _ _ => 0) 1 0 0x660000 0 default = .ok 0) ∧
    syscallHandlerInner .wrap openTable (fun _ _ => 0) 2 0 0 0x100 0 0 default = .ok (0, default) ∧
      innerResult .wrap openTable (fun _ _ => 0) 2 0 0 0x100 default = .err .noSys := by
  refine ⟨fun o => ⟨rfl, rfl, by decide⟩, ?_, ?_⟩
  · have hresolve : resolve .wrap kernelTable 1 0 0x660000 0 = .ok (.read 0 ⟨0x660000, 0⟩) := by
      decide
    obtain ⟨w, hw⟩ := ioRead_ok ⟨0x660000, 0⟩ default
    refine ⟨w, ?_, ?_⟩
    · rw [syscallHandlerInner, hresolve, Outcome.ok_bind, perform, hw]
      rfl
    · rw [innerResult, hresolve, Outcome.ok_bind, perform, hw]
      rfl
  · have hresolve : resolve .wrap openTable 2 0 0 0x100 = .err .noSys := by decide
    constructor
    · rw [syscallHandlerInner, hresolve]
      rfl
    · rw [innerResult, hresolve]
      rfl

/-! ### Exact acceptance -/

/-- **Exact acceptance** of the slices that a program in the lower half can
hold: `Ok` iff every byte is mapped `USER_ACCESSIBLE`, and `WRITABLE` for
`construct_user_slice_mut`, and otherwise `InvalidArgument` for every closure.
It is met unless the range is accessible and starts at address 0: such a slice
is neither accepted nor turned away. -/
theorem userSlice_exact_iff (o : Overflow) (pt : PageTable) (ptr bytes : UInt64)
    (hbytes : 1 ≤ bytes.toNat) (hlow : ptr.toNat + bytes.toNat ≤ 2 ^ 47) :
    (((∃ s, constructUserSlice o pt ptr bytes = .ok s) ↔
        RangeAccessible pt .readOnly ptr.toNat bytes.toNat) ∧
      ((∃ s, constructUserSliceMut o pt ptr bytes = .ok s) ↔
        RangeAccessible pt .readWrite ptr.toNat bytes.toNat) ∧
      (¬ RangeAccessible pt .readOnly ptr.toNat bytes.toNat →
        constructUserSlice o pt ptr bytes = .err .invalidArgument ∧
        ∀ (α : Type) (f : UserSlice → α), withUserSlice o pt ptr bytes f = .err .invalidArgument) ∧
      (¬ RangeAccessible pt .readWrite ptr.toNat bytes.toNat →
        constructUserSliceMut o pt ptr bytes = .err .invalidArgument ∧
        ∀ (α : Type) (f : UserSlice → α),
          withUserSliceMut o pt ptr bytes f = .err .invalidArgument)) ↔
    ¬ (ptr = 0 ∧ RangeAccessible pt .readOnly 0 bytes.toNat) := by
  constructor
  · -- a null slice is no `Ok`
    rintro ⟨hread, -⟩ ⟨rfl, hacc⟩
    obtain ⟨s, hs⟩ := hread.mpr hacc
    exact (constructUserRange_eq_ok.mp hs).2.1 rfl
  · intro hnull
    have hexact : ∀ access, (∃ s, constructUserRange access o pt ptr bytes = .ok s) ↔
        RangeAccessible pt access ptr.toNat bytes.toNat := by
      intro access
      constructor
      · rintro ⟨s, hs⟩
        by_contra hno
        rw [(constructUserRange_lower hbytes hlow).2 hno] at hs
        cases hs
      · intro hacc
        have hne : ptr.toNat ≠ 0 := by
          intro hzero
          refine hnull ⟨UInt64.toNat_inj.mp hzero, fun a ha ha' => ?_⟩
          exact (hacc a (hzero ▸ ha) (hzero ▸ ha')).readOnly
        exact ⟨_, ((constructUserRange_lower hbytes hlow).1 hacc).trans
          (sliceFromRawParts_of_ne hne)⟩
    refine ⟨hexact .readOnly, hexact .readWrite, ?_, ?_⟩
    · intro hno
      have herr : constructUserSlice o pt ptr bytes = .err .invalidArgument :=
        (constructUserRange_lower hbytes hlow).2 hno
      refine ⟨herr, fun α f => ?_⟩
      rw [withUserSlice, herr, Outcome.err_bind]
    · intro hno
      have herr : constructUserSliceMut o pt ptr bytes = .err .invalidArgument :=
        (constructUserRange_lower hbytes hlow).2 hno
      refine ⟨herr, fun α f => ?_⟩
      rw [withUserSliceMut, herr, Outcome.err_bind]

/-- Where every page is open to the user, a slice at address 0 panics with
overflow checks, and is an error, with a byte of its length, without them. -/
theorem userSlice_null_not_accepted :
    RangeAccessible openTable .readOnly 0 0x100 ∧
    constructUserSlice .panic openTable 0 0x100 = .stop .panic ∧
    constructUserSlice .wrap openTable 0 0x100 = .err .noSys ∧
    constructUserSlice .wrap openTable 0 0x105 = .err (.invalid 5) := by
  refine ⟨fun a _ ha => ?_, by decide, by decide, by decide⟩
  exact accessible_of_page (v := ⟨a, .inl (by omega)⟩) (checkUserAddr_openTable _)

/-- A range over a page boundary, where every page is open to the user and
where none is. -/
theorem userSlice_exact_iff_twoPages :
    (∃ s, constructUserSlice .panic openTable 0x660ff0 0x20 = .ok s) ∧
    constructUserSlice .panic kernelTable 0x660ff0 0x20 = .err .invalidArgument ∧
    ∀ (α : Type) (f : UserSlice → α),
      withUserSlice .panic kernelTable 0x660ff0 0x20 f = .err .invalidArgument := by
  have hne : ∀ pt, ¬ ((0x660ff0 : UInt64) = 0 ∧
      RangeAccessible pt .readOnly 0 (0x20 : UInt64).toNat) := by
    intro pt h
    exact absurd h.1 (by decide)
  constructor
  · refine ((userSlice_exact_iff .panic openTable 0x660ff0 0x20 (by decide) (by decide)).mpr
      (hne _)).1.mpr fun a _ ha => ?_
    refine accessible_of_page (v := ⟨a, .inl ?_⟩) (checkUserAddr_openTable _)
    exact ha.trans (by decide)
  · refine ((userSlice_exact_iff .panic kernelTable 0x660ff0 0x20 (by decide) (by decide)).mpr
      (hne _)).2.2.1 ?_
    intro h
    exact not_accessible_kernelTable _ (h 0x660ff0 (by decide) (by decide))

end Syscalls
