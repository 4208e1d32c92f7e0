/-
User pointers: `check_user_addr`, `construct_user_slice` and
`construct_user_slice_mut` of `syscall/mod.rs`.

The two constructors walk the pages from the one of `addr`, the canonicalised
`ptr`, to the one of `addr + (bytes - 1)`, and then build the slice from the
raw `ptr` and `bytes`.  The walk covers the slice exactly when the raw range
lies in one half of the canonical address space (`InOneHalf`); it is passed
by other ranges too:

* a `ptr` that needs sign extension is checked in the upper half and
  dereferenced in the non-canonical hole;
* a range from the lower half into the hole is checked across the hole;
* without overflow checks, a range that wraps at `2 ^ 64` makes the last page
  precede the first one, and no page is checked at all.

The slice is made of any `ptr`, null included (`sliceFromRawParts`): the SAFETY
comments take page 0 for unmapped, and nothing checks it.  A null slice is
never an `Ok`, so a range that passes the walk at address 0 is the one that is
neither accepted nor turned away.

* `constructUserRange_eq_ok` — what an `Ok` says;
* `constructUserRange_sound` — an `Ok` for a range in one half is sound;
* `rangeSound_iff` — the arguments for which every `Ok`, under every page
  table, is sound;
* `constructUserRange_lower` — in the lower half, a non-empty range gets its
  slice iff each of its bytes is accessible, and is turned away with
  `InvalidArgument` if not.
-/
import ZuluOs.Paging

namespace Syscalls

/-- `syscall::Error`.  The byte of an error is one of the two discriminants,
unless it comes from a null slice (`sliceFromRawParts`). -/
inductive Error where
  | noSys
  | invalidArgument
  | invalid (byte : UInt8)
deriving DecidableEq, Repr

/-- The error that a byte is read as. -/
def Error.ofByte (byte : UInt8) : Error :=
  if byte = 0 then .noSys else if byte = 1 then .invalidArgument else .invalid byte

/-- `ReadAccess`: what the kernel is going to do with the user memory. -/
inductive ReadAccess where
  | readOnly
  | readWrite
deriving DecidableEq, Repr

/-- `isize::MAX as usize` -/
def isizeMax : ℕ := 2 ^ 63 - 1

/-- The raw parts of a `&[u8]` or `&mut [u8]`. -/
structure UserSlice where
  ptr : ℕ
  len : ℕ
deriving DecidableEq, Repr

/-- The address of byte `i`, as the CPU computes it. -/
def UserSlice.byteAddr (s : UserSlice) (i : ℕ) : ℕ := (s.ptr + i) % 2 ^ 64

/-- `check_user_addr` -/
def checkUserAddr (pt : PageTable) (addr : VirtAddr) (access : ReadAccess) :
    Outcome Error Unit :=
  match pt.translate addr with
  | .notMapped => .err .invalidArgument
  | .invalidFrameAddress _ => .err .invalidArgument
  | .mapped _ flags =>
    if !flags.contains .USER_ACCESSIBLE then .err .invalidArgument
    else
      match access with
      | .readOnly => .ok ()
      | .readWrite => if flags.contains .WRITABLE then .ok () else .err .invalidArgument

/-- `Ok` of `slice::from_raw_parts`, or of `from_raw_parts_mut`.  A build with
overflow checks has debug assertions too, and panics on a null pointer.  Without
them a null slice is no `Ok`: a `Result` of a slice is told apart by the
pointer, so this is read as the `Err` whose byte is the low one of the length. -/
def sliceFromRawParts (o : Overflow) (ptr bytes : ℕ) : Outcome Error UserSlice :=
  if ptr = 0 then
    match o with
    | .panic => .stop .panic
    | .wrap => .err (.ofByte (UInt8.ofNat bytes))
  else .ok ⟨ptr, bytes⟩

theorem sliceFromRawParts_eq_ok {o : Overflow} {ptr bytes : ℕ} {s : UserSlice} :
    sliceFromRawParts o ptr bytes = .ok s ↔ s = ⟨ptr, bytes⟩ ∧ ptr ≠ 0 := by
  unfold sliceFromRawParts
  split
  · next hnull => cases o <;> simp [hnull]
  · next hne => simp [hne, eq_comm]

theorem sliceFromRawParts_of_ne {o : Overflow} {ptr bytes : ℕ} (hne : ptr ≠ 0) :
    sliceFromRawParts o ptr bytes = .ok ⟨ptr, bytes⟩ := if_neg hne

/-- The common body of `construct_user_slice` and `construct_user_slice_mut`. -/
def constructUserRange (access : ReadAccess) (o : Overflow) (pt : PageTable)
    (ptr bytes : UInt64) : Outcome Error UserSlice := do
  let addr ← .okOr .invalidArgument (VirtAddr.tryNew ptr.toNat)
  if isizeMax < bytes.toNat then
    .err .invalidArgument
  else
    let firstPage := Page.containingAddress addr
    let lastPage := Page.containingAddress (← addr.add o (← o.subU64 bytes.toNat 1))
    .forEach (fun page => checkUserAddr pt page.startAddress access)
      (Page.rangeInclusive firstPage lastPage)
    -- the slice is made of the raw arguments, not of `addr`
    sliceFromRawParts o ptr.toNat bytes.toNat

/-- `construct_user_slice` -/
def constructUserSlice : Overflow → PageTable → UInt64 → UInt64 → Outcome Error UserSlice :=
  constructUserRange .readOnly

/-- `construct_user_slice_mut` -/
def constructUserSliceMut : Overflow → PageTable → UInt64 → UInt64 → Outcome Error UserSlice :=
  constructUserRange .readWrite

variable {access : ReadAccess} {o : Overflow} {pt : PageTable} {ptr bytes : UInt64}

/-! ### What the page walk establishes -/

/-- User code may access the byte at the raw address `a`: it is canonical and
mapped `USER_ACCESSIBLE`, and `WRITABLE` where the access writes. -/
def Accessible (pt : PageTable) (access : ReadAccess) (a : ℕ) : Prop :=
  ∃ v : VirtAddr, v.addr = a ∧ ∃ frame flags, pt.translate v = .mapped frame flags ∧
    flags.contains .USER_ACCESSIBLE = true ∧
    (access = .readWrite → flags.contains .WRITABLE = true)

theorem Accessible.readOnly {a : ℕ} (h : Accessible pt access a) : Accessible pt .readOnly a := by
  obtain ⟨v, hv, frame, flags, hmapped, huser, -⟩ := h
  exact ⟨v, hv, frame, flags, hmapped, huser, fun hrw => by cases hrw⟩

theorem checkUserAddr_eq_ok {addr : VirtAddr} :
    checkUserAddr pt addr access = .ok () ↔ ∃ frame flags,
      pt.translate addr = .mapped frame flags ∧ flags.contains .USER_ACCESSIBLE = true ∧
        (access = .readWrite → flags.contains .WRITABLE = true) := by
  unfold checkUserAddr
  cases pt.translate addr with
  | notMapped => simp
  | invalidFrameAddress a => simp
  | mapped frame flags => cases access <;> cases hu : flags.contains .USER_ACCESSIBLE <;> simp [hu]

theorem checkUserAddr_ne_stop {addr : VirtAddr} (s : Stop) :
    checkUserAddr pt addr access ≠ .stop s := by
  unfold checkUserAddr
  repeat' split
  all_goals simp

/-- The end of the walk: `addr + (bytes - 1)`. -/
def lastAddr (o : Overflow) (addr : VirtAddr) (bytes : UInt64) : Outcome Error VirtAddr := do
  addr.add o (← o.subU64 bytes.toNat 1)

/-- The walk from the page of `ptr` to that of the end finds every page
accessible. -/
def WalkPasses (access : ReadAccess) (o : Overflow) (pt : PageTable) (ptr bytes : UInt64) : Prop :=
  ∃ addr last : VirtAddr, addr.addr = VirtAddr.signExtend ptr.toNat ∧
    lastAddr o addr bytes = .ok last ∧
    ∀ page ∈ Page.rangeInclusive (.containingAddress addr) (.containingAddress last),
      checkUserAddr pt page.startAddress access = .ok ()

/-- An `Ok` is an accepted start, a length in range, an end that could be
computed, a walk that found every page accessible, and no null pointer. -/
theorem constructUserRange_eq_ok {s : UserSlice} :
    constructUserRange access o pt ptr bytes = .ok s ↔
      s = ⟨ptr.toNat, bytes.toNat⟩ ∧ ptr.toNat ≠ 0 ∧ bytes.toNat ≤ isizeMax ∧
        WalkPasses access o pt ptr bytes := by
  unfold constructUserRange WalkPasses lastAddr
  by_cases hb : isizeMax < bytes.toNat
  · simp only [if_pos hb, Outcome.bind_eq_ok, reduceCtorEq, and_false, exists_false, false_iff,
      not_and]
    omega
  · simp only [if_neg hb, Outcome.bind_eq_ok, Outcome.okOr_eq_ok, VirtAddr.tryNew_eq_some,
      sliceFromRawParts_eq_ok]
    constructor
    · rintro ⟨addr, haddr, n, hn, last, hlast, ⟨⟩, hwalk, rfl, hne⟩
      exact ⟨rfl, hne, by omega, addr, last, haddr, ⟨n, hn, hlast⟩,
        Outcome.forEach_eq_ok.mp hwalk⟩
    · rintro ⟨rfl, hne, -, addr, last, haddr, ⟨n, hn, hlast⟩, hwalk⟩
      exact ⟨addr, haddr, n, hn, last, hlast, (), Outcome.forEach_eq_ok.mpr hwalk, rfl, hne⟩

/-! ### Soundness for ranges in one half -/

/-- The raw range `[ptr, ptr + bytes)` lies in one half of the canonical
address space. -/
def InOneHalf (ptr bytes : ℕ) : Prop :=
  ptr + bytes ≤ 2 ^ 47 ∨ 2 ^ 64 - 2 ^ 47 ≤ ptr ∧ ptr + bytes ≤ 2 ^ 64

instance (ptr bytes : ℕ) : Decidable (InOneHalf ptr bytes) := inferInstanceAs (Decidable (_ ∨ _))

/-- In one half, canonicalisation and the end address are exact. -/
theorem lastAddr_of_inOneHalf {addr : VirtAddr} (h : InOneHalf ptr.toNat bytes.toNat)
    (hb : 0 < bytes.toNat) (haddr : addr.addr = VirtAddr.signExtend ptr.toNat) :
    addr.addr = ptr.toNat ∧
      ∃ last : VirtAddr, lastAddr o addr bytes = .ok last ∧
        last.addr = ptr.toNat + (bytes.toNat - 1) := by
  -- both ends are canonical, so neither of them is sign-extended
  have hcanon : Canonical ptr.toNat := by
    unfold InOneHalf at h
    unfold Canonical
    omega
  have hlast : Canonical (ptr.toNat + (bytes.toNat - 1)) := by
    unfold InOneHalf at h
    unfold Canonical
    omega
  rw [VirtAddr.signExtend_of_canonical hcanon] at haddr
  refine ⟨haddr, ⟨_, hlast⟩, ?_, rfl⟩
  have hlt := VirtAddr.addr_lt ⟨_, hlast⟩
  rw [lastAddr, o.subU64_of_le hb, Outcome.ok_bind, VirtAddr.add_eq_ok, haddr]
  exact ⟨_, o.addU64_of_lt hlt, (VirtAddr.signExtend_of_canonical hlast).symm⟩

/-- A page found accessible is accessible at each of its bytes. -/
theorem accessible_of_page {v : VirtAddr}
    (h : checkUserAddr pt (Page.containingAddress v).startAddress access = .ok ()) :
    Accessible pt access v.addr := by
  rw [checkUserAddr_eq_ok, PageTable.translate, Page.containingAddress_startAddress] at h
  exact ⟨v, rfl, h⟩

/-- The walk over a range in one half visits the page of every byte. -/
theorem WalkPasses.accessible (hhalf : InOneHalf ptr.toNat bytes.toNat)
    (h : WalkPasses access o pt ptr bytes) {i : ℕ} (hi : i < bytes.toNat) :
    Accessible pt access ((ptr.toNat + i) % 2 ^ 64) := by
  obtain ⟨addr, last, haddr, hlast, hwalk⟩ := h
  obtain ⟨haddr', last', hlast', hend⟩ :=
    lastAddr_of_inOneHalf (o := o) hhalf (by omega) haddr
  obtain rfl : last = last' := Outcome.ok.inj (hlast.symm.trans hlast')
  have hcanon : Canonical (ptr.toNat + i) := by
    unfold InOneHalf at hhalf
    unfold Canonical
    omega
  rw [Nat.mod_eq_of_lt (VirtAddr.addr_lt ⟨_, hcanon⟩)]
  -- the page of byte `i` is between the pages of the two ends
  refine accessible_of_page (v := ⟨_, hcanon⟩) (hwalk _ (Page.mem_rangeInclusive.mpr ?_))
  unfold InOneHalf at hhalf
  simp only [Page.containingAddress, haddr', hend]
  omega

/-- **An `Ok` for a range in one half is sound.** -/
theorem constructUserRange_sound {s : UserSlice} (hhalf : InOneHalf ptr.toNat bytes.toNat)
    (h : constructUserRange access o pt ptr bytes = .ok s) :
    ∀ i < s.len, Accessible pt access (s.byteAddr i) := by
  obtain ⟨rfl, -, -, hwalk⟩ := constructUserRange_eq_ok.mp h
  intro i hi
  exact hwalk.accessible hhalf hi

/-! ### Which arguments are checked soundly -/

/-- The arguments turned away with an error before any page is looked at: a
`ptr` that `try_new` rejects, or a length above `isize::MAX`. -/
def Rejected (ptr bytes : ℕ) : Prop :=
  2 ^ 48 ≤ ptr ∧ ptr < 2 ^ 64 - 2 ^ 47 ∨ 2 ^ 63 ≤ bytes

/-- The end of a non-empty range is an address `VirtAddr + n` panics on: from
the lower half, one beyond the words that sign extension repairs; from the
upper half, one that overflows, where the build checks or the wrapped word is
not repaired either. -/
def EndPanics (o : Overflow) (ptr bytes : ℕ) : Prop :=
  ptr < 2 ^ 47 ∧ 2 ^ 48 < ptr + bytes ∨
  2 ^ 47 ≤ ptr ∧ 2 ^ 64 < VirtAddr.signExtend ptr + bytes ∧
    (o = .panic ∨ 2 ^ 64 + 2 ^ 48 < VirtAddr.signExtend ptr + bytes)

/-- The page walk says all there is to know about the slice, or there is none:
a null slice is never an `Ok`. -/
def WalkCovers (o : Overflow) (ptr bytes : ℕ) : Prop :=
  bytes = 0 ∨ ptr = 0 ∨ InOneHalf ptr bytes ∨ Rejected ptr bytes ∨ EndPanics o ptr bytes

theorem lastAddr_of_pos {addr : VirtAddr} (hb : 0 < bytes.toNat) :
    lastAddr o addr bytes = addr.add o (bytes.toNat - 1) := by
  rw [lastAddr, o.subU64_of_le hb, Outcome.ok_bind]

/-- The end address of a non-empty range, where there is one. -/
theorem lastAddr_eq_ok {addr last : VirtAddr} (hb : 0 < bytes.toNat)
    (haddr : addr.addr = VirtAddr.signExtend ptr.toNat) (hrej : ¬ Rejected ptr.toNat bytes.toNat) :
    lastAddr o addr bytes = .ok last ↔ ¬ EndPanics o ptr.toNat bytes.toNat ∧
      last.addr = VirtAddr.signExtend
        ((VirtAddr.signExtend ptr.toNat + (bytes.toNat - 1)) % 2 ^ 64) := by
  have hstart := VirtAddr.canonical_signExtend.mp (haddr ▸ addr.canonical)
  have hext := VirtAddr.signExtend_cases ptr.toNat
  unfold Rejected at hrej
  unfold EndPanics
  rw [lastAddr_of_pos hb, VirtAddr.add_eq_ok, haddr]
  constructor
  · rintro ⟨m, hm, hlast⟩
    -- a sum that makes an address is not among those `VirtAddr::new` panics on
    have hend := VirtAddr.canonical_signExtend.mp (hlast ▸ last.canonical)
    rw [hlast]
    cases o with
    | panic =>
      rw [Overflow.addU64_panic] at hm
      split at hm
      · obtain rfl := Outcome.ok.inj hm
        exact ⟨by omega, by rw [Nat.mod_eq_of_lt ‹_›]⟩
      · cases hm
    | wrap =>
      rw [Overflow.addU64_wrap] at hm
      obtain rfl := Outcome.ok.inj hm
      refine ⟨?_, rfl⟩
      simp only [reduceCtorEq, false_or]
      omega
  · rintro ⟨hnp, hlast⟩
    refine ⟨_, ?_, hlast⟩
    cases o with
    | panic =>
      have hlt : VirtAddr.signExtend ptr.toNat + (bytes.toNat - 1) < 2 ^ 64 := by
        simp only [true_or, and_true] at hnp
        omega
      rw [Nat.mod_eq_of_lt hlt]
      exact Overflow.panic.addU64_of_lt hlt
    | wrap => exact Overflow.addU64_wrap

theorem exists_start (hrej : ¬ Rejected ptr.toNat bytes.toNat) :
    ∃ addr : VirtAddr, addr.addr = VirtAddr.signExtend ptr.toNat := by
  have hptr := ptr.toNat_lt
  refine ⟨⟨_, VirtAddr.canonical_signExtend.mpr ?_⟩, rfl⟩
  unfold Rejected at hrej
  omega

/-- An accepted range that is not empty has an end to walk to, unless that
panics. -/
theorem exists_walk (hb : 0 < bytes.toNat) (hrej : ¬ Rejected ptr.toNat bytes.toNat)
    (hend : ¬ EndPanics o ptr.toNat bytes.toNat) :
    ∃ addr last : VirtAddr, addr.addr = VirtAddr.signExtend ptr.toNat ∧
      lastAddr o addr bytes = .ok last ∧
      last.addr = VirtAddr.signExtend
        ((VirtAddr.signExtend ptr.toNat + (bytes.toNat - 1)) % 2 ^ 64) := by
  have hptr := ptr.toNat_lt
  have hext := VirtAddr.signExtend_cases ptr.toNat
  obtain ⟨addr, haddr⟩ := exists_start hrej
  have hlast : Canonical (VirtAddr.signExtend
      ((VirtAddr.signExtend ptr.toNat + (bytes.toNat - 1)) % 2 ^ 64)) := by
    rw [VirtAddr.canonical_signExtend]
    unfold Rejected at hrej
    unfold EndPanics at hend
    omega
  exact ⟨addr, ⟨_, hlast⟩, haddr, (lastAddr_eq_ok hb haddr hrej).mpr ⟨hend, rfl⟩, rfl⟩

/-- Arguments turned away or panicked on give no `Ok`, whatever the page
table. -/
theorem not_rejected_of_ok {s : UserSlice} (hb : 0 < bytes.toNat)
    (h : constructUserRange access o pt ptr bytes = .ok s) :
    ¬ Rejected ptr.toNat bytes.toNat ∧ ¬ EndPanics o ptr.toNat bytes.toNat := by
  obtain ⟨-, -, hmax, addr, last, haddr, hlast, -⟩ := constructUserRange_eq_ok.mp h
  have hstart := VirtAddr.canonical_signExtend.mp (haddr ▸ addr.canonical)
  have hrej : ¬ Rejected ptr.toNat bytes.toNat := by
    unfold isizeMax at hmax
    unfold Rejected
    omega
  exact ⟨hrej, ((lastAddr_eq_ok hb haddr hrej).mp hlast).1⟩

theorem le_isizeMax_of_not_rejected (hrej : ¬ Rejected ptr.toNat bytes.toNat) :
    bytes.toNat ≤ isizeMax := by
  unfold Rejected at hrej
  unfold isizeMax
  omega

/-- A page table that maps every page for user code to read and write. -/
def openTable : PageTable := fun _ =>
  .mapped ⟨0, by decide⟩ (.PRESENT ∪ .WRITABLE ∪ .USER_ACCESSIBLE)

theorem checkUserAddr_openTable (addr : VirtAddr) :
    checkUserAddr openTable addr access = .ok () := by
  rw [checkUserAddr_eq_ok]
  exact ⟨_, _, rfl, by decide, fun _ => by decide⟩

/-- A page table that maps every page for the kernel alone. -/
def kernelTable : PageTable := fun _ => .mapped ⟨0, by decide⟩ (.PRESENT ∪ .WRITABLE)

theorem not_accessible_kernelTable (a : ℕ) : ¬ Accessible kernelTable access a := by
  rintro ⟨v, -, frame, flags, h, huser, -⟩
  obtain ⟨-, rfl⟩ := TranslateResult.mapped.inj h
  revert huser
  decide

theorem not_accessible_of_not_canonical {a : ℕ} (h : ¬ Canonical a) :
    ¬ Accessible pt access a := by
  rintro ⟨v, rfl, -⟩
  exact h v.canonical

/-- Under `openTable` every walk passes. -/
theorem walkPasses_openTable (access : ReadAccess) (hb : 0 < bytes.toNat)
    (hrej : ¬ Rejected ptr.toNat bytes.toNat) (hend : ¬ EndPanics o ptr.toNat bytes.toNat) :
    WalkPasses access o openTable ptr bytes := by
  obtain ⟨addr, last, haddr, hlast, -⟩ := exists_walk hb hrej hend
  exact ⟨addr, last, haddr, hlast, fun page _ => checkUserAddr_openTable _⟩

/-- A range that touches the hole is unsound: under `openTable` it is
accepted. -/
theorem unsound_of_hole (access : ReadAccess) {i : ℕ} (hi : i < bytes.toNat)
    (hne : ptr.toNat ≠ 0) (hrej : ¬ Rejected ptr.toNat bytes.toNat) (hend : ¬ EndPanics o ptr.toNat bytes.toNat)
    (hole : ¬ Canonical ((ptr.toNat + i) % 2 ^ 64)) :
    ∃ s, constructUserRange access o openTable ptr bytes = .ok s ∧
      ∃ i < s.len, ¬ Accessible openTable access (s.byteAddr i) := by
  refine ⟨⟨ptr.toNat, bytes.toNat⟩, ?_, i, hi, not_accessible_of_not_canonical hole⟩
  exact constructUserRange_eq_ok.mpr ⟨rfl, hne, le_isizeMax_of_not_rejected hrej,
    walkPasses_openTable access (by omega) hrej hend⟩

/-- An accepted range whose last page precedes its first one is unsound: the
walk is empty, and passes even if no page is for user code. -/
theorem unsound_of_wrap (access : ReadAccess) (hb : 0 < bytes.toNat)
    (hrej : ¬ Rejected ptr.toNat bytes.toNat) (hend : ¬ EndPanics o ptr.toNat bytes.toNat)
    (hptr : 2 ^ 64 - 2 ^ 47 ≤ ptr.toNat) (hlo : 2 ^ 64 < ptr.toNat + bytes.toNat)
    (hhi : ptr.toNat + bytes.toNat ≤ 2 ^ 64 + 2 ^ 47) :
    ∃ s, constructUserRange access o kernelTable ptr bytes = .ok s ∧
      ∃ i < s.len, ¬ Accessible kernelTable access (s.byteAddr i) := by
  obtain ⟨addr, last, haddr, hlast, hlast'⟩ := exists_walk hb hrej hend
  refine ⟨⟨ptr.toNat, bytes.toNat⟩, ?_, 0, hb, not_accessible_kernelTable _⟩
  refine constructUserRange_eq_ok.mpr ⟨rfl, by omega, le_isizeMax_of_not_rejected hrej,
    addr, last, haddr, hlast, fun page hpage => ?_⟩
  -- the walk would go from the upper half down to the lower one
  rw [Page.mem_rangeInclusive] at hpage
  have hptr' := ptr.toNat_lt
  rw [VirtAddr.signExtend_of_canonical (.inr ⟨hptr, hptr'⟩)] at haddr hlast'
  rw [VirtAddr.signExtend_of_canonical (.inl (by omega))] at hlast'
  simp only [Page.containingAddress, haddr, hlast'] at hpage
  omega

/-- An accepted range that does not lie in one half has a byte in the hole,
unless it wraps into the lower half. -/
theorem exists_hole (hb : 0 < bytes.toNat) (hhalf : ¬ InOneHalf ptr.toNat bytes.toNat)
    (hwrap : ptr.toNat < 2 ^ 64 - 2 ^ 47 ∨ 2 ^ 64 + 2 ^ 47 < ptr.toNat + bytes.toNat) :
    ∃ i < bytes.toNat, ¬ Canonical ((ptr.toNat + i) % 2 ^ 64) := by
  have hptr := ptr.toNat_lt
  unfold InOneHalf at hhalf
  unfold Canonical
  -- the first byte outside the half the range starts in
  by_cases hlow : ptr.toNat < 2 ^ 47
  · exact ⟨2 ^ 47 - ptr.toNat, by omega, by omega⟩
  · by_cases hmid : ptr.toNat < 2 ^ 64 - 2 ^ 47
    · exact ⟨0, hb, by omega⟩
    · exact ⟨2 ^ 64 + 2 ^ 47 - ptr.toNat, by omega, by omega⟩

/-- Outside the covered ranges some page table makes the constructor return an
unsound slice. -/
theorem exists_unsound (access : ReadAccess) (h : ¬ WalkCovers o ptr.toNat bytes.toNat) :
    ∃ pt s, constructUserRange access o pt ptr bytes = .ok s ∧
      ∃ i < s.len, ¬ Accessible pt access (s.byteAddr i) := by
  simp only [WalkCovers, not_or] at h
  obtain ⟨hb, hne, hhalf, hrej, hend⟩ := h
  have hb : 0 < bytes.toNat := by omega
  by_cases hwrap : ptr.toNat < 2 ^ 64 - 2 ^ 47 ∨ 2 ^ 64 + 2 ^ 47 < ptr.toNat + bytes.toNat
  · obtain ⟨i, hi, hole⟩ := exists_hole hb hhalf hwrap
    exact ⟨_, unsound_of_hole access hi hne hrej hend hole⟩
  · unfold InOneHalf at hhalf
    exact ⟨_, unsound_of_wrap access hb hrej hend (by omega) (by omega) (by omega)⟩

/-- Once the arguments are accepted, the constructor computes the end and
walks to it. -/
theorem constructUserRange_of_start {addr : VirtAddr}
    (haddr : addr.addr = VirtAddr.signExtend ptr.toNat) (hmax : bytes.toNat ≤ isizeMax) :
    constructUserRange access o pt ptr bytes = lastAddr o addr bytes >>= fun last =>
      .forEach (fun page => checkUserAddr pt page.startAddress access)
        (Page.rangeInclusive (.containingAddress addr) (.containingAddress last)) >>= fun _ =>
      sliceFromRawParts o ptr.toNat bytes.toNat := by
  rw [constructUserRange, VirtAddr.tryNew_eq_some.mpr haddr, lastAddr, Outcome.bind_assoc]
  rw [Outcome.okOr, Outcome.ok_bind, if_neg (by omega)]

/-- Rejected arguments give an error. -/
theorem constructUserRange_of_rejected (hrej : Rejected ptr.toNat bytes.toNat) :
    constructUserRange access o pt ptr bytes = .err .invalidArgument := by
  rw [constructUserRange]
  cases haddr : VirtAddr.tryNew ptr.toNat with
  | none => rfl
  | some addr =>
    have hstart := VirtAddr.tryNew_eq_some.mp haddr
    have hcanon := VirtAddr.canonical_signExtend.mp (hstart ▸ addr.canonical)
    rw [Outcome.okOr, Outcome.ok_bind, if_pos]
    unfold Rejected at hrej
    unfold isizeMax
    omega

theorem lastAddr_ne_err (addr : VirtAddr) (e : Error) : lastAddr o addr bytes ≠ .err e := by
  have hnew : ∀ n, (VirtAddr.new n : Outcome Error VirtAddr) ≠ .err e := by
    intro n
    unfold VirtAddr.new
    cases VirtAddr.tryNew n <;> simp [Outcome.unwrap]
  have hover : ∀ n : ℕ, (o.overflowed n : Outcome Error ℕ) ≠ .err e := by
    intro n
    cases o <;> simp [Overflow.overflowed]
  unfold lastAddr VirtAddr.add Overflow.subU64 Overflow.addU64
  intro h
  simp only [Outcome.bind_eq_err] at h
  rcases h with h | ⟨k, -, h | ⟨n, -, h⟩⟩
  · split at h
    · cases h
    · exact hover _ h
  · split at h
    · cases h
    · exact hover _ h
  · exact hnew n h

/-- Once the end is computed, a range passes the walk and gets its slice, or is
turned away. -/
theorem constructUserRange_of_last (access : ReadAccess) (pt : PageTable) {addr last : VirtAddr}
    (haddr : addr.addr = VirtAddr.signExtend ptr.toNat) (hmax : bytes.toNat ≤ isizeMax)
    (hlast : lastAddr o addr bytes = .ok last) :
    WalkPasses access o pt ptr bytes ∧
        constructUserRange access o pt ptr bytes = sliceFromRawParts o ptr.toNat bytes.toNat ∨
      constructUserRange access o pt ptr bytes = .err .invalidArgument := by
  rw [constructUserRange_of_start haddr hmax, hlast, Outcome.ok_bind]
  cases hwalk : Outcome.forEach (fun page => checkUserAddr pt page.startAddress access)
      (Page.rangeInclusive (.containingAddress addr) (.containingAddress last)) with
  | ok u => exact .inl ⟨⟨addr, last, haddr, hlast, Outcome.forEach_eq_ok.mp hwalk⟩, rfl⟩
  | err e =>
    obtain ⟨page, -, hpage⟩ := Outcome.forEach_eq_err hwalk
    refine .inr (congrArg Outcome.err ?_)
    unfold checkUserAddr at hpage
    repeat' split at hpage
    all_goals first | exact (Outcome.err.inj hpage).symm | cases hpage
  | stop s =>
    exact absurd hwalk (Outcome.forEach_ne_stop (fun _ _ s => checkUserAddr_ne_stop s) s)

/-- A walk that passes is followed by the slice. -/
theorem constructUserRange_of_walk (hmax : bytes.toNat ≤ isizeMax)
    (h : WalkPasses access o pt ptr bytes) :
    constructUserRange access o pt ptr bytes = sliceFromRawParts o ptr.toNat bytes.toNat := by
  obtain ⟨addr, last, haddr, hlast, hwalk⟩ := h
  rw [constructUserRange_of_start haddr hmax, hlast, Outcome.ok_bind,
    Outcome.forEach_eq_ok.mpr hwalk, Outcome.ok_bind]

/-- The checks of a user range fail with `InvalidArgument` only.  Any other
error is a null slice of a build without overflow checks. -/
theorem constructUserRange_err {e : Error}
    (h : constructUserRange access o pt ptr bytes = .err e) :
    e = .invalidArgument ∨ o = .wrap ∧ ptr.toNat = 0 ∧ bytes.toNat ≤ 2 ^ 48 ∧
      e = .ofByte (UInt8.ofNat bytes.toNat) := by
  by_cases hrej : Rejected ptr.toNat bytes.toNat
  · rw [constructUserRange_of_rejected hrej, Outcome.err.injEq] at h
    exact .inl h.symm
  obtain ⟨addr, haddr⟩ := exists_start hrej
  have hmax := le_isizeMax_of_not_rejected hrej
  cases hlast : lastAddr o addr bytes with
  | ok last =>
    rcases constructUserRange_of_last access pt haddr hmax hlast with
      ⟨-, hslice⟩ | herr
    · rw [hslice] at h
      unfold sliceFromRawParts at h
      split at h
      · next hnull =>
        cases o with
        | panic => cases h
        | wrap =>
          refine .inr ⟨rfl, hnull, ?_, (Outcome.err.inj h).symm⟩
          -- from address 0, an end beyond `2 ^ 48` panics
          by_contra hlong
          refine ((lastAddr_eq_ok (by omega) haddr hrej).mp hlast).1 (.inl ?_)
          omega
      · cases h
    · rw [herr, Outcome.err.injEq] at h
      exact .inl h.symm
  | err e' => exact absurd hlast (lastAddr_ne_err addr e')
  | stop s =>
    rw [constructUserRange_of_start haddr hmax, hlast] at h
    cases h

/-- A range that is rejected, or has an end to walk to and is not null, gives a
value or an error: the walk itself never stops the kernel. -/
theorem constructUserRange_returns (h : Rejected ptr.toNat bytes.toNat ∨
    0 < bytes.toNat ∧ ptr.toNat ≠ 0 ∧ ¬ EndPanics o ptr.toNat bytes.toNat) :
    (∃ s, constructUserRange access o pt ptr bytes = .ok s) ∨
      ∃ e, constructUserRange access o pt ptr bytes = .err e := by
  by_cases hrej : Rejected ptr.toNat bytes.toNat
  · exact .inr ⟨_, constructUserRange_of_rejected hrej⟩
  · obtain ⟨hb, hne, hend⟩ := h.resolve_left hrej
    obtain ⟨addr, last, haddr, hlast, -⟩ := exists_walk hb hrej hend
    rcases constructUserRange_of_last access pt haddr
      (le_isizeMax_of_not_rejected hrej) hlast with ⟨-, hslice⟩ | herr
    · exact .inl ⟨_, hslice.trans (sliceFromRawParts_of_ne hne)⟩
    · exact .inr ⟨_, herr⟩

/-- With overflow checks, an accepted range that is empty, or whose end is out
of reach, panics. -/
theorem constructUserRange_panics (hrej : ¬ Rejected ptr.toNat bytes.toNat)
    (h : bytes.toNat = 0 ∨ EndPanics .panic ptr.toNat bytes.toNat) :
    constructUserRange access .panic pt ptr bytes = .stop .panic := by
  obtain ⟨addr, haddr⟩ := exists_start hrej
  rw [constructUserRange_of_start haddr (le_isizeMax_of_not_rejected hrej)]
  suffices hlast : lastAddr .panic addr bytes = .stop .panic by rw [hlast, Outcome.stop_bind]
  by_cases hb : bytes.toNat = 0
  · rw [lastAddr, hb]
    rfl
  · have hend := h.resolve_left hb
    rw [lastAddr_of_pos (by omega), VirtAddr.add, Overflow.addU64_panic]
    split
    · -- the sum fits a word; were it an address, the end would not panic
      rw [Outcome.ok_bind, VirtAddr.new]
      cases hnew : VirtAddr.tryNew (addr.addr + (bytes.toNat - 1)) with
      | none => rfl
      | some last =>
        have hlast : lastAddr .panic addr bytes = .ok last := by
          rw [lastAddr_of_pos (by omega), VirtAddr.add_eq_ok]
          exact ⟨_, Overflow.panic.addU64_of_lt ‹_›, VirtAddr.tryNew_eq_some.mp hnew⟩
        exact absurd hend ((lastAddr_eq_ok (by omega) haddr hrej).mp hlast).1
    · rfl

/-- **The arguments checked soundly.**  Every `Ok`, under every page table, is
sound iff the walk covers the range. -/
theorem rangeSound_iff (access : ReadAccess) :
    (∀ pt s, constructUserRange access o pt ptr bytes = .ok s →
      ∀ i < s.len, Accessible pt access (s.byteAddr i)) ↔
    WalkCovers o ptr.toNat bytes.toNat := by
  constructor
  · intro hsound
    by_contra hcov
    obtain ⟨pt, s, hs, i, hi, hbad⟩ := exists_unsound access hcov
    exact hbad (hsound pt s hs i hi)
  · intro hcov pt s hs i hi
    obtain ⟨rfl, -⟩ := constructUserRange_eq_ok.mp hs
    change i < bytes.toNat at hi
    obtain ⟨hrej, hend⟩ := not_rejected_of_ok (by omega) hs
    rcases hcov with hb | hnull | hhalf | hrej' | hend'
    · omega
    · exact absurd hnull (constructUserRange_eq_ok.mp hs).2.1
    · exact constructUserRange_sound hhalf hs i hi
    · exact absurd hrej' hrej
    · exact absurd hend' hend

/-! ### Exactness in the lower half -/

/-- User code may access every byte of `[ptr, ptr + bytes)`. -/
def RangeAccessible (pt : PageTable) (access : ReadAccess) (ptr bytes : ℕ) : Prop :=
  ∀ a, ptr ≤ a → a < ptr + bytes → Accessible pt access a

theorem page_of_accessible {v : VirtAddr} (h : Accessible pt access v.addr) :
    checkUserAddr pt (Page.containingAddress v).startAddress access = .ok () := by
  obtain ⟨v', hv, h⟩ := h
  obtain rfl : v' = v := VirtAddr.ext hv
  rw [checkUserAddr_eq_ok, PageTable.translate, Page.containingAddress_startAddress]
  exact h

theorem walkPasses_of_accessible (hb : 0 < bytes.toNat)
    (hlow : ptr.toNat + bytes.toNat ≤ 2 ^ 47)
    (h : RangeAccessible pt access ptr.toNat bytes.toNat) :
    WalkPasses access o pt ptr bytes := by
  have hcanon : Canonical ptr.toNat := .inl (by omega)
  have haddr : (⟨_, hcanon⟩ : VirtAddr).addr = VirtAddr.signExtend ptr.toNat :=
    (VirtAddr.signExtend_of_canonical hcanon).symm
  obtain ⟨-, last, hlast, hend⟩ := lastAddr_of_inOneHalf (o := o) (.inl hlow) hb haddr
  refine ⟨⟨_, hcanon⟩, last, haddr, hlast, ?_⟩
  -- a page of the walk has a byte of the range, which is accessible
  intro page hpage
  rw [Page.mem_rangeInclusive_iff_exists (by dsimp only; omega) (.inl (by omega))] at hpage
  obtain ⟨v, hv, hv', rfl⟩ := hpage
  exact page_of_accessible (h v.addr hv (by omega))

/-- **The checks are exact in the lower half**, for either access: no page of
the range is missed, and no other page is asked for.  What passes them gets its
slice, null or not. -/
theorem constructUserRange_lower (hb : 0 < bytes.toNat)
    (hlow : ptr.toNat + bytes.toNat ≤ 2 ^ 47) :
    (RangeAccessible pt access ptr.toNat bytes.toNat →
      constructUserRange access o pt ptr bytes = sliceFromRawParts o ptr.toNat bytes.toNat) ∧
    (¬ RangeAccessible pt access ptr.toNat bytes.toNat →
      constructUserRange access o pt ptr bytes = .err .invalidArgument) := by
  have hmax : bytes.toNat ≤ isizeMax := by
    unfold isizeMax
    omega
  refine ⟨fun hacc => constructUserRange_of_walk hmax (walkPasses_of_accessible hb hlow hacc), ?_⟩
  intro hno
  have hcanon : Canonical ptr.toNat := .inl (by omega)
  have haddr : (⟨_, hcanon⟩ : VirtAddr).addr = VirtAddr.signExtend ptr.toNat :=
    (VirtAddr.signExtend_of_canonical hcanon).symm
  obtain ⟨-, last, hlast, -⟩ := lastAddr_of_inOneHalf (o := o) (.inl hlow) hb haddr
  refine (constructUserRange_of_last _ _ haddr hmax hlast).resolve_left ?_
  rintro ⟨hwalk, -⟩
  -- the walk would have visited every byte
  refine hno ?_
  intro a ha ha'
  have hbyte := hwalk.accessible (.inl hlow) (show a - ptr.toNat < bytes.toNat by omega)
  rwa [Nat.add_sub_cancel' ha, Nat.mod_eq_of_lt (by omega)] at hbyte

end Syscalls
