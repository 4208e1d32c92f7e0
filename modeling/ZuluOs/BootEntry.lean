/-
From the boot to user mode: what `kernel_main` has set up when it calls
`enter_user_mode` is what every system call relies on.

The GS base points to the box in which `init_thread_data` has put the kernel's
`rsp`.  User code must not get at it; nor at the stack the kernel was booted on,
whose pages the boot loader has mapped.

* `kernelMain_placement` — the box and the kernel's stack are hidden from user
  code and apart;
* `kernelMain_views` — user pages have frames of their own;
* `kernelMain_session` — user code is entered, and every session of it goes as
  the reference says and can go on.
-/
import ZuluOs.BootHeap
import ZuluOs.SyscallSession

open BootInfoFrameAllocator PageTableFlags ByteMemory Transition Syscalls SyscallEntry VgaBuffer

namespace Boot

/-! ### Words in memory order -/

theorem getLsbD_leBytes (w : UInt64) {i : ℕ} (hi : i < 64) :
    (w >>> UInt64.ofNat (8 * (i / 8))).toUInt8.toBitVec.getLsbD (i % 8)
      = w.toBitVec.getLsbD i := by
  rw [UInt64.toBitVec_toUInt8, UInt64.toBitVec_shiftRight]
  have hshift : 8 * (i / 8) % 2 ^ 64 % BitVec.toNat 64#64 + i % 8 = i := by
    show 8 * (i / 8) % 2 ^ 64 % 64 + i % 8 = i
    omega
  simp only [UInt64.toBitVec_ofNat', BitVec.toNat_umod, BitVec.ushiftRight_eq',
    BitVec.toNat_ofNat, BitVec.getLsbD_setWidth, BitVec.getLsbD_ushiftRight]
  rw [decide_eq_true (Nat.mod_lt i (by decide)), Bool.true_and]
  exact congrArg w.toBitVec.getLsbD hshift

/-- Eight bytes in memory order are read as their word. -/
theorem readWord_leBytes {mem : ByteMemory} {a : Word} {w : UInt64}
    (h : ∀ i < 8, (leBytes w)[i]? = some (.ofBitVec (mem (a + .ofNat 64 i)))) :
    readWord mem a = w.toBitVec := by
  ext i hi
  have hbyte := h (i / 8) (by omega)
  rw [leBytes, List.getElem?_map, List.getElem?_range (by omega), Option.map_some,
    Option.some.injEq] at hbyte
  rw [readWord, BitVec.getElem_ofFnLE, ← BitVec.getLsbD_eq_getElem, ← getLsbD_leBytes w hi, hbyte]

variable {M : Type} {mapper : Mapper M BootInfoFrameAllocator}
  {parse : List UInt8 → Option Elf.ElfHeaders} {collections : List HeapUse} {o : Overflow}
  {memoryMap : List MemoryRegion} {childProcess : List UInt8} {rsp : UInt64} {m : M}
  {mem : PhysMemory} {boot : Booted M} {elf : Elf.ElfHeaders} {tables : M → List PhysFrame}

/-! ### Where the kernel's side is -/

/-- What runs after the boot: the kernel's code, and user code under the table
`pt`. -/
structure Hosts (p : Platform) (inner : Word) (pt : PageTable) : Prop where
  handler : Cpu.Located p p.lstar (syscallHandler inner)
  inner_code : p.code inner = none
  canonical : ∀ a e, p.code a = some e → Canonical a.toNat
  table : UserTable p pt

/-- The page of the byte is mapped. -/
def Mapped (pt : PageTable) (x : Word) : Prop :=
  ∃ v : VirtAddr, v.addr = x.toNat ∧ pt (.containingAddress v) ≠ .notMapped

/-- The kernel runs on a stack of the boot loader's: the three words that
`syscall_handler` uses are mapped. -/
def OnBootStack (pt : PageTable) (rsp : UInt64) : Prop :=
  ∀ x : Word, 1 ≤ (rsp.toBitVec - x).toNat → (rsp.toBitVec - x).toNat ≤ 24 → Mapped pt x

theorem inWord_slot {k a x : Word} (ha : a ∈ [k - 8#64, k - 16#64, k - 24#64]) (hx : InWord a x) :
    1 ≤ (k - x).toNat ∧ (k - x).toNat ≤ 24 := by
  change (x - a).toNat < 8 at hx
  simp only [List.mem_cons, List.not_mem_nil, or_false] at ha
  rcases ha with rfl | rfl | rfl <;> bv_omega

theorem mapped_of_slot {pt : PageTable} (hstack : OnBootStack pt rsp) {a x : Word}
    (ha : a ∈ [rsp.toBitVec - 8#64, rsp.toBitVec - 16#64, rsp.toBitVec - 24#64])
    (hx : InWord a x) : Mapped pt x := by
  obtain ⟨hlo, hhi⟩ := inWord_slot ha hx
  exact hstack x hlo hhi

/-- Where the box is, as the GS base has it. -/
def boxAddr : Word := .ofNat 64 HEAP_START

theorem inWord_box {a x : Word} (ha : a ∈ [boxAddr, boxAddr + 8#64]) (hx : InWord a x) :
    HEAP_START ≤ x.toNat ∧ x.toNat < HEAP_START + 16 := by
  change (x - a).toNat < 8 at hx
  unfold boxAddr HEAP_START at *
  simp only [List.mem_cons, List.not_mem_nil, or_false] at ha
  rcases ha with rfl | rfl <;> bv_omega

theorem mem_kernelHeap_of_box {a x : Word}
    (ha : a ∈ [boxAddr, boxAddr + 8#64]) (hx : InWord a x)
    {v : VirtAddr} (hv : v.addr = x.toNat) : Page.containingAddress v ∈ kernelHeap := by
  obtain ⟨hlo, hhi⟩ := inWord_box ha hx
  have hsize : HEAP_START + 16 ≤ HEAP_START + HEAP_SIZE := by decide
  exact mem_kernelHeap_of_range hlo (hhi.trans_le hsize) hv

section

variable {p : Platform} {inner : Word} (hl : mapper.Lawful) (hparse : parse childProcess = some elf)
  (h : kernelMain mapper parse collections o memoryMap childProcess rsp m mem = .ok boot)

include hl hparse h

/-- What the boot loader has mapped is not left to user code. -/
theorem not_accessible_of_mapped (hkernel : NoUserPages (mapper.table m)) {x : Word}
    (hx : Mapped (mapper.table m) x) :
    ¬ Accessible (mapper.table boot.mapper) .readOnly x.toNat := by
  obtain ⟨v, hv, hmapped⟩ := hx
  rintro ⟨v', hv', frame, flags, hentry, huser, -⟩
  obtain rfl : v' = v := VirtAddr.ext (hv'.trans hv.symm)
  rcases kernelMain_table hl hparse h (.containingAddress v') with ⟨hbefore, -⟩ | ⟨-, -, -, hsame⟩
  · exact hmapped hbefore
  · rw [hkernel _ _ _ (hsame.symm.trans hentry)] at huser
    cases huser

theorem not_accessible_box (hkernel : NoUserPages (mapper.table m)) {a x : Word}
    (ha : a ∈ [boxAddr, boxAddr + 8#64])
    (hx : InWord a x) : ¬ Accessible (mapper.table boot.mapper) .readOnly x.toNat := by
  rw [accessible_iff hl hparse hkernel h]
  rintro ⟨v, hv, hpage⟩
  exact not_userPage_heap hl hparse h _ (mem_kernelHeap_of_box ha hx hv) hpage

/-- The boot loader has not mapped the heap. -/
theorem not_mapped_heap {x : Word}
    (hx : ∀ v : VirtAddr, v.addr = x.toNat → Page.containingAddress v ∈ kernelHeap) :
    ¬ Mapped (mapper.table m) x := by
  rintro ⟨v, hv, hmapped⟩
  rcases kernelMain_table hl hparse h (.containingAddress v) with ⟨hbefore, -⟩ | ⟨hno, -⟩
  · exact hmapped hbefore
  · exact hno (hx v hv)

theorem not_mapped_box {a x : Word} (ha : a ∈ [boxAddr, boxAddr + 8#64]) (hx : InWord a x) :
    ¬ Mapped (mapper.table m) x :=
  not_mapped_heap hl hparse h fun _ hv => mem_kernelHeap_of_box ha hx hv

/-- **The kernel's side after the boot**: the box and the words of the kernel's
stack are hidden from user code, and the words are not in the box. -/
theorem kernelMain_placement (hkernel : NoUserPages (mapper.table m))
    (hstack : OnBootStack (mapper.table m) rsp)
    (host : Hosts p inner (mapper.table boot.mapper)) :
    ∃ pl : Placement p, pl.threadData = boxAddr ∧ pl.kernelRsp = rsp.toBitVec ∧
      pl.inner = inner := by
  refine ⟨⟨boxAddr, rsp.toBitVec, inner, host.handler, host.inner_code, host.canonical, ?_, ?_⟩,
    rfl, rfl, rfl⟩
  · intro a ha x hx
    rw [← Bool.not_eq_true, host.table.user]
    simp only [List.mem_cons, List.not_mem_nil, or_false] at ha
    rcases ha with ha | ha | ha | ha | ha
    · exact not_accessible_box hl hparse h hkernel (by simp [ha]) hx
    · exact not_accessible_box hl hparse h hkernel (by simp [ha]) hx
    · exact not_accessible_of_mapped hl hparse h hkernel (mapped_of_slot hstack (by simp [ha]) hx)
    · exact not_accessible_of_mapped hl hparse h hkernel (mapped_of_slot hstack (by simp [ha]) hx)
    · exact not_accessible_of_mapped hl hparse h hkernel (mapped_of_slot hstack (by simp [ha]) hx)
  · intro a ha
    exact ⟨apart_of_bytes (fun x hx => mapped_of_slot hstack ha hx)
        fun x hx => not_mapped_box hl hparse h (by simp) hx,
      apart_of_bytes (fun x hx => mapped_of_slot hstack ha hx)
        fun x hx => not_mapped_box hl hparse h (by simp) hx⟩

end

/-! ### Frames of user pages -/

/-- What user code may access is mapped by the boot. -/
theorem bootPage_of_user (hl : mapper.Lawful) (hkernel : NoUserPages (mapper.table m))
    (h : kernelMain mapper parse collections o memoryMap childProcess rsp m mem = .ok boot)
    {page : Page} {frame : PhysFrame} {flags : PageTableFlags}
    (hentry : mapper.table boot.mapper page = .mapped frame flags)
    (huser : flags.contains USER_ACCESSIBLE = true) : BootPage o boot page := by
  by_contra hno
  unfold BootPage at hno
  push Not at hno
  obtain ⟨hheapPage, hstackPage, himage⟩ := hno
  obtain ⟨m₁, a₁, m₂, a₂, mem₁, hheap, hstack, hload⟩ := kernelMain_eq_ok h
  obtain ⟨_, -, -, hother⟩ := Elf.load_copy hl hload
  -- no stage has changed the entry
  rw [(hother page himage).2,
    (mapStackPages_table hl hstack).1 page fun p hp heq => hstackPage (heq ▸ hp),
    (mapHeapPages_table hl hheap).1 page fun p hp heq => hheapPage (heq ▸ hp)] at hentry
  rw [hkernel _ _ _ hentry] at huser
  cases huser

/-- Whatever user code has stored is in the frames of its pages. -/
theorem kernelMain_views (hl : mapper.Lawful) (hd : mapper.Draws o tables)
    (hdisj : DisjointRegions memoryMap) (hkernel : NoUserPages (mapper.table m))
    (h : kernelMain mapper parse collections o memoryMap childProcess rsp m mem = .ok boot)
    (view : ByteMemory) : ∃ pm, Views (mapper.table boot.mapper) pm view := by
  obtain ⟨-, -, _, -, -, hframes⟩ := kernelMain_frames tables hl hd hdisj h
  refine exists_views (fun p q frame flags flags' hp hpu hq hqu => ?_) view
  exact hframes p q (bootPage_of_user hl hkernel h hp hpu) (bootPage_of_user hl hkernel h hq hqu)
    frame flags flags' hp hq

/-! ### Into user mode -/

/-- `kernel_main` calls `enter_user_mode`; the memory is what the table says. -/
structure AtEnterUserMode (p : Platform) (pt : PageTable) (boot : Booted M) (c : Cpu) : Prop where
  code : Cpu.Located p c.rip enterUserMode
  userMode : c.userMode = false
  gsBase : c.gsBase = .ofNat 64 boot.gsBase.addr
  entryPoint : c.regs .rdi = .ofNat 64 boot.bin.entryPoint.addr
  topOfStack : c.regs .rsi = .ofNat 64 boot.topOfStack
  mem : ∀ a b, (pt.loadByte boot.memory a : Outcome Empty UInt8) = .ok b →
    c.mem (.ofNat 64 a) = b.toBitVec

/-- `syscall_handler` will find the kernel's `rsp` in the box. -/
theorem kernelMain_entering (hl : mapper.Lawful) (hd : mapper.Draws o tables)
    (hdisj : DisjointRegions memoryMap)
    (h : kernelMain mapper parse collections o memoryMap childProcess rsp m mem = .ok boot)
    (hfits : ∀ s ∈ boot.bin.loadSegments,
      s.fileLen ≤ s.addr.len ∧ s.addr.start.addr + s.addr.len < 2 ^ 64)
    (hroom : 16 + requested collections ≤ HEAP_SIZE)
    {p : Platform} {pl : Placement p} (hbox : pl.threadData = boxAddr)
    (hrsp : pl.kernelRsp = rsp.toBitVec) {c : Cpu}
    (hc : AtEnterUserMode p (mapper.table boot.mapper) boot c) : Entering pl c := by
  obtain ⟨_, _, _, _, _, _, -, -, -, -, -, hbase, -⟩ := kernelMain_box h
  refine ⟨hc.code, hc.userMode, ?_, ?_, ?_⟩
  · rw [hc.gsBase, hbase, hbox, boxAddr]
  · rw [hbox, hrsp]
    refine readWord_leBytes fun i hi => ?_
    have hlen : i < (leBytes rsp).length := by rwa [leBytes, List.length_map, List.length_range]
    have hb := List.getElem?_eq_getElem hlen
    have hw : (HEAP_START + i, (leBytes rsp)[i]) ∈ threadDataWrites rsp :=
      mem_threadDataWrites.mpr ⟨i, rfl, by rw [List.getElem?_append_left hlen, hb]⟩
    have hread := hc.mem _ _ (kernelMain_threadData hl hd hdisj h hfits hroom hw)
    rw [hb, boxAddr, ← BitVec.ofNat_add, hread]
  · rw [hc.entryPoint, BitVec.toNat_ofNat, Nat.mod_eq_of_lt boot.bin.entryPoint.addr_lt]
    exact boot.bin.entryPoint.canonical

/-- User code may write to its stack. -/
theorem kernelMain_userStack (hl : mapper.Lawful) (hparse : parse childProcess = some elf)
    (hkernel : NoUserPages (mapper.table m))
    (h : kernelMain mapper parse collections o memoryMap childProcess rsp m mem = .ok boot)
    {p : Platform} (hpt : UserTable p (mapper.table boot.mapper)) {x : Word}
    (hlo : 0xDEADB000 ≤ x.toNat) (hhi : x.toNat < 0xDEADF000) : p.userWrite x = true := by
  rw [hpt.userWrite, accessible_iff hl hparse hkernel h]
  exact ⟨⟨x.toNat, .inl (by omega)⟩, rfl,
    .inl (mem_stackPages.mpr ⟨_, hlo, Nat.le_of_lt_succ hhi, rfl⟩)⟩

/-- **From the boot to the system calls.**  If the files of the segments fit and
the collections of the load have room on the heap, `enter_user_mode` enters the
program at its entry point, on a stack it may use down to its last page.  From
there on, whatever the program does, as long as the ranges of its calls are slices
of the lower half, every call that was made has come back with the answer of the
reference, and the screen shows the texts of the calls; and wherever the program
is, it can make one more such call, which is answered, unless it is `Exit`. -/
theorem kernelMain_session (hl : mapper.Lawful) (hd : mapper.Draws o tables)
    (hdisj : DisjointRegions memoryMap) (hparse : parse childProcess = some elf)
    (hkernel : NoUserPages (mapper.table m)) (hstack : OnBootStack (mapper.table m) rsp)
    (h : kernelMain mapper parse collections o memoryMap childProcess rsp m mem = .ok boot)
    (hfits : ∀ s ∈ boot.bin.loadSegments,
      s.fileLen ≤ s.addr.len ∧ s.addr.start.addr + s.addr.len < 2 ^ 64)
    (hroom : 16 + requested collections ≤ HEAP_SIZE)
    {p : Platform} {inner : Word} (host : Hosts p inner (mapper.table boot.mapper)) {c : Cpu}
    (hc : AtEnterUserMode p (mapper.table boot.mapper) boot c) (w₀ : Writer) :
    ∃ (pl : Placement p) (d : Cpu), pl.inner = inner ∧ pl.kernelRsp = rsp.toBitVec ∧
      RunsUntil (Cpu.next p) (·.userMode = true) c d ∧
      d.rip = .ofNat 64 boot.bin.entryPoint.addr ∧ d.regs .rsp = 0xDEADF000#64 ∧
      (∀ x : Word, 0xDEADB000 ≤ x.toNat → x.toNat < 0xDEADF000 → p.userWrite x = true) ∧
      ∀ calls d' w, ScreenSession pl o (mapper.table boot.mapper) d w₀ calls d' w →
        (∀ r ∈ calls, InRange r.entry) →
        (∀ r ∈ calls, r.RoundTrip pl ∧
          r.exit.arg .rax = (r.reply (mapper.table boot.mapper)).1) ∧
        (w.rows, w.columnPosition)
          = w₀.terminal (texts (mapper.table boot.mapper) calls) ∧
        (Cpu.Located p d'.rip syscallStub → p.WritableWord (d'.regs .rsp - 8#64) →
          p.UserWord (d'.regs .rsp) → InRange d' → d'.arg .rdi ≠ 3 →
            ∃ (r : SyscallEntry.Call) (w' : Writer), r.entry = d' ∧
              r.Answered pl o (mapper.table boot.mapper) w w') := by
  obtain ⟨pl, hbox, hrsp, hinner⟩ := kernelMain_placement hl hparse h hkernel hstack host
  obtain ⟨_, _, _, _, _, _, -, -, -, -, -, -, htop⟩ := kernelMain_box h
  obtain ⟨d, hrun, hready, hrip, hsp, -⟩ :=
    (kernelMain_entering hl hd hdisj h hfits hroom hbox hrsp hc).enters
  refine ⟨pl, d, hinner, hrsp, hrun, hrip.trans hc.entryPoint, ?_, ?_, ?_⟩
  · rw [hsp, hc.topOfStack, htop]
  · exact fun x => kernelMain_userStack hl hparse hkernel h host.table
  · intro calls d' w hs hrange
    obtain ⟨hcalls, hscreen⟩ := hs.replies hready host.table hrange
    obtain ⟨hready', htrips⟩ := hs.session.ready hready
    refine ⟨fun r hr => ⟨htrips r hr, (hcalls r hr).1⟩, ?_, ?_⟩
    · rw [← w.terminal_nil, hscreen [], List.append_nil]
    · intro hstub hframe huser hin hexit
      obtain ⟨e, -, hanswer⟩ := hready'.exists_answered hstub hframe huser hin hexit
      obtain ⟨pm, hviews⟩ := kernelMain_views hl hd hdisj hkernel h e.mem
      exact hanswer pm hviews

/-! ### A boot on a stack page -/

/-- The boot loader has mapped one page, for the stack. -/
def stackTable : PageTable := fun page =>
  if page = .ofNumber 0x100 then .mapped ⟨7, by decide⟩ (PRESENT ∪ WRITABLE) else .notMapped

/-- The boot of `bootSharedPage`, on that stack. -/
def bootOnStack : Outcome Empty (Booted (PageTable × List PhysFrame)) :=
  kernelMain (drawingMapper .panic 1) (fun _ => some Elf.sharedPageElf) sampleUses .panic bootMap
    [0xeb, 0xfe, 0x2a] 0x100800 (stackTable, []) fun _ _ => 0

theorem bootOnStack_eq_ok : ∃ boot, bootOnStack = .ok boot ∧ boot.bin = Elf.sharedPageFile := by
  have h : (do let boot ← bootOnStack
               .ok boot.bin : Outcome Empty Elf.ElfFile) = .ok Elf.sharedPageFile := by
    decide +kernel
  rw [Outcome.bind_eq_ok] at h
  obtain ⟨boot, hboot, hbin⟩ := h
  exact ⟨boot, hboot, Outcome.ok.inj hbin⟩

theorem noUserPages_stackTable : NoUserPages stackTable := by
  intro page frame flags h
  change (if _ then _ else _) = _ at h
  split at h
  · obtain ⟨-, rfl⟩ := TranslateResult.mapped.inj h
    decide
  · cases h

theorem onBootStack_stackTable : OnBootStack stackTable 0x100800 := by
  intro x hlo hhi
  change 1 ≤ (0x100800#64 - x).toNat at hlo
  change (0x100800#64 - x).toNat ≤ 24 at hhi
  have hx : 0x100000 ≤ x.toNat ∧ x.toNat < 0x101000 := by bv_omega
  refine ⟨⟨x.toNat, .inl (by omega)⟩, rfl, ?_⟩
  have hpage : Page.containingAddress ⟨x.toNat, .inl (by omega)⟩ = .ofNumber 0x100 := by
    refine Page.ext ?_
    show x.toNat % 2 ^ 48 / 4096 = 0x100
    omega
  rw [hpage, stackTable, if_pos rfl]
  exact nofun

open Classical in
theorem readable_of_writable (pt : PageTable) (x : Word)
    (h : decide (Accessible pt .readWrite x.toNat) = true) :
    decide (Accessible pt .readOnly x.toNat) = true :=
  decide_eq_true (of_decide_eq_true h).readOnly

open Classical in
/-- The code of `samplePlatform`, with the boot's table. -/
noncomputable def bootPlatform (pt : PageTable) : Platform :=
  { samplePlatform with
    user := fun x => decide (Accessible pt .readOnly x.toNat)
    userWrite := fun x => decide (Accessible pt .readWrite x.toNat)
    user_of_userWrite := readable_of_writable pt }

/-- Where instructions stand is a matter of the code alone. -/
theorem located_of_code {p q : Platform} (hcode : q.code = p.code) {a : Word} {is : List Instr}
    (h : Cpu.Located p a is) : Cpu.Located q a is := by
  induction is generalizing a with
  | nil => trivial
  | cons i is ih =>
    obtain ⟨b, hi, hrest⟩ := h
    exact ⟨b, hcode ▸ hi, ih hrest⟩

theorem hosts_bootPlatform (pt : PageTable) : Hosts (bootPlatform pt) 0xA000#64 pt where
  handler :=
    located_of_code (p := samplePlatform) (q := bootPlatform pt) rfl samplePlacement.handler
  inner_code := rfl
  canonical := samplePlacement.canonical
  table := by
    classical
    exact ⟨fun _ => decide_eq_true_iff, fun _ => decide_eq_true_iff⟩

/-- At `enter_user_mode`, with the memory the table shows. -/
def bootCpu (boot : Booted (PageTable × List PhysFrame)) : Cpu :=
  { sampleBoot with
    regs := fun r => match r with
      | .rdi => .ofNat 64 boot.bin.entryPoint.addr
      | .rsi => .ofNat 64 boot.topOfStack
      | _ => 0#64
    gsBase := .ofNat 64 boot.gsBase.addr
    mem := fun x => (boot.mapper.1.byteAt boot.memory x.toNat).toBitVec }

theorem bootCpu_atEnterUserMode (boot : Booted (PageTable × List PhysFrame)) :
    AtEnterUserMode (bootPlatform boot.mapper.1) boot.mapper.1 boot (bootCpu boot) where
  code := located_of_code (p := samplePlatform) (q := bootPlatform _) rfl sampleBoot_entering.code
  userMode := rfl
  gsBase := rfl
  entryPoint := rfl
  topOfStack := rfl
  mem := by
    intro a b h
    have hcanon := PageTable.canonical_of_loadByte h
    have hlt : a < 2 ^ 64 := (⟨a, hcanon⟩ : VirtAddr).addr_lt
    show (boot.mapper.1.byteAt boot.memory (BitVec.ofNat 64 a).toNat).toBitVec = _
    rw [BitVec.toNat_ofNat, Nat.mod_eq_of_lt hlt, PageTable.byteAt, h]

/-- The program has filled its registers for `write(0, bytes)`, with four bytes of
its stack, and calls the stub. -/
def bootCall (c : Cpu) : Cpu :=
  { c with
    rip := 0x1000#64
    regs := fun r => match r with
      | .rdi => 2#64
      | .rdx => 0xDEADB000#64
      | .rcx => 4#64
      | .rsp => 0xDEADE800#64
      | _ => 0#64 }

/-- What the program needs for that, on its stack. -/
theorem bootCall_frame {p : Platform}
    (hstack : ∀ x : Word, 0xDEADB000 ≤ x.toNat → x.toNat < 0xDEADF000 → p.userWrite x = true)
    (c : Cpu) : p.WritableWord ((bootCall c).regs .rsp - 8#64) ∧
      p.UserWord ((bootCall c).regs .rsp) := by
  have hword : ∀ a : Word, 0xDEADB000 ≤ a.toNat → a.toNat + 8 ≤ 0xDEADF000 → p.WritableWord a := by
    intro a hlo hhi i hi
    refine hstack _ ?_ ?_ <;> bv_omega
  exact ⟨hword (0xDEADE800#64 - 8#64) (by decide) (by decide),
    (hword 0xDEADE800#64 (by decide) (by decide)).userWord⟩

theorem bootCall_stub (pt : PageTable) (c : Cpu) :
    Cpu.Located (bootPlatform pt) (bootCall c).rip syscallStub := by
  have hstub : Cpu.Located samplePlatform 0x1000#64 syscallStub :=
    ⟨_, rfl, _, rfl, _, rfl, _, rfl, _, rfl, _, rfl, trivial⟩
  exact located_of_code (p := samplePlatform) (q := bootPlatform pt) rfl hstub

theorem kernelMain_session_onStack : ∃ boot, bootOnStack = .ok boot ∧
    ∃ (p : Platform) (pl : Placement p) (c d : Cpu) (r : SyscallEntry.Call) (w : Writer),
      RunsUntil (Cpu.next p) (·.userMode = true) c d ∧ d.rip = 0x660000#64 ∧
      r.entry = bootCall d ∧ ScreenSession pl .panic boot.mapper.1 d default [r] r.exit w ∧
      (w.rows, w.columnPosition) = (default : Writer).terminal (texts boot.mapper.1 [r]) := by
  obtain ⟨boot, hboot, hbin⟩ := bootOnStack_eq_ok
  have hdisj : DisjointRegions bootMap := List.pairwise_singleton _ _
  have hfits : ∀ s ∈ boot.bin.loadSegments,
      s.fileLen ≤ s.addr.len ∧ s.addr.start.addr + s.addr.len < 2 ^ 64 := by
    rw [hbin]
    exact Elf.sharedPageFile_fits
  obtain ⟨pl, d, -, -, hrun, hrip, -, hstack, hsession⟩ :=
    kernelMain_session (drawingMapper_lawful .panic 1) (drawingMapper_draws .panic 1) hdisj
      (m := (stackTable, [])) (show _ = some Elf.sharedPageElf from rfl) noUserPages_stackTable
      onBootStack_stackTable hboot hfits (by decide)
      (hosts_bootPlatform _) (bootCpu_atEnterUserMode boot) default
  have hmode : d.userMode = true := hrun.stops
  have hs : ScreenSession pl .panic boot.mapper.1 d default [] (bootCall d) default :=
    .user .start ⟨hmode, hmode, rfl, rfl, fun _ _ => rfl⟩
  have hrange : InRange (bootCall d) :=
    fun _ => show 1 ≤ (0xDEADB000 : UInt64).toNat ∧ 1 ≤ (4 : UInt64).toNat ∧
      (0xDEADB000 : UInt64).toNat + (4 : UInt64).toNat ≤ 2 ^ 47 by decide
  obtain ⟨hframe, huser⟩ := bootCall_frame hstack d
  obtain ⟨r, w, hentry, hr⟩ := (hsession [] _ _ hs (by simp)).2.2 (bootCall_stub _ d) hframe huser
    hrange (show (2 : UInt64) ≠ 3 by decide)
  have hs' := ScreenSession.call (hentry ▸ hs) hr
  refine ⟨boot, hboot, _, pl, _, d, r, w, hrun, ?_, hentry, hs',
    (hsession [r] _ w hs' (by simpa [hentry] using hrange)).2.1⟩
  rw [hrip, hbin]
  decide

end Boot
