/-
Physical frames: `BootInfoFrameAllocator` of `memory.rs`.

Every call of `allocate_frame` flattens the usable regions of the memory map
into the addresses of their frames and takes the `next`-th one.  Seen over a
whole boot, the calls walk one fixed list:

* `mem_usableAddrs`, `nodup_usableAddrs` — what that list holds, and that it
  holds nothing twice where the usable regions are disjoint;
* `allocateFrames_eq` — `n` calls return its first `n` elements;
* `allocateFrames_correct` — no frame is handed out twice, each one is usable,
  and all of them are handed out before the first `None`, which is final.
-/
import ZuluOs.Paging

variable {ε : Type}

/-- `x86_64::PhysAddr`: at most 52 bits. -/
structure PhysAddr where
  addr : ℕ
  addr_lt : addr < 2 ^ 52

/-- `PhysAddr::new` -/
def PhysAddr.new (addr : ℕ) : Outcome ε PhysAddr :=
  if h : addr < 2 ^ 52 then .ok ⟨addr, h⟩ else .stop .panic

/-- `PhysFrame::containing_address` -/
def PhysFrame.containingAddress (a : PhysAddr) : PhysFrame :=
  ⟨a.addr / 4096, by have := a.addr_lt; omega⟩

/-- `bootloader::bootinfo::MemoryRegionType` -/
inductive MemoryRegionType where
  | usable
  | inUse
  | reserved
  | acpiReclaimable
  | acpiNvs
  | badMemory
  | kernel
  | kernelStack
  | pageTable
  | bootloader
  | frameZero
  | empty
  | bootInfo
  | package
deriving DecidableEq, Repr

/-- `bootloader::bootinfo::MemoryRegion`, which is a range of whole frames. -/
structure MemoryRegion where
  startAddr : ℕ
  endAddr : ℕ
  regionType : MemoryRegionType
  start_dvd : 4096 ∣ startAddr
  end_dvd : 4096 ∣ endAddr
  start_lt : startAddr < 2 ^ 52
  end_lt : endAddr < 2 ^ 52

namespace MemoryRegion

/-- `(start_addr..end_addr).step_by(4096)` -/
def frameAddresses (r : MemoryRegion) : List ℕ :=
  List.range' r.startAddr ((r.endAddr - r.startAddr + 4095) / 4096) 4096

/-- The bytes of the region. -/
def bytes (r : MemoryRegion) : Set ℕ := Set.Ico r.startAddr r.endAddr

/-- The frame lies wholly inside the region. -/
def Holds (r : MemoryRegion) (f : PhysFrame) : Prop :=
  r.startAddr ≤ f.startAddress ∧ f.startAddress + 4096 ≤ r.endAddr

theorem mem_frameAddresses {r : MemoryRegion} {a : ℕ} :
    a ∈ r.frameAddresses ↔ 4096 ∣ a ∧ r.startAddr ≤ a ∧ a < r.endAddr := by
  have hstart := r.start_dvd
  rw [frameAddresses, List.mem_range']
  constructor
  · rintro ⟨i, hi, rfl⟩
    omega
  · rintro ⟨hdvd, hle, hlt⟩
    exact ⟨(a - r.startAddr) / 4096, by omega, by omega⟩

theorem nodup_frameAddresses (r : MemoryRegion) : r.frameAddresses.Nodup :=
  List.nodup_range' 4096

end MemoryRegion

/-- `BootInfoFrameAllocator` -/
structure BootInfoFrameAllocator where
  memoryMap : List MemoryRegion
  next : ℕ

namespace BootInfoFrameAllocator

/-- `init` -/
def init (memoryMap : List MemoryRegion) : BootInfoFrameAllocator := ⟨memoryMap, 0⟩

/-- The addresses `usable_frames` turns into frames. -/
def usableAddrs (memoryMap : List MemoryRegion) : List ℕ :=
  (memoryMap.filter (·.regionType = .usable)).flatMap (·.frameAddresses)

/-- The last step of `usable_frames`. -/
def frameAt (addr : ℕ) : Outcome ε PhysFrame := do
  .ok (.containingAddress (← PhysAddr.new addr))

/-- `allocate_frame` -/
def allocateFrame (o : Overflow) (a : BootInfoFrameAllocator) :
    Outcome ε (Option PhysFrame × BootInfoFrameAllocator) := do
  let frame ← Outcome.nth frameAt (usableAddrs a.memoryMap) a.next
  let next ← o.addU64 a.next 1
  .ok (frame, { a with next := next })

/-- What `n` calls of `allocate_frame` return. -/
def allocateFrames (o : Overflow) : ℕ → BootInfoFrameAllocator →
    Outcome ε (List (Option PhysFrame) × BootInfoFrameAllocator)
  | 0, a => .ok ([], a)
  | n + 1, a => do
    let (frame, a) ← a.allocateFrame o
    let (frames, a) ← allocateFrames o n a
    .ok (frame :: frames, a)

/-! ### The list of usable frames -/

/-- The frame is part of a usable region. -/
def Usable (memoryMap : List MemoryRegion) (f : PhysFrame) : Prop :=
  ∃ r ∈ memoryMap, r.regionType = .usable ∧ r.Holds f

/-- No two usable regions share a byte. -/
def DisjointRegions (memoryMap : List MemoryRegion) : Prop :=
  (memoryMap.filter (·.regionType = .usable)).Pairwise fun r s => Disjoint r.bytes s.bytes

variable {memoryMap : List MemoryRegion}

theorem mem_usableAddrs {addr : ℕ} : addr ∈ usableAddrs memoryMap ↔
    4096 ∣ addr ∧ ∃ r ∈ memoryMap, r.regionType = .usable ∧ r.startAddr ≤ addr ∧
      addr < r.endAddr := by
  simp only [usableAddrs, List.mem_flatMap, List.mem_filter, decide_eq_true_eq,
    MemoryRegion.mem_frameAddresses]
  constructor
  · rintro ⟨r, ⟨hr, htype⟩, hdvd, hle, hlt⟩
    exact ⟨hdvd, r, hr, htype, hle, hlt⟩
  · rintro ⟨hdvd, r, hr, htype, hle, hlt⟩
    exact ⟨r, ⟨hr, htype⟩, hdvd, hle, hlt⟩

theorem nodup_usableAddrs (h : DisjointRegions memoryMap) : (usableAddrs memoryMap).Nodup := by
  rw [usableAddrs, List.nodup_flatMap]
  refine ⟨fun r _ => r.nodup_frameAddresses, h.imp fun {r s} hrs => ?_⟩
  rintro a ha hb
  rw [MemoryRegion.mem_frameAddresses] at ha hb
  exact Set.disjoint_left.mp hrs ha.2 hb.2

/-- `frameAt` where it returns. -/
def toFrame (addr : ℕ) : PhysFrame := ⟨addr / 4096 % 2 ^ 40, Nat.mod_lt _ (by decide)⟩

theorem frameAt_eq {addr : ℕ} (h : addr ∈ usableAddrs memoryMap) :
    (frameAt addr : Outcome ε PhysFrame) = .ok (toFrame addr) := by
  obtain ⟨-, r, -, -, -, hlt⟩ := mem_usableAddrs.mp h
  have hlt : addr < 2 ^ 52 := hlt.trans r.end_lt
  rw [frameAt, PhysAddr.new, dif_pos hlt, Outcome.ok_bind, Outcome.ok.injEq]
  refine PhysFrame.ext ?_
  rw [PhysFrame.containingAddress, toFrame]
  dsimp only
  omega

/-- The frames of the usable regions, in the order of the memory map. -/
def usableFrames (memoryMap : List MemoryRegion) : List PhysFrame :=
  (usableAddrs memoryMap).map toFrame

theorem toFrame_startAddress {addr : ℕ} (h : addr ∈ usableAddrs memoryMap) :
    (toFrame addr).startAddress = addr := by
  obtain ⟨hdvd, r, -, -, -, hlt⟩ := mem_usableAddrs.mp h
  have hend := r.end_lt
  rw [PhysFrame.startAddress, toFrame]
  dsimp only
  omega

theorem mem_usableFrames {f : PhysFrame} : f ∈ usableFrames memoryMap ↔ Usable memoryMap f := by
  rw [usableFrames, List.mem_map]
  constructor
  · rintro ⟨addr, haddr, rfl⟩
    obtain ⟨hdvd, r, hr, htype, hle, hlt⟩ := mem_usableAddrs.mp haddr
    have hend := r.end_dvd
    refine ⟨r, hr, htype, ?_⟩
    rw [MemoryRegion.Holds, toFrame_startAddress haddr]
    omega
  · -- a frame inside a region starts at one of its steps, since the region is aligned
    rintro ⟨r, hr, htype, hle, hlt⟩
    have hnumber := f.number_lt
    refine ⟨f.startAddress, mem_usableAddrs.mpr ⟨⟨f.number, Nat.mul_comm ..⟩, r, hr, htype, hle,
      by omega⟩, PhysFrame.ext ?_⟩
    rw [toFrame, PhysFrame.startAddress]
    dsimp only
    omega

theorem nodup_usableFrames (h : DisjointRegions memoryMap) : (usableFrames memoryMap).Nodup := by
  refine (List.nodup_map_iff_inj_on (nodup_usableAddrs h)).mpr fun a ha b hb hab => ?_
  rw [← toFrame_startAddress ha, hab, toFrame_startAddress hb]

/-- There are at most `2 ^ 40` frames. -/
theorem length_usableFrames (h : DisjointRegions memoryMap) :
    (usableFrames memoryMap).length ≤ 2 ^ 40 := by
  have hnodup : ((usableFrames memoryMap).map (·.number)).Nodup :=
    (nodup_usableFrames h).map fun f g hfg => PhysFrame.ext hfg
  have hsub : (usableFrames memoryMap).map (·.number) ⊆ List.range (2 ^ 40) := by
    intro k hk
    obtain ⟨f, -, rfl⟩ := List.mem_map.mp hk
    exact List.mem_range.mpr f.number_lt
  have hlen := (hnodup.subperm hsub).length_le
  rwa [List.length_map, List.length_range] at hlen

/-! ### Runs of calls -/

theorem allocateFrame_eq (o : Overflow) {next : ℕ} (h : next + 1 < 2 ^ 64) :
    (allocateFrame o ⟨memoryMap, next⟩ : Outcome ε _)
      = .ok ((usableFrames memoryMap)[next]?, ⟨memoryMap, next + 1⟩) := by
  rw [allocateFrame, Outcome.nth_eq_ok fun addr => frameAt_eq, Outcome.ok_bind,
    o.addU64_of_lt h, Outcome.ok_bind, usableFrames, List.getElem?_map]

/-- `n` calls return the next `n` elements of the list of usable frames. -/
theorem allocateFrames_eq (o : Overflow) {next n : ℕ} (h : next + n < 2 ^ 64) :
    (allocateFrames o n ⟨memoryMap, next⟩ : Outcome ε _)
      = .ok ((List.range' next n).map ((usableFrames memoryMap)[·]?), ⟨memoryMap, next + n⟩) := by
  induction n generalizing next with
  | zero => rfl
  | succ n ih =>
    rw [allocateFrames, allocateFrame_eq o (by omega), Outcome.ok_bind]
    dsimp only
    rw [ih (by omega), Outcome.ok_bind, List.range'_succ, List.map_cons, Nat.add_assoc,
      Nat.add_comm 1 n]

/-- What the `i`-th of `n` calls returns. -/
theorem getElem?_calls {frames : List PhysFrame} {n i : ℕ} {f : Option PhysFrame} :
    ((List.range' 0 n).map (frames[·]?))[i]? = some f ↔ i < n ∧ frames[i]? = f := by
  by_cases hi : i < n
  · simp [hi]
  · simp [hi]

/-- **Frame allocator correctness.**  The first `n` calls return; they return
no frame twice and only usable ones; no usable frame is left out before the
first `None`; and `None` is final, and comes after at most `2 ^ 40` calls. -/
theorem allocateFrames_correct (o : Overflow) (memoryMap : List MemoryRegion)
    (hdisj : DisjointRegions memoryMap) (n : ℕ) (hn : n < 2 ^ 64) :
    ∃ (frames : List (Option PhysFrame)) (a : BootInfoFrameAllocator),
      (allocateFrames o n (init memoryMap) : Outcome Empty _) = .ok (frames, a) ∧
      frames.length = n ∧
      (∀ (i j : ℕ) (f : PhysFrame), frames[i]? = some (some f) → frames[j]? = some (some f) →
        i = j) ∧
      (∀ (i : ℕ) (f : PhysFrame), frames[i]? = some (some f) → Usable memoryMap f) ∧
      (∀ i : ℕ, frames[i]? = some none → ∀ f, Usable memoryMap f →
        ∃ j < i, frames[j]? = some (some f)) ∧
      (∀ i j : ℕ, i ≤ j → j < n → frames[i]? = some none → frames[j]? = some none) ∧
      (2 ^ 40 < n → frames[2 ^ 40]? = some none) := by
  have hnodup := nodup_usableFrames hdisj
  -- the calls walk one list, so each part is a fact about indices into it
  refine ⟨_, _, allocateFrames_eq o (by omega), by simp, ?_, ?_, ?_, ?_, ?_⟩
  · intro i j f hi hj
    rw [getElem?_calls] at hi hj
    obtain ⟨hlt, -⟩ := List.getElem?_eq_some_iff.mp hi.2
    exact (List.getElem?_inj hlt hnodup).mp (hi.2.trans hj.2.symm)
  · intro i f hi
    rw [getElem?_calls] at hi
    exact mem_usableFrames.mp (List.mem_of_getElem? hi.2)
  · intro i hi f hf
    rw [getElem?_calls, List.getElem?_eq_none_iff] at hi
    obtain ⟨j, hj⟩ := List.getElem?_of_mem (mem_usableFrames.mpr hf)
    obtain ⟨hlt, -⟩ := List.getElem?_eq_some_iff.mp hj
    exact ⟨j, by omega, getElem?_calls.mpr ⟨by omega, hj⟩⟩
  · intro i j hij hj hi
    rw [getElem?_calls, List.getElem?_eq_none_iff] at hi ⊢
    omega
  · intro h
    rw [getElem?_calls, List.getElem?_eq_none_iff]
    exact ⟨h, length_usableFrames hdisj⟩

/-- Two usable regions, out of order and with one of another type between. -/
def sampleMap : List MemoryRegion :=
  [⟨0x10000, 0x12000, .usable, by decide, by decide, by decide, by decide⟩,
    ⟨0x12000, 0x20000, .kernel, by decide, by decide, by decide, by decide⟩,
    ⟨0x1000, 0x4000, .usable, by decide, by decide, by decide, by decide⟩]

theorem disjointRegions_sampleMap : DisjointRegions sampleMap := by
  have h : sampleMap.filter (·.regionType = .usable) = [sampleMap[0], sampleMap[2]] := rfl
  rw [DisjointRegions, h, List.pairwise_pair, Set.disjoint_left]
  rintro x ⟨hx, -⟩ ⟨-, hx'⟩
  exact absurd (hx.trans_lt hx') (by decide)

theorem allocateFrames_correct_sample :
    DisjointRegions sampleMap ∧
    ∃ (frames : List (Option PhysFrame)) (a : BootInfoFrameAllocator),
      (allocateFrames .panic 6 (init sampleMap) : Outcome Empty _) = .ok (frames, a) ∧
      frames[5]? = some none ∧
      ∀ f, Usable sampleMap f → ∃ j < 5, frames[j]? = some (some f) := by
  obtain ⟨frames, a, hrun, -, -, -, hall, -⟩ :=
    allocateFrames_correct .panic sampleMap disjointRegions_sampleMap 6 (by decide)
  have hlast : frames[5]? = some none := by
    obtain ⟨rfl, -⟩ := Prod.mk.inj (Outcome.ok.inj (hrun.symm.trans rfl))
    rfl
  exact ⟨disjointRegions_sampleMap, frames, a, hrun, hlast, hall 5 hlast⟩

end BootInfoFrameAllocator
