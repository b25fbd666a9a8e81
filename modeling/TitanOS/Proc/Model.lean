import TitanOS.Sched.Model
import TitanOS.Vmm.Registry
import TitanOS.Vmm.Shared

/-!
# Processes (`exec_elf.c` over `scheduler.c`, `vmm.c` and `vmm_hashmap.c`)

The scheduler records its calls into the virtual memory manager; here they are carried out.  A
process takes a root table, a region object and frames for each segment and for the stack, and a
`process_t` and a `thread_t`; `reap_thread` and `reap_process` give objects back with `kfree`.

`objects` are the objects in use.  The frames of the heap itself are left out, as are the contents of
the file beyond its segments: for each of them the words that `vfs_read` writes are given.
-/

namespace TitanOS

open Function (update)

/-- What a block of the heap is used for. -/
inductive HeapObject
  | table (node : ℕ)
  | region (c : ℕ)
  | process (p : ℕ)
  | thread (t : ℕ)
  deriving DecidableEq, Repr

/-- The memory managers, the scheduler, `p->vmm` for each process, `kernel_stack_ptr`, and the
objects of the heap in use. -/
structure Processes where
  kernel : Kernel
  sched : Sched
  vmm : ℕ → Vmm
  kernelStackPtr : ℕ
  objects : List HeapObject

/-- A `PT_LOAD` segment, and the words that are read from the file to the one at `p_vaddr` on. -/
structure Segment where
  vaddr : ℕ
  memsz : ℕ
  words : List ℕ
  deriving Repr

/-- What `load_elf` uses of a file. -/
structure ElfFile where
  entry : ℕ
  segments : List Segment

namespace Kernel

/-- A copy of a `vmm_t`: the copy of the head object is another object. -/
def copyVmm (k : Kernel) (v : Vmm) : Kernel × Vmm :=
  let r := k.regions
  ({ k with
      regions := newRegion r (r.base v.head) (r.length v.head) (r.flags v.head) (r.next v.head) },
    ⟨r.count, v.pml4t⟩)

/-- Words written one behind the other from `v` on. -/
def writeWords : List ℕ → Kernel → ℕ → Option Kernel
  | [], k, _ => some k
  | e :: es, k, v => (k.store v e).bind fun k => writeWords es k ((v + 8) % 2 ^ 64)

/-- The bases that the loop of `reap_process` frees, for the list with the given head. -/
def basesToFree (k : Kernel) (head : ℕ) : List ℕ :=
  ((k.regionList head).map k.regions.base).takeWhile fun b => b ≠ kernelTextStart

end Kernel

namespace Processes

/-- The state after a call of the memory managers that leaves `k`, with the nodes it has made. -/
def leave (s : Processes) (k : Kernel) : Processes :=
  { s with
    kernel := k
    objects := s.objects ++ (List.range' s.kernel.map.count (k.map.count - s.kernel.map.count)).map
      .table }

/-- `vmm_alloc`, with the region object it makes if it does; the null pointer is `0`. -/
def vmmAlloc (fuel : ℕ) (s : Processes) (start length flags : ℕ) : Option (Processes × ℕ) := do
  let (k, p) ← s.kernel.vmmAlloc fuel start length flags 0
  let regions := List.range' s.kernel.regions.count (k.regions.count - s.kernel.regions.count)
  let s := s.leave k
  some ({ s with objects := s.objects ++ regions.map .region }, p)

/-- `vmm_free`, with the object that it gives to `kfree`. -/
def vmmFree (s : Processes) (base : ℕ) : Option Processes := do
  let r := s.kernel.regions
  let k ← s.kernel.vmmFree base
  let freed := if r.base s.kernel.currentVmm = base then none
    else (Kernel.findRegion r base (r.count + 1) s.kernel.currentVmm).map Prod.snd
  some { s with kernel := k, objects := s.objects.filter fun b => freed.map .region ≠ some b }

/-- `switch_vm_space`. -/
def switchVmSpace (s : Processes) (v : Vmm) : Option Processes :=
  (s.kernel.switchVmSpace v).map fun k => { s with kernel := k }

/-- `create_sections` for a stack: `KERNEL_STACK_SIZE` is two pages, and both are cleared.  There is
no way on from `PANIC`. -/
def createSections (fuel : ℕ) (s : Processes) (start : ℕ) : Option Processes := do
  let (s, p) ← s.vmmAlloc fuel start 0x2000 1
  if p = 0 then none
  else
    let k ← s.kernel.clearPage start
    let k ← k.clearPage (start + 0x1000)
    some { s with kernel := k }

/-- A call that the scheduler makes. -/
def call (fuel : ℕ) (s : Processes) : VmCall → Option Processes
  | .allocKernelStack =>
    { s with kernelStackPtr := s.kernelStackPtr - 0x3000 }.createSections fuel
      (s.kernelStackPtr - 0x3000)
  | .allocUserStack p => do
    let s ← s.switchVmSpace (s.vmm p)
    -- `USER_STACK_START`
    let s ← s.createSections fuel 0xc0000000
    s.switchVmSpace (s.vmm s.sched.currentProcess)
  | .vmmFree base => s.vmmFree base
  | .switchVmSpace p => s.switchVmSpace (s.vmm p)
  | .vmmHashmapRemove pml4t =>
    (s.kernel.map.vmmHashmapRemove pml4t).map fun r =>
      { s with kernel := { s.kernel with map := r.1 } }

/-- The scheduler goes on to `sched`, and makes its calls. -/
def follow (fuel : ℕ) (s : Processes) (sched : Sched) : Option Processes :=
  (sched.calls.drop s.sched.calls.length).foldlM (call fuel) { s with sched := sched }

/-- `create_proc`, with its objects at `p` and `t`.  The stack is at `USER_STACK_START`, or below the
last kernel stack. -/
def createProc (fuel wrapper : ℕ) (s : Processes) (p t : ℕ) (v : Vmm) (e : Sched.Entry)
    (addToQueue : Bool) : Option Processes := do
  let stack := if e.isUser then 0xc0000000 else s.kernelStackPtr - 0x3000
  let sched ← s.sched.createProc wrapper p t v.pml4t e addToQueue stack
  let s : Processes :=
    { s with vmm := update s.vmm p v, objects := s.objects ++ [.process p, .thread t] }
  s.follow fuel sched

/-- `sched_init`. -/
def schedInit (fuel wrapper : ℕ) (s : Processes) (p t idleMain : ℕ) : Option Processes := do
  let (k, v) ← s.kernel.createVmm fuel
  let s ← (s.leave k).createProc fuel wrapper p t v ⟨idleMain, 0, false⟩ false
  some { s with
    sched := { s.sched with idleProc := p, currentProcess := p, currentThread := t } }

/-- The body of the loop of `load_elf` for a `PT_LOAD` segment. -/
def loadSegment (fuel : ℕ) (s : Processes) (g : Segment) : Option Processes := do
  let (s, p) ← s.vmmAlloc fuel g.vaddr g.memsz 3
  if p = 0 then none
  else
    let k ← s.kernel.writeWords g.words g.vaddr
    some { s with kernel := k }

/-- `load_elf`. -/
def loadElf (fuel : ℕ) (s : Processes) (f : ElfFile) : Option Processes :=
  f.segments.foldlM (loadSegment fuel) s

/-- `load_elf` and the copy of the argument `vmm` of `create_proc`, in the order that the compiler
chooses. -/
def loadAndCopy (fuel : ℕ) (s : Processes) (f : ElfFile) (v : Vmm) (copyFirst : Bool) :
    Option (Processes × Vmm) :=
  if copyFirst then
    (loadElf fuel { s with kernel := (s.kernel.copyVmm v).1 } f).map fun s' =>
      (s', (s.kernel.copyVmm v).2)
  else
    (s.loadElf fuel f).map fun s =>
      ({ s with kernel := (s.kernel.copyVmm v).1 }, (s.kernel.copyVmm v).2)

/-- `exec_elf`; the name of the file is at `filename`. -/
def execElf (fuel wrapper : ℕ) (s : Processes) (f : ElfFile) (filename : ℕ) (copyFirst : Bool)
    (p t : ℕ) : Option Processes := do
  let (k, v) ← s.kernel.createVmm fuel
  let s ← (s.leave k).switchVmSpace v
  let (s, v) ← s.loadAndCopy fuel f v copyFirst
  let s ← s.createProc fuel wrapper p t v ⟨f.entry, filename, true⟩ true
  s.switchVmSpace (s.vmm s.sched.currentProcess)

/-- `schedule`.  A thread that is dead is reaped, and its process with its last thread; the loop of
`reap_process` then meets the regions that are left without the stack. -/
def schedule (fuel : ℕ) (s : Processes) (context : CpuContext) : Option Processes := do
  let prev := s.sched.currentThread
  let dead : Bool := s.sched.status prev = .dead
  let k ← (if dead then s.kernel.vmmFree (s.sched.stack prev) else some s.kernel)
  let (sched, _) ← s.sched.schedule context fun p => k.basesToFree (s.vmm p).head
  let s' ← s.follow fuel sched
  let p := s.sched.parent prev
  some (if dead then
    { s' with objects := s'.objects.filter fun b =>
        b ≠ .thread prev ∧ (b ≠ .process p ∨ s'.sched.threads p ≠ none) }
  else s')

/-! ### What a process leaves behind -/

/-- What happens while no memory is allocated and no thread ends. -/
inductive Op
  | schedule (context : CpuContext)
  | store (v e : ℕ)

/-- One step.  The thread that runs is not dead when `schedule` is called. -/
def step (fuel : ℕ) (s : Processes) : Op → Option Processes
  | .schedule context =>
    if s.sched.status s.sched.currentThread = .dead then none else s.schedule fuel context
  | .store v e => (s.kernel.store v e).map fun k => { s with kernel := k }

/-- The current thread ends and is reaped. -/
def exitAndReap (fuel : ℕ) (s : Processes) (context : CpuContext) : Option Processes :=
  { s with sched := s.sched.exit }.schedule fuel context

/-- A node on the list of freed page tables. -/
def Parked (s : Processes) (i : ℕ) : Prop := i ∈ s.kernel.map.freed

/-- The table is registered, or on the list of freed ones. -/
def Tabled (s : Processes) (q : ℕ) : Prop :=
  s.kernel.map.registered q = true ∨ ∃ i, s.Parked i ∧ s.kernel.map.ptPaddr i = q

/-- In `s'` as many resources are taken as in `s`, up to the page tables on the list of freed
ones. -/
structure LeakFree (s s' : Processes) : Prop where
  frames : ∀ n, (∀ i, s'.Parked i → s'.kernel.map.ptPaddr i ≠ Pmm.slotAddr n) →
    s'.kernel.pmm.slotTaken n = s.kernel.pmm.slotTaken n
  tables : ∀ q, (∀ i, s'.Parked i → s'.kernel.map.ptPaddr i ≠ q) → (s'.Tabled q ↔ s.Tabled q)
  objects : ∀ b, (∀ i, s'.Parked i → b ≠ .table i) → (b ∈ s'.objects ↔ b ∈ s.objects)

end Processes

end TitanOS
