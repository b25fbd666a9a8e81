import TitanOS.Fs.Open
import TitanOS.Fs.Resources

/-!
# System calls on files (`syscalls/syscall.c`)

The read call takes its first argument as an index into the resource table of the current process,
without a look at it, and calls the read operation of what it finds there.  So it is safe for the
handles that are registered, and for no other value of `rdi`: an index behind the table and an empty
slot are both answered by `none` here (`read_safe_iff`).

The open call registers whatever `vfs_open` answers, so a failed open leaves a resource behind that
stands for the file `-1`; and if the resource table is full, the file that has been opened stays open
(`open_withheld_iff`).
-/

namespace TitanOS

open Tar Resource
open Function (update)

/-- What the calls on files see of the kernel: the open files, the resource table of each process,
the process that runs, and the processes whose thread is dead. -/
structure Sys where
  vfs : Vfs
  resourceTable : ℕ → ℕ → Option Resource
  currentProcess : ℕ
  dead : ℕ → Bool

/-- The registers of `cpu_context_t` that a call uses. -/
structure Context where
  rax : ℕ
  rdi : ℕ
  rsi : ℕ
  rdx : ℕ
  deriving DecidableEq, Repr

namespace Sys

/-- The resource table of the current process. -/
def table (s : Sys) : ℕ → Option Resource := s.resourceTable s.currentProcess

/-- `read_resource`, with the state it leaves behind.  A handle outside of `vfs_opened_files` is an
access outside of the array. -/
def readResource (mem : ℕ → UInt8) (s : Sys) (resource : Resource) (len : ℕ) : Option Sys :=
  if resource.type = .file then
    if 0 ≤ resource.internalHandle ∧ resource.internalHandle < Vfs.maxOpenedFiles then
      (s.vfs.vfsRead mem resource.internalHandle.toNat len).map fun r => { s with vfs := r.1 }
    else none
  else some s

/-- `resource->read(resource, buf, len)`.  Only `read_resource` is known. -/
def callRead (mem : ℕ → UInt8) (s : Sys) (resource : Resource) (len : ℕ) : Option Sys :=
  if resource.read = some .readResource then readResource mem s resource len else none

/-- `register_file_resource`. -/
def registerFileResource (mem : ℕ → UInt8) (fileHeaders : ℕ → ℕ) (s : Sys) (filename : ℕ → UInt8) :
    Option (Sys × ℤ) :=
  (s.vfs.vfsOpen mem fileHeaders filename).map fun r =>
    let resource := fileResource (r.2.elim (-1) fun h => h)
    let t := registerResource s.table (some resource)
    ({ s with
      vfs := r.1
      resourceTable := update s.resourceTable s.currentProcess t.1 }, t.2)

/-- `current_resource` of a read call; the inner `none` is the null pointer. -/
def currentResource (s : Sys) (context : Context) : Option (Option Resource) :=
  slot s.table context.rdi

/-- The string at the address `a`. -/
def stringAt (mem : ℕ → UInt8) (a : ℕ) : ℕ → UInt8 := fun k => mem (a + k)

/-- `syscall_handler`.  What is written to the console is left out, and the panic on an unknown call
does not return. -/
def syscallHandler (mem : ℕ → UInt8) (fileHeaders : ℕ → ℕ) (s : Sys) (context : Context) :
    Option (Sys × Context) :=
  if context.rax = 0 then
    (s.currentResource context).bind fun current => current.bind fun resource =>
      (s.callRead mem resource context.rdx).map fun s => (s, context)
  else if context.rax = 1 then some (s, context)
  else if context.rax = 2 then
    (s.registerFileResource mem fileHeaders (stringAt mem context.rdi)).map fun r =>
      (r.1, { context with rax := (r.2 % 2 ^ 64).toNat })
  else if context.rax = 60 then
    some ({ s with dead := update s.dead s.currentProcess true }, context)
  else none

/-- After `vfs_init`, with the tables that `create_proc` has zeroed. -/
def start (currentProcess : ℕ) : Sys :=
  ⟨Vfs.booted, fun _ _ => none, currentProcess, fun _ => false⟩

/-- The states that calls and context switches lead to, each with what the opens of each process have
returned.  The memory is that of the moment of the call. -/
inductive Reachable (fileHeaders : ℕ → ℕ) : Sys → (ℕ → List ℕ) → Prop
  | boot (pid : ℕ) : Reachable fileHeaders (start pid) fun _ => []
  | openFile {s s' : Sys} {opened : ℕ → List ℕ} {c c' : Context} (mem : ℕ → UInt8) :
    Reachable fileHeaders s opened → c.rax = 2 →
    s.syscallHandler mem fileHeaders c = some (s', c') →
    Reachable fileHeaders s'
      (update opened s.currentProcess (c'.rax :: opened s.currentProcess))
  | syscall {s s' : Sys} {opened : ℕ → List ℕ} {c c' : Context} (mem : ℕ → UInt8) :
    Reachable fileHeaders s opened → c.rax ≠ 2 →
    s.syscallHandler mem fileHeaders c = some (s', c') → Reachable fileHeaders s' opened
  | schedule {s : Sys} {opened : ℕ → List ℕ} (pid : ℕ) : Reachable fileHeaders s opened →
    Reachable fileHeaders { s with currentProcess := pid } opened

/-- `h` is a handle that an open of the current process has returned, and `resource` is registered
under it. -/
def Registered (s : Sys) (opened : ℕ → List ℕ) (h : ℕ) (resource : Resource) : Prop :=
  h ∈ opened s.currentProcess ∧ slot s.table h = some (some resource)

/-- A read call calls the read operation of a registered resource, with this resource; and on any
other value of `rdi` it returns, and nothing has changed. -/
structure ReadSafe (mem : ℕ → UInt8) (fileHeaders : ℕ → ℕ) (s : Sys) (opened : ℕ → List ℕ)
    (c : Context) : Prop where
  registered : ∀ resource, s.currentResource c = some (some resource) →
    s.Registered opened c.rdi resource ∧ s.syscallHandler mem fileHeaders c =
      (readResource mem s resource c.rdx).map fun s => (s, c)
  unchanged : (∀ resource, ¬ s.Registered opened c.rdi resource) →
    ∃ c', s.syscallHandler mem fileHeaders c = some (s, c')

/-- What is registered has been returned by an open, and it is a file. -/
structure Opened (s : Sys) (opened : ℕ → List ℕ) : Prop where
  returned : ∀ pid, ∀ h < maxResources, s.resourceTable pid h ≠ none → h ∈ opened pid
  files : ∀ pid h resource, s.resourceTable pid h = some resource →
    resource.type = .file ∧ resource.read = some .readResource

variable {mem : ℕ → UInt8} {fileHeaders : ℕ → ℕ} {s s' : Sys} {opened : ℕ → List ℕ}
  {c c' : Context} {resource : Resource} {filename : ℕ → UInt8} {n : ℤ} {len : ℕ}

/-! ### The reachable states -/

theorem readResource_eq (h : readResource mem s resource len = some s') :
    s'.resourceTable = s.resourceTable ∧ s'.currentProcess = s.currentProcess := by
  unfold readResource at h
  split at h
  · split at h
    · obtain ⟨r, -, rfl⟩ := Option.map_eq_some_iff.1 h
      exact ⟨rfl, rfl⟩
    · cases h
  · cases h
    exact ⟨rfl, rfl⟩

/-- A call other than an open leaves the tables as they are. -/
theorem syscallHandler_table (hc : c.rax ≠ 2)
    (h : s.syscallHandler mem fileHeaders c = some (s', c')) :
    s'.resourceTable = s.resourceTable := by
  unfold syscallHandler callRead at h
  rw [if_neg hc] at h
  split at h
  · obtain ⟨current, -, h⟩ := Option.bind_eq_some_iff.1 h
    obtain ⟨resource, -, h⟩ := Option.bind_eq_some_iff.1 h
    obtain ⟨t, ht, heq⟩ := Option.map_eq_some_iff.1 h
    cases heq
    split at ht
    · exact (readResource_eq ht).1
    · cases ht
  · split at h
    · cases h
      rfl
    · split at h
      · cases h
        rfl
      · cases h

/-- An open. -/
theorem syscallHandler_open (hc : c.rax = 2) : s.syscallHandler mem fileHeaders c =
    (s.registerFileResource mem fileHeaders (stringAt mem c.rdi)).map fun r =>
      (r.1, { c with rax := (r.2 % 2 ^ 64).toNat }) := by
  unfold syscallHandler
  rw [if_neg (by omega), if_neg (by omega), if_pos hc]

/-- What an open does to the tables: nothing, or it puts a file into the slot that it returns. -/
theorem registerFileResource_table
    (h : s.registerFileResource mem fileHeaders filename = some (s', n)) :
    s'.currentProcess = s.currentProcess ∧ (s'.resourceTable = s.resourceTable ∨
      ∃ i internalHandle, n = (i : ℕ) ∧ i < maxResources ∧ s'.resourceTable =
        update s.resourceTable s.currentProcess
          (update s.table i (some (fileResource internalHandle)))) := by
  obtain ⟨r, -, heq⟩ := Option.map_eq_some_iff.1 h
  cases heq
  refine ⟨rfl, ?_⟩
  unfold registerResource
  cases hopen : openHandle s.table with
  | none => exact Or.inl (Function.update_eq_self _ _)
  | some i => exact Or.inr ⟨i, _, rfl, (openHandle_eq_some hopen).1, rfl⟩

/-- What has been returned stays on the account. -/
theorem mem_returned {pid pid' h a : ℕ} (hh : h ∈ opened pid) :
    h ∈ update opened pid' (a :: opened pid') pid := by
  by_cases hpid : pid = pid'
  · subst hpid
    rw [Function.update_self]
    exact List.mem_cons_of_mem _ hh
  · rwa [Function.update_of_ne hpid]

/-- A table after a resource has been registered in it. -/
theorem registered_cases {tables : ℕ → ℕ → Option Resource} {pid pid' h i : ℕ} {new : Resource}
    (hresource : update tables pid' (update (tables pid') i (some new)) pid h = some resource) :
    (pid = pid' ∧ h = i ∧ resource = new) ∨ tables pid h = some resource := by
  by_cases hpid : pid = pid'
  · subst hpid
    rw [Function.update_self] at hresource
    by_cases hh : h = i
    · subst hh
      rw [Function.update_self, Option.some_inj] at hresource
      exact Or.inl ⟨rfl, rfl, hresource.symm⟩
    · rw [Function.update_of_ne hh] at hresource
      exact Or.inr hresource
  · rw [Function.update_of_ne hpid] at hresource
    exact Or.inr hresource

/-- One open. -/
theorem Opened.open (ho : s.Opened opened) (hc : c.rax = 2)
    (h : s.syscallHandler mem fileHeaders c = some (s', c')) :
    s'.Opened (update opened s.currentProcess (c'.rax :: opened s.currentProcess)) := by
  rw [syscallHandler_open hc] at h
  obtain ⟨⟨t, n⟩, hr, heq⟩ := Option.map_eq_some_iff.1 h
  cases heq
  obtain ⟨-, htable⟩ := registerFileResource_table hr
  rcases htable with htable | ⟨i, internalHandle, rfl, hi, htable⟩
  · constructor
    · intro pid h hlt hused
      rw [htable] at hused
      exact mem_returned (ho.returned pid h hlt hused)
    · intro pid h resource hresource
      rw [htable] at hresource
      exact ho.files pid h resource hresource
  · have hreturned : ((i : ℤ) % 2 ^ 64).toNat = i := by
      have hmax : maxResources = 5 := rfl
      omega
    constructor
    · intro pid h hlt hused
      obtain ⟨resource, hresource⟩ := Option.ne_none_iff_exists'.1 hused
      rw [htable] at hresource
      rcases registered_cases hresource with ⟨rfl, rfl, -⟩ | hresource
      · rw [Function.update_self, hreturned]
        exact List.mem_cons_self
      · exact mem_returned (ho.returned pid h hlt (by rw [hresource]; nofun))
    · intro pid h resource hresource
      rw [htable] at hresource
      rcases registered_cases hresource with ⟨-, -, rfl⟩ | hresource
      · exact ⟨rfl, rfl⟩
      · exact ho.files pid h resource hresource

/-- By induction on the run. -/
theorem Reachable.invariant (h : Reachable fileHeaders s opened) : s.Opened opened := by
  induction h with
  | boot pid => exact ⟨fun _ _ _ hused => absurd rfl hused, fun _ _ _ hnone => by cases hnone⟩
  | openFile mem _ hc hcall ih => exact ih.open hc hcall
  | syscall mem _ hc hcall ih =>
    have htable := syscallHandler_table hc hcall
    constructor
    · intro pid
      rw [htable]
      exact ih.returned pid
    · intro pid
      rw [htable]
      exact ih.files pid
  | schedule pid _ ih => exact ⟨ih.returned, ih.files⟩

theorem currentResource_iff : s.currentResource c = some (some resource) ↔
    c.rdi < maxResources ∧ s.table c.rdi = some resource := by
  unfold currentResource slot
  by_cases hlt : c.rdi < maxResources
  · rw [if_pos hlt, Option.some_inj]
    exact (and_iff_right hlt).symm
  · rw [if_neg hlt]
    constructor
    · intro h
      cases h
    · exact fun h => absurd h.1 hlt

/-- A read call that returns has called the read operation of a resource. -/
theorem syscallHandler_read (hc : c.rax = 0)
    (h : s.syscallHandler mem fileHeaders c = some (s', c')) :
    ∃ resource, s.currentResource c = some (some resource) := by
  unfold syscallHandler at h
  rw [if_pos hc] at h
  obtain ⟨current, hcurrent, h⟩ := Option.bind_eq_some_iff.1 h
  obtain ⟨resource, rfl, -⟩ := Option.bind_eq_some_iff.1 h
  exact ⟨resource, hcurrent⟩

/-- On a file, this operation is `read_resource`. -/
theorem syscallHandler_readResource (hc : c.rax = 0)
    (hcurrent : s.currentResource c = some (some resource))
    (hread : resource.read = some .readResource) : s.syscallHandler mem fileHeaders c =
      (readResource mem s resource c.rdx).map fun s => (s, c) := by
  unfold syscallHandler callRead
  rw [if_pos hc, hcurrent, Option.bind_some, Option.bind_some, if_pos hread]

/-- **The read system call is safe** in a reachable state if and only if `rdi` is the index of a slot
that is in use. -/
theorem read_safe_iff (mem : ℕ → UInt8) (fileHeaders : ℕ → ℕ) (s : Sys) (opened : ℕ → List ℕ)
    (h : Reachable fileHeaders s opened) (c : Context) (hc : c.rax = 0) :
    s.ReadSafe mem fileHeaders opened c ↔ c.rdi < maxResources ∧ s.table c.rdi ≠ none := by
  have ho := h.invariant
  constructor
  · intro hsafe
    by_contra hunused
    have hnone : ∀ resource, s.currentResource c ≠ some (some resource) := by
      intro resource hresource
      obtain ⟨hlt, hused⟩ := currentResource_iff.1 hresource
      exact hunused ⟨hlt, by rw [hused]; nofun⟩
    obtain ⟨c', hreturn⟩ := hsafe.unchanged fun resource hr => hnone resource hr.2
    obtain ⟨resource, hresource⟩ := syscallHandler_read hc hreturn
    exact hnone resource hresource
  · rintro ⟨hlt, hused⟩
    obtain ⟨resource, hresource⟩ := Option.ne_none_iff_exists'.1 hused
    have hcurrent := currentResource_iff.2 ⟨hlt, hresource⟩
    have hregistered : s.Registered opened c.rdi resource := ⟨ho.returned _ _ hlt hused, hcurrent⟩
    constructor
    · intro resource' hcurrent'
      rw [hcurrent] at hcurrent'
      cases hcurrent'
      exact ⟨hregistered,
        syscallHandler_readResource hc hcurrent (ho.files _ _ _ hresource).2⟩
    · exact fun hnot => absurd hregistered (hnot resource)

/-- Memory with the archive of `twoFiles` and the path `/a` at `0x100`. -/
def userMemory : ℕ → UInt8 := fun a =>
  if a < 0x1000 then Str.literal ['/', 'a'] (a - 0x100) else Vfs.twoArchive a

/-- The headers of the archive. -/
def twoHeaders : ℕ → ℕ := fun i => (offsets 0x1000 twoFiles).getD i 0

/-- A file that has been opened is read. -/
theorem read_safe_opened : ∃ s opened, Reachable twoHeaders s opened ∧
    s.ReadSafe userMemory twoHeaders opened ⟨0, 0, 0x200, 2⟩ := by
  have hopen : ((start 0).syscallHandler userMemory twoHeaders ⟨2, 0x100, 0, 0⟩).map
      (fun r => (r.1.table 0).isSome) = some true := by decide +kernel
  obtain ⟨⟨s, c⟩, hcall, hused⟩ := Option.map_eq_some_iff.1 hopen
  have hreach := Reachable.openFile userMemory (.boot 0) rfl hcall
  refine ⟨s, _, hreach, (read_safe_iff userMemory twoHeaders s _ hreach ⟨0, 0, 0x200, 2⟩ rfl).2
    ⟨by decide, ?_⟩⟩
  exact Option.isSome_iff_ne_none.1 hused

/-- **A handle that has not been opened** is not turned away: an empty slot is called, and an index
behind the table is read. -/
theorem read_unsafe : Reachable twoHeaders (start 0) (fun _ => []) ∧
    ¬ (start 0).ReadSafe userMemory twoHeaders (fun _ => []) ⟨0, 0, 0x200, 2⟩ ∧
    ¬ (start 0).ReadSafe userMemory twoHeaders (fun _ => []) ⟨0, 5, 0x200, 2⟩ := by
  refine ⟨.boot 0, fun hsafe => ?_, fun hsafe => ?_⟩
  · obtain ⟨c', hreturn⟩ := hsafe.unchanged fun _ hr => List.not_mem_nil hr.1
    cases hreturn
  · obtain ⟨c', hreturn⟩ := hsafe.unchanged fun _ hr => List.not_mem_nil hr.1
    cases hreturn

/-! ### Opens that fail -/

/-- All slots of the resource table are in use. -/
def Full (table : ℕ → Option Resource) : Prop := ∀ h < maxResources, table h ≠ none

/-- `register_file_resource` and the open call answer `-1`, and leave the state `s'` behind. -/
def Refuses (mem : ℕ → UInt8) (fileHeaders : ℕ → ℕ) (s : Sys) (rdi rsi rdx : ℕ) (s' : Sys) : Prop :=
  s.registerFileResource mem fileHeaders (stringAt mem rdi) = some (s', -1) ∧
    s.syscallHandler mem fileHeaders ⟨2, rdi, rsi, rdx⟩ = some (s', ⟨2 ^ 64 - 1, rdi, rsi, rdx⟩)

/-- If `vfs_open` returns no handle, the open is refused, and the resource table is as it was; and if
the resource table is full, the open is refused, and the table of open files is as it was. -/
def OpenWithheld (mem : ℕ → UInt8) (fileHeaders : ℕ → ℕ) (s : Sys) (rdi rsi rdx : ℕ) : Prop :=
  ((∀ v h, s.vfs.vfsOpen mem fileHeaders (stringAt mem rdi) ≠ some (v, some h)) →
    ∃ s', Refuses mem fileHeaders s rdi rsi rdx s' ∧ s'.resourceTable = s.resourceTable) ∧
  (Full s.table →
    ∃ s', Refuses mem fileHeaders s rdi rsi rdx s' ∧ s'.vfs.openedFiles = s.vfs.openedFiles)

/-- The lookup ends at the header with index `i`, in a file system that is known. -/
def Found (mem : ℕ → UInt8) (fileHeaders : ℕ → ℕ) (v : Vfs) (name : ℕ → UInt8) (i : ℕ) : Prop :=
  ∃ mp, v.getMountpoint name = some (some mp) ∧ Str.strncmp Vfs.tar mp.type 3 = 0 ∧
    getFileHeader mem fileHeaders (Vfs.tailOf name) = some (some i)

/-- The lookup ends at a mountpoint whose file system is not known. -/
def Foreign (v : Vfs) (name : ℕ → UInt8) : Prop :=
  ∃ mp, v.getMountpoint name = some (some mp) ∧ Str.strncmp Vfs.tar mp.type 3 ≠ 0

variable {v : Vfs} {name : ℕ → UInt8} {i h rdi rsi rdx : ℕ} {o : Option ℕ}

theorem vfsOpen_of_found (hf : Found mem fileHeaders v name i) :
    v.vfsOpen mem fileHeaders name = some (match v.freeSlot with
      | some h =>
        ({ v with openedFiles :=
            update v.openedFiles h (describe mem (fileHeaders i) (Vfs.tailOf name)) }, some h)
      | none => (v, none)) := by
  obtain ⟨mp, hmp, htype, hheader⟩ := hf
  rw [Vfs.vfsOpen_tar hmp htype, ustarOpen_eq_some_iff.2 ⟨i, hheader, rfl⟩]
  cases v.freeSlot with
  | none => exact Option.map_some ..
  | some h => exact Option.map_some ..

theorem vfsOpen_of_foreign (hf : Foreign v name) :
    v.vfsOpen mem fileHeaders name = some (v, none) := by
  obtain ⟨mp, hmp, htype⟩ := hf
  unfold Vfs.vfsOpen
  rw [hmp, Option.bind_some, Option.bind_some, if_neg htype]

/-- Otherwise `vfs_open` does not come back. -/
theorem vfsOpen_of_neither (hforeign : ¬ Foreign v name)
    (hfound : ∀ i, ¬ Found mem fileHeaders v name i) : v.vfsOpen mem fileHeaders name = none := by
  rw [Option.eq_none_iff_forall_ne_some]
  intro r hr
  have hbind := hr
  unfold Vfs.vfsOpen at hbind
  obtain ⟨mountpoint, hmountpoint, hbind⟩ := Option.bind_eq_some_iff.1 hbind
  obtain ⟨mp, rfl, -⟩ := Option.bind_eq_some_iff.1 hbind
  by_cases htype : Str.strncmp Vfs.tar mp.type 3 = 0
  · rw [Vfs.vfsOpen_tar hmountpoint htype] at hr
    obtain ⟨fd, hfd, -⟩ := Option.map_eq_some_iff.1 hr
    obtain ⟨i, hheader, -⟩ := ustarOpen_eq_some_iff.1 hfd
    exact hfound i ⟨mp, hmountpoint, htype, hheader⟩
  · exact hforeign ⟨mp, hmountpoint, htype⟩

theorem Found.not_foreign (hf : Found mem fileHeaders v name i) : ¬ Foreign v name := by
  rintro ⟨mp', hmp', htype'⟩
  obtain ⟨mp, hmp, htype, -⟩ := hf
  rw [hmp] at hmp'
  cases hmp'
  exact htype' htype

theorem Found.unique {j : ℕ} (hf : Found mem fileHeaders v name i)
    (hf' : Found mem fileHeaders v name j) : i = j := by
  obtain ⟨_, -, -, hi⟩ := hf
  obtain ⟨_, -, -, hj⟩ := hf'
  rw [hi] at hj
  cases hj
  rfl

/-- A table that is full refuses every resource. -/
theorem registerResource_full {table : ℕ → Option Resource} (hfull : Full table) :
    registerResource table (some resource) = (table, -1) := by
  unfold registerResource
  cases hopen : openHandle table with
  | none => rfl
  | some h =>
    obtain ⟨hlt, hfree, -⟩ := openHandle_eq_some hopen
    exact absurd hfree (hfull h hlt)

theorem registerResource_not_full {table : ℕ → Option Resource} (hfull : ¬ Full table) :
    (registerResource table (some resource)).2 ≠ -1 := by
  unfold registerResource
  cases hopen : openHandle table with
  | none => exact absurd (openHandle_eq_none hopen) hfull
  | some h =>
    simp only
    omega

theorem refuses_iff : Refuses mem fileHeaders s rdi rsi rdx s' ↔
    s.registerFileResource mem fileHeaders (stringAt mem rdi) = some (s', -1) := by
  constructor
  · exact fun h => h.1
  · intro h
    refine ⟨h, ?_⟩
    rw [syscallHandler_open rfl, h]
    rfl

/-- When the open is refused: `vfs_open` comes back, and the resource table is full. -/
theorem registerFileResource_refuses
    (hopen : s.vfs.vfsOpen mem fileHeaders name = some (v, o)) :
    s.registerFileResource mem fileHeaders name = some (s', -1) ↔
      Full s.table ∧ s' = { s with vfs := v } := by
  unfold registerFileResource
  rw [hopen, Option.map_some]
  by_cases hfull : Full s.table
  · have hsame : update s.resourceTable s.currentProcess s.table = s.resourceTable :=
      Function.update_eq_self _ _
    simp only [registerResource_full hfull, hsame, Option.some_inj, Prod.mk.injEq, and_true, hfull,
      true_and]
    exact eq_comm
  · simp only [Option.some_inj, Prod.mk.injEq, registerResource_not_full hfull, and_false, hfull,
      false_and]

theorem withheld_of_foreign (hforeign : Foreign s.vfs (stringAt mem rdi)) :
    OpenWithheld mem fileHeaders s rdi rsi rdx ↔ Full s.table := by
  have hopen := @vfsOpen_of_foreign mem fileHeaders _ _ hforeign
  unfold OpenWithheld
  simp only [refuses_iff, registerFileResource_refuses hopen]
  constructor
  · rintro ⟨hfails, -⟩
    obtain ⟨s', ⟨hfull, -⟩, -⟩ := hfails fun v h hsome => by
      rw [hopen] at hsome
      cases hsome
    exact hfull
  · intro hfull
    exact ⟨fun _ => ⟨s, ⟨hfull, rfl⟩, rfl⟩, fun _ => ⟨s, ⟨hfull, rfl⟩, rfl⟩⟩

theorem withheld_of_found (hfound : Found mem fileHeaders s.vfs (stringAt mem rdi) i) :
    OpenWithheld mem fileHeaders s rdi rsi rdx ↔
      (s.vfs.HasFreeSlot ∧ ¬ Full s.table) ∨ (Full s.table ∧ ∀ h, s.vfs.freeSlot = some h →
        s.vfs.openedFiles h = describe mem (fileHeaders i) (Vfs.tailOf (stringAt mem rdi))) := by
  have hopen := vfsOpen_of_found hfound
  unfold OpenWithheld
  simp only [refuses_iff]
  cases hslot : s.vfs.freeSlot with
  | none =>
    rw [hslot] at hopen
    have hnot := Vfs.freeSlot_eq_none_iff.1 hslot
    simp only [registerFileResource_refuses hopen]
    constructor
    · rintro ⟨hfails, -⟩
      obtain ⟨s', ⟨hfull, -⟩, -⟩ := hfails fun v h hsome => by
        rw [hopen] at hsome
        cases hsome
      exact Or.inr ⟨hfull, nofun⟩
    · rintro (⟨hfree, -⟩ | ⟨hfull, -⟩)
      · exact absurd hfree hnot
      · exact ⟨fun _ => ⟨s, ⟨hfull, rfl⟩, rfl⟩, fun _ => ⟨s, ⟨hfull, rfl⟩, rfl⟩⟩
  | some h =>
    rw [hslot] at hopen
    have hfree : s.vfs.HasFreeSlot := ⟨h, Vfs.freeSlot_eq_some hslot⟩
    simp only [registerFileResource_refuses hopen]
    constructor
    · rintro ⟨-, hleaks⟩
      by_cases hfull : Full s.table
      · obtain ⟨s', ⟨-, rfl⟩, hsame⟩ := hleaks hfull
        refine Or.inr ⟨hfull, fun h' hh' => ?_⟩
        cases hh'
        exact (Function.update_eq_self_iff.1 hsame).symm
      · exact Or.inl ⟨hfree, hfull⟩
    · intro hcond
      constructor
      · intro hfails
        exact absurd hopen (hfails _ h)
      · intro hfull
        rcases hcond with ⟨-, hnot⟩ | ⟨-, hsame⟩
        · exact absurd hfull hnot
        · refine ⟨_, ⟨hfull, rfl⟩, ?_⟩
          simp only
          rw [← hsame h rfl, Function.update_eq_self]

theorem not_withheld_of_neither (hforeign : ¬ Foreign s.vfs (stringAt mem rdi))
    (hfound : ∀ i, ¬ Found mem fileHeaders s.vfs (stringAt mem rdi) i) :
    ¬ OpenWithheld mem fileHeaders s rdi rsi rdx := by
  have hopen := vfsOpen_of_neither hforeign hfound
  rintro ⟨hfails, -⟩
  obtain ⟨s', ⟨hregister, -⟩, -⟩ := hfails fun v h hsome => by
    rw [hopen] at hsome
    cases hsome
  unfold registerFileResource at hregister
  rw [hopen] at hregister
  cases hregister

/-- **A failed open leaves no handle behind** if and only if one of these holds: the mountpoint has a
file system that is not known, and the resource table is full; or the file is found, and either there
is room for it in both tables, or in the resource table there is none and in the table of open files
there is none or its first free slot has this descriptor already. -/
theorem open_withheld_iff (mem : ℕ → UInt8) (fileHeaders : ℕ → ℕ) (s : Sys) (rdi rsi rdx : ℕ) :
    OpenWithheld mem fileHeaders s rdi rsi rdx ↔
      (Foreign s.vfs (stringAt mem rdi) ∧ Full s.table) ∨
      ∃ i, Found mem fileHeaders s.vfs (stringAt mem rdi) i ∧
        ((s.vfs.HasFreeSlot ∧ ¬ Full s.table) ∨ (Full s.table ∧ ∀ h, s.vfs.freeSlot = some h →
          s.vfs.openedFiles h = describe mem (fileHeaders i) (Vfs.tailOf (stringAt mem rdi)))) := by
  by_cases hforeign : Foreign s.vfs (stringAt mem rdi)
  · rw [withheld_of_foreign hforeign]
    constructor
    · exact fun hfull => Or.inl ⟨hforeign, hfull⟩
    · rintro (⟨-, hfull⟩ | ⟨i, hfound, -⟩)
      · exact hfull
      · exact absurd hforeign hfound.not_foreign
  · by_cases hex : ∃ i, Found mem fileHeaders s.vfs (stringAt mem rdi) i
    · obtain ⟨i, hfound⟩ := hex
      rw [withheld_of_found hfound]
      constructor
      · exact fun h => Or.inr ⟨i, hfound, h⟩
      · rintro (⟨hforeign', -⟩ | ⟨j, hfound', h⟩)
        · exact absurd hforeign' hforeign
        · obtain rfl := hfound.unique hfound'
          exact h
    · have hnot := @not_withheld_of_neither mem fileHeaders s rdi rsi rdx hforeign
        fun i hi => hex ⟨i, hi⟩
      constructor
      · exact fun h => absurd h hnot
      · rintro (⟨hforeign', -⟩ | ⟨i, hfound, -⟩)
        · exact absurd hforeign' hforeign
        · exact absurd ⟨i, hfound⟩ hex

/-- All slots of `vfs_opened_files` are in use, and no resource is registered. -/
def crowded : Sys :=
  { start 0 with
    vfs := { Vfs.booted with
      openedFiles := fun _ => describe Vfs.twoArchive 0x1000 (Str.literal ['a']) } }

/-- No file is open, and all slots of the resource table are in use. -/
def fullTable : Sys := { start 0 with resourceTable := fun _ _ => some (fileResource 0) }

/-- **Failed opens that leave something behind.**  In the first state `vfs_open` finds no free slot,
and the open returns the handle `0` all the same; in the second one the open is refused, and the file
stays open. -/
theorem open_not_withheld :
    ¬ OpenWithheld userMemory twoHeaders crowded 0x100 0 0 ∧
    ¬ OpenWithheld userMemory twoHeaders fullTable 0x100 0 0 := by
  constructor
  · rintro ⟨hfails, -⟩
    have hopen : (crowded.vfs.vfsOpen userMemory twoHeaders (stringAt userMemory 0x100)).map
        Prod.snd = some none := by decide +kernel
    have hanswer : (crowded.registerFileResource userMemory twoHeaders
        (stringAt userMemory 0x100)).map Prod.snd = some 0 := by decide +kernel
    obtain ⟨s', ⟨hregister, -⟩, -⟩ := hfails fun v h hsome => by
      rw [hsome] at hopen
      cases hopen
    rw [hregister] at hanswer
    cases hanswer
  · rintro ⟨-, hleaks⟩
    have hname : (fullTable.registerFileResource userMemory twoHeaders
        (stringAt userMemory 0x100)).map (fun r => (r.1.vfs.openedFiles 0).filename 0) =
          some 0x61 := by decide +kernel
    obtain ⟨s', ⟨hregister, -⟩, hsame⟩ := hleaks fun _ _ => by
      unfold table fullTable
      nofun
    rw [hregister, Option.map_some, hsame] at hname
    cases hname

end Sys

end TitanOS
