import TitanOS.Fs.Tar

/-!
# The virtual file system (`fs/vfs.c`)

A handle is an index into `vfs_opened_files`.  Whether a slot of this array is in use is told by the
first byte of the file name stored in it.  A null pointer that is dereferenced is answered by `none`;
`-1` is an inner `none`.
-/

namespace TitanOS

open Tar

/-- `mountpoint_t`, without the function pointers, which nothing calls. -/
structure Mountpoint where
  type : ℕ → UInt8
  device : ℕ → UInt8
  mountpoint : ℕ → UInt8

/-- The globals of `vfs.c`. -/
structure Vfs where
  mountpoints : ℕ → Option Mountpoint
  openedFiles : ℕ → FileDescriptor

namespace Vfs

open Function (update)

/-- `MAX_MOUNTPOINTS`. -/
def maxMountpoints : ℕ := 12

/-- `MAX_OPENED_FILES`. -/
def maxOpenedFiles : ℕ := 10

/-- The string `"tar"`. -/
def tar : ℕ → UInt8 := Str.literal ['t', 'a', 'r']

/-- `create_mountpoint`. -/
def createMountpoint (device target fsType : ℕ → UInt8) : Option Mountpoint :=
  if Str.strncmp fsType tar vfsPathLength = 0 then
    some ⟨Str.strncpy (fun _ => 0) fsType 32, Str.strncpy (fun _ => 0) device vfsPathLength,
      Str.strncpy (fun _ => 0) target vfsPathLength⟩
  else none

/-- `add_mountpoint`; `none` if the table is full. -/
def addMountpoint (v : Vfs) (m : Option Mountpoint) : Option Vfs :=
  ((List.range maxMountpoints).find? fun i => (v.mountpoints i).isNone).map fun i =>
    { v with mountpoints := update v.mountpoints i m }

/-- `vfs_init`; `none` is the panic. -/
def vfsInit (v : Vfs) : Option Vfs :=
  v.addMountpoint (createMountpoint (Str.literal ['i', 'n', 'i', 't', 'r', 'a', 'm', 'f', 's'])
    (Str.literal ['/']) tar)

/-- The loop of `get_mountpoint` from index `i` on, with `m` mountpoints left. -/
def getMountpointLoop (v : Vfs) (path : ℕ → UInt8) : ℕ → ℕ → Option (Option Mountpoint)
  | 0, _ => some none
  | m + 1, i =>
    (v.mountpoints i).bind fun mp =>
      if Str.strncmp mp.mountpoint path vfsPathLength = 0 then some (some mp)
      else getMountpointLoop v path m (i + 1)

/-- `get_mountpoint`. -/
def getMountpoint (v : Vfs) (path : ℕ → UInt8) : Option (Option Mountpoint) :=
  v.getMountpointLoop path maxMountpoints 0

/-- The path without its first character. -/
def tailOf (path : ℕ → UInt8) : ℕ → UInt8 := fun k => path (k + 1)

/-- The first slot that looks free. -/
def freeSlot (v : Vfs) : Option ℕ :=
  (List.range maxOpenedFiles).find? fun i => (v.openedFiles i).filename 0 == 0

/-- `vfs_open`, in the file system whose headers are `fileHeaders`. -/
def vfsOpen (mem : ℕ → UInt8) (fileHeaders : ℕ → ℕ) (v : Vfs) (filename : ℕ → UInt8) :
    Option (Vfs × Option ℕ) :=
  (v.getMountpoint filename).bind fun mountpoint => mountpoint.bind fun mountpoint =>
    if Str.strncmp tar mountpoint.type 3 = 0 then
      (ustarOpen mem fileHeaders (tailOf filename)).map fun fd =>
        match v.freeSlot with
        | some i => ({ v with openedFiles := update v.openedFiles i fd }, some i)
        | none => (v, none)
    else some (v, none)

/-- `vfs_read`, with the bytes that it puts into the buffer. -/
def vfsRead (mem : ℕ → UInt8) (v : Vfs) (fileHandle nbytes : ℕ) :
    Option (Vfs × Option (List UInt8)) :=
  let fd := v.openedFiles fileHandle
  (v.mountpoints fd.mountpointId).map fun mountpoint =>
    if Str.strncmp tar mountpoint.type 3 = 0 then
      let bytes := ustarRead mem (fd.fileBuffer + fd.bufReadPos) nbytes
      ({ v with
        openedFiles := update v.openedFiles fileHandle
          (fd.moveTo (toInt (fd.bufReadPos + nbytes))) }, some bytes)
    else (v, none)

/-- `vfs_seek`. -/
def vfsSeek (v : Vfs) (fileHandle pos : ℕ) : Vfs :=
  { v with
    openedFiles := update v.openedFiles fileHandle
      ((v.openedFiles fileHandle).moveTo (toInt pos)) }

/-- The globals before `vfs_init`: everything is zero. -/
def zeroed : Vfs :=
  ⟨fun _ => none, fun _ => { filename := fun _ => 0, fileSize := 0, fileBuffer := 0 }⟩

/-- What `vfs_init` mounts. -/
def initramfs : Mountpoint :=
  ⟨Str.strncpy (fun _ => 0) tar 32,
    Str.strncpy (fun _ => 0) (Str.literal ['i', 'n', 'i', 't', 'r', 'a', 'm', 'f', 's'])
      vfsPathLength,
    Str.strncpy (fun _ => 0) (Str.literal ['/']) vfsPathLength⟩

/-- The globals after `vfs_init`. -/
def booted : Vfs := { zeroed with mountpoints := update zeroed.mountpoints 0 (some initramfs) }

theorem vfsInit_zeroed : zeroed.vfsInit = some booted := by
  have htype : Str.strncmp tar tar vfsPathLength = 0 := by decide
  rw [vfsInit, createMountpoint, if_pos htype]
  rfl

/-- The initramfs is mounted first. -/
def Mounted (v : Vfs) : Prop := v.mountpoints 0 = some initramfs

theorem mounted_booted : booted.Mounted := rfl

variable {mem : ℕ → UInt8} {fileHeaders : ℕ → ℕ} {v : Vfs} {path : ℕ → UInt8} {h n : ℕ}
  {fd : FileDescriptor}

theorem type_initramfs : Str.strncmp tar initramfs.type 3 = 0 := by decide

/-- The mountpoint `"/"` has one character, so every path is below it. -/
theorem Mounted.getMountpoint (hm : v.Mounted) (path : ℕ → UInt8) :
    v.getMountpoint path = some (some initramfs) := by
  have hslash : Str.strncmp initramfs.mountpoint path vfsPathLength = 0 :=
    Str.strncmp_of_single path (by decide) (by decide)
  rw [Vfs.getMountpoint, maxMountpoints, getMountpointLoop, hm, Option.bind_some, if_pos hslash]

/-- `vfs_open` in a file system of type `tar`. -/
theorem vfsOpen_tar {mp : Mountpoint} (hmp : v.getMountpoint path = some (some mp))
    (htype : Str.strncmp tar mp.type 3 = 0) : v.vfsOpen mem fileHeaders path =
      (ustarOpen mem fileHeaders (tailOf path)).map fun fd => match v.freeSlot with
        | some i => ({ v with openedFiles := update v.openedFiles i fd }, some i)
        | none => (v, none) := by
  rw [Vfs.vfsOpen, hmp, Option.bind_some, Option.bind_some, if_pos htype]

theorem Mounted.vfsOpen (hm : v.Mounted) (hfd : ustarOpen mem fileHeaders (tailOf path) = some fd) :
    v.vfsOpen mem fileHeaders path = some (match v.freeSlot with
      | some i => ({ v with openedFiles := update v.openedFiles i fd }, some i)
      | none => (v, none)) := by
  rw [vfsOpen_tar (hm.getMountpoint path) type_initramfs, hfd, Option.map_some]

/-- The new descriptor goes into the first slot that looks free. -/
theorem Mounted.vfsOpen_slot (hm : v.Mounted)
    (hfd : ustarOpen mem fileHeaders (tailOf path) = some fd) (hfree : v.freeSlot = some h) :
    v.vfsOpen mem fileHeaders path =
      some ({ v with openedFiles := update v.openedFiles h fd }, some h) := by
  rw [hm.vfsOpen hfd, hfree]

/-- With all slots taken nothing changes. -/
theorem Mounted.vfsOpen_full (hm : v.Mounted)
    (hfd : ustarOpen mem fileHeaders (tailOf path) = some fd) (hfree : v.freeSlot = none) :
    v.vfsOpen mem fileHeaders path = some (v, none) := by
  rw [hm.vfsOpen hfd, hfree]

/-- An open descriptor keeps the path it was opened with, shortened, and belongs to the
initramfs. -/
theorem ustarOpen_eq {name : ℕ → UInt8} (hfd : ustarOpen mem fileHeaders name = some fd) :
    fd.filename 0 = name 0 ∧ fd.mountpointId = 0 := by
  obtain ⟨i, -, rfl⟩ := ustarOpen_eq_some_iff.1 hfd
  exact ⟨Str.strncpy_zero (fun _ => 0) (by decide), rfl⟩

/-- A slot that looks free. -/
theorem freeSlot_eq_some (hfree : v.freeSlot = some h) :
    h < maxOpenedFiles ∧ (v.openedFiles h).filename 0 = 0 :=
  ⟨List.mem_range.1 (List.mem_of_find?_eq_some hfree), by simpa using List.find?_some hfree⟩

/-- What `vfs_read` does on a file of the initramfs. -/
theorem Mounted.vfsRead (hm : v.Mounted) (hid : (v.openedFiles h).mountpointId = 0) :
    v.vfsRead mem h n = some ({ v with
      openedFiles := update v.openedFiles h
        ((v.openedFiles h).moveTo (toInt ((v.openedFiles h).bufReadPos + n))) },
      some (ustarRead mem ((v.openedFiles h).fileBuffer + (v.openedFiles h).bufReadPos) n)) := by
  have hmount : v.mountpoints (v.openedFiles h).mountpointId = some initramfs := by
    rw [hid]
    exact hm
  simp only [Vfs.vfsRead, hmount, Option.map_some, if_pos type_initramfs]

end Vfs

end TitanOS
