import TitanOS.Fs.Vfs
import TitanOS.Lib.Run

/-!
# The mount table (`fs/vfs.c`)

`vfs_mount` puts the result of `create_mountpoint` into the first empty slot without looking at it,
so that a file system of unknown type is mounted as an empty slot, and reported as a success.
`get_mountpoint` and `vfs_umount` go through the slots from the first one on and dereference each of
them; `vfs_umount` clears the slot before it frees what is in it.

A dereference of an empty slot, an access behind the table and a panic are answered by `none`.
-/

namespace TitanOS

open Tar

namespace Vfs

open Function (update)

/-- `vfs_mount`. -/
def vfsMount (v : Vfs) (device target fsType : ℕ → UInt8) : Option (Vfs × Bool) :=
  (v.addMountpoint (createMountpoint device target fsType)).map fun v => (v, true)

/-- The loop of `vfs_umount` from index `i` on, with `m` mountpoints left. -/
def vfsUmountLoop (v : Vfs) (device : ℕ → UInt8) : ℕ → ℕ → Option (Vfs × ℕ)
  | 0, i => some (v, i)
  | m + 1, i =>
    (v.mountpoints i).bind fun mp =>
      if Str.strncmp mp.device device vfsPathLength = 0 then
        some ({ v with mountpoints := update v.mountpoints i none }, i)
      else vfsUmountLoop v device m (i + 1)

/-- `vfs_umount`, which always returns 1, with the pointer that it passes to `kfree`. -/
def vfsUmount (v : Vfs) (device _target : ℕ → UInt8) : Option (Vfs × Option Mountpoint) :=
  (v.vfsUmountLoop device maxMountpoints 0).bind fun (v, i) =>
    if i < maxMountpoints then some (v, v.mountpoints i) else none

/-- A call. -/
inductive MountOp
  | mount (device target fsType : ℕ → UInt8)
  | umount (device target : ℕ → UInt8)
  | lookup (path : ℕ → UInt8)

/-- The table after a call. -/
def mountStep (v : Vfs) : MountOp → Option Vfs
  | .mount device target fsType => (v.vfsMount device target fsType).map Prod.fst
  | .umount device target => (v.vfsUmount device target).map Prod.fst
  | .lookup path => (v.getMountpoint path).map fun _ => v

/-- An empty table. -/
def unmounted (openedFiles : ℕ → FileDescriptor) : Vfs := ⟨fun _ => none, openedFiles⟩

/-! ### What the calls are to do -/

/-- The string `s` is in a field of `n` characters. -/
def Holds (field s : ℕ → UInt8) (n : ℕ) : Prop := ∃ k < n, s k = 0 ∧ ∀ i ≤ k, field i = s i

/-- The string `s` and its terminator fit in `n` characters. -/
def Fits (s : ℕ → UInt8) (n : ℕ) : Prop := ∃ k < n, s k = 0

/-- A mountpoint with the given device, target and type. -/
structure IsMountOf (m : Mountpoint) (device target fsType : ℕ → UInt8) : Prop where
  device : Holds m.device device vfsPathLength
  target : Holds m.mountpoint target vfsPathLength
  type : Holds m.type fsType 32

/-- The table `v'` has one more mountpoint than `v`, with the given device, target and type. -/
def OneMore (v v' : Vfs) (device target fsType : ℕ → UInt8) : Prop :=
  ∃ i < maxMountpoints, ∃ m, v.mountpoints i = none ∧ v'.mountpoints = update v.mountpoints i (some m) ∧
    IsMountOf m device target fsType

/-- `vfs_umount` removes the mountpoint with the device and frees it, or changes nothing. -/
def Unmounts (v v' : Vfs) (freed : Option Mountpoint) (device : ℕ → UInt8) : Prop :=
  (∃ i < maxMountpoints, ∃ m, v.mountpoints i = some m ∧ Holds m.device device vfsPathLength ∧
    v'.mountpoints = update v.mountpoints i none ∧ freed = some m) ∨
  (∀ i < maxMountpoints, ∀ m, v.mountpoints i = some m → ¬ Holds m.device device vfsPathLength) ∧
    v'.mountpoints = v.mountpoints ∧ freed = none

/-- What a call is to do.  A mount that does not return reports no success. -/
def MountConsistent (v : Vfs) : MountOp → Prop
  | .mount device target fsType => ∀ v' b, v.vfsMount device target fsType = some (v', b) →
    (b = true ↔ OneMore v v' device target fsType)
  | .umount device target => ∃ v' freed, v.vfsUmount device target = some (v', freed) ∧
    Unmounts v v' freed device
  | .lookup path => v.getMountpoint path ≠ none

/-! ### When they do so -/

/-- No slot is empty. -/
def TableFull (v : Vfs) : Prop := ∀ i < maxMountpoints, v.mountpoints i ≠ none

/-- A mountpoint that is taken for the one of the path comes before the first empty slot. -/
def Reachable (v : Vfs) (path : ℕ → UInt8) : Prop :=
  ∃ i < maxMountpoints, (∃ mp, v.mountpoints i = some mp ∧
    Str.strncmp mp.mountpoint path vfsPathLength = 0) ∧ ∀ j < i, v.mountpoints j ≠ none

/-- The calls that do what they are to do. -/
def Mountable (v : Vfs) : MountOp → Prop
  | .mount device target fsType => v.TableFull ∨ Str.strncmp fsType tar vfsPathLength = 0 ∧
    Fits device vfsPathLength ∧ Fits target vfsPathLength ∧ Fits fsType 32
  | .umount _ _ => False
  | .lookup path => v.TableFull ∨ v.Reachable path

variable {v v' : Vfs} {device target fsType path s : ℕ → UInt8} {i m n : ℕ}

/-- A copy holds a string if and only if it fits. -/
theorem holds_strncpy_iff {dst : ℕ → UInt8} : Holds (Str.strncpy dst s n) s n ↔ Fits s n := by
  constructor
  · rintro ⟨k, hk, hz, -⟩
    exact ⟨k, hk, hz⟩
  · intro hfits
    obtain ⟨hlt, hz⟩ := Str.strnlen_spec hfits
    refine ⟨Str.strnlen s n, hlt, hz, fun i hi => ?_⟩
    unfold Str.strncpy
    rcases Nat.eq_or_lt_of_le hi with rfl | hi
    · rw [if_neg (lt_irrefl _), if_pos hlt, hz]
    · rw [if_pos hi]

/-- The mountpoint of `create_mountpoint`. -/
theorem createMountpoint_eq_some {mp : Mountpoint}
    (h : createMountpoint device target fsType = some mp) :
    Str.strncmp fsType tar vfsPathLength = 0 ∧ (IsMountOf mp device target fsType ↔
      Fits device vfsPathLength ∧ Fits target vfsPathLength ∧ Fits fsType 32) := by
  unfold createMountpoint at h
  split_ifs at h with htype
  cases h
  refine ⟨htype, fun hd => ?_, fun ⟨hdevice, htarget, hfits⟩ => ?_⟩
  · exact ⟨holds_strncpy_iff.1 hd.device, holds_strncpy_iff.1 hd.target,
      holds_strncpy_iff.1 hd.type⟩
  · exact ⟨holds_strncpy_iff.2 hdevice, holds_strncpy_iff.2 htarget, holds_strncpy_iff.2 hfits⟩

/-- A mount goes to an empty slot, or the table is full. -/
theorem addMountpoint_cases (v : Vfs) (mp : Option Mountpoint) :
    v.TableFull ∧ v.addMountpoint mp = none ∨ ∃ i < maxMountpoints, v.mountpoints i = none ∧
      v.addMountpoint mp = some { v with mountpoints := update v.mountpoints i mp } := by
  unfold addMountpoint
  cases hf : (List.range maxMountpoints).find? fun i => (v.mountpoints i).isNone with
  | none =>
    refine Or.inl ⟨fun i hi hnone => ?_, rfl⟩
    have hne := List.find?_eq_none.1 hf i (List.mem_range.2 hi)
    simp [hnone] at hne
  | some i =>
    exact Or.inr ⟨i, List.mem_range.1 (List.mem_of_find?_eq_some hf),
      by simpa using List.find?_some hf, rfl⟩

/-- What is added to the table is what was stored in the empty slot. -/
theorem oneMore_update_iff {mp : Option Mountpoint} (hi : i < maxMountpoints)
    (hempty : v.mountpoints i = none) :
    OneMore v { v with mountpoints := update v.mountpoints i mp } device target fsType ↔
      ∃ m, mp = some m ∧ IsMountOf m device target fsType := by
  constructor
  · rintro ⟨j, -, m, hj, hupd, hd⟩
    have hstored := congrFun hupd j
    rw [Function.update_self] at hstored
    by_cases hij : j = i
    · subst hij
      exact ⟨m, by simpa using hstored, hd⟩
    · -- another slot has not changed
      simp only [Function.update_of_ne hij, hj] at hstored
      cases hstored
  · rintro ⟨m, rfl, hd⟩
    exact ⟨i, hi, m, hempty, rfl, hd⟩

theorem mount_consistent_iff : v.MountConsistent (.mount device target fsType) ↔
    v.Mountable (.mount device target fsType) := by
  simp only [MountConsistent, Mountable, vfsMount]
  rcases v.addMountpoint_cases (createMountpoint device target fsType) with
    ⟨hfull, hadd⟩ | ⟨i, hi, hempty, hadd⟩
  · rw [hadd]
    simp [hfull]
  · have hfull : ¬ v.TableFull := fun hfull => hfull i hi hempty
    have hone := @oneMore_update_iff v device target fsType i
      (createMountpoint device target fsType) hi hempty
    rw [hadd, or_iff_right hfull]
    constructor
    · intro h
      obtain ⟨mp, hmp, hd⟩ := hone.1 ((h _ _ rfl).1 rfl)
      obtain ⟨htype, hdesc⟩ := createMountpoint_eq_some hmp
      exact ⟨htype, hdesc.1 hd⟩
    · rintro ⟨htype, hfits⟩ v' b hsome
      cases hsome
      refine iff_of_true rfl (hone.2 ?_)
      obtain ⟨mp, hmp⟩ : ∃ mp, createMountpoint device target fsType = some mp :=
        ⟨_, if_pos htype⟩
      exact ⟨mp, hmp, (createMountpoint_eq_some hmp).2.2 hfits⟩

/-- The loop of `vfs_umount` stops behind the table, or at a slot that it has cleared. -/
theorem vfsUmountLoop_eq_some {j : ℕ} (h : v.vfsUmountLoop device m i = some (v', j)) :
    j = i + m ∨ v'.mountpoints j = none ∧ ∃ mp, v.mountpoints j = some mp := by
  induction m generalizing i with
  | zero =>
    cases h
    exact Or.inl rfl
  | succ m ih =>
    obtain ⟨mp, hmp, hrest⟩ := Option.bind_eq_some_iff.1 h
    split_ifs at hrest
    · cases hrest
      exact Or.inr ⟨Function.update_self .., mp, hmp⟩
    · rcases ih hrest with hend | hfound
      · exact Or.inl (by omega)
      · exact Or.inr hfound

/-- **`vfs_umount` never does what it is to do**: what it frees is the null pointer. -/
theorem not_unmounts : ¬ v.MountConsistent (.umount device target) := by
  rintro ⟨v', freed, hum, hright⟩
  obtain ⟨⟨w, j⟩, hloop, hfree⟩ := Option.bind_eq_some_iff.1 hum
  simp only at hfree
  split_ifs at hfree with hj
  cases hfree
  rcases vfsUmountLoop_eq_some hloop with hend | ⟨hnone, mp, hmp⟩
  · omega
  · rcases hright with ⟨i, -, m, -, -, -, hfreed⟩ | ⟨-, hsame, -⟩
    · rw [hnone] at hfreed
      cases hfreed
    · rw [hsame, hmp] at hnone
      cases hnone

/-- The loop of `get_mountpoint` comes through if it finds the path before an empty slot, or there
is none. -/
theorem getMountpointLoop_ne_none_iff : v.getMountpointLoop path m i ≠ none ↔
    (∀ j, i ≤ j → j < i + m → v.mountpoints j ≠ none) ∨
      ∃ j, i ≤ j ∧ j < i + m ∧ (∃ mp, v.mountpoints j = some mp ∧
        Str.strncmp mp.mountpoint path vfsPathLength = 0) ∧
        ∀ k, i ≤ k → k < j → v.mountpoints k ≠ none := by
  induction m generalizing i with
  | zero =>
    rw [getMountpointLoop]
    exact iff_of_true (Option.some_ne_none _) (Or.inl fun j hj hlt => by omega)
  | succ m ih =>
    rw [getMountpointLoop]
    cases hi : v.mountpoints i with
    | none =>
      refine iff_of_false (fun h => h rfl) ?_
      rintro (hall | ⟨j, hj, -, ⟨mp, hmp, -⟩, hbefore⟩)
      · exact hall i le_rfl (by omega) hi
      · rcases Nat.eq_or_lt_of_le hj with rfl | hlt
        · rw [hi] at hmp
          cases hmp
        · exact hbefore i le_rfl hlt hi
    | some mp =>
      have hne : v.mountpoints i ≠ none := by
        rw [hi]
        exact Option.some_ne_none _
      rw [Option.bind_some]
      by_cases heq : Str.strncmp mp.mountpoint path vfsPathLength = 0
      · rw [if_pos heq]
        exact iff_of_true (Option.some_ne_none _)
          (Or.inr ⟨i, le_rfl, by omega, ⟨mp, hi, heq⟩, fun k hk hlt => by omega⟩)
      · rw [if_neg heq, ih]
        have hcons : ∀ k, i ≤ k → (i + 1 ≤ k → v.mountpoints k ≠ none) → v.mountpoints k ≠ none := by
          intro k hk hrest
          rcases Nat.eq_or_lt_of_le hk with rfl | hk
          · exact hne
          · exact hrest hk
        constructor
        · rintro (hall | ⟨j, hj, hlt, hmp, hbefore⟩)
          · exact Or.inl fun j hj hlt => hcons j hj fun hj => hall j hj (by omega)
          · exact Or.inr ⟨j, by omega, by omega, hmp, fun k hk hkj =>
              hcons k hk fun hk => hbefore k hk hkj⟩
        · rintro (hall | ⟨j, hj, hlt, ⟨mp', hmp', heq'⟩, hbefore⟩)
          · exact Or.inl fun j hj hlt => hall j (by omega) (by omega)
          · have hij : i ≠ j := by
              rintro rfl
              obtain rfl := Option.some.inj (hi.symm.trans hmp')
              exact heq heq'
            exact Or.inr ⟨j, by omega, by omega, ⟨mp', hmp', heq'⟩, fun k hk hkj =>
              hbefore k (by omega) hkj⟩

theorem lookup_consistent_iff : v.MountConsistent (.lookup path) ↔ v.Mountable (.lookup path) := by
  simp only [MountConsistent, Mountable, getMountpoint, getMountpointLoop_ne_none_iff, zero_le,
    forall_const, zero_add, true_and]
  rfl

theorem mountConsistent_iff (v : Vfs) (o : MountOp) : v.MountConsistent o ↔ v.Mountable o := by
  cases o with
  | mount device target fsType => exact mount_consistent_iff
  | umount device target => exact iff_of_false not_unmounts id
  | lookup path => exact lookup_consistent_iff

/-- **When the mount table is consistent**: nothing is unmounted, each file system that is mounted
while there is room has a type that is taken for `"tar"`, and names that fit, and a path is looked up
only when its mountpoint comes before the first empty slot. -/
theorem mount_table_consistent_iff (openedFiles : ℕ → FileDescriptor) (os : List MountOp) :
    Run.Along mountStep MountConsistent (unmounted openedFiles) os ↔
      Run.Along mountStep Mountable (unmounted openedFiles) os :=
  Run.along_iff_of_inv (I := fun _ => True) (V := fun _ _ => True)
    (fun v o _ _ => ⟨v.mountConsistent_iff o, fun _ _ _ => trivial⟩) trivial
    (Run.along_of_forall fun _ _ => trivial)

/-- A file system of unknown type is mounted as an empty slot. -/
theorem unknown_type_mounted : ¬ Run.Along mountStep MountConsistent (unmounted zeroed.openedFiles)
    [.mount (Str.literal ['s', 'd', 'a']) (Str.literal ['/']) (Str.literal ['e', 'x', 't', '2'])] := by
  rintro ⟨hmount, -⟩
  rcases mount_consistent_iff.1 hmount with hfull | ⟨htype, -⟩
  · exact hfull 0 (by decide) rfl
  · exact absurd htype (by decide)

end Vfs

end TitanOS
