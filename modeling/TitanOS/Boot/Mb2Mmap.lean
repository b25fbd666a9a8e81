import TitanOS.Lib.LittleEndian

/-!
# The memory map of the kernel (`mm/mb2_mmap.c`)

`mem` gives the bytes of memory; structures in it are named by their addresses.  The two region lists
are lists here; `entries` has room for `MAX_MMAP_ENTRIES`, and a store behind its end is answered by
`none`, like a panic and a loop that does not end.
-/

namespace TitanOS

open LittleEndian

namespace Mmap

/-- `MAX_MMAP_ENTRIES`. -/
def maxMmapEntries : ℕ := 20

/-- `MULTIBOOT_TAG_TYPE_MMAP`. -/
def tagTypeMmap : ℕ := 6

/-- `MULTIBOOT_MEMORY_AVAILABLE`. -/
def memoryAvailable : ℕ := 1

/-- `struct multiboot_mmap_entry`. -/
structure MmapEntry where
  addr : ℕ
  len : ℕ
  type : ℕ
  zero : ℕ
  deriving DecidableEq, Repr

/-- `available_entries` and `reserved_entries`, and the local `memory_size`. -/
structure Regions where
  available : List MmapEntry
  reserved : List MmapEntry
  memorySize : ℕ
  deriving DecidableEq, Repr

/-- The lists before `mb2_mmap_init`. -/
def noRegions : Regions := ⟨[], [], 0⟩

/-- The entry at `e`. -/
def readEntry (mem : ℕ → UInt8) (e : ℕ) : MmapEntry :=
  ⟨load mem e 8, load mem (e + 8) 8, load mem (e + 16) 4, load mem (e + 20) 4⟩

/-- `list->entries[list->length] = *e; list->length++`. -/
def append (list : List MmapEntry) (e : MmapEntry) : Option (List MmapEntry) :=
  if list.length < maxMmapEntries then some (list ++ [e]) else none

/-- The body of the loop over the entries. -/
def Regions.insert (r : Regions) (e : MmapEntry) : Option Regions :=
  if e.type = memoryAvailable then
    (append r.available e).map fun l =>
      { r with available := l, memorySize := (r.memorySize + e.len) % 2 ^ 64 }
  else (append r.reserved e).map fun l => { r with reserved := l }

/-- The loop over the entries of the tag at `tag`, from the one at `e` on. -/
def entriesLoop (mem : ℕ → UInt8) (tag : ℕ) : ℕ → ℕ → Regions → Option Regions
  | 0, _, _ => none
  | fuel + 1, e, r =>
    if e < tag + load mem (tag + 4) 4 then
      (r.insert (readEntry mem e)).bind fun r =>
        entriesLoop mem tag fuel (e + load mem (tag + 8) 4) r
    else some r

/-- The loop over the tags: where it stops. -/
def tagLoop (mem : ℕ → UInt8) (type : ℕ) : ℕ → ℕ → Option ℕ
  | 0, _ => none
  | fuel + 1, tag =>
    if load mem tag 4 ≠ 0 ∧ load mem tag 4 ≠ type then
      tagLoop mem type fuel ((tag + load mem (tag + 4) 4 + 7) / 8 * 8)
    else some tag

/-- `mb2_mmap_init`, with at most `fuel` tags.  An entry takes up at least one byte of the tag,
unless the loop over them does not end. -/
def mb2MmapInit (mem : ℕ → UInt8) (fuel mbInfo : ℕ) (r : Regions) : Option Regions :=
  (tagLoop mem tagTypeMmap fuel (mbInfo + 8)).bind fun tag =>
    if load mem tag 4 = tagTypeMmap then
      entriesLoop mem tag (load mem (tag + 4) 4 + 1) (tag + 16) r
    else none

/-! ### Sorting the entries -/

/-- The entries of type `MULTIBOOT_MEMORY_AVAILABLE`. -/
def isAvailable (e : MmapEntry) : Bool := e.type = memoryAvailable

variable {r r' : Regions} {es : List MmapEntry} {l l' : List MmapEntry} {e : MmapEntry}

theorem append_eq (h : append l e = some l') : l' = l ++ [e] ∧ l'.length ≤ maxMmapEntries := by
  unfold append at h
  split at h
  · cases h
    rw [List.length_append, List.length_singleton]
    exact ⟨rfl, by assumption⟩
  · cases h

/-- What one entry adds to the lists. -/
theorem insert_eq (h : r.insert e = some r') :
    r'.available = r.available ++ [e].filter isAvailable ∧
      r'.reserved = r.reserved ++ [e].filter (fun e => !isAvailable e) := by
  unfold Regions.insert at h
  split at h
  · obtain ⟨l, hl, rfl⟩ := Option.map_eq_some_iff.1 h
    simp [(append_eq hl).1, isAvailable, *]
  · obtain ⟨l, hl, rfl⟩ := Option.map_eq_some_iff.1 h
    simp [(append_eq hl).1, isAvailable, *]

/-- The lists are those of the entries, in order. -/
theorem foldlM_insert_eq (h : es.foldlM Regions.insert r = some r') :
    r'.available = r.available ++ es.filter isAvailable ∧
      r'.reserved = r.reserved ++ es.filter (fun e => !isAvailable e) := by
  induction es generalizing r with
  | nil =>
    cases h
    simp
  | cons e es ih =>
    obtain ⟨r₁, hr₁, h⟩ := Option.bind_eq_some_iff.1 h
    obtain ⟨ha, hr⟩ := ih h
    obtain ⟨ha₁, hr₁⟩ := insert_eq hr₁
    rw [ha, hr, ha₁, hr₁, List.append_assoc, List.append_assoc, ← List.filter_append,
      ← List.filter_append, List.singleton_append]
    exact ⟨rfl, rfl⟩

/-- No list outgrows its array. -/
theorem insert_length (ha : r.available.length ≤ maxMmapEntries)
    (hr : r.reserved.length ≤ maxMmapEntries) (h : r.insert e = some r') :
    r'.available.length ≤ maxMmapEntries ∧ r'.reserved.length ≤ maxMmapEntries := by
  unfold Regions.insert at h
  split at h
  · obtain ⟨l, hl, rfl⟩ := Option.map_eq_some_iff.1 h
    exact ⟨(append_eq hl).2, hr⟩
  · obtain ⟨l, hl, rfl⟩ := Option.map_eq_some_iff.1 h
    exact ⟨ha, (append_eq hl).2⟩

theorem foldlM_insert_length (ha : r.available.length ≤ maxMmapEntries)
    (hr : r.reserved.length ≤ maxMmapEntries) (h : es.foldlM Regions.insert r = some r') :
    r'.available.length ≤ maxMmapEntries ∧ r'.reserved.length ≤ maxMmapEntries := by
  induction es generalizing r with
  | nil =>
    cases h
    exact ⟨ha, hr⟩
  | cons e es ih =>
    obtain ⟨r₁, hr₁, h⟩ := Option.bind_eq_some_iff.1 h
    obtain ⟨ha₁, hr₁⟩ := insert_length ha hr hr₁
    exact ih ha₁ hr₁ h

/-- As long as both arrays have room, no entry is lost. -/
theorem exists_foldlM_insert
    (h : r.available.length + (es.filter isAvailable).length ≤ maxMmapEntries)
    (h' : r.reserved.length + (es.filter fun e => !isAvailable e).length ≤ maxMmapEntries) :
    ∃ r', es.foldlM Regions.insert r = some r' := by
  induction es generalizing r with
  | nil => exact ⟨r, rfl⟩
  | cons e es ih =>
    rw [← List.singleton_append, List.filter_append, List.length_append, ← add_assoc] at h h'
    obtain ⟨r₁, hr₁⟩ : ∃ r₁, r.insert e = some r₁ := by
      unfold Regions.insert append
      by_cases he : e.type = memoryAvailable
      · rw [if_pos he]
        simp only [isAvailable, he, decide_true, List.filter_cons_of_pos, List.filter_nil,
          List.length_singleton] at h
        rw [if_pos (by omega)]
        exact ⟨_, rfl⟩
      · rw [if_neg he]
        simp only [isAvailable, he, decide_false, Bool.not_false, List.filter_cons_of_pos,
          List.filter_nil, List.length_singleton] at h'
        rw [if_pos (by omega)]
        exact ⟨_, rfl⟩
    obtain ⟨ha, hr⟩ := insert_eq hr₁
    rw [← List.length_append, ← ha] at h
    rw [← List.length_append, ← hr] at h'
    obtain ⟨r', hr'⟩ := ih h h'
    exact ⟨r', by rw [List.foldlM_cons, hr₁]; exact hr'⟩

/-- The loop over the entries, when they lie one behind the other. -/
theorem entriesLoop_eq {mem : ℕ → UInt8} {tag fuel a : ℕ} (hsize : load mem (tag + 8) 4 = 24)
    (hent : ∀ i < es.length, readEntry mem (a + 24 * i) = es.getD i ⟨0, 0, 0, 0⟩)
    (hend : tag + load mem (tag + 4) 4 = a + 24 * es.length) (hfuel : es.length < fuel) :
    entriesLoop mem tag fuel a r = es.foldlM Regions.insert r := by
  induction es generalizing fuel a r with
  | nil =>
    obtain ⟨n, rfl⟩ := Nat.exists_eq_succ_of_ne_zero hfuel.ne_bot
    rw [entriesLoop, if_neg (by simp at hend; omega)]
    rfl
  | cons e es ih =>
    obtain ⟨n, rfl⟩ := Nat.exists_eq_succ_of_ne_zero (Nat.ne_zero_of_lt hfuel)
    rw [List.length_cons] at hend hfuel
    have hread : readEntry mem a = e := hent 0 (by simp)
    have hrest : ∀ r₁, entriesLoop mem tag n (a + 24) r₁ = es.foldlM Regions.insert r₁ := by
      intro r₁
      refine ih (fun i hi => ?_) (by omega) (by omega)
      have hnext := hent (i + 1) (by simpa using hi)
      rw [show a + 24 + 24 * i = a + 24 * (i + 1) by ring, hnext, List.getD_cons_succ]
    rw [entriesLoop, if_pos (by omega), hread, hsize, List.foldlM_cons]
    simp only [hrest, Option.bind_eq_bind]

end Mmap

end TitanOS
