import Mathlib.Data.List.GetD
import TitanOS.Boot.Mb2Mmap

/-!
# The tags of the multiboot information (`multiboot2.h`)

The information is a list of tags, each of which tells its own length, padded to eight bytes and
closed by a tag of type 0.  `encode` lays such a list out.  `get_mb2_tag`, `mb2_mmap_init` and
`tar_init` have the same loop over the tags, which goes from one tag to the next by its size.

`span` is the length of the tags in front of the one that is looked for.
-/

namespace TitanOS

open LittleEndian Mmap

/-- `MULTIBOOT_TAG_TYPE_MODULE`. -/
def Tar.tagTypeModule : ℕ := 3

/-- The loop of `tar_init` over the tags. -/
def Tar.findModule (mem : ℕ → UInt8) (fuel mbInfo : ℕ) : Option ℕ :=
  tagLoop mem tagTypeModule fuel (mbInfo + 8)

namespace Mb2

/-- `get_mb2_tag`; the inner `none` is the null pointer. -/
def getMb2Tag (mem : ℕ → UInt8) (fuel mbInfo type : ℕ) : Option (Option ℕ) :=
  (tagLoop mem type fuel (mbInfo + 8)).map fun tag =>
    if load mem tag 4 ≠ type then none else some tag

/-! ### The encoding -/

/-- A tag.  Type 0 closes the list. -/
structure Tag where
  type : ℕ
  payload : List UInt8
  type_ne : type ≠ 0
  type_lt : type < 2 ^ 32
  size_lt : 8 + payload.length < 2 ^ 32

/-- `ALIGN_UP(n, MULTIBOOT_INFO_ALIGN)`. -/
def alignUp (n : ℕ) : ℕ := (n + 7) / 8 * 8

/-- The size field of a tag counts its header. -/
def Tag.size (t : Tag) : ℕ := 8 + t.payload.length

/-- The `n` low bytes of `w`, the lowest first. -/
def leBytes (n w : ℕ) : List UInt8 := (List.range n).map fun k => UInt8.ofNat (w / 256 ^ k)

/-- The bytes of a tag, with its padding. -/
def Tag.bytes (t : Tag) : List UInt8 :=
  leBytes 4 t.type ++ leBytes 4 t.size ++ t.payload ++ List.replicate (alignUp t.size - t.size) 0

/-- The bytes of the tags and of the end tag. -/
def encode : List Tag → List UInt8
  | [] => leBytes 4 0 ++ leBytes 4 8
  | t :: ts => t.bytes ++ encode ts

/-- The length of the encoded tags, without the end tag. -/
def span (ts : List Tag) : ℕ := (ts.map fun t => alignUp t.size).sum

/-- The bytes `bs` are at `a`. -/
def BytesAt (mem : ℕ → UInt8) (a : ℕ) (bs : List UInt8) : Prop :=
  ∀ k < bs.length, mem (a + k) = bs.getD k 0

variable {mem : ℕ → UInt8} {a n w fuel type : ℕ} {bs cs : List UInt8} {t : Tag} {ts : List Tag}

theorem length_leBytes (n w : ℕ) : (leBytes n w).length = n := by
  unfold leBytes
  rw [List.length_map, List.length_range]

theorem le_alignUp (n : ℕ) : n ≤ alignUp n := by
  unfold alignUp
  omega

theorem length_bytes (t : Tag) : t.bytes.length = alignUp t.size := by
  have hle := le_alignUp t.size
  unfold Tag.bytes
  simp only [List.length_append, length_leBytes, List.length_replicate]
  unfold Tag.size at hle ⊢
  omega

theorem bytesAt_append : BytesAt mem a (bs ++ cs) ↔ BytesAt mem a bs ∧
    BytesAt mem (a + bs.length) cs := by
  unfold BytesAt
  constructor
  · intro h
    constructor
    · intro k hk
      rw [h k (by rw [List.length_append]; omega), List.getD_append _ _ _ _ hk]
    · intro k hk
      rw [add_assoc, h _ (by rw [List.length_append]; omega),
        List.getD_append_right _ _ _ _ (by omega), Nat.add_sub_cancel_left]
  · rintro ⟨hb, hc⟩ k hk
    rw [List.length_append] at hk
    by_cases hlt : k < bs.length
    · rw [hb k hlt, List.getD_append _ _ _ _ hlt]
    · have hsplit := hc (k - bs.length) (by omega)
      rw [show a + bs.length + (k - bs.length) = a + k by omega] at hsplit
      rw [hsplit, List.getD_append_right _ _ _ _ (by omega)]

/-- The bytes of a number are read as this number. -/
theorem load_of_bytesAt (h : BytesAt mem a (leBytes n w)) (hw : w < 256 ^ n) :
    load mem a n = w := by
  have hstore : load mem a n = load (store mem a n w) a n := by
    refine load_congr fun b hb hlt => ?_
    have hbyte := h (b - a) (by rw [length_leBytes]; omega)
    rw [show a + (b - a) = b by omega] at hbyte
    rw [hbyte, store, if_pos ⟨hb, hlt⟩]
    have hk : b - a < n := by omega
    simp [leBytes, List.getD_eq_getElem?_getD, hk]
  rw [hstore, load_store, Nat.mod_eq_of_lt hw]

/-- The header of an encoded tag. -/
theorem header_of_bytesAt (h : BytesAt mem a t.bytes) :
    load mem a 4 = t.type ∧ load mem (a + 4) 4 = t.size := by
  unfold Tag.bytes at h
  rw [bytesAt_append, bytesAt_append, bytesAt_append, length_leBytes] at h
  obtain ⟨⟨⟨htype, hsize⟩, -⟩, -⟩ := h
  constructor
  · exact load_of_bytesAt htype t.type_lt
  · exact load_of_bytesAt hsize t.size_lt

/-! ### The loop over the tags -/

/-- The tags in front of the first one of the given type. -/
def before (type : ℕ) (ts : List Tag) : List Tag := ts.takeWhile fun t => t.type ≠ type

theorem span_before_cons (ht : t.type ≠ type) :
    span (before type (t :: ts)) = alignUp t.size + span (before type ts) := by
  simp [before, ht, span]

/-- **The loop** stops at the first tag of the type, or at the end tag. -/
theorem tagLoop_encode (h8 : a % 8 = 0) (h : BytesAt mem a (encode ts)) (hfuel : ts.length < fuel) :
    tagLoop mem type fuel a = some (a + span (before type ts)) ∧
      load mem (a + span (before type ts)) 4 =
        if ∃ t ∈ ts, t.type = type then type else 0 := by
  induction ts generalizing a fuel with
  | nil =>
    obtain ⟨n, rfl⟩ := Nat.exists_eq_succ_of_ne_zero hfuel.ne_bot
    unfold encode at h
    rw [bytesAt_append] at h
    have hend : load mem a 4 = 0 := load_of_bytesAt h.1 (by norm_num)
    constructor
    · rw [tagLoop, if_neg fun hne => hne.1 hend]
      rfl
    · rw [if_neg (by simp)]
      exact hend
  | cons t ts ih =>
    obtain ⟨n, rfl⟩ := Nat.exists_eq_succ_of_ne_zero (Nat.ne_zero_of_lt hfuel)
    unfold encode at h
    rw [bytesAt_append, length_bytes] at h
    obtain ⟨htype, hsize⟩ := header_of_bytesAt h.1
    rw [tagLoop, htype, hsize]
    by_cases ht : t.type = type
    · have hnone : before type (t :: ts) = [] := by simp [before, ht]
      rw [if_neg fun hne => hne.2 ht, hnone, if_pos ⟨t, List.mem_cons_self, ht⟩]
      exact ⟨rfl, htype.trans ht⟩
    · -- the next header is behind the padding
      have hnext : (a + t.size + 7) / 8 * 8 = a + alignUp t.size := by
        unfold alignUp
        omega
      have hrest : (a + alignUp t.size) % 8 = 0 := by
        unfold alignUp
        omega
      have hspan := @span_before_cons type t ts ht
      have hex : (∃ s ∈ t :: ts, s.type = type) ↔ ∃ s ∈ ts, s.type = type := by simp [ht]
      rw [if_pos ⟨t.type_ne, ht⟩, hnext, hspan, ← add_assoc]
      simp only [hex]
      exact ih hrest h.2 (by simpa using hfuel)

/-- The first tag of a type is behind the tags in front of it. -/
theorem bytesAt_found (h : BytesAt mem a (encode ts))
    (ht : ts.find? (fun t => t.type = type) = some t) :
    BytesAt mem (a + span (before type ts)) t.bytes := by
  induction ts generalizing a with
  | nil => cases ht
  | cons s ts ih =>
    unfold encode at h
    rw [bytesAt_append, length_bytes] at h
    by_cases hs : s.type = type
    · have hnone : before type (s :: ts) = [] := by simp [before, hs]
      obtain rfl : s = t := by simpa [hs] using ht
      rw [hnone]
      exact h.1
    · rw [span_before_cons hs, ← add_assoc]
      apply ih h.2
      simpa [hs] using ht

/-- **The tag search is correct.**  `get_mb2_tag` answers the address of the first tag of the given
type, or the null pointer if there is none; and the loops of `mb2_mmap_init` and `tar_init` stop at
the first tag of their types, or at the end tag. -/
theorem tag_search_correct (mem : ℕ → UInt8) (info : ℕ) (ts : List Tag) (fuel : ℕ)
    (h8 : info % 8 = 0) (h : BytesAt mem (info + 8) (encode ts)) (hfuel : ts.length < fuel) :
    (∀ type, type ≠ 0 → getMb2Tag mem fuel info type =
      some (if ∃ t ∈ ts, t.type = type then some (info + 8 + span (before type ts)) else none)) ∧
    tagLoop mem tagTypeMmap fuel (info + 8) = some (info + 8 + span (before tagTypeMmap ts)) ∧
    Tar.findModule mem fuel info = some (info + 8 + span (before Tar.tagTypeModule ts)) := by
  have halign : (info + 8) % 8 = 0 := by omega
  refine ⟨fun type htype => ?_, (tagLoop_encode halign h hfuel).1, (tagLoop_encode halign h hfuel).1⟩
  obtain ⟨hloop, hstop⟩ := @tagLoop_encode mem (info + 8) fuel type ts halign h hfuel
  unfold getMb2Tag
  rw [hloop, Option.map_some, hstop]
  by_cases hex : ∃ t ∈ ts, t.type = type
  · rw [if_pos hex, if_pos hex, if_neg (not_not.2 rfl)]
  · rw [if_neg hex, if_neg hex, if_pos htype.symm]

/-- A module tag with an odd payload, an unknown tag without one, and a memory map. -/
def threeTags : List Tag :=
  [⟨3, List.replicate 9 6, by decide, by decide, by decide⟩, ⟨77, [], by decide, by decide, by decide⟩,
    ⟨6, List.replicate 8 0, by decide, by decide, by decide⟩]

/-- The information at `0x1000`. -/
def infoOf (ts : List Tag) : ℕ → UInt8 := fun a => (encode ts).getD (a - 0x1008) 0

theorem bytesAt_infoOf (ts : List Tag) : BytesAt (infoOf ts) (0x1000 + 8) (encode ts) := by
  intro k _
  unfold infoOf
  rw [Nat.add_sub_cancel_left]

/-- The payload of the first tag, which consists of sixes, is skipped. -/
theorem tag_search_correct_three :
    getMb2Tag (infoOf threeTags) 4 0x1000 6 = some (some 0x1028) ∧
      getMb2Tag (infoOf threeTags) 4 0x1000 15 = some none ∧
      tagLoop (infoOf threeTags) tagTypeMmap 4 (0x1000 + 8) = some 0x1028 ∧
      Tar.findModule (infoOf threeTags) 4 0x1000 = some 0x1008 := by
  obtain ⟨hget, hmmap, hmodule⟩ := tag_search_correct (infoOf threeTags) 0x1000 threeTags 4
    (by decide) (bytesAt_infoOf threeTags) (by decide)
  exact ⟨hget 6 (by decide), hget 15 (by decide), hmmap, hmodule⟩

/-! ### The memory map -/

/-- The `n` entries of a memory map from `a` on. -/
def entriesAt (mem : ℕ → UInt8) (a n : ℕ) : List MmapEntry :=
  (List.range n).map fun i => readEntry mem (a + 24 * i)

/-- After `mb2_mmap_init` the lists are those of the available and of the other entries, in order,
and all stores have been inside of the arrays. -/
def Partitioned (mem : ℕ → UInt8) (fuel info : ℕ) (es : List MmapEntry) : Prop :=
  ∃ r, mb2MmapInit mem fuel info noRegions = some r ∧ r.available = es.filter isAvailable ∧
    r.reserved = es.filter fun e => !isAvailable e

/-- `mb2_mmap_init` sorts the entries of the first memory-map tag. -/
theorem mb2MmapInit_encode {info n : ℕ} (h8 : info % 8 = 0)
    (h : BytesAt mem (info + 8) (encode ts)) (hfuel : ts.length < fuel)
    (ht : ts.find? (fun t => t.type = tagTypeMmap) = some t) (hlen : t.payload.length = 8 + 24 * n)
    (hentry : load mem (info + 8 + span (before tagTypeMmap ts) + 8) 4 = 24) :
    mb2MmapInit mem fuel info noRegions =
      (entriesAt mem (info + 8 + span (before tagTypeMmap ts) + 16) n).foldlM Regions.insert
        noRegions := by
  obtain ⟨hloop, hstop⟩ :=
    @tagLoop_encode mem (info + 8) fuel tagTypeMmap ts (by omega) h hfuel
  have hmem := List.mem_of_find?_eq_some ht
  have htype : t.type = tagTypeMmap := by simpa using List.find?_some ht
  rw [if_pos ⟨t, hmem, htype⟩] at hstop
  have hsize : load mem (info + 8 + span (before tagTypeMmap ts) + 4) 4 = 16 + 24 * n := by
    have hat := bytesAt_found h ht
    rw [(header_of_bytesAt hat).2]
    unfold Tag.size
    omega
  unfold mb2MmapInit
  rw [hloop, Option.bind_some, if_pos hstop]
  apply entriesLoop_eq hentry
  · intro i hi
    unfold entriesAt at hi ⊢
    rw [List.length_map, List.length_range] at hi
    simp [List.getD_eq_getElem?_getD, hi]
  · unfold entriesAt
    rw [hsize, List.length_map, List.length_range]
    omega
  · unfold entriesAt
    rw [hsize, List.length_map, List.length_range]
    omega

/-- **The memory map is partitioned exactly** if and only if both kinds of entries fit their
arrays. -/
theorem memory_map_partitioned_iff (mem : ℕ → UInt8) (info : ℕ) (ts : List Tag) (fuel : ℕ)
    (h8 : info % 8 = 0) (h : BytesAt mem (info + 8) (encode ts)) (hfuel : ts.length < fuel)
    (t : Tag) (n : ℕ) (ht : ts.find? (fun t => t.type = tagTypeMmap) = some t)
    (hlen : t.payload.length = 8 + 24 * n)
    (hentry : load mem (info + 8 + span (before tagTypeMmap ts) + 8) 4 = 24) :
    let es := entriesAt mem (info + 8 + span (before tagTypeMmap ts) + 16) n
    Partitioned mem fuel info es ↔ (es.filter isAvailable).length ≤ maxMmapEntries ∧
      (es.filter fun e => !isAvailable e).length ≤ maxMmapEntries := by
  intro es
  have hinit := mb2MmapInit_encode h8 h hfuel ht hlen hentry
  unfold Partitioned
  rw [hinit]
  constructor
  · rintro ⟨r, hr, ha, hres⟩
    rw [← ha, ← hres]
    exact foldlM_insert_length (Nat.zero_le _) (Nat.zero_le _) hr
  · rintro ⟨ha, hres⟩
    obtain ⟨r, hr⟩ := @exists_foldlM_insert noRegions es (by simpa [noRegions] using ha)
      (by simpa [noRegions] using hres)
    obtain ⟨ha', hres'⟩ := foldlM_insert_eq hr
    exact ⟨r, hr, by simpa [noRegions] using ha', by simpa [noRegions] using hres'⟩

/-- The tag of a memory map. -/
def memoryMap (es : List MmapEntry) (h : 16 + 24 * es.length < 2 ^ 32) : Tag where
  type := tagTypeMmap
  payload := leBytes 4 24 ++ leBytes 4 0 ++ es.flatMap fun e =>
    leBytes 8 e.addr ++ leBytes 8 e.len ++ leBytes 4 e.type ++ leBytes 4 e.zero
  type_ne := by decide
  type_lt := by decide
  size_lt := by
    simp only [List.length_append, List.length_flatMap, length_leBytes, List.map_const',
      List.sum_replicate, smul_eq_mul]
    omega

/-- Low memory, and the hole behind it, which is not available. -/
def lowMemory : Tag :=
  memoryMap [⟨0, 0x9fc00, 1, 0⟩, ⟨0x9fc00, 0x60400, 2, 0⟩, ⟨0x100000, 0x7ee0000, 1, 0⟩] (by decide)

theorem memory_map_partitioned_three :
    Partitioned (infoOf [lowMemory]) 2 0x1000 (entriesAt (infoOf [lowMemory]) 0x1018 3) := by
  refine (memory_map_partitioned_iff (infoOf [lowMemory]) 0x1000 [lowMemory] 2 (by decide)
    (bytesAt_infoOf _) (by decide) lowMemory 3 rfl (by decide +kernel) (by decide +kernel)).2 ?_
  decide +kernel

/-- One available entry more than there is room for. -/
def manyEntries : Tag := memoryMap (List.replicate 21 ⟨0x100000, 0x1000, 1, 0⟩) (by decide)

/-- **The entry that does not fit** is stored behind the array. -/
theorem memory_map_overflow :
    BytesAt (infoOf [manyEntries]) (0x1000 + 8) (encode [manyEntries]) ∧
      manyEntries.payload.length = 8 + 24 * 21 ∧
      ¬ Partitioned (infoOf [manyEntries]) 2 0x1000
        (entriesAt (infoOf [manyEntries]) 0x1018 21) := by
  refine ⟨bytesAt_infoOf _, by decide +kernel, ?_⟩
  rintro ⟨r, hr, -⟩
  have hnone : mb2MmapInit (infoOf [manyEntries]) 2 0x1000 noRegions = none := by decide +kernel
  rw [hnone] at hr
  cases hr

end Mb2

end TitanOS
