import TitanOS.Boot.Mb2Mmap

/-!
# The memory map of the bootloader (`boot/stage2.S`)

`_read_e820` asks the BIOS for one entry at a time and leaves a memory tag behind, which
`mb2_mmap_init` decodes later.  Before each entry it stores the entry's size, as the memory map of
the first multiboot specification has it; the kernel reads the entries of the second one, which have
no such field.  So every number is read four bytes too early (`decode`), and an entry is decoded to
itself only if each of its numbers is what its neighbour's half makes of it (`fixed_iff`).

`int15` is the BIOS: from the continuation value in `%ebx` it gives the entry and the next value, and
`none` stands for the carry flag.  `entry_length` is stored and incremented as 32 bits and read back
as 8.
-/

namespace TitanOS

open LittleEndian Mmap

namespace E820

/-- An entry as the BIOS returns it, with the extended attributes if it has any. -/
structure Entry where
  base : UInt64
  length : UInt64
  type : UInt32
  attributes : Option UInt32 := none
  deriving DecidableEq, Repr

/-- The 20 or 24 bytes that the BIOS writes to `%edi`. -/
def Entry.write (mem : ℕ → UInt8) (edi : ℕ) (e : Entry) : ℕ → UInt8 :=
  let mem := store mem edi 8 e.base.toNat
  let mem := store mem (edi + 8) 8 e.length.toNat
  let mem := store mem (edi + 16) 4 e.type.toNat
  match e.attributes with
  | some x => store mem (edi + 20) 4 x.toNat
  | none => mem

/-- Memory, and the registers and variables of `_read_e820`. -/
structure Stage2 where
  mem : ℕ → UInt8
  edi : ℕ
  ebx : ℕ
  entryLength : ℕ

/-- `_multiboot_info_t_init`, with `multiboot_info_t` at `info`. -/
def multibootInfoTInit (mem : ℕ → UInt8) (info : ℕ) : ℕ → UInt8 :=
  let mem := store mem info 4 24
  let mem := store mem (info + 4) 4 0
  let mem := store mem (info + 8) 4 6
  let mem := store mem (info + 12) 4 16
  let mem := store mem info 4 24
  store mem (info + 20) 4 0

/-- `_read_e820_loop`, up to `_read_e820_end`. -/
def readE820Loop (int15 : ℕ → Option (Entry × ℕ)) : ℕ → Stage2 → Option Stage2
  | 0, _ => none
  | fuel + 1, s =>
    let s := { s with mem := store s.mem s.edi 4 24, edi := s.edi + 4, entryLength := s.ebx }
    match int15 s.ebx with
    | none => some s
    | some (e, next) =>
      let s := { s with mem := e.write s.mem s.edi, edi := s.edi + 20, ebx := next }
      if next = 0 then some s else readE820Loop int15 fuel s

/-- `_read_e820`: the memory it leaves behind. -/
def readE820 (int15 : ℕ → Option (Entry × ℕ)) (fuel info : ℕ) (mem : ℕ → UInt8) (edi : ℕ) :
    Option (ℕ → UInt8) :=
  (readE820Loop int15 fuel ⟨mem, edi, 0, 0⟩).map fun s =>
    let entryLength := (s.entryLength + 1) % 2 ^ 32
    -- `mul %bl`: the product of two bytes, in `%ax`
    let ax := entryLength % 2 ^ 8 * load s.mem (info + 16) 1
    let mem := store s.mem (info + 12) 2 (load s.mem (info + 12) 2 + ax)
    store mem info 2 (load mem info 2 + ax)

/-- A BIOS with the entries `es`: the continuation values are 1, 2, ..., and 0 at the end. -/
def bios (es : List Entry) (ebx : ℕ) : Option (Entry × ℕ) :=
  es[ebx]?.map fun e => (e, if ebx + 1 < es.length then ebx + 1 else 0)

/-! ### What is laid out -/

/-- The entries are laid out from `a` on, each one behind its size. -/
def Laid (mem : ℕ → UInt8) : ℕ → List Entry → Prop
  | _, [] => True
  | a, e :: es => (load mem a 4 = 24 ∧ load mem (a + 4) 8 = e.base.toNat ∧
      load mem (a + 12) 8 = e.length.toNat ∧ load mem (a + 20) 4 = e.type.toNat) ∧
    Laid mem (a + 24) es

variable {mem mem' : ℕ → UInt8} {a b info fuel : ℕ} {e : Entry} {es : List Entry} {s : Stage2}
  {int15 : ℕ → Option (Entry × ℕ)}

theorem Laid.congr (h : Laid mem a es)
    (hmem : ∀ b, a ≤ b → b < a + 24 * es.length → mem b = mem' b) : Laid mem' a es := by
  induction es generalizing a with
  | nil => exact trivial
  | cons e es ih =>
    rw [List.length_cons] at hmem
    obtain ⟨⟨h₁, h₂, h₃, h₄⟩, hes⟩ := h
    refine ⟨⟨?_, ?_, ?_, ?_⟩, ih hes fun b hb hlt => hmem b (by omega) (by omega)⟩
    · rw [← h₁]
      exact (load_congr fun b hb _ => hmem b hb (by omega)).symm
    · rw [← h₂]
      exact (load_congr fun b hb _ => hmem b (by omega) (by omega)).symm
    · rw [← h₃]
      exact (load_congr fun b hb _ => hmem b (by omega) (by omega)).symm
    · rw [← h₄]
      exact (load_congr fun b hb _ => hmem b (by omega) (by omega)).symm

theorem write_of_lt (h : b < a) : e.write mem a b = mem b := by
  unfold Entry.write
  cases e.attributes with
  | none => simp only [store_of_lt h, store_of_lt (show b < a + 8 by omega),
      store_of_lt (show b < a + 16 by omega)]
  | some x => simp only [store_of_lt h, store_of_lt (show b < a + 8 by omega),
      store_of_lt (show b < a + 16 by omega), store_of_lt (show b < a + 20 by omega)]

/-- What the BIOS has written. -/
theorem load_write : load (e.write mem a) a 8 = e.base.toNat ∧
    load (e.write mem a) (a + 8) 8 = e.length.toNat ∧
    load (e.write mem a) (a + 16) 4 = e.type.toNat := by
  have hbase := e.base.toNat_lt
  have hlength := e.length.toNat_lt
  have htype := e.type.toNat_lt
  -- the attributes lie behind the other numbers
  have hattr : ∀ b n, b + n ≤ a + 20 → load (e.write mem a) b n =
      load (store (store (store mem a 8 e.base.toNat) (a + 8) 8 e.length.toNat) (a + 16) 4
        e.type.toNat) b n := by
    intro b n hb
    unfold Entry.write
    cases e.attributes with
    | none => rfl
    | some x => exact load_store_of_disjoint (Or.inr hb)
  refine ⟨?_, ?_, ?_⟩
  · rw [hattr _ _ (by omega), load_store_of_disjoint (Or.inr (by omega)),
      load_store_of_disjoint (Or.inr (by omega)), load_store]
    exact Nat.mod_eq_of_lt (by omega)
  · rw [hattr _ _ (by omega), load_store_of_disjoint (Or.inr (by omega)), load_store]
    exact Nat.mod_eq_of_lt (by omega)
  · rw [hattr _ _ (by omega), load_store]
    exact Nat.mod_eq_of_lt (by omega)

/-- One turn of the loop lays out one entry, and leaves what lies below it. -/
theorem laid_write : Laid (e.write (store mem a 4 24) (a + 4)) a [e] := by
  obtain ⟨hbase, hlength, htype⟩ := @load_write (store mem a 4 24) (a + 4) e
  refine ⟨⟨?_, hbase, ?_, ?_⟩, trivial⟩
  · rw [load_congr fun b _ hb => write_of_lt hb, load_store]
    norm_num
  · rw [← hlength]
  · rw [← htype]

/-- The loop, by induction on the entries that are left: it lays them out from `%edi` on. -/
theorem readE820Loop_eq (hne : es ≠ [])
    (hbios : ∀ i < es.length, int15 (s.ebx + i) =
      es[i]?.map fun e => (e, if i + 1 < es.length then s.ebx + i + 1 else 0))
    (hfuel : es.length ≤ fuel) :
    ∃ s', readE820Loop int15 fuel s = some s' ∧ Laid s'.mem s.edi es ∧
      (∀ b < s.edi, s'.mem b = s.mem b) ∧ s'.entryLength + 1 = s.ebx + es.length := by
  induction es generalizing s fuel with
  | nil => exact absurd rfl hne
  | cons e es ih =>
    obtain ⟨n, rfl⟩ := Nat.exists_eq_succ_of_ne_zero (by rw [List.length_cons] at hfuel; omega :
      fuel ≠ 0)
    have hfirst := hbios 0 (by simp)
    have hlow : ∀ b < s.edi, e.write (store s.mem s.edi 4 24) (s.edi + 4) b = s.mem b := by
      intro b hb
      rw [write_of_lt (by omega), store_of_lt hb]
    cases es with
    | nil =>
      simp only [Nat.add_zero, List.getElem?_cons_zero, Option.map_some, List.length_singleton,
        Nat.lt_irrefl, zero_add, if_false] at hfirst
      exact ⟨⟨e.write (store s.mem s.edi 4 24) (s.edi + 4), s.edi + 24, 0, s.ebx⟩,
        by simp only [readE820Loop, hfirst, if_true], laid_write, hlow, rfl⟩
    | cons e' es =>
      simp only [Nat.add_zero, List.getElem?_cons_zero, Option.map_some, List.length_cons] at hfirst
      rw [if_pos (by omega)] at hfirst
      obtain ⟨s', hs', hlaid, hmem, hlen⟩ := @ih n ⟨e.write (store s.mem s.edi 4 24) (s.edi + 4),
        s.edi + 24, s.ebx + 1, s.ebx⟩ (List.cons_ne_nil _ _) (fun i hi => by
          have hnext := hbios (i + 1) (by simpa using hi)
          simp only [List.getElem?_cons_succ, List.length_cons] at hnext ⊢
          rw [show s.ebx + 1 + i = s.ebx + (i + 1) by ring, hnext]
          simp only [Nat.add_lt_add_iff_right, add_assoc]) (by simpa using hfuel)
      refine ⟨s', ?_, ⟨?_, hlaid⟩, fun b hb => ?_, ?_⟩
      · simp only [readE820Loop, hfirst, Nat.add_eq_zero_iff, one_ne_zero, and_false, if_false]
        exact hs'
      · exact (laid_write.congr fun b _ hb => (hmem b hb).symm).1
      · rw [hmem b (by simp only; omega)]
        exact hlow b hb
      · simp only [List.length_cons] at hlen ⊢
        omega

/-- The header of the memory tag, when it announces `n` entries. -/
structure Tag (mem : ℕ → UInt8) (info n : ℕ) : Prop where
  type : load mem (info + 8) 4 = 6
  size : load mem (info + 12) 4 = 16 + 24 * n
  entrySize : load mem (info + 16) 4 = 24

/-- `_multiboot_info_t_init` leaves an empty tag, if `entry_size` holds 24 already. -/
theorem tag_multibootInfoTInit (h : load mem (info + 16) 4 = 24) :
    Tag (multibootInfoTInit mem info) info 0 := by
  unfold multibootInfoTInit
  refine ⟨?_, ?_, ?_⟩
  · rw [load_store_of_disjoint (by omega), load_store_of_disjoint (by omega),
      load_store_of_disjoint (by omega), load_store]
    norm_num
  · rw [load_store_of_disjoint (by omega), load_store_of_disjoint (by omega), load_store]
    norm_num
  · rw [load_store_of_disjoint (by omega), load_store_of_disjoint (by omega),
      load_store_of_disjoint (by omega), load_store_of_disjoint (by omega),
      load_store_of_disjoint (by omega), load_store_of_disjoint (by omega), h]

theorem Tag.congr {n : ℕ} (h : Tag mem info n) (hmem : ∀ b < info + 24, mem' b = mem b) :
    Tag mem' info n := by
  refine ⟨?_, ?_, ?_⟩
  · rw [← h.type]
    exact load_congr fun b _ hb => hmem b (by omega)
  · rw [← h.size]
    exact load_congr fun b _ hb => hmem b (by omega)
  · rw [← h.entrySize]
    exact load_congr fun b _ hb => hmem b (by omega)

/-- The end of `_read_e820` counts the entries in eight bits. -/
theorem Tag.count {k : ℕ} (h : Tag mem info 0) (hk : k < 256) (total : ℕ) :
    Tag (store (store mem (info + 12) 2 (load mem (info + 12) 2 + k * load mem (info + 16) 1)) info 2
      total) info k := by
  have hlow : load mem (info + 12) 2 = 16 ∧ load mem (info + 14) 2 = 0 := by
    have hsize := h.size
    have hparts : load mem (info + 12) 4 = load mem (info + 12) 2 + 256 ^ 2 * load mem (info + 14) 2 :=
      @load_add mem (info + 12) 2 2
    have := @load_lt mem (info + 12) 2
    omega
  have hone : load mem (info + 16) 1 = 24 := by
    have hentry := h.entrySize
    have hparts : load mem (info + 16) 4 = load mem (info + 16) 1 + 256 * load mem (info + 17) 3 :=
      @load_add mem (info + 16) 1 3
    have := @load_lt mem (info + 16) 1
    omega
  refine ⟨?_, ?_, ?_⟩
  · rw [load_store_of_disjoint (by omega), load_store_of_disjoint (by omega), h.type]
  · rw [load_store_of_disjoint (by omega), show 4 = 2 + 2 by norm_num, load_add, load_store,
      load_store_of_disjoint (by omega), hlow.1, hlow.2, hone]
    omega
  · rw [load_store_of_disjoint (by omega), load_store_of_disjoint (by omega), h.entrySize]

/-- `_read_e820` leaves the entries behind their sizes, and a tag that counts them in eight bits. -/
theorem readE820_eq (hne : es ≠ []) (h24 : load mem (info + 16) 4 = 24) (hfuel : es.length ≤ fuel) :
    ∃ mem', readE820 (bios es) fuel info (multibootInfoTInit mem info) (info + 24) = some mem' ∧
      Laid mem' (info + 24) es ∧ Tag mem' info (es.length % 256) := by
  obtain ⟨s, hs, hlaid, hlow, hlen⟩ := @readE820Loop_eq fuel es
    ⟨multibootInfoTInit mem info, info + 24, 0, 0⟩ (bios es) hne
    (fun i hi => by simp only [bios, zero_add]) hfuel
  have htag := ((tag_multibootInfoTInit h24).congr hlow).count (Nat.mod_lt es.length (by norm_num))
  have hcount : (s.entryLength + 1) % 2 ^ 32 % 2 ^ 8 = es.length % 256 := by
    rw [hlen]
    simp only
    omega
  refine ⟨_, by rw [readE820, hs, Option.map_some], ?_, ?_⟩
  · refine hlaid.congr fun b hb _ => ?_
    simp only at hb
    rw [store_of_le (by omega), store_of_le (by omega)]
  · simp only [hcount]
    exact htag _

/-! ### What is decoded -/

/-- What the kernel reads where the bootloader has laid out an entry. -/
def decode (e : Entry) : MmapEntry where
  addr := 24 + 2 ^ 32 * (e.base.toNat % 2 ^ 32)
  len := e.base.toNat / 2 ^ 32 + 2 ^ 32 * (e.length.toNat % 2 ^ 32)
  type := e.length.toNat / 2 ^ 32
  zero := e.type.toNat

/-- Every number is read four bytes too early. -/
theorem readEntry_eq (h : Laid mem a [e]) : readEntry mem a = decode e := by
  obtain ⟨⟨hsize, hbase, hlength, htype⟩, -⟩ := h
  -- each number of eight bytes in two halves, where the kernel reads it and where it was written
  have hparts : ∀ b, load mem b 8 = load mem b 4 + 2 ^ 32 * load mem (b + 4) 4 :=
    fun b => @load_add mem b 4 4
  have hb := hparts (a + 4)
  have hl := hparts (a + 12)
  have hblt := @load_lt mem (a + 4) 4
  have hllt := @load_lt mem (a + 12) 4
  simp only [add_assoc, Nat.reduceAdd] at hb hl
  have haddr : load mem a 8 = 24 + 2 ^ 32 * (e.base.toNat % 2 ^ 32) := by
    rw [hparts]
    omega
  have hlen : load mem (a + 8) 8 = e.base.toNat / 2 ^ 32 + 2 ^ 32 * (e.length.toNat % 2 ^ 32) := by
    rw [hparts]
    simp only [add_assoc, Nat.reduceAdd]
    omega
  have hty : load mem (a + 16) 4 = e.length.toNat / 2 ^ 32 := by omega
  rw [readEntry, haddr, hlen, hty, htype, decode]

theorem Laid.take (h : Laid mem a es) (m : ℕ) : Laid mem a (es.take m) := by
  induction es generalizing a m with
  | nil => rwa [List.take_nil]
  | cons e es ih =>
    cases m with
    | zero => exact trivial
    | succ m => exact ⟨h.1, ih h.2 m⟩

theorem Laid.readEntry (h : Laid mem a es) {i : ℕ} (hi : i < es.length) :
    Mmap.readEntry mem (a + 24 * i) = (es.map decode).getD i ⟨0, 0, 0, 0⟩ := by
  induction es generalizing a i with
  | nil => cases hi
  | cons e es ih =>
    cases i with
    | zero => exact readEntry_eq ⟨h.1, trivial⟩
    | succ i =>
      rw [show a + 24 * (i + 1) = a + 24 + 24 * i by ring, ih h.2 (by simpa using hi), List.map_cons,
        List.getD_cons_succ]

/-- The kernel sorts the first `m` entries, as it decodes them. -/
theorem mb2MmapInit_eq {m : ℕ} (htag : Tag mem info m) (hlaid : Laid mem (info + 24) es)
    (hm : m ≤ es.length) (hfuel : 0 < fuel) :
    mb2MmapInit mem fuel info noRegions =
      ((es.take m).map decode).foldlM Regions.insert noRegions := by
  obtain ⟨n, rfl⟩ := Nat.exists_eq_succ_of_ne_zero hfuel.ne_bot
  have hlen : ((es.take m).map decode).length = m := by
    rw [List.length_map, List.length_take, Nat.min_eq_left hm]
  have htagAt : tagLoop mem tagTypeMmap (n + 1) (info + 8) = some (info + 8) := by
    rw [tagLoop, if_neg fun h => h.2 htag.type]
  have htype : load mem (info + 8) 4 = tagTypeMmap := htag.type
  rw [mb2MmapInit, htagAt, Option.bind_some, if_pos htype]
  refine entriesLoop_eq htag.entrySize (fun i hi => ?_) ?_ ?_
  · rw [List.length_map] at hi
    exact (hlaid.take m).readEntry hi
  · rw [hlen]
    have := htag.size
    simp only [add_assoc, Nat.reduceAdd] at this ⊢
    omega
  · rw [hlen]
    have := htag.size
    simp only [add_assoc, Nat.reduceAdd] at this ⊢
    omega

/-! ### Agreement -/

/-- Base, length and type. -/
def Entry.numbers (e : Entry) : ℕ × ℕ × ℕ := (e.base.toNat, e.length.toNat, e.type.toNat)

/-- The same of an entry of the kernel. -/
def numbersOf (e : MmapEntry) : ℕ × ℕ × ℕ := (e.addr, e.len, e.type)

/-- The entry is of type `MULTIBOOT_MEMORY_AVAILABLE`. -/
def Entry.isAvailable (e : Entry) : Bool := e.type.toNat = memoryAvailable

/-- `mb2_mmap_init` decodes the tag into the entries of the BIOS, sorted by type, in order. -/
def Agrees (mem : ℕ → UInt8) (fuel info : ℕ) (es : List Entry) : Prop :=
  ∃ r, mb2MmapInit mem fuel info noRegions = some r ∧
    r.available.map numbersOf = (es.filter Entry.isAvailable).map Entry.numbers ∧
    r.reserved.map numbersOf = (es.filter fun e => !e.isAvailable).map Entry.numbers

/-- The numbers that are decoded to themselves: `0x18` in both halves of base and length. -/
def fixed : ℕ × ℕ × ℕ := (0x1800000018, 0x1800000018, 0x18)

theorem numbersOf_decode (h : e.numbers = fixed) : numbersOf (decode e) = fixed := by
  simp only [Entry.numbers, fixed, Prod.mk.injEq] at h
  simp only [numbersOf, decode, fixed, h.1, h.2.1, Nat.reducePow, Nat.reduceMod, Nat.reduceMul,
    Nat.reduceAdd, Nat.reduceDiv]

/-- If every entry is decoded from some entry of the same list, then all of them are `fixed`. -/
theorem numbers_eq_fixed (h : ∀ e ∈ es, ∃ e' ∈ es, e.numbers = numbersOf (decode e')) :
    ∀ e ∈ es, e.numbers = fixed := by
  have hlow : ∀ e ∈ es, e.base.toNat % 2 ^ 32 = 24 := by
    intro e he
    obtain ⟨e', -, h'⟩ := h e he
    simp only [Entry.numbers, numbersOf, decode, Prod.mk.injEq] at h'
    omega
  have hbase : ∀ e ∈ es, e.base.toNat = 0x1800000018 := by
    intro e he
    obtain ⟨e', he', h'⟩ := h e he
    have := hlow e' he'
    simp only [Entry.numbers, numbersOf, decode, Prod.mk.injEq] at h'
    omega
  have hlow' : ∀ e ∈ es, e.length.toNat % 2 ^ 32 = 24 := by
    intro e he
    obtain ⟨e', he', h'⟩ := h e he
    have := hbase e' he'
    simp only [Entry.numbers, numbersOf, decode, Prod.mk.injEq] at h'
    omega
  have hlength : ∀ e ∈ es, e.length.toNat = 0x1800000018 := by
    intro e he
    obtain ⟨e', he', h'⟩ := h e he
    have := hbase e' he'
    have := hlow' e' he'
    simp only [Entry.numbers, numbersOf, decode, Prod.mk.injEq] at h'
    omega
  intro e he
  obtain ⟨e', he', h'⟩ := h e he
  have := hlength e' he'
  simp only [Entry.numbers, numbersOf, decode, Prod.mk.injEq] at h'
  simp only [Entry.numbers, fixed, Prod.mk.injEq]
  exact ⟨hbase e he, hlength e he, by omega⟩

theorem isAvailable_of_fixed (h : e.numbers = fixed) : e.isAvailable = false := by
  simp only [Entry.numbers, fixed, Prod.mk.injEq] at h
  simp [Entry.isAvailable, memoryAvailable, h.2.2]

theorem isAvailable_decode_of_fixed (h : e.numbers = fixed) : isAvailable (decode e) = false := by
  have hnum := numbersOf_decode h
  simp only [numbersOf, fixed, Prod.mk.injEq] at hnum
  simp [isAvailable, memoryAvailable, hnum.2.2]

/-- Entries that are decoded to themselves are found again, if there is room for them. -/
theorem agrees_of_fixed (htag : Tag mem info (es.length % 256)) (hlaid : Laid mem (info + 24) es)
    (hfuel : 0 < fuel) (hlen : es.length ≤ maxMmapEntries) (hfix : ∀ e ∈ es, e.numbers = fixed) :
    Agrees mem fuel info es := by
  have hcount : es.length % 256 = es.length :=
    Nat.mod_eq_of_lt (hlen.trans_lt (by norm_num [maxMmapEntries]))
  have hinit := mb2MmapInit_eq htag hlaid (Nat.mod_le _ _) hfuel
  rw [hcount, List.take_length] at hinit
  have hlen' : ∀ p, ((es.map decode).filter p).length ≤ maxMmapEntries := fun p =>
    (List.length_filter_le p _).trans (by rwa [List.length_map])
  obtain ⟨r, hr⟩ := @exists_foldlM_insert noRegions (es.map decode)
    (by simpa [noRegions] using hlen' _) (by simpa [noRegions] using hlen' _)
  obtain ⟨ha, hres⟩ := foldlM_insert_eq hr
  refine ⟨r, hinit.trans hr, ?_, ?_⟩
  · have hleft : (es.map decode).filter isAvailable = [] := by
      rw [List.filter_eq_nil_iff]
      intro d hd
      obtain ⟨e, he, rfl⟩ := List.mem_map.1 hd
      simp [isAvailable_decode_of_fixed (hfix e he)]
    have hright : es.filter Entry.isAvailable = [] := by
      rw [List.filter_eq_nil_iff]
      intro e he
      simp [isAvailable_of_fixed (hfix e he)]
    rw [ha, hleft, hright]
    rfl
  · have hleft : (es.map decode).filter (fun e => !isAvailable e) = es.map decode := by
      rw [List.filter_eq_self]
      intro d hd
      obtain ⟨e, he, rfl⟩ := List.mem_map.1 hd
      simp [isAvailable_decode_of_fixed (hfix e he)]
    have hright : es.filter (fun e => !e.isAvailable) = es := by
      rw [List.filter_eq_self]
      intro e he
      simp [isAvailable_of_fixed (hfix e he)]
    rw [hres, hleft, hright, noRegions, List.nil_append, List.map_map]
    refine List.map_congr_left fun e he => ?_
    rw [Function.comp_apply, numbersOf_decode (hfix e he), hfix e he]

/-- If the lists agree, then no entry is lost and each one is decoded from one of them. -/
theorem fixed_of_agrees (htag : Tag mem info (es.length % 256)) (hlaid : Laid mem (info + 24) es)
    (hfuel : 0 < fuel) (h : Agrees mem fuel info es) :
    es.length ≤ maxMmapEntries ∧ ∀ e ∈ es, e.numbers = fixed := by
  obtain ⟨r, hr, havail, hreserved⟩ := h
  rw [mb2MmapInit_eq htag hlaid (Nat.mod_le _ _) hfuel] at hr
  obtain ⟨ha, hres⟩ := foldlM_insert_eq hr
  have hroom := foldlM_insert_length (Nat.zero_le _) (Nat.zero_le _) hr
  rw [show noRegions.available = [] from rfl, List.nil_append] at ha
  rw [show noRegions.reserved = [] from rfl, List.nil_append] at hres
  have hfix : ∀ e ∈ es, e.numbers = fixed := by
    refine numbers_eq_fixed fun e he => ?_
    obtain ⟨d, hd, hnum⟩ : ∃ d ∈ (es.take (es.length % 256)).map decode, e.numbers = numbersOf d := by
      cases hty : e.isAvailable with
      | true =>
        have hmem : e.numbers ∈ r.available.map numbersOf := by
          rw [havail]
          exact List.mem_map_of_mem (List.mem_filter.2 ⟨he, hty⟩)
        obtain ⟨d, hd, hnum⟩ := List.mem_map.1 hmem
        rw [ha] at hd
        exact ⟨d, List.mem_of_mem_filter hd, hnum.symm⟩
      | false =>
        have hmem : e.numbers ∈ r.reserved.map numbersOf := by
          rw [hreserved]
          exact List.mem_map_of_mem (List.mem_filter.2 ⟨he, by rw [hty]; rfl⟩)
        obtain ⟨d, hd, hnum⟩ := List.mem_map.1 hmem
        rw [hres] at hd
        exact ⟨d, List.mem_of_mem_filter hd, hnum.symm⟩
    obtain ⟨e', he', rfl⟩ := List.mem_map.1 hd
    exact ⟨e', List.mem_of_mem_take he', hnum⟩
  -- then all entries are reserved
  have hall : es.filter (fun e => !e.isAvailable) = es := by
    rw [List.filter_eq_self]
    intro e he
    simp [isAvailable_of_fixed (hfix e he)]
  have hlen := congrArg List.length hreserved
  rw [List.length_map, List.length_map, hall] at hlen
  exact ⟨hlen ▸ hroom.2, hfix⟩

/-- **The bootloader and the kernel do not agree on the memory map**: the kernel finds the entries
of the BIOS again exactly if there are at most `MAX_MMAP_ENTRIES` and base, length and type of each
of them are `fixed`. -/
theorem memory_map_agrees_iff (mem : ℕ → UInt8) (info : ℕ) (es : List Entry) (hne : es ≠ [])
    (h24 : load mem (info + 16) 4 = 24) (fuel tags : ℕ) (hfuel : es.length ≤ fuel)
    (htags : 0 < tags) :
    ∃ mem', readE820 (bios es) fuel info (multibootInfoTInit mem info) (info + 24) = some mem' ∧
      (Agrees mem' tags info es ↔
        es.length ≤ maxMmapEntries ∧ ∀ e ∈ es, e.numbers = fixed) := by
  obtain ⟨mem', hmem', hlaid, htag⟩ := readE820_eq hne h24 hfuel
  exact ⟨mem', hmem', fixed_of_agrees htag hlaid htags,
    fun h => agrees_of_fixed htag hlaid htags h.1 h.2⟩

/-- Memory of zeros in which `entry_size`, of a `multiboot_info_t` at `0x8000`, holds 24. -/
def freshMemory : ℕ → UInt8 := store (fun _ => 0) 0x8010 4 24

theorem load_freshMemory : load freshMemory (0x8000 + 16) 4 = 24 := by
  rw [freshMemory, load_store]
  norm_num

/-- Two entries whose numbers are `fixed`. -/
theorem memory_map_agrees_fixed :
    ∃ mem', readE820 (bios [⟨0x1800000018, 0x1800000018, 0x18, none⟩,
        ⟨0x1800000018, 0x1800000018, 0x18, some 1⟩]) 2 0x8000
        (multibootInfoTInit freshMemory 0x8000) (0x8000 + 24) = some mem' ∧
      Agrees mem' 1 0x8000 [⟨0x1800000018, 0x1800000018, 0x18, none⟩,
        ⟨0x1800000018, 0x1800000018, 0x18, some 1⟩] := by
  obtain ⟨mem', hmem', hiff⟩ := memory_map_agrees_iff freshMemory 0x8000
    [⟨0x1800000018, 0x1800000018, 0x18, none⟩, ⟨0x1800000018, 0x1800000018, 0x18, some 1⟩]
    (List.cons_ne_nil _ _) load_freshMemory 2 1 le_rfl Nat.one_pos
  exact ⟨mem', hmem', hiff.2 (by decide)⟩

/-- The 639 KiB of low memory, available at address 0, are decoded into a reserved region at
address 24. -/
theorem low_memory_lost :
    ∃ mem', readE820 (bios [⟨0, 0x9fc00, 1, none⟩]) 1 0x8000 (multibootInfoTInit freshMemory 0x8000)
        (0x8000 + 24) = some mem' ∧
      mb2MmapInit mem' 1 0x8000 noRegions = some ⟨[], [⟨24, 0x9fc0000000000, 0, 1⟩], 0⟩ ∧
      ¬ Agrees mem' 1 0x8000 [⟨0, 0x9fc00, 1, none⟩] := by
  obtain ⟨mem', hmem', hlaid, htag⟩ := @readE820_eq freshMemory 0x8000 1 [⟨0, 0x9fc00, 1, none⟩]
    (List.cons_ne_nil _ _) load_freshMemory le_rfl
  refine ⟨mem', hmem', ?_, fun h => ?_⟩
  · rw [mb2MmapInit_eq htag hlaid le_rfl Nat.one_pos]
    decide
  · exact absurd ((fixed_of_agrees htag hlaid Nat.one_pos h).2 _ List.mem_cons_self) (by decide)

end E820

end TitanOS
