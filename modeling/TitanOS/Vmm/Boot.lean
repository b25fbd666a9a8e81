import TitanOS.Vmm.Mmap

/-!
# The page tables at boot (`kernel_init.S`, `vmm_init`)

`kernel_init.S` fills eight tables in the bss of the kernel image: slot 511 of the root leads
through `initial_pdpt` and `initial_pd` to `initial_pt`, which maps the image, the VGA buffer and
the first page of the bitmap, and to `initial_pt3`, which maps the heap and has room for the
window of page tables; slot 0 leads through three more tables to an identity mapping of the first
megabyte.  `vmm_init` registers all eight.

Where the linker puts the image is not fixed by the source.  `boot` is the state for an image
whose bss ends at `0x11e000`, and `boot_tables` says that its tables are in order.
-/

namespace TitanOS

open Walk

/-- All tables at most `n` steps from `t`, with the labels that lead to them. -/
def explore (mem : ℕ → Fin 512 → ℕ) : ℕ → ℕ → List (List (Fin 512) × ℕ)
  | 0, t => [([], t)]
  | n + 1, t => ([], t) :: (List.finRange 512).flatMap fun i =>
      match entry mem t i with
      | none => []
      | some t' => (explore mem n t').map fun x => (i :: x.1, x.2)

theorem mem_explore {mem : ℕ → Fin 512 → ℕ} {n r t : ℕ} {p : List (Fin 512)}
    (h : follow (entry mem) r p = some t) (hp : p.length ≤ n) : (p, t) ∈ explore mem n r := by
  induction p generalizing r n with
  | nil =>
    obtain rfl : r = t := by simpa using h
    cases n <;> simp [explore]
  | cons i p ih =>
    obtain ⟨n, rfl⟩ : ∃ m, n = m + 1 := ⟨n - 1, by simp at hp; omega⟩
    rw [follow_cons] at h
    obtain ⟨t', hi, ht⟩ := Option.bind_eq_some_iff.1 h
    refine List.mem_cons_of_mem _ (List.mem_flatMap.2 ⟨i, List.mem_finRange i, ?_⟩)
    rw [hi]
    exact List.mem_map.2 ⟨_, ih ht (by simpa using hp), rfl⟩

/-- All tables within reach are found from the only root. -/
theorem exists_mem_explore {mem : ℕ → Fin 512 → ℕ} {R : ℕ → Prop} {root t n : ℕ}
    (hR : ∀ r, R r → r = root) (h : Reach (entry mem) R n t) : ∃ x ∈ explore mem n root, x.2 = t := by
  obtain ⟨r, p, hr, hp, ht⟩ := h
  obtain rfl := hR r hr
  exact ⟨(p, t), mem_explore ht hp, rfl⟩

/-- The tables form a forest if no table is found twice. -/
theorem forest_of_explore {mem : ℕ → Fin 512 → ℕ} {R : ℕ → Prop} {root n : ℕ}
    {C : List (Fin 512) → Prop} (hR : ∀ r, R r → r = root)
    (honce : ∀ x ∈ explore mem n root, ∀ y ∈ explore mem n root, x.2 = y.2 → x.1 = y.1) :
    Forest (entry mem) R n C := by
  intro r r' p p' t hr hr' hp hp' ht ht'
  obtain rfl := hR r hr
  obtain rfl := hR r' hr'
  exact ⟨honce (p, t) (mem_explore ht hp) (p', t) (mem_explore ht' hp') rfl, Or.inl rfl⟩

/-- The tables in the order in which `vmm_init` registers them, with their virtual and physical
addresses: `initial_pml4t`, `initial_pdpt`, `initial_pd`, `initial_pt`, `initial_pdpt2`,
`initial_pd2`, `initial_pt2`, `initial_pt3`. -/
def bootTables : List (ℕ × ℕ) :=
  [(0xffffff8000010000, 0x111000), (0xffffff8000011000, 0x112000),
    (0xffffff8000012000, 0x113000), (0xffffff8000013000, 0x114000),
    (0xffffff8000014000, 0x115000), (0xffffff8000015000, 0x116000),
    (0xffffff8000016000, 0x117000), (0xffffff8000017000, 0x118000)]

/-- The entries written by `_setup_pt`, with `KERNEL_TEXT` at `0x101000` and 31 pages of image. -/
def bootMem (t : ℕ) (i : Fin 512) : ℕ :=
  if t = 0x111000 then (if i = 511 then 0x112007 else if i = 0 then 0x11501b else 0)
  else if t = 0x112000 then (if i = 0 then 0x113007 else 0)
  else if t = 0x113000 then (if i = 0 then 0x114007 else if i = 1 then 0x118007 else 0)
  else if t = 0x114000 then
    (if i.val < 0x20 then 0x101007 + 0x1000 * i.val else if i.val = 0xc0 then 0xb801b
      else if i.val = 0xe8 then 0x21007 else 0)
  else if t = 0x115000 then (if i = 0 then 0x11601b else 0)
  else if t = 0x116000 then (if i = 0 then 0x11701b else 0)
  else if t = 0x117000 then (if 1 ≤ i.val ∧ i.val ≤ 257 then 0x1000 * i.val + 7 else 0)
  else if t = 0x118000 then (if i = 0 then 0x20007 else 0)
  else 0

/-- The calls of `vmm_hashmap_put` in `vmm_init`. -/
def vmmInit (tables : List (ℕ × ℕ)) : Option Hashmap :=
  tables.foldlM (fun h x => (h.vmmHashmapPut 1 x.1 x.2).map Prod.fst) Hashmap.vmmHashmapInit

theorem vmmInit_lists {tables : List (ℕ × ℕ)} {h : Hashmap} (hi : vmmInit tables = some h) :
    ∃ L, h.Lists L [] := by
  have hfold : ∀ (l : List (ℕ × ℕ)) (g : Hashmap), (∃ L, g.Lists L []) →
      l.foldlM (fun h x => (h.vmmHashmapPut 1 x.1 x.2).map Prod.fst) g = some h →
      ∃ L, h.Lists L [] := by
    intro l
    induction l with
    | nil =>
      intro g hg hl
      obtain rfl : g = h := by simpa using hl
      exact hg
    | cons x l ih =>
      intro g hg hl
      obtain ⟨L, hL⟩ := hg
      rw [List.foldlM_cons] at hl
      obtain ⟨g', hg', hl⟩ := Option.bind_eq_some_iff.1 hl
      obtain ⟨r, hr, rfl⟩ := Option.map_eq_some_iff.1 hg'
      exact ih r.1 (hL.vmmHashmapPut hr) hl
  exact hfold tables _ ⟨_, Hashmap.lists_init⟩ hi

/-- The five objects of the region list: `kernel_page_tbls_obj`, `kernel_pmm_obj`,
`vga_text_buffer_obj`, `kernel_text_obj` and the head of the first `vmm_t`. -/
def bootRegions : Regions where
  base c := [0xffffff8000300000, 0xffffff80000e8000, 0xffffff80000c0000, 0xffffff8000000000].getD c 0
  length c := [0x6000, 0x1000, 0x1000, 0x1f000].getD c 0
  flags c := [1, 1, 16, 1, 1].getD c 0
  next c := [none, some 0, some 1, some 2, some 3].getD c none
  count := 5

/-- A bitmap in which the first 64 pages are taken. -/
def bootPmm : Pmm :=
  ⟨0x8000, fun i => if i < 2 then 0xffffffffffffffff#64 else 0#64, by decide⟩

/-- The state after `vmm_init`. -/
def boot : Kernel where
  mem := bootMem
  cr3 := 0x111000
  currentPml4tPtr := 0xffffff8000010000
  currentVmm := 4
  map := (vmmInit bootTables).getD Hashmap.vmmHashmapInit
  pmm := bootPmm
  regions := bootRegions

theorem explore_boot : explore bootMem 3 0x111000 =
    [([], 0x111000), ([0], 0x115000), ([0, 0], 0x116000), ([0, 0, 0], 0x117000),
      ([511], 0x112000), ([511, 0], 0x113000), ([511, 0, 0], 0x114000),
      ([511, 0, 1], 0x118000)] := by
  decide +kernel

theorem explore_boot_once : ∀ x ∈ explore bootMem 3 0x111000, ∀ y ∈ explore bootMem 3 0x111000,
    x.2 = y.2 → x.1 = y.1 := by
  rw [explore_boot]
  decide

namespace Kernel

instance (k : Kernel) (w t : ℕ) : Decidable (k.Accesses w t) := inferInstanceAs (Decidable (_ ∧ _))

instance (k : Kernel) (v : ℕ) : Decidable (k.Unused v) := inferInstanceAs (Decidable (_ ∧ _))

instance (k : Kernel) (n : ℕ) : Decidable (k.Room n) := inferInstanceAs (Decidable (_ ∧ _))

instance (k : Kernel) (n : ℕ) : Decidable (k.Supplied n) := inferInstanceAs (Decidable (_ ∧ _))

/-- The eight tables form a tree, and each is registered where it can be accessed. -/
theorem boot_tables {R : ℕ → Prop} (hR : ∀ r, R r ↔ r = 0x111000) (C : List (Fin 512) → Prop) :
    boot.Tables R C := by
  have hroot : ∀ r, R r → r = 0x111000 := fun r => (hR r).1
  refine ⟨(hR _).2 rfl, forest_of_explore hroot explore_boot_once, fun t ht => ?_,
    by decide +kernel, ⟨0x118000, by decide +kernel⟩, ?_⟩
  · obtain ⟨x, hx, rfl⟩ := exists_mem_explore hroot ht
    have hall : ∀ x ∈ explore bootMem 3 0x111000, ∃ w ∈ boot.map.getPtblVaddr x.2,
        w ≠ 0 ∧ boot.Accesses w x.2 ∧ ¬ boot.Unused w := by
      rw [explore_boot]
      decide +kernel
    exact hall x hx
  · obtain ⟨h, hh⟩ : ∃ h, vmmInit bootTables = some h :=
      Option.isSome_iff_exists.1 (by decide +kernel)
    obtain ⟨L, hL⟩ := vmmInit_lists hh
    exact ⟨L, by rw [boot, hh]; exact hL⟩

end Kernel

end TitanOS
