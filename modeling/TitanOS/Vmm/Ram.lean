import TitanOS.Lib.LittleEndian
import TitanOS.Vmm.Agree

/-!
# Physical memory under the page tables

The frames of page tables are part of physical memory like any other: `ram` gives the bytes of it,
`Kernel.byte` the byte at a virtual address and `Kernel.memcpy` a copy to one.

`Tables.mmap_page` says what `mmap` does to memory as a whole: it writes to the tables within reach
and to the frames that it takes for new ones, as many as are missing on the way (`lacking`), and to no
other frame.
-/

namespace TitanOS

open Walk LittleEndian

/-! ### Bytes of physical memory -/

/-- The byte at a physical address. -/
def ram (mem : ℕ → Fin 512 → ℕ) (p : ℕ) : UInt8 :=
  UInt8.ofNat (mem (pageAlignDown p) (Fin.ofNat 512 (p / 8)) / 256 ^ (p % 8))

/-- Write the byte at a physical address. -/
def poke (mem : ℕ → Fin 512 → ℕ) (p : ℕ) (b : UInt8) : ℕ → Fin 512 → ℕ :=
  writeEntry mem (pageAlignDown p) (Fin.ofNat 512 (p / 8))
    (load (store (ram mem) p 1 b.toNat) (p / 8 * 8) 8)

/-- A byte of a number that has been read. -/
theorem ofNat_load_div {m : ℕ → UInt8} {a n j : ℕ} (hj : j < n) :
    UInt8.ofNat (load m a n / 256 ^ j) = m (a + j) := by
  obtain ⟨r, rfl⟩ : ∃ r, n = j + (r + 1) := ⟨n - j - 1, by omega⟩
  have hlow := @load_lt m a j
  rw [load_add, Nat.add_mul_div_left _ _ (Nat.pow_pos (by norm_num)), Nat.div_eq_of_lt hlow, zero_add,
    load]
  rw [← UInt8.toNat_inj, UInt8.toNat_ofNat', Nat.add_mul_mod_self_left]
  exact Nat.mod_eq_of_lt (m (a + j)).toNat_lt

theorem ram_poke (mem : ℕ → Fin 512 → ℕ) (p q : ℕ) (b : UInt8) :
    ram (poke mem p b) q = if q = p then b else ram mem q := by
  by_cases hword : q / 8 = p / 8
  · have hpage : pageAlignDown q = pageAlignDown p := by
      unfold pageAlignDown
      omega
    have hbyte : ram (poke mem p b) q = store (ram mem) p 1 b.toNat q := by
      rw [ram, poke, writeEntry, hpage, hword, Function.update_self, Function.update_self,
        ofNat_load_div (Nat.mod_lt q (by norm_num)), ← hword]
      congr 1
      omega
    rw [hbyte, store]
    by_cases hq : q = p
    · rw [if_pos (by omega), if_pos hq, hq, Nat.sub_self, pow_zero, Nat.div_one]
      exact UInt8.ofNat_toNat
    · rw [if_neg (by omega), if_neg hq]
  · have hother : poke mem p b (pageAlignDown q) (Fin.ofNat 512 (q / 8)) =
        mem (pageAlignDown q) (Fin.ofNat 512 (q / 8)) := by
      unfold poke writeEntry
      by_cases hpage : pageAlignDown q = pageAlignDown p
      · rw [hpage, Function.update_self, Function.update_of_ne]
        intro hindex
        simp only [Fin.ext_iff, Fin.val_ofNat] at hindex
        unfold pageAlignDown at hpage
        omega
      · rw [Function.update_of_ne hpage]
    rw [if_neg (by rintro rfl; exact hword rfl), ram, hother, ram]

namespace Kernel

/-- The physical address of a byte. -/
def place (k : Kernel) (v : ℕ) : Option ℕ := (translate k.mem k.cr3 v).map (· + v % 0x1000)

/-- The byte at a virtual address.  One that is not mapped has none. -/
def byte (k : Kernel) (v : ℕ) : UInt8 := ((k.place v).map (ram k.mem)).getD 0

/-- Write the byte at a virtual address. -/
def storeByte (k : Kernel) (v : ℕ) (b : UInt8) : Kernel :=
  match k.place v with
  | some p => { k with mem := poke k.mem p b }
  | none => k

/-- `rep movsb`, to a virtual address. -/
def memcpy (k : Kernel) : ℕ → List UInt8 → Kernel
  | _, [] => k
  | v, b :: bs => (k.storeByte v b).memcpy ((v + 1) % 2 ^ 64) bs

variable {k k₁ k' : Kernel} {R : ℕ → Prop} {C : List (Fin 512) → Prop} {stop r t pt v f m n : ℕ}
  {q : List (Fin 512)} {ls : List ℕ}

/-! ### Where `mmap` writes -/

/-- `alloc_pg_table` writes to the table of the window and to the new table. -/
theorem createTable_mem (h : k.InOrder R C stop) (he : k.Extends stop 1) (hs : k.Supplied 1)
    (hal : k.allocPgTable (Kernel.mmap (n + 1)) = some (k₁, f)) {a : ℕ}
    (ha : ¬ Reach (entry k.mem) R 3 a) (hf : a ≠ k.pmm.pmmAllocPage.2) : k₁.mem a = k.mem a := by
  obtain ⟨hf0, hreg⟩ := hs.2 k.pmm.pmmAllocPage.2 (by simp [Pmm.nextFrames])
  obtain ⟨L, hL⟩ := h.lists
  obtain ⟨tw, htw⟩ : ∃ t, follow (entry k.mem) k.cr3 (tableIndices (k.windowTop + 0x1000)) =
    some t := he.tables 0 Nat.one_pos
  have hfree : k.map.getFreedPgTbl = none := by
    rw [Hashmap.getFreedPgTbl, Linked.path_nil.1 hL.free]
  obtain ⟨map, hins, -⟩ := hL.register hreg (k.windowTop + 0x1000)
  have heq := allocPgTable_eq n hfree h.forest h.root h.registered h.accesses_current ⟨L, [], hL⟩
    he.aligned he.windowTop_growWindow htw rfl hf0 hins
  obtain ⟨rfl, -⟩ := Prod.mk.inj (Option.some.inj (hal.symm.trans heq))
  have hatw : a ≠ tw := by
    rintro rfl
    exact ha ⟨k.cr3, _, h.root, by simp [tableIndices], htw⟩
  simp only [withTable, writeEntry, Function.update_of_ne hf, Function.update_of_ne hatw]

/-- The loop of `mmap` writes to the tables that it walks through and to those that it creates. -/
theorem descendCreated_mem (hC : ∀ p j, C p → C (p ++ [j])) (h : k.InOrder R C stop)
    (hr : R r) (ht : follow (entry k.mem) r q = some t) (hlen : q.length + ls.length = 3)
    (hpt : k.Accesses pt t) (hun : ¬ k.Ahead stop pt)
    (he : k.Extends stop (missing k.mem t (ls.map (getIndex v))))
    (hs : k.Supplied (missing k.mem t (ls.map (getIndex v)))) {o : Option ℕ}
    (hdesc : descend (allocPgTable (Kernel.mmap (n + 1))) v ls k pt = some (k', o)) {a : ℕ}
    (ha : ¬ Reach (entry k.mem) R 3 a)
    (hnew : a ∉ k.pmm.nextFrames (missing k.mem t (ls.map (getIndex v)))) : k'.mem a = k.mem a := by
  induction ls generalizing k q t pt with
  | nil =>
    obtain ⟨rfl, -⟩ := Prod.mk.inj (Option.some.inj hdesc)
    rfl
  | cons l ls ih =>
    simp only [List.length_cons] at hlen
    have hstep : ∀ w, follow (entry k.mem) r (q ++ [w]) = entry k.mem t w :=
      fun w => follow_snoc_of_eq ht
    cases hi : entry k.mem t (getIndex v l) with
    | some t₁ =>
      -- the table is there
      have hodd := entry_eq_some.1 hi
      have ht₁ : follow (entry k.mem) r (q ++ [getIndex v l]) = some t₁ := (hstep _).trans hi
      obtain ⟨w, hw, hw0, hacc, hwun⟩ := h.accessible t₁ ⟨r, _, hr, by simp; omega, ht₁⟩
      have hmiss : missing k.mem t ((l :: ls).map (getIndex v)) =
          missing k.mem t₁ (ls.map (getIndex v)) := by
        simp [missing, hi]
      rw [hmiss] at he hs hnew
      simp only [descend, hpt.load, Option.bind_eq_bind, Option.bind_some, hodd, if_true, hw, hw0,
        if_false] at hdesc
      exact ih h ht₁ (by simp; omega) hacc hwun he hs hdesc ha hnew
    | none =>
      have heven : ¬ k.mem t (getIndex v l) % 2 = 1 := by
        intro hodd
        simp [entry, hodd] at hi
      have hmiss : missing k.mem t ((l :: ls).map (getIndex v)) =
          1 + (ls.map (getIndex v)).length := by
        simp [missing, hi, Nat.add_comm]
      rw [hmiss] at he hs hnew
      have he₁ : k.Extends stop 1 := he.mono (by omega)
      have hs₁ : k.Supplied 1 := by
        rw [Nat.add_comm] at hs
        exact hs.head
      obtain ⟨k₁, halloc, hA⟩ := createTable_spec n h he₁ hs₁
      have hfal := k.pmm.pmmAllocPage_mod
      have hfr : k.pmm.nextFrames 1 = [k.pmm.pmmAllocPage.2] := rfl
      rw [Pmm.nextFrames_add, List.mem_append, not_or, hfr, List.mem_singleton] at hnew
      have hmem₁ := createTable_mem h he₁ hs₁ halloc ha hnew.1
      obtain ⟨hT₂, hcr₂, hacc₂, hfol₂⟩ := linkCreated_spec (i := getIndex v l) hA he₁ hC
        rfl hfal hr (by omega) ht hi
      have hpt₁ : k₁.Accesses pt t := by
        refine ⟨hpt.1, ?_⟩
        rw [hA.cr3, hA.translate k.cr3 pt h.root fun heq => hun ?_]
        · exact hpt.2
        · rw [Ahead, heq, hA.windowTop, he₁.page_next]
          exact ⟨Nat.lt_succ_self _, he₁.page_lt⟩
      have hempty : ∀ j, entry (k₁.linkTable t (getIndex v l) k.pmm.pmmAllocPage.2).mem
          k.pmm.pmmAllocPage.2 j = none :=
        (attach_linkTable hA hfal ⟨r, q, hr, by omega, ht⟩ hi).leaf
      have hlast := missing_empty hempty (ls.map (getIndex v))
      have hstore := hpt₁.store (getIndex v l) (k.pmm.pmmAllocPage.2 ||| 7)
      simp only [descend, hpt.load, Option.bind_eq_bind, Option.bind_some, heven, if_false,
        halloc, hstore] at hdesc
      simp only [hA.getPtblVaddr, Option.bind_some] at hdesc
      -- below the new table
      have hat : a ≠ t := by
        rintro rfl
        exact ha ⟨r, q, hr, by omega, ht⟩
      have hreach : ¬ Reach (entry (k₁.linkTable t (getIndex v l) k.pmm.pmmAllocPage.2).mem) R 3 a := by
        intro hra
        rcases hcr₂.reach a hra with hra | hra
        · exact ha hra
        · rw [hfr, List.mem_singleton] at hra
          exact hnew.1 hra
      refine (ih hT₂ hfol₂ (by simp; omega) hacc₂ (fun hu => hu.1.false)
        (by rw [hlast]; exact he.created h.root hcr₂) (by rw [hlast]; exact hs.created hcr₂) hdesc
        hreach ?_).trans ?_
      · rw [hlast, hcr₂.pmm]
        exact hnew.2
      · change writeEntry k₁.mem t _ _ a = _
        rw [writeEntry, Function.update_of_ne hat, hmem₁]

/-- What `mmap` does at the page of `v`: the frame `f` is mapped there, `m` tables are created, and
the other frames are left alone. -/
structure PageMapped (k k' : Kernel) (R : ℕ → Prop) (v f m : ℕ) : Prop where
  cr3 : k'.cr3 = k.cr3
  currentPml4tPtr : k'.currentPml4tPtr = k.currentPml4tPtr
  pmm : k'.pmm = k.pmm.afterFrames m
  windowTop : k'.windowTop = k.windowTop + 0x1000 * m
  getPtblVaddr : ∀ q, k'.map.getPtblVaddr q = k.map.getPtblVaddr q ∨
    ∃ w, k'.map.getPtblVaddr q = some w ∧ k.windowTop < w ∧ w ≤ k.windowTop + 0x1000 * m
  registered : ∀ q, k'.map.registered q = true ↔
    k.map.registered q = true ∨ q ∈ k.pmm.nextFrames m
  kept : ∀ p a, p.length ≤ 3 → follow (entry k.mem) k.cr3 p = some a →
    follow (entry k'.mem) k.cr3 p = some a
  path : ∃ t, follow (entry k'.mem) k.cr3 (tableIndices v) = some t
  self : translate k'.mem k'.cr3 v = some f
  other : ∀ u, ¬ k.Unused u → ¬ k'.Unused u ∧
    (page u ≠ page v → translate k'.mem k'.cr3 u = translate k.mem k.cr3 u)
  reach : ∀ t, Reach (entry k'.mem) R 3 t → Reach (entry k.mem) R 3 t ∨ t ∈ k.pmm.nextFrames m
  mem : ∀ a, ¬ Reach (entry k.mem) R 3 a → a ∉ k.pmm.nextFrames m → k'.mem a = k.mem a

/-- **`mmap` leaves the other frames alone**: it writes to tables only, and only to those that are
there or that it creates. -/
theorem Tables.mmap_page {paddr flags : ℕ} (n : ℕ) (hC : ∀ p j, C p → C (p ++ [j]))
    (h : k.Tables R C) (hroom : k.Room (missing k.mem k.cr3 (tableIndices v)))
    (hs : k.Supplied (missing k.mem k.cr3 (tableIndices v))) (hv : k.NoTableAt v) :
    ∃ k', Kernel.mmap (n + 2) k k.currentPml4tPtr paddr v flags = some (k', true) ∧
      k'.Tables R C ∧ k.PageMapped k' R v (pageAlignDown (paddr ||| flags ||| 7))
        (missing k.mem k.cr3 (tableIndices v)) := by
  have he := h.extends hroom
  obtain ⟨w, hw, -, hacc, hun⟩ := h.inOrder.accessible _ (reach_root h.root)
  obtain rfl : k.currentPml4tPtr = w := Option.some.inj (h.current.symm.trans hw)
  obtain ⟨k₂, pt, t, hdesc, hO, hcr, -, hfol, hacc₂⟩ := @descendCreated_spec k R C
    (page 0xffffff8000400000) k.cr3 k.cr3 k.currentPml4tPtr v [] [3, 2, 1] n hC h.inOrder h.root rfl
    rfl hacc hun he hs
  replace hcr : k.Created k₂ R (missing k.mem k.cr3 (tableIndices v)) := hcr
  replace hfol : follow (entry k₂.mem) k.cr3 (tableIndices v) = some t := hfol
  obtain ⟨tw, htw⟩ := h.window
  have hT : k₂.Tables R C := hO.tables ⟨tw, by
    rw [hcr.cr3]
    exact hcr.kept k.cr3 _ tw h.root (by simp) htw⟩
  have hred : Redirect (entry k₂.mem) (entry (TitanOS.writeEntry k₂.mem t (getIndex v 0)
      (paddr ||| flags ||| 7))) t (getIndex v 0) := redirect_writeEntry
  have hsame := hred.same hT.forest h.root rfl hfol
  have hmmap : Kernel.mmap (n + 2) k k.currentPml4tPtr paddr v flags = some
      ({ k₂ with mem := TitanOS.writeEntry k₂.mem t (getIndex v 0) (paddr ||| flags ||| 7) },
        true) := by
    rw [Kernel.mmap, hdesc]
    simp only [Option.bind_eq_bind, Option.bind_some, hacc₂.store]
  refine ⟨_, hmmap, hT.writeEntry h.root hfol _ fun a w ha hw =>
    InOrder.page_ne hv he hO hcr ha hw, hcr.cr3, hcr.currentPml4tPtr, hcr.pmm, hcr.windowTop,
    hcr.getPtblVaddr, hcr.registered, fun p a hp ha => ?_, ⟨t, ?_⟩, ?_, fun u hu => ⟨?_, fun hne => ?_⟩,
    fun a ha => hcr.reach a (hsame.reach_iff.1 ha), fun a ha hnew => ?_⟩
  · exact (hsame k.cr3 p h.root hp).trans (hcr.kept k.cr3 p a h.root hp ha)
  · exact (hsame k.cr3 _ h.root (by simp [tableIndices])).trans hfol
  · show TitanOS.translate (TitanOS.writeEntry k₂.mem t (getIndex v 0) (paddr ||| flags ||| 7))
      k₂.cr3 v = _
    rw [hcr.cr3, TitanOS.translate, indices_eq, hred.follow_self hT.forest h.root rfl hfol,
      entry_writeEntry_self, if_pos (lor_seven_mod_two _)]
  · rw [not_unused_iff] at hu ⊢
    show page u ≤ page k₂.windowTop ∨ _
    rw [hcr.page_windowTop]
    omega
  · have hkept : TitanOS.translate (TitanOS.writeEntry k₂.mem t (getIndex v 0)
        (paddr ||| flags ||| 7)) k.cr3 u = TitanOS.translate k₂.mem k.cr3 u :=
      hred.follow_of_ne hT.forest h.root rfl hfol h.root rfl fun he => hne
        (indices_eq_iff.1 (he.trans (indices_eq v).symm))
    have hlt := he.page_lt
    rw [not_unused_iff] at hu
    show TitanOS.translate (TitanOS.writeEntry k₂.mem t (getIndex v 0) (paddr ||| flags ||| 7))
      k₂.cr3 u = _
    rw [hcr.cr3, hkept, hcr.translate k.cr3 u h.root (by omega)]
  · have hat : a ≠ t := by
      rintro rfl
      exact (hcr.reach a ⟨k.cr3, _, h.root, by simp [tableIndices], hfol⟩).elim ha hnew
    have hmem := @descendCreated_mem k k₂ R C (page 0xffffff8000400000) k.cr3 k.cr3
      k.currentPml4tPtr v n [] [3, 2, 1] hC h.inOrder h.root rfl rfl hacc hun he hs _ hdesc a ha hnew
    change TitanOS.writeEntry k₂.mem t _ _ a = _
    rw [TitanOS.writeEntry, Function.update_of_ne hat]
    exact hmem

/-! ### The tables that are missing -/

/-- The ways to the three tables for a page. -/
def tablePaths (v : ℕ) : List (List (Fin 512)) :=
  [[getIndex v 3], [getIndex v 3, getIndex v 2], tableIndices v]

/-- The ways on which no table is found, for the pages in `P`. -/
def lacking (k : Kernel) (P : List ℕ) : Finset (List (Fin 512)) :=
  (P.flatMap tablePaths).toFinset.filter fun p => follow (entry k.mem) k.cr3 p = none

theorem mem_lacking {P : List ℕ} {p : List (Fin 512)} :
    p ∈ k.lacking P ↔ (∃ v ∈ P, p ∈ tablePaths v) ∧ follow (entry k.mem) k.cr3 p = none := by
  rw [lacking, Finset.mem_filter, List.mem_toFinset, List.mem_flatMap]

theorem exists_append_of_mem_tablePaths {p : List (Fin 512)} (hp : p ∈ tablePaths v) :
    ∃ q, tableIndices v = p ++ q := by
  simp only [tablePaths, List.mem_cons, List.not_mem_nil, or_false] at hp
  rcases hp with rfl | rfl | rfl
  · exact ⟨[getIndex v 2, getIndex v 1], rfl⟩
  · exact ⟨[getIndex v 1], rfl⟩
  · exact ⟨[], by simp⟩

theorem length_le_of_mem_tablePaths {p : List (Fin 512)} (hp : p ∈ tablePaths v) : p.length ≤ 3 := by
  obtain ⟨q, hq⟩ := exists_append_of_mem_tablePaths hp
  have hlen := congrArg List.length hq
  rw [List.length_append, show (tableIndices v).length = 3 from rfl] at hlen
  omega

/-- They are the tables that `mmap` creates. -/
theorem missing_eq_card (k : Kernel) (v : ℕ) :
    missing k.mem k.cr3 (tableIndices v) = (k.lacking [v]).card := by
  have hset : k.lacking [v] = ({[getIndex v 3], [getIndex v 3, getIndex v 2], tableIndices v} :
      Finset (List (Fin 512))).filter fun p => follow (entry k.mem) k.cr3 p = none := by
    ext p
    simp [lacking, tablePaths]
  rw [hset, tableIndices]
  cases h₃ : entry k.mem k.cr3 (getIndex v 3) with
  | none => simp [missing, Finset.filter_insert, Finset.filter_singleton, follow_cons, h₃]
  | some t₂ =>
    cases h₂ : entry k.mem t₂ (getIndex v 2) with
    | none => simp [missing, Finset.filter_insert, Finset.filter_singleton, follow_cons, h₃, h₂]
    | some t₁ =>
      cases h₁ : entry k.mem t₁ (getIndex v 1) with
      | none =>
        simp [missing, Finset.filter_insert, Finset.filter_singleton, follow_cons, h₃, h₂, h₁]
      | some t =>
        simp [missing, Finset.filter_insert, Finset.filter_singleton, follow_cons, h₃, h₂, h₁]

/-- Once a page has been mapped, its tables are there. -/
theorem PageMapped.lacking_card {P : List ℕ} (h : k.PageMapped k' R v f m) :
    (k'.lacking P).card + (k.lacking [v]).card ≤ (k.lacking (v :: P)).card := by
  obtain ⟨t, ht⟩ := h.path
  have hpath : ∀ p ∈ tablePaths v, follow (entry k'.mem) k'.cr3 p ≠ none := by
    intro p hp hnone
    obtain ⟨q, hq⟩ := exists_append_of_mem_tablePaths hp
    rw [← h.cr3, hq, follow_append, hnone] at ht
    cases ht
  have hdisj : Disjoint (k'.lacking P) (k.lacking [v]) := by
    rw [Finset.disjoint_left]
    intro p hp' hp
    obtain ⟨⟨u, hu, hpu⟩, -⟩ := mem_lacking.1 hp
    rw [List.mem_singleton.1 hu] at hpu
    exact hpath p hpu (mem_lacking.1 hp').2
  rw [← Finset.card_union_of_disjoint hdisj]
  refine Finset.card_le_card fun p hp => ?_
  rcases Finset.mem_union.1 hp with hp | hp
  · obtain ⟨⟨u, hu, hpu⟩, hnone⟩ := mem_lacking.1 hp
    refine mem_lacking.2 ⟨⟨u, List.mem_cons_of_mem v hu, hpu⟩, ?_⟩
    -- what is there is kept
    by_contra hsome
    obtain ⟨a, ha⟩ := Option.ne_none_iff_exists'.1 hsome
    rw [h.cr3, h.kept p a (length_le_of_mem_tablePaths hpu) ha] at hnone
    cases hnone
  · obtain ⟨⟨u, hu, hpu⟩, hnone⟩ := mem_lacking.1 hp
    exact mem_lacking.2 ⟨⟨u, by simpa using Or.inl (List.mem_singleton.1 hu), hpu⟩, hnone⟩

end Kernel

end TitanOS
