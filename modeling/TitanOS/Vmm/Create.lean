import TitanOS.Pmm.Frames
import TitanOS.Vmm.Tables

/-!
# Creating page tables

`InOrder k R C stop` is the invariant of the page tables, up to the page `stop` of the window in
which they are accessed: those within reach of the roots `R` form a forest, and each of them is
registered at an address at which it can be accessed, and which is not one that the window will
get to before `stop`.

A new table is mapped at the next page of the window.  If the table that maps this page is there
(`Extends`), creating a table never needs another one: `createTable_spec` computes the state after
`alloc_pg_table`, `linkCreated_spec` the one after the new table has been linked, and
`descendCreated_spec` follows the loop of `mmap` through present and missing tables.

`Created k k' R m` collects what stays the same when `m` tables have been created.
-/

namespace TitanOS

open Walk

/-- The number of tables that are missing on the way along `p` from table `t`. -/
def missing (mem : ℕ → Fin 512 → ℕ) : ℕ → List (Fin 512) → ℕ
  | _, [] => 0
  | t, i :: p =>
    match entry mem t i with
    | some t' => missing mem t' p
    | none => p.length + 1

theorem missing_of_follow {mem : ℕ → Fin 512 → ℕ} {t t' : ℕ} {p : List (Fin 512)}
    (h : follow (entry mem) t p = some t') : missing mem t p = 0 := by
  induction p generalizing t with
  | nil => rfl
  | cons i p ih =>
    rw [follow_cons] at h
    obtain ⟨t₁, hi, h⟩ := Option.bind_eq_some_iff.1 h
    rw [missing, hi]
    exact ih h

theorem missing_empty {mem : ℕ → Fin 512 → ℕ} {f : ℕ} (hf : ∀ j, entry mem f j = none)
    (p : List (Fin 512)) : missing mem f p = p.length := by
  cases p with
  | nil => rfl
  | cons i p => simp [missing, hf]

theorem missing_le (mem : ℕ → Fin 512 → ℕ) (t : ℕ) (p : List (Fin 512)) :
    missing mem t p ≤ p.length := by
  induction p generalizing t with
  | nil => exact le_rfl
  | cons i p ih =>
    rw [missing]
    split
    · exact (ih _).trans (Nat.le_succ _)
    · exact le_rfl

namespace Kernel

/-- Every table within reach of the roots is registered at an address that accesses it. -/
def Registered (k : Kernel) (R : ℕ → Prop) : Prop :=
  ∀ t, Reach (entry k.mem) R 3 t → ∃ w, k.map.getPtblVaddr t = some w ∧ w ≠ 0 ∧ k.Accesses w t

/-- The page of `v` is one that the window has not got to, and will get to before page `stop`. -/
def Ahead (k : Kernel) (stop v : ℕ) : Prop := page k.windowTop < page v ∧ page v < stop

/-- The page tables are in order, as far as the window will get to before page `stop`.  `R` are
the root tables, and two of them share tables only along lists of indices in `C`. -/
structure InOrder (k : Kernel) (R : ℕ → Prop) (C : List (Fin 512) → Prop) (stop : ℕ) : Prop where
  root : R k.cr3
  forest : Forest (entry k.mem) R 3 C
  accessible : ∀ t, Reach (entry k.mem) R 3 t →
    ∃ w, k.map.getPtblVaddr t = some w ∧ w ≠ 0 ∧ k.Accesses w t ∧ ¬ k.Ahead stop w
  current : k.map.getPtblVaddr k.cr3 = some k.currentPml4tPtr
  lists : ∃ L, k.map.Lists L []

/-- The next `n` pages of the window come before page `stop`, and the tables that map them are
there. -/
structure Extends (k : Kernel) (stop n : ℕ) : Prop where
  aligned : k.windowTop % 0x1000 = 0
  top_lt : k.windowTop + 0x1000 * n < 2 ^ 64
  page_lt : page k.windowTop + n < stop
  stop_le : stop ≤ 2 ^ 36
  tables : ∀ j < n, ∃ t,
    follow (entry k.mem) k.cr3 (tableIndices (k.windowTop + 0x1000 * (j + 1))) = some t

/-- The next `n` calls of `pmm_alloc_page` return different non-zero frames that are not registered
as page tables. -/
def Supplied (k : Kernel) (n : ℕ) : Prop :=
  (k.pmm.nextFrames n).Nodup ∧ ∀ f ∈ k.pmm.nextFrames n, f ≠ 0 ∧ k.map.registered f = false

variable {k k' : Kernel} {R : ℕ → Prop} {C : List (Fin 512) → Prop} {stop r t t' pt v : ℕ}
  {q : List (Fin 512)} {ls : List ℕ}

/-! ### Walking through present tables -/

theorem InOrder.registered (h : k.InOrder R C stop) : k.Registered R := by
  intro t ht
  obtain ⟨w, hw, hw0, hacc, -⟩ := h.accessible t ht
  exact ⟨w, hw, hw0, hacc⟩

/-- The loop of `mmap` finds the tables that are there. -/
theorem descend_present (alloc : Kernel → Option (Kernel × ℕ)) (ha : k.Registered R) (hr : R r)
    (hq : follow (entry k.mem) r q = some t) (hlen : q.length + ls.length ≤ 3)
    (hpt : k.Accesses pt t) (ht : follow (entry k.mem) t (ls.map (getIndex v)) = some t') :
    ∃ pt', descend alloc v ls k pt = some (k, some pt') ∧ k.Accesses pt' t' := by
  induction ls generalizing q t pt with
  | nil =>
    obtain rfl : t = t' := by simpa using ht
    exact ⟨pt, rfl, hpt⟩
  | cons l ls ih =>
    rw [List.map_cons, follow_cons] at ht
    obtain ⟨t₁, ht₁, ht⟩ := Option.bind_eq_some_iff.1 ht
    simp only [List.length_cons] at hlen
    have hq₁ : follow (entry k.mem) r (q ++ [getIndex v l]) = some t₁ := by
      rw [follow_snoc_of_eq hq, ht₁]
    obtain ⟨w, hw, hw0, hacc⟩ := ha t₁ ⟨r, _, hr, by simp; omega, hq₁⟩
    obtain ⟨pt', hdesc, hpt'⟩ := ih hq₁ (by simp; omega) hacc ht
    refine ⟨pt', ?_, hpt'⟩
    -- the entry is present, and its table is registered
    have hodd := entry_eq_some.1 ht₁
    simp only [descend, hpt.load, Option.bind_eq_bind, Option.bind_some, hodd, if_true, hw, hw0,
      if_false, hdesc]

/-- `mmap` where no table is missing writes one entry. -/
theorem mmap_present {root : ℕ} (n paddr flags : ℕ) (ha : k.Registered R) (hr : R r)
    (hroot : k.Accesses root r) (ht : follow (entry k.mem) r (tableIndices v) = some t) :
    mmap (n + 1) k root paddr v flags =
      some ({ k with mem := writeEntry k.mem t (getIndex v 0) (paddr ||| flags ||| 7) }, true) := by
  obtain ⟨pt', hdesc, hpt'⟩ := @descend_present k R r r t root v [] [3, 2, 1]
    (allocPgTable (mmap n)) ha hr rfl (by simp) hroot ht
  simp only [mmap, hdesc, Option.bind_eq_bind, Option.bind_some, hpt'.store]

/-- A frame that is not registered is not in use as a table. -/
theorem InOrder.not_reach {f : ℕ} (h : k.InOrder R C stop) (hf : k.map.registered f = false) :
    ¬ Reach (entry k.mem) R 3 f := by
  intro hr
  obtain ⟨L, hL⟩ := h.lists
  obtain ⟨w, hw, hw0, -⟩ := h.accessible f hr
  rw [hL.getPtblVaddr_of_not hf, Option.some.injEq] at hw
  exact hw0 hw.symm

theorem InOrder.accesses_current (h : k.InOrder R C stop) :
    k.Accesses k.currentPml4tPtr k.cr3 := by
  obtain ⟨w, hw, -, hacc, -⟩ := h.accessible _ (reach_root h.root)
  rw [h.current, Option.some.injEq] at hw
  rwa [hw]

/-! ### Creating a table -/

/-- The window advances by one page at a time. -/
theorem Extends.page_top {n j : ℕ} (h : k.Extends stop n) (hj : j ≤ n) :
    page (k.windowTop + 0x1000 * j) = page k.windowTop + j := by
  have hlt := h.page_lt
  have hstop := h.stop_le
  simp only [page] at hlt ⊢
  omega

theorem Extends.mono {m n : ℕ} (h : k.Extends stop n) (hmn : m ≤ n) : k.Extends stop m :=
  ⟨h.aligned, by have := h.top_lt; omega, by have := h.page_lt; omega, h.stop_le,
    fun j hj => h.tables j (hj.trans_le hmn)⟩

theorem Extends.windowTop_growWindow (h : k.Extends stop 1) :
    k.growWindow.windowTop = k.windowTop + 0x1000 := by
  have := h.top_lt
  simp only [windowTop, growWindow, Function.update_self] at this ⊢
  omega

theorem Extends.page_next (h : k.Extends stop 1) :
    page (k.windowTop + 0x1000) = page k.windowTop + 1 := h.page_top le_rfl

/-- The state `k'` after a table `f` has been created, cleared, mapped at the next page of the
window and registered, but not yet linked. -/
structure TableCreated (k k' : Kernel) (R : ℕ → Prop) (C : List (Fin 512) → Prop) (stop f : ℕ) :
    Prop where
  inOrder : k'.InOrder R C stop
  cr3 : k'.cr3 = k.cr3
  currentPml4tPtr : k'.currentPml4tPtr = k.currentPml4tPtr
  currentVmm : k'.currentVmm = k.currentVmm
  pmm : k'.pmm = k.pmm.pmmAllocPage.1
  regions : k'.regions = k.growWindow.regions
  windowTop : k'.windowTop = k.windowTop + 0x1000
  getPtblVaddr : k'.map.getPtblVaddr f = some k'.windowTop
  getPtblVaddr_of_ne : ∀ q, q ≠ f → k'.map.getPtblVaddr q = k.map.getPtblVaddr q
  registered : ∀ q, k'.map.registered q = true ↔ k.map.registered q = true ∨ q = f
  accesses : k'.Accesses k'.windowTop f
  empty : ∀ j, k'.mem f j = 0
  unreached : ¬ Reach (entry k'.mem) R 3 f
  same : Same (entry k.mem) (entry k'.mem) R 3
  upper : ∀ a j, Reach (entry k.mem) R 2 a → k'.mem a j = k.mem a j
  translate : ∀ r v, R r → page v ≠ page k'.windowTop → translate k'.mem r v = translate k.mem r v

/-- The state after `alloc_pg_table`: `tw` is the table that maps the window. -/
def withTable (k : Kernel) (map : Hashmap) (tw f : ℕ) : Kernel :=
  { k with
    mem := Function.update
      (writeEntry k.mem tw (getIndex (k.windowTop + 0x1000) 0) (f ||| 7)) f fun _ => 0
    pmm := k.pmm.pmmAllocPage.1
    map := map
    regions := k.growWindow.regions }

/-- Writing the entry of the next page of the window maps that page. -/
theorem translate_window {tw f : ℕ} (hF : Forest (entry k.mem) R 3 C) (hroot : R k.cr3)
    (htw : follow (entry k.mem) k.cr3 (tableIndices (k.windowTop + 0x1000)) = some tw)
    (hf : f % 0x1000 = 0) :
    translate (writeEntry k.mem tw (getIndex (k.windowTop + 0x1000) 0) (f ||| 7)) k.cr3
      (k.windowTop + 0x1000) = some f := by
  rw [TitanOS.translate, indices_eq, redirect_writeEntry.follow_self hF hroot rfl htw,
    entry_writeEntry_self, if_pos (lor_seven_mod_two f), pageAlignDown_lor hf (by norm_num)]

/-- The tables with `f` mapped in the window and cleared. -/
theorem withTable_walks {map : Hashmap} {tw f : ℕ} (hF : Forest (entry k.mem) R 3 C)
    (hroot : R k.cr3) (htw : follow (entry k.mem) k.cr3 (tableIndices (k.windowTop + 0x1000)) = some tw)
    (hf : f % 0x1000 = 0) (hun : ¬ Reach (entry k.mem) R 3 f) :
    Same (entry k.mem) (entry (k.withTable map tw f).mem) R 3 ∧
      (∀ r v, R r → page v ≠ page (k.windowTop + 0x1000) →
        translate (k.withTable map tw f).mem r v = translate k.mem r v) ∧
      translate (k.withTable map tw f).mem k.cr3 (k.windowTop + 0x1000) = some f := by
  -- first the window's entry, then the frame that nothing leads to
  have hred : Redirect (entry k.mem) (entry (writeEntry k.mem tw
      (getIndex (k.windowTop + 0x1000) 0) (f ||| 7))) tw (getIndex (k.windowTop + 0x1000) 0) :=
    redirect_writeEntry
  have hsame := hred.same hF hroot rfl htw
  have hclear : Same (entry (writeEntry k.mem tw (getIndex (k.windowTop + 0x1000) 0) (f ||| 7)))
      (entry (k.withTable map tw f).mem) R (3 + 1) :=
    same_of_unreached (fun hr => hun (hsame.reach_iff.1 hr)) fun a j ha => entry_clear_of_ne ha
  refine ⟨hsame.trans (hclear.mono (by omega)), fun r v hr hv => ?_, ?_⟩
  · rw [TitanOS.translate, hclear r _ hr (by simp [indices]), TitanOS.translate]
    refine hred.follow_of_ne hF hroot rfl htw hr rfl fun he => hv ?_
    rw [← indices_eq] at he
    exact indices_eq_iff.1 he
  · rw [TitanOS.translate, hclear k.cr3 _ hroot (by simp [indices])]
    exact translate_window hF hroot htw hf

theorem mem_withTable_of_reach {map : Hashmap} {tw f a : ℕ} (h : k.InOrder R C stop)
    (htw : follow (entry k.mem) k.cr3 (tableIndices (k.windowTop + 0x1000)) = some tw)
    (hun : ¬ Reach (entry k.mem) R 3 f) (ha : Reach (entry k.mem) R 2 a) (j : Fin 512) :
    (k.withTable map tw f).mem a j = k.mem a j := by
  have haf : a ≠ f := by
    rintro rfl
    exact hun (ha.mono (by omega))
  have hatw : a ≠ tw := by
    rintro rfl
    obtain ⟨r, p, hr, hp, hra⟩ := ha
    obtain ⟨rfl, -⟩ := h.forest r k.cr3 p _ a hr h.root (by omega) le_rfl hra htw
    simp [tableIndices] at hp
  simp [withTable, writeEntry, Function.update_of_ne haf, Function.update_of_ne hatw]

/-- Once the window has got to its next page, this page is no longer ahead. -/
theorem Extends.not_ahead (he : k.Extends stop 1) (htop : k'.windowTop = k.windowTop + 0x1000)
    {w : ℕ} (hw : ¬ k.Ahead stop w) : ¬ k'.Ahead stop w := by
  rintro ⟨hlt, hlt'⟩
  rw [htop, he.page_next] at hlt
  exact hw ⟨by omega, hlt'⟩

/-- The invariant once `f` is mapped in the window and registered. -/
theorem withTable_inOrder {map : Hashmap} {L : ℕ → List ℕ} {tw f : ℕ} (h : k.InOrder R C stop)
    (he : k.Extends stop 1)
    (htw : follow (entry k.mem) k.cr3 (tableIndices (k.windowTop + 0x1000)) = some tw)
    (hf : f % 0x1000 = 0) (hun : ¬ Reach (entry k.mem) R 3 f)
    (hL : map.Lists L []) (hget : ∀ q, q ≠ f → map.getPtblVaddr q = k.map.getPtblVaddr q) :
    (k.withTable map tw f).InOrder R C stop := by
  obtain ⟨hsame, htr, -⟩ := @withTable_walks k R C map tw f h.forest h.root htw hf hun
  have htop : (k.withTable map tw f).windowTop = k.windowTop + 0x1000 := he.windowTop_growWindow
  have hne : ∀ t, Reach (entry k.mem) R 3 t → t ≠ f := by
    rintro t ht rfl
    exact hun ht
  have hnext := he.page_next
  have hlt := he.page_lt
  refine ⟨h.root, hsame.forest h.forest, fun t ht => ?_, ?_, ⟨L, hL⟩⟩
  · have ht' := hsame.reach_iff.1 ht
    obtain ⟨w, hw, hw0, ⟨hwal, hwt⟩, hwun⟩ := h.accessible t ht'
    refine ⟨w, (hget t (hne t ht')).trans hw, hw0, ⟨hwal, ?_⟩, he.not_ahead htop hwun⟩
    refine (htr k.cr3 w h.root fun heq => hwun ?_).trans hwt
    rw [Ahead, heq, hnext]
    exact ⟨Nat.lt_succ_self _, hlt⟩
  · exact (hget k.cr3 (hne _ (reach_root h.root))).trans h.current

/-- A node that is not yet in a bucket changes no access. -/
theorem registered_newTable {pmm : Pmm} {f : ℕ} (hr : k.Registered R)
    (hL : ∃ L F, k.map.Lists L F) : (k.newTable pmm f).Registered R := by
  intro t ht
  obtain ⟨L, F, hL⟩ := hL
  obtain ⟨w, hw, hw0, hacc⟩ := hr t ht
  exact ⟨w, (hL.getPtblVaddr_newNode _ _ t).trans hw, hw0, hacc⟩

/-- The computation of `alloc_pg_table` where the table that maps the next page of the window is
there. -/
theorem allocPgTable_eq {map : Hashmap} {tw f : ℕ} (n : ℕ) (hfree : k.map.getFreedPgTbl = none)
    (hF : Forest (entry k.mem) R 3 C) (hroot : R k.cr3) (hreg : k.Registered R)
    (hcur : k.Accesses k.currentPml4tPtr k.cr3) (hL : ∃ L F, k.map.Lists L F)
    (hal : k.windowTop % 0x1000 = 0) (htop : k.growWindow.windowTop = k.windowTop + 0x1000)
    (htw : follow (entry k.mem) k.cr3 (tableIndices (k.windowTop + 0x1000)) = some tw)
    (hf : k.pmm.pmmAllocPage.2 = f) (hf0 : f ≠ 0)
    (hins : (k.map.newNode (k.windowTop + 0x1000) f).pgTblInsert k.map.count =
      some (map, true)) :
    k.allocPgTable (mmap (n + 1)) = some (k.withTable map tw f, f) := by
  have hfal : f % 0x1000 = 0 := hf ▸ k.pmm.pmmAllocPage_mod
  obtain ⟨pmm, hpair⟩ : ∃ pmm, k.pmm.pmmAllocPage = (pmm, f) := ⟨_, Prod.ext rfl hf⟩
  have htop' : (k.newTable pmm f).windowTop = k.windowTop + 0x1000 := htop
  -- the nested `mmap` finds all tables of the window
  have hnested := @mmap_present (k.newTable pmm f) R k.cr3 tw (k.windowTop + 0x1000)
    k.currentPml4tPtr n f 0 (registered_newTable hreg hL) hroot hcur htw
  rw [Nat.or_zero] at hnested
  obtain ⟨k₂, hk₂⟩ : ∃ k₂, { k.newTable pmm f with
      mem := writeEntry k.mem tw (getIndex (k.windowTop + 0x1000) 0) (f ||| 7) } = k₂ := ⟨_, rfl⟩
  replace hnested : mmap (n + 1) (k.newTable pmm f) k.currentPml4tPtr f (k.windowTop + 0x1000) 0 =
      some (k₂, true) := by rw [← hk₂]; exact hnested
  have hmapped : k₂.Accesses (k.windowTop + 0x1000) f := by
    rw [← hk₂]
    exact ⟨by omega, translate_window hF hroot htw hfal⟩
  have hmap₂ : k₂.map = k.map.newNode (k.windowTop + 0x1000) f := by
    rw [← hk₂, ← htop]
    rfl
  have hnode : k₂.map.ptVaddr k.map.count = k.windowTop + 0x1000 := by
    simp [hmap₂, Hashmap.newNode]
  have hkey : k₂.map.ptPaddr k.map.count = f := by simp [hmap₂, Hashmap.newNode]
  rw [← hmap₂] at hins
  unfold allocPgTable
  rw [hfree]
  simp only [hpair, hf0, if_false, htop']
  rw [show (k.newTable pmm f).currentPml4tPtr = k.currentPml4tPtr from rfl, hnested]
  simp only [registerTable, hnode, hmapped.clearPage, Option.bind_eq_bind, Option.bind_some, hins,
    hkey, if_true]
  rw [← hk₂]
  simp only [withTable, hpair]
  rfl

/-- **`alloc_pg_table`** while the window can be extended and the next frame is fresh. -/
theorem createTable_spec (n : ℕ) (h : k.InOrder R C stop) (he : k.Extends stop 1)
    (hs : k.Supplied 1) :
    ∃ k', k.allocPgTable (mmap (n + 1)) = some (k', k.pmm.pmmAllocPage.2) ∧
      k.TableCreated k' R C stop k.pmm.pmmAllocPage.2 := by
  obtain ⟨hf0, hreg⟩ := hs.2 k.pmm.pmmAllocPage.2 (by simp [Pmm.nextFrames])
  have hun := h.not_reach hreg
  have hfal := k.pmm.pmmAllocPage_mod
  generalize hf : k.pmm.pmmAllocPage.2 = f at *
  obtain ⟨L, hL⟩ := h.lists
  obtain ⟨tw, htw⟩ : ∃ t, follow (entry k.mem) k.cr3 (tableIndices (k.windowTop + 0x1000)) =
    some t := he.tables 0 Nat.one_pos
  have hal := he.aligned
  have hfree : k.map.getFreedPgTbl = none := by
    rw [Hashmap.getFreedPgTbl, Linked.path_nil.1 hL.free]
  have htop := he.windowTop_growWindow
  obtain ⟨map, hins, hL', -, hv', hk', -, hgetf, hget, hregs⟩ :=
    hL.register hreg (k.windowTop + 0x1000)
  refine ⟨k.withTable map tw f, ?_, ?_⟩
  · exact allocPgTable_eq n hfree h.forest h.root h.registered h.accesses_current ⟨L, [], hL⟩ hal
      htop htw hf hf0 hins
  · obtain ⟨hsame, htr, hself⟩ := @withTable_walks k R C map tw f h.forest h.root htw hfal hun
    have htop' : (k.withTable map tw f).windowTop = k.windowTop + 0x1000 := htop
    refine ⟨withTable_inOrder h he htw hfal hun hL' hget, rfl, rfl, rfl, rfl, rfl, htop', ?_,
      hget, hregs, ⟨?_, ?_⟩, fun j => by simp [withTable], fun hr => hun (hsame.reach_iff.1 hr),
      hsame, fun a j ha => mem_withTable_of_reach h htw hun ha j, fun r v hr hv => htr r v hr ?_⟩
    · rw [htop']
      exact hgetf
    · rw [htop']
      omega
    · rw [htop']
      exact hself
    · rwa [htop'] at hv

/-! ### Linking it -/

/-- The state after the entry `i` of the table `t` has been pointed at the table `f`. -/
def linkTable (k : Kernel) (t : ℕ) (i : Fin 512) (f : ℕ) : Kernel :=
  { k with mem := writeEntry k.mem t i (f ||| 7) }

/-- What stays the same when `m` tables have been created and linked. -/
structure Created (k k' : Kernel) (R : ℕ → Prop) (m : ℕ) : Prop where
  cr3 : k'.cr3 = k.cr3
  currentPml4tPtr : k'.currentPml4tPtr = k.currentPml4tPtr
  pmm : k'.pmm = k.pmm.afterFrames m
  windowTop : k'.windowTop = k.windowTop + 0x1000 * m
  page_windowTop : page k'.windowTop = page k.windowTop + m
  getPtblVaddr : ∀ q, k'.map.getPtblVaddr q = k.map.getPtblVaddr q ∨
    ∃ w, k'.map.getPtblVaddr q = some w ∧ k.windowTop < w ∧ w ≤ k.windowTop + 0x1000 * m
  registered : ∀ q, k'.map.registered q = true ↔
    k.map.registered q = true ∨ q ∈ k.pmm.nextFrames m
  reach : ∀ t, Reach (entry k'.mem) R 3 t → Reach (entry k.mem) R 3 t ∨ t ∈ k.pmm.nextFrames m
  kept : ∀ r p a, R r → p.length ≤ 3 → follow (entry k.mem) r p = some a →
    follow (entry k'.mem) r p = some a
  upper : ∀ a j, Reach (entry k.mem) R 2 a → entry k.mem a j ≠ none → k'.mem a j = k.mem a j
  translate : ∀ r v, R r → page v ≤ page k.windowTop ∨ page k.windowTop + m < page v →
    translate k'.mem r v = translate k.mem r v

theorem Created.refl (k : Kernel) (R : ℕ → Prop) : k.Created k R 0 := by
  constructor <;> simp [Pmm.afterFrames, Pmm.nextFrames]

theorem Created.trans {k₁ k₂ : Kernel} {a b : ℕ} (h : k.Created k₁ R a) (h' : k₁.Created k₂ R b) :
    k.Created k₂ R (a + b) where
  cr3 := h'.cr3.trans h.cr3
  currentPml4tPtr := h'.currentPml4tPtr.trans h.currentPml4tPtr
  pmm := by rw [h'.pmm, h.pmm, Pmm.afterFrames_add]
  windowTop := by
    rw [h'.windowTop, h.windowTop]
    ring
  page_windowTop := by rw [h'.page_windowTop, h.page_windowTop, Nat.add_assoc]
  getPtblVaddr q := by
    have htop := h.windowTop
    rcases h'.getPtblVaddr q with hq | ⟨w, hw, hlo, hhi⟩
    · rcases h.getPtblVaddr q with hq' | ⟨w, hw, hlo, hhi⟩
      · exact Or.inl (hq.trans hq')
      · exact Or.inr ⟨w, hq.trans hw, hlo, by omega⟩
    · exact Or.inr ⟨w, hw, by omega, by omega⟩
  registered q := by
    rw [h'.registered, h.registered, h.pmm, Pmm.nextFrames_add, List.mem_append, or_assoc]
  reach t ht := by
    rw [Pmm.nextFrames_add, List.mem_append, ← or_assoc, ← h.pmm]
    rcases h'.reach t ht with ht | ht
    · exact Or.inl (h.reach t ht)
    · exact Or.inr ht
  kept r p c hr hp hc := h'.kept r p c hr hp (h.kept r p c hr hp hc)
  upper c j hc hj := by
    obtain ⟨r, p, hr, hp, hpc⟩ := hc
    have hc₁ : Reach (entry k₁.mem) R 2 c := ⟨r, p, hr, hp, h.kept r p c hr (by omega) hpc⟩
    have hj₁ : k₁.mem c j = k.mem c j := h.upper c j ⟨r, p, hr, hp, hpc⟩ hj
    rw [h'.upper c j hc₁ (by simpa [entry, hj₁] using hj), hj₁]
  translate r v hr hv := by
    have h₁ := h.page_windowTop
    rw [h'.translate r v hr (by omega), h.translate r v hr (by omega)]

/-- A created table that is linked at a missing entry. -/
theorem attach_linkTable {k₁ : Kernel} {f : ℕ} {i : Fin 512} (h : k.TableCreated k₁ R C stop f)
    (hf : f % 0x1000 = 0) (ht : Reach (entry k.mem) R 2 t) (hi : entry k.mem t i = none) :
    Attach (entry k₁.mem) (entry (k₁.linkTable t i f).mem) t i f := by
  have htf : f ≠ t := by
    rintro rfl
    exact h.unreached (h.same.reach_iff.2 (ht.mono (by omega)))
  have hmem : entry k₁.mem t i = entry k.mem t i := by simp [entry, h.upper t i ht]
  refine ⟨by rw [hmem, hi], ?_, fun j => ?_, fun a j ha hne => entry_writeEntry_of_ne hne⟩
  · rw [linkTable, entry_writeEntry_self, if_pos (lor_seven_mod_two f),
      pageAlignDown_lor hf (by norm_num)]
  · rw [linkTable, entry_writeEntry_of_ne fun h => absurd h htf]
    simp [entry, h.empty]

/-- **Creating and linking a table** keeps the invariant and all translations but the one of the
page of the window. -/
theorem linkCreated_spec {k₁ : Kernel} {f : ℕ} {i : Fin 512} (h : k.TableCreated k₁ R C stop f)
    (he : k.Extends stop 1) (hC : ∀ p j, C p → C (p ++ [j])) (hfr : f = k.pmm.pmmAllocPage.2)
    (hf : f % 0x1000 = 0) (hr : R r) (hq : q.length ≤ 2)
    (ht : follow (entry k.mem) r q = some t) (hi : entry k.mem t i = none) :
    (k₁.linkTable t i f).InOrder R C stop ∧ k.Created (k₁.linkTable t i f) R 1 ∧
      (k₁.linkTable t i f).Accesses k₁.windowTop f ∧
      follow (entry (k₁.linkTable t i f).mem) r (q ++ [i]) = some f := by
  have hat := attach_linkTable h hf ⟨r, q, hr, hq, ht⟩ hi
  have hT := h.inOrder
  have ht₁ : follow (entry k₁.mem) r q = some t := by rw [h.same r q hr (by omega), ht]
  have htr : ∀ s v, R s → translate (k₁.linkTable t i f).mem s v = translate k₁.mem s v :=
    fun s v hs => hat.follow_eq h.unreached hT.forest hr (by omega) ht₁ hs rfl
  have hacc : (k₁.linkTable t i f).Accesses k₁.windowTop f :=
    ⟨h.accesses.1, (htr _ _ hT.root).trans h.accesses.2⟩
  have htop := h.windowTop
  have hnext := he.page_next
  have hlink : follow (entry (k₁.linkTable t i f).mem) r (q ++ [i]) = some f := by
    rw [follow_snoc_of_eq (hat.follow_of_eq h.unreached hr (by omega) ht₁)]
    exact hat.link
  refine ⟨⟨hT.root, hat.forest h.unreached hC hT.forest, fun a ha => ?_, hT.current, hT.lists⟩,
    ⟨h.cr3, h.currentPml4tPtr, h.pmm, by rw [Nat.mul_one]; exact htop, ?_, fun b => ?_,
      fun b => ?_, fun a ha => ?_, fun s p a hs hp ha => ?_, fun a j ha hj => ?_,
      fun s v hs hv => ?_⟩, hacc, hlink⟩
  · rcases hat.reach_cases h.unreached ha with ha | rfl
    · obtain ⟨w, hw, hw0, ⟨hwal, hwa⟩, hwun⟩ := hT.accessible a ha
      exact ⟨w, hw, hw0, ⟨hwal, (htr _ _ hT.root).trans hwa⟩, hwun⟩
    · exact ⟨k₁.windowTop, h.getPtblVaddr, by omega, hacc, fun hun => hun.1.false⟩
  · show page k₁.windowTop = _
    rw [htop, hnext]
  · by_cases hb : b = f
    · subst hb
      exact Or.inr ⟨k₁.windowTop, h.getPtblVaddr, by omega, by omega⟩
    · exact Or.inl (h.getPtblVaddr_of_ne b hb)
  · simpa [Pmm.nextFrames, ← hfr, linkTable] using h.registered b
  · rcases hat.reach_cases h.unreached ha with ha | rfl
    · exact Or.inl (h.same.reach_iff.1 ha)
    · exact Or.inr (by simp [Pmm.nextFrames, ← hfr])
  · exact hat.follow_of_eq h.unreached hs (by omega) ((h.same s p hs hp).trans ha)
  · have hne : a = t → j ≠ i := by
      rintro rfl rfl
      exact hj hi
    rw [← h.upper a j ha]
    by_cases hat' : a = t
    · subst hat'
      simp [linkTable, writeEntry, Function.update_of_ne (hne rfl)]
    · simp [linkTable, writeEntry, Function.update_of_ne hat']
  · rw [htr s v hs, h.translate s v hs]
    rw [htop, hnext]
    omega

/-! ### The loop of `mmap` -/

theorem Supplied.mono {m n : ℕ} (h : k.Supplied (m + n)) : k.Supplied m := by
  rw [Supplied, Pmm.nextFrames_add] at h
  exact ⟨(List.nodup_append.1 h.1).1, fun f hf => h.2 f (List.mem_append_left _ hf)⟩

theorem Supplied.head {n : ℕ} (h : k.Supplied (n + 1)) : k.Supplied 1 :=
  Supplied.mono (n := n) (by rwa [Nat.add_comm])

/-- The frames behind the ones that have been used are still fresh. -/
theorem Supplied.after {m n : ℕ} (h : k.Supplied (m + n)) (hpmm : k'.pmm = k.pmm.afterFrames m)
    (hregs : ∀ q, k'.map.registered q = true ↔
      k.map.registered q = true ∨ q ∈ k.pmm.nextFrames m) : k'.Supplied n := by
  rw [Supplied, Pmm.nextFrames_add, ← hpmm] at h
  obtain ⟨-, hnd, hdisj⟩ := List.nodup_append.1 h.1
  refine ⟨hnd, fun f hf => ?_⟩
  obtain ⟨hf0, hreg⟩ := h.2 f (List.mem_append_right _ hf)
  have hout : f ∉ k.pmm.nextFrames m := fun hf' => hdisj f hf' f hf rfl
  refine ⟨hf0, ?_⟩
  rw [Bool.eq_false_iff, Ne, hregs, not_or]
  exact ⟨by simp [hreg], hout⟩

theorem Supplied.created {m n : ℕ} (h : k.Supplied (m + n)) (hc : k.Created k' R m) :
    k'.Supplied n := h.after hc.pmm hc.registered

/-- The window can still be extended, by the pages behind the ones it has been extended by. -/
theorem Extends.created {m n : ℕ} (h : k.Extends stop (m + n)) (hroot : R k.cr3)
    (hc : k.Created k' R m) : k'.Extends stop n := by
  have htop := hc.windowTop
  have hlt := h.top_lt
  have hal := h.aligned
  refine ⟨by omega, by omega, ?_, h.stop_le, fun j hj => ?_⟩
  · have := h.page_lt
    rw [hc.page_windowTop]
    omega
  · obtain ⟨t, ht⟩ := h.tables (m + j) (by omega)
    refine ⟨t, ?_⟩
    rw [hc.cr3]
    have hnext : k'.windowTop + 0x1000 * (j + 1) = k.windowTop + 0x1000 * (m + j + 1) := by
      rw [htop]
      ring
    rw [hnext]
    exact hc.kept k.cr3 _ t hroot le_rfl ht

/-- **The loop of `mmap`** ends at the last table of the walk, having created those that were
missing, all of which are in use now. -/
theorem descendCreated_spec (n : ℕ) (hC : ∀ p j, C p → C (p ++ [j])) (h : k.InOrder R C stop)
    (hr : R r) (ht : follow (entry k.mem) r q = some t) (hlen : q.length + ls.length = 3)
    (hpt : k.Accesses pt t) (hun : ¬ k.Ahead stop pt)
    (he : k.Extends stop (missing k.mem t (ls.map (getIndex v))))
    (hs : k.Supplied (missing k.mem t (ls.map (getIndex v)))) :
    ∃ k' pt' t', descend (allocPgTable (mmap (n + 1))) v ls k pt = some (k', some pt') ∧
      k'.InOrder R C stop ∧ k.Created k' R (missing k.mem t (ls.map (getIndex v))) ∧
      (∀ f ∈ k.pmm.nextFrames (missing k.mem t (ls.map (getIndex v))),
        Reach (entry k'.mem) R 3 f) ∧
      follow (entry k'.mem) r (q ++ ls.map (getIndex v)) = some t' ∧ k'.Accesses pt' t' := by
  induction ls generalizing k q t pt with
  | nil => exact ⟨k, pt, t, rfl, h, .refl k R, nofun, by simpa using ht, hpt⟩
  | cons l ls ih =>
    simp only [List.length_cons] at hlen
    have hstep : ∀ w, follow (entry k.mem) r (q ++ [w]) = entry k.mem t w :=
      fun w => follow_snoc_of_eq ht
    cases hi : entry k.mem t (getIndex v l) with
    | some t₁ =>
      -- the table is there
      have hodd := entry_eq_some.1 hi
      have ht₁ : follow (entry k.mem) r (q ++ [getIndex v l]) = some t₁ := (hstep _).trans hi
      obtain ⟨w, hw, hw0, hacc, hwun⟩ := h.accessible t₁ ⟨r, _, hr, by simp; omega, ht₁⟩
      have hmiss : missing k.mem t ((l :: ls).map (getIndex v)) =
          missing k.mem t₁ (ls.map (getIndex v)) := by
        simp [missing, hi]
      rw [hmiss] at he hs ⊢
      obtain ⟨k', pt', t', hdesc, hT, hcr, hnew, hfol, hacc'⟩ :=
        ih h ht₁ (by simp; omega) hacc hwun he hs
      refine ⟨k', pt', t', ?_, hT, hcr, hnew, by simpa using hfol, hacc'⟩
      simp only [descend, hpt.load, Option.bind_eq_bind, Option.bind_some, hodd, if_true, hw, hw0,
        if_false, hdesc]
    | none =>
      -- it is created and linked, and the rest of the way is created below it
      have heven : ¬ k.mem t (getIndex v l) % 2 = 1 := by
        intro hodd
        simp [entry, hodd] at hi
      have hmiss : missing k.mem t ((l :: ls).map (getIndex v)) =
          1 + (ls.map (getIndex v)).length := by
        simp [missing, hi, Nat.add_comm]
      rw [hmiss] at he hs ⊢
      have he₁ : k.Extends stop 1 := he.mono (by omega)
      have hs₁ : k.Supplied 1 := by
        rw [Nat.add_comm] at hs
        exact hs.head
      obtain ⟨k₁, halloc, hA⟩ := createTable_spec n h he₁ hs₁
      have hfal := k.pmm.pmmAllocPage_mod
      have hfr : k.pmm.nextFrames 1 = [k.pmm.pmmAllocPage.2] := rfl
      generalize hf : k.pmm.pmmAllocPage.2 = f at *
      obtain ⟨hT₂, hcr₂, hacc₂, hfol₂⟩ := linkCreated_spec (i := getIndex v l) hA he₁ hC
        hf.symm hfal hr (by omega) ht hi
      have hpt₁ : k₁.Accesses pt t := by
        refine ⟨hpt.1, ?_⟩
        rw [hA.cr3, hA.translate k.cr3 pt h.root fun heq => hun ?_]
        · exact hpt.2
        · rw [Ahead, heq, hA.windowTop, he₁.page_next]
          exact ⟨Nat.lt_succ_self _, he₁.page_lt⟩
      have hempty : ∀ j, entry (k₁.linkTable t (getIndex v l) f).mem f j = none :=
        (attach_linkTable hA hfal ⟨r, q, hr, by omega, ht⟩ hi).leaf
      have hlast := missing_empty hempty (ls.map (getIndex v))
      obtain ⟨k', pt', t', hdesc, hT, hcr, hnew, hfol, hacc'⟩ := ih hT₂ hfol₂ (by simp; omega) hacc₂
        (fun hu => hu.1.false) (by rw [hlast]; exact he.created h.root hcr₂)
        (by rw [hlast]; exact hs.created hcr₂)
      rw [hlast] at hcr hnew
      refine ⟨k', pt', t', ?_, hT, hcr₂.trans hcr, fun g hg => ?_, by simpa using hfol, hacc'⟩
      · have hstore := hpt₁.store (getIndex v l) (f ||| 7)
        simp only [descend, hpt.load, Option.bind_eq_bind, Option.bind_some, heven, if_false,
          halloc, hstore]
        simp only [hA.getPtblVaddr, Option.bind_some]
        exact hdesc
      · rw [Pmm.nextFrames_add, List.mem_append] at hg
        rcases hg with hg | hg
        · rw [hfr, List.mem_singleton] at hg
          subst hg
          exact ⟨r, q ++ [getIndex v l], hr, by simp; omega,
            hcr.kept r _ _ hr (by simp; omega) hfol₂⟩
        · exact hnew g (by rw [hcr₂.pmm]; exact hg)

/-- **`mmap`** creates the tables that are missing and then writes one entry of the last table of
the walk. -/
theorem mmapCreated_spec {root : ℕ} (n paddr flags : ℕ) (hC : ∀ p j, C p → C (p ++ [j]))
    (h : k.InOrder R C stop) (hr : R r) (hroot : k.map.getPtblVaddr r = some root)
    (he : k.Extends stop (missing k.mem r (tableIndices v)))
    (hs : k.Supplied (missing k.mem r (tableIndices v))) :
    ∃ k' t, k'.InOrder R C stop ∧ k.Created k' R (missing k.mem r (tableIndices v)) ∧
      (∀ f ∈ k.pmm.nextFrames (missing k.mem r (tableIndices v)), Reach (entry k'.mem) R 3 f) ∧
      follow (entry k'.mem) r (tableIndices v) = some t ∧
      mmap (n + 2) k root paddr v flags =
        some ({ k' with mem := writeEntry k'.mem t (getIndex v 0) (paddr ||| flags ||| 7) },
          true) := by
  obtain ⟨w, hw, -, hacc, hun⟩ := h.accessible _ (reach_root hr)
  rw [hroot, Option.some.injEq] at hw
  subst hw
  obtain ⟨k', pt', t, hdesc, hT, hcr, hnew, hfol, hacc'⟩ := @descendCreated_spec k R C stop r r
    root v [] [3, 2, 1] n hC h hr rfl rfl hacc hun he hs
  refine ⟨k', t, hT, hcr, hnew, hfol, ?_⟩
  rw [mmap, hdesc]
  simp only [Option.bind_eq_bind, Option.bind_some, hacc'.store]

/-! ### The page that is mapped -/

/-- No table is registered at the page of `v`. -/
def NoTableAt (k : Kernel) (v : ℕ) : Prop :=
  ∀ a w, k.map.getPtblVaddr a = some w → w ≠ 0 → page w ≠ page v

/-- Writing the entry of a page keeps the accesses at other pages. -/
theorem Accesses.writeEntry {a w : ℕ} (hacc : k.Accesses w a) (hF : Forest (entry k.mem) R 3 C)
    (hroot : R k.cr3) (hr : R r) (ht : follow (entry k.mem) r (tableIndices v) = some t) (e : ℕ)
    (hne : page w ≠ page v) :
    ({ k with mem := TitanOS.writeEntry k.mem t (getIndex v 0) e } : Kernel).Accesses w a := by
  obtain ⟨hwal, hwa⟩ := hacc
  have hred : Redirect (entry k.mem) (entry (TitanOS.writeEntry k.mem t (getIndex v 0) e)) t
      (getIndex v 0) := redirect_writeEntry
  refine ⟨hwal, (hred.follow_of_ne hF hr rfl ht hroot rfl fun he => hne ?_).trans hwa⟩
  rw [← indices_eq] at he
  exact indices_eq_iff.1 he

/-- Writing the entry of a page keeps the invariant if no table is accessed at the page. -/
theorem InOrder.writeEntry (h : k.InOrder R C stop) (hr : R r)
    (ht : follow (entry k.mem) r (tableIndices v) = some t) (e : ℕ)
    (hv : ∀ a w, Reach (entry k.mem) R 3 a → k.map.getPtblVaddr a = some w → page w ≠ page v) :
    Same (entry k.mem) (entry (writeEntry k.mem t (getIndex v 0) e)) R 3 ∧
      ({ k with mem := writeEntry k.mem t (getIndex v 0) e } : Kernel).InOrder R C stop := by
  have hred : Redirect (entry k.mem) (entry (TitanOS.writeEntry k.mem t (getIndex v 0) e)) t
      (getIndex v 0) := redirect_writeEntry
  have hsame := hred.same h.forest hr rfl ht
  refine ⟨hsame, h.root, hsame.forest h.forest, fun a ha => ?_, h.current, h.lists⟩
  have ha' := hsame.reach_iff.1 ha
  obtain ⟨w, hw, hw0, hacc, hwun⟩ := h.accessible a ha'
  exact ⟨w, hw, hw0, hacc.writeEntry h.forest h.root hr ht e (hv a w ha' hw), hwun⟩

/-- No table is accessed at the page of `v` after the missing tables have been created: the new
ones are in the window, whose own tables are never missing. -/
theorem InOrder.page_ne (hv : k.NoTableAt v)
    (he : k.Extends stop (missing k.mem k.cr3 (tableIndices v))) (hO : k'.InOrder R C stop)
    (hcr : k.Created k' R (missing k.mem k.cr3 (tableIndices v))) {a w : ℕ}
    (ha : Reach (entry k'.mem) R 3 a) (hw : k'.map.getPtblVaddr a = some w) : page w ≠ page v := by
  obtain ⟨w', hw', hw0, ⟨hwal, -⟩, -⟩ := hO.accessible a ha
  obtain rfl : w = w' := Option.some.inj (hw.symm.trans hw')
  rcases hcr.getPtblVaddr a with hold | ⟨w', hw', hlo, hhi⟩
  · exact hv a w (hold.symm.trans hw) hw0
  · obtain rfl : w = w' := Option.some.inj (hw.symm.trans hw')
    intro heq
    have hal := he.aligned
    obtain ⟨j, hj, rfl⟩ : ∃ j < missing k.mem k.cr3 (tableIndices v),
        w = k.windowTop + 0x1000 * (j + 1) :=
      ⟨(w - k.windowTop) / 0x1000 - 1, by omega, by omega⟩
    obtain ⟨tw, htw⟩ := he.tables j hj
    have hind := indices_eq_iff.2 heq
    rw [indices_eq, indices_eq] at hind
    rw [(List.append_inj hind rfl).1] at htw
    rw [missing_of_follow htw] at hj
    exact absurd hj (Nat.not_lt_zero j)

end Kernel

end TitanOS
