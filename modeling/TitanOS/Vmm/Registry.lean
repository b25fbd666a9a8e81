import TitanOS.Lib.Run
import TitanOS.Vmm.Boot

/-!
# The nodes of the page tables

A `page_table_t` is linked through one `next` field, into the chain of its bucket or into the list
`tables` of freed nodes.  `get_freed_pg_tbl` is meant to pop the latter but only returns its second
node: with two freed nodes, `alloc_pg_table` registers a node that stays on the list of freed ones.
With at most one it always takes a new frame, and the nodes stay apart.

`alloc_pg_table` calls `mmap`, which may call `alloc_pg_table` again.  While it does, the outer node
is on no list yet.  `Grown` describes what calls at any depth do to the lists: the nodes they
create are appended to bucket chains, and nothing else changes.
-/

namespace TitanOS

open Linked Run

namespace Hashmap

/-- Every node is on one bucket chain or on the list of freed nodes, and not on both.  (A path does
not visit a node twice.) -/
def OnOneList (h : Hashmap) : Prop :=
  ∃ (L : ℕ → List ℕ) (F : List ℕ), (∀ b, Path h.next (h.bucket b) (L b)) ∧
    Path h.next h.tables F ∧
    ∀ i < h.count, (i ∈ F ∧ ∀ b, i ∉ L b) ∨ (i ∉ F ∧ ∃! b, i ∈ L b)

/-- The freed nodes. -/
def freed (h : Hashmap) : List ℕ := toList h.next h.count h.tables

variable {h h₁ h₂ : Hashmap} {L L₁ L₂ : ℕ → List ℕ} {F P : List ℕ} {i t : ℕ}

theorem Lists.freed_eq (hL : Lists h L F) : h.freed = F := by
  have hlen := length_lt_fuel hL.free.nodup hL.free_lt
  exact toList_eq hL.free (Nat.lt_succ_iff.1 hlen)

/-- With at most one freed node, none is reused. -/
theorem Lists.getFreedPgTbl_eq_none (hL : Lists h L F) (hF : F.length ≤ 1) :
    h.getFreedPgTbl = none := by
  have hfree := hL.free
  cases F with
  | nil => rw [getFreedPgTbl, path_nil.1 hfree]
  | cons a F =>
    obtain rfl : F = [] := List.length_eq_zero_iff.1 (by simpa using hF)
    simp only [getFreedPgTbl, hfree.1]
    exact hfree.2

theorem Lists.length_le_one (hL : Lists h L F) (hfree : h.getFreedPgTbl = none) :
    F.length ≤ 1 := by
  have hpath := hL.free
  rcases F with - | ⟨a, - | ⟨b, F⟩⟩
  · exact Nat.zero_le 1
  · exact le_rfl
  · obtain ⟨ha, hb, -⟩ := hpath
    simp only [getFreedPgTbl, ha, hb] at hfree
    cases hfree

theorem Lists.eq_cons_of_getFreedPgTbl (hL : Lists h L F) (hi : h.getFreedPgTbl = some i) :
    ∃ a F', F = a :: i :: F' ∧ h.tables = some a := by
  have hfree := hL.free
  rcases F with - | ⟨a, F⟩
  · rw [getFreedPgTbl, path_nil.1 hfree] at hi
    cases hi
  · have hnext : h.next a = some i := by
      rw [getFreedPgTbl, hfree.1] at hi
      exact hi
    obtain ⟨F', rfl, -⟩ := path_some.1 (hnext ▸ hfree.2)
    exact ⟨a, F', rfl, hfree.1⟩

theorem Lists.onOneList (hL : Lists h L F)
    (hall : ∀ i < h.count, i ∈ F ∨ ∃ b, i ∈ L b) : h.OnOneList := by
  refine ⟨L, F, hL.chain, hL.free, fun i hi => ?_⟩
  rcases hall i hi with hF | ⟨b, hb⟩
  · exact Or.inl ⟨hF, fun b hb => hL.disjoint b i hb hF⟩
  · exact Or.inr ⟨hL.disjoint b i hb, b, hb, fun c hc => hL.eq_of_mem hc hb⟩

/-- From `h` to `h'` nodes have been created and appended to bucket chains, none with a key
in `P`. -/
structure Grown (h h' : Hashmap) (L L' : ℕ → List ℕ) (F P : List ℕ) : Prop where
  lists : h'.Lists L' F
  count : h.count ≤ h'.count
  vaddr : ∀ i < h.count, h'.ptVaddr i = h.ptVaddr i
  paddr : ∀ i < h.count, h'.ptPaddr i = h.ptPaddr i
  next : ∀ i < h.count, (∀ b, i ∉ L b) → h'.next i = h.next i
  pending : ∀ q ∈ P, h.registered q = false → h'.registered q = false
  mem : ∀ i, (∃ b, i ∈ L' b) ↔ (∃ b, i ∈ L b) ∨ (h.count ≤ i ∧ i < h'.count)

theorem Grown.refl (hL : Lists h L F) : Grown h h L L F P := by
  refine ⟨hL, le_rfl, fun _ _ => rfl, fun _ _ => rfl, fun _ _ _ => rfl, fun _ _ hq => hq,
    fun i => ?_⟩
  constructor
  · exact Or.inl
  · rintro (hi | ⟨hlo, hhi⟩)
    · exact hi
    · omega

theorem Grown.trans (g : Grown h h₁ L L₁ F P) (g' : Grown h₁ h₂ L₁ L₂ F P) :
    Grown h h₂ L L₂ F P where
  lists := g'.lists
  count := g.count.trans g'.count
  vaddr i hi := (g'.vaddr i (hi.trans_le g.count)).trans (g.vaddr i hi)
  paddr i hi := (g'.paddr i (hi.trans_le g.count)).trans (g.paddr i hi)
  next i hi hout := by
    refine (g'.next i (hi.trans_le g.count) fun b hb => ?_).trans (g.next i hi hout)
    rcases (g.mem i).1 ⟨b, hb⟩ with ⟨c, hc⟩ | hc
    · exact hout c hc
    · omega
  pending q hq hreg := g'.pending q hq (g.pending q hq hreg)
  mem i := by
    have := g.count
    have := g'.count
    rw [g'.mem, g.mem]
    constructor
    · rintro ((hi | hi) | hi)
      · exact Or.inl hi
      · exact Or.inr (by omega)
      · exact Or.inr (by omega)
    · rintro (hi | hi)
      · exact Or.inl (Or.inl hi)
      · by_cases hlt : i < h₁.count
        · exact Or.inl (Or.inr (by omega))
        · exact Or.inr (by omega)

/-- **Registering a node that was created before `h₁` grew to `h₂`.** -/
theorem Grown.register {v f : ℕ} (hL : Lists h L F)
    (g : Grown (h.newNode v f) h₂ L L₂ F (f :: P)) (hreg : h.registered f = false) (hf : f ∉ P) :
    ∃ h', h₂.pgTblInsert h.count = some (h', true) ∧ h₂.ptVaddr h.count = v ∧
      h₂.ptPaddr h.count = f ∧ Grown h h' L (append L₂ (hashFunction f) h.count) F P := by
  have hlt : h.count < (h.newNode v f).count := Nat.lt_succ_self _
  have hcount := g.count
  have hfresh : ∀ b, h.count ∉ L b := fun b hb => (hL.home b _ hb).1.false
  have hout : ∀ b, h.count ∉ L₂ b := by
    intro b hb
    rcases (g.mem _).1 ⟨b, hb⟩ with ⟨c, hc⟩ | hc
    · exact hfresh c hc
    · omega
  have hkey : h₂.ptPaddr h.count = f := by
    rw [g.paddr _ hlt]
    simp [newNode]
  have hold : ∀ i < h.count, (h.newNode v f).ptPaddr i = h.ptPaddr i ∧
      (h.newNode v f).ptVaddr i = h.ptVaddr i ∧ (h.newNode v f).next i = h.next i := by
    intro i hi
    simp [newNode, Function.update_of_ne hi.ne]
  have hregNew : ∀ q, (h.newNode v f).registered q = h.registered q := by
    intro q
    rw [Bool.eq_iff_iff, (hL.newNode v f).registered_iff, hL.registered_iff]
    refine exists_congr fun i => and_congr_right fun hi => ?_
    rw [(hold i (hL.home _ i hi).1).1]
  have hreg₂ : h₂.registered f = false := g.pending f (by simp) (by rw [hregNew, hreg])
  have hins := g.lists.pgTblInsert (t := h.count) (by omega)
    ((g.next _ hlt hfresh).trans (by simp [newNode])) hout fun hF => (hL.free_lt _ hF).false
  rw [hkey] at hins
  rcases hins with ⟨-, h', hins, hL', hv', hk', hc', -, hn'⟩ | ⟨d, hd, -⟩
  · refine ⟨h', hins, by rw [g.vaddr _ hlt]; simp [newNode], hkey, hL', ?_, fun i hi => ?_,
      fun i hi => ?_, fun i hi hiL => ?_, fun q hq hreg => ?_, fun i => ?_⟩
    · omega
    · rw [hv', g.vaddr i (by omega), (hold i hi).2.1]
    · rw [hk', g.paddr i (by omega), (hold i hi).1]
    · rw [hn', g.next i (by omega) hiL, (hold i hi).2.2]
      intro b hb
      rcases (g.mem i).1 ⟨b, hb⟩ with ⟨c, hc⟩ | hc
      · exact hiL c hc
      · omega
    · have hq₂ := g.pending q (by simp [hq]) (by rw [hregNew, hreg])
      rw [Bool.eq_false_iff, Ne, hL'.registered_iff]
      rintro ⟨i, hi, hiq⟩
      rw [hk'] at hiq
      rcases mem_append_iff.1 hi with hi | ⟨rfl, -⟩
      · rw [g.lists.registered_iff.2 ⟨i, hi, hiq⟩] at hq₂
        cases hq₂
      · rw [hkey] at hiq
        exact hf (hiq ▸ hq)
    · rw [exists_congr fun b => mem_append_iff, exists_or, g.mem, hc']
      have hsucc : (h.newNode v f).count = h.count + 1 := rfl
      simp only [exists_and_left, exists_eq, and_true, hsucc]
      rw [or_assoc]
      refine or_congr_right ?_
      omega
  · have hmem := List.mem_of_mem_tail (List.mem_of_find?_eq_some hd)
    have hdf : h₂.ptPaddr d = f := by simpa using List.find?_some hd
    rw [g.lists.registered_iff.2 ⟨d, hmem, hdf⟩] at hreg₂
    cases hreg₂

end Hashmap

namespace Kernel

/-! ### The calls at any depth -/

/-- In the loop of `mmap`, every call of `alloc_pg_table` is made in a state that meets `ok`. -/
def descendAssumed (ok : Kernel → Bool) (alloc : Kernel → Option (Kernel × ℕ)) (v : ℕ) :
    List ℕ → Kernel → ℕ → Bool
  | [], _, _ => true
  | l :: ls, k, pt =>
    let offset := pt + 8 * (getIndex v l).val
    (k.load offset).all fun e =>
      if e % 2 = 1 then
        (k.map.getPtblVaddr (pageAlignDown e)).all fun w =>
          w == 0 || descendAssumed ok alloc v ls k w
      else
        ok k && (alloc k).all fun x => (x.1.store offset (x.2 ||| 7)).all fun k =>
          (k.map.getPtblVaddr x.2).all fun w => descendAssumed ok alloc v ls k w

/-- What `alloc_pg_table` may assume when it creates a table: the frame from `pmm_alloc_page` is not
null, not registered, and not one of the `pending` frames of the calls around this one; `mmap`
succeeds and maps the page; and the same holds for the calls inside `mmap`. -/
def assumed : ℕ → List ℕ → Kernel → Bool
  | 0, _, _ => false
  | n + 1, pending, k =>
    let f := k.pmm.pmmAllocPage.2
    let k₁ := k.newTable k.pmm.pmmAllocPage.1 f
    (f != 0 && !k.map.registered f && !pending.contains f) &&
      (mmap (n + 1) k₁ k₁.currentPml4tPtr f k₁.windowTop 0).any (fun x =>
        x.2 && (translate x.1.mem x.1.cr3 k₁.windowTop).isSome) &&
      descendAssumed (assumed n (f :: pending)) (allocPgTable (mmap n)) k₁.windowTop [3, 2, 1] k₁
        k₁.currentPml4tPtr

variable {k k' : Kernel} {L : ℕ → List ℕ} {F P : List ℕ} {v : ℕ}

theorem map_of_store {e : ℕ} (h : k.store v e = some k') : k'.map = k.map := by
  obtain ⟨f, -, rfl⟩ := Option.map_eq_some_iff.1 h
  rfl

/-- The loop of `mmap` grows the lists if the calls of `alloc_pg_table` do. -/
theorem grown_descend {ok : Kernel → Bool} {alloc : Kernel → Option (Kernel × ℕ)}
    (halloc : ∀ k L, k.map.Lists L F → ok k = true →
      ∃ k' t L', alloc k = some (k', t) ∧ k.map.Grown k'.map L L' F P)
    (ls : List ℕ) {pt : ℕ} {r : Option ℕ} (hL : k.map.Lists L F)
    (hok : descendAssumed ok alloc v ls k pt = true)
    (h : descend alloc v ls k pt = some (k', r)) : ∃ L', k.map.Grown k'.map L L' F P := by
  induction ls generalizing k pt L with
  | nil =>
    simp only [descend, Option.some.injEq, Prod.mk.injEq] at h
    rw [← h.1]
    exact ⟨L, .refl hL⟩
  | cons l ls ih =>
    simp only [descend, Option.bind_eq_bind, Option.bind_eq_some_iff] at h
    obtain ⟨e, he, h⟩ := h
    simp only [descendAssumed, he, Option.all_some] at hok
    split at h
    · rename_i hodd
      obtain ⟨w, hw, h⟩ := Option.bind_eq_some_iff.1 h
      simp only [hodd, if_true, hw, Option.all_some] at hok
      split at h
      · simp only [Option.some.injEq, Prod.mk.injEq] at h
        rw [← h.1]
        exact ⟨L, .refl hL⟩
      · rename_i hw0
        exact ih hL (by simpa [hw0] using hok) h
    · rename_i hodd
      obtain ⟨⟨k₁, t⟩, hal, h⟩ := Option.bind_eq_some_iff.1 h
      obtain ⟨k₂, hst, h⟩ := Option.bind_eq_some_iff.1 h
      obtain ⟨w, hw, h⟩ := Option.bind_eq_some_iff.1 h
      simp only [hodd, if_false, Bool.and_eq_true, hal, Option.all_some, hst, hw] at hok
      obtain ⟨k₁', t', L₁, hal', hg⟩ := halloc k L hL hok.1
      rw [hal, Option.some.injEq, Prod.mk.injEq] at hal'
      obtain ⟨rfl, rfl⟩ := hal'
      have hmap := map_of_store hst
      obtain ⟨L₂, hg₂⟩ := ih (hmap ▸ hg.lists) hok.2 h
      rw [hmap] at hg₂
      exact ⟨L₂, hg.trans hg₂⟩

/-- **`alloc_pg_table`** with at most one freed node returns the frame it obtained, and its node
joins a bucket chain. -/
theorem grown_allocPgTable (n : ℕ) (hF : F.length ≤ 1) (hL : k.map.Lists L F)
    (hok : assumed n P k = true) :
    ∃ k' L', k.allocPgTable (mmap n) = some (k', k.pmm.pmmAllocPage.2) ∧
      k.map.Grown k'.map L L' F P ∧ k.map.count < k'.map.count ∧ k.pmm.pmmAllocPage.2 ≠ 0 ∧
      k.map.registered k.pmm.pmmAllocPage.2 = false := by
  induction n generalizing k L P with
  | zero => cases hok
  | succ n ih =>
    simp only [assumed, Bool.and_eq_true, bne_iff_ne, ne_eq, Bool.not_eq_true',
      Option.any_eq_true] at hok
    obtain ⟨⟨⟨⟨hf0, hreg⟩, hpend⟩, ⟨k₂, ok⟩, hmmap, hok₂, htr⟩, hdesc⟩ := hok
    generalize hfr : k.pmm.pmmAllocPage.2 = f at *
    have hL₁ : (k.newTable k.pmm.pmmAllocPage.1 f).map.Lists L F := hL.newNode _ _
    -- the nested call of `mmap`
    obtain ⟨L₂, hg⟩ : ∃ L₂, (k.newTable k.pmm.pmmAllocPage.1 f).map.Grown k₂.map L L₂ F
        (f :: P) := by
      have hmmap' := hmmap
      rw [mmap] at hmmap'
      obtain ⟨⟨k₃, r⟩, hd, hmmap'⟩ := Option.bind_eq_some_iff.1 hmmap'
      have hgd := @grown_descend _ _ L F (f :: P) _ _ _ (fun k L hL hok => by
        obtain ⟨k', L', hal, hg, -⟩ := ih hL hok
        exact ⟨k', _, L', hal, hg⟩) [3, 2, 1] _ _ hL₁ hdesc hd
      cases r with
      | none =>
        simp only [Option.some.injEq, Prod.mk.injEq] at hmmap'
        rwa [← hmmap'.1]
      | some pt =>
        obtain ⟨k₄, hst, hmmap'⟩ := Option.bind_eq_some_iff.1 hmmap'
        simp only [Option.some.injEq, Prod.mk.injEq] at hmmap'
        rw [← hmmap'.1, map_of_store hst]
        exact hgd
    obtain ⟨h', hins, hva, hpa, hg'⟩ := Hashmap.Grown.register hL hg hreg
      (by simpa using hpend)
    obtain ⟨fr, hfr'⟩ := Option.isSome_iff_exists.1 htr
    refine ⟨{ k₂ with mem := Function.update k₂.mem fr fun _ => 0, map := h' }, _, ?_, hg', ?_, hf0,
      hreg⟩
    · have hfree := hL.getFreedPgTbl_eq_none hF
      obtain rfl : ok = true := hok₂
      have hclear : k₂.clearPage (k₂.map.ptVaddr k.map.count) =
          some { k₂ with mem := Function.update k₂.mem fr fun _ => 0 } := by
        rw [clearPage, hva]
        exact congrArg (Option.map _) hfr'
      unfold allocPgTable
      rw [hfree]
      simp only [hfr, hf0, if_false]
      rw [hmmap]
      simp only [registerTable, hclear, Option.bind_eq_bind, Option.bind_some, hins, hpa, if_true]
    · have hmem := (hg'.mem k.map.count).1 ⟨_, Hashmap.mem_append_iff.2 (Or.inr ⟨rfl, rfl⟩)⟩
      rcases hmem with ⟨b, hb⟩ | hmem
      · exact absurd (hL.home b _ hb).1 (lt_irrefl _)
      · exact hmem.2

/-! ### Runs -/

/-- The calls of a run. -/
inductive TableOp
  | allocPgTable
  | vmmHashmapRemove (paddr : ℕ)
  deriving Repr

/-- One call. -/
def tableStep (fuel : ℕ) (k : Kernel) : TableOp → Option Kernel
  | .allocPgTable => (k.allocPgTable (mmap fuel)).map Prod.fst
  | .vmmHashmapRemove paddr => (k.map.vmmHashmapRemove paddr).map fun r => { k with map := r.1 }

/-- When `alloc_pg_table` is called, at most one node is freed; the frames are fresh and `mmap`
succeeds. -/
def NotReused (fuel : ℕ) (k : Kernel) : TableOp → Prop
  | .allocPgTable => k.map.freed.length ≤ 1 ∧ assumed fuel [] k = true
  | .vmmHashmapRemove _ => True

instance (fuel : ℕ) (k : Kernel) : ∀ o, Decidable (k.NotReused fuel o)
  | .allocPgTable => inferInstanceAs (Decidable (_ ∧ _))
  | .vmmHashmapRemove _ => .isTrue trivial

/-- `alloc_pg_table` returns a table that was not registered, and not null. -/
def Answers (fuel : ℕ) (k : Kernel) : TableOp → Prop
  | .allocPgTable => ∃ k' t, k.allocPgTable (mmap fuel) = some (k', t) ∧ t ≠ 0 ∧
      k.map.registered t = false
  | .vmmHashmapRemove paddr => ∃ k', k.tableStep fuel (.vmmHashmapRemove paddr) = some k'

/-- The chains of the map are in order and hold all nodes that are not freed. -/
def Registry (k : Kernel) : Prop :=
  ∃ L F, k.map.Lists L F ∧ ∀ i < k.map.count, i ∈ F ∨ ∃ b, i ∈ L b

theorem Registry.step {fuel : ℕ} {o : TableOp} (h : k.Registry) (ho : k.NotReused fuel o) :
    k.Answers fuel o ∧ ∀ k', k.tableStep fuel o = some k' → k'.Registry := by
  obtain ⟨L, F, hL, hall⟩ := h
  cases o with
  | allocPgTable =>
    obtain ⟨hF, hok⟩ := ho
    rw [hL.freed_eq] at hF
    obtain ⟨k₁, L₁, hcall, hg, -, hf0, hreg⟩ := grown_allocPgTable fuel hF hL hok
    refine ⟨⟨k₁, _, hcall, hf0, hreg⟩, fun k' hstep => ?_⟩
    rw [tableStep, hcall, Option.map_some, Option.some.injEq] at hstep
    subst hstep
    refine ⟨L₁, F, hg.lists, fun i hi => ?_⟩
    by_cases hlt : i < k.map.count
    · exact (hall i hlt).imp_right fun hi => (hg.mem i).2 (Or.inl hi)
    · exact Or.inr ((hg.mem i).2 (Or.inr ⟨by omega, hi⟩))
  | vmmHashmapRemove p =>
    rcases hL.vmmHashmapRemove p with ⟨-, hrem⟩ | ⟨d, h', hd, hrem, hL', -, -, hc⟩
    · have hstep : k.tableStep fuel (.vmmHashmapRemove p) = some k := by
        rw [tableStep, hrem]
        rfl
      refine ⟨⟨k, hstep⟩, fun k' hk' => ?_⟩
      rw [hstep, Option.some.injEq] at hk'
      exact hk' ▸ ⟨L, F, hL, hall⟩
    · have hstep : k.tableStep fuel (.vmmHashmapRemove p) = some { k with map := h' } := by
        rw [tableStep, hrem]
        rfl
      refine ⟨⟨_, hstep⟩, fun k' hk' => ?_⟩
      rw [hstep, Option.some.injEq] at hk'
      subst hk'
      refine ⟨_, _, hL', fun i hi => ?_⟩
      rcases hall i (hc ▸ hi) with hi | ⟨b, hi⟩
      · exact Or.inl (List.mem_cons_of_mem _ hi)
      · rcases Hashmap.mem_detach hd hi with hi | rfl
        · exact Or.inr ⟨b, hi⟩
        · exact Or.inl (by simp)

/-- **No page table is live twice** in a run in which at most one node is freed whenever
`alloc_pg_table` is called. -/
theorem tables_live_once (k : Kernel) (fuel : ℕ) (ops : List TableOp) (h : k.Registry)
    (hops : Along (tableStep fuel) (NotReused fuel) k ops) :
    Always (tableStep fuel) (fun k => k.map.OnOneList) k ops ∧
      Along (tableStep fuel) (Answers fuel) k ops := by
  constructor
  · refine Always.of_inv (fun k hk => ?_) (fun k o k' hk ho => (hk.step ho).2 k') h hops
    obtain ⟨L, F, hL, hall⟩ := hk
    exact hL.onOneList hall
  · exact Along.of_inv (fun k o hk ho => hk.step ho) h hops

theorem boot_registry : boot.Registry := by
  obtain ⟨L, hL⟩ := (boot_tables (fun r => Iff.rfl) fun _ => True).lists
  refine ⟨L, [], hL, ?_⟩
  have hchain : ∀ b, toList boot.map.next boot.map.fuel (boot.map.bucket b) = L b :=
    fun b => toList_eq (hL.chain b) (hL.length_lt b).le
  have hall : ∀ i < boot.map.count, ∃ b < 20, i ∈ toList boot.map.next boot.map.fuel
      (boot.map.bucket b) := by
    decide +kernel
  intro i hi
  obtain ⟨b, -, hb⟩ := hall i hi
  exact Or.inr ⟨b, hchain b ▸ hb⟩

/-- At boot, a table is removed and another one is created; the freed node is not reused. -/
theorem tables_live_once_boot :
    Along (tableStep 2) (NotReused 2) boot [.vmmHashmapRemove 0x116000, .allocPgTable] ∧
    Always (tableStep 2) (fun k => k.map.OnOneList) boot
      [.vmmHashmapRemove 0x116000, .allocPgTable] ∧
    Along (tableStep 2) (Answers 2) boot [.vmmHashmapRemove 0x116000, .allocPgTable] := by
  have hops : Along (tableStep 2) (NotReused 2) boot
      [.vmmHashmapRemove 0x116000, .allocPgTable] := by
    decide +kernel
  exact ⟨hops, tables_live_once boot 2 _ boot_registry hops⟩

/-- With two freed nodes, the second is registered again and stays on the list of freed nodes; the
next call finds it there once more and returns null. -/
theorem freed_node_live :
    ∃ k₁ ∈ tableStep 2 boot (.vmmHashmapRemove 0x116000),
      ∃ k₂ ∈ tableStep 2 k₁ (.vmmHashmapRemove 0x117000), ∃ x ∈ k₂.allocPgTable (mmap 2),
        ¬ x.1.map.OnOneList ∧ x.1.map.freed = [6, 5] ∧
        ∃ y ∈ x.1.allocPgTable (mmap 2), y.2 = 0 := by
  have hrun : ∃ k₁ ∈ tableStep 2 boot (.vmmHashmapRemove 0x116000),
      ∃ k₂ ∈ tableStep 2 k₁ (.vmmHashmapRemove 0x117000), ∃ x ∈ k₂.allocPgTable (mmap 2),
        Path x.1.map.next (x.1.map.bucket 8) [0, 5] ∧ Path x.1.map.next x.1.map.tables [6, 5] ∧
        5 < x.1.map.count ∧ x.1.map.freed = [6, 5] ∧
        ∃ y ∈ x.1.allocPgTable (mmap 2), y.2 = 0 := by
    decide +kernel
  obtain ⟨k₁, hk₁, k₂, hk₂, x, hx, hchain, hfree, hlt, hfreed, hnull⟩ := hrun
  refine ⟨k₁, hk₁, k₂, hk₂, x, hx, ?_, hfreed, hnull⟩
  rintro ⟨L, F, hL, hF, hone⟩
  have h8 : L 8 = [0, 5] := (hL 8).unique hchain
  have hF' : F = [6, 5] := hF.unique hfree
  rcases hone 5 hlt with ⟨-, hout⟩ | ⟨hout, -⟩
  · exact hout 8 (by simp [h8])
  · exact hout (by simp [hF'])

end Kernel

end TitanOS
