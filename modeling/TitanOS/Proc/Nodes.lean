import TitanOS.Vmm.Frame
import TitanOS.Vmm.Registry

/-!
# The nodes that a call makes

Whatever state memory is in, a call of `alloc_pg_table` that uses no freed table again takes a node
from the heap.  With at most one freed table, no call puts an older node on a chain: a node is on a
chain when the call that takes it returns, or it never will be (`Made`).
-/

namespace TitanOS

open Linked

namespace Hashmap

/-- From `h` to `h'` nodes have been made, and of the chains only new nodes have come on. -/
structure Made (h h' : Hashmap) (L L' : ℕ → List ℕ) (F : List ℕ) : Prop where
  lists : h'.Lists L' F
  count : h.count ≤ h'.count
  next : ∀ i < h.count, (∀ b, i ∉ L b) → h'.next i = h.next i
  mem : ∀ b i, i ∈ L' b → (∃ c, i ∈ L c) ∨ h.count ≤ i

variable {h h₁ h₂ : Hashmap} {L L₁ L₂ : ℕ → List ℕ} {F : List ℕ} {v p : ℕ}

theorem Made.refl (hL : h.Lists L F) : Made h h L L F :=
  ⟨hL, le_rfl, fun _ _ _ => rfl, fun b _ hi => Or.inl ⟨b, hi⟩⟩

theorem Made.trans (m : Made h h₁ L L₁ F) (m' : Made h₁ h₂ L₁ L₂ F) : Made h h₂ L L₂ F where
  lists := m'.lists
  count := m.count.trans m'.count
  next i hi hout := by
    refine (m'.next i (hi.trans_le m.count) fun b hb => ?_).trans (m.next i hi hout)
    rcases m.mem b i hb with ⟨c, hc⟩ | hle
    · exact hout c hc
    · omega
  mem b i hi := by
    have := m.count
    rcases m'.mem b i hi with ⟨c, hc⟩ | hle
    · exact m.mem c i hc
    · exact Or.inr (by omega)

theorem made_newNode (hL : h.Lists L F) (v p : ℕ) : Made h (h.newNode v p) L L F where
  lists := hL.newNode v p
  count := Nat.le_succ _
  next _ hi _ := Function.update_of_ne hi.ne _ _
  mem b _ hi := Or.inl ⟨b, hi⟩

/-- Registering a node makes no other. -/
theorem count_pgTblInsert {node : ℕ} {r : Hashmap × Bool} (hr : h.pgTblInsert node = some r) :
    r.1.count = h.count := by
  unfold pgTblInsert at hr
  simp only at hr
  split at hr
  · obtain rfl := Option.some.inj hr
    rfl
  · split at hr
    · cases hr
    · obtain rfl := Option.some.inj hr
      rfl
    · obtain rfl := Option.some.inj hr
      rfl

/-- A node that was made before the others may join its chain after them. -/
theorem Made.insert {r : Hashmap × Bool} (hL : h.Lists L F)
    (m : Made (h.newNode v p) h₂ L L₂ F) (hr : h₂.pgTblInsert h.count = some r) :
    ∃ L', Made h r.1 L L' F := by
  have hlt : h.count < (h.newNode v p).count := Nat.lt_succ_self _
  have hfresh : ∀ b, h.count ∉ L b := fun b hb => (hL.home b _ hb).1.false
  have hout : ∀ b, h.count ∉ L₂ b := by
    intro b hb
    rcases m.mem b _ hb with ⟨c, hc⟩ | hle
    · exact hfresh c hc
    · omega
  have hlast : h₂.next h.count = none := by
    rw [m.next _ hlt hfresh]
    exact Function.update_self _ _ _
  have hm := (made_newNode hL v p).trans m
  rcases m.lists.pgTblInsert (hlt.trans_le m.count) hlast hout
    (fun hF => (hL.free_lt _ hF).false) with
    ⟨-, h', hins, hL', -, -, hc', -, hnext⟩ | ⟨d, -, hins⟩
  · rw [hins, Option.some.injEq] at hr
    subst hr
    refine ⟨_, hL', hc' ▸ hm.count, fun i hi hiL => ?_, fun b i hi => ?_⟩
    · rw [← hm.next i hi hiL]
      refine hnext i fun b hb => ?_
      rcases hm.mem b i hb with ⟨c, hc⟩ | hle
      · exact hiL c hc
      · omega
    · rcases mem_append_iff.1 hi with hi | ⟨rfl, -⟩
      · exact hm.mem b i hi
      · exact Or.inr le_rfl
  · rw [hins, Option.some.injEq] at hr
    subst hr
    exact ⟨L₂, ⟨hm.lists.chain, hm.lists.free, hm.lists.home, hm.lists.free_lt, hm.lists.disjoint⟩,
      hm.count, hm.next, hm.mem⟩

/-- **Registering the freed node that `get_freed_pg_tbl` returns.**  The node keeps its link, so that
the freed nodes behind it come on the chain with it, and it is returned again the next time. -/
theorem Lists.pgTblInsert_reused {i : ℕ} (hL : h.Lists L F) (hi : h.getFreedPgTbl = some i)
    (hreg : h.registered (h.ptPaddr i) = false) :
    ∃ h', h.pgTblInsert i = some (h', true) ∧ h'.getPtblVaddr (h.ptPaddr i) = some (h.ptVaddr i) ∧
      h'.getFreedPgTbl = some i ∧ h'.ptVaddr = h.ptVaddr := by
  obtain ⟨a, F', rfl, ha⟩ := hL.eq_cons_of_getFreedPgTbl hi
  have hfree : Path h.next h.tables ([a] ++ i :: F') := hL.free
  have hpath : Path h.next (some i) (i :: F') := ⟨rfl, hfree.suffix⟩
  have hmiss : ∀ j ∈ L (hashFunction (h.ptPaddr i)), h.ptPaddr j ≠ h.ptPaddr i := by
    intro j hj hji
    rw [hL.registered_iff.2 ⟨j, hj, hji⟩] at hreg
    cases hreg
  have hchain := hL.chain (hashFunction (h.ptPaddr i))
  cases hLb : L (hashFunction (h.ptPaddr i)) with
  | nil =>
    have hbucket := hL.bucket_eq (hashFunction (h.ptPaddr i))
    rw [hLb] at hbucket
    refine ⟨{ h with bucket := Function.update h.bucket (hashFunction (h.ptPaddr i)) (some i) }, ?_,
      ?_, hi, rfl⟩
    · simp only [Hashmap.pgTblInsert]
      rw [hbucket]
      rfl
    · simp [Hashmap.getPtblVaddr, search, Hashmap.fuel]
  | cons c l =>
    have hbucket := hL.bucket_eq (hashFunction (h.ptPaddr i))
    have hlen := hL.length_lt (hashFunction (h.ptPaddr i))
    rw [hLb] at hchain hbucket hlen hmiss
    have hscan := @scan_eq _ h.next c l (fun _ d => h.ptPaddr d == h.ptPaddr i) _ hchain.2
      (Nat.lt_of_succ_lt hlen)
    rcases scanList_hit (fun d => h.ptPaddr d == h.ptPaddr i) c l with
      ⟨-, l₁, e, hl, hres⟩ | ⟨l₁, d, e, l₂, hl, -, hfind, -⟩
    · rw [hl] at hchain hmiss
      have he : e ∈ L (hashFunction (h.ptPaddr i)) := by rw [hLb, hl]; simp
      have hnot : e ∉ a :: i :: F' := hL.disjoint _ e he
      have hspliced := hchain.splice hpath fun hin => hnot (List.mem_cons_of_mem a hin)
      refine ⟨{ h with next := Function.update h.next e (some i) }, ?_, ?_, ?_, rfl⟩
      · simp only [Hashmap.pgTblInsert]
        rw [hbucket]
        simp only [List.head?_cons, hscan, hres]
      · have hbound : ∀ j ∈ l₁ ++ e :: i :: F', j < h.count := by
          intro j hj
          rw [List.append_cons, ← hl, ← hLb] at hj
          rcases List.mem_append.1 hj with hj | hj
          · exact (hL.home _ j hj).1
          · exact hL.free_lt j (List.mem_cons_of_mem a hj)
        have hlt := length_lt_fuel hspliced.nodup hbound
        have hnone : (l₁ ++ [e]).find? (fun j => h.ptPaddr j == h.ptPaddr i) = none :=
          List.find?_eq_none.2 fun j hj => by simpa using hmiss j hj
        have hfound : search (Function.update h.next e (some i))
            (fun j => h.ptPaddr j == h.ptPaddr i) h.fuel
            (h.bucket (hashFunction (h.ptPaddr i))) = some (some i) := by
          rw [search_eq hspliced hlt, List.append_cons, List.find?_append, hnone,
            List.find?_cons_of_pos (by simp)]
          rfl
        rw [Hashmap.fuel] at hfound
        simp only [Hashmap.getPtblVaddr, Hashmap.fuel, hfound]
      · have hae : a ≠ e := fun hae => hnot (hae ▸ List.mem_cons_self)
        simp only [getFreedPgTbl, ha, Function.update_of_ne hae] at hi ⊢
        exact hi
    · have hmem := List.mem_of_find?_eq_some hfind
      have hkey := List.find?_some hfind
      exact absurd (by simpa using hkey) (hmiss e (List.mem_cons_of_mem c hmem))

end Hashmap

namespace Kernel

variable {k k' : Kernel} {L : ℕ → List ℕ} {F : List ℕ} {v : ℕ}

theorem Step.count_map (h : k.Step k') : k.map.count ≤ k'.map.count := by
  cases h with
  | mem mem => exact le_rfl
  | insert h => exact (Hashmap.count_pgTblInsert h).ge
  | table hfree hpage => exact Nat.le_succ _
  | noTable => exact Nat.le_succ _
  | frame => exact le_rfl
  | specificFrame p => exact le_rfl

theorem Steps.count_map (h : k.Steps k') : k.map.count ≤ k'.map.count := by
  induction h with
  | refl => exact le_rfl
  | tail _ hstep ih => exact ih.trans hstep.count_map

/-- **`alloc_pg_table`** takes a node from the heap unless it uses a freed one again. -/
theorem count_lt_allocPgTable (n : ℕ) {t : ℕ} (hfree : k.map.getFreedPgTbl = none)
    (h : k.allocPgTable (mmap n) = some (k', t)) : k.map.count < k'.map.count := by
  unfold allocPgTable at h
  rw [hfree] at h
  simp only at h
  split at h
  · simp only [Option.some.injEq, Prod.mk.injEq] at h
    rw [← h.1]
    exact Nat.lt_succ_self _
  · have hlt : k.map.count <
        (k.newTable k.pmm.pmmAllocPage.1 k.pmm.pmmAllocPage.2).map.count := Nat.lt_succ_self _
    split at h
    · cases h
    · rename_i k₁ hcall
      simp only [Option.some.injEq, Prod.mk.injEq] at h
      rw [← h.1]
      exact hlt.trans_le (steps_mmap n hcall).count_map
    · rename_i k₁ hcall
      exact hlt.trans_le ((steps_mmap n hcall).trans (steps_registerTable h)).count_map

/-- The calls of `mmap` make nodes. -/
def MmapMakes (F : List ℕ) (mmap : Kernel → ℕ → ℕ → ℕ → ℕ → Option (Kernel × Bool)) : Prop :=
  ∀ k L root paddr v flags k' b, k.map.Lists L F → mmap k root paddr v flags = some (k', b) →
    ∃ L', k.map.Made k'.map L L' F

theorem map_of_registerTable {node t : ℕ} (h : k.registerTable node = some (k', t)) :
    ∃ r, k.map.pgTblInsert node = some r ∧ k'.map = r.1 := by
  unfold registerTable clearPage at h
  simp only [Option.bind_eq_bind, Option.bind_eq_some_iff, Option.map_eq_some_iff,
    Option.some.injEq, Prod.mk.injEq] at h
  obtain ⟨_, ⟨f, -, rfl⟩, r, hr, rfl, -⟩ := h
  exact ⟨r, hr, rfl⟩

/-- **The nodes of `alloc_pg_table`.** -/
theorem made_allocPgTable {mmap : Kernel → ℕ → ℕ → ℕ → ℕ → Option (Kernel × Bool)} {t : ℕ}
    (hmmap : MmapMakes F mmap) (hF : F.length ≤ 1) (hL : k.map.Lists L F)
    (h : k.allocPgTable mmap = some (k', t)) : ∃ L', k.map.Made k'.map L L' F := by
  unfold allocPgTable at h
  rw [hL.getFreedPgTbl_eq_none hF] at h
  simp only at h
  split at h
  · simp only [Option.some.injEq, Prod.mk.injEq] at h
    rw [← h.1]
    exact ⟨L, Hashmap.made_newNode hL 0 0⟩
  · have hnew := Hashmap.made_newNode hL (k.growWindow.windowTop) k.pmm.pmmAllocPage.2
    split at h
    · cases h
    · rename_i k₁ hcall
      simp only [Option.some.injEq, Prod.mk.injEq] at h
      obtain ⟨L₁, hm⟩ := hmmap _ L _ _ _ _ _ _ hnew.lists hcall
      rw [← h.1]
      exact ⟨L₁, hnew.trans hm⟩
    · rename_i k₁ hcall
      obtain ⟨L₁, hm⟩ := hmmap _ L _ _ _ _ _ _ hnew.lists hcall
      obtain ⟨r, hr, hmap⟩ := map_of_registerTable h
      obtain ⟨L₂, hm₂⟩ := Hashmap.Made.insert hL hm hr
      rw [hmap]
      exact ⟨L₂, hm₂⟩

theorem made_descend {alloc : Kernel → Option (Kernel × ℕ)}
    (halloc : ∀ k L k' t, k.map.Lists L F → alloc k = some (k', t) →
      ∃ L', k.map.Made k'.map L L' F)
    (ls : List ℕ) {pt : ℕ} {r : Option ℕ} (hL : k.map.Lists L F)
    (h : descend alloc v ls k pt = some (k', r)) : ∃ L', k.map.Made k'.map L L' F := by
  induction ls generalizing k pt L with
  | nil =>
    simp only [descend, Option.some.injEq, Prod.mk.injEq] at h
    rw [← h.1]
    exact ⟨L, .refl hL⟩
  | cons l ls ih =>
    simp only [descend, Option.bind_eq_bind, Option.bind_eq_some_iff] at h
    obtain ⟨e, -, h⟩ := h
    split at h
    · obtain ⟨w, -, h⟩ := Option.bind_eq_some_iff.1 h
      split at h
      · simp only [Option.some.injEq, Prod.mk.injEq] at h
        rw [← h.1]
        exact ⟨L, .refl hL⟩
      · exact ih hL h
    · obtain ⟨⟨k₁, t⟩, hal, h⟩ := Option.bind_eq_some_iff.1 h
      obtain ⟨k₂, hst, h⟩ := Option.bind_eq_some_iff.1 h
      obtain ⟨w, -, h⟩ := Option.bind_eq_some_iff.1 h
      obtain ⟨L₁, hm⟩ := halloc k L k₁ t hL hal
      have hmap := map_of_store hst
      obtain ⟨L₂, hm₂⟩ := ih (hmap ▸ hm.lists) h
      rw [hmap] at hm₂
      exact ⟨L₂, hm.trans hm₂⟩

/-- **The nodes of `mmap`.** -/
theorem made_mmap (n : ℕ) (hF : F.length ≤ 1) : MmapMakes F (mmap n) := by
  induction n with
  | zero =>
    intro k L root paddr v flags k' b _ h
    cases h
  | succ n ih =>
    intro k L root paddr v flags k' b hL h
    rw [mmap] at h
    obtain ⟨⟨k₁, r⟩, hdesc, h⟩ := Option.bind_eq_some_iff.1 h
    obtain ⟨L₁, hm⟩ := made_descend (fun _ _ _ _ hL hal => made_allocPgTable ih hF hL hal) _ hL hdesc
    cases r with
    | none =>
      simp only [Option.some.injEq, Prod.mk.injEq] at h
      rw [← h.1]
      exact ⟨L₁, hm⟩
    | some pt =>
      obtain ⟨k₂, hst, h⟩ := Option.bind_eq_some_iff.1 h
      simp only [Option.some.injEq, Prod.mk.injEq] at h
      rw [← h.1, map_of_store hst]
      exact ⟨L₁, hm⟩

end Kernel

end TitanOS
