import TitanOS.Lib.Run
import TitanOS.Vmm.Boot
import TitanOS.Vmm.Events

/-!
# Who may access a mapped page

The processor grants an access if all four entries of the walk allow it: bit 2 for user mode, bit 1
for writing.  `mmap` sets both in every entry it writes, whatever the flags say, and the flags have
other positions: `VM_FLAG_USER` is bit 1 and `VM_FLAG_READ_WRITE` is bit 0.  So a page that should
be withheld is withheld only by an entry further up that was there before (`Denies`), such as the
one for the lower half of the space that the kernel starts in.
-/

namespace TitanOS

open Walk Linked

/-- Every entry along `p` from table `t` is present and has the bit set. -/
def Permits (mem : ℕ → Fin 512 → ℕ) (bit : ℕ) : ℕ → List (Fin 512) → Prop
  | _, [] => True
  | t, i :: p => mem t i % 2 = 1 ∧ (mem t i).testBit bit = true ∧
      Permits mem bit (pageAlignDown (mem t i)) p

/-- Some entry along `p` from table `t` is present and lacks the bit. -/
def Denies (mem : ℕ → Fin 512 → ℕ) (bit : ℕ) : ℕ → List (Fin 512) → Prop
  | _, [] => False
  | t, i :: p => mem t i % 2 = 1 ∧ ((mem t i).testBit bit = false ∨
      Denies mem bit (pageAlignDown (mem t i)) p)

instance (mem : ℕ → Fin 512 → ℕ) (bit : ℕ) : ∀ t p, Decidable (Permits mem bit t p)
  | _, [] => .isTrue trivial
  | t, i :: p =>
    have := instDecidablePermits mem bit (pageAlignDown (mem t i)) p
    inferInstanceAs (Decidable (_ ∧ _ ∧ _))

instance (mem : ℕ → Fin 512 → ℕ) (bit : ℕ) : ∀ t p, Decidable (Denies mem bit t p)
  | _, [] => .isFalse id
  | t, i :: p =>
    have := instDecidableDenies mem bit (pageAlignDown (mem t i)) p
    inferInstanceAs (Decidable (_ ∧ (_ ∨ _)))

/-- `VM_FLAG_READ_WRITE` is set. -/
def isReadWrite (flags : ℕ) : Bool := flags.testBit 0

/-- `VM_FLAG_USER` is set. -/
def isUser (flags : ℕ) : Bool := flags.testBit 1

section Walks

variable {mem mem' : ℕ → Fin 512 → ℕ} {bit t t' : ℕ} {p q : List (Fin 512)}

theorem not_permits_of_denies (h : Denies mem bit t p) : ¬ Permits mem bit t (p ++ q) := by
  induction p generalizing t with
  | nil => cases h
  | cons i p ih =>
    rintro ⟨-, hbit, hp⟩
    rcases h.2 with hlack | hrest
    · rw [hbit] at hlack
      cases hlack
    · exact ih hrest hp

/-- On a walk that is there, nothing is denied if and only if everything is permitted. -/
theorem permits_append_iff (h : follow (entry mem) t p = some t') :
    Permits mem bit t (p ++ q) ↔ ¬ Denies mem bit t p ∧ Permits mem bit t' q := by
  induction p generalizing t with
  | nil =>
    obtain rfl : t = t' := by simpa using h
    simp [Denies]
  | cons i p ih =>
    rw [follow_cons] at h
    obtain ⟨t₁, hi, h⟩ := Option.bind_eq_some_iff.1 h
    have hodd := entry_eq_some.1 hi
    simp only [List.cons_append, Permits, Denies, hodd, true_and, ih h]
    cases hbit : (mem t i).testBit bit <;> simp

/-- What is denied along `p` depends on the entries along `p` only. -/
theorem denies_congr (h : ∀ p₁ i p₂, p = p₁ ++ i :: p₂ → ∀ b, follow (entry mem) t p₁ = some b →
    mem' b i = mem b i) : Denies mem' bit t p ↔ Denies mem bit t p := by
  induction p generalizing t with
  | nil => rfl
  | cons i p ih =>
    have hi : mem' t i = mem t i := h [] i p rfl t rfl
    simp only [Denies, hi]
    refine and_congr_right fun hodd => or_congr_right (ih fun p₁ j p₂ hp b hb => ?_)
    refine h (i :: p₁) j p₂ (by rw [hp]; rfl) b ?_
    rw [follow_cons, entry, if_pos hodd]
    exact hb

end Walks

namespace Kernel

variable {k k' : Kernel} {R : ℕ → Prop} {C : List (Fin 512) → Prop} {r t v flags : ℕ}

/-- User mode may access the page of `v` in the space with root `r`. -/
def UserAccess (k : Kernel) (r v : ℕ) : Prop := Permits k.mem 2 r (indices v)

/-- The page of `v` may be written in the space with root `r`. -/
def WriteAccess (k : Kernel) (r v : ℕ) : Prop := Permits k.mem 1 r (indices v)

/-- The space `r` reaches the page of `v` through the same table as the current space. -/
def Shares (k : Kernel) (r v : ℕ) : Prop :=
  follow (entry k.mem) r (tableIndices v) = follow (entry k.mem) k.cr3 (tableIndices v)

/-- A page mapped with these flags is withheld as they say, in every space. -/
def Withheld (k : Kernel) (R : ℕ → Prop) (v flags : ℕ) : Prop :=
  ∀ r, R r → k.Shares r v → (isUser flags = false → ¬ k.UserAccess r v) ∧
    (isReadWrite flags = false → ¬ k.WriteAccess r v)

/-- What the flags withhold is denied further up. -/
def Guarded (k : Kernel) (R : ℕ → Prop) (v flags : ℕ) : Prop :=
  ∀ r, R r → k.Shares r v →
    (isUser flags = false → Denies k.mem 2 r (tableIndices v)) ∧
    (isReadWrite flags = false → Denies k.mem 1 r (tableIndices v))

theorem Guarded.withheld (h : k.Guarded R v flags) : k.Withheld R v flags := fun r hr hs =>
  ⟨fun hf => not_permits_of_denies ((h r hr hs).1 hf),
    fun hf => not_permits_of_denies ((h r hr hs).2 hf)⟩

/-- The tables of the spaces `R` can be walked by `mmap`. -/
structure Walkable (k : Kernel) (R : ℕ → Prop) (C : List (Fin 512) → Prop) : Prop where
  root : R k.cr3
  forest : Forest (entry k.mem) R 3 C
  registered : k.Registered R
  current : k.map.getPtblVaddr k.cr3 = some k.currentPml4tPtr
  lists : ∃ L F, k.map.Lists L F

/-- The upper tables are the same. -/
structure SameTables (k k' : Kernel) (R : ℕ → Prop) : Prop where
  cr3 : k'.cr3 = k.cr3
  follow : Same (entry k.mem) (entry k'.mem) R 3
  denies : ∀ r bit v, R r →
    (Denies k'.mem bit r (tableIndices v) ↔ Denies k.mem bit r (tableIndices v))

theorem SameTables.refl (k : Kernel) (R : ℕ → Prop) : k.SameTables k R :=
  ⟨rfl, fun _ _ _ _ => rfl, fun _ _ _ _ => Iff.rfl⟩

theorem SameTables.trans {k₁ : Kernel} (h : k.SameTables k₁ R) (h' : k₁.SameTables k' R) :
    k.SameTables k' R :=
  ⟨h'.cr3.trans h.cr3, h.follow.trans h'.follow,
    fun r bit v hr => (h'.denies r bit v hr).trans (h.denies r bit v hr)⟩

theorem SameTables.guarded (h : k.SameTables k' R) (hroot : R k.cr3) :
    k'.Guarded R v flags ↔ k.Guarded R v flags := by
  have hlen : (tableIndices v).length ≤ 3 := le_rfl
  refine forall_congr' fun r => forall_congr' fun hr => ?_
  rw [Shares, Shares, h.cr3, h.follow r _ hr hlen, h.follow k.cr3 _ hroot hlen,
    h.denies r 2 v hr, h.denies r 1 v hr]

/-! ### Mapping a page -/

/-- The page of `v` can be mapped without creating a table and without hiding one, and what the
flags withhold is denied further up. -/
structure Fits (k : Kernel) (R : ℕ → Prop) (v flags : ℕ) : Prop where
  table : ∃ t, follow (entry k.mem) k.cr3 (tableIndices v) = some t
  free : ¬ k.TableAt v
  guarded : k.Guarded R v flags

/-- Setting the entry of a page leaves the upper tables as they are. -/
theorem Walkable.writeEntry (h : k.Walkable R C) (hr : R r)
    (ht : follow (entry k.mem) r (tableIndices v) = some t) (hv : ¬ k.TableAt v) (e : ℕ) :
    ({ k with mem := writeEntry k.mem t (getIndex v 0) e } : Kernel).Walkable R C ∧
      k.SameTables { k with mem := TitanOS.writeEntry k.mem t (getIndex v 0) e } R := by
  have hred : Redirect (entry k.mem) (entry (TitanOS.writeEntry k.mem t (getIndex v 0) e)) t
      (getIndex v 0) := redirect_writeEntry
  have hsame := hred.same h.forest hr rfl ht
  refine ⟨⟨h.root, hsame.forest h.forest, fun a ha => ?_, h.current, h.lists⟩, rfl, hsame,
    fun s bit u hs => denies_congr fun p₁ i p₂ hp b hb => ?_⟩
  · obtain ⟨w, hw, hw0, hacc⟩ := h.registered a (hsame.reach_iff.1 ha)
    refine ⟨w, hw, hw0, hacc.writeEntry h.forest h.root hr ht e fun he => hv ?_⟩
    obtain ⟨L, F, hL⟩ := h.lists
    obtain ⟨j, hj, rfl⟩ := hL.exists_node hw hw0
    exact ⟨j, hj, he⟩
  · -- the table of a page is not a table further up
    have hne : b ≠ t := by
      rintro rfl
      have hlen := congrArg List.length hp
      simp only [tableIndices, List.length_append, List.length_cons, List.length_nil] at hlen
      obtain ⟨rfl, -⟩ := h.forest s r p₁ (tableIndices v) b hs hr (by omega) le_rfl hb ht
      simp [tableIndices] at hlen
    simp [TitanOS.writeEntry, Function.update_of_ne hne]

theorem Walkable.accesses_current (h : k.Walkable R C) : k.Accesses k.currentPml4tPtr k.cr3 := by
  obtain ⟨w, hw, -, hacc⟩ := h.registered _ (reach_root h.root)
  rw [h.current, Option.some.injEq] at hw
  rwa [hw]

/-- **`mmap`** of a page whose table is there sets its entry to `paddr | flags | 7`. -/
theorem Walkable.mmap (h : k.Walkable R C)
    (ht : follow (entry k.mem) k.cr3 (tableIndices v) = some t) (hv : ¬ k.TableAt v)
    (n paddr flags : ℕ) :
    ∃ k', Kernel.mmap (n + 1) k k.currentPml4tPtr paddr v flags = some (k', true) ∧
      mmapEvents (n + 1) k k.currentPml4tPtr paddr v flags =
        [.write (paddr ||| flags ||| 7), .map v flags] ∧
      k' = { k with mem := TitanOS.writeEntry k.mem t (getIndex v 0) (paddr ||| flags ||| 7) } ∧
      k'.Walkable R C ∧ k.SameTables k' R := by
  obtain ⟨hW, hS⟩ := h.writeEntry h.root ht hv (paddr ||| flags ||| 7)
  exact ⟨_, mmap_present n paddr flags h.registered h.root h.accesses_current ht,
    mmapEvents_present n paddr flags h.registered h.root h.accesses_current ht, rfl, hW, hS⟩

/-- What the walks depend on. -/
theorem Walkable.with (h : k.Walkable R C) (pmm : Pmm) (regions : Regions) :
    ({ k with pmm := pmm, regions := regions } : Kernel).Walkable R C ∧
      k.SameTables { k with pmm := pmm, regions := regions } R :=
  ⟨⟨h.root, h.forest, h.registered, h.current, h.lists⟩, rfl, fun _ _ _ _ => rfl,
    fun _ _ _ _ => Iff.rfl⟩

/-! ### The loops -/

/-- The page of `v` can be mapped without creating a table and without hiding one. -/
structure Present (k : Kernel) (v : ℕ) : Prop where
  table : ∃ t, follow (entry k.mem) k.cr3 (tableIndices v) = some t
  free : ¬ k.TableAt v

theorem Present.congr (h : k.Present v) (hs : k.SameTables k' R) (hmap : k'.map = k.map)
    (hroot : R k.cr3) : k'.Present v := by
  obtain ⟨t, ht⟩ := h.table
  refine ⟨⟨t, ?_⟩, ?_⟩
  · rw [hs.cr3, hs.follow k.cr3 _ hroot le_rfl, ht]
  · rw [TableAt, hmap]
    exact h.free

/-- The pages that the loop of `vmm_lengthen` with the given end gets to. -/
def newPages (stop : ℕ) : ℕ → ℕ → List ℕ
  | 0, _ => []
  | n + 1, v => if v < stop then v :: newPages stop n ((v + 0x1000) % 2 ^ 64) else []

/-- What mapping some pages leaves behind if their tables are there. -/
structure Maps (k k' : Kernel) (R : ℕ → Prop) (C : List (Fin 512) → Prop) (pages : List ℕ) :
    Prop where
  walkable : k'.Walkable R C
  same : k.SameTables k' R
  currentVmm : k'.currentVmm = k.currentVmm
  map : k'.map = k.map
  regions : k'.regions = k.regions
  mapped : ∀ u ∈ pages, translate k'.mem k.cr3 u ≠ none
  kept : ∀ u, translate k.mem k.cr3 u ≠ none → translate k'.mem k.cr3 u ≠ none

theorem Maps.refl (h : k.Walkable R C) : k.Maps k R C [] :=
  ⟨h, .refl k R, rfl, rfl, rfl, nofun, fun _ hu => hu⟩

theorem Maps.trans {k₁ : Kernel} {a b : List ℕ} (h : k.Maps k₁ R C a) (h' : k₁.Maps k' R C b) :
    k.Maps k' R C (a ++ b) := by
  have hmapped := h'.mapped
  have hkept := h'.kept
  rw [h.same.cr3] at hmapped hkept
  refine ⟨h'.walkable, h.same.trans h'.same, h'.currentVmm.trans h.currentVmm, h'.map.trans h.map,
    h'.regions.trans h.regions, fun u hu => ?_, fun u hu => hkept u (h.kept u hu)⟩
  rcases List.mem_append.1 hu with hu | hu
  · exact hkept u (h.mapped u hu)
  · exact hmapped u hu

/-- One page of either loop. -/
theorem Present.mmap (h : k.Walkable R C) (hp : k.Present v) (n paddr flags : ℕ) (pmm : Pmm) :
    ∃ k', Kernel.mmap (n + 1) { k with pmm := pmm } k.currentPml4tPtr paddr v flags =
        some (k', true) ∧ k.Maps k' R C [v] ∧
      mmapEvents (n + 1) { k with pmm := pmm } k.currentPml4tPtr paddr v flags =
        [.write (paddr ||| flags ||| 7), .map v flags] := by
  obtain ⟨hW, hS⟩ := h.with pmm k.regions
  obtain ⟨t, ht⟩ := hp.table
  obtain ⟨k', hmmap, hev, hk', hW', hS'⟩ := hW.mmap ht hp.free n paddr flags
  have hred : Redirect (entry k.mem) (entry k'.mem) t (getIndex v 0) := by
    rw [hk']
    exact redirect_writeEntry
  have hself : translate k'.mem k.cr3 v ≠ none := by
    rw [translate, indices_eq, hred.follow_self h.forest h.root rfl ht, hk', entry_writeEntry_self,
      if_pos (lor_seven_mod_two _)]
    simp
  refine ⟨k', hmmap, ⟨hW', hS.trans hS', by rw [hk'], by rw [hk'], by rw [hk'], ?_, ?_⟩, hev⟩
  · simpa using hself
  · intro u hu
    by_cases hpage : page u = page v
    · rwa [translate_congr hpage]
    · rwa [translate, hred.follow_of_ne h.forest h.root rfl ht h.root rfl fun he => hpage
        (indices_eq_iff.1 (he.trans (indices_eq v).symm))]

theorem maps_append (a b : List Event) : Event.maps (a ++ b) = Event.maps a ++ Event.maps b :=
  List.filterMap_append

/-- **The loop of `vmm_alloc`** over pages whose tables are there. -/
theorem Walkable.mapPages (n m : ℕ) {args : ℕ} (h : k.Walkable R C)
    (hp : ∀ u ∈ pagesFrom m v, k.Present u) :
    ∃ k', Kernel.mapPages (n + 1) flags m k v args = some (k', true) ∧
      k.Maps k' R C (pagesFrom m v) ∧
      Event.maps (mapPagesEvents (n + 1) flags m k v args) =
        (pagesFrom m v).map fun u => (u, flags) := by
  induction m generalizing k v args with
  | zero => exact ⟨k, rfl, .refl h, rfl⟩
  | succ m ih =>
    obtain ⟨pmm, hpmm, -⟩ := k.takeFrame_eq args
    obtain ⟨k₁, hmmap, hM, hev⟩ := (hp v List.mem_cons_self).mmap h n (k.takeFrame args).2 flags pmm
    obtain ⟨k', hmap', hM', hev'⟩ := @ih k₁ ((v + 0x1000) % 2 ^ 64)
      (if args ≠ 0 then (args + 0x1000) % 2 ^ 64 else 0) hM.walkable
      fun u hu => (hp u (List.mem_cons_of_mem v hu)).congr hM.same hM.map h.root
    refine ⟨k', ?_, hM.trans hM', ?_⟩
    · rw [mapPages_succ, hpmm, hmmap, Option.bind_some, if_pos rfl, hmap']
    · rw [mapPagesEvents]
      simp only [hpmm, hmmap, hev, maps_append, hev']
      split_ifs <;> rfl

/-- **The loop of `vmm_lengthen`** over pages whose tables are there. -/
theorem Walkable.lengthenPages (n m : ℕ) {c stop : ℕ} (h : k.Walkable R C)
    (hmmio : isMmio (k.regions.flags c) = false)
    (hstop : (k.regions.base c + k.regions.length c) % 2 ^ 64 = stop)
    (hp : ∀ u ∈ newPages stop m v, k.Present u)
    {x : Kernel × Bool} (hx : Kernel.lengthenPages (n + 1) m k c v = some x) :
    k.Maps x.1 R C (newPages stop m v) ∧
      Event.maps (lengthenPagesEvents (n + 1) m k c v) =
        (newPages stop m v).map (fun u => (u, k.regions.flags c)) ∧
      ∀ j, newPages stop (m + j) v = newPages stop m v := by
  induction m generalizing k v with
  | zero => cases hx
  | succ m ih =>
    rw [Kernel.lengthenPages, hstop] at hx
    rw [lengthenPagesEvents, hstop]
    by_cases hv : v < stop
    · rw [newPages, if_pos hv] at hp ⊢
      simp only [if_pos hv, hmmio, Bool.false_eq_true, if_false] at hx ⊢
      obtain ⟨k₁, hmmap, hM, hev⟩ := (hp v List.mem_cons_self).mmap h n k.pmm.pmmAllocPage.2
        (k.regions.flags c) k.pmm.pmmAllocPage.1
      simp only [hmmap, Option.bind_eq_bind, Option.bind_some, if_true] at hx
      have hih := @ih k₁ ((v + 0x1000) % 2 ^ 64) hM.walkable
      rw [hM.regions] at hih
      obtain ⟨hM', hev', hfuel⟩ := hih hmmio hstop (fun u hu =>
        (hp u (List.mem_cons_of_mem v hu)).congr hM.same hM.map h.root) hx
      refine ⟨hM.trans hM', ?_, fun j => ?_⟩
      · simp only [takeFrame, ne_eq, not_true_eq_false, if_false, hmmap, hev, List.map_cons, ← hev']
        rfl
      · rw [Nat.add_right_comm, newPages, if_pos hv, hfuel]
    · rw [newPages, if_neg hv]
      rw [if_neg hv] at hx ⊢
      obtain rfl := Option.some.inj hx
      exact ⟨.refl h, rfl, fun j => by rw [Nat.add_right_comm, newPages, if_neg hv]⟩

/-- A region of device memory is not lengthened. -/
theorem lengthenPages_mmio {fuel m c : ℕ} {x : Kernel × Bool}
    (hx : Kernel.lengthenPages fuel m k c v = some x) (hmmio : isMmio (k.regions.flags c) = true) :
    x.1 = k ∧ lengthenPagesEvents fuel m k c v = [] := by
  cases m with
  | zero => cases hx
  | succ m =>
    rw [Kernel.lengthenPages, if_pos hmmio] at hx
    rw [lengthenPagesEvents, if_pos hmmio, ite_self]
    split at hx <;> exact ⟨(congrArg Prod.fst (Option.some.inj hx)).symm, rfl⟩

theorem Fits.present (h : k.Fits R v flags) : k.Present v := ⟨h.table, h.free⟩

/-- The loop of `vmm_alloc` gets to pages that fit only. -/
def PagesFit (k : Kernel) (R : ℕ → Prop) (flags : ℕ) : ℕ → ℕ → Prop
  | 0, _ => True
  | n + 1, v => k.Fits R v flags ∧ PagesFit k R flags n ((v + 0x1000) % 2 ^ 64)

/-- The loop of `vmm_lengthen` with the given end gets to pages that fit only. -/
def NewPagesFit (k : Kernel) (R : ℕ → Prop) (flags stop : ℕ) : ℕ → ℕ → Prop
  | 0, _ => True
  | n + 1, v => v < stop → k.Fits R v flags ∧ NewPagesFit k R flags stop n ((v + 0x1000) % 2 ^ 64)

theorem PagesFit.fits {n u : ℕ} (h : k.PagesFit R flags n v) (hu : u ∈ pagesFrom n v) :
    k.Fits R u flags := by
  induction n generalizing v with
  | zero => cases hu
  | succ n ih =>
    rcases List.mem_cons.1 hu with rfl | hu
    · exact h.1
    · exact ih h.2 hu

theorem NewPagesFit.fits {n stop u : ℕ} (h : k.NewPagesFit R flags stop n v)
    (hu : u ∈ newPages stop n v) : k.Fits R u flags := by
  induction n generalizing v with
  | zero => cases hu
  | succ n ih =>
    rw [newPages] at hu
    split at hu
    next hv =>
      rcases List.mem_cons.1 hu with rfl | hu
      · exact (h hv).1
      · exact ih (h hv).2 hu
    next => cases hu

/-- What a call that maps pages leaves behind: the upper tables are the same, and what the flags of
the new pages withhold is denied there. -/
structure MapsGuarded (k k' : Kernel) (R : ℕ → Prop) (C : List (Fin 512) → Prop)
    (maps : List (ℕ × ℕ)) : Prop where
  walkable : k'.Walkable R C
  same : k.SameTables k' R
  guarded : ∀ x ∈ maps, k.Guarded R x.1 x.2

theorem MapsGuarded.refl (h : k.Walkable R C) : k.MapsGuarded k R C [] := ⟨h, .refl k R, nofun⟩

/-- Pages that fit are guarded, whatever else the state consists of. -/
theorem Maps.guarded {k₀ : Kernel} {pages : List ℕ} {maps : List (ℕ × ℕ)} (h : k.Maps k' R C pages)
    (hs : k₀.SameTables k R) (hmaps : maps = pages.map fun u => (u, flags))
    (hf : ∀ u ∈ pages, k₀.Fits R u flags) : k₀.MapsGuarded k' R C maps := by
  refine ⟨h.walkable, hs.trans h.same, fun x hx => ?_⟩
  rw [hmaps] at hx
  obtain ⟨u, hu, rfl⟩ := List.mem_map.1 hx
  exact (hf u hu).guarded

/-! ### Runs -/

/-- The call maps pages that fit only, and creates no table. -/
def MapOp.Fitting (fuel : ℕ) (R : ℕ → Prop) (k : Kernel) : MapOp → Prop
  | .mmap _ v flags => k.Fits R v flags
  | .vmmAlloc start length flags _ => ∀ c found,
    findPlace k.regions k.currentVmm (pageAlignDown start) (pageAlign length) =
      some (some (c, found)) →
    k.PagesFit R flags ((pageAlign length + 0xfff) % 2 ^ 64 / 0x1000) found
  | .vmmLengthen start inc => ∀ c length, k.lengthened start inc = some (c, length) →
    isMmio (k.regions.flags c) = false →
    k.NewPagesFit R (k.regions.flags c) ((k.regions.base c + length) % 2 ^ 64) fuel
      ((k.regions.base c + k.regions.length c) % 2 ^ 64)
  | .allocPgTable => k.map.getFreedPgTbl = none ∧ k.pmm.firstFree = none

/-- One call. -/
theorem MapOp.Fitting.call {n : ℕ} {o : MapOp} (h : k.Walkable R C)
    (hf : o.Fitting (n + 1) R k) {x : Kernel × Bool} (hx : o.call (n + 1) k = some x) :
    k.MapsGuarded x.1 R C (Event.maps (o.events (n + 1) k)) := by
  cases o with
  | mmap paddr v flags =>
    obtain ⟨k', hmmap, hM, hev⟩ := hf.present.mmap h n paddr flags k.pmm
    obtain rfl := Option.some.inj (hmmap.symm.trans hx)
    have hmaps : Event.maps (MapOp.events (n + 1) k (.mmap paddr v flags)) = [(v, flags)] :=
      congrArg Event.maps hev
    exact hM.guarded (.refl k R) hmaps fun u hu => List.mem_singleton.1 hu ▸ hf
  | vmmAlloc start length flags args =>
    obtain ⟨y, hy, rfl⟩ := Option.map_eq_some_iff.1 hx
    rcases vmmAlloc_cases hy with ⟨hfind, rfl⟩ | ⟨c, found, k', ok, hfind, hmap, rfl⟩
    · simp only [MapOp.events, vmmAllocEvents, hfind]
      exact .refl h
    · obtain ⟨hW, hS⟩ := h.with k.pmm (insertRegion k.regions c found (pageAlign length) flags)
      have hfits := fun u hu => PagesFit.fits (hf c found hfind) (u := u) hu
      obtain ⟨k'', hmap', hM, hev⟩ := hW.mapPages n _ fun u hu =>
        (hfits u hu).present.congr hS rfl h.root
      obtain ⟨rfl, -⟩ := Prod.mk.inj (Option.some.inj (hmap'.symm.trans hmap))
      simp only [MapOp.events, vmmAllocEvents, hfind]
      exact hM.guarded hS hev hfits
  | vmmLengthen start inc =>
    rcases vmmLengthen_cases hx with ⟨hfind, rfl⟩ | ⟨c, length, hfind, hpages⟩
    · simp only [MapOp.events, vmmLengthenEvents, hfind]
      exact .refl h
    · obtain ⟨hW, hS⟩ := h.with k.pmm
        { k.regions with length := Function.update k.regions.length c length }
      simp only [MapOp.events, vmmLengthenEvents, hfind]
      cases hmmio : isMmio (k.regions.flags c) with
      | true =>
        obtain ⟨hk, hev⟩ := lengthenPages_mmio hpages hmmio
        rw [hk, hev]
        exact ⟨hW, hS, nofun⟩
      | false =>
        have hfits := fun u hu => NewPagesFit.fits (hf c length hfind hmmio) (u := u) hu
        obtain ⟨hM, hev, -⟩ := hW.lengthenPages n (n + 1) hmmio
          (by simp only [Function.update_self])
          (fun u hu => (hfits u hu).present.congr hS rfl h.root) hpages
        exact hM.guarded hS hev hfits
  | allocPgTable =>
    obtain ⟨hfree, hnone⟩ := hf
    have hpage : k.pmm.pmmAllocPage = (k.pmm, 0) := by rw [Pmm.pmmAllocPage_eq, hnone]
    obtain ⟨y, hy, rfl⟩ := Option.map_eq_some_iff.1 hx
    simp only [Kernel.allocPgTable, hfree, hpage, if_true, Option.some.injEq] at hy
    subst hy
    obtain ⟨L, F, hL⟩ := h.lists
    refine ⟨⟨h.root, h.forest, fun t ht => ?_, ?_, L, F, hL.newNode 0 0⟩,
      ⟨rfl, fun _ _ _ _ => rfl, fun _ _ _ _ => Iff.rfl⟩, ?_⟩
    · obtain ⟨w, hw, hw0, hacc⟩ := h.registered t ht
      exact ⟨w, (hL.getPtblVaddr_newNode 0 0 t).trans hw, hw0, hacc⟩
    · exact (hL.getPtblVaddr_newNode 0 0 k.cr3).trans h.current
    · simp [MapOp.events, allocPgTableEvents, hfree, hpage, Event.maps]

/-- Mapping a page whose table is there withholds what the flags say if and only if it is denied
further up. -/
theorem withheld_mmap_iff (h : k.Walkable R C)
    (ht : follow (entry k.mem) k.cr3 (tableIndices v) = some t) (hv : ¬ k.TableAt v)
    (n paddr flags : ℕ) :
    ∃ k', Kernel.mmap (n + 1) k k.currentPml4tPtr paddr v flags = some (k', true) ∧
      (k'.Withheld R v flags ↔ k.Guarded R v flags) := by
  obtain ⟨k', hmmap, -, hk', -, hS⟩ := h.mmap ht hv n paddr flags
  refine ⟨k', hmmap, fun hw => ?_, fun hg => ((hS.guarded h.root).2 hg).withheld⟩
  rw [← hS.guarded h.root]
  intro r hr hs
  have hroot : follow (entry k'.mem) k'.cr3 (tableIndices v) = some t := by
    rw [hS.cr3, hS.follow k.cr3 _ h.root le_rfl, ht]
  have hleaf : k'.mem t (getIndex v 0) = paddr ||| flags ||| 7 := by
    rw [hk']
    simp [TitanOS.writeEntry]
  -- the entry of the page permits everything
  have hpermits : ∀ bit, bit = 1 ∨ bit = 2 → ¬ Permits k'.mem bit r (indices v) →
      Denies k'.mem bit r (tableIndices v) := by
    intro bit hbit hnot
    rw [indices_eq, permits_append_iff (hs.trans hroot), not_and_or, not_not] at hnot
    refine hnot.resolve_right fun hlast => hlast ⟨?_, ?_, trivial⟩
    · rw [hleaf]
      exact lor_seven_mod_two _
    · rw [hleaf, Nat.testBit_or]
      rcases hbit with rfl | rfl <;> simp [show Nat.testBit 7 1 = true from rfl,
        show Nat.testBit 7 2 = true from rfl]
  exact ⟨fun hf => hpermits 2 (Or.inr rfl) ((hw r hr hs).1 hf),
    fun hf => hpermits 1 (Or.inl rfl) ((hw r hr hs).2 hf)⟩

/-- **Pages are withheld only where they are denied further up.**  In a run in which that is so for
every page that is mapped, and in which no table is created, every page mapped is withheld as its
flags say; and mapping a page for which it is not so exposes the page. -/
theorem withheld_when_denied (n : ℕ) (k : Kernel) (R : ℕ → Prop) (C : List (Fin 512) → Prop)
    (h : k.Walkable R C) :
    (∀ os, Run.Along (MapOp.step (n + 1)) (fun x o => o.Fitting (n + 1) R x.1) (k, []) os →
      Run.Always (MapOp.step (n + 1)) (fun x => ∀ y ∈ x.2, x.1.Withheld R y.1 y.2) (k, []) os) ∧
    ∀ t paddr v flags, follow (entry k.mem) k.cr3 (tableIndices v) = some t → ¬ k.TableAt v →
      ∃ k', Kernel.mmap (n + 1) k k.currentPml4tPtr paddr v flags = some (k', true) ∧
        (k'.Withheld R v flags ↔ k.Guarded R v flags) := by
  refine ⟨fun os hos => ?_, fun t paddr v flags ht hv => withheld_mmap_iff h ht hv n paddr flags⟩
  refine Run.Always.of_inv
    (I := fun x => x.1.Walkable R C ∧ ∀ y ∈ x.2, x.1.Guarded R y.1 y.2)
    (fun x hx y hy => (hx.2 y hy).withheld) (fun x o x' hx hf hstep => ?_) ⟨h, nofun⟩ hos
  obtain ⟨y, hy, rfl⟩ := Option.map_eq_some_iff.1 hstep
  have hG := MapOp.Fitting.call hx.1 hf hy
  refine ⟨hG.walkable, fun z hz => (hG.same.guarded hx.1.root).2 ?_⟩
  rcases List.mem_append.1 hz with hz | hz
  · exact hx.2 z hz
  · exact hG.guarded z hz

theorem Tables.walkable (h : k.Tables R C) : k.Walkable R C := by
  obtain ⟨L, hL⟩ := h.lists
  exact ⟨h.root, h.forest, h.accessible.registered, h.current, L, [], hL⟩

/-- A page of the lower half of the first space is withheld from user mode. -/
theorem withheld_when_denied_lower :
    Run.Always (MapOp.step 4) (fun x => ∀ y ∈ x.2, x.1.Withheld (fun r => r = 0x111000) y.1 y.2)
      (boot, []) [.vmmAlloc 0x150000 0x1000 1 0] := by
  refine (withheld_when_denied 3 boot (fun r => r = 0x111000) (fun _ => True)
    (boot_tables (fun _ => Iff.rfl) _).walkable).1 _ ⟨fun c found hfind => ?_, fun _ _ => trivial⟩
  have hplace : findPlace boot.regions boot.currentVmm (pageAlignDown 0x150000)
      (pageAlign 0x1000) = some (some (4, 0x150000)) := by decide +kernel
  obtain ⟨rfl, rfl⟩ := Prod.mk.inj (Option.some.inj (Option.some.inj (hplace.symm.trans hfind)))
  refine ⟨⟨⟨0x117000, by decide +kernel⟩, by decide +kernel, ?_⟩, trivial⟩
  rintro r rfl -
  exact ⟨fun _ => by decide +kernel, nofun⟩

/-- The page of a kernel stack can be accessed from user mode, and a page without flags can be
written. -/
theorem kernel_page_exposed :
    (∃ x ∈ vmmAlloc 4 boot 0xffffff80002fb000 0x2000 1 0, x.2 ≠ 0 ∧ isUser 1 = false ∧
      x.1.UserAccess x.1.cr3 0xffffff80002fb000) ∧
    ∃ x ∈ vmmAlloc 4 boot 0xffffff80002fb000 0x2000 0 0, x.2 ≠ 0 ∧ isReadWrite 0 = false ∧
      x.1.WriteAccess x.1.cr3 0xffffff80002fb000 := by
  unfold UserAccess WriteAccess
  decide +kernel

end Kernel

end TitanOS
