import TitanOS.Fs.Elf
import TitanOS.Vmm.Data

/-!
# The image that `load_elf` builds

`load_elf` in the memory of a process: its segments go to pages that `vmm_alloc` maps in the current
space, and the file is in the initramfs, which is mapped in the same space.

If there are frames and page tables for all segments, and the segments lie on pages of their own,
then `load_elf` comes to its end, each segment has the bytes of the file, and neither the file nor
other data has changed (`image_loaded`).  What the segments have beyond the bytes of the file, their
`.bss`, is not cleared: it is what was in the frames before.
-/

namespace TitanOS

open Tar LittleEndian

/-- The memory of a process.  `vmm_alloc` is asked for `VM_FLAG_READ_WRITE | VM_FLAG_USER`, and a
null answer is a panic. -/
def Kernel.memory (fuel : ℕ) : Elf.Memory Kernel where
  byte := Kernel.byte
  vmmAlloc k start length := (k.vmmAlloc fuel start length 3 0).bind fun x =>
    if x.2 = 0 then none else some x.1
  memcpy := Kernel.memcpy

namespace Elf

/-- The pages of the segment of a program header. -/
def segmentPages (phdr : List UInt8) : List ℕ :=
  if pType phdr = ptLoad then pagesOf (pageAlignDown (pVaddr phdr)) (pageAlign (pMemsz phdr)) else []

/-- Program header `i` of the file at `fileBuffer`. -/
def header (mem : ℕ → UInt8) (fileBuffer phoff i : ℕ) : List UInt8 :=
  (List.range phdrSize).map fun j => mem (fileBuffer + (phoff + phdrSize * i) + j)

/-- The pages of the segments of `n` headers from `i` on. -/
def imagePages (mem : ℕ → UInt8) (fileBuffer phoff i n : ℕ) : List ℕ :=
  (List.range' i n).flatMap fun i => segmentPages (header mem fileBuffer phoff i)

/-- The file has `size` bytes, in which its headers and segments lie, and each segment fits into
the pages that are mapped for it. -/
structure Loadable (k : Kernel) (D : Set ℕ) (fileBuffer phoff n size : ℕ) : Prop where
  size_lt : size < 2 ^ 31
  file : ∀ j < size, fileBuffer + j ∈ D
  headers : phoff + phdrSize * n ≤ size
  segments : ∀ i < n, ∀ phdr, phdr = header k.byte fileBuffer phoff i → pType phdr = ptLoad →
    0x1000 ≤ pVaddr phdr ∧ 0 < pMemsz phdr ∧ pMemsz phdr ≤ 2 ^ 47 ∧
      pVaddr phdr % 0x1000 + pFilesz phdr ≤ pageAlign (pMemsz phdr) ∧
      pOffset phdr + pFilesz phdr ≤ size

/-- The segment of a program header is in memory: the bytes of the file, and the rest of its pages as
it was. -/
structure Holds (k k' : Kernel) (fileBuffer : ℕ) (phdr : List UInt8) : Prop where
  file : ∀ j < pFilesz phdr, k'.place (pVaddr phdr + j) ≠ none ∧
    k'.byte (pVaddr phdr + j) = k.byte (fileBuffer + (pOffset phdr + j))
  rest : ∀ u ∈ onPages (segmentPages phdr), ¬ (pVaddr phdr ≤ u ∧ u < pVaddr phdr + pFilesz phdr) →
    ∃ p, k'.place u = some p ∧ k'.byte u = ram k.mem p

end Elf

namespace Kernel

variable {k k₁ k' : Kernel} {R : ℕ → Prop} {C : List (Fin 512) → Prop} {D : Set ℕ} {P : List ℕ}
  {u start length : ℕ} {bs : List UInt8}

/-! ### One segment -/

/-- The addresses of a request are on its pages. -/
theorem mem_onPages_pagesOf (hlo : start ≤ u)
    (hhi : u < start - start % 0x1000 + pageAlign length) :
    u ∈ onPages (pagesOf (pageAlignDown start) (pageAlign length)) := by
  refine ⟨pageAlignDown start + 0x1000 * (u / 0x1000 - start / 0x1000), mem_pagesOf.2
    ⟨u / 0x1000 - start / 0x1000, ?_, rfl⟩, ?_⟩
  · unfold pageAlign at hhi ⊢
    omega
  · unfold pageAlignDown
    omega

/-- The bytes `bs` of a segment are at `start`, and what is around them is as it was. -/
structure SegmentLoaded (k k' : Kernel) (R : ℕ → Prop) (C : List (Fin 512) → Prop) (D : Set ℕ)
    (Q P : List ℕ) (start : ℕ) (bs : List UInt8) : Prop where
  data : k'.DataPages R C (D ∪ onPages Q) P
  vacant : k'.Vacant P
  kept : ∀ u ∈ D, k'.place u = k.place u ∧ k'.byte u = k.byte u
  loaded : ∀ u ∈ onPages Q, ∃ f ∈ k.reserve (Q ++ P), f % 0x1000 = 0 ∧
    k'.place u = some (f + u % 0x1000) ∧
    k'.byte u = if start ≤ u ∧ u < start + bs.length then bs.getD (u - start) 0
      else ram k.mem (f + u % 0x1000)
  reserve : ∀ f ∈ k'.reserve P, f ∈ k.reserve (Q ++ P) ∧ k'.mem f = k.mem f

/-- **`vmm_alloc` and the copy that follows** load a segment. -/
theorem DataPages.loadSegment (n : ℕ) (hC : ∀ p j, C p → C (p ++ [j])) (hstart : 0x1000 ≤ start)
    (hlen : 0 < length) (hend : length ≤ 2 ^ 47)
    (h : k.DataPages R C D (pagesOf (pageAlignDown start) (pageAlign length) ++ P))
    (hv : k.Vacant (pagesOf (pageAlignDown start) (pageAlign length) ++ P)) :
    ∃ k₁, k.vmmAlloc (n + 2) start length 3 0 = some (k₁, pageAlignDown start) ∧
      (∀ u ∈ D, k₁.byte u = k.byte u) ∧
      ∀ bs : List UInt8, start % 0x1000 + bs.length ≤ pageAlign length →
        k.SegmentLoaded (k₁.memcpy start bs) R C D
          (pagesOf (pageAlignDown start) (pageAlign length)) P start bs := by
  obtain ⟨k₁, hcall, h₁, hB, hv₁⟩ := h.vmmAlloc n hC (show 3 < 0x1000 by norm_num) hstart hlen hend hv
  have hkept : ∀ u ∈ D, k₁.place u = k.place u ∧ k₁.byte u = k.byte u := by
    intro u hu
    obtain ⟨f, hf, -⟩ := h.backed u hu
    obtain ⟨hf₁, hmem⟩ := hB.kept u hu f hf
    rw [place_eq hf, place_eq hf₁, byte_eq hf, byte_eq hf₁, ram_congr (translate_mod hf) hmem]
    exact ⟨rfl, rfl⟩
  refine ⟨k₁, hcall, fun u hu => (hkept u hu).2, fun bs hbs => ?_⟩
  have hin : ∀ u, start ≤ u → u < start + bs.length →
      u ∈ onPages (pagesOf (pageAlignDown start) (pageAlign length)) :=
    fun u hlo hhi => mem_onPages_pagesOf hlo (by omega)
  have hfirst : pageAlignDown start ∈ pagesOf (pageAlignDown start) (pageAlign length) :=
    mem_pagesOf.2 ⟨0, by unfold pageAlign; omega, by rw [Nat.mul_zero, Nat.add_zero]⟩
  have hlow := (h.todo _ (List.mem_append_left P hfirst)).2.1
  have hshort : bs.length ≤ 2 ^ 48 := by
    unfold pageAlign at hbs
    omega
  obtain ⟨h', hW⟩ := @DataPages.memcpy k₁ R C _ P start bs h₁
    (fun j hj => Or.inr (hin _ (by omega) (by omega))) (by unfold pageAlignDown at hlow; omega)
  -- the pages of `D` are not those of the segment
  have hout : ∀ u ∈ D, ¬ (start ≤ u ∧ u < start + bs.length) := by
    rintro u hu ⟨hlo, hhi⟩
    obtain ⟨v, hvQ, huv⟩ := hin u hlo hhi
    exact (h.todo v (List.mem_append_left P hvQ)).2.2 u hu huv
  refine ⟨h', hv₁.memcpy, fun u hu => ?_, fun u hu => ?_, fun f hf => ?_⟩
  · rw [hW.byte u (Or.inl hu), if_neg (hout u hu), place, hW.translate u]
    exact hkept u hu
  · obtain ⟨f, hres, hf, hmem⟩ := hB.fresh u hu
    have hal := translate_mod hf
    refine ⟨f, hres, hal, ?_, ?_⟩
    · rw [place, hW.translate u, hf, Option.map_some]
    · rw [hW.byte u (Or.inr hu), byte_eq hf, ram_congr hal hmem]
  · rw [hW.reserve.1] at hf
    obtain ⟨hres, hmem⟩ := hB.reserve f hf
    exact ⟨hres, (hW.reserve.2 f hf).trans hmem⟩

end Kernel

namespace Elf

open Kernel

variable {k k₁ k' : Kernel} {R : ℕ → Prop} {C : List (Fin 512) → Prop} {D : Set ℕ}
  {mem mem' : ℕ → UInt8} {fileBuffer phoff i j n m size : ℕ} {phdr : List UInt8} {l l' : Loading Kernel}

/-! ### The program headers -/

theorem ustarRead_natCast (mem : ℕ → UInt8) (a n : ℕ) :
    ustarRead mem a n = (List.range n).map fun j => mem (a + j) := by
  rw [Vfs.ustarRead_eq_map]
  refine List.map_congr_left fun j _ => ?_
  rw [← Nat.cast_add, Int.toNat_natCast]

theorem imagePages_succ : imagePages mem fileBuffer phoff i (n + 1) =
    segmentPages (header mem fileBuffer phoff i) ++ imagePages mem fileBuffer phoff (i + 1) n := by
  rw [imagePages, List.range'_succ, List.flatMap_cons, imagePages]

theorem imagePages_concat : imagePages mem fileBuffer phoff 0 (i + 1) =
    imagePages mem fileBuffer phoff 0 i ++ segmentPages (header mem fileBuffer phoff i) := by
  rw [imagePages, List.range'_1_concat, List.flatMap_append, List.flatMap_singleton, Nat.zero_add,
    imagePages]

/-- The pages of an earlier segment are among those that have been mapped. -/
theorem onPages_segmentPages_subset (hj : j < i) :
    onPages (segmentPages (header mem fileBuffer phoff j)) ⊆
      onPages (imagePages mem fileBuffer phoff 0 i) := by
  rintro u ⟨v, hv, huv⟩
  exact ⟨v, List.mem_flatMap.2 ⟨j, by simpa using hj, hv⟩, huv⟩

/-- The bytes of the file are on the pages of the segment. -/
theorem Loadable.mem_onPages (h : Loadable k D fileBuffer phoff n size) (hi : i < n)
    (hphdr : phdr = header k.byte fileBuffer phoff i) (htype : pType phdr = ptLoad)
    (hj : j < pFilesz phdr) : pVaddr phdr + j ∈ onPages (segmentPages phdr) := by
  obtain ⟨-, -, -, hfit, -⟩ := h.segments i hi phdr hphdr htype
  rw [segmentPages, if_pos htype]
  exact mem_onPages_pagesOf (Nat.le_add_right _ _) (by omega)

/-- What `load_elf` reads of a segment are the bytes of the file, as long as the file is kept. -/
theorem Loadable.ustarRead_file (h : Loadable k D fileBuffer phoff n size) (hi : i < n)
    (hphdr : phdr = header k.byte fileBuffer phoff i) (htype : pType phdr = ptLoad)
    (hk : ∀ u ∈ D, mem u = k.byte u) :
    ustarRead mem (fileBuffer + toInt (pOffset phdr)) (pFilesz phdr) =
      (List.range (pFilesz phdr)).map fun j => k.byte (fileBuffer + (pOffset phdr + j)) := by
  obtain ⟨-, -, -, -, hoff⟩ := h.segments i hi phdr hphdr htype
  have hsize := h.size_lt
  rw [Vfs.toInt_of_lt (by omega), ← Nat.cast_add, ustarRead_natCast]
  refine List.map_congr_left fun j hj => ?_
  have hj' := List.mem_range.1 hj
  rw [Nat.add_assoc]
  exact hk _ (h.file (pOffset phdr + j) (by omega))

/-- A segment stays in memory as long as its pages are kept. -/
theorem Holds.kept (h : Holds k k₁ fileBuffer phdr)
    (hfile : ∀ j < pFilesz phdr, pVaddr phdr + j ∈ onPages (segmentPages phdr))
    (hk : ∀ u ∈ onPages (segmentPages phdr), k'.place u = k₁.place u ∧ k'.byte u = k₁.byte u) :
    Holds k k' fileBuffer phdr := by
  refine ⟨fun j hj => ?_, fun u hu hout => ?_⟩
  · obtain ⟨hplace, hbyte⟩ := hk _ (hfile j hj)
    rw [hplace, hbyte]
    exact h.file j hj
  · obtain ⟨hplace, hbyte⟩ := hk u hu
    rw [hplace, hbyte]
    exact h.rest u hu hout

/-- A segment that is loaded from the file is in memory. -/
theorem holds_of_segmentLoaded {P : List ℕ} {bs : List UInt8}
    (hS : k₁.SegmentLoaded k' R C D (segmentPages phdr) P (pVaddr phdr) bs)
    (hbs : bs = (List.range (pFilesz phdr)).map fun j => k.byte (fileBuffer + (pOffset phdr + j)))
    (hfile : ∀ j < pFilesz phdr, pVaddr phdr + j ∈ onPages (segmentPages phdr))
    (hstale : ∀ f ∈ k₁.reserve (segmentPages phdr ++ P), k₁.mem f = k.mem f) :
    Holds k k' fileBuffer phdr := by
  have hlength : bs.length = pFilesz phdr := by rw [hbs, List.length_map, List.length_range]
  refine ⟨fun j hj => ?_, fun u hu hout => ?_⟩
  · obtain ⟨f, -, -, hplace, hbyte⟩ := hS.loaded _ (hfile j hj)
    rw [hplace, hbyte, if_pos (by omega), Nat.add_sub_cancel_left, hbs]
    exact ⟨Option.some_ne_none _, by simp [hj]⟩
  · obtain ⟨f, hres, hal, hplace, hbyte⟩ := hS.loaded u hu
    rw [← hlength] at hout
    exact ⟨_, hplace, by rw [hbyte, if_neg hout, ram_congr hal (hstale f hres)]⟩

/-! ### The loop -/

/-- What the body of the loop does to memory. -/
theorem AtHeader.memory_eq {σ : Type} {M : Memory σ} {l l' : Loading σ}
    (h : AtHeader fileBuffer phoff l i)
    (hphdr : phdr = ustarRead (M.byte l.memory) (fileBuffer + (phoff + phdrSize * i) : ℕ) phdrSize)
    (hl : Elf.loadSegment M l i = some l') :
    (pType phdr ≠ ptLoad ∧ l'.memory = l.memory) ∨ (pType phdr = ptLoad ∧
      ∃ memory, M.vmmAlloc l.memory (pVaddr phdr) (pMemsz phdr) = some memory ∧
        l'.memory = M.memcpy memory (pVaddr phdr)
          (ustarRead (M.byte memory) (fileBuffer + toInt (pOffset phdr)) (pFilesz phdr))) := by
  obtain ⟨v₁, hread, hv₁⟩ := h.openAt.read (M.byte l.memory) phdrSize
  rw [← Nat.cast_add, ← hphdr] at hread
  unfold Elf.loadSegment at hl
  simp only [hread, Option.bind_eq_bind, Option.bind_some] at hl
  split_ifs at hl with htype
  · obtain rfl := Option.some.inj hl
    exact Or.inl ⟨htype, rfl⟩
  · obtain ⟨memory, hmemory, hl⟩ := Option.bind_eq_some_iff.1 hl
    obtain ⟨v₂, hsegment, -⟩ := (hv₁.seek (pOffset phdr)).read (M.byte memory) (pFilesz phdr)
    simp only [hsegment, Option.bind_some] at hl
    obtain rfl := Option.some.inj hl
    exact Or.inr ⟨not_not.1 htype, memory, hmemory, rfl⟩

/-- `vmm_alloc` is called for the segment of the header that is read. -/
theorem AtHeader.allocates {σ : Type} {M : Memory σ} {l : Loading σ}
    (h : AtHeader fileBuffer phoff l i)
    (hphdr : phdr = ustarRead (M.byte l.memory) (fileBuffer + (phoff + phdrSize * i) : ℕ) phdrSize)
    (halloc : pType phdr = ptLoad →
      (M.vmmAlloc l.memory (pVaddr phdr) (pMemsz phdr)).isSome = true) : Allocates M l i := by
  intro v phdr' hread' htype
  obtain ⟨v₁, hread, -⟩ := h.openAt.read (M.byte l.memory) phdrSize
  rw [← Nat.cast_add, ← hphdr, hread'] at hread
  obtain rfl : phdr' = phdr := Option.some.inj (Prod.mk.inj (Option.some.inj hread)).2
  exact halloc htype

/-- The invariant: the file is open at header `i`, the segments of the headers before are in memory,
and there are pages for those of the `n` headers from `i` on. -/
structure Building (k : Kernel) (R : ℕ → Prop) (C : List (Fin 512) → Prop) (D : Set ℕ)
    (fileBuffer phoff i n : ℕ) (l : Loading Kernel) : Prop where
  atHeader : AtHeader fileBuffer phoff l i
  data : l.memory.DataPages R C (D ∪ onPages (imagePages k.byte fileBuffer phoff 0 i))
    (imagePages k.byte fileBuffer phoff i n)
  vacant : l.memory.Vacant (imagePages k.byte fileBuffer phoff i n)
  kept : ∀ u ∈ D, l.memory.place u = k.place u ∧ l.memory.byte u = k.byte u
  held : ∀ j < i, pType (header k.byte fileBuffer phoff j) = ptLoad →
    Holds k l.memory fileBuffer (header k.byte fileBuffer phoff j)
  stale : ∀ f ∈ l.memory.reserve (imagePages k.byte fileBuffer phoff i n), l.memory.mem f = k.mem f

/-- The header is read as it was at the beginning. -/
theorem Building.header_eq (h : Building k R C D fileBuffer phoff i n l)
    (hload : Loadable k D fileBuffer phoff (i + n) size) (hn : 0 < n) :
    header k.byte fileBuffer phoff i =
      ustarRead l.memory.byte (fileBuffer + (phoff + phdrSize * i) : ℕ) phdrSize := by
  rw [ustarRead_natCast]
  refine List.map_congr_left fun j hj => ?_
  have hhead := hload.headers
  have hj' : j < phdrSize := List.mem_range.1 hj
  have hmul : phdrSize * (i + 1) ≤ phdrSize * (i + n) := Nat.mul_le_mul_left _ (by omega)
  rw [Nat.add_assoc]
  refine (h.kept _ (hload.file _ ?_)).2.symm
  rw [Nat.mul_add, Nat.mul_one] at hmul
  omega

/-- **The step lemma**: one more segment is loaded. -/
theorem Building.step (hC : ∀ p j, C p → C (p ++ [j]))
    (h : Building k R C D fileBuffer phoff i (n + 1) l)
    (hload : Loadable k D fileBuffer phoff (i + (n + 1)) size) :
    ∃ l', loadSegment (Kernel.memory (m + 2)) l i = some l' ∧
      Building k R C D fileBuffer phoff (i + 1) n l' := by
  have hread := h.header_eq hload (Nat.succ_pos n)
  have hlt : phoff + phdrSize * (i + 1) < 2 ^ 31 := by
    have hhead := hload.headers
    have hmul : phdrSize * (i + 1) ≤ phdrSize * (i + (n + 1)) := Nat.mul_le_mul_left _ (by omega)
    have hsize := hload.size_lt
    omega
  obtain ⟨phdr, hphdr⟩ : ∃ phdr, phdr = header k.byte fileBuffer phoff i := ⟨_, rfl⟩
  rw [← hphdr] at hread
  have hsucc : imagePages k.byte fileBuffer phoff i (n + 1) =
      segmentPages phdr ++ imagePages k.byte fileBuffer phoff (i + 1) n := by
    rw [imagePages_succ, hphdr]
  have hconcat : imagePages k.byte fileBuffer phoff 0 (i + 1) =
      imagePages k.byte fileBuffer phoff 0 i ++ segmentPages phdr := by
    rw [imagePages_concat, hphdr]
  obtain ⟨hat, hdata, hvac, hkept, hheld, hstale⟩ := h
  rw [hsucc] at hdata hvac hstale
  by_cases htype : pType phdr = ptLoad
  · -- the segment is loaded
    obtain ⟨hstart, hlen, hend, hfit, hoff⟩ := hload.segments i (by omega) phdr hphdr htype
    have hpages : segmentPages phdr =
        pagesOf (pageAlignDown (pVaddr phdr)) (pageAlign (pMemsz phdr)) := if_pos htype
    rw [hpages] at hdata hvac hstale
    obtain ⟨k₁, hcall, hbytes, hloaded⟩ := hdata.loadSegment m hC hstart hlen hend hvac
    have halloc : (Kernel.memory (m + 2)).vmmAlloc l.memory (pVaddr phdr) (pMemsz phdr) = some k₁ := by
      simp only [Kernel.memory, hcall, Option.bind_some, pageAlignDown_ne_zero hstart, if_false]
    obtain ⟨l', hl', hnext⟩ := hat.loadSegment (M := Kernel.memory (m + 2)) hlt
      (hat.allocates hread fun _ => by rw [halloc, Option.isSome_some])
    obtain ⟨-, memory, hmemory, hmem⟩ := (hat.memory_eq hread hl').resolve_left fun hno => hno.1 htype
    obtain rfl : memory = k₁ := Option.some.inj (hmemory.symm.trans halloc)
    -- what is copied are the bytes of the file
    obtain ⟨bs, hbs⟩ : ∃ bs, bs = (List.range (pFilesz phdr)).map fun j =>
      k.byte (fileBuffer + (pOffset phdr + j)) := ⟨_, rfl⟩
    have hcopied : ustarRead ((Kernel.memory (m + 2)).byte memory)
        (fileBuffer + toInt (pOffset phdr)) (pFilesz phdr) = bs :=
      (hload.ustarRead_file (by omega) hphdr htype fun u hu =>
        (hbytes u (Or.inl hu)).trans (hkept u hu).2).trans hbs.symm
    have hlength : bs.length = pFilesz phdr := by rw [hbs, List.length_map, List.length_range]
    have hS := hloaded bs (by rw [hlength]; exact hfit)
    rw [hcopied] at hmem
    change l'.memory = memory.memcpy (pVaddr phdr) bs at hmem
    rw [← hmem, ← hpages] at hS
    rw [← hpages] at hstale
    refine ⟨l', hl', hnext, ?_, hS.vacant, fun u hu => ?_, fun j hj hjtype => ?_, fun f hf => ?_⟩
    · rw [hconcat, onPages_append, ← Set.union_assoc]
      exact hS.data
    · obtain ⟨hplace, hbyte⟩ := hS.kept u (Or.inl hu)
      rw [hplace, hbyte]
      exact hkept u hu
    · rcases Nat.lt_succ_iff_lt_or_eq.1 hj with hj | rfl
      · exact (hheld j hj hjtype).kept (fun t ht => hload.mem_onPages (by omega) rfl hjtype ht)
          fun u hu => hS.kept u (Or.inr (onPages_segmentPages_subset hj hu))
      · rw [← hphdr]
        exact holds_of_segmentLoaded hS hbs
          (fun t ht => hload.mem_onPages (by omega) hphdr htype ht) hstale
    · obtain ⟨hres, hmemf⟩ := hS.reserve f hf
      exact hmemf.trans (hstale f hres)
  · -- the header is skipped
    have hnil : segmentPages phdr = [] := if_neg htype
    obtain ⟨l', hl', hnext⟩ := hat.loadSegment (M := Kernel.memory (m + 2)) hlt
      (hat.allocates hread fun hload => absurd hload htype)
    obtain ⟨-, hmem⟩ := (hat.memory_eq hread hl').resolve_right fun hload => htype hload.1
    rw [hnil, List.nil_append] at hdata hvac hstale
    rw [hnil, List.append_nil] at hconcat
    refine ⟨l', hl', hnext, ?_, hmem ▸ hvac, hmem ▸ hkept, fun j hj hjtype => ?_, hmem ▸ hstale⟩
    · rw [hmem, hconcat]
      exact hdata
    · rw [hmem]
      refine hheld j (Nat.lt_of_le_of_ne (Nat.le_of_lt_succ hj) ?_) hjtype
      rintro rfl
      exact htype (hphdr ▸ hjtype)

/-- **The run lemma**, over the headers from `i` on. -/
theorem Building.run (hC : ∀ p j, C p → C (p ++ [j])) (h : Building k R C D fileBuffer phoff i n l)
    (hload : Loadable k D fileBuffer phoff (i + n) size) :
    ∃ l', (List.range' i n).foldlM (loadSegment (Kernel.memory (m + 2))) l = some l' ∧
      Building k R C D fileBuffer phoff (i + n) 0 l' := by
  induction n generalizing i l with
  | zero => exact ⟨l, rfl, h⟩
  | succ n ih =>
    obtain ⟨l₁, hl₁, h₁⟩ := h.step (m := m) hC hload
    have hnext : i + 1 + n = i + (n + 1) := by omega
    obtain ⟨l', hl', h'⟩ := ih h₁ (by rwa [hnext])
    rw [hnext] at h'
    refine ⟨l', ?_, h'⟩
    rw [List.range'_succ, List.foldlM_cons, hl₁]
    exact hl'

end Elf

end TitanOS
