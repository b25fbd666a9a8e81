import TitanOS.Boot.Mb2Mmap

/-!
# Reserved regions (`mm/mb2_mmap.c`)

`check_region_reserved` compares a region with an entry of `reserved_entries` once for each entry,
but with the first one each time.  And `WITHIN` asks which of two regions begins in front of the
other one, so two regions that begin at the same address are not seen to overlap.
-/

namespace TitanOS

namespace Mmap

/-- `WITHIN`, for regions at `r1` and `r2` of the lengths `l1` and `l2`. -/
def within (r1 r2 l1 l2 : ℕ) : Prop :=
  ((r1 + l1) % 2 ^ 64 > r2 ∧ r1 < r2) ∨ ((r2 + l2) % 2 ^ 64 > r1 ∧ r2 < r1)

instance decidableWithin (r1 r2 l1 l2 : ℕ) : Decidable (within r1 r2 l1 l2) :=
  inferInstanceAs (Decidable (_ ∨ _))

/-- The loop of `check_region_reserved`, with `m` turns left; `e` stays where it is. -/
def checkRegionLoop (e : MmapEntry) (start length : ℕ) : ℕ → Bool
  | 0 => false
  | m + 1 => if within start e.addr length e.len then true else checkRegionLoop e start length m

/-- `check_region_reserved`, with the list `reserved_entries`. -/
def checkRegionReserved (reserved : List MmapEntry) (start length : ℕ) : Bool :=
  checkRegionLoop (reserved.getD 0 ⟨0, 0, 0, 0⟩) start length reserved.length

/-- The bytes of an entry. -/
def MmapEntry.bytes (e : MmapEntry) : Set ℕ := Set.Ico e.addr (e.addr + e.len)

/-- The region shares a byte with the entry. -/
def Overlaps (e : MmapEntry) (start length : ℕ) : Prop :=
  (Set.Ico start (start + length) ∩ e.bytes).Nonempty

variable {e : MmapEntry} {reserved : List MmapEntry} {start length m : ℕ}

theorem overlaps_iff (hlength : 0 < length) (hlen : 0 < e.len) :
    Overlaps e start length ↔ e.addr < start + length ∧ start < e.addr + e.len := by
  unfold Overlaps MmapEntry.bytes
  rw [Set.Ico_inter_Ico, Set.nonempty_Ico]
  omega

/-- `WITHIN` sees an overlap, unless both begin at the same address. -/
theorem within_iff (hlength : 0 < length) (hlen : 0 < e.len) (hfit : start + length < 2 ^ 64)
    (hefit : e.addr + e.len < 2 ^ 64) :
    within start e.addr length e.len ↔ Overlaps e start length ∧ e.addr ≠ start := by
  rw [overlaps_iff hlength hlen]
  unfold within
  rw [Nat.mod_eq_of_lt hfit, Nat.mod_eq_of_lt hefit]
  constructor
  · rintro (⟨hend, hlt⟩ | ⟨hend, hlt⟩)
    · exact ⟨⟨hend, by omega⟩, hlt.ne'⟩
    · exact ⟨⟨by omega, hend⟩, hlt.ne⟩
  · rintro ⟨⟨hend, hend'⟩, hne⟩
    rcases lt_or_gt_of_ne hne with hlt | hlt
    · exact Or.inr ⟨hend', hlt⟩
    · exact Or.inl ⟨hend, hlt⟩

/-- All turns of the loop are the same. -/
theorem checkRegionLoop_iff :
    checkRegionLoop e start length m = true ↔ m ≠ 0 ∧ within start e.addr length e.len := by
  induction m with
  | zero => simp [checkRegionLoop]
  | succ m ih =>
    rw [checkRegionLoop]
    split
    · simpa
    · rw [ih]
      constructor
      · exact fun h => ⟨m.succ_ne_zero, h.2⟩
      · rintro ⟨-, h⟩
        contradiction

/-- What the check looks at is the first entry. -/
theorem checkRegionReserved_iff (hlength : 0 < length) (hfit : start + length < 2 ^ 64)
    (hentries : ∀ e ∈ reserved, 0 < e.len ∧ e.addr + e.len < 2 ^ 64) :
    checkRegionReserved reserved start length = true ↔
      ∃ e, reserved.head? = some e ∧ Overlaps e start length ∧ e.addr ≠ start := by
  unfold checkRegionReserved
  rw [checkRegionLoop_iff]
  cases reserved with
  | nil => simp
  | cons e reserved =>
    obtain ⟨hlen, hefit⟩ := hentries e List.mem_cons_self
    rw [List.getD_cons_zero, within_iff hlength hlen hfit hefit]
    simp

/-- **The reserved-region check is exact** if and only if the region shares no byte with any entry,
or it overlaps the first one and does not begin with it. -/
theorem reserved_check_exact_iff (reserved : List MmapEntry) (start length : ℕ)
    (hlength : 0 < length) (hfit : start + length < 2 ^ 64)
    (hentries : ∀ e ∈ reserved, 0 < e.len ∧ e.addr + e.len < 2 ^ 64) :
    (checkRegionReserved reserved start length = true ↔
        ∃ e ∈ reserved, Overlaps e start length) ↔
      (∀ e ∈ reserved, ¬ Overlaps e start length) ∨
        ∃ e, reserved.head? = some e ∧ Overlaps e start length ∧ e.addr ≠ start := by
  rw [checkRegionReserved_iff hlength hfit hentries]
  constructor
  · intro h
    by_cases hex : ∃ e ∈ reserved, Overlaps e start length
    · exact Or.inr (h.2 hex)
    · exact Or.inl fun e he ho => hex ⟨e, he, ho⟩
  · rintro (hnone | hfirst)
    · constructor
      · rintro ⟨e, he, ho, -⟩
        exact absurd ho (hnone e (List.mem_of_head? he))
      · rintro ⟨e, he, ho⟩
        exact absurd ho (hnone e he)
    · constructor
      · rintro ⟨e, he, ho, -⟩
        exact ⟨e, List.mem_of_head? he, ho⟩
      · exact fun _ => hfirst

/-- The extended BIOS data, and the hole below one megabyte. -/
def biosEntries : List MmapEntry := [⟨0x9fc00, 0x400, 2, 0⟩, ⟨0xf0000, 0x10000, 2, 0⟩]

/-- A region that reaches into the first entry from below. -/
theorem reserved_check_exact_below : checkRegionReserved biosEntries 0x9f000 0x1000 = true ↔
    ∃ e ∈ biosEntries, Overlaps e 0x9f000 0x1000 := by
  refine (reserved_check_exact_iff biosEntries 0x9f000 0x1000 (by norm_num) (by norm_num) ?_).2
    (Or.inr ⟨_, rfl, ⟨0x9fc00, ?_⟩, by norm_num⟩)
  · decide
  · constructor <;> constructor <;> norm_num

/-- **Only the first entry counts.**  A page of the second entry is not reported as reserved, and
neither is the first entry itself. -/
theorem reserved_check_second :
    (∀ e ∈ biosEntries, 0 < e.len ∧ e.addr + e.len < 2 ^ 64) ∧
      (∃ e ∈ biosEntries, Overlaps e 0xf8000 0x1000) ∧
      checkRegionReserved biosEntries 0xf8000 0x1000 = false ∧
      (∃ e ∈ biosEntries, Overlaps e 0x9fc00 0x400) ∧
      checkRegionReserved biosEntries 0x9fc00 0x400 = false := by
  refine ⟨by decide, ⟨⟨0xf0000, 0x10000, 2, 0⟩, by decide, 0xf8000, ?_⟩, by decide,
    ⟨⟨0x9fc00, 0x400, 2, 0⟩, by decide, 0x9fc00, ?_⟩, by decide⟩
  · constructor <;> constructor <;> norm_num
  · constructor <;> constructor <;> norm_num

end Mmap

end TitanOS
