import Mathlib.Tactic

/-!
# `memcpy` and `memset` (`libtitan/mem.c`)

Memory is a function from addresses to bytes, together with the list of the addresses that have been
stored to.  `memcpy` is `rep movsb` with the direction flag clear: it copies byte by byte, upwards.  So
when source and destination overlap, the copy is right if the destination is not above the source
(`memcpy_byte`).
-/

namespace TitanOS

/-- Bytes, and the addresses of the stores so far. -/
structure Store where
  byte : ℤ → UInt8
  stores : List ℤ

namespace Store

/-- A store of one byte. -/
def set (s : Store) (a : ℤ) (b : UInt8) : Store := ⟨Function.update s.byte a b, a :: s.stores⟩

/-- `memcpy`. -/
def memcpy (s : Store) (dest src : ℤ) : ℕ → Store
  | 0 => s
  | n + 1 => memcpy (s.set dest (s.byte src)) (dest + 1) (src + 1) n

/-- `memset`. -/
def memset (s : Store) (dest : ℤ) (c : UInt8) : ℕ → Store
  | 0 => s
  | n + 1 => memset (s.set dest c) (dest + 1) c n

variable (s : Store) (a b dest src : ℤ) (c : UInt8) (n : ℕ)

theorem set_byte : (s.set a c).byte b = if b = a then c else s.byte b := Function.update_apply ..

@[simp] theorem set_stores : (s.set a c).stores = a :: s.stores := rfl

/-- Copying upwards reads every byte before it is overwritten. -/
theorem memcpy_byte (h : dest ≤ src) : (s.memcpy dest src n).byte a =
    if dest ≤ a ∧ a < dest + n then s.byte (a - dest + src) else s.byte a := by
  induction n generalizing s dest src with
  | zero => rw [memcpy, if_neg (by omega)]
  | succ n ih =>
    rw [memcpy, ih _ _ _ (by omega)]
    by_cases hin : dest + 1 ≤ a ∧ a < dest + 1 + n
    · rw [if_pos hin, if_pos (by omega), set_byte, if_neg (by omega)]
      congr 1
      omega
    · rw [if_neg hin, set_byte]
      by_cases ha : a = dest
      · rw [if_pos ha, if_pos (by omega), ha]
        congr 1
        omega
      · rw [if_neg ha, if_neg (by omega)]

theorem memset_byte : (s.memset dest c n).byte a =
    if dest ≤ a ∧ a < dest + n then c else s.byte a := by
  induction n generalizing s dest with
  | zero => rw [memset, if_neg (by omega)]
  | succ n ih =>
    rw [memset, ih]
    by_cases hin : dest + 1 ≤ a ∧ a < dest + 1 + n
    · rw [if_pos hin, if_pos (by omega)]
    · rw [if_neg hin, set_byte]
      by_cases ha : a = dest
      · rw [if_pos ha, if_pos (by omega)]
      · rw [if_neg ha, if_neg (by omega)]

/-- The addresses of one store and of those behind it. -/
theorem or_interval {P : Prop} : ((a = dest ∨ P) ∨ dest + 1 ≤ a ∧ a < dest + 1 + n) ↔
    P ∨ dest ≤ a ∧ a < dest + (n + 1 : ℕ) := by
  constructor
  · rintro ((h | h) | h)
    · exact Or.inr (by omega)
    · exact Or.inl h
    · exact Or.inr (by omega)
  · rintro (h | h)
    · exact Or.inl (Or.inr h)
    · by_cases ha : a = dest
      · exact Or.inl (Or.inl ha)
      · exact Or.inr (by omega)

theorem mem_memcpy_stores : a ∈ (s.memcpy dest src n).stores ↔
    a ∈ s.stores ∨ dest ≤ a ∧ a < dest + n := by
  induction n generalizing s dest src with
  | zero =>
    rw [memcpy]
    exact ⟨Or.inl, fun h => h.resolve_right (by omega)⟩
  | succ n ih => rw [memcpy, ih, set_stores, List.mem_cons, or_interval]

theorem mem_memset_stores : a ∈ (s.memset dest c n).stores ↔
    a ∈ s.stores ∨ dest ≤ a ∧ a < dest + n := by
  induction n generalizing s dest with
  | zero =>
    rw [memset]
    exact ⟨Or.inl, fun h => h.resolve_right (by omega)⟩
  | succ n ih => rw [memset, ih, set_stores, List.mem_cons, or_interval]

end Store

end TitanOS
