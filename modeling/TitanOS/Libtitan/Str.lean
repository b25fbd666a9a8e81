import Mathlib.Tactic

/-!
# Strings (`libtitan/str.c`)

A string is the function that gives the bytes from a pointer on; where it ends is up to the reader,
so what lies behind the terminator is part of it.  `strncmp` leaves out the first character and
answers that the strings are equal as soon as one of them ends.
-/

namespace TitanOS

namespace Str

/-- `strnlen`. -/
def strnlen (s : ℕ → UInt8) (maxlen : ℕ) : ℕ :=
  ((List.range maxlen).find? fun i => s i == 0).getD maxlen

/-- `strncpy`: the bytes at `dst` afterwards. -/
def strncpy (dst src : ℕ → UInt8) (dsize : ℕ) : ℕ → UInt8 := fun k =>
  if k < strnlen src dsize then src k else if k < dsize then 0 else dst k

/-- The difference of two characters, which are signed. -/
def charDiff (a b : UInt8) : ℤ := a.toInt8.toInt - b.toInt8.toInt

/-- The loop of `strncmp` from index `i` on, with `m` characters left. -/
def strncmpLoop (s1 s2 : ℕ → UInt8) : ℕ → ℕ → ℤ
  | 0, i => charDiff (s1 i) (s2 i)
  | m + 1, i =>
    if s1 i = 0 ∨ s2 i = 0 then 0
    else if s1 i ≠ s2 i then charDiff (s1 i) (s2 i)
    else strncmpLoop s1 s2 m (i + 1)

/-- `strncmp`. -/
def strncmp (s1 s2 : ℕ → UInt8) (n : ℕ) : ℤ := strncmpLoop s1 s2 (n - 1) 1

/-- The strings agree behind their first characters, up to where one of them ends. -/
def Alike (s1 s2 : ℕ → UInt8) : Prop :=
  ∃ j, 1 ≤ j ∧ (s1 j = 0 ∨ s2 j = 0) ∧ ∀ i, 1 ≤ i → i < j → s1 i = s2 i

/-- A string constant, by its characters. -/
def literal (cs : List Char) : ℕ → UInt8 := fun k => (cs.map fun c => UInt8.ofNat c.toNat).getD k 0

variable {s src : ℕ → UInt8} {n : ℕ}

/-- The first terminator of a string. -/
theorem strnlen_spec (h : ∃ k < n, s k = 0) : strnlen s n < n ∧ s (strnlen s n) = 0 := by
  obtain ⟨k, hk, hz⟩ := h
  unfold strnlen
  cases hf : (List.range n).find? fun i => s i == 0 with
  | none =>
    have hne := List.find?_eq_none.1 hf k (List.mem_range.2 hk)
    simp [hz] at hne
  | some i =>
    have hlt := List.mem_range.1 (List.mem_of_find?_eq_some hf)
    exact ⟨hlt, by simpa using List.find?_some hf⟩

/-- The first byte of a copy is that of the source. -/
theorem strncpy_zero (dst : ℕ → UInt8) (h : 0 < n) : strncpy dst src n 0 = src 0 := by
  unfold strncpy
  by_cases h₀ : src 0 = 0
  · rw [if_pos h, h₀, ite_self]
  · have hlen : 0 < strnlen src n := by
      unfold strnlen
      cases hf : (List.range n).find? fun i => src i == 0 with
      | none => exact h
      | some i =>
        have hi : src i = 0 := by simpa using List.find?_some hf
        refine Nat.pos_of_ne_zero fun hz => h₀ ?_
        rw [Option.getD_some] at hz
        rwa [hz] at hi
    rw [if_pos hlen]

/-- A string with nothing behind its first character is equal to every other one. -/
theorem strncmp_of_single (s2 : ℕ → UInt8) (h : s 1 = 0) (hn : 2 ≤ n) : strncmp s s2 n = 0 := by
  obtain ⟨m, rfl⟩ := Nat.exists_eq_add_of_le hn
  rw [strncmp, show 2 + m - 1 = m + 1 by omega, strncmpLoop, if_pos (Or.inl h)]

theorem charDiff_eq_zero_iff {a b : UInt8} : charDiff a b = 0 ↔ a = b := by
  unfold charDiff
  rw [sub_eq_zero, Int8.toInt_inj]
  exact ⟨fun h => by rw [← UInt8.toUInt8_toInt8 a, h, UInt8.toUInt8_toInt8], congrArg _⟩

variable {s1 s2 s1' : ℕ → UInt8} {i m z : ℕ}

/-- The loop stops at the first position where the strings differ or one of them ends. -/
theorem strncmpLoop_eq_zero_iff (hi : i ≤ z) (hm : z < i + m) (hz : s1 z = 0) :
    strncmpLoop s1 s2 m i = 0 ↔
      ∃ j, i ≤ j ∧ (s1 j = 0 ∨ s2 j = 0) ∧ ∀ k, i ≤ k → k < j → s1 k = s2 k := by
  induction m generalizing i with
  | zero => omega
  | succ m ih =>
    rw [strncmpLoop]
    by_cases hend : s1 i = 0 ∨ s2 i = 0
    · rw [if_pos hend]
      exact ⟨fun _ => ⟨i, le_rfl, hend, fun k hk hlt => absurd hlt hk.not_gt⟩, fun _ => rfl⟩
    · have hlater : ∀ j, i ≤ j → (s1 j = 0 ∨ s2 j = 0) → i < j := fun j hj hzero =>
        lt_of_le_of_ne hj fun heq => hend (heq ▸ hzero)
      rw [if_neg hend]
      by_cases hdiff : s1 i = s2 i
      · have hiz : i < z := hlater z hi (Or.inl hz)
        rw [if_neg (not_not.2 hdiff), ih hiz (by omega)]
        constructor
        · rintro ⟨j, hj, hzero, hsame⟩
          refine ⟨j, by omega, hzero, fun k hk hlt => ?_⟩
          rcases Nat.eq_or_lt_of_le hk with rfl | hk
          · exact hdiff
          · exact hsame k hk hlt
        · rintro ⟨j, hj, hzero, hsame⟩
          exact ⟨j, hlater j hj hzero, hzero, fun k hk hlt => hsame k (by omega) hlt⟩
      · rw [if_pos hdiff, charDiff_eq_zero_iff]
        constructor
        · exact fun h => absurd h hdiff
        · rintro ⟨j, hj, hzero, hsame⟩
          exact absurd (hsame i le_rfl (hlater j hj hzero)) hdiff

/-- What `strncmp` takes for equal, if the first string ends in time. -/
theorem strncmp_eq_zero_iff (h1 : 1 ≤ z) (hn : z < n) (hz : s1 z = 0) :
    strncmp s1 s2 n = 0 ↔ Alike s1 s2 :=
  strncmpLoop_eq_zero_iff h1 (by omega) hz

/-- What is behind the end of a string does not matter. -/
theorem Alike.congr (h : Alike s1 s2) (h1 : 1 ≤ z) (hz : s1 z = 0) (hsame : ∀ k ≤ z, s1 k = s1' k) :
    Alike s1' s2 := by
  obtain ⟨j, hj, hend, hj'⟩ := h
  rcases le_or_gt j z with hjz | hjz
  · exact ⟨j, hj, by rwa [← hsame j hjz], fun i hi hlt => by rw [← hsame i (by omega), hj' i hi hlt]⟩
  · refine ⟨z, h1, Or.inl (by rw [← hsame z le_rfl, hz]), fun i hi hlt => ?_⟩
    rw [← hsame i hlt.le, hj' i hi (hlt.trans hjz)]

end Str

end TitanOS
