import Mathlib.Tactic

/-!
# Little-endian numbers in memory

`store mem a n w` puts the `n` low bytes of `w` at `a`, the lowest first, and `load mem a n` reads `n`
bytes from `a` on.  `load_store` reads any part of what was stored; `load_congr` is the frame rule.
-/

namespace LittleEndian

/-- Store the `n` low bytes of `w` at `a`. -/
def store (mem : ℕ → UInt8) (a n w : ℕ) : ℕ → UInt8 := fun b =>
  if a ≤ b ∧ b < a + n then UInt8.ofNat (w / 256 ^ (b - a)) else mem b

/-- The number in the `n` bytes from `a` on. -/
def load (mem : ℕ → UInt8) (a : ℕ) : ℕ → ℕ
  | 0 => 0
  | n + 1 => (mem a).toNat + 256 * load mem (a + 1) n

variable {mem mem' : ℕ → UInt8} {a b k m n w : ℕ}

theorem load_lt : load mem a n < 256 ^ n := by
  induction n generalizing a with
  | zero => exact Nat.one_pos
  | succ n ih =>
    have hbyte := (mem a).toNat_lt
    have hrest := @ih (a + 1)
    rw [load, pow_succ]
    omega

theorem load_congr (h : ∀ b, a ≤ b → b < a + n → mem b = mem' b) :
    load mem a n = load mem' a n := by
  induction n generalizing a with
  | zero => rfl
  | succ n ih =>
    rw [load, load, h a le_rfl (by omega), ih fun b hb hlt => h b (by omega) (by omega)]

/-- The same bytes at another place. -/
theorem load_shift (h : ∀ k < n, mem (a + k) = mem' (b + k)) : load mem a n = load mem' b n := by
  induction n generalizing a b with
  | zero => rfl
  | succ n ih =>
    have hrest : ∀ k < n, mem (a + 1 + k) = mem' (b + 1 + k) := by
      intro k hk
      rw [add_assoc, add_assoc, add_comm 1 k]
      exact h (k + 1) (by omega)
    rw [load, load, ← Nat.add_zero a, h 0 n.succ_pos, Nat.add_zero, Nat.add_zero, ih hrest]

/-- A load in two parts. -/
theorem load_add : load mem a (m + n) = load mem a m + 256 ^ m * load mem (a + m) n := by
  induction m generalizing a with
  | zero => simp [load]
  | succ m ih =>
    rw [show m + 1 + n = (m + n) + 1 by omega, load, load, ih, show a + 1 + m = a + (m + 1) by omega,
      pow_succ]
    ring

theorem store_of_lt (h : b < a) : store mem a n w b = mem b := if_neg (by omega)

theorem store_of_le (h : a + n ≤ b) : store mem a n w b = mem b := if_neg (by omega)

/-- A part of what was stored. -/
theorem load_store_part (h : k + m ≤ n) :
    load (store mem a n w) (a + k) m = w / 256 ^ k % 256 ^ m := by
  induction m generalizing k with
  | zero => rw [load, pow_zero, Nat.mod_one]
  | succ m ih =>
    have hbyte : (store mem a n w (a + k)).toNat = w / 256 ^ k % 256 := by
      rw [store, if_pos ⟨by omega, by omega⟩, Nat.add_sub_cancel_left, UInt8.toNat_ofNat']
    rw [load, hbyte, show a + k + 1 = a + (k + 1) by omega, ih (by omega), pow_succ, pow_succ,
      mul_comm (256 ^ m), Nat.mod_mul, Nat.div_div_eq_div_mul]

theorem load_store : load (store mem a n w) a n = w % 256 ^ n := by
  have h := @load_store_part mem a 0 n n w (by omega)
  rwa [Nat.add_zero, pow_zero, Nat.div_one] at h

/-- A store elsewhere is not seen. -/
theorem load_store_of_disjoint (h : a + n ≤ b ∨ b + m ≤ a) :
    load (store mem a n w) b m = load mem b m := by
  refine load_congr fun c hc hlt => ?_
  rcases h with h | h
  · exact store_of_le (by omega)
  · exact store_of_lt (by omega)

end LittleEndian
