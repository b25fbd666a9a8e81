import TitanOS.Vmm.Model

/-!
# The page tables as a forest

The entries of the page tables are the edges of a `Walk`: tables are at most three steps from a
root, and the fourth step leads to a mapped frame.  A virtual address matters to the walk only
through its page number `page v`, the 36 bits that the four indices are cut out of.

`Accesses k w t`: the page at virtual address `w` is table `t`, so that the code's accesses
through the pointer `w` read and write the entries of `t`.
-/

namespace TitanOS

open Walk

/-- The page number of a virtual address; the upper bits of a canonical address repeat bit 47. -/
def page (v : ℕ) : ℕ := v / 0x1000 % 2 ^ 36

/-- The labels that lead to the last table. -/
def tableIndices (v : ℕ) : List (Fin 512) := [getIndex v 3, getIndex v 2, getIndex v 1]

theorem indices_eq (v : ℕ) : indices v = tableIndices v ++ [getIndex v 0] := rfl

theorem getIndex_val (v l : ℕ) : (getIndex v l).val = v / 2 ^ (9 * l + 12) % 512 := rfl

/-- The four indices are the digits of the page number. -/
theorem indices_eq_iff {v v' : ℕ} : indices v = indices v' ↔ page v = page v' := by
  simp only [indices, page, List.cons.injEq, Fin.ext_iff, getIndex_val, and_true]
  norm_num
  omega

theorem translate_congr {mem : ℕ → Fin 512 → ℕ} {r v v' : ℕ} (h : page v = page v') :
    translate mem r v = translate mem r v' := by
  rw [translate, translate, indices_eq_iff.2 h]

/-! ### Entries -/

theorem pageAlignDown_lor {p x : ℕ} (hp : p % 0x1000 = 0) (hx : x < 0x1000) :
    pageAlignDown (p ||| x) = p := by
  have h : (p ||| x) / 2 ^ 12 = p / 2 ^ 12 ||| x / 2 ^ 12 := Nat.or_div_two_pow
  rw [pageAlignDown, show (0x1000 : ℕ) = 2 ^ 12 from rfl, h,
    Nat.div_eq_of_lt (show x < 2 ^ 12 from hx),
    Nat.or_zero]
  omega

theorem lor_seven_mod_two (x : ℕ) : (x ||| 7) % 2 = 1 := by
  have hx : x % 2 = 0 ∨ x % 2 = 1 := by omega
  rcases hx with hx | hx <;> simp [hx]

theorem entry_eq_some {mem : ℕ → Fin 512 → ℕ} {t t' : ℕ} {i : Fin 512} :
    entry mem t i = some t' ↔ mem t i % 2 = 1 ∧ pageAlignDown (mem t i) = t' := by
  unfold entry
  split_ifs with h <;> simp [h]

theorem entry_writeEntry_self {mem : ℕ → Fin 512 → ℕ} {t e : ℕ} {i : Fin 512} :
    entry (writeEntry mem t i e) t i = if e % 2 = 1 then some (pageAlignDown e) else none := by
  simp [entry, writeEntry]

theorem entry_writeEntry_of_ne {mem : ℕ → Fin 512 → ℕ} {t e a : ℕ} {i j : Fin 512}
    (h : a = t → j ≠ i) : entry (writeEntry mem t i e) a j = entry mem a j := by
  by_cases hat : a = t
  · subst hat
    simp [entry, writeEntry, Function.update_of_ne (h rfl)]
  · simp [entry, writeEntry, Function.update_of_ne hat]

theorem entry_clear_of_ne {mem : ℕ → Fin 512 → ℕ} {f a : ℕ} {j : Fin 512} (h : a ≠ f) :
    entry (Function.update mem f fun _ => 0) a j = entry mem a j := by
  simp [entry, Function.update_of_ne h]

/-- Writing an entry redirects one edge. -/
theorem redirect_writeEntry {mem : ℕ → Fin 512 → ℕ} {t e : ℕ} {i : Fin 512} :
    Redirect (entry mem) (entry (writeEntry mem t i e)) t i :=
  fun _ _ h => entry_writeEntry_of_ne h

/-! ### Accessing a table -/

namespace Kernel

/-- The page at virtual address `w` is the table `t`. -/
def Accesses (k : Kernel) (w t : ℕ) : Prop := w % 0x1000 = 0 ∧ translate k.mem k.cr3 w = some t

variable {k : Kernel} {w t e : ℕ}

theorem page_add {w i : ℕ} (hw : w % 0x1000 = 0) (hi : i < 512) : page (w + 8 * i) = page w := by
  simp only [page]
  omega

theorem ofNat_div_eight {w : ℕ} (hw : w % 0x1000 = 0) (i : Fin 512) :
    Fin.ofNat 512 ((w + 8 * i.val) / 8) = i := by
  have := i.isLt
  ext
  simp
  omega

theorem Accesses.load (h : k.Accesses w t) (i : Fin 512) :
    k.load (w + 8 * i.val) = some (k.mem t i) := by
  rw [Kernel.load, translate_congr (page_add h.1 i.isLt), h.2, Option.map_some,
    ofNat_div_eight h.1]

theorem Accesses.store (h : k.Accesses w t) (i : Fin 512) (e : ℕ) :
    k.store (w + 8 * i.val) e = some { k with mem := writeEntry k.mem t i e } := by
  rw [Kernel.store, translate_congr (page_add h.1 i.isLt), h.2, Option.map_some,
    ofNat_div_eight h.1]

theorem Accesses.clearPage (h : k.Accesses w t) :
    k.clearPage w = some { k with mem := Function.update k.mem t fun _ => 0 } := by
  rw [Kernel.clearPage, h.2, Option.map_some]

end Kernel

end TitanOS
