import TitanOS.Libtitan.Str

/-!
# Bounded comparison (`strncmp` in `libtitan/str.c`)

`strncmpRun` is `strncmp` with the positions it reads in the two strings; `none` is the overflow of
its index, which is an `int`.  A loop from position 1 on finds the first position `j` where one of
the strings ends or they differ.  The result comes from `j` alone: the characters at position 0 are
not looked at, and the end of one string counts as equality, also when the other one goes on.
-/

namespace TitanOS

namespace Str

/-- What `strncmp` returns, and the positions it reads in the strings. -/
structure Comparison where
  result : ℤ
  reads1 : List ℕ
  reads2 : List ℕ

/-- One more position read in both strings. -/
def Comparison.readBoth (c : Comparison) (i : ℕ) : Comparison :=
  ⟨c.result, i :: c.reads1, i :: c.reads2⟩

/-- The loop of `strncmp` from index `i` on, with `m` characters left, and its reads. -/
def strncmpRunLoop (s1 s2 : ℕ → UInt8) : ℕ → ℕ → Option Comparison
  | 0, i => some ⟨charDiff (s1 i) (s2 i), [i], [i]⟩
  | m + 1, i =>
    -- `||` does not look at the second string when the first one has ended
    if s1 i = 0 then some ⟨0, [i], []⟩
    else if s2 i = 0 then some ⟨0, [i], [i]⟩
    else if s1 i ≠ s2 i then some ⟨charDiff (s1 i) (s2 i), [i], [i]⟩
    else if i + 1 = 2 ^ 31 then none
    else (strncmpRunLoop s1 s2 m (i + 1)).map (Comparison.readBoth · i)

/-- `strncmp`, with its reads. -/
def strncmpRun (s1 s2 : ℕ → UInt8) (n : ℕ) : Option Comparison := strncmpRunLoop s1 s2 (n - 1) 1

/-- The first `min(n, length)` characters agree, the terminator of `s1` counted in its length. -/
def Agree (s1 s2 : ℕ → UInt8) (n : ℕ) : Prop :=
  ∀ k < n, (∀ i < k, s1 i ≠ 0) → s1 k = s2 k

/-- The strings differ at `j` for the first time, before position `n`. -/
def DifferAt (s1 s2 : ℕ → UInt8) (n j : ℕ) : Prop :=
  j < n ∧ s1 j ≠ s2 j ∧ ∀ i < j, s1 i = s2 i ∧ s1 i ≠ 0

/-- What a bounded comparison is to return and to read. -/
structure Compares (s1 s2 : ℕ → UInt8) (n : ℕ) (c : Comparison) : Prop where
  zero : c.result = 0 ↔ Agree s1 s2 n
  sign : ∀ j, DifferAt s1 s2 n j → c.result.sign = (charDiff (s1 j) (s2 j)).sign
  reads1 : ∀ i ∈ c.reads1, i ≠ n ∧ ∀ k < i, s1 k ≠ 0
  reads2 : ∀ i ∈ c.reads2, i ≠ n ∧ ∀ k < i, s2 k ≠ 0

/-- The loop ends at `j`: one of the strings ends, or they differ. -/
def Stops (s1 s2 : ℕ → UInt8) (j : ℕ) : Prop := s1 j = 0 ∨ s2 j = 0 ∨ s1 j ≠ s2 j

instance (s1 s2 : ℕ → UInt8) : DecidablePred (Stops s1 s2) := fun j =>
  inferInstanceAs (Decidable (s1 j = 0 ∨ s2 j = 0 ∨ s1 j ≠ s2 j))

/-- What the first position where the loop ends has to be like. -/
def SettledAt (s1 s2 : ℕ → UInt8) (j : ℕ) : Prop :=
  s1 j = 0 ∧ s2 j = 0 ∧ s1 0 = s2 0 ∨
    s1 j ≠ 0 ∧ s2 j ≠ 0 ∧ s1 j ≠ s2 j ∧
      (s1 0 = s2 0 ∨ (charDiff (s1 0) (s2 0)).sign = (charDiff (s1 j) (s2 j)).sign)

variable {s1 s2 : ℕ → UInt8} {i j m n : ℕ} {c : Comparison}

/-- The reads are all that is added to `strncmp`. -/
theorem strncmpRunLoop_result (h : strncmpRunLoop s1 s2 m i = some c) :
    c.result = strncmpLoop s1 s2 m i := by
  induction m generalizing i c with
  | zero =>
    cases h
    rfl
  | succ m ih =>
    rw [strncmpRunLoop] at h
    rw [strncmpLoop]
    split_ifs at h with h1 h2 hdiff hover
    · cases h
      rw [if_pos (Or.inl h1)]
    · cases h
      rw [if_pos (Or.inr h2)]
    · cases h
      rw [if_neg (not_or.2 ⟨h1, h2⟩), if_pos hdiff]
    · obtain ⟨c', hc', rfl⟩ := Option.map_eq_some_iff.1 h
      have hres := ih hc'
      rw [if_neg (not_or.2 ⟨h1, h2⟩), if_neg hdiff]
      exact hres

theorem strncmpRun_result (h : strncmpRun s1 s2 n = some c) : c.result = strncmp s1 s2 n :=
  strncmpRunLoop_result h

/-! ### Where the loop ends -/

/-- One round of the loop. -/
theorem strncmpRunLoop_goes (h : ¬ Stops s1 s2 i) (hi : i + 1 < 2 ^ 31) :
    strncmpRunLoop s1 s2 (m + 1) i = (strncmpRunLoop s1 s2 m (i + 1)).map (·.readBoth i) := by
  obtain ⟨h1, h2, heq⟩ : s1 i ≠ 0 ∧ s2 i ≠ 0 ∧ ¬ s1 i ≠ s2 i := by simpa [Stops] using h
  rw [strncmpRunLoop, if_neg h1, if_neg h2, if_neg heq, if_neg (by omega)]

theorem strncmpRunLoop_overflows (h : ¬ Stops s1 s2 i) (hi : i + 1 = 2 ^ 31) :
    strncmpRunLoop s1 s2 (m + 1) i = none := by
  obtain ⟨h1, h2, heq⟩ : s1 i ≠ 0 ∧ s2 i ≠ 0 ∧ ¬ s1 i ≠ s2 i := by simpa [Stops] using h
  rw [strncmpRunLoop, if_neg h1, if_neg h2, if_neg heq, if_pos hi]

/-- Past positions where nothing stops the loop. -/
theorem strncmpRunLoop_add (hgo : ∀ k, i ≤ k → k < i + m → ¬ Stops s1 s2 k) (hi : i + m < 2 ^ 31)
    (p : ℕ) : strncmpRunLoop s1 s2 (m + p) i = (strncmpRunLoop s1 s2 p (i + m)).map fun c =>
      ⟨c.result, List.range' i m ++ c.reads1, List.range' i m ++ c.reads2⟩ := by
  induction m generalizing i with
  | zero => simp
  | succ m ih =>
    have hrest := ih (i := i + 1) (fun k hk hlt => hgo k (by omega) (by omega)) (by omega)
    rw [show m + 1 + p = (m + p) + 1 by omega,
      strncmpRunLoop_goes (hgo i le_rfl (by omega)) (by omega), hrest,
      show i + 1 + m = i + (m + 1) by omega, Option.map_map, List.range'_succ]
    rfl

/-- With `2 ^ 31` equal characters the index overflows. -/
theorem strncmpRun_overflows (hn : 2 ^ 31 ≤ n)
    (hgo : ∀ k, 1 ≤ k → k < 2 ^ 31 → ¬ Stops s1 s2 k) : strncmpRun s1 s2 n = none := by
  have hpast := strncmpRunLoop_add (i := 1) (m := 2 ^ 31 - 2)
    (fun k hk hlt => hgo k hk (by omega)) (by norm_num) (n - 2 ^ 31 + 1)
  rw [strncmpRun, show n - 1 = 2 ^ 31 - 2 + (n - 2 ^ 31 + 1) by omega, hpast,
    strncmpRunLoop_overflows (hgo _ (by norm_num) (by norm_num)) (by norm_num), Option.map_none]

/-- Without a position that stops it, the loop goes to the bound. -/
theorem strncmpRun_bound (hn : n < 2 ^ 31) (hgo : ∀ k, 1 ≤ k → k < n → ¬ Stops s1 s2 k)
    (h1 : 1 ≤ n) : ∃ c, strncmpRun s1 s2 n = some c ∧ n ∈ c.reads1 := by
  have hpast := strncmpRunLoop_add (i := 1) (m := n - 1)
    (fun k hk hlt => hgo k hk (by omega)) (by omega) 0
  rw [Nat.add_zero, show 1 + (n - 1) = n by omega, strncmpRunLoop, Option.map_some] at hpast
  exact ⟨_, hpast, by simp⟩

/-- The loop ends at the first position that stops it. -/
theorem strncmpRun_stop (hj : 1 ≤ j) (hjn : j < n) (hlt : j < 2 ^ 31) (hstop : Stops s1 s2 j)
    (hgo : ∀ k, 1 ≤ k → k < j → ¬ Stops s1 s2 k) : strncmpRun s1 s2 n =
      some ⟨if s1 j = 0 ∨ s2 j = 0 then 0 else charDiff (s1 j) (s2 j), List.range' 1 j,
        List.range' 1 (if s1 j = 0 then j - 1 else j)⟩ := by
  have hpast := strncmpRunLoop_add (i := 1) (m := j - 1)
    (fun k hk hk' => hgo k hk (by omega)) (by omega) (n - j - 1 + 1)
  have hreads : List.range' 1 (j - 1) ++ [j] = List.range' 1 j := by
    obtain ⟨d, rfl⟩ := Nat.exists_eq_add_of_le hj
    rw [Nat.add_sub_cancel_left, Nat.add_comm 1 d, List.range'_concat, one_mul, Nat.add_comm 1 d]
  rw [strncmpRun, show n - 1 = j - 1 + (n - j - 1 + 1) by omega, hpast,
    show 1 + (j - 1) = j by omega, strncmpRunLoop]
  by_cases h1 : s1 j = 0
  · rw [if_pos h1, Option.map_some, if_pos (Or.inl h1), if_pos h1, hreads, List.append_nil]
  · rw [if_neg h1, if_neg h1]
    by_cases h2 : s2 j = 0
    · rw [if_pos h2, Option.map_some, if_pos (Or.inr h2), hreads]
    · have hdiff : s1 j ≠ s2 j := by simpa [Stops, h1, h2] using hstop
      rw [if_neg h2, if_pos hdiff, Option.map_some, if_neg (not_or.2 ⟨h1, h2⟩), hreads]

/-! ### What the comparison is to return -/

theorem DifferAt.not_agree (h : DifferAt s1 s2 n j) : ¬ Agree s1 s2 n := fun hagree =>
  h.2.1 (hagree j h.1 fun i hi => (h.2.2 i hi).2)

/-- There is only one first difference. -/
theorem DifferAt.unique {k : ℕ} (h : DifferAt s1 s2 n j) (h' : DifferAt s1 s2 n k) : j = k := by
  rcases lt_trichotomy j k with hlt | heq | hlt
  · exact absurd (h'.2.2 j hlt).1 h.2.1
  · exact heq
  · exact absurd (h.2.2 k hlt).1 h'.2.1

/-- The sign of the difference of two characters. -/
theorem sign_charDiff_eq_zero_iff {a b : UInt8} : (charDiff a b).sign = 0 ↔ a = b := by
  rw [Int.sign_eq_zero_iff_zero, charDiff_eq_zero_iff]

/-- The value that is to be returned, up to its sign. -/
theorem Compares.of_differAt (hj : DifferAt s1 s2 n j)
    (hsign : c.result.sign = (charDiff (s1 j) (s2 j)).sign)
    (h1 : ∀ i ∈ c.reads1, i ≠ n ∧ ∀ k < i, s1 k ≠ 0)
    (h2 : ∀ i ∈ c.reads2, i ≠ n ∧ ∀ k < i, s2 k ≠ 0) : Compares s1 s2 n c := by
  refine ⟨iff_of_false (fun hzero => hj.2.1 ?_) hj.not_agree, fun k hk => ?_, h1, h2⟩
  · rw [← sign_charDiff_eq_zero_iff, ← hsign, hzero, Int.sign_zero]
  · rw [← hj.unique hk]
    exact hsign

theorem Compares.of_agree (hagree : Agree s1 s2 n) (hzero : c.result = 0)
    (h1 : ∀ i ∈ c.reads1, i ≠ n ∧ ∀ k < i, s1 k ≠ 0)
    (h2 : ∀ i ∈ c.reads2, i ≠ n ∧ ∀ k < i, s2 k ≠ 0) : Compares s1 s2 n c :=
  ⟨iff_of_true hzero hagree, fun _ hj => absurd hagree hj.not_agree, h1, h2⟩

/-! ### When it does so -/

theorem not_stops_iff : ¬ Stops s1 s2 i ↔ s1 i = s2 i ∧ s1 i ≠ 0 := by
  unfold Stops
  constructor
  · intro h
    obtain ⟨h1, -, heq⟩ : s1 i ≠ 0 ∧ s2 i ≠ 0 ∧ s1 i = s2 i := by simpa using h
    exact ⟨heq, h1⟩
  · rintro ⟨heq, h1⟩
    simp [← heq, h1]

/-- The characters that are read, where the loop ends at `j`. -/
theorem reads_of_stop {s : ℕ → UInt8} {p : ℕ} (h0 : s 0 ≠ 0) (hjn : j < n) (hp : p ≤ j)
    (hgo : ∀ k, 1 ≤ k → k < j → s k ≠ 0) : ∀ i ∈ List.range' 1 p, i ≠ n ∧ ∀ k < i, s k ≠ 0 := by
  intro i hi
  have hmem := List.mem_range'_1.1 hi
  refine ⟨by omega, fun k hk => ?_⟩
  rcases Nat.eq_zero_or_pos k with rfl | hpos
  · exact h0
  · exact hgo k hpos (by omega)

/-- A loop that ends at `j`. -/
theorem compares_iff_of_stop (hj : 1 ≤ j) (hjn : j < n) (hlt : j < 2 ^ 31)
    (hstop : Stops s1 s2 j) (hgo : ∀ k, 1 ≤ k → k < j → ¬ Stops s1 s2 k) :
    (∃ c, strncmpRun s1 s2 n = some c ∧ Compares s1 s2 n c) ↔
      s1 0 ≠ 0 ∧ s2 0 ≠ 0 ∧ SettledAt s1 s2 j := by
  have hsame : ∀ k, 1 ≤ k → k < j → s1 k = s2 k ∧ s1 k ≠ 0 := fun k hk hk' =>
    not_stops_iff.1 (hgo k hk hk')
  rw [strncmpRun_stop hj hjn hlt hstop hgo]
  constructor
  · rintro ⟨c, hc, hcmp⟩
    obtain rfl := Option.some.inj hc
    have h1 : s1 0 ≠ 0 :=
      (hcmp.reads1 j (List.mem_range'_1.2 ⟨hj, by omega⟩)).2 0 (by omega)
    have hdiff0 : s1 0 ≠ s2 0 → DifferAt s1 s2 n 0 := fun hne => ⟨by omega, hne, by simp⟩
    by_cases hend : s1 j = 0 ∨ s2 j = 0
    · -- the loop answers that the strings are equal, so they have to be
      have hagree := hcmp.zero.1 (if_pos hend)
      have h0 : s1 0 = s2 0 := hagree 0 (by omega) (by simp)
      have hj' : s1 j = s2 j := hagree j hjn fun i hi => by
        rcases Nat.eq_zero_or_pos i with rfl | hpos
        · exact h1
        · exact (hsame i hpos hi).2
      have hz : s1 j = 0 := hend.elim id fun h2 => hj'.trans h2
      exact ⟨h1, h0 ▸ h1, Or.inl ⟨hz, hj' ▸ hz, h0⟩⟩
    · obtain ⟨hz1, hz2⟩ := not_or.1 hend
      have hne : s1 j ≠ s2 j := by simpa [Stops, hz1, hz2] using hstop
      have h2 : s2 0 ≠ 0 := by
        refine (hcmp.reads2 j ?_).2 0 (by omega)
        rw [if_neg hz1]
        exact List.mem_range'_1.2 ⟨hj, by omega⟩
      refine ⟨h1, h2, Or.inr ⟨hz1, hz2, hne, or_iff_not_imp_left.2 fun h0 => ?_⟩⟩
      have hsign := hcmp.sign 0 (hdiff0 h0)
      rw [if_neg hend] at hsign
      exact hsign.symm
  · rintro ⟨h1, h2, hsettled⟩
    refine ⟨_, rfl, ?_⟩
    have hr1 := reads_of_stop (s := s1) h1 hjn le_rfl fun k hk hk' => (hsame k hk hk').2
    have hr2 := reads_of_stop (s := s2) (p := if s1 j = 0 then j - 1 else j) h2 hjn
      (by split_ifs <;> omega) fun k hk hk' => (hsame k hk hk').1 ▸ (hsame k hk hk').2
    rcases hsettled with ⟨hz1, hz2, h0⟩ | ⟨hz1, hz2, hne, h0⟩
    · refine Compares.of_agree (fun k hk hopen => ?_) (if_pos (Or.inl hz1)) hr1 hr2
      have hkj : k ≤ j := not_lt.1 fun hlt => hopen j hlt hz1
      rcases Nat.eq_zero_or_pos k with rfl | hpos
      · exact h0
      · rcases Nat.eq_or_lt_of_le hkj with rfl | hlt
        · exact hz1.trans hz2.symm
        · exact (hsame k hpos hlt).1
    · have hres : (if s1 j = 0 ∨ s2 j = 0 then 0 else charDiff (s1 j) (s2 j)) =
          charDiff (s1 j) (s2 j) := if_neg (not_or.2 ⟨hz1, hz2⟩)
      by_cases heq0 : s1 0 = s2 0
      · have hdiff : DifferAt s1 s2 n j := by
          refine ⟨hjn, hne, fun i hi => ?_⟩
          rcases Nat.eq_zero_or_pos i with rfl | hpos
          · exact ⟨heq0, h1⟩
          · exact hsame i hpos hi
        exact Compares.of_differAt hdiff (congrArg Int.sign hres) hr1 hr2
      · have hdiff : DifferAt s1 s2 n 0 := ⟨by omega, heq0, by simp⟩
        have hsign := h0.resolve_left heq0
        exact Compares.of_differAt hdiff ((congrArg Int.sign hres).trans hsign.symm) hr1 hr2

/-- A loop that nothing ends before the bound reads position `n`, or the index overflows. -/
theorem not_compares_of_goes (hn : 1 ≤ n) (hgo : ∀ k, 1 ≤ k → k < n → k < 2 ^ 31 →
    ¬ Stops s1 s2 k) : ¬ ∃ c, strncmpRun s1 s2 n = some c ∧ Compares s1 s2 n c := by
  rintro ⟨c, hc, hcmp⟩
  rcases lt_or_ge n (2 ^ 31) with hlt | hge
  · obtain ⟨c', hc', hmem⟩ := strncmpRun_bound hlt (fun k hk hk' => hgo k hk hk' (by omega)) hn
    obtain rfl := Option.some.inj (hc.symm.trans hc')
    exact (hcmp.reads1 n hmem).1 rfl
  · rw [strncmpRun_overflows hge fun k hk hk' => hgo k hk (by omega) hk'] at hc
    cases hc

/-- With `n = 0` the characters at position 1 are compared. -/
theorem compares_zero_iff : (∃ c, strncmpRun s1 s2 0 = some c ∧ Compares s1 s2 0 c) ↔
    s1 0 ≠ 0 ∧ s2 0 ≠ 0 ∧ s1 1 = s2 1 := by
  have hagree : Agree s1 s2 0 := fun k hk => absurd hk k.not_lt_zero
  constructor
  · rintro ⟨c, hc, hcmp⟩
    obtain rfl := Option.some.inj hc
    exact ⟨(hcmp.reads1 1 List.mem_cons_self).2 0 Nat.one_pos,
      (hcmp.reads2 1 List.mem_cons_self).2 0 Nat.one_pos, charDiff_eq_zero_iff.1 (hcmp.zero.2 hagree)⟩
  · rintro ⟨h1, h2, heq⟩
    have hread : ∀ s : ℕ → UInt8, s 0 ≠ 0 → ∀ i ∈ [1], i ≠ 0 ∧ ∀ k < i, s k ≠ 0 := by
      intro s hs i hi
      obtain rfl := List.mem_singleton.1 hi
      exact ⟨Nat.one_ne_zero, fun k hk => by rwa [Nat.lt_one_iff.1 hk]⟩
    exact ⟨_, rfl, Compares.of_agree hagree (charDiff_eq_zero_iff.2 heq) (hread s1 h1) (hread s2 h2)⟩

/-- **When bounded comparison is correct**: both strings have a first character, and behind it the
loop ends before the bound, at the ends of both strings, which begin alike, or at characters whose
difference has the sign that the first difference has. -/
theorem strncmp_compares_iff (s1 s2 : ℕ → UInt8) (n : ℕ) :
    (∃ c, strncmpRun s1 s2 n = some c ∧ Compares s1 s2 n c) ↔
      s1 0 ≠ 0 ∧ s2 0 ≠ 0 ∧ (n = 0 ∧ s1 1 = s2 1 ∨
        ∃ j, 1 ≤ j ∧ j < n ∧ j < 2 ^ 31 ∧ (∀ k, 1 ≤ k → k < j → s1 k = s2 k ∧ s1 k ≠ 0) ∧
          SettledAt s1 s2 j) := by
  have hsettled : ∀ j, SettledAt s1 s2 j → Stops s1 s2 j := by
    rintro j (⟨hz1, -, -⟩ | ⟨-, -, hne, -⟩)
    · exact Or.inl hz1
    · exact Or.inr (Or.inr hne)
  rcases Nat.eq_zero_or_pos n with rfl | hn
  · rw [compares_zero_iff]
    simp
  by_cases hstop : ∃ j, 1 ≤ j ∧ j < n ∧ j < 2 ^ 31 ∧ Stops s1 s2 j
  · -- the loop ends at the first such position, and only there it can be settled
    obtain ⟨hj, hjn, hlt, hj'⟩ := Nat.find_spec hstop
    have hmin := fun i => @Nat.find_min _ _ hstop i
    generalize Nat.find hstop = j at hj hjn hlt hj' hmin
    have hgo : ∀ k, 1 ≤ k → k < j → ¬ Stops s1 s2 k := fun k hk hkj hs =>
      hmin k hkj ⟨hk, by omega, by omega, hs⟩
    rw [compares_iff_of_stop hj hjn hlt hj' hgo]
    refine and_congr_right fun _ => and_congr_right fun _ => ⟨fun h => Or.inr
      ⟨j, hj, hjn, hlt, fun k hk hkj => not_stops_iff.1 (hgo k hk hkj), h⟩, ?_⟩
    rintro (⟨rfl, -⟩ | ⟨i, hi, -, -, hsame, h⟩)
    · omega
    · rcases lt_trichotomy i j with hij | rfl | hij
      · exact absurd (hsettled i h) (hgo i hi hij)
      · exact h
      · exact absurd hj' (not_stops_iff.2 (hsame j hj hij))
  · refine iff_of_false (not_compares_of_goes hn fun k hk hkn hlt hs =>
      hstop ⟨k, hk, hkn, hlt, hs⟩) ?_
    rintro ⟨-, -, ⟨rfl, -⟩ | ⟨j, hj, hjn, hlt, -, h⟩⟩
    · omega
    · exact hstop ⟨j, hj, hjn, hlt, hsettled j h⟩

/-- `"tar"` is not distinguished from `"bar"`. -/
theorem bar_compares_equal : ¬ ∃ c, strncmpRun (literal ['t', 'a', 'r']) (literal ['b', 'a', 'r']) 64 =
    some c ∧ Compares (literal ['t', 'a', 'r']) (literal ['b', 'a', 'r']) 64 c := by
  rintro ⟨c, hc, hcmp⟩
  have hrun : (strncmpRun (literal ['t', 'a', 'r']) (literal ['b', 'a', 'r']) 64).map (·.result) =
    some 0 := by decide
  rw [hc, Option.map_some, Option.some_inj] at hrun
  exact absurd (hcmp.zero.1 hrun 0 (by decide) (by simp)) (by decide)

end Str

end TitanOS
