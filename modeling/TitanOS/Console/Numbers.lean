import Mathlib.Tactic

/-!
# Numbers on the console (`drivers/vga.c`)

`printlong` writes 16 hexadecimal digits.  `printint` fills its buffer from the back, and prints from
behind the character it has stored last, so that the first digit is missing.  The remainder of a
negative number is stored in a `uint8_t`, so that the loop runs through the whole buffer and prints
13 characters below `1`.

`significant` counts the digits `1` to `9`, of which `printint` prints fewer than the numeral has for
every number but 0 (`significant_printint_lt`).
-/

namespace TitanOS

open Function (update)

/-- The byte of a character. -/
def ch (c : Char) : UInt8 := UInt8.ofNat c.toNat

namespace Numbers

/-- The string that begins at index `i` of an array of `n` characters. -/
def stringFrom (s : ℕ → UInt8) (i n : ℕ) : List UInt8 :=
  ((List.range' i (n - i)).map s).takeWhile (· ≠ 0)

/-- The loop of `printint`: the buffer and the index of `cut_num_str`.  The difference is computed in
32 bits. -/
def printintLoop : ℕ → ℤ → (ℕ → UInt8) → (ℕ → UInt8) × ℕ
  | 0, _, numStr => (numStr, 0)
  | i + 1, d, numStr =>
    let digit := d.tmod 10 % 256
    let numStr := update numStr i (UInt8.ofNat (48 + digit).toNat)
    let d := ((d - digit).bmod (2 ^ 32)).tdiv 10
    if d = 0 ∨ i = 0 then (numStr, i + 1) else printintLoop i d numStr

/-- `printint`: the characters that it prints.  What the buffer holds before is not among them. -/
def printint (d : ℤ) : List UInt8 :=
  let r := printintLoop 14 d (update (fun _ => 0) 14 0)
  stringFrom r.1 r.2 15

/-- The loop of `printlong`, with the index below `i`. -/
def printlongLoop : ℕ → ℕ → (ℕ → UInt8) → ℕ → UInt8
  | 0, _, numStr => numStr
  | i + 1, num, numStr =>
    let lsb := num % 16
    printlongLoop i (num / 16)
      (update numStr i (UInt8.ofNat (if lsb < 0xa then lsb + 0x30 else lsb + 0x57)))

/-- `printlong`: the characters that it prints. -/
def printlong (num : ℕ) : List UInt8 :=
  [ch '0', ch 'x'] ++ stringFrom (update (printlongLoop 16 num fun _ => 0) 16 0) 0 17

/-! ### Numerals -/

/-- The decimal numeral of a natural number. -/
def decimalNat (n : ℕ) : List UInt8 := (Nat.toDigits 10 n).map ch

/-- The signed decimal numeral. -/
def decimal (d : ℤ) : List UInt8 := (if d < 0 then [ch '-'] else []) ++ decimalNat d.natAbs

/-- The 16 hexadecimal digits of a number. -/
def hexadecimal (v : ℕ) : List UInt8 :=
  (List.range 16).map fun k => ch (Nat.digitChar (v / 16 ^ (15 - k) % 16))

/-- The number of digits from `1` to `9`. -/
def significant (cs : List UInt8) : ℕ := cs.countP fun c => ch '1' ≤ c ∧ c ≤ ch '9'

variable {d : ℤ} {i k m n num : ℕ} {s : ℕ → UInt8} {c : UInt8}

theorem ch_digitChar (h : n < 10) : ch (Nat.digitChar n) = UInt8.ofNat (48 + n) := by
  interval_cases n <;> rfl

/-- The last digit comes off the end, as in the loop of `printint`. -/
theorem decimalNat_eq (n : ℕ) : decimalNat n =
    (if n < 10 then [] else decimalNat (n / 10)) ++ [UInt8.ofNat (48 + n % 10)] := by
  unfold decimalNat
  rw [Nat.toDigits_eq_if (by norm_num)]
  split_ifs with h
  · simp [ch_digitChar h, Nat.mod_eq_of_lt h]
  · simp [ch_digitChar (Nat.mod_lt n (by norm_num : 10 > 0))]

theorem decimalNat_ne_nil (n : ℕ) : decimalNat n ≠ [] := by
  rw [decimalNat_eq]
  simp

theorem digit_ne_zero (h : k < 10) : UInt8.ofNat (48 + k) ≠ 0 := by
  interval_cases k <;> decide

/-- The digits are no terminators. -/
theorem ne_zero_of_mem_decimalNat (h : c ∈ decimalNat n) : c ≠ 0 := by
  induction n using Nat.strong_induction_on with
  | _ n ih =>
    rw [decimalNat_eq, List.mem_append, List.mem_singleton] at h
    rcases h with h | rfl
    · split_ifs at h with hlt
      · cases h
      · exact ih (n / 10) (by omega) h
    · exact digit_ne_zero (Nat.mod_lt n (by norm_num))

theorem significant_append (cs ds : List UInt8) :
    significant (cs ++ ds) = significant cs + significant ds := List.countP_append

/-- The first digit of a numeral is significant. -/
theorem significant_decimalNat (h : 1 ≤ n) :
    significant (decimalNat n) = significant (decimalNat n).tail + 1 := by
  induction n using Nat.strong_induction_on with
  | _ n ih =>
    rw [decimalNat_eq]
    split_ifs with hlt
    · interval_cases n <;> rfl
    · rw [List.tail_append_of_ne_nil (decimalNat_ne_nil _), significant_append, significant_append,
        ih (n / 10) (by omega) (by omega)]
      omega

/-! ### The buffer -/

/-- The characters from index `i` to the end of the buffer. -/
def charsFrom (s : ℕ → UInt8) (i : ℕ) : List UInt8 := (List.range' i (14 - i)).map s

/-- A character in front of the others. -/
theorem charsFrom_update (h : i < 14) : charsFrom (update s i c) i = c :: charsFrom s (i + 1) := by
  unfold charsFrom
  rw [show 14 - i = (14 - (i + 1)) + 1 by omega, List.range'_succ, List.map_cons,
    Function.update_self]
  congr 1
  refine List.map_congr_left fun k hk => Function.update_of_ne ?_ _ _
  have := (List.mem_range'_1.1 hk).1
  omega

theorem charsFrom_update_succ : charsFrom (update s i c) (i + 1) = charsFrom s (i + 1) := by
  refine List.map_congr_left fun k hk => Function.update_of_ne ?_ _ _
  have := (List.mem_range'_1.1 hk).1
  omega

/-- A string without a terminator in it, up to the one at the end of the buffer. -/
theorem stringFrom_eq (hi : i ≤ 14) (hend : s 14 = 0) (h : ∀ c ∈ charsFrom s i, c ≠ 0) :
    stringFrom s i 15 = charsFrom s i := by
  unfold stringFrom
  have hsplit : List.range' i (15 - i) = List.range' i (14 - i) ++ [14] := by
    rw [show 15 - i = (14 - i) + 1 by omega, List.range'_concat, show i + 1 * (14 - i) = 14 by omega]
  rw [hsplit, List.map_append, List.takeWhile_append_of_pos (by simpa [charsFrom] using h)]
  simp [hend, charsFrom]

/-! ### `printint` -/

/-- A turn of the loop for a number that is not negative. -/
theorem printintLoop_turn (hlt : n < 2 ^ 31) : printintLoop (i + 1) n s =
    if n / 10 = 0 ∨ i = 0 then (update s i (UInt8.ofNat (48 + n % 10)), i + 1)
    else printintLoop i (n / 10 : ℕ) (update s i (UInt8.ofNat (48 + n % 10))) := by
  have hdigit : (n : ℤ).tmod 10 % 256 = (n % 10 : ℕ) := by
    rw [Int.tmod_eq_emod_of_nonneg (by omega)]
    omega
  have hchar : (48 + ((n % 10 : ℕ) : ℤ)).toNat = 48 + n % 10 := by omega
  have hrest : (((n : ℤ) - (n % 10 : ℕ)).bmod (2 ^ 32)).tdiv 10 = (n / 10 : ℕ) := by
    rw [Int.bmod_eq_of_le (by omega) (by omega), Int.tdiv_eq_ediv_of_nonneg (by omega)]
    omega
  rw [printintLoop]
  simp only [hdigit, hchar, hrest, Nat.cast_eq_zero]

/-- For a number that is not negative, the loop stores its digits up to the first one, and cuts this
one off. -/
theorem printintLoop_natCast (hi : i < 14) (hn : n < 10 ^ (i + 1)) (hlt : n < 2 ^ 31) :
    charsFrom (printintLoop (i + 1) n s).1 (printintLoop (i + 1) n s).2 =
        (decimalNat n).tail ++ charsFrom s (i + 1) ∧
      (printintLoop (i + 1) n s).2 ≤ 14 ∧ (printintLoop (i + 1) n s).1 14 = s 14 := by
  induction i generalizing n s with
  | zero =>
    have hnil : (decimalNat n).tail = [] := by
      rw [decimalNat_eq, if_pos (by omega)]
      rfl
    rw [printintLoop_turn hlt, if_pos (Or.inr rfl), hnil, List.nil_append]
    exact ⟨charsFrom_update_succ, by norm_num,
      Function.update_of_ne (by norm_num : 14 ≠ 0) (UInt8.ofNat (48 + n % 10)) s⟩
  | succ i ih =>
    rw [printintLoop_turn hlt]
    by_cases hlast : n / 10 = 0
    · have hnil : (decimalNat n).tail = [] := by
        rw [decimalNat_eq, if_pos (by omega)]
        rfl
      rw [if_pos (Or.inl hlast), hnil, List.nil_append]
      exact ⟨charsFrom_update_succ, by simp only; omega, Function.update_of_ne (by omega) _ _⟩
    · obtain ⟨hchars, hcut, hend⟩ := @ih (n / 10) (update s (i + 1) (UInt8.ofNat (48 + n % 10)))
        (by omega) (by rw [pow_succ] at hn; omega) (by omega)
      rw [if_neg (by omega)]
      refine ⟨?_, hcut, hend.trans (Function.update_of_ne (by omega) _ _)⟩
      rw [hchars, charsFrom_update hi, decimalNat_eq n, if_neg (by omega),
        List.tail_append_of_ne_nil (decimalNat_ne_nil _), List.append_assoc, List.singleton_append]

/-- **What `printint` prints** for a number that is not negative: the numeral without its first
digit. -/
theorem printint_natCast (hlt : n < 2 ^ 31) : printint n = (decimalNat n).tail := by
  obtain ⟨hchars, hcut, hend⟩ := @printintLoop_natCast 13 n (update (fun _ => 0) 14 0) (by norm_num)
    (hlt.trans (by norm_num)) hlt
  have hnil : charsFrom (update (fun _ => 0) 14 0) 14 = [] := rfl
  rw [hnil, List.append_nil] at hchars
  unfold printint
  simp only
  rw [stringFrom_eq hcut (by rw [hend, Function.update_self]) fun c hc => ?_, hchars]
  rw [hchars] at hc
  exact ne_zero_of_mem_decimalNat (List.mem_of_mem_tail hc)

/-- A turn of the loop for a negative number: the remainder is stored modulo 256, and a number is
left again. -/
theorem printintLoop_neg_turn (h1 : 1 ≤ m) (hm : m ≤ 2 ^ 31)
    (hfit : m % 10 = 0 ∨ 10 * (m / 10) + 256 ≤ 2 ^ 31) :
    ∃ (c : UInt8) (m' : ℕ), 39 ≤ c.toNat ∧ c.toNat ≤ 48 ∧ 1 ≤ m' ∧ m' ≤ 2 ^ 28 ∧
      ∀ i s, printintLoop (i + 1) (-m) s =
        if i = 0 then (update s i c, i + 1) else printintLoop i (-m') (update s i c) := by
  obtain ⟨e, he, hzero⟩ : ∃ e : ℕ, (e = 0 ∨ e = 256) ∧ (e = 0 ↔ m % 10 = 0) := by
    rcases Nat.eq_zero_or_pos (m % 10) with hr | hr
    · exact ⟨0, Or.inl rfl, iff_of_true rfl hr⟩
    · exact ⟨256, Or.inr rfl, iff_of_false (by norm_num) (by omega)⟩
  have hdigit : (-(m : ℤ)).tmod 10 % 256 = (e - m % 10 : ℕ) := by
    rw [Int.neg_tmod, Int.tmod_eq_emod_of_nonneg (by omega)]
    omega
  have hchar : (48 + ((e - m % 10 : ℕ) : ℤ)).toNat = 48 + (e - m % 10) := by omega
  have hrest : ((-(m : ℤ) - (e - m % 10 : ℕ)).bmod (2 ^ 32)).tdiv 10 =
      -((10 * (m / 10) + e) / 10 : ℕ) := by
    rw [Int.bmod_eq_of_le (by omega) (by omega),
      show -(m : ℤ) - (e - m % 10 : ℕ) = -(10 * (m / 10) + e : ℕ) by omega, Int.neg_tdiv,
      Int.tdiv_eq_ediv_of_nonneg (by omega)]
    omega
  have hpos : 1 ≤ (10 * (m / 10) + e) / 10 := by omega
  have hbyte : (UInt8.ofNat (48 + (e - m % 10))).toNat = (48 + (e - m % 10)) % 256 :=
    UInt8.toNat_ofNat'
  refine ⟨UInt8.ofNat (48 + (e - m % 10)), (10 * (m / 10) + e) / 10, by omega, by omega, hpos,
    by omega, fun i s => ?_⟩
  rw [printintLoop]
  simp only [hdigit, hchar, hrest]
  have hne : -(((10 * (m / 10) + e) / 10 : ℕ) : ℤ) ≠ 0 := by omega
  simp only [hne, false_or]

/-- For a negative number, the loop goes to the beginning of the buffer. -/
theorem printintLoop_neg (h1 : 1 ≤ m) (hm : m ≤ 2 ^ 31)
    (hfit : m % 10 = 0 ∨ 10 * (m / 10) + 256 ≤ 2 ^ 31) :
    (printintLoop (i + 1) (-m) s).2 = 1 ∧ ∀ k, (k ≤ i →
        39 ≤ ((printintLoop (i + 1) (-m) s).1 k).toNat ∧
          ((printintLoop (i + 1) (-m) s).1 k).toNat ≤ 48) ∧
      (i < k → (printintLoop (i + 1) (-m) s).1 k = s k) := by
  induction i generalizing m s with
  | zero =>
    obtain ⟨c, m', hlo, hhi, -, -, hturn⟩ := printintLoop_neg_turn h1 hm hfit
    rw [hturn, if_pos rfl]
    refine ⟨rfl, fun k => ⟨fun hk => ?_, fun hk => Function.update_of_ne (by omega) _ _⟩⟩
    obtain rfl := Nat.le_zero.1 hk
    simp only [Function.update_self]
    exact ⟨hlo, hhi⟩
  | succ i ih =>
    obtain ⟨c, m', hlo, hhi, h1', hm', hturn⟩ := printintLoop_neg_turn h1 hm hfit
    rw [hturn, if_neg (Nat.succ_ne_zero i)]
    obtain ⟨hcut, hchars⟩ := @ih m' (update s (i + 1) c) h1' (by omega) (Or.inr (by omega))
    refine ⟨hcut, fun k => ⟨fun hk => ?_, fun hk => ?_⟩⟩
    · rcases Nat.le_succ_iff.1 hk with hk | rfl
      · exact (hchars k).1 hk
      · rw [(hchars (i + 1)).2 (Nat.lt_succ_self i), Function.update_self]
        exact ⟨hlo, hhi⟩
    · rw [(hchars k).2 (by omega), Function.update_of_ne (by omega)]

/-- **What `printint` prints** for a negative number has no significant digit. -/
theorem significant_printint_neg (h1 : 1 ≤ m) (hm : m ≤ 2 ^ 31)
    (hfit : m % 10 = 0 ∨ 10 * (m / 10) + 256 ≤ 2 ^ 31) :
    significant (printint (-m)) = 0 := by
  obtain ⟨hcut, hchars⟩ := @printintLoop_neg 13 m (update (fun _ => 0) 14 0) h1 hm hfit
  unfold printint significant
  simp only [hcut]
  refine List.countP_eq_zero.2 fun c hc => ?_
  have hmem := (List.takeWhile_sublist _).subset hc
  obtain ⟨k, hk, rfl⟩ := List.mem_map.1 hmem
  have hrange := List.mem_range'_1.1 hk
  rcases Nat.lt_or_ge 13 k with hlt | hle
  · have hzero : (printintLoop 14 (-m) (update (fun _ => 0) 14 0)).1 k = 0 := by
      rw [(hchars k).2 hlt, show k = 14 by omega, Function.update_self]
    rw [hzero]
    decide
  · have hhi : ((printintLoop 14 (-m) (update (fun _ => 0) 14 0)).1 k).toNat ≤ 48 :=
      ((hchars k).1 hle).2
    have hlt : ¬ ch '1' ≤ (printintLoop 14 (-m) (update (fun _ => 0) 14 0)).1 k := by
      rw [UInt8.le_iff_toNat_le]
      have hone : (ch '1').toNat = 49 := rfl
      omega
    exact fun h => hlt (of_decide_eq_true h).1

/-- The first turn for one of the lowest numbers: the difference overflows, and a positive number is
left. -/
theorem printintLoop_lowest_turn (hm : m ≤ 2 ^ 31) (hr : m % 10 ≠ 0)
    (hover : 2 ^ 31 < 10 * (m / 10) + 256) : printintLoop 14 (-m) s =
      printintLoop 13 (429496704 - m / 10 : ℕ) (update s 13 (UInt8.ofNat (304 - m % 10))) := by
  have hdigit : (-(m : ℤ)).tmod 10 % 256 = (256 - m % 10 : ℕ) := by
    rw [Int.neg_tmod, Int.tmod_eq_emod_of_nonneg (by omega)]
    omega
  have hchar : (48 + ((256 - m % 10 : ℕ) : ℤ)).toNat = 304 - m % 10 := by omega
  have hwrap : (-(m : ℤ) - (256 - m % 10 : ℕ)).bmod (2 ^ 32) = (10 * (429496704 - m / 10) : ℕ) := by
    rw [← Int.add_bmod_right, Int.bmod_eq_of_le (by omega) (by omega)]
    omega
  have hrest : ((-(m : ℤ) - (256 - m % 10 : ℕ)).bmod (2 ^ 32)).tdiv 10 =
      (429496704 - m / 10 : ℕ) := by
    rw [hwrap, Int.tdiv_eq_ediv_of_nonneg (by omega)]
    omega
  have hne : ((429496704 - m / 10 : ℕ) : ℤ) ≠ 0 := by omega
  rw [printintLoop]
  simp only [hdigit, hchar, hrest, hne, false_or]
  rw [if_neg (by norm_num)]

theorem printint_lowest (hm : m ≤ 2 ^ 31) (hr : m % 10 ≠ 0)
    (hover : 2 ^ 31 < 10 * (m / 10) + 256) : printint (-m) =
      (decimalNat (429496704 - m / 10)).tail ++ [UInt8.ofNat (304 - m % 10)] := by
  have hturn := @printintLoop_lowest_turn m (update (fun _ => 0) 14 0) hm hr hover
  obtain ⟨hchars, hcut, hend⟩ := @printintLoop_natCast 12 (429496704 - m / 10)
    (update (update (fun _ => 0) 14 0) 13 (UInt8.ofNat (304 - m % 10))) (by norm_num)
    (by norm_num; omega) (by omega)
  have hlast : charsFrom (update (update (fun _ => 0) 14 0) 13 (UInt8.ofNat (304 - m % 10))) 13 =
      [UInt8.ofNat (304 - m % 10)] := by
    rw [charsFrom_update (by norm_num)]
    rfl
  rw [hlast] at hchars
  unfold printint
  simp only [hturn]
  rw [stringFrom_eq hcut (by rw [hend]; rfl) fun c hc => ?_, hchars]
  rw [hchars, List.mem_append, List.mem_singleton] at hc
  rcases hc with hc | rfl
  · exact ne_zero_of_mem_decimalNat (List.mem_of_mem_tail hc)
  · intro hzero
    have hbyte := congrArg UInt8.toNat hzero
    rw [UInt8.toNat_ofNat', UInt8.toNat_zero] at hbyte
    omega

/-- The digit that is stored in place of a remainder of a negative number is not significant. -/
theorem significant_remainder (hr : m % 10 ≠ 0) :
    significant [UInt8.ofNat (304 - m % 10)] = 0 := by
  have hlt : m % 10 < 10 := Nat.mod_lt m (by norm_num)
  interval_cases m % 10
  · exact absurd rfl hr
  all_goals rfl

/-- What is left after the overflow has fewer significant digits than the number. -/
theorem significant_printint_lowest (hm : m ≤ 2 ^ 31) (hr : m % 10 ≠ 0)
    (hover : 2 ^ 31 < 10 * (m / 10) + 256) :
    significant (printint (-m)) < significant (decimalNat m) := by
  have hrest : ∀ q ∈ List.range' 214748340 25,
      significant (decimalNat (429496704 - q)).tail ≤ significant (decimalNat q) := by
    decide +kernel
  have hlast : significant [UInt8.ofNat (48 + m % 10)] = 1 := by
    have hlt : m % 10 < 10 := Nat.mod_lt m (by norm_num)
    interval_cases m % 10
    · exact absurd rfl hr
    all_goals rfl
  have hq := hrest (m / 10) (List.mem_range'_1.2 ⟨by omega, by omega⟩)
  rw [printint_lowest hm hr hover, significant_append, significant_remainder hr, decimalNat_eq m,
    if_neg (by omega), significant_append, hlast]
  omega

theorem significant_decimal_neg (h : 1 ≤ m) :
    significant (decimal (-m)) = significant (decimalNat m) := by
  rw [decimal, if_pos (by omega), significant_append, Int.natAbs_neg, Int.natAbs_natCast]
  exact Nat.zero_add _

/-- **`printint` is wrong for every number but 0**: it prints too few significant digits. -/
theorem significant_printint_lt (hlo : -2 ^ 31 ≤ d) (hhi : d < 2 ^ 31) (h : d ≠ 0) :
    significant (printint d) < significant (decimal d) := by
  rcases lt_trichotomy d 0 with hneg | rfl | hpos
  · obtain ⟨m, rfl⟩ : ∃ m : ℕ, d = -m := ⟨d.natAbs, by omega⟩
    rw [significant_decimal_neg (by omega)]
    by_cases hfit : m % 10 = 0 ∨ 10 * (m / 10) + 256 ≤ 2 ^ 31
    · rw [significant_printint_neg (by omega) (by omega) hfit, significant_decimalNat (by omega)]
      omega
    · obtain ⟨hr, hover⟩ := not_or.1 hfit
      exact significant_printint_lowest (by omega) hr (by omega)
  · exact absurd rfl h
  · obtain ⟨n, rfl⟩ : ∃ n : ℕ, d = n := ⟨d.toNat, by omega⟩
    rw [printint_natCast (by omega), decimal, if_neg (by omega), List.nil_append,
      Int.natAbs_natCast, significant_decimalNat (by omega)]
    omega

/-- The numeral of 0 has only its first digit. -/
theorem printint_zero : printint 0 = [] := by decide

/-! ### `printlong` -/

/-- The digits below `i` are stored. -/
theorem printlongLoop_apply (s : ℕ → UInt8) (i num k : ℕ) : printlongLoop i num s k =
    if k < i then ch (Nat.digitChar (num / 16 ^ (i - 1 - k) % 16)) else s k := by
  have hdigit : ∀ x < 16, UInt8.ofNat (if x < 0xa then x + 0x30 else x + 0x57) =
      ch (Nat.digitChar x) := by decide
  induction i generalizing num s with
  | zero => rfl
  | succ i ih =>
    rw [printlongLoop]
    simp only [ih, hdigit (num % 16) (Nat.mod_lt _ (by norm_num))]
    rcases lt_trichotomy k i with hlt | rfl | hgt
    · rw [if_pos hlt, if_pos (by omega), Nat.div_div_eq_div_mul, ← pow_succ',
        show i - 1 - k + 1 = i + 1 - 1 - k by omega]
    · rw [if_neg (lt_irrefl _), if_pos (by omega), Function.update_self,
        show k + 1 - 1 - k = 0 by omega, pow_zero, Nat.div_one]
    · rw [if_neg (by omega), if_neg (by omega), Function.update_of_ne (by omega)]

/-- **What `printlong` prints.** -/
theorem printlong_eq (v : ℕ) : printlong v = [ch '0', ch 'x'] ++ hexadecimal v := by
  have hdigit : ∀ x < 16, ch (Nat.digitChar x) ≠ 0 := by decide
  have hsplit : List.range' 0 (17 - 0) = List.range 16 ++ [16] := rfl
  have hchars : (List.range 16).map (update (printlongLoop 16 v fun _ => 0) 16 0) =
      hexadecimal v := by
    refine List.map_congr_left fun k hk => ?_
    have hlt := List.mem_range.1 hk
    rw [Function.update_of_ne (by omega), printlongLoop_apply, if_pos hlt]
  have hne : ∀ c ∈ hexadecimal v, c ≠ 0 := by
    intro c hc
    obtain ⟨k, -, rfl⟩ := List.mem_map.1 hc
    exact hdigit _ (Nat.mod_lt _ (by norm_num))
  unfold printlong stringFrom
  rw [hsplit, List.map_append, hchars, List.takeWhile_append_of_pos (by simpa using hne)]
  simp

end Numbers

end TitanOS
