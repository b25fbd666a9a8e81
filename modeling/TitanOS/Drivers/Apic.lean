import TitanOS.Boot.Tags
import TitanOS.Drivers.Acpi

/-!
# The search for the I/O APIC (`drivers/apic.c`)

The MADT has 44 bytes of header, and then entries, of which each begins with its type and its length.
`get_ioapic` goes from one to the next and returns the address in the first one of type 1.  It reads
eight bytes at offset 4, the address and the GSI base behind it, and it takes the end of the table
for one more entry.
-/

namespace TitanOS

namespace Apic

open LittleEndian Mb2

/-- `madt_types_t`. -/
inductive MadtType
  | lapic
  | ioapic
  | ioapicOverride
  | ioapicNmi
  | lapicNmi
  | lapicAddrOverride
  | lx2apic
  deriving DecidableEq, Repr

/-- A byte as a `madt_types_t`; `none` is a value without a name. -/
def MadtType.ofByte (b : UInt8) : Option MadtType :=
  [lapic, ioapic, ioapicOverride, ioapicNmi, lapicNmi, lapicAddrOverride, lx2apic][b.toNat]?

/-- The addresses examined as entries, and the pointer that is returned, `0` for `NULL`. -/
structure Search where
  examined : List ℕ
  result : Option ℕ

/-- One more entry, in front of the others. -/
def Search.examine (s : Search) (a : ℕ) : Search := { s with examined := a :: s.examined }

/-- The loop of `get_ioapic`.  A panic does not return. -/
def getIoapicLoop (mem : ℕ → UInt8) (madt : ℕ) : ℕ → ℕ → Search
  | 0, _ => ⟨[], none⟩
  | fuel + 1, madtEntries =>
    if madtEntries ≤ (madt + load mem (madt + 4) 4) % 2 ^ 64 then
      match MadtType.ofByte (mem madtEntries) with
      | some .ioapic => ⟨[madtEntries], some (load mem (madtEntries + 4) 8)⟩
      | some .lapic | some .ioapicOverride | some .ioapicNmi | some .lapicNmi
      | some .lapicAddrOverride =>
        (getIoapicLoop mem madt fuel
          ((madtEntries + (mem (madtEntries + 1)).toNat) % 2 ^ 64)).examine madtEntries
      | some .lx2apic | none => ⟨[madtEntries], none⟩
    else ⟨[], some 0⟩

/-- `get_ioapic`, with the table that `get_acpi_table` returns. -/
def getIoapic (mem : ℕ → UInt8) (madt fuel : ℕ) : Search :=
  if madt = 0 then ⟨[], none⟩ else getIoapicLoop mem madt fuel (madt + Acpi.headerSize + 8)

/-! ### The table -/

/-- An entry of the MADT. -/
inductive MadtEntry
  | ioapic (id reserved : UInt8) (address gsiBase : ℕ) (rest : List UInt8)
      (address_lt : address < 2 ^ 32) (gsiBase_lt : gsiBase < 2 ^ 32)
      (length_lt : 12 + rest.length < 256)
  | other (type : UInt8) (data : List UInt8) (type_le : type.toNat ≤ 5) (type_ne : type.toNat ≠ 1)
      (length_lt : 2 + data.length < 256)

/-- The bytes of an entry. -/
def MadtEntry.bytes : MadtEntry → List UInt8
  | .ioapic id reserved address gsiBase rest .. =>
    1 :: UInt8.ofNat (12 + rest.length) :: id :: reserved ::
      (leBytes 4 address ++ leBytes 4 gsiBase ++ rest)
  | .other type data .. => type :: UInt8.ofNat (2 + data.length) :: data

/-- The bytes of the entries. -/
def encode (es : List MadtEntry) : List UInt8 := es.flatMap MadtEntry.bytes

/-- A table with the entries `es` is at `madt`. -/
structure MadtAt (mem : ℕ → UInt8) (madt : ℕ) (es : List MadtEntry) : Prop where
  nonNull : madt ≠ 0
  length : load mem (madt + 4) 4 = 44 + (encode es).length
  entries : BytesAt mem (madt + 44) (encode es)
  fits : madt + 44 + (encode es).length < 2 ^ 64

/-- The address and the GSI base of the first I/O APIC. -/
def firstIoapic : List MadtEntry → Option (ℕ × ℕ)
  | [] => none
  | .ioapic _ _ address gsiBase _ _ _ _ :: _ => some (address, gsiBase)
  | .other .. :: es => firstIoapic es

/-- The search returns the address of the first I/O APIC, or `NULL`, and examines nothing behind the
table. -/
def FindsIoapic (mem : ℕ → UInt8) (madt : ℕ) (es : List MadtEntry) : Prop :=
  ∃ fuel, (getIoapic mem madt fuel).result = some (((firstIoapic es).map Prod.fst).getD 0) ∧
    ∀ a ∈ (getIoapic mem madt fuel).examined, a < madt + load mem (madt + 4) 4

/-! ### One entry -/

variable {mem : ℕ → UInt8} {madt a fuel r : ℕ} {e : MadtEntry} {es : List MadtEntry}

theorem bytesAt_cons {b : UInt8} {bs : List UInt8} :
    BytesAt mem a (b :: bs) ↔ mem a = b ∧ BytesAt mem (a + 1) bs := by
  have hsplit := @bytesAt_append mem a [b] bs
  rw [List.singleton_append, List.length_singleton] at hsplit
  rw [hsplit]
  refine and_congr_left fun _ => ⟨fun h => h 0 Nat.one_pos, fun h k hk => ?_⟩
  obtain rfl : k = 0 := by simpa using hk
  exact h

/-- An entry of another type is skipped. -/
theorem getIoapicLoop_other {type : UInt8} {data : List UInt8} {h1 h2 h3}
    (hle : a ≤ (madt + load mem (madt + 4) 4) % 2 ^ 64)
    (h : BytesAt mem a (MadtEntry.other type data h1 h2 h3).bytes) :
    getIoapicLoop mem madt (fuel + 1) a = (getIoapicLoop mem madt fuel
      ((a + (MadtEntry.other type data h1 h2 h3).bytes.length) % 2 ^ 64)).examine a := by
  obtain ⟨htype, hrest⟩ := bytesAt_cons.1 h
  obtain ⟨hlen, -⟩ := bytesAt_cons.1 hrest
  have hlength : (mem (a + 1)).toNat = (MadtEntry.other type data h1 h2 h3).bytes.length := by
    rw [hlen, UInt8.toNat_ofNat', Nat.mod_eq_of_lt h3, MadtEntry.bytes]
    simp only [List.length_cons]
    omega
  have hcases : type.toNat = 0 ∨ type.toNat = 2 ∨ type.toNat = 3 ∨ type.toNat = 4 ∨
      type.toNat = 5 := by omega
  rw [getIoapicLoop, if_pos hle, htype, hlength, MadtType.ofByte]
  rcases hcases with ht | ht | ht | ht | ht <;> rw [ht] <;> rfl

/-- At an I/O APIC the search ends.  The GSI base is read as the upper half of the address. -/
theorem getIoapicLoop_ioapic {id reserved : UInt8} {address gsiBase : ℕ} {rest : List UInt8}
    {h1 h2 h3} (hle : a ≤ (madt + load mem (madt + 4) 4) % 2 ^ 64)
    (h : BytesAt mem a (MadtEntry.ioapic id reserved address gsiBase rest h1 h2 h3).bytes) :
    getIoapicLoop mem madt (fuel + 1) a = ⟨[a], some (address + 2 ^ 32 * gsiBase)⟩ := by
  simp only [MadtEntry.bytes, bytesAt_cons, bytesAt_append, length_leBytes] at h
  obtain ⟨htype, -, -, -, ⟨haddress, hgsi⟩, -⟩ := h
  have hload : load mem (a + 4) 8 = address + 2 ^ 32 * gsiBase := by
    rw [show 8 = 4 + 4 from rfl, load_add, load_of_bytesAt haddress h1, load_of_bytesAt hgsi h2]
    norm_num
  rw [getIoapicLoop, if_pos hle, htype, hload]
  rfl

/-! ### The walk -/

theorem encode_cons : encode (e :: es) = e.bytes ++ encode es := List.flatMap_cons

/-- What is found does not depend on the fuel. -/
theorem result_of_found {address gsiBase : ℕ} (hfirst : firstIoapic es = some (address, gsiBase))
    (hstop : (madt + load mem (madt + 4) 4) % 2 ^ 64 = a + (encode es).length)
    (hlt : a + (encode es).length < 2 ^ 64) (h : BytesAt mem a (encode es))
    (hr : (getIoapicLoop mem madt fuel a).result = some r) : r = address + 2 ^ 32 * gsiBase := by
  induction es generalizing a fuel with
  | nil => cases hfirst
  | cons e es ih =>
    cases fuel with
    | zero => cases hr
    | succ fuel =>
      rw [encode_cons, List.length_append] at hstop hlt
      rw [encode_cons, bytesAt_append] at h
      cases e with
      | ioapic id reserved address' gsiBase' rest h1 h2 h3 =>
        cases hfirst
        rw [getIoapicLoop_ioapic (by omega) h.1] at hr
        exact (Option.some.inj hr).symm
      | other type data h1 h2 h3 =>
        rw [getIoapicLoop_other (by omega) h.1, Nat.mod_eq_of_lt (by omega)] at hr
        exact ih hfirst (by omega) (by omega) h.2 hr

/-- The walk up to the first I/O APIC stays in the table. -/
theorem exists_found {address gsiBase : ℕ} (hfirst : firstIoapic es = some (address, gsiBase))
    (hstop : (madt + load mem (madt + 4) 4) % 2 ^ 64 = a + (encode es).length)
    (hlt : a + (encode es).length < 2 ^ 64) (h : BytesAt mem a (encode es)) :
    ∃ fuel, (getIoapicLoop mem madt fuel a).result = some (address + 2 ^ 32 * gsiBase) ∧
      ∀ b ∈ (getIoapicLoop mem madt fuel a).examined, b < a + (encode es).length := by
  induction es generalizing a with
  | nil => cases hfirst
  | cons e es ih =>
    rw [encode_cons, List.length_append] at hstop hlt ⊢
    rw [encode_cons, bytesAt_append] at h
    have hpos : 0 < e.bytes.length := by cases e <;> exact Nat.succ_pos _
    cases e with
    | ioapic id reserved address' gsiBase' rest h1 h2 h3 =>
      cases hfirst
      refine ⟨1, ?_, fun b hb => ?_⟩
      · rw [getIoapicLoop_ioapic (by omega) h.1]
      · rw [getIoapicLoop_ioapic (by omega) h.1] at hb
        obtain rfl := List.mem_singleton.1 hb
        omega
    | other type data h1 h2 h3 =>
      obtain ⟨fuel, hres, hin⟩ := ih hfirst (by omega) (by omega) h.2
      refine ⟨fuel + 1, ?_, fun b hb => ?_⟩
      · rw [getIoapicLoop_other (by omega) h.1, Nat.mod_eq_of_lt (by omega)]
        exact hres
      · rw [getIoapicLoop_other (by omega) h.1, Nat.mod_eq_of_lt (by omega)] at hb
        rcases List.mem_cons.1 hb with rfl | hb
        · omega
        · have := hin b hb
          omega

/-- Without an I/O APIC the byte behind the table is taken for an entry. -/
theorem end_mem_examined (hfirst : firstIoapic es = none)
    (hstop : (madt + load mem (madt + 4) 4) % 2 ^ 64 = a + (encode es).length)
    (hlt : a + (encode es).length < 2 ^ 64) (h : BytesAt mem a (encode es))
    (hr : (getIoapicLoop mem madt fuel a).result = some r) :
    a + (encode es).length ∈ (getIoapicLoop mem madt fuel a).examined := by
  induction es generalizing a fuel with
  | nil =>
    cases fuel with
    | zero => cases hr
    | succ fuel =>
      have hend : a + (encode []).length = a := rfl
      rw [hend] at hstop ⊢
      rw [getIoapicLoop, if_pos hstop.ge]
      -- whatever is behind the table, it is looked at
      split <;> exact List.mem_cons_self
  | cons e es ih =>
    cases fuel with
    | zero => cases hr
    | succ fuel =>
      rw [encode_cons, List.length_append] at hstop hlt ⊢
      rw [encode_cons, bytesAt_append] at h
      cases e with
      | ioapic => cases hfirst
      | other type data h1 h2 h3 =>
        rw [getIoapicLoop_other (by omega) h.1, Nat.mod_eq_of_lt (by omega)] at hr ⊢
        have hend := ih hfirst (by omega) (by omega) h.2 hr
        rw [← add_assoc]
        exact List.mem_cons_of_mem _ hend

/-- **When the I/O APIC is found**: there is one, and the GSI base of the first one is 0. -/
theorem finds_ioapic_iff (mem : ℕ → UInt8) (madt : ℕ) (es : List MadtEntry)
    (h : MadtAt mem madt es) : FindsIoapic mem madt es ↔
      ∃ address, firstIoapic es = some (address, 0) := by
  have hstop : (madt + load mem (madt + 4) 4) % 2 ^ 64 = madt + 44 + (encode es).length := by
    rw [h.length, ← add_assoc, Nat.mod_eq_of_lt h.fits]
  have hstart : ∀ fuel, getIoapic mem madt fuel = getIoapicLoop mem madt fuel (madt + 44) :=
    fun fuel => if_neg h.nonNull
  simp only [FindsIoapic, hstart, h.length, ← add_assoc]
  cases hfirst : firstIoapic es with
  | none =>
    refine iff_of_false ?_ (by simp)
    rintro ⟨fuel, hres, hin⟩
    exact lt_irrefl _ (hin _ (end_mem_examined hfirst hstop h.fits h.entries hres))
  | some found =>
    obtain ⟨address, gsiBase⟩ := found
    simp only [Option.map_some, Option.getD_some, Option.some.injEq, Prod.mk.injEq]
    constructor
    · rintro ⟨fuel, hres, -⟩
      have := result_of_found hfirst hstop h.fits h.entries hres
      exact ⟨address, rfl, by omega⟩
    · rintro ⟨_, -, rfl⟩
      exact exists_found hfirst hstop h.fits h.entries

/-! ### Two tables -/

/-- A table with the given entries at `madt`, and nothing behind it. -/
def tableOf (madt : ℕ) (es : List MadtEntry) : ℕ → UInt8 := fun a =>
  if madt + 44 ≤ a then (encode es).getD (a - (madt + 44)) 0
  else store (fun _ => 0) (madt + 4) 4 (44 + (encode es).length) a

theorem madtAt_tableOf (hmadt : madt ≠ 0) (hlen : 44 + (encode es).length < 2 ^ 32)
    (hfits : madt + 44 + (encode es).length < 2 ^ 64) : MadtAt (tableOf madt es) madt es := by
  refine ⟨hmadt, ?_, fun k hk => ?_, hfits⟩
  · have hload : load (tableOf madt es) (madt + 4) 4 =
        load (store (fun _ => 0) (madt + 4) 4 (44 + (encode es).length)) (madt + 4) 4 :=
      load_congr fun b _ hb => if_neg (by omega)
    rw [hload, load_store, Nat.mod_eq_of_lt (show 44 + (encode es).length < 256 ^ 4 from hlen)]
  · rw [tableOf, if_pos (Nat.le_add_right _ _), Nat.add_sub_cancel_left]

/-- A processor and an I/O APIC at `0xfec00000`. -/
def oneIoapic (gsiBase : ℕ) (h : gsiBase < 2 ^ 32) : List MadtEntry :=
  [.other 0 [0, 0, 1, 0, 0, 0] (by decide) (by decide) (by decide),
    .ioapic 0 0 0xfec00000 gsiBase [] (by decide) h (by decide)]

/-- An I/O APIC whose first interrupt is 0. -/
theorem finds_ioapic_first :
    FindsIoapic (tableOf 0xe0000 (oneIoapic 0 (by decide))) 0xe0000 (oneIoapic 0 (by decide)) :=
  (finds_ioapic_iff _ 0xe0000 _
    (madtAt_tableOf (by decide) (by decide) (by decide))).2 ⟨0xfec00000, rfl⟩

/-- An I/O APIC whose first interrupt is 24. -/
theorem gsi_base_in_address : MadtAt (tableOf 0xe0000 (oneIoapic 24 (by decide))) 0xe0000
      (oneIoapic 24 (by decide)) ∧
    ¬ FindsIoapic (tableOf 0xe0000 (oneIoapic 24 (by decide))) 0xe0000
      (oneIoapic 24 (by decide)) := by
  have htable : MadtAt (tableOf 0xe0000 (oneIoapic 24 (by decide))) 0xe0000
      (oneIoapic 24 (by decide)) := madtAt_tableOf (by decide) (by decide) (by decide)
  refine ⟨htable, ?_⟩
  rintro ⟨fuel, hres, -⟩
  rw [getIoapic, if_neg htable.nonNull] at hres
  have hfound := result_of_found (by rfl) (by rw [htable.length]; decide) htable.fits
    htable.entries hres
  exact absurd hfound (by decide)

end Apic

end TitanOS
