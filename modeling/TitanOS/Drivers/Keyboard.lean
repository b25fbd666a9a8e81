import TitanOS.Console.Window
import TitanOS.Lib.Run

/-!
# The keyboard (`drivers/keyboard.c`)

Every interrupt delivers a byte of scan code set 1, in which bit 7 tells a release from a press.
`keyboard_handler` does not look at this bit: it takes every other byte for a press, starting with
the first.  What it puts into the buffer is what was typed as long as its turns agree with the bit,
or the byte has no entry in the layout.
-/

namespace TitanOS

/-- The globals of `keyboard.c`, and the console that the handler prints to. -/
structure Keyboard where
  console : Console
  keyboardBuffer : ℕ → UInt8
  keyboardPos : ℕ
  isMake : Bool

namespace Keyboard

open Function (update)

/-- `KEYBOARD_BUFFER_SIZE`. -/
def keyboardBufferSize : ℕ := 32

/-- `keyboard_layout`, whose entries behind those listed are zero. -/
def keyboardLayout (b : ℕ) : UInt8 :=
  -- the digits, then four rows of keys, and two of the keys of the number block
  [0, 0, 49, 50, 51, 52, 53, 54, 55, 56, 57, 48,
    45, 61, 0, 0, 113, 119, 101, 114, 116, 121, 117, 105, 111, 112,
    91, 93, 0, 0, 97, 115, 100, 102, 103, 104, 106, 107, 108, 59, 39,
    96, 0, 92, 122, 120, 99, 118, 98, 110, 109, 44, 46, 47, 0, 0, 0, 32, 0,
    0, 0, 0, 0, 0, 0, 0, 0, 0, 0, 0, 0, 0, 0, 0, 45, 0, 0, 0, 43].getD b 0

/-- `keyboard_handler`, with the byte that it reads from the port and the character that it puts into
the buffer. -/
def keyboardHandler (k : Keyboard) (data : UInt8) : Keyboard × Option UInt8 :=
  let status := data &&& 0x7f
  if k.isMake then
    let status := keyboardLayout status.toNat
    if status ≠ 0 then
      ({ console := k.console.printc status
         keyboardBuffer := update k.keyboardBuffer k.keyboardPos status
         keyboardPos := (k.keyboardPos + 1) % keyboardBufferSize
         isMake := false }, some status)
    else ({ k with isMake := false }, none)
  else ({ k with isMake := true }, none)

/-! ### What is typed -/

/-- The character of a byte: that of the key, if it is a press of a key that has one. -/
def typed (b : UInt8) : Option UInt8 :=
  if b < 0x80 ∧ keyboardLayout b.toNat ≠ 0 then some (keyboardLayout b.toNat) else none

/-- A keyboard, the bytes delivered to its handler and the characters that it has put into the
buffer. -/
structure Session where
  keyboard : Keyboard
  delivered : List UInt8
  appended : List UInt8

/-- A byte is delivered. -/
def Session.step (s : Session) (b : UInt8) : Option Session :=
  let r := s.keyboard.keyboardHandler b
  some ⟨r.1, s.delivered ++ [b], s.appended ++ r.2.toList⟩

/-- The globals before the first interrupt. -/
def start (console : Console) : Session := ⟨⟨console, fun _ => 0, 0, true⟩, [], []⟩

/-- The buffer holds the last 32 of the characters, ending just before `keyboard_pos`. -/
structure RingHolds (k : Keyboard) (cs : List UInt8) : Prop where
  pos : k.keyboardPos = cs.length % keyboardBufferSize
  last : ∀ i < min keyboardBufferSize cs.length,
    k.keyboardBuffer ((k.keyboardPos + (keyboardBufferSize - 1) - i) % keyboardBufferSize) =
      cs.reverse.getD i 0

/-- The characters put into the buffer are those typed, and it holds the last 32 of them. -/
structure Recorded (s : Session) : Prop where
  appended : s.appended = s.delivered.filterMap typed
  ring : RingHolds s.keyboard (s.delivered.filterMap typed)

/-- The handler takes the byte for what it is, or the key has no character. -/
def InStep (s : Session) (b : UInt8) : Prop :=
  if s.keyboard.isMake then b < 0x80 ∨ keyboardLayout (b.toNat % 128) = 0
  else 0x80 ≤ b ∨ keyboardLayout b.toNat = 0

/-! ### One byte -/

variable {k : Keyboard} {s : Session} {b c : UInt8} {cs : List UInt8}

theorem toNat_and_lowBits (b : UInt8) : (b &&& 0x7f).toNat = b.toNat % 128 := by
  rw [UInt8.toNat_and]
  exact Nat.and_two_pow_sub_one_eq_mod b.toNat 7

/-- The character that is put into the buffer. -/
theorem keyboardHandler_snd : (k.keyboardHandler b).2 =
    if k.isMake = true ∧ keyboardLayout (b.toNat % 128) ≠ 0 then
      some (keyboardLayout (b.toNat % 128)) else none := by
  simp only [keyboardHandler, toNat_and_lowBits]
  split_ifs <;> simp_all

/-- The character goes to `keyboard_pos`. -/
theorem RingHolds.push (h : RingHolds k cs) {console : Console} {isMake : Bool} :
    RingHolds ⟨console, update k.keyboardBuffer k.keyboardPos c,
      (k.keyboardPos + 1) % keyboardBufferSize, isMake⟩ (cs ++ [c]) := by
  obtain ⟨hpos, hlast⟩ := h
  simp only [keyboardBufferSize] at hpos hlast
  refine ⟨?_, fun i hi => ?_⟩
  · simp only [hpos, keyboardBufferSize, List.length_append, List.length_singleton]
    omega
  · simp only [keyboardBufferSize, List.length_append, List.length_singleton] at hi
    simp only [keyboardBufferSize, List.reverse_append, List.reverse_singleton, List.singleton_append]
    have hlt : k.keyboardPos < 32 := by omega
    cases i with
    | zero =>
      rw [show ((k.keyboardPos + 1) % 32 + (32 - 1) - 0) % 32 = k.keyboardPos by omega,
        Function.update_self]
      rfl
    | succ i =>
      have hold := hlast i (by omega)
      rw [show ((k.keyboardPos + 1) % 32 + (32 - 1) - (i + 1)) % 32 =
        (k.keyboardPos + (32 - 1) - i) % 32 by omega, Function.update_of_ne (by omega), hold]
      rfl

/-- The buffer holds what the handler has put into it. -/
theorem RingHolds.keyboardHandler (h : RingHolds k cs) (b : UInt8) :
    RingHolds (k.keyboardHandler b).1 (cs ++ (k.keyboardHandler b).2.toList) := by
  have hsame : ∀ isMake, RingHolds { k with isMake := isMake } (cs ++ []) := fun _ => by
    rw [List.append_nil]
    exact ⟨h.pos, h.last⟩
  simp only [Keyboard.keyboardHandler]
  split_ifs
  · exact h.push
  · exact hsame false
  · exact hsame true

/-- **The step lemma**: what is put into the buffer is what was typed, exactly if the handler is in
step. -/
theorem keyboardHandler_eq_typed_iff :
    (s.keyboard.keyboardHandler b).2 = typed b ↔ InStep s b := by
  have hpress : b < 0x80 ↔ b.toNat < 128 := UInt8.lt_iff_toNat_lt
  have hrelease : 0x80 ≤ b ↔ 128 ≤ b.toNat := UInt8.le_iff_toNat_le
  rw [keyboardHandler_snd, typed, InStep]
  simp only [hpress, hrelease]
  cases s.keyboard.isMake with
  | true =>
    simp only [true_and, if_true]
    rcases lt_or_ge b.toNat 128 with hlt | hge
    · simp [hlt, Nat.mod_eq_of_lt hlt]
    · by_cases hzero : keyboardLayout (b.toNat % 128) = 0 <;> simp [hge.not_gt, hzero]
  | false =>
    rcases lt_or_ge b.toNat 128 with hlt | hge
    · by_cases hzero : keyboardLayout b.toNat = 0 <;> simp [hlt, hlt.not_ge, hzero]
    · simp [hge, hge.not_gt]

theorem recorded_start (console : Console) : Recorded (start console) :=
  ⟨rfl, rfl, fun i hi => absurd hi (by simp [start])⟩

theorem Recorded.step_iff (h : Recorded s) :
    (∀ s', s.step b = some s' → Recorded s') ↔ InStep s b := by
  have happ : s.delivered.filterMap typed ++ (typed b).toList =
      (s.delivered ++ [b]).filterMap typed := by
    rw [List.filterMap_append]
    cases htyped : typed b <;> simp [htyped]
  rw [← keyboardHandler_eq_typed_iff]
  constructor
  · intro hnext
    have hrec := (hnext _ rfl).appended
    simp only [← happ, h.appended, List.append_cancel_left_eq] at hrec
    exact Option.ext fun c => by rw [← Option.mem_toList, hrec, Option.mem_toList]
  · rintro hchar s' hs'
    obtain rfl := Option.some.inj hs'
    have hring := h.ring.keyboardHandler b
    rw [hchar, happ] at hring
    refine ⟨?_, hring⟩
    show s.appended ++ (s.keyboard.keyboardHandler b).2.toList = _
    rw [h.appended, hchar, happ]

/-- **When keyboard input is recorded faithfully**, after every byte: at each byte the handler is in
step. -/
theorem keyboard_recorded_iff (console : Console) (bs : List UInt8) :
    Run.Always Session.step Recorded (start console) bs ↔
      Run.Along Session.step InStep (start console) bs := by
  rw [Run.always_iff_along, and_iff_right (recorded_start console)]
  refine Run.along_iff_of_inv (I := Recorded) (V := fun _ _ => True)
    (fun s b hs _ => ⟨hs.step_iff, fun hstep => hs.step_iff.2 hstep⟩) (recorded_start console) ?_
  exact Run.along_of_forall fun _ _ => trivial

/-- A second key is pressed while the first one is held. -/
theorem second_press_lost : ¬ Run.Always Session.step Recorded
    (start ⟨⟨fun _ => 0, []⟩, 0, 0, 0⟩) [0x1e, 0x30] := by
  intro h
  have hlast := ((h.2 _ rfl).2 _ rfl).appended
  exact absurd hlast (by decide)

end Keyboard

end TitanOS
