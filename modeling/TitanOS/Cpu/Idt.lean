import TitanOS.Cpu.Frames

/-!
# The interrupt descriptor table (`isr.c`, `isr_stubs.S`)

`setup_idt` points the entries of the table at the stubs, sixteen bytes apart.  There is a stub for
each exception, and behind them the number that a stub pushes starts again at 8: vector `v` reaches
`interrupt_handler` as `v - 24`.  So the system calls, `int $0xfe`, arrive as `0xe6`.

The table is in memory, and the processor puts the address of a stub together from three fields.
-/

namespace TitanOS

open LittleEndian

/-- What the processor finds in an entry. -/
structure Gate where
  offset : ℕ
  selector : ℕ
  ist : ℕ
  type : ℕ
  dpl : ℕ
  present : ℕ
  deriving DecidableEq

/-- The entry of vector `v` as the processor reads it. -/
def gate (idt : ℕ → UInt8) (v : ℕ) : Gate where
  offset := load idt (16 * v) 2 + 2 ^ 16 * load idt (16 * v + 6) 2 + 2 ^ 32 * load idt (16 * v + 8) 4
  selector := load idt (16 * v + 2) 2
  ist := load idt (16 * v + 4) 1 % 8
  type := load idt (16 * v + 5) 1 % 16
  dpl := load idt (16 * v + 5) 1 / 32 % 4
  present := load idt (16 * v + 5) 1 / 128 % 2

/-- The stubs behind `start_isr_stubs`. -/
def isrStubs : List Stub :=
  [⟨false, 0x0⟩, ⟨false, 0x1⟩, ⟨false, 0x2⟩, ⟨false, 0x3⟩, ⟨false, 0x4⟩, ⟨false, 0x5⟩, ⟨false, 0x6⟩,
    ⟨false, 0x7⟩, ⟨false, 0x8⟩, ⟨false, 0x9⟩, ⟨true, 0xa⟩, ⟨true, 0xb⟩, ⟨true, 0xc⟩, ⟨true, 0xd⟩,
    ⟨true, 0xe⟩, ⟨false, 0xf⟩, ⟨false, 0x10⟩, ⟨true, 0x11⟩, ⟨false, 0x12⟩, ⟨false, 0x13⟩,
    ⟨false, 0x14⟩, ⟨true, 0x15⟩, ⟨false, 0x16⟩, ⟨false, 0x17⟩, ⟨false, 0x18⟩, ⟨false, 0x19⟩,
    ⟨false, 0x1a⟩, ⟨false, 0x1b⟩, ⟨false, 0x1c⟩, ⟨true, 0x1d⟩, ⟨true, 0x1e⟩, ⟨false, 0x1f⟩] ++
  -- `.set i, 8` and `.rept 247`
  (List.range 247).map fun i => ⟨false, .ofNat (8 + i)⟩

/-- The stub at an address, if one begins there. -/
def stubAt (startIsrStubs a : ℕ) : Option Stub :=
  if startIsrStubs ≤ a ∧ (a - startIsrStubs) % 16 = 0 then isrStubs[(a - startIsrStubs) / 16]?
  else none

/-- The exceptions for which the processor pushes an error code. -/
def pushesErrorCode (v : ℕ) : Bool := [8, 10, 11, 12, 13, 14, 17, 21, 29, 30].contains v

variable {idt : ℕ → UInt8} {v vec isrAddr dpl startIsrStubs n : ℕ}

/-- The number that the stub of a vector pushes. -/
def stubVec (v : ℕ) : ℕ := if v < 32 then v else v - 24

end TitanOS
