import TitanOS.Lib.LittleEndian
import TitanOS.Sched.Model

/-!
# The frame of an interrupt (`isr_stubs.S`, `context_switch.h`)

An interrupt finds its way to `interrupt_handler` in three steps that all push: the processor saves
`ss`, `rsp`, `rflags`, `cs` and `rip` on the stack of its TSS, and for some exceptions an error code;
the stub of the vector pushes a zero in its place if it expects none, and the number of the vector;
`isr_stub` pushes the other registers.  What is then at `rsp` is read as a `cpu_context_t`.

The way back pops from wherever the handler says, which may be the context that is stored in another
thread.

What `interrupt_handler` itself pushes is below the frame and is left out.
-/

namespace TitanOS

open LittleEndian

/-! ### Words in memory -/

/-- The words `ws` are in memory from `a` on. -/
def Holds (mem : ℕ → UInt8) (a : ℕ) : List ℕ → Prop
  | [] => True
  | w :: ws => load mem a 8 = w ∧ Holds mem (a + 8) ws

section Holds

variable {mem mem' : ℕ → UInt8} {a : ℕ} {ws vs : List ℕ}

theorem holds_append : Holds mem a (ws ++ vs) ↔
    Holds mem a ws ∧ Holds mem (a + 8 * ws.length) vs := by
  induction ws generalizing a with
  | nil => simp [Holds]
  | cons w ws ih =>
    rw [List.cons_append, Holds, ih, Holds, and_assoc, List.length_cons,
      show a + 8 + 8 * ws.length = a + 8 * (ws.length + 1) by omega]

theorem Holds.congr (h : Holds mem a ws)
    (hmem : ∀ b, a ≤ b → b < a + 8 * ws.length → mem b = mem' b) : Holds mem' a ws := by
  induction ws generalizing a with
  | nil => trivial
  | cons w ws ih =>
    rw [List.length_cons] at hmem
    refine ⟨?_, ih h.2 fun b hb hlt => hmem b (by omega) (by omega)⟩
    rw [← h.1]
    exact load_congr fun b hb hlt => (hmem b hb (by omega)).symm

end Holds

/-! ### The stack -/

/-- `rsp`, and the memory that it points into. -/
structure Stack where
  rsp : ℕ
  mem : ℕ → UInt8

namespace Stack

/-- `push`. -/
def push (s : Stack) (w : UInt64) : Stack :=
  let rsp := (s.rsp + 2 ^ 64 - 8) % 2 ^ 64
  ⟨rsp, store s.mem rsp 8 w.toNat⟩

/-- `pop`. -/
def pop (s : Stack) : ℕ × Stack := (load s.mem s.rsp 8, ⟨(s.rsp + 8) % 2 ^ 64, s.mem⟩)

/-- One `push` after the other. -/
def pushAll (s : Stack) (ws : List UInt64) : Stack := ws.foldl push s

variable {s : Stack} {w : UInt64} {ws : List UInt64}

theorem push_eq (h : 8 ≤ s.rsp) (hlt : s.rsp < 2 ^ 64) :
    s.push w = ⟨s.rsp - 8, store s.mem (s.rsp - 8) 8 w.toNat⟩ := by
  have hrsp : (s.rsp + 2 ^ 64 - 8) % 2 ^ 64 = s.rsp - 8 := by omega
  simp only [push, hrsp]

/-- What is pushed is below the old `rsp`, the last word first, and nothing else is written. -/
theorem pushAll_spec (h : 8 * ws.length ≤ s.rsp) (hlt : s.rsp < 2 ^ 64) :
    (s.pushAll ws).rsp = s.rsp - 8 * ws.length ∧
      Holds (s.pushAll ws).mem (s.rsp - 8 * ws.length) (ws.reverse.map UInt64.toNat) ∧
      ∀ b, b < s.rsp - 8 * ws.length ∨ s.rsp ≤ b → (s.pushAll ws).mem b = s.mem b := by
  induction ws generalizing s with
  | nil => exact ⟨rfl, trivial, fun _ _ => rfl⟩
  | cons w ws ih =>
    rw [List.length_cons] at h ⊢
    have hpush : s.push w = ⟨s.rsp - 8, store s.mem (s.rsp - 8) 8 w.toNat⟩ :=
      push_eq (le_trans (by omega) h) hlt
    have hcons : s.pushAll (w :: ws) = (s.push w).pushAll ws := List.foldl_cons ..
    have hrsp : (s.push w).rsp = s.rsp - 8 := by rw [hpush]
    obtain ⟨ih₁, ih₂, ih₃⟩ := @ih (s.push w) (by rw [hrsp]; omega) (by rw [hrsp]; omega)
    have hbase : (s.push w).rsp - 8 * ws.length = s.rsp - 8 * (ws.length + 1) := by
      rw [hrsp]
      omega
    rw [hbase] at ih₁ ih₂ ih₃
    rw [hcons]
    refine ⟨ih₁, ?_, fun b hb => ?_⟩
    · rw [List.reverse_cons, List.map_append, holds_append, List.length_map, List.length_reverse]
      refine ⟨ih₂, ?_, trivial⟩
      have htop : s.rsp - 8 * (ws.length + 1) + 8 * ws.length = s.rsp - 8 := by omega
      rw [htop, load_congr fun b hb _ => ih₃ b (Or.inr (by rw [hrsp]; exact hb)), hpush, load_store]
      exact Nat.mod_eq_of_lt w.toNat_lt
    · rw [ih₃ b (by rw [hrsp]; omega), hpush]
      rcases hb with hb | hb
      · exact store_of_lt (by omega)
      · exact store_of_le (by omega)

end Stack

/-! ### Registers and contexts -/

/-- The registers that make up the state of a thread. -/
structure Registers where
  (rax rbx rcx rdx rdi rsi rbp r8 r9 r10 r11 r12 r13 r14 r15 : UInt64)
  (rip cs flags rsp ss : UInt64)
  deriving DecidableEq

/-- The context in which the registers are saved. -/
def Registers.context (r : Registers) (vec errorCode : ℕ) : CpuContext where
  rax := r.rax.toNat
  rbx := r.rbx.toNat
  rcx := r.rcx.toNat
  rdx := r.rdx.toNat
  rdi := r.rdi.toNat
  rsi := r.rsi.toNat
  rbp := r.rbp.toNat
  r8 := r.r8.toNat
  r9 := r.r9.toNat
  r10 := r.r10.toNat
  r11 := r.r11.toNat
  r12 := r.r12.toNat
  r13 := r.r13.toNat
  r14 := r.r14.toNat
  r15 := r.r15.toNat
  vec := vec
  errorCode := errorCode
  rip := r.rip.toNat
  cs := r.cs.toNat
  flags := r.flags.toNat
  rsp := r.rsp.toNat
  ss := r.ss.toNat

namespace CpuContext

/-- The registers that are saved in a context. -/
def registers (c : CpuContext) : Registers where
  rax := .ofNat c.rax
  rbx := .ofNat c.rbx
  rcx := .ofNat c.rcx
  rdx := .ofNat c.rdx
  rdi := .ofNat c.rdi
  rsi := .ofNat c.rsi
  rbp := .ofNat c.rbp
  r8 := .ofNat c.r8
  r9 := .ofNat c.r9
  r10 := .ofNat c.r10
  r11 := .ofNat c.r11
  r12 := .ofNat c.r12
  r13 := .ofNat c.r13
  r14 := .ofNat c.r14
  r15 := .ofNat c.r15
  rip := .ofNat c.rip
  cs := .ofNat c.cs
  flags := .ofNat c.flags
  rsp := .ofNat c.rsp
  ss := .ofNat c.ss

/-- The words of a `cpu_context_t` in the order of its fields. -/
def words (c : CpuContext) : List ℕ :=
  [c.rax, c.rbx, c.rcx, c.rdx, c.rdi, c.rsi, c.rbp, c.r8, c.r9, c.r10, c.r11, c.r12, c.r13, c.r14,
    c.r15, c.vec, c.errorCode, c.rip, c.cs, c.flags, c.rsp, c.ss]

end CpuContext

/-- The `cpu_context_t` at `a`. -/
def readContext (mem : ℕ → UInt8) (a : ℕ) : CpuContext where
  rax := load mem a 8
  rbx := load mem (a + 8) 8
  rcx := load mem (a + 16) 8
  rdx := load mem (a + 24) 8
  rdi := load mem (a + 32) 8
  rsi := load mem (a + 40) 8
  rbp := load mem (a + 48) 8
  r8 := load mem (a + 56) 8
  r9 := load mem (a + 64) 8
  r10 := load mem (a + 72) 8
  r11 := load mem (a + 80) 8
  r12 := load mem (a + 88) 8
  r13 := load mem (a + 96) 8
  r14 := load mem (a + 104) 8
  r15 := load mem (a + 112) 8
  vec := load mem (a + 120) 8
  errorCode := load mem (a + 128) 8
  rip := load mem (a + 136) 8
  cs := load mem (a + 144) 8
  flags := load mem (a + 152) 8
  rsp := load mem (a + 160) 8
  ss := load mem (a + 168) 8

theorem registers_context (r : Registers) (vec errorCode : ℕ) :
    (r.context vec errorCode).registers = r := by
  simp only [CpuContext.registers, Registers.context, UInt64.ofNat_toNat]

theorem readContext_of_holds {mem : ℕ → UInt8} {a : ℕ} {c : CpuContext}
    (h : Holds mem a c.words) : readContext mem a = c := by
  obtain ⟨h₁, h₂, h₃, h₄, h₅, h₆, h₇, h₈, h₉, h₁₀, h₁₁, h₁₂, h₁₃, h₁₄, h₁₅, h₁₆, h₁₇, h₁₈, h₁₉, h₂₀,
    h₂₁, h₂₂, -⟩ := h
  simp only [add_assoc, Nat.reduceAdd] at *
  simp only [readContext, *]

/-! ### In and out -/

/-- A stub: `code_stub` expects that the processor has pushed an error code, `nocode_stub` does
not. -/
structure Stub where
  code : Bool
  vec : UInt64
  deriving DecidableEq

/-- The words that a stub pushes. -/
def Stub.words (b : Stub) : List UInt64 := if b.code then [b.vec] else [0, b.vec]

/-- The words that the processor pushes, but for an error code. -/
def Registers.hardwareWords (r : Registers) : List UInt64 := [r.ss, r.rsp, r.flags, r.cs, r.rip]

/-- `push_regs`. -/
def Registers.pushRegs (r : Registers) : List UInt64 :=
  [r.r15, r.r14, r.r13, r.r12, r.r11, r.r10, r.r9, r.r8, r.rbp, r.rsi, r.rdi, r.rdx, r.rcx, r.rbx,
    r.rax]

/-- The stack that `interrupt_handler` is called with, on the stack that ends at `ist`.  The
processor aligns it, and pushes an error code if there is one. -/
def Registers.enter (r : Registers) (ist : ℕ) (mem : ℕ → UInt8) (errorCode : Option UInt64)
    (b : Stub) : Stack :=
  (⟨ist / 16 * 16, mem⟩ : Stack).pushAll
    (r.hardwareWords ++ (errorCode.toList ++ (b.words ++ r.pushRegs)))

/-- The end of `isr_stub`: the registers that are popped if the handler returns `rax`. -/
def leave (mem : ℕ → UInt8) (rax : ℕ) : Registers :=
  let (rax, s) := (⟨rax, mem⟩ : Stack).pop
  let (rbx, s) := s.pop
  let (rcx, s) := s.pop
  let (rdx, s) := s.pop
  let (rdi, s) := s.pop
  let (rsi, s) := s.pop
  let (rbp, s) := s.pop
  let (r8, s) := s.pop
  let (r9, s) := s.pop
  let (r10, s) := s.pop
  let (r11, s) := s.pop
  let (r12, s) := s.pop
  let (r13, s) := s.pop
  let (r14, s) := s.pop
  let (r15, s) := s.pop
  -- `add $0x10, %rsp`
  let s : Stack := ⟨(s.rsp + 0x10) % 2 ^ 64, s.mem⟩
  -- `iretq`
  let (rip, s) := s.pop
  let (cs, s) := s.pop
  let (flags, s) := s.pop
  let (rsp, s) := s.pop
  let (ss, _) := s.pop
  ⟨.ofNat rax, .ofNat rbx, .ofNat rcx, .ofNat rdx, .ofNat rdi, .ofNat rsi, .ofNat rbp, .ofNat r8,
    .ofNat r9, .ofNat r10, .ofNat r11, .ofNat r12, .ofNat r13, .ofNat r14, .ofNat r15, .ofNat rip,
    .ofNat cs, .ofNat flags, .ofNat rsp, .ofNat ss⟩

/-- The way out pops the context that is there. -/
theorem leave_eq {mem : ℕ → UInt8} {a : ℕ} (h : a + 176 < 2 ^ 64) :
    leave mem a = (readContext mem a).registers := by
  have hadd : ∀ k < 176, (a + k) % 2 ^ 64 = a + k := fun k hk => Nat.mod_eq_of_lt (by omega)
  simp only [leave, Stack.pop, Nat.mod_add_mod, add_assoc, Nat.reduceAdd]
  simp (disch := decide) only [hadd, CpuContext.registers, readContext]

/-- **The way in saves the registers.** If the stub expects an error code exactly when the processor
pushes one, the handler gets the context of the interrupted code, and nothing but the interrupt
stack is written. -/
theorem enter_spec (r : Registers) {ist : ℕ} (mem : ℕ → UInt8) {errorCode : Option UInt64} {b : Stub}
    (hlo : 192 ≤ ist) (hhi : ist < 2 ^ 64) (hcode : b.code = errorCode.isSome) :
    readContext (r.enter ist mem errorCode b).mem (r.enter ist mem errorCode b).rsp =
        r.context b.vec.toNat (errorCode.elim 0 UInt64.toNat) ∧
      (r.enter ist mem errorCode b).rsp = ist / 16 * 16 - 176 ∧
      ∀ a, a < ist / 16 * 16 - 176 ∨ ist ≤ a → (r.enter ist mem errorCode b).mem a = mem a := by
  have hwords : (r.hardwareWords ++ (errorCode.toList ++ (b.words ++ r.pushRegs))).reverse.map
      UInt64.toNat = (r.context b.vec.toNat (errorCode.elim 0 UInt64.toNat)).words := by
    obtain ⟨code, vec⟩ := b
    cases errorCode with
    | none =>
      obtain rfl : code = false := hcode
      rfl
    | some e =>
      obtain rfl : code = true := hcode
      rfl
  have hlen : (r.hardwareWords ++ (errorCode.toList ++ (b.words ++ r.pushRegs))).length = 22 := by
    rw [← List.length_reverse, ← List.length_map UInt64.toNat, hwords]
    rfl
  obtain ⟨hrsp, hholds, hmem⟩ := Stack.pushAll_spec (s := ⟨ist / 16 * 16, mem⟩)
    (by rw [hlen]; dsimp only; omega) (by dsimp only; omega)
  rw [hlen] at hrsp hholds hmem
  rw [hwords] at hholds
  refine ⟨?_, hrsp, fun a ha => hmem a (by dsimp only; omega)⟩
  rw [show (r.enter ist mem errorCode b).rsp = _ from hrsp]
  exact readContext_of_holds hholds

/-- The number of the vector is where the handler looks for it, whatever the processor has pushed. -/
theorem enter_vec (r : Registers) {ist : ℕ} (mem : ℕ → UInt8) (errorCode : Option UInt64) (b : Stub)
    (hlo : 192 ≤ ist) (hhi : ist < 2 ^ 64) :
    (readContext (r.enter ist mem errorCode b).mem (r.enter ist mem errorCode b).rsp).vec =
      b.vec.toNat := by
  obtain ⟨as, hwords, hlen⟩ : ∃ as, r.hardwareWords ++ (errorCode.toList ++
      (b.words ++ r.pushRegs)) = as ++ (b.vec :: r.pushRegs) ∧ as.length ≤ 7 := by
    have herror : errorCode.toList.length ≤ 1 := by cases errorCode <;> simp
    have hhard : r.hardwareWords.length = 5 := rfl
    unfold Stub.words
    split_ifs
    · exact ⟨r.hardwareWords ++ errorCode.toList, by simp, by rw [List.length_append]; omega⟩
    · refine ⟨r.hardwareWords ++ errorCode.toList ++ [0], by simp, ?_⟩
      rw [List.length_append, List.length_append, List.length_singleton]
      omega
  have hlength : (as ++ (b.vec :: r.pushRegs)).length = as.length + 16 := List.length_append
  obtain ⟨hrsp, hholds, -⟩ := @Stack.pushAll_spec ⟨ist / 16 * 16, mem⟩
    (as ++ (b.vec :: r.pushRegs)) (by rw [hlength]; dsimp only; omega) (by dsimp only; omega)
  have henter : r.enter ist mem errorCode b =
      (⟨ist / 16 * 16, mem⟩ : Stack).pushAll (as ++ (b.vec :: r.pushRegs)) := by
    rw [Registers.enter, hwords]
  rw [List.reverse_append, List.reverse_cons, List.append_assoc, List.map_append, holds_append,
    ← hrsp] at hholds
  rw [henter]
  exact hholds.2.1

end TitanOS
