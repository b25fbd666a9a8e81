import TitanOS.Cpu.Idt
import TitanOS.Drivers.Keyboard
import TitanOS.Fs.Syscalls
import TitanOS.Sched.Contexts

/-!
# Interrupts (`isr.c`)

`interrupt_handler` is called with a pointer to the frame of the interrupt, and the stub goes on with
the pointer that it returns: the frame again, or the context that is stored in another thread.

A machine is the registers of the running thread and the kernel.  It computes, calls the scheduler,
and is interrupted; the ledger and the history of contexts are kept beside it, as for the scheduler
alone (`contexts_survive`).  `registers_survive` says that what the thread had in its registers comes
back, through the stack, the table, the stubs and the scheduler.

The contexts of the threads are those of the scheduler; the one that is returned is put into memory
where it is popped from.  The messages of the handler are left out.
-/

namespace TitanOS

open LittleEndian

/-- Store words from `a` on. -/
def storeWords (mem : ℕ → UInt8) (a : ℕ) : List ℕ → ℕ → UInt8
  | [] => mem
  | w :: ws => storeWords (store mem a 8 w) (a + 8) ws

theorem storeWords_of_lt {mem : ℕ → UInt8} {a b : ℕ} {ws : List ℕ} (h : b < a) :
    storeWords mem a ws b = mem b := by
  induction ws generalizing mem a with
  | nil => rfl
  | cons w ws ih => rw [storeWords, ih (by omega), store_of_lt h]

theorem holds_storeWords (mem : ℕ → UInt8) (a : ℕ) (ws : List ℕ) :
    Holds (storeWords mem a ws) a (ws.map fun w => w % 2 ^ 64) := by
  induction ws generalizing mem a with
  | nil => trivial
  | cons w ws ih =>
    refine ⟨?_, ih _ _⟩
    rw [storeWords, load_congr fun b _ hlt => storeWords_of_lt hlt, load_store]
    norm_num

/-- A context that is stored loads the same registers. -/
theorem registers_storeWords (mem : ℕ → UInt8) (a : ℕ) (c : CpuContext) :
    (readContext (storeWords mem a c.words) a).registers = c.registers := by
  have hmod : ∀ w : ℕ, UInt64.ofNat (w % 2 ^ 64) = UInt64.ofNat w := fun w =>
    UInt64.toNat.inj (by simp)
  have hholds := holds_storeWords mem a c.words
  rw [@readContext_of_holds _ a ⟨c.rax % 2 ^ 64, c.rbx % 2 ^ 64, c.rcx % 2 ^ 64, c.rdx % 2 ^ 64,
    c.rdi % 2 ^ 64, c.rsi % 2 ^ 64, c.rbp % 2 ^ 64, c.r8 % 2 ^ 64, c.r9 % 2 ^ 64, c.r10 % 2 ^ 64,
    c.r11 % 2 ^ 64, c.r12 % 2 ^ 64, c.r13 % 2 ^ 64, c.r14 % 2 ^ 64, c.r15 % 2 ^ 64, c.vec % 2 ^ 64,
    c.errorCode % 2 ^ 64, c.rip % 2 ^ 64, c.cs % 2 ^ 64, c.flags % 2 ^ 64, c.rsp % 2 ^ 64,
    c.ss % 2 ^ 64⟩ hholds]
  simp only [CpuContext.registers, hmod]

/-- The kernel, as far as interrupts get to it. -/
structure Kern where
  mem : ℕ → UInt8
  idt : ℕ → UInt8
  ist1 : ℕ
  keyboard : Keyboard
  sched : Sched
  sys : Sys
  shouldSched : Bool
  eois : ℕ

namespace Kern

/-- `&t->context`. -/
def contextAddr (t : ℕ) : ℕ := t + 16

/-- `schedule(status)`: the context that is returned is in the thread that is now current. -/
def schedule (k : Kern) (context : CpuContext) (regions : ℕ → List ℕ) : Option (Kern × ℕ) :=
  (k.sched.schedule context regions).map fun r =>
    let newContext := contextAddr r.1.currentThread
    ({ k with sched := r.1, mem := storeWords k.mem newContext r.2.words }, newContext)

/-- `syscall_handler(status)`; `rax` is the first field of the context. -/
def syscallHandler (fileHeaders : ℕ → ℕ) (k : Kern) (status : ℕ) : Option Kern :=
  let c := readContext k.mem status
  let sys : Sys := { k.sys with currentProcess := k.sched.currentProcess }
  (sys.syscallHandler k.mem fileHeaders ⟨c.rax, c.rdi, c.rsi, c.rdx⟩).map fun r =>
      { k with
        sys := r.1
        mem := store k.mem status 8 r.2.rax
        sched := if c.rax = 60 then k.sched.exit else k.sched }

/-- `send_local_apic_eoi`. -/
def sendEoi (k : Kern) : Kern := { k with eois := k.eois + 1 }

/-- `interrupt_handler`, with the byte at the keyboard port.  The panic does not return. -/
def interruptHandler (fileHeaders : ℕ → ℕ) (data : UInt8) (regions : ℕ → List ℕ) (k : Kern)
    (status : ℕ) : Option (Kern × ℕ) :=
  let c := readContext k.mem status
  let handled : Option (Kern × ℕ) :=
    if c.vec ≤ 32 then none
    else if c.vec = 0xf0 then some (k, status)
    else if c.vec = 0x28 then
      let k := { k with keyboard := (k.keyboard.keyboardHandler data).1 }
      let r := if k.shouldSched then k.schedule c regions else some (k, status)
      r.map fun r => ({ r.1 with shouldSched := !r.1.shouldSched }, r.2)
    else if c.vec = 0x68 then k.schedule c regions
    else if c.vec = 0xe6 then (k.syscallHandler fileHeaders status).map fun k => (k, status)
    else some (k, status)
  handled.map fun r => (r.1.sendEoi, r.2)

section Handler

variable {fileHeaders : ℕ → ℕ} {data : UInt8} {regions : ℕ → List ℕ} {k : Kern} {status vec : ℕ}

theorem interruptHandler_panic (h : (readContext k.mem status).vec ≤ 32) :
    k.interruptHandler fileHeaders data regions status = none := by
  rw [interruptHandler, if_pos h, Option.map_none]

theorem interruptHandler_keyboard (h : (readContext k.mem status).vec = 0x28) :
    k.interruptHandler fileHeaders data regions status =
      (if k.shouldSched then
        { k with keyboard := (k.keyboard.keyboardHandler data).1 }.schedule
          (readContext k.mem status) regions
      else some ({ k with keyboard := (k.keyboard.keyboardHandler data).1 }, status)).map fun r =>
        ({ r.1 with shouldSched := !r.1.shouldSched }.sendEoi, r.2) := by
  rw [interruptHandler, if_neg (by omega), if_neg (by omega), if_pos h, Option.map_map]
  rfl

theorem interruptHandler_schedule (h : (readContext k.mem status).vec = 0x68) :
    k.interruptHandler fileHeaders data regions status =
      (k.schedule (readContext k.mem status) regions).map fun r => (r.1.sendEoi, r.2) := by
  rw [interruptHandler, if_neg (by omega), if_neg (by omega), if_neg (by omega), if_pos h]

theorem interruptHandler_syscall (h : (readContext k.mem status).vec = 0xe6) :
    k.interruptHandler fileHeaders data regions status =
      (k.syscallHandler fileHeaders status).map fun k => (k.sendEoi, status) := by
  rw [interruptHandler, if_neg (by omega), if_neg (by omega), if_neg (by omega), if_neg (by omega),
    if_pos h, Option.map_map]
  rfl

theorem interruptHandler_other (hlt : 32 < (readContext k.mem status).vec)
    (h : ∀ vec ∈ [0x28, 0x68, 0xe6], (readContext k.mem status).vec ≠ vec) :
    k.interruptHandler fileHeaders data regions status = some (k.sendEoi, status) := by
  rw [interruptHandler, if_neg (by omega), if_neg (h 0x28 (by simp)), if_neg (h 0x68 (by simp)),
    if_neg (h 0xe6 (by simp)), ite_self, Option.map_some]

end Handler

end Kern

/-- The registers of the running thread, and the kernel. -/
structure Processor where
  regs : Registers
  kern : Kern

namespace Processor

/-- What happens next: the thread computes, or it calls the scheduler, or an interrupt arrives. -/
inductive Event
  | compute (regs : Registers)
  | call (o : Sched.Op)
  | interrupt (v : ℕ) (errorCode : UInt64) (data : UInt8) (regions : ℕ → List ℕ)

/-- The error code that the processor pushes. -/
def errorOf (v : ℕ) (errorCode : UInt64) : Option UInt64 :=
  if pushesErrorCode v then some errorCode else none

/-- An interrupt, from the processor's look into the table to `iretq`. -/
def interrupt (startIsrStubs : ℕ) (fileHeaders : ℕ → ℕ) (m : Processor) (v : ℕ) (errorCode : UInt64)
    (data : UInt8) (regions : ℕ → List ℕ) : Option Processor := do
  let b ← stubAt startIsrStubs (gate m.kern.idt v).offset
  let s := m.regs.enter m.kern.ist1 m.kern.mem (errorOf v errorCode) b
  let r ← ({ m.kern with mem := s.mem } : Kern).interruptHandler fileHeaders data regions s.rsp
  some ⟨leave r.1.mem r.2, r.1⟩

/-- The interrupt ends in `schedule`. -/
def schedules (m : Processor) (v : ℕ) : Bool := v == 0x80 || (v == 0x40 && m.kern.shouldSched)

/-- The interrupt is the exit of the current thread. -/
def exits (m : Processor) (v : ℕ) : Bool := v == 0xfe && m.regs.rax == 60

/-- The context that an interrupt saves. -/
def saved (m : Processor) (v : ℕ) : CpuContext := m.regs.context (stubVec v) 0

/-- The machine with the ledger and the history of contexts. -/
structure Recorded where
  machine : Processor
  ledger : Ledger
  history : List (ℕ × CpuContext)

/-- The ledger after an interrupt. -/
def ledgerAfter (x : Recorded) (v : ℕ) : Ledger :=
  if x.machine.schedules v then x.ledger.schedule
  else if x.machine.exits v then x.ledger.exit x.machine.kern.sched.currentThread
  else x.ledger

/-- The history after an interrupt. -/
def historyAfter (x : Recorded) (v : ℕ) : List (ℕ × CpuContext) :=
  if x.machine.schedules v then
    (x.machine.kern.sched.currentThread, x.machine.saved v) :: x.history
  else x.history

/-- One event; `wrapper` is the address of `kernel_thread_wrapper`. -/
def step (wrapper startIsrStubs : ℕ) (fileHeaders : ℕ → ℕ) (x : Recorded) : Event → Option Recorded
  | .compute regs => some { x with machine := { x.machine with regs := regs } }
  | .call o =>
    (Sched.stepHistory wrapper ((x.machine.kern.sched, x.ledger), x.history) o).map fun y =>
      ⟨{ x.machine with kern := { x.machine.kern with sched := y.1.1 } }, y.1.2, y.2⟩
  | .interrupt v errorCode data regions =>
    (x.machine.interrupt startIsrStubs fileHeaders v errorCode data regions).map fun m =>
      ⟨m, ledgerAfter x v, historyAfter x v⟩

/-- The object of a thread ends below the end of the address space. -/
def Fits (t : ℕ) : Prop := t + 192 < 2 ^ 64

/-- The calls are those that running code makes, and the idle thread does not exit. -/
def Valid (idle : ℕ) (x : Recorded) : Event → Prop
  | .compute _ => True
  | .call o => Sched.Valid idle (x.machine.kern.sched, x.ledger) o ∧
    match o with
    | .createProc _ t _ _ _ => Fits t
    | .createThread _ t _ _ => Fits t
    | .exit => True
    | .schedule _ _ => False
  | .interrupt v _ _ _ => v < 256 ∧ (x.machine.exits v = true →
      x.machine.kern.sched.currentProcess ≠ x.machine.kern.sched.idleProc)

/-- What an interrupt leaves in the registers.  If it ends in `schedule`, these are those of the newest
context of the thread that runs then, unless that is the idle thread.  Otherwise the same thread goes
on with the registers it had, except that an open returns a handle in `rax`. -/
def Resumes (startIsrStubs : ℕ) (fileHeaders : ℕ → ℕ) (idle : ℕ) (x : Recorded) : Event → Prop
  | .interrupt v errorCode data regions =>
    (v < 57 → x.machine.interrupt startIsrStubs fileHeaders v errorCode data regions = none) ∧
    ∀ m, x.machine.interrupt startIsrStubs fileHeaders v errorCode data regions = some m →
      if x.machine.schedules v then
        m.kern.sched.currentThread ≠ idle → ∃ c,
          (historyAfter x v).lookup m.kern.sched.currentThread = some c ∧ m.regs = c.registers
      else m.kern.sched.currentThread = x.machine.kern.sched.currentThread ∧
        (m.regs = x.machine.regs ∨ v = 0xfe ∧ x.machine.regs.rax = 2 ∧
          ∃ rax, m.regs = { x.machine.regs with rax := rax })
  | _ => True

/-- What holds between events. -/
structure Sound (startIsrStubs idle : ℕ) (x : Recorded) : Prop where
  saved : x.machine.kern.sched.Saved x.ledger idle x.history
  table : ∀ v < 256, stubAt startIsrStubs (gate x.machine.kern.idt v).offset =
    some ⟨pushesErrorCode v && v != 8, .ofNat (stubVec v)⟩
  stack : 192 ≤ x.machine.kern.ist1 ∧ x.machine.kern.ist1 < 2 ^ 64
  fits : ∀ e ∈ x.ledger.queue, ∀ t ∈ e.2, Fits t
  fits_idle : Fits idle

variable {startIsrStubs idle wrapper v : ℕ} {fileHeaders : ℕ → ℕ} {x x' : Recorded} {m m' : Processor}
  {k k' : Kern} {c : CpuContext} {errorCode : UInt64} {data : UInt8} {regions : ℕ → List ℕ}

/-! ### The frame -/

theorem toNat_stubVec (hv : v < 256) : (UInt64.ofNat (stubVec v)).toNat = stubVec v := by
  have hlt : stubVec v < 2 ^ 64 := by
    unfold stubVec
    split_ifs <;> omega
  rw [UInt64.toNat_ofNat']
  exact Nat.mod_eq_of_lt hlt

/-- The frame of an interrupt for which the processor pushes no error code. -/
theorem enter_frame (m : Processor) (hstack : 192 ≤ m.kern.ist1 ∧ m.kern.ist1 < 2 ^ 64)
    (hv : v < 256) (hpush : pushesErrorCode v = false) {s : Stack}
    (hs : m.regs.enter m.kern.ist1 m.kern.mem (errorOf v errorCode)
      ⟨pushesErrorCode v && v != 8, .ofNat (stubVec v)⟩ = s) :
    readContext s.mem s.rsp = m.saved v ∧ s.rsp + 176 < 2 ^ 64 := by
  have herror : errorOf v errorCode = none := by rw [errorOf, hpush, if_neg Bool.false_ne_true]
  obtain ⟨hcontext, hrsp, -⟩ := @enter_spec m.regs m.kern.ist1 m.kern.mem (errorOf v errorCode)
    ⟨pushesErrorCode v && v != 8, .ofNat (stubVec v)⟩ hstack.1 hstack.2
    (by rw [herror, hpush]; rfl)
  rw [hs, herror, toNat_stubVec hv] at hcontext
  rw [hs] at hrsp
  exact ⟨hcontext, by rw [hrsp]; omega⟩

theorem stub_of_le (h : 57 ≤ v) : pushesErrorCode v = false ∧ stubVec v = v - 24 := by
  refine ⟨?_, if_neg (by omega)⟩
  simp only [pushesErrorCode, List.contains_eq_mem, List.mem_cons, List.not_mem_nil, or_false,
    decide_eq_false_iff_not]
  omega

/-- The handler is called with the frame. -/
theorem interrupt_eq (h : Sound startIsrStubs idle x) (hv : v < 256) (fileHeaders : ℕ → ℕ)
    (errorCode : UInt64) (data : UInt8) (regions : ℕ → List ℕ) :
    ∃ s : Stack, (readContext s.mem s.rsp).vec = stubVec v ∧
      (57 ≤ v → readContext s.mem s.rsp = x.machine.saved v ∧ s.rsp + 176 < 2 ^ 64) ∧
      x.machine.interrupt startIsrStubs fileHeaders v errorCode data regions =
        (({ x.machine.kern with mem := s.mem } : Kern).interruptHandler fileHeaders data regions
          s.rsp).map fun r => ⟨leave r.1.mem r.2, r.1⟩ := by
  generalize hs : x.machine.regs.enter x.machine.kern.ist1 x.machine.kern.mem (errorOf v errorCode)
    ⟨pushesErrorCode v && v != 8, .ofNat (stubVec v)⟩ = s
  have hvec := enter_vec x.machine.regs x.machine.kern.mem (errorOf v errorCode)
    ⟨pushesErrorCode v && v != 8, .ofNat (stubVec v)⟩ h.stack.1 h.stack.2
  rw [hs, toNat_stubVec hv] at hvec
  refine ⟨s, hvec, fun h57 => enter_frame x.machine h.stack hv (stub_of_le h57).1 hs, ?_⟩
  rw [interrupt, h.table v hv]
  simp only [Option.bind_eq_bind, Option.bind_some, hs]
  cases ({ x.machine.kern with mem := s.mem } : Kern).interruptHandler fileHeaders data regions
    s.rsp <;> rfl

/-- Only an open changes the context. -/
theorem syscallHandler_snd {mem : ℕ → UInt8} {s s' : Sys} {c c' : Context} (hc : c.rax ≠ 2)
    (h : s.syscallHandler mem fileHeaders c = some (s', c')) : c' = c := by
  unfold Sys.syscallHandler at h
  rw [if_neg hc] at h
  split_ifs at h
  · obtain ⟨current, -, h⟩ := Option.bind_eq_some_iff.1 h
    obtain ⟨resource, -, h⟩ := Option.bind_eq_some_iff.1 h
    obtain ⟨t, -, heq⟩ := Option.map_eq_some_iff.1 h
    exact (congrArg Prod.snd heq).symm
  · exact (congrArg Prod.snd (Option.some.inj h)).symm
  · exact (congrArg Prod.snd (Option.some.inj h)).symm

/-- A store to `rax` of a frame. -/
theorem registers_store_rax (mem : ℕ → UInt8) (a w : ℕ) : (readContext (store mem a 8 w) a).registers =
    { (readContext mem a).registers with rax := .ofNat w } := by
  have hmod : UInt64.ofNat (w % 256 ^ 8) = UInt64.ofNat w := UInt64.toNat.inj (by simp)
  simp (disch := omega) only [readContext, CpuContext.registers, load_store_of_disjoint, load_store,
    hmod]

/-- What an interrupt has done when it returns: it has called `schedule`, or it was a system call, or
the registers and the scheduler are as they were. -/
inductive Outcome (m m' : Processor) (v : ℕ) (regions : ℕ → List ℕ) : Prop
  | scheduled (hv : m.schedules v = true) (ctx : CpuContext) (mem : ℕ → UInt8)
      (hs : m.kern.sched.schedule (m.saved v) regions = some (m'.kern.sched, ctx))
      (hr : m'.regs = leave (storeWords mem (Kern.contextAddr m'.kern.sched.currentThread) ctx.words)
        (Kern.contextAddr m'.kern.sched.currentThread))
  | syscall (hv : v = 0xfe) (rax : UInt64) (hr : m'.regs = { m.regs with rax := rax })
      (hrax : m.regs.rax ≠ 2 → rax = m.regs.rax)
      (hs : m'.kern.sched = if m.regs.rax = 60 then m.kern.sched.exit else m.kern.sched)
  | resumed (hv : m.schedules v = false) (hne : v ≠ 0xfe) (hr : m'.regs = m.regs)
      (hs : m'.kern.sched = m.kern.sched)

/-- What `schedule` leaves behind when it is called from a handler. -/
theorem schedule_outcome {p : ℕ} (hk : k.schedule c regions = some (k', p)) :
    ∃ ctx, k.sched.schedule c regions = some (k'.sched, ctx) ∧
      p = Kern.contextAddr k'.sched.currentThread ∧ k'.mem = storeWords k.mem p ctx.words ∧
      k'.idt = k.idt ∧ k'.ist1 = k.ist1 := by
  obtain ⟨⟨s, ctx⟩, hs, heq⟩ := Option.map_eq_some_iff.1 hk
  obtain ⟨rfl, rfl⟩ := Prod.mk.inj heq
  exact ⟨ctx, hs, rfl, rfl, rfl, rfl⟩

/-- What a system call leaves behind. -/
theorem syscall_outcome {status : ℕ} (hk : k.syscallHandler fileHeaders status = some k') :
    ∃ rax, ((readContext k.mem status).rax ≠ 2 → rax = (readContext k.mem status).rax) ∧
      k'.mem = store k.mem status 8 rax ∧ k'.idt = k.idt ∧ k'.ist1 = k.ist1 ∧
      k'.sched = if (readContext k.mem status).rax = 60 then k.sched.exit else k.sched := by
  unfold Kern.syscallHandler at hk
  generalize readContext k.mem status = c at hk ⊢
  obtain ⟨⟨sys, c'⟩, hs, rfl⟩ := Option.map_eq_some_iff.1 hk
  exact ⟨c'.rax, fun hrax => congrArg Context.rax (syscallHandler_snd hrax hs), rfl, rfl, rfl, rfl⟩

theorem interrupt_cases (h : Sound startIsrStubs idle x) (hv : v < 256)
    (hm : x.machine.interrupt startIsrStubs fileHeaders v errorCode data regions = some m) :
    57 ≤ v ∧ m.kern.idt = x.machine.kern.idt ∧ m.kern.ist1 = x.machine.kern.ist1 ∧
      x.machine.Outcome m v regions := by
  obtain ⟨s, hvec, hframe, heq⟩ := interrupt_eq h hv fileHeaders errorCode data regions
  have h57 : 57 ≤ v := by
    by_contra hlt
    rw [heq, Kern.interruptHandler_panic (by rw [hvec, stubVec]; split_ifs <;> omega)] at hm
    cases hm
  obtain ⟨hsaved, hrsp⟩ := hframe h57
  have hregs : leave s.mem s.rsp = x.machine.regs := by
    rw [leave_eq hrsp, hsaved, saved, registers_context]
  rw [(stub_of_le h57).2] at hvec
  rw [heq] at hm
  obtain ⟨⟨k, p⟩, hk, rfl⟩ := Option.map_eq_some_iff.1 hm
  refine ⟨h57, ?_⟩
  by_cases hkey : v = 0x40
  · rw [Kern.interruptHandler_keyboard (by dsimp only; omega)] at hk
    obtain ⟨⟨k₁, p₁⟩, hk₁, heq₁⟩ := Option.map_eq_some_iff.1 hk
    obtain ⟨rfl, rfl⟩ := Prod.mk.inj heq₁
    dsimp only at hk₁ ⊢
    cases hshould : x.machine.kern.shouldSched with
    | true =>
      rw [hshould, if_pos rfl, hsaved] at hk₁
      obtain ⟨ctx, hs, rfl, hmem, hidt, hist⟩ := schedule_outcome hk₁
      exact ⟨hidt, hist, .scheduled (by simp [schedules, hkey, hshould]) ctx s.mem hs
        (congrArg (fun mem => leave mem _) hmem)⟩
    | false =>
      rw [hshould, if_neg Bool.false_ne_true] at hk₁
      obtain ⟨rfl, rfl⟩ := Prod.mk.inj (Option.some.inj hk₁)
      exact ⟨rfl, rfl, .resumed (by simp [schedules, hkey, hshould]) (by omega) hregs rfl⟩
  by_cases hsched : v = 0x80
  · rw [Kern.interruptHandler_schedule (by dsimp only; omega)] at hk
    obtain ⟨⟨k₁, p₁⟩, hk₁, heq₁⟩ := Option.map_eq_some_iff.1 hk
    obtain ⟨rfl, rfl⟩ := Prod.mk.inj heq₁
    dsimp only at hk₁ ⊢
    rw [hsaved] at hk₁
    obtain ⟨ctx, hs, rfl, hmem, hidt, hist⟩ := schedule_outcome hk₁
    exact ⟨hidt, hist, .scheduled (by simp [schedules, hsched]) ctx s.mem hs
      (congrArg (fun mem => leave mem _) hmem)⟩
  by_cases hsys : v = 0xfe
  · rw [Kern.interruptHandler_syscall (by dsimp only; omega)] at hk
    obtain ⟨k₁, hk₁, heq₁⟩ := Option.map_eq_some_iff.1 hk
    obtain ⟨rfl, rfl⟩ := Prod.mk.inj heq₁
    obtain ⟨rax, hrax, hmem, hidt, hist, hs⟩ := syscall_outcome hk₁
    dsimp only at hrax hmem hs
    rw [hsaved] at hrax hs
    have hof : ∀ n : UInt64, (x.machine.saved v).rax = n.toNat ↔ x.machine.regs.rax = n :=
      fun n => UInt64.toNat_inj
    refine ⟨hidt, hist, .syscall hsys (.ofNat rax) ?_ (fun hne => ?_) ?_⟩
    · have hstore : leave (store s.mem s.rsp 8 rax) s.rsp = _ := leave_eq hrsp
      rw [registers_store_rax, hsaved, saved, registers_context] at hstore
      rw [← hstore]
      exact congrArg (fun mem => leave mem s.rsp) hmem
    · rw [hrax fun h2 => hne ((hof 2).1 h2)]
      exact UInt64.ofNat_toNat
    · rw [show k₁.sendEoi.sched = k₁.sched from rfl, hs]
      exact if_congr (hof 60) rfl rfl
  · rw [Kern.interruptHandler_other (by dsimp only; omega) (by
      intro vec hvec'
      simp only [List.mem_cons, List.not_mem_nil, or_false] at hvec'
      dsimp only
      omega)] at hk
    obtain ⟨rfl, rfl⟩ := Prod.mk.inj (Option.some.inj hk)
    exact ⟨rfl, rfl, .resumed (by simp [schedules, hkey, hsched]) hsys hregs rfl⟩

/-! ### Runs -/

theorem Fits.lt {t : ℕ} (h : Fits t) : Kern.contextAddr t + 176 < 2 ^ 64 := by
  unfold Fits at h
  unfold Kern.contextAddr
  omega

/-- The object of the current thread fits. -/
theorem Sound.fits_current {s : Sched} {g : Ledger} (h : s.Accounts g idle)
    (hfits : ∀ e ∈ g.queue, ∀ t ∈ e.2, Fits t) (hidle : Fits idle) : Fits s.currentThread := by
  rcases h.current with ⟨-, hct⟩ | ⟨e, he, -, hct⟩
  · rwa [hct]
  · exact hfits e he _ hct

/-- **An interrupt** leaves the registers as it should, and keeps what holds between events. -/
theorem Sound.interrupt (h : Sound startIsrStubs idle x)
    (hv : Valid idle x (.interrupt v errorCode data regions)) :
    Resumes startIsrStubs fileHeaders idle x (.interrupt v errorCode data regions) ∧
      ∀ m, x.machine.interrupt startIsrStubs fileHeaders v errorCode data regions = some m →
        Sound startIsrStubs idle ⟨m, ledgerAfter x v, historyAfter x v⟩ := by
  have hkeep : ∀ m, x.machine.interrupt startIsrStubs fileHeaders v errorCode data regions = some m →
      ∀ g hist, m.kern.sched.Saved g idle hist → (∀ e ∈ g.queue, ∀ t ∈ e.2, Fits t) →
        Sound startIsrStubs idle ⟨m, g, hist⟩ := by
    intro m hm g hist hsaved hfits
    obtain ⟨-, hidt, hist1, -⟩ := interrupt_cases h hv.1 hm
    exact ⟨hsaved, by rw [hidt]; exact h.table, by rw [hist1]; exact h.stack, hfits, h.fits_idle⟩
  -- the queue after `schedule` has no new threads
  have hfits : ∀ e ∈ x.ledger.schedule.queue, ∀ t ∈ e.2, Fits t := by
    intro e he t ht
    obtain ⟨e', he', ht'⟩ := Sched.mem_schedule he ht
    exact h.fits e' he' t ht'
  refine ⟨⟨fun hlt => ?_, fun m hm => ?_⟩, fun m hm => ?_⟩
  · by_contra hne
    obtain ⟨m, hm⟩ := Option.ne_none_iff_exists'.1 hne
    have := (interrupt_cases h hv.1 hm).1
    omega
  · obtain ⟨-, -, -, hout⟩ := interrupt_cases h hv.1 hm
    cases hout with
    | scheduled hvec ctx mem hs hr =>
      rw [if_pos hvec]
      intro hne
      obtain ⟨s', ctx', hs', hsaved, hret⟩ := h.saved.schedule (x.machine.saved v) regions
      obtain ⟨rfl, rfl⟩ := Prod.mk.inj (Option.some.inj (hs.symm.trans hs'))
      refine ⟨ctx, ?_, ?_⟩
      · rw [historyAfter, if_pos hvec]
        exact hret hne
      · rw [hr, leave_eq (Sound.fits_current hsaved.accounts hfits h.fits_idle).lt,
          registers_storeWords]
    | syscall hvec rax hr hrax hs =>
      subst hvec
      rw [if_neg (by simp [schedules])]
      refine ⟨by rw [hs]; split_ifs <;> rfl, ?_⟩
      by_cases hopen : x.machine.regs.rax = 2
      · exact Or.inr ⟨rfl, hopen, rax, hr⟩
      · left
        rw [hr, hrax hopen]
    | resumed hvec hne hr hs =>
      rw [if_neg (by simp [hvec])]
      exact ⟨by rw [hs], Or.inl hr⟩
  · obtain ⟨-, -, -, hout⟩ := interrupt_cases h hv.1 hm
    cases hout with
    | scheduled hvec ctx mem hs hr =>
      obtain ⟨s', ctx', hs', hsaved, -⟩ := h.saved.schedule (x.machine.saved v) regions
      obtain ⟨rfl, rfl⟩ := Prod.mk.inj (Option.some.inj (hs.symm.trans hs'))
      rw [ledgerAfter, historyAfter, if_pos hvec, if_pos hvec]
      exact hkeep m hm _ _ hsaved hfits
    | syscall hvec rax hr hrax hs =>
      subst hvec
      have hnot : x.machine.schedules 0xfe ≠ true := by simp [schedules]
      rw [ledgerAfter, historyAfter, if_neg hnot, if_neg hnot]
      by_cases hexit : x.machine.regs.rax = 60
      · have hexits : x.machine.exits 0xfe = true := by simp [exits, hexit]
        rw [if_pos hexit] at hs
        rw [if_pos hexits]
        refine hkeep m hm _ _ ?_ h.fits
        rw [hs]
        exact ⟨Sched.accounts_exit h.saved.accounts (hv.2 hexits), h.saved.newest⟩
      · rw [if_neg hexit] at hs
        rw [if_neg (by simp [exits, hexit])]
        exact hkeep m hm _ _ (hs ▸ h.saved) h.fits
    | resumed hvec hne hr hs =>
      rw [ledgerAfter, if_neg (by simp [hvec]), if_neg (by simp [exits, hne]), historyAfter,
        if_neg (by simp [hvec])]
      exact hkeep m hm _ _ (hs ▸ h.saved) h.fits

/-- A call of the running code keeps what holds between events. -/
theorem Sound.call {o : Sched.Op} (h : Sound startIsrStubs idle x) (hv : Valid idle x (.call o))
    (hs : step wrapper startIsrStubs fileHeaders x (.call o) = some x') :
    Sound startIsrStubs idle x' := by
  obtain ⟨y, hy, rfl⟩ := Option.map_eq_some_iff.1 hs
  obtain ⟨-, y', hy', hsaved⟩ := Sched.step_saved wrapper
    ((x.machine.kern.sched, x.ledger), x.history) o h.saved hv.1
  obtain rfl := Option.some.inj (hy.symm.trans hy')
  refine ⟨hsaved, h.table, h.stack, ?_, h.fits_idle⟩
  obtain ⟨z, hz, rfl⟩ := Option.map_eq_some_iff.1 hy
  cases o with
  | createProc p t pml4t e stack =>
    obtain ⟨s, -, rfl⟩ := Option.map_eq_some_iff.1 hz
    intro e' he' a ha
    rcases Sched.queued_createProc he' ha with rfl | ⟨e₁, he₁, ha₁⟩
    · exact hv.2
    · exact h.fits e₁ he₁ a ha₁
  | createThread p t e stack =>
    obtain ⟨s, -, rfl⟩ := Option.map_eq_some_iff.1 hz
    obtain ⟨e₀, he₀, hp⟩ := List.mem_map.1 hv.1.1
    subst hp
    intro e' he' a ha
    rcases Sched.queued_createThread h.saved.accounts.lists he₀ he' ha with rfl | ⟨e₁, he₁, ha₁⟩
    · exact hv.2
    · exact h.fits e₁ he₁ a ha₁
  | exit =>
    obtain rfl := Option.some.inj hz
    exact h.fits
  | schedule ctx regions => exact hv.2.elim

/-- All registers hold the same. -/
def Registers.all (n : UInt64) : Registers :=
  ⟨n, n, n, n, n, n, n, n, n, n, n, n, n, n, n, n, n, n, n, n⟩

end Processor

end TitanOS
