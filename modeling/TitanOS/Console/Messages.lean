import TitanOS.Console.Printf
import TitanOS.Console.Window
import TitanOS.Lib.MaskedCalls

/-!
# Messages of several threads (`printf`, `printc`, `locks.c`, `syscall_handler`)

The threads print by `printf`, kernel threads with interrupts on and the `write` system call with
interrupts off: `set_idt_entry` makes interrupt gates only.  A thread may lose the processor between
any two statements of `printc`; the screen and the cursor are shared.

The format is gone through piece by piece, as by the turns of the loop (`printfLoop_piece`), and the
characters of a piece are handed to `printc` one by one.
-/

namespace TitanOS

open Critical

/-- The lock of `printf`. -/
def Spinlock.lock : Lock Spinlock where
  held l := l.locked
  testAndSet := Spinlock.testAndSet
  release := Spinlock.release
  testAndSet_snd _ := rfl
  held_testAndSet _ := rfl
  held_release _ := rfl

namespace Console

/-- The statements of `printc`. -/
inductive Stmt
  | lineStart
  | lineDown
  | store (c : UInt8)
  | right
  | carry
  | wrap
  | scroll

/-- What a statement does. -/
def Stmt.exec : Stmt → Console → Console
  | .lineStart, k => { k with x := 0 }
  | .lineDown, k => { k with y := k.y + 1 }
  | .store c, k => k.setCell (k.vgaOut + (k.y * 80 + k.x) * 2) (cellValue c)
  | .right, k => { k with x := k.x + 1 }
  | .carry, k => { k with y := k.y + k.x.tdiv 80 }
  | .wrap, k => { k with x := k.x.tmod 80 }
  | .scroll, k => if 25 ≤ k.y then { k with x := 0, y := 24 }.scrollDown else k

/-- The statements that `printc` goes through for `c`. -/
def stmts (c : UInt8) : List Stmt :=
  if c = 10 then [.lineStart, .lineDown, .scroll]
  else [.store c, .right, .carry, .wrap, .scroll]

/-- Statements one after the other. -/
def execAll (k : Console) (as : List Stmt) : Console := as.foldl (fun k a => a.exec k) k

theorem execAll_append (k : Console) (as bs : List Stmt) :
    k.execAll (as ++ bs) = (k.execAll as).execAll bs :=
  List.foldl_append

theorem execAll_stmts (k : Console) (c : UInt8) : k.execAll (stmts c) = k.printc c := by
  by_cases hc : c = 10
  · simp only [stmts, if_pos hc, printc]
    rfl
  · simp only [stmts, if_neg hc, printc]
    rfl

theorem execAll_flatMap (k : Console) (cs : List UInt8) :
    k.execAll (cs.flatMap stmts) = cs.foldl printc k := by
  induction cs generalizing k with
  | nil => rfl
  | cons c cs ih => rw [List.flatMap_cons, execAll_append, execAll_stmts, ih, List.foldl_cons]

theorem length_stmts (c : UInt8) : (stmts c).length ≤ 5 := by
  unfold stmts
  split_ifs <;> simp

end Console

namespace Messages

open Printf Console

/-- A call of `printf`, by a system call or not. -/
structure Call where
  pieces : List Piece
  syscall : Bool

/-- The characters that the call prints. -/
def Call.message (c : Call) : List UInt8 := c.pieces.flatMap Piece.printed

/-- What is left of a call: pieces of the format, characters of the piece it is at, and statements of
the character it is at. -/
structure Frame where
  pieces : List Piece
  chars : List UInt8
  stmts : List Stmt

/-- A step of a call that has the lock. -/
def step : Frame → Console → Option (Frame × Console)
  | ⟨ps, cs, a :: as⟩, k => some (⟨ps, cs, as⟩, a.exec k)
  | ⟨ps, c :: cs, []⟩, k => some (⟨ps, cs, Console.stmts c⟩, k)
  | ⟨x :: ps, [], []⟩, k => some (⟨ps, x.printed, []⟩, k)
  | ⟨[], [], []⟩, _ => none

/-- The statements that are left. -/
def Frame.rest (l : Frame) : List Stmt :=
  l.stmts ++ (l.chars ++ l.pieces.flatMap Piece.printed).flatMap Console.stmts

/-- The steps that are left, at most. -/
def Frame.left (l : Frame) : ℕ :=
  l.stmts.length + 6 * l.chars.length + (l.pieces.map fun x => 6 * x.printed.length + 1).sum

/-- `printf` between `acquire` and `release`. -/
def sections : Sections Call Frame Console where
  start c := ⟨c.pieces, [], []⟩
  step := step
  left := Frame.left
  left_lt := by
    rintro ⟨ps, cs, as⟩ k l' k' h
    cases as with
    | cons a as =>
      cases h
      simp only [Frame.left, List.length_cons]
      omega
    | nil =>
      cases cs with
      | cons c cs =>
        cases h
        have := length_stmts c
        simp only [Frame.left, List.length_cons, List.length_nil]
        omega
      | nil =>
        cases ps with
        | nil => cases h
        | cons x ps =>
          cases h
          simp only [Frame.left, List.length_nil, List.map_cons, List.sum_cons]
          omega

/-- **`printf` on its own** prints the message of a call. -/
theorem printf_message (c : Call) (behind : ℕ → UInt8) :
    ∃ p, printf (c.pieces.length + 1) ((formatOf c.pieces).byte behind) (argsOf c.pieces) start =
      some p ∧ p.out = c.message := by
  have h : printf (c.pieces.length + 1) ((formatOf c.pieces).byte behind)
      (argsOf c.pieces ++ []) start = _ := printf_pieces (stringAt_byte (formatOf c.pieces) behind)
  rw [List.append_nil, if_pos (Nat.lt_succ_self _)] at h
  exact ⟨_, h, rfl⟩

variable {k k' : Console} {c : Call} {l l' : Frame}

/-- A step does the first statement that is left, or none. -/
theorem step_rest (h : step l k = some (l', k')) :
    ∃ as, l.rest = as ++ l'.rest ∧ k' = k.execAll as := by
  obtain ⟨ps, cs, as⟩ := l
  cases as with
  | cons a as =>
    cases h
    exact ⟨[a], rfl, rfl⟩
  | nil =>
    cases cs with
    | cons c cs =>
      cases h
      exact ⟨[], by simp [Frame.rest], rfl⟩
    | nil =>
      cases ps with
      | nil => cases h
      | cons x ps =>
        cases h
        exact ⟨[], by simp [Frame.rest], rfl⟩

theorem rest_of_step_eq_none (h : step l k = none) : l.rest = [] := by
  obtain ⟨ps, cs, as⟩ := l
  cases as with
  | cons a as => cases h
  | nil =>
    cases cs with
    | cons c cs => cases h
    | nil =>
      cases ps with
      | nil => rfl
      | cons x ps => cases h

/-- Some steps do a part of the statements. -/
theorem steps_rest {x y : Frame × Console} (h : Steps sections x y) :
    ∃ as, x.1.rest = as ++ y.1.rest ∧ y.2 = x.2.execAll as := by
  induction h with
  | refl => exact ⟨[], rfl, rfl⟩
  | tail _ hstep ih =>
    obtain ⟨as, has, hy⟩ := ih
    obtain ⟨bs, hbs, hz⟩ := step_rest hstep
    refine ⟨as ++ bs, ?_, ?_⟩
    · rw [has, hbs, List.append_assoc]
    · rw [hz, hy, execAll_append]

theorem rest_start (c : Call) : (sections.start c).rest = c.message.flatMap Console.stmts := rfl

/-- A whole call prints its message. -/
theorem completes_eq (h : Completes sections c k k') : k' = c.message.foldl printc k := by
  obtain ⟨l, hsteps, hend⟩ := h
  obtain ⟨as, has, hk'⟩ := steps_rest hsteps
  rw [rest_start, rest_of_step_eq_none hend, List.append_nil] at has
  rw [← execAll_flatMap, has]
  exact hk'

/-- Whole calls print their messages. -/
theorem serial_eq {cs : List Call} (h : Serial sections k cs k') :
    k' = (cs.flatMap Call.message).foldl printc k := by
  rw [h.eq_foldl (f := fun k c => c.message.foldl printc k) fun _ _ _ hc => completes_eq hc,
    List.foldl_flatMap]

variable {ι : Type*} [DecidableEq ι]

/-- The threads after the steps `ts`. -/
def after (k₀ : Console) (calls : ι → List Call) (ts : List ι) :
    System ι Call Frame Spinlock Console :=
  run Spinlock.lock sections (initial ⟨false⟩ k₀ calls) ts

/-- The threads on one processor after the events `es`. -/
def processor (k₀ : Console) (calls : ι → List Call) (t₀ : ι) (es : List (Event ι)) :
    Cpu ι Call Frame Spinlock Console :=
  Cpu.run Spinlock.lock sections Call.syscall ⟨initial ⟨false⟩ k₀ calls, t₀⟩ es

/-- All messages can still be printed. -/
def Prints (m : Cpu ι Call Frame Spinlock Console) : Prop :=
  m.CanFinish Spinlock.lock sections Call.syscall

/-- **Messages are printed whole.**  In whatever order the threads take their steps: no two of them
are between `acquire` and `release`; the calls that are over and those that are not are those of each
thread, in its order; and the screen shows the messages that are over, one after the other, and then
a part of the message of the thread that has the lock. -/
theorem messages_whole (k₀ : Console) (calls : ι → List Call) (ts : List ι) :
    ∃ done : List (ι × Call),
      (∀ t, callsOf done t ++ ((after k₀ calls ts).place t).calls = calls t) ∧
      (∀ t u, ((after k₀ calls ts).place t).isInside → ((after k₀ calls ts).place u).isInside →
        t = u) ∧
      ((∀ t, ¬ ((after k₀ calls ts).place t).isInside) → (after k₀ calls ts).shared =
        (done.flatMap fun x => x.2.message).foldl printc k₀) ∧
      ∀ t c l todo, (after k₀ calls ts).place t = .inside c l todo →
        ∃ as, as ++ l.rest = c.message.flatMap Console.stmts ∧ (after k₀ calls ts).shared =
          ((done.flatMap fun x => x.2.message).foldl printc k₀).execAll as := by
  have hfree : Spinlock.lock.held ⟨false⟩ = false := rfl
  obtain ⟨done, h⟩ := run_orderly (S := sections) (orderly_initial hfree) ts
  rw [List.nil_append] at h
  refine ⟨done, h.each, fun t u => h.eq_of_inside, fun hout => ?_, fun t c l todo hp => ?_⟩
  · cases h.stage with
    | free _ _ serial => exact (serial_eq serial).trans (by rw [List.flatMap_map])
    | taken t c l todo x _ place _ _ _ =>
      exact absurd (show ((after k₀ calls ts).place t).isInside from place ▸ trivial) (hout t)
  · obtain ⟨-, x, serial, steps⟩ := h.taken_self hp
    obtain ⟨as, has, hk⟩ := steps_rest steps
    refine ⟨as, ?_, ?_⟩
    · rw [← rest_start, ← has]
    · rw [← List.flatMap_map, ← serial_eq serial]
      exact hk

/-- **When printing hangs.**  On one processor, from every state that is reached either all messages
can still be printed or nothing is ever printed again, whatever interrupts arrive; and the latter
can be reached if and only if one thread prints with interrupts on and another one by a system
call. -/
theorem printing_hangs_iff (k₀ : Console) (calls : ι → List Call) (t₀ : ι) :
    (∀ es, Prints (processor k₀ calls t₀ es) ∨ ∀ fs,
      (processor k₀ calls t₀ (es ++ fs)).sys.shared = (processor k₀ calls t₀ es).sys.shared) ∧
    ((∃ es, ¬ Prints (processor k₀ calls t₀ es)) ↔
      ∃ t u, t ≠ u ∧ (∃ c ∈ calls t, c.syscall = false) ∧ ∃ c ∈ calls u, c.syscall = true) := by
  have hfree : Spinlock.lock.held ⟨false⟩ = false := rfl
  have hiff : ∀ es, Prints (processor k₀ calls t₀ es) ↔
      ¬ (processor k₀ calls t₀ es).Stuck Spinlock.lock Call.syscall := by
    intro es
    obtain ⟨_, h⟩ := Cpu.Sound.run (S := sections) (Cpu.sound_initial hfree t₀) es
    exact h.canFinish_iff
  refine ⟨fun es => ?_, ?_⟩
  · by_cases hs : (processor k₀ calls t₀ es).Stuck Spinlock.lock Call.syscall
    · refine Or.inr fun fs => ?_
      rw [processor, Cpu.run_append]
      exact (hs.run fs).2.1
    · exact Or.inl ((hiff es).2 hs)
  · have hstuck : (∃ es, (processor k₀ calls t₀ es).Stuck Spinlock.lock Call.syscall) ↔
        ∃ t u, t ≠ u ∧ (∃ c ∈ calls t, c.syscall = false) ∧ ∃ c ∈ calls u, c.syscall = true :=
      Cpu.exists_stuck_iff hfree t₀
    rw [← hstuck]
    exact exists_congr fun es => (not_congr (hiff es)).trans not_not

end Messages

end TitanOS
