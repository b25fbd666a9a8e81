import TitanOS.Console.Numbers

/-!
# Formatted output (`drivers/vga.c`, `sched/locks.c`)

`printf` holds a spin lock while it goes through its format.  It reports an unknown specifier through
`printf`, which waits for the lock for ever; and a `%l` without a `u` behind it is not skipped.

The characters passed to `printc` are kept in a list, and so are the positions read in the format.
-/

namespace TitanOS

/-- `spinlock_t`. -/
structure Spinlock where
  locked : Bool

namespace Spinlock

/-- `__atomic_test_and_set`: the lock is held, and was held before or not. -/
def testAndSet (l : Spinlock) : Spinlock × Bool := (⟨true⟩, l.locked)

/-- `acquire`, at most `fuel` turns of its loop. -/
def acquire : ℕ → Spinlock → Option Spinlock
  | 0, _ => none
  | fuel + 1, l =>
    let r := l.testAndSet
    if r.2 then acquire fuel r.1 else some r.1

/-- `release`. -/
def release (l : Spinlock) : Spinlock := { l with locked := false }

/-- A lock that is held is never acquired. -/
theorem acquire_of_locked {l : Spinlock} (fuel : ℕ) (h : l.locked = true) :
    l.acquire fuel = none := by
  induction fuel generalizing l with
  | zero => rfl
  | succ fuel ih =>
    simp only [acquire, testAndSet, h, if_true]
    exact ih rfl

theorem acquire_of_free {l : Spinlock} (fuel : ℕ) (h : l.locked = false) :
    l.acquire (fuel + 1) = some ⟨true⟩ := by
  simp [acquire, testAndSet, h]

end Spinlock

namespace Printf

open Numbers

/-- The characters of a string. -/
structure CString where
  chars : List UInt8
  no_nul : 0 ∉ chars

/-- The bytes of a string, its terminator, and what is behind it. -/
def CString.byte (s : CString) (behind : ℕ → UInt8) : ℕ → UInt8 := fun k =>
  if k ≤ s.chars.length then s.chars.getD k 0 else behind k

/-- An argument of `printf`. -/
inductive Arg
  | int (d : ℤ) (lo : -2 ^ 31 ≤ d) (hi : d < 2 ^ 31)
  | str (s : CString)
  | long (num : ℕ) (lt : num < 2 ^ 64)

/-- The lock, the characters printed, and the positions read in the format. -/
structure Printer where
  lock : Spinlock
  out : List UInt8
  reads : List ℕ

/-- The position `pos` is read. -/
def Printer.read (p : Printer) (pos : ℕ) : Printer := { p with reads := p.reads ++ [pos] }

/-- Characters are printed. -/
def Printer.print (p : Printer) (cs : List UInt8) : Printer := { p with out := p.out ++ cs }

/-- The format of `ERROR`. -/
def errorFormat : CString where
  chars := 10 :: (['%', 's', ' ', 'e', 'r', 'r', 'o', 'r', ':', ' ', '%', 's'].map ch ++ [10])
  no_nul := by decide

/-- `"VGA"`. -/
def errorSubsystem : CString where
  chars := ['V', 'G', 'A'].map ch
  no_nul := by decide

/-- `"Format Specifier not found"`. -/
def errorMessage : CString where
  chars := ['F', 'o', 'r', 'm', 'a', 't', ' ', 'S', 'p', 'e', 'c', 'i', 'f', 'i', 'e', 'r', ' ', 'n',
    'o', 't', ' ', 'f', 'o', 'u', 'n', 'd'].map ch
  no_nul := by decide

/-- The lock is held by `body` and released after it. -/
def withLock (fuel : ℕ) (body : Printer → Option Printer) (p : Printer) : Option Printer :=
  (p.lock.acquire fuel).bind fun lock =>
    (body { p with lock := lock }).map fun p => { p with lock := p.lock.release }

/-- The loop of `printf` from position `pos` on, at most `fuel` turns.  An argument of another kind is
answered by `none`. -/
def printfLoop : ℕ → (ℕ → UInt8) → ℕ → List Arg → Printer → Option Printer
  | 0, _, _, _, _ => none
  | fuel + 1, format, pos, args, p =>
    let p := p.read pos
    if format pos = 0 then some p
    else if format pos = ch '%' then
      let p := p.read (pos + 1)
      if format (pos + 1) = ch 'd' then
        match args with
        | .int d _ _ :: args => printfLoop fuel format (pos + 2) args (p.print (printint d))
        | _ => none
      else if format (pos + 1) = ch 's' then
        match args with
        | .str s :: args => printfLoop fuel format (pos + 2) args (p.print s.chars)
        | _ => none
      else if format (pos + 1) = ch 'l' then
        let p := p.read (pos + 2)
        if format (pos + 2) = ch 'u' then
          match args with
          | .long num _ :: args => printfLoop fuel format (pos + 3) args (p.print (printlong num))
          | _ => none
        else printfLoop fuel format pos args p
      else
        -- `VGA_ERROR` calls `printf`, which has the same lock
        (withLock fuel (printfLoop fuel (errorFormat.byte fun _ => 0) 0
          [.str errorSubsystem, .str errorMessage]) p).bind fun q =>
            printfLoop fuel format (pos + 2) args { q with reads := p.reads }
    else printfLoop fuel format (pos + 1) args (p.print [format pos])

/-- `printf`. -/
def printf (fuel : ℕ) (format : ℕ → UInt8) (args : List Arg) (p : Printer) : Option Printer :=
  withLock fuel (printfLoop fuel format 0 args) p

/-- Before the first call. -/
def start : Printer := ⟨⟨false⟩, [], []⟩

/-! ### Formats -/

/-- The specifiers, by what they print. -/
inductive Kind
  | int
  | str
  | long
  deriving DecidableEq

/-- The characters behind the `%`. -/
def Kind.chars : Kind → List UInt8
  | .int => [ch 'd']
  | .str => [ch 's']
  | .long => [ch 'l', ch 'u']

/-- The specifier for an argument. -/
def Arg.kind : Arg → Kind
  | .int .. => .int
  | .str _ => .str
  | .long .. => .long

/-- A part of a format: an ordinary character or a specifier. -/
inductive Directive
  | char (c : UInt8) (ne_nul : c ≠ 0) (ne_percent : c ≠ ch '%')
  | spec (k : Kind)

/-- The characters of a directive. -/
def Directive.chars : Directive → List UInt8
  | .char c _ _ => [c]
  | .spec k => ch '%' :: k.chars

/-- The argument that a directive takes. -/
def Directive.kind : Directive → Option Kind
  | .char .. => none
  | .spec k => some k

/-- The arguments that a format takes.  An unknown specifier takes none. -/
def specifiers : List UInt8 → List Kind
  | c :: e :: cs =>
    if c = ch '%' then
      (if e = ch 'd' then [.int] else if e = ch 's' then [.str]
        else if e = ch 'l' ∧ cs.head? = some (ch 'u') then [.long] else []) ++ specifiers cs
    else specifiers (e :: cs)
  | _ => []

/-- `printf` returns, the lock is free, and nothing behind the terminator has been read. -/
def Finishes (format : CString) (behind : ℕ → UInt8) (args : List Arg) : Prop :=
  ∃ fuel p, printf fuel (format.byte behind) args start = some p ∧ p.lock.locked = false ∧
    ∀ i ∈ p.reads, i ≤ format.chars.length

/-- A directive with its argument. -/
inductive Piece
  | char (c : UInt8) (ne_nul : c ≠ 0) (ne_percent : c ≠ ch '%')
  | arg (a : Arg)

/-- The directive of a piece. -/
def Piece.directive : Piece → Directive
  | .char c h h' => .char c h h'
  | .arg a => .spec a.kind

/-- The argument of a piece. -/
def Piece.argument : Piece → Option Arg
  | .char .. => none
  | .arg a => some a

/-- The format that the pieces spell. -/
def spell (ps : List Piece) : List UInt8 := ps.flatMap fun x => x.directive.chars

/-- The arguments of the pieces. -/
def argsOf (ps : List Piece) : List Arg := ps.filterMap Piece.argument

/-- What is printed for a piece. -/
def Piece.printed : Piece → List UInt8
  | .char c _ _ => [c]
  | .arg (.int d _ _) => printint d
  | .arg (.str s) => s.chars
  | .arg (.long num _) => printlong num

/-- What is to be printed for a piece. -/
def Piece.rendered : Piece → List UInt8
  | .char c _ _ => [c]
  | .arg (.int d _ _) => decimal d
  | .arg (.str s) => s.chars
  | .arg (.long num _) => [ch '0', ch 'x'] ++ hexadecimal num

/-! ### Turns of the loop -/

variable {fuel pos : ℕ} {format : ℕ → UInt8} {args extra : List Arg} {p q : Printer} {x : Piece}
  {ps : List Piece} {cs : List UInt8} {ds : List Directive}

/-- The characters `cs` and a terminator are at `pos`. -/
def StringAt (format : ℕ → UInt8) (pos : ℕ) (cs : List UInt8) : Prop :=
  ∀ k ≤ cs.length, format (pos + k) = cs.getD k 0

theorem StringAt.head {c : UInt8} (h : StringAt format pos (c :: cs)) : format pos = c :=
  h 0 (Nat.zero_le _)

theorem StringAt.tail {c : UInt8} (h : StringAt format pos (c :: cs)) :
    StringAt format (pos + 1) cs := by
  intro k hk
  have hnext := h (k + 1) (by rw [List.length_cons]; omega)
  rwa [List.getD_cons_succ, show pos + (k + 1) = pos + 1 + k by omega] at hnext

theorem StringAt.drop {as : List UInt8} (h : StringAt format pos (as ++ cs)) :
    StringAt format (pos + as.length) cs := by
  induction as generalizing pos with
  | nil => exact h
  | cons a as ih =>
    rw [List.length_cons, show pos + (as.length + 1) = pos + 1 + as.length by omega]
    exact ih h.tail

theorem StringAt.nil (h : StringAt format pos []) : format pos = 0 := h 0 (Nat.zero_le _)

theorem printfLoop_end (h : format pos = 0) :
    printfLoop (fuel + 1) format pos args p = some (p.read pos) := by
  simp only [printfLoop, h, if_true]

/-- A piece of the format takes one turn. -/
theorem printfLoop_piece (h : StringAt format pos (x.directive.chars ++ cs)) :
    printfLoop (fuel + 1) format pos (argsOf [x] ++ args) p =
      printfLoop fuel format (pos + x.directive.chars.length) args
        ⟨p.lock, p.out ++ x.printed, p.reads ++ List.range' pos x.directive.chars.length⟩ := by
  cases x with
  | char c ne_nul ne_percent =>
    have hc : format pos = c := h.head
    have hne : ¬ format pos = 0 := by rwa [hc]
    have hne' : ¬ format pos = ch '%' := by rwa [hc]
    simp only [printfLoop, if_neg hne, if_neg hne']
    rw [hc]
    rfl
  | arg a =>
    have hpercent : format pos = ch '%' := h.head
    have hne : ¬ format pos = 0 := by rw [hpercent]; decide
    cases a with
    | int d lo hi =>
      have hd : format (pos + 1) = ch 'd' := h.tail.head
      simp only [printfLoop, if_neg hne, if_pos hpercent, if_pos hd]
      simp only [argsOf, Printer.read, Printer.print, List.append_assoc]
      rfl
    | str s =>
      have hs : format (pos + 1) = ch 's' := h.tail.head
      have hd : ¬ format (pos + 1) = ch 'd' := by rw [hs]; decide
      simp only [printfLoop, if_neg hne, if_pos hpercent, if_neg hd, if_pos hs]
      simp only [argsOf, Printer.read, Printer.print, List.append_assoc]
      rfl
    | long num lt =>
      have hl : format (pos + 1) = ch 'l' := h.tail.head
      have hu : format (pos + 2) = ch 'u' := h.tail.tail.head
      have hd : ¬ format (pos + 1) = ch 'd' := by rw [hl]; decide
      have hs : ¬ format (pos + 1) = ch 's' := by rw [hl]; decide
      simp only [printfLoop, if_neg hne, if_pos hpercent, if_neg hd, if_neg hs, if_pos hl, if_pos hu]
      simp only [argsOf, Printer.read, Printer.print, List.append_assoc]
      rfl

/-- **The run lemma**: the loop over the pieces, and the turn for the terminator. -/
theorem printfLoop_pieces (h : StringAt format pos (spell ps)) :
    printfLoop fuel format pos (argsOf ps ++ extra) p =
      if ps.length < fuel then some ⟨p.lock, p.out ++ ps.flatMap Piece.printed,
        p.reads ++ List.range' pos ((spell ps).length + 1)⟩
      else none := by
  induction ps generalizing fuel pos p with
  | nil =>
    cases fuel with
    | zero => rfl
    | succ fuel =>
      rw [printfLoop_end h.nil, List.length_nil, if_pos (Nat.succ_pos fuel), List.flatMap_nil,
        List.append_nil]
      rfl
  | cons x ps ih =>
    have hspell : spell (x :: ps) = x.directive.chars ++ spell ps := List.flatMap_cons
    have hargs : argsOf (x :: ps) = argsOf [x] ++ argsOf ps := List.filterMap_append (l := [x])
    cases fuel with
    | zero => rfl
    | succ fuel =>
      rw [hspell] at h ⊢
      rw [hargs, List.append_assoc, printfLoop_piece h, ih h.drop]
      simp only [List.length_cons, Nat.succ_lt_succ_iff, List.flatMap_cons, List.append_assoc,
        List.length_append]
      rw [add_assoc x.directive.chars.length, List.range'_append_1]

/-- **A whole call** for a format that the pieces spell. -/
theorem printf_pieces (h : StringAt format 0 (spell ps)) :
    printf fuel format (argsOf ps ++ extra) start =
      if ps.length < fuel then some ⟨⟨false⟩, ps.flatMap Piece.printed,
        List.range' 0 ((spell ps).length + 1)⟩
      else none := by
  cases fuel with
  | zero => rfl
  | succ fuel =>
    unfold printf withLock
    have hfree : start.lock.locked = false := rfl
    rw [Spinlock.acquire_of_free fuel hfree, Option.bind_some, printfLoop_pieces h]
    split_ifs <;> rfl

/-! ### When `printf` finishes -/

theorem ne_zero_of_stringAt {c : UInt8} (hcs : 0 ∉ cs) (h : StringAt format pos cs)
    (hc : format pos = c) (hne : c ≠ 0) : ∃ cs', cs = c :: cs' := by
  cases cs with
  | nil => exact absurd (hc.symm.trans h.nil) hne
  | cons e cs' => exact ⟨cs', by rw [← hc, h.head]⟩

/-- An error is reported to a lock that is held. -/
theorem withLock_of_locked (body : Printer → Option Printer) (h : p.lock.locked = true) :
    withLock fuel body p = none := by
  rw [withLock, Spinlock.acquire_of_locked fuel h, Option.bind_none]

/-- A loop that comes to its end has gone through directives, by induction on the fuel. -/
theorem exists_directives (hcs : 0 ∉ cs) (hat : StringAt format pos cs)
    (h : printfLoop fuel format pos args p = some q) (hlock : p.lock.locked = true) :
    ∃ ds : List Directive, cs = ds.flatMap Directive.chars := by
  induction fuel generalizing pos args p cs with
  | zero => cases h
  | succ fuel ih =>
    cases cs with
    | nil => exact ⟨[], rfl⟩
    | cons c cs =>
      have hc : format pos = c := hat.head
      obtain ⟨hne, hcs'⟩ : c ≠ 0 ∧ 0 ∉ cs := by simpa [eq_comm] using hcs
      rw [printfLoop] at h
      simp only [hc, if_neg hne] at h
      by_cases hpercent : c = ch '%'
      · rw [if_pos hpercent] at h
        split_ifs at h with hd hs hl hu
        · obtain ⟨rest, rfl⟩ := ne_zero_of_stringAt hcs' hat.tail hd (by decide)
          split at h
          · obtain ⟨ds, hds⟩ := ih (List.not_mem_of_not_mem_cons hcs') hat.tail.tail h hlock
            exact ⟨.spec .int :: ds, by rw [List.flatMap_cons, ← hds, hpercent]; rfl⟩
          · cases h
        · obtain ⟨rest, rfl⟩ := ne_zero_of_stringAt hcs' hat.tail hs (by decide)
          split at h
          · obtain ⟨ds, hds⟩ := ih (List.not_mem_of_not_mem_cons hcs') hat.tail.tail h hlock
            exact ⟨.spec .str :: ds, by rw [List.flatMap_cons, ← hds, hpercent]; rfl⟩
          · cases h
        · obtain ⟨rest, rfl⟩ := ne_zero_of_stringAt hcs' hat.tail hl (by decide)
          have hrest := List.not_mem_of_not_mem_cons hcs'
          obtain ⟨rest, rfl⟩ := ne_zero_of_stringAt hrest hat.tail.tail hu (by decide)
          split at h
          · obtain ⟨ds, hds⟩ := ih (List.not_mem_of_not_mem_cons hrest) hat.tail.tail.tail h hlock
            exact ⟨.spec .long :: ds, by rw [List.flatMap_cons, ← hds, hpercent]; rfl⟩
          · cases h
        · -- the next turn is at the same place
          exact ih hcs hat h hlock
        · -- the error is never reported
          have hheld : ((p.read pos).read (pos + 1)).lock.locked = true := hlock
          rw [withLock_of_locked _ hheld, Option.bind_none] at h
          cases h
      · rw [if_neg hpercent] at h
        obtain ⟨ds, hds⟩ := ih hcs' hat.tail h hlock
        exact ⟨.char c hne hpercent :: ds, by rw [List.flatMap_cons, ← hds]; rfl⟩

theorem specifiers_cons {c : UInt8} (h : c ≠ ch '%') : specifiers (c :: cs) = specifiers cs := by
  cases cs with
  | nil => rfl
  | cons e cs => rw [specifiers, if_neg h]

/-- The arguments of a format that consists of directives. -/
theorem specifiers_flatMap : specifiers (ds.flatMap Directive.chars) = ds.filterMap Directive.kind := by
  induction ds with
  | nil => rfl
  | cons d ds ih =>
    rw [List.flatMap_cons]
    cases d with
    | char c ne_nul ne_percent =>
      rw [Directive.chars, List.singleton_append, specifiers_cons ne_percent, ih]
      rfl
    | spec k =>
      cases k with
      | int =>
        show specifiers (ch '%' :: ch 'd' :: ds.flatMap Directive.chars) = _
        rw [specifiers, ih]
        rfl
      | str =>
        show specifiers (ch '%' :: ch 's' :: ds.flatMap Directive.chars) = _
        rw [specifiers, ih]
        rfl
      | long =>
        show specifiers (ch '%' :: ch 'l' :: ch 'u' :: ds.flatMap Directive.chars) = _
        rw [specifiers, specifiers_cons (by decide), ih]
        rfl

/-- Directives and arguments of their kinds make pieces. -/
theorem exists_pieces (h : ds.filterMap Directive.kind <+: args.map Arg.kind) :
    ∃ ps extra, spell ps = ds.flatMap Directive.chars ∧ args = argsOf ps ++ extra := by
  induction ds generalizing args with
  | nil => exact ⟨[], args, rfl, rfl⟩
  | cons d ds ih =>
    cases d with
    | char c ne_nul ne_percent =>
      obtain ⟨ps, extra, hspell, hargs⟩ := ih h
      refine ⟨.char c ne_nul ne_percent :: ps, extra, ?_, hargs⟩
      rw [List.flatMap_cons, ← hspell]
      rfl
    | spec k =>
      cases args with
      | nil => exact absurd (List.prefix_nil.1 h) (List.cons_ne_nil _ _)
      | cons a args =>
        obtain ⟨hk, hrest⟩ := List.cons_prefix_cons.1 h
        obtain ⟨ps, extra, hspell, rfl⟩ := ih hrest
        refine ⟨.arg a :: ps, extra, ?_, rfl⟩
        rw [List.flatMap_cons, ← hspell, hk]
        rfl

theorem stringAt_byte (s : CString) (behind : ℕ → UInt8) :
    StringAt (s.byte behind) 0 s.chars := by
  intro k hk
  rw [Nat.zero_add, CString.byte, if_pos hk]

theorem exists_directives_of_finishes {format : CString} {behind : ℕ → UInt8}
    (h : Finishes format behind args) :
    ∃ ds : List Directive, format.chars = ds.flatMap Directive.chars := by
  obtain ⟨fuel, p, hprintf, -⟩ := h
  obtain ⟨lock, hlock, hbody⟩ := Option.bind_eq_some_iff.1 hprintf
  obtain ⟨q, hq, -⟩ := Option.map_eq_some_iff.1 hbody
  have hheld : lock.locked = true := by
    cases fuel with
    | zero => cases hlock
    | succ fuel =>
      have hfree : start.lock.locked = false := rfl
      rw [Spinlock.acquire_of_free fuel hfree] at hlock
      cases hlock
      rfl
  exact exists_directives format.no_nul (stringAt_byte format behind) hq hheld

/-- **When `printf` finishes**: behind every `%` there is `d`, `s` or `lu`.  And a lock that is held is
never acquired. -/
theorem printf_finishes_iff (format : CString) (behind : ℕ → UInt8) (args : List Arg)
    (hargs : specifiers format.chars <+: args.map Arg.kind) :
    (Finishes format behind args ↔
      ∃ ds : List Directive, format.chars = ds.flatMap Directive.chars) ∧
    ∀ (l : Spinlock) (fuel : ℕ), l.locked = true → l.acquire fuel = none := by
  refine ⟨⟨exists_directives_of_finishes, ?_⟩, fun l fuel h => l.acquire_of_locked fuel h⟩
  rintro ⟨ds, hds⟩
  rw [hds, specifiers_flatMap] at hargs
  obtain ⟨ps, extra, hspell, rfl⟩ := exists_pieces hargs
  have hat := stringAt_byte format behind
  rw [hds, ← hspell] at hat
  refine ⟨ps.length + 1, _, (printf_pieces hat).trans (if_pos (Nat.lt_succ_self _)), rfl,
    fun i hi => ?_⟩
  have hrange := List.mem_range'_1.1 hi
  rw [hds, ← hspell]
  omega

/-- The format `"%s: %d"`. -/
def number : CString where
  chars := ['%', 's', ':', ' ', '%', 'd'].map ch
  no_nul := by decide

/-- It is printed with a string and a number. -/
theorem printf_finishes_number : Finishes number (fun _ => 1)
    [.str errorSubsystem, .int (-7) (by decide) (by decide)] :=
  (printf_finishes_iff number (fun _ => 1)
    [.str errorSubsystem, .int (-7) (by decide) (by decide)] (by decide)).1.2
    ⟨[.spec .str, .char (ch ':') (by decide) (by decide), .char (ch ' ') (by decide) (by decide),
      .spec .int], rfl⟩

/-- The format `"%r"`. -/
def unknownSpecifier : CString where
  chars := ['%', 'r'].map ch
  no_nul := by decide

/-- `printf("%r", "Whatever")` does not return. -/
theorem unknown_specifier_hangs :
    specifiers unknownSpecifier.chars <+: [Arg.str errorMessage].map Arg.kind ∧
      ¬ Finishes unknownSpecifier (fun _ => 0) [.str errorMessage] := by
  refine ⟨by decide, fun h => ?_⟩
  obtain ⟨ds, hds⟩ := exists_directives_of_finishes h
  have hr : ∀ k : Kind, ch 'r' :: [] ≠ k.chars ++ ds.tail.flatMap Directive.chars := by
    intro k
    cases k <;> exact fun heq => absurd (List.cons.inj heq).1 (by decide)
  cases ds with
  | nil => cases hds
  | cons d ds =>
    cases d with
    | char c ne_nul ne_percent => exact ne_percent (List.cons.inj hds).1.symm
    | spec k => exact hr k (List.cons.inj hds).2

/-! ### When the arguments are rendered -/

theorem zero_not_mem_spell (ps : List Piece) : 0 ∉ spell ps := by
  intro h
  obtain ⟨x, -, hx⟩ := List.mem_flatMap.1 h
  cases x with
  | char c ne_nul ne_percent => exact ne_nul (List.mem_singleton.1 hx).symm
  | arg a =>
    have hspec : ∀ k : Kind, 0 ∉ ch '%' :: k.chars := by
      intro k
      cases k <;> decide
    exact hspec a.kind hx

/-- The format of the pieces. -/
def formatOf (ps : List Piece) : CString := ⟨spell ps, zero_not_mem_spell ps⟩

/-- `printf` prints the format with its arguments in place. -/
def Renders (ps : List Piece) (behind : ℕ → UInt8) : Prop :=
  ∃ fuel p, printf fuel ((formatOf ps).byte behind) (argsOf ps) start = some p ∧
    p.out = ps.flatMap Piece.rendered

/-- What a call prints does not depend on the fuel. -/
theorem renders_iff (ps : List Piece) (behind : ℕ → UInt8) :
    Renders ps behind ↔ ps.flatMap Piece.printed = ps.flatMap Piece.rendered := by
  have hcall : ∀ fuel, printf fuel ((formatOf ps).byte behind) (argsOf ps) start =
      if ps.length < fuel then some ⟨⟨false⟩, ps.flatMap Piece.printed,
        List.range' 0 ((spell ps).length + 1)⟩ else none := by
    intro fuel
    have hrun := @printf_pieces fuel _ [] ps (stringAt_byte (formatOf ps) behind)
    rwa [List.append_nil] at hrun
  constructor
  · rintro ⟨fuel, p, hp, hout⟩
    rw [hcall] at hp
    split_ifs at hp
    cases hp
    exact hout
  · exact fun h => ⟨ps.length + 1, _, (hcall _).trans (if_pos (Nat.lt_succ_self _)), h⟩

/-- A measure of what is printed that is nowhere above that of what is to be printed is equal for each
piece when it is equal in total. -/
theorem measure_eq_of_flatMap_eq {f g : Piece → List UInt8} {w : List UInt8 → ℕ} (hnil : w [] = 0)
    (hadd : ∀ as bs, w (as ++ bs) = w as + w bs) (hle : ∀ x ∈ ps, w (f x) ≤ w (g x))
    (h : ps.flatMap f = ps.flatMap g) : ∀ x ∈ ps, w (f x) = w (g x) := by
  have htotal : ∀ (e : Piece → List UInt8) (ps : List Piece),
      w (ps.flatMap e) = (ps.map fun x => w (e x)).sum := by
    intro e ps
    induction ps with
    | nil => exact hnil
    | cons x ps ih => rw [List.flatMap_cons, hadd, ih, List.map_cons, List.sum_cons]
  intro x hx
  by_contra hne
  have hlt := List.sum_lt_sum (fun x => w (f x)) (fun x => w (g x)) hle
    ⟨x, hx, lt_of_le_of_ne (hle x hx) hne⟩
  rw [← htotal, ← htotal, h] at hlt
  exact lt_irrefl _ hlt

/-- All pieces but numbers are printed as they are to be. -/
theorem isInt_or_printed_eq (x : Piece) :
    (∃ d lo hi, x = .arg (.int d lo hi)) ∨ x.printed = x.rendered := by
  cases x with
  | char c ne_nul ne_percent => exact Or.inr rfl
  | arg a =>
    cases a with
    | int d lo hi => exact Or.inl ⟨d, lo, hi, rfl⟩
    | str s => exact Or.inr rfl
    | long num lt => exact Or.inr (printlong_eq num)

theorem significant_printed_le (x : Piece) : significant x.printed ≤ significant x.rendered := by
  rcases isInt_or_printed_eq x with ⟨d, lo, hi, rfl⟩ | heq
  · rcases eq_or_ne d 0 with rfl | hne
    · rw [Piece.printed, printint_zero]
      exact Nat.zero_le _
    · exact (significant_printint_lt lo hi hne).le
  · rw [heq]

/-- **When `printf` renders its arguments**: there is no `%d` in the format. -/
theorem printf_renders_iff (ps : List Piece) (behind : ℕ → UInt8) :
    Renders ps behind ↔ ∀ a, Piece.arg a ∈ ps → a.kind ≠ .int := by
  rw [renders_iff]
  constructor
  · intro h
    -- as many significant digits, so every number is 0; and as many characters, so there is none
    have hdigits := measure_eq_of_flatMap_eq rfl significant_append
      (fun x _ => significant_printed_le x) h
    have hzero : ∀ d lo hi, Piece.arg (.int d lo hi) ∈ ps → printint d = [] := by
      intro d lo hi hmem
      rcases eq_or_ne d 0 with rfl | hne
      · exact printint_zero
      · exact absurd (hdigits _ hmem) (significant_printint_lt lo hi hne).ne
    have hshort : ∀ x ∈ ps, x.printed.length ≤ x.rendered.length := by
      intro x hx
      rcases isInt_or_printed_eq x with ⟨d, lo, hi, rfl⟩ | heq
      · rw [Piece.printed, hzero d lo hi hx]
        exact Nat.zero_le _
      · rw [heq]
    have hlength := measure_eq_of_flatMap_eq rfl (fun _ _ => List.length_append) hshort h
    intro a ha hkind
    cases a with
    | int d lo hi =>
      have hnil := hlength _ ha
      rw [Piece.printed, hzero d lo hi ha, Piece.rendered, decimal, List.length_append] at hnil
      have hpos := List.length_pos_iff.2 (decimalNat_ne_nil d.natAbs)
      simp only [List.length_nil] at hnil
      omega
    | str s => cases hkind
    | long num lt => cases hkind
  · intro h
    refine List.flatMap_congr fun x hx => ?_
    rcases isInt_or_printed_eq x with ⟨d, lo, hi, rfl⟩ | heq
    · exact absurd rfl (h _ hx)
    · exact heq

/-- `printf("%d", 42)` prints `2`. -/
theorem first_digit_missing :
    ¬ Renders [.arg (.int 42 (by decide) (by decide))] fun _ => 0 := by
  rw [renders_iff]
  decide

end Printf

end TitanOS
