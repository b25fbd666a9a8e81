import Mathlib.Logic.Relation
import Mathlib.Tactic

/-!
# Critical sections behind one test-and-set lock

Threads make calls, one after the other.  A call waits for the lock by testing and setting it again
and again, goes through its section, and releases the lock.  A step of the system is a step of one
thread, and any thread may take the next one, so a run is a list of threads.

A section is any step function on a local and the shared state; nothing is assumed about how much one
step does.  `run_orderly` says that all the same the shared state is always that of whole sections,
one after the other in the order in which they got the lock, and a part of the one that is held.
-/

namespace Critical

open Function (update)

/-- A lock that is tested and set in one step. -/
structure Lock (β : Type*) where
  held : β → Bool
  testAndSet : β → β × Bool
  release : β → β
  testAndSet_snd : ∀ b, (testAndSet b).2 = held b
  held_testAndSet : ∀ b, held (testAndSet b).1 = true
  held_release : ∀ b, held (release b) = false

/-- What a call does between getting the lock and releasing it, in at most `left` steps. -/
structure Sections (κ τ σ : Type*) where
  start : κ → τ
  step : τ → σ → Option (τ × σ)
  left : τ → ℕ
  left_lt : ∀ {l x l' x'}, step l x = some (l', x') → left l' < left l

/-- Where a thread is, with the calls that it will make afterwards. -/
inductive Place (κ τ : Type*)
  | outside (todo : List κ)
  | waiting (c : κ) (todo : List κ)
  | inside (c : κ) (l : τ) (todo : List κ)

/-- The calls that are not over. -/
def Place.calls {κ τ : Type*} : Place κ τ → List κ
  | .outside todo => todo
  | .waiting c todo => c :: todo
  | .inside c _ todo => c :: todo

/-- The thread has the lock. -/
def Place.isInside {κ τ : Type*} : Place κ τ → Prop
  | .inside .. => True
  | _ => False

/-- All threads, the lock, and what it protects. -/
structure System (ι κ τ β σ : Type*) where
  lock : β
  shared : σ
  place : ι → Place κ τ

variable {ι κ τ β σ : Type*} [DecidableEq ι] (L : Lock β) (S : Sections κ τ σ)

/-- A step of thread `t`. -/
def step (s : System ι κ τ β σ) (t : ι) : System ι κ τ β σ :=
  match s.place t with
  | .outside [] => s
  | .outside (c :: todo) => { s with place := update s.place t (.waiting c todo) }
  | .waiting c todo =>
    let r := L.testAndSet s.lock
    if r.2 then { s with lock := r.1 }
    else { s with lock := r.1, place := update s.place t (.inside c (S.start c) todo) }
  | .inside c l todo =>
    match S.step l s.shared with
    | some (l', x) => { s with shared := x, place := update s.place t (.inside c l' todo) }
    | none => { s with lock := L.release s.lock, place := update s.place t (.outside todo) }

/-- A run, by the threads that take the steps. -/
def run (s : System ι κ τ β σ) (ts : List ι) : System ι κ τ β σ := ts.foldl (step L S) s

/-! ### Sections one after the other -/

/-- Some steps of a section. -/
def Steps : τ × σ → τ × σ → Prop :=
  Relation.ReflTransGen fun a b => S.step a.1 a.2 = some b

/-- The whole section of a call. -/
def Completes (c : κ) (x y : σ) : Prop := ∃ l, Steps S (S.start c, x) (l, y) ∧ S.step l y = none

/-- Whole sections one after the other. -/
inductive Serial : σ → List κ → σ → Prop
  | nil (x : σ) : Serial x [] x
  | snoc {x y z : σ} {cs : List κ} {c : κ} : Serial x cs y → Completes S c y z →
      Serial x (cs ++ [c]) z

/-- What the lock says, what it protects, and who is where, when the calls `cs` are over. -/
inductive Stage (x₀ : σ) (cs : List κ) (s : System ι κ τ β σ) : Prop
  | free (lock : L.held s.lock = false) (apart : ∀ t, ¬ (s.place t).isInside)
      (serial : Serial S x₀ cs s.shared)
  | taken (t : ι) (c : κ) (l : τ) (todo : List κ) (x : σ) (lock : L.held s.lock = true)
      (place : s.place t = .inside c l todo) (apart : ∀ u, u ≠ t → ¬ (s.place u).isInside)
      (serial : Serial S x₀ cs x) (steps : Steps S (S.start c, x) (l, s.shared))

/-- The calls of one thread. -/
def callsOf (done : List (ι × κ)) (t : ι) : List κ :=
  (done.filter fun x => x.1 = t).map Prod.snd

/-- The calls `done` are over, in this order. -/
structure Orderly (x₀ : σ) (calls : ι → List κ) (s : System ι κ τ β σ) (done : List (ι × κ)) :
    Prop where
  each : ∀ t, callsOf done t ++ (s.place t).calls = calls t
  stage : Stage L S x₀ (done.map Prod.snd) s

variable {L S} {x₀ : σ} {calls : ι → List κ} {s : System ι κ τ β σ} {done : List (ι × κ)} {t u : ι}

theorem callsOf_concat_self (done : List (ι × κ)) (t : ι) (c : κ) :
    callsOf (done ++ [(t, c)]) t = callsOf done t ++ [c] := by
  simp [callsOf]

theorem callsOf_concat_of_ne (done : List (ι × κ)) (c : κ) (h : u ≠ t) :
    callsOf (done ++ [(t, c)]) u = callsOf done u := by
  simp [callsOf, h.symm]

/-- Whole sections with a known result. -/
theorem Serial.eq_foldl {x y : σ} {cs : List κ} {f : σ → κ → σ} (h : Serial S x cs y)
    (hf : ∀ c x y, Completes S c x y → y = f x c) : y = cs.foldl f x := by
  induction h with
  | nil => rfl
  | snoc _ hc ih =>
    rw [List.foldl_append, ← ih]
    exact hf _ _ _ hc

/-- **Mutual exclusion.** -/
theorem Orderly.eq_of_inside (h : Orderly L S x₀ calls s done) (ht : (s.place t).isInside)
    (hu : (s.place u).isInside) : t = u := by
  cases h.stage with
  | free _ apart _ => exact absurd ht (apart t)
  | taken v _ _ _ _ _ _ apart _ _ =>
    by_contra hne
    by_cases htv : t = v
    · exact apart u (fun huv => hne (htv.trans huv.symm)) hu
    · exact apart t htv ht

theorem Orderly.held_of_inside (h : Orderly L S x₀ calls s done) (ht : (s.place t).isInside) :
    L.held s.lock = true := by
  cases h.stage with
  | free _ apart _ => exact absurd ht (apart t)
  | taken _ _ _ _ _ lock _ _ _ _ => exact lock

/-- A thread moves without finishing a call. -/
theorem Orderly.each_update (h : Orderly L S x₀ calls s done) {p : Place κ τ}
    (hp : p.calls = (s.place t).calls) (u : ι) :
    callsOf done u ++ (update s.place t p u).calls = calls u := by
  by_cases hu : u = t
  · subst hu
    rw [Function.update_self, hp]
    exact h.each u
  · rw [Function.update_of_ne hu]
    exact h.each u

/-- A call begins. -/
theorem Orderly.begin (h : Orderly L S x₀ calls s done) {c : κ} {todo : List κ}
    (hp : s.place t = .outside (c :: todo)) :
    Orderly L S x₀ calls { s with place := update s.place t (.waiting c todo) } done := by
  refine ⟨h.each_update (by rw [hp]; rfl), ?_⟩
  · have hout : ∀ u, ¬ (s.place u).isInside →
        ¬ ((update s.place t (.waiting c todo)) u).isInside := by
      intro u hu
      by_cases hut : u = t
      · subst hut
        simp [Place.isInside]
      · rwa [Function.update_of_ne hut]
    cases h.stage with
    | free lock apart serial => exact .free lock (fun u => hout u (apart u)) serial
    | taken v c' l todo' x lock place apart serial steps =>
      have hvt : v ≠ t := by
        rintro rfl
        rw [hp] at place
        cases place
      exact .taken v c' l todo' x lock ((Function.update_of_ne hvt _ _).trans place)
        (fun u hu => hout u (apart u hu)) serial steps

/-- The lock is tested in vain. -/
theorem Orderly.spin (h : Orderly L S x₀ calls s done) (hl : L.held s.lock = true) :
    Orderly L S x₀ calls { s with lock := (L.testAndSet s.lock).1 } done := by
  refine ⟨h.each, ?_⟩
  cases h.stage with
  | free lock => rw [hl] at lock; cases lock
  | taken v c l todo x _ place apart serial steps =>
    exact .taken v c l todo x (L.held_testAndSet _) place apart serial steps

/-- The lock is taken. -/
theorem Orderly.enter (h : Orderly L S x₀ calls s done) {c : κ} {todo : List κ}
    (hp : s.place t = .waiting c todo) (hl : L.held s.lock = false) :
    Orderly L S x₀ calls ⟨(L.testAndSet s.lock).1, s.shared,
      update s.place t (.inside c (S.start c) todo)⟩ done := by
  refine ⟨h.each_update (by rw [hp]; rfl), ?_⟩
  · cases h.stage with
    | taken _ _ _ _ _ lock => rw [hl] at lock; cases lock
    | free _ apart serial =>
      refine .taken t c (S.start c) todo s.shared (L.held_testAndSet _) (by simp) (fun u hu => ?_)
        serial .refl
      simpa only [Function.update_of_ne hu] using apart u

/-- The holder of the lock is the thread inside. -/
theorem Orderly.taken_self (h : Orderly L S x₀ calls s done) {c : κ} {l : τ} {todo : List κ}
    (hp : s.place t = .inside c l todo) : (∀ u, u ≠ t → ¬ (s.place u).isInside) ∧
      ∃ x, Serial S x₀ (done.map Prod.snd) x ∧ Steps S (S.start c, x) (l, s.shared) := by
  have hin : (s.place t).isInside := by rw [hp]; trivial
  refine ⟨fun u hu hin' => hu (h.eq_of_inside hin' hin), ?_⟩
  cases h.stage with
  | free _ apart _ => exact absurd hin (apart t)
  | taken v c' l' todo' x _ place apart serial steps =>
    obtain rfl : t = v := by
      by_contra hne
      exact apart t hne hin
    rw [hp] at place
    cases place
    exact ⟨x, serial, steps⟩

/-- A step inside. -/
theorem Orderly.proceed (h : Orderly L S x₀ calls s done) {c : κ} {l l' : τ} {todo : List κ} {x : σ}
    (hp : s.place t = .inside c l todo) (hs : S.step l s.shared = some (l', x)) :
    Orderly L S x₀ calls ⟨s.lock, x, update s.place t (.inside c l' todo)⟩ done := by
  obtain ⟨apart, y, serial, steps⟩ := h.taken_self hp
  have hin : (s.place t).isInside := by rw [hp]; trivial
  refine ⟨h.each_update (by rw [hp]; rfl), .taken t c l' todo y (h.held_of_inside hin) (by simp)
    (fun u hu => ?_) serial (steps.tail hs)⟩
  simpa only [Function.update_of_ne hu] using apart u hu

/-- The lock is released. -/
theorem Orderly.leave (h : Orderly L S x₀ calls s done) {c : κ} {l : τ} {todo : List κ}
    (hp : s.place t = .inside c l todo) (hs : S.step l s.shared = none) :
    Orderly L S x₀ calls ⟨L.release s.lock, s.shared, update s.place t (.outside todo)⟩
      (done ++ [(t, c)]) := by
  obtain ⟨apart, y, serial, steps⟩ := h.taken_self hp
  refine ⟨fun u => ?_, .free (L.held_release _) (fun u => ?_) ?_⟩
  · by_cases hu : u = t
    · subst hu
      have hu := h.each u
      rw [hp] at hu
      rw [callsOf_concat_self]
      simpa [Place.calls] using hu
    · rw [callsOf_concat_of_ne _ _ hu]
      simpa [Function.update_of_ne hu] using h.each u
  · by_cases hu : u = t
    · subst hu
      simp [Place.isInside]
    · simpa only [Function.update_of_ne hu] using apart u hu
  · rw [List.map_append]
    exact serial.snoc ⟨l, steps, hs⟩

/-- A step of any thread. -/
theorem Orderly.step (h : Orderly L S x₀ calls s done) (t : ι) :
    ∃ more, Orderly L S x₀ calls (step L S s t) (done ++ more) := by
  unfold Critical.step
  cases hp : s.place t with
  | outside todo =>
    cases todo with
    | nil => exact ⟨[], by simpa using h⟩
    | cons c todo => exact ⟨[], by simpa using h.begin hp⟩
  | waiting c todo =>
    refine ⟨[], ?_⟩
    cases hl : L.held s.lock with
    | true => simpa [L.testAndSet_snd, hl] using h.spin hl
    | false => simpa [L.testAndSet_snd, hl] using h.enter hp hl
  | inside c l todo =>
    cases hs : S.step l s.shared with
    | some r => exact ⟨[], by simpa [hs] using h.proceed hp hs⟩
    | none => exact ⟨[(t, c)], by simpa [hs] using h.leave hp hs⟩

/-- Before the first step. -/
def initial (b : β) (x₀ : σ) (calls : ι → List κ) : System ι κ τ β σ :=
  ⟨b, x₀, fun t => .outside (calls t)⟩

theorem orderly_initial {b : β} (hb : L.held b = false) :
    Orderly L S x₀ calls (initial b x₀ calls) [] :=
  ⟨fun _ => rfl, .free hb (fun _ => id) (.nil x₀)⟩

/-- **Every run is orderly.** -/
theorem run_orderly (h : Orderly L S x₀ calls s done) (ts : List ι) :
    ∃ more, Orderly L S x₀ calls (run L S s ts) (done ++ more) := by
  induction ts generalizing s done with
  | nil => exact ⟨[], by simpa [run] using h⟩
  | cons t ts ih =>
    obtain ⟨more, h'⟩ := h.step t
    obtain ⟨more', h''⟩ := ih h'
    exact ⟨more ++ more', by simpa [run, List.append_assoc] using h''⟩

end Critical
