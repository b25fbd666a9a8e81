import TitanOS.Lib.Acyclic

/-!
# Links along which a key does not decrease

In a store that holds many sorted lists, which may run into each other, being sorted is a property
of the links, and not of one list: `Ascending next key L` says that the links of the nodes in `L`
stay in `L`, end, and lead to a key that is at least as great.  Every list from a node in `L` is
then sorted (`Ascending.sorted`).  Linking a new node in front, relinking a node, unlinking and
inserting keep the property.
-/

namespace Linked

variable {α β : Type*} [Preorder β]

/-- The lists from the nodes in `L` end, and the key does not decrease along a link. -/
structure Ascending (next : α → Option α) (key : α → β) (L : α → Prop) : Prop where
  ends : ∀ a, L a → Ends next (some a)
  link : ∀ a b, L a → next a = some b → L b ∧ key a ≤ key b

variable {next : α → Option α} {key key' : α → β} {L : α → Prop} {a c d n : α} {l : List α}
  {q : Option α}

/-- A list from a node in `L` consists of nodes in `L`, and is sorted. -/
theorem Ascending.sorted (h : Ascending next key L) (ha : L a) (hl : Path next (some a) l) :
    (∀ c ∈ l, L c) ∧ l.Pairwise fun c d => key c ≤ key d := by
  induction l generalizing a with
  | nil => exact ⟨by simp, List.Pairwise.nil⟩
  | cons b l ih =>
    obtain ⟨hb, hl⟩ := hl
    rw [Option.some.injEq] at hb
    subst hb
    cases hnext : next a with
    | none =>
      rw [hnext] at hl
      rw [path_none.1 hl]
      exact ⟨by simpa using ha, List.pairwise_singleton _ _⟩
    | some e =>
      obtain ⟨he, hae⟩ := h.link a e ha hnext
      rw [hnext] at hl
      obtain ⟨hmem, hsorted⟩ := ih he hl
      obtain ⟨r, rfl, -⟩ := path_some.1 hl
      refine ⟨fun c hc => ?_, List.pairwise_cons.2 ⟨fun c hc => ?_, hsorted⟩⟩
      · rcases List.mem_cons.1 hc with rfl | hc
        · exact ha
        · exact hmem c hc
      · rcases List.mem_cons.1 hc with rfl | hc
        · exact hae
        · exact hae.trans ((List.pairwise_cons.1 hsorted).1 c hc)

theorem Ascending.ends_link (h : Ascending next key L) (ha : L a) : Ends next (next a) := by
  obtain ⟨l, hl⟩ := h.ends a ha
  obtain ⟨r, -, hr⟩ := path_some.1 hl
  exact ⟨r, hr⟩

/-- A node in `L` is not on the list behind it. -/
theorem Ascending.not_onPath_link (h : Ascending next key L) (ha : L a) :
    ¬ OnPath next (next a) a := by
  obtain ⟨l, hl⟩ := h.ends a ha
  obtain ⟨r, rfl, hr⟩ := path_some.1 hl
  rintro ⟨r', hr', hmem⟩
  rw [hr'.unique hr] at hmem
  exact (List.nodup_cons.1 hl.nodup).1 hmem

/-- The keys of other nodes do not matter. -/
theorem Ascending.congr_key (h : Ascending next key L) (hkey : ∀ a, L a → key' a = key a) :
    Ascending next key' L := by
  refine ⟨h.ends, fun a b ha hab => ?_⟩
  obtain ⟨hb, hle⟩ := h.link a b ha hab
  rw [hkey a ha, hkey b hb]
  exact ⟨hb, hle⟩

variable [DecidableEq α]

/-- A new node is linked in front of a list. -/
theorem Ascending.front (h : Ascending next key L) (hn : ¬ L n)
    (hq : ∀ d ∈ q, L d ∧ key n ≤ key d) :
    Ascending (Function.update next n q) key fun a => L a ∨ a = n := by
  have hkept : ∀ a l, L a → Path next (some a) l → Path (Function.update next n q) (some a) l :=
    fun a l ha hl => hl.update_of_notMem fun hmem => hn ((h.sorted ha hl).1 n hmem)
  refine ⟨?_, ?_⟩
  · rintro a (ha | rfl)
    · obtain ⟨l, hl⟩ := h.ends a ha
      exact ⟨l, hkept a l ha hl⟩
    · cases q with
      | none => exact ⟨[a], rfl, Function.update_self _ _ _⟩
      | some d =>
        obtain ⟨l, hl⟩ := h.ends d (hq d rfl).1
        refine ⟨a :: l, rfl, ?_⟩
        rw [Function.update_self]
        exact hkept d l (hq d rfl).1 hl
  · rintro a b (ha | rfl) hab
    · have hne : a ≠ n := by
        rintro rfl
        exact hn ha
      rw [Function.update_of_ne hne] at hab
      obtain ⟨hb, hle⟩ := h.link a b ha hab
      exact ⟨Or.inl hb, hle⟩
    · rw [Function.update_self] at hab
      obtain ⟨hb, hle⟩ := hq b hab
      exact ⟨Or.inl hb, hle⟩

/-- The link of `c` is redirected to a list that does not pass through `c`. -/
theorem Ascending.relink (h : Ascending next key L) (hends : Ends next q)
    (hq : ∀ d ∈ q, L d ∧ key c ≤ key d) (hout : ¬ OnPath next q c) :
    Ascending (Function.update next c q) key L := by
  refine ⟨fun a ha => ?_, fun a b ha hab => ?_⟩
  · obtain ⟨l, hl⟩ := h.ends a ha
    obtain ⟨r, hr⟩ := hends
    by_cases hc : c ∈ l
    · obtain ⟨l₁, l₂, rfl⟩ := List.append_of_mem hc
      exact ⟨_, hl.splice hr fun hcr => hout ⟨r, hr, hcr⟩⟩
    · exact ⟨l, hl.update_of_notMem hc⟩
  · by_cases hac : a = c
    · subst hac
      rw [Function.update_self] at hab
      exact hq b hab
    · rw [Function.update_of_ne hac] at hab
      exact h.link a b ha hab

/-- The successor of `c` is unlinked. -/
theorem Ascending.unlink (h : Ascending next key L) (hc : L c) (hd : next c = some d) :
    Ascending (Function.update next c (next d)) key L := by
  obtain ⟨hLd, hcd⟩ := h.link c d hc hd
  refine h.relink (h.ends_link hLd) (fun e he => ?_) ?_
  · obtain ⟨hLe, hde⟩ := h.link d e hLd he
    exact ⟨hLe, hcd.trans hde⟩
  · rintro ⟨r, hr, hmem⟩
    refine h.not_onPath_link hc ⟨d :: r, ?_, List.mem_cons_of_mem d hmem⟩
    rw [hd]
    exact ⟨rfl, hr⟩

/-- A new node is inserted behind `c`. -/
theorem Ascending.insert (h : Ascending next key L) (hc : L c) (hn : ¬ L n)
    (hlo : key c ≤ key n) (hhi : ∀ d, next c = some d → key n ≤ key d) :
    Ascending (Function.update (Function.update next n (next c)) c (some n)) key
      fun a => L a ∨ a = n := by
  have hfront := h.front hn (q := next c) fun d hd => ⟨(h.link c d hc hd).1, hhi d hd⟩
  refine hfront.relink (hfront.ends n (Or.inr rfl)) ?_ ?_
  · rintro d hd
    obtain rfl := Option.some.inj hd
    exact ⟨Or.inr rfl, hlo⟩
  · -- the list from the new node is the one behind `c`
    rintro ⟨r, hr, hmem⟩
    have hne : c ≠ n := by
      rintro rfl
      exact hn hc
    obtain ⟨l, hl⟩ := h.ends_link hc
    have hnl : n ∉ l := by
      intro hmem
      cases hnext : next c with
      | none =>
        rw [hnext] at hl
        rw [path_none.1 hl] at hmem
        simp at hmem
      | some d =>
        rw [hnext] at hl
        exact hn ((h.sorted (h.link c d hc hnext).1 hl).1 n hmem)
    have hpath : Path (Function.update next n (next c)) (some n) (n :: l) := by
      refine ⟨rfl, ?_⟩
      rw [Function.update_self]
      exact hl.update_of_notMem hnl
    rw [hr.unique hpath] at hmem
    exact h.not_onPath_link hc ⟨l, hl, (List.mem_cons.1 hmem).resolve_left hne⟩

end Linked
