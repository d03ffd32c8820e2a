import Mathlib

/-!
# Clocks that count events

Events of several processes, each with the indices of the events it knows of (`past`) and a
clock that counts events process by process. A new event is built on some events : its past
is everything they know of, its clock the entrywise maximum of theirs with its own process's
entry one higher.

If the process's own earlier events are among what it is built on, `Sound.concat` keeps one
fact : an event's own counter is at most another one's entry for its process exactly when the
other one sees it. Then the order of the clocks is the order of the pasts (`Sound.le_iff`).
-/

set_option linter.unusedSectionVars false

namespace HappenedBefore

variable {ι : Type*} [DecidableEq ι]

/-- Who did it, its clock, and the indices of the events before it. -/
structure Occurrence (ι : Type*) where
  proc : ι
  clock : ι → ℕ
  past : Set ℕ

/-- The number of an event among those of its process. -/
def Occurrence.seq (e : Occurrence ι) : ℕ :=
  e.clock e.proc

/-- The event at `j` is the one at `i`, or knows of it. -/
def Sees (log : List (Occurrence ι)) (j i : ℕ) : Prop :=
  ∃ e, log[j]? = some e ∧ (i = j ∨ i ∈ e.past)

/-- What some events see together. -/
def reach (log : List (Occurrence ι)) (s : Set ℕ) : Set ℕ :=
  {i | ∃ x ∈ s, Sees log x i}

/-- Pasts lie before their events and are closed, clocks have only counters of events, and a
counter is reached exactly by the events that see it. -/
structure Sound (log : List (Occurrence ι)) : Prop where
  earlier : ∀ (j : ℕ) (e : Occurrence ι), log[j]? = some e → ∀ i ∈ e.past, i < j
  closed : ∀ (j : ℕ) (e : Occurrence ι), log[j]? = some e → ∀ i ∈ e.past, ∀ k, Sees log i k →
    k ∈ e.past
  counted : ∀ (i : ℕ) (e : Occurrence ι) (j : ℕ) (f : Occurrence ι), log[i]? = some e →
    log[j]? = some f → (e.seq ≤ f.clock e.proc ↔ Sees log j i)
  attained : ∀ f ∈ log, ∀ p, f.clock p ≠ 0 → ∃ e ∈ log, e.proc = p ∧ e.seq = f.clock p
  positive : ∀ e ∈ log, 0 < e.seq

variable {log : List (Occurrence ι)} {i j k : ℕ} {e f : Occurrence ι}

theorem sound_nil : Sound ([] : List (Occurrence ι)) :=
  ⟨by simp, by simp, by simp, by simp, by simp⟩

namespace Sound

theorem sees_le (h : Sound log) (hs : Sees log j i) : i ≤ j := by
  obtain ⟨e, he, rfl | hpast⟩ := hs
  · exact le_rfl
  · exact (h.earlier j e he i hpast).le

theorem sees_trans (h : Sound log) (hkj : Sees log k j) (hji : Sees log j i) : Sees log k i := by
  obtain ⟨e, he, rfl | hpast⟩ := hkj
  · exact hji
  · exact ⟨e, he, Or.inr (h.closed k e he j hpast i hji)⟩

/-- What is known of is there. -/
theorem sees_some (h : Sound log) (hs : Sees log j i) : ∃ e, log[i]? = some e := by
  obtain ⟨f, hf, -⟩ := id hs
  have hlt : i < log.length :=
    lt_of_le_of_lt (h.sees_le hs) (List.getElem?_eq_some_iff.mp hf).1
  exact ⟨_, List.getElem?_eq_getElem hlt⟩

/-- Clocks are ordered as the events are. -/
theorem le_iff (h : Sound log) (hi : log[i]? = some e) (hj : log[j]? = some f) :
    (∀ p, e.clock p ≤ f.clock p) ↔ Sees log j i := by
  constructor
  · intro hle
    exact (h.counted i e j f hi hj).mp (hle e.proc)
  · intro hs p
    by_cases hzero : e.clock p = 0
    · rw [hzero]
      exact Nat.zero_le _
    -- the counter belongs to an event that `e` sees, and so does `f`
    obtain ⟨g, hg, rfl, hseq⟩ := h.attained e (List.mem_of_getElem? hi) p hzero
    obtain ⟨k, hk⟩ := List.mem_iff_getElem?.mp hg
    have hsees : Sees log i k := (h.counted k g i e hk hi).mp hseq.le
    rw [← hseq]
    exact (h.counted k g j f hk hj).mpr (h.sees_trans hs hsees)

section Concat

variable {s : Set ℕ} {base clock : ι → ℕ} {q : ι}

theorem seq_le_base (h : Sound log)
    (hle : ∀ x ∈ s, ∀ g : Occurrence ι, log[x]? = some g → ∀ p, g.clock p ≤ base p)
    (hi : log[i]? = some e) (hreach : i ∈ reach log s) : e.seq ≤ base e.proc := by
  obtain ⟨x, hx, hsees⟩ := hreach
  obtain ⟨g, hg, -⟩ := id hsees
  exact ((h.counted i e x g hi hg).mpr hsees).trans (hle x hx g hg e.proc)

/-- An event is below the base exactly when one the base is made of sees it. -/
theorem seq_le_base_iff (h : Sound log)
    (hle : ∀ x ∈ s, ∀ g : Occurrence ι, log[x]? = some g → ∀ p, g.clock p ≤ base p)
    (hbase : ∀ p, base p ≠ 0 → ∃ x ∈ s, ∃ g : Occurrence ι, log[x]? = some g ∧ g.clock p = base p)
    (hi : log[i]? = some e) : e.seq ≤ base e.proc ↔ i ∈ reach log s := by
  refine ⟨fun hseq => ?_, h.seq_le_base hle hi⟩
  have hpos := h.positive e (List.mem_of_getElem? hi)
  obtain ⟨x, hx, g, hg, heq⟩ := hbase e.proc (by omega)
  exact ⟨x, hx, (h.counted i e x g hi hg).mp (by omega)⟩

theorem sees_concat {new : Occurrence ι} (hj : j < log.length) :
    Sees (log ++ [new]) j i ↔ Sees log j i := by
  unfold Sees
  rw [List.getElem?_append_left hj]

theorem sees_last {new : Occurrence ι} :
    Sees (log ++ [new]) log.length i ↔ i = log.length ∨ i ∈ new.past := by
  simp [Sees]

/-- An event of a process that is built on all earlier ones of the process. -/
theorem concat (h : Sound log) (s : Set ℕ) (base clock : ι → ℕ) (q : ι)
    (hs : ∀ x ∈ s, x < log.length)
    (hle : ∀ x ∈ s, ∀ g : Occurrence ι, log[x]? = some g → ∀ p, g.clock p ≤ base p)
    (hbase : ∀ p, base p ≠ 0 → ∃ x ∈ s, ∃ g : Occurrence ι, log[x]? = some g ∧ g.clock p = base p)
    (hown : ∀ (i : ℕ) (e : Occurrence ι), log[i]? = some e → e.proc = q → i ∈ reach log s)
    (hclock : ∀ p, clock p = if p = q then base q + 1 else base p) :
    Sound (log ++ [⟨q, clock, reach log s⟩]) := by
  have hlast : ∀ {i : ℕ} {e : Occurrence ι}, (log ++ [⟨q, clock, reach log s⟩])[i]? = some e →
      (i < log.length ∧ log[i]? = some e) ∨ i = log.length ∧ e = ⟨q, clock, reach log s⟩ := by
    intro i e hi
    by_cases hlt : i < log.length
    · rw [List.getElem?_append_left hlt] at hi
      exact Or.inl ⟨hlt, hi⟩
    · obtain ⟨hlen, -⟩ := List.getElem?_eq_some_iff.mp hi
      obtain rfl : i = log.length := by
        rw [List.length_append, List.length_singleton] at hlen
        omega
      exact Or.inr ⟨rfl, by simpa using hi.symm⟩
  have hreach : ∀ i ∈ reach log s, i < log.length := by
    rintro i ⟨x, hx, hsees⟩
    exact lt_of_le_of_lt (h.sees_le hsees) (hs x hx)
  have hself : clock q = base q + 1 := by rw [hclock, if_pos rfl]
  refine ⟨?_, ?_, ?_, ?_, ?_⟩
  · intro j e hj i hi
    rcases hlast hj with ⟨-, hj⟩ | ⟨rfl, rfl⟩
    · exact h.earlier j e hj i hi
    · exact hreach i hi
  · intro j e hj i hi k hsees
    rcases hlast hj with ⟨hlt, hj⟩ | ⟨rfl, rfl⟩
    · have hlti := h.earlier j e hj i hi
      exact h.closed j e hj i hi k ((sees_concat (hlti.trans hlt)).mp hsees)
    · obtain ⟨x, hx, hxi⟩ := id hi
      exact ⟨x, hx, h.sees_trans hxi ((sees_concat (hreach i hi)).mp hsees)⟩
  · intro i e j f hi hj
    rcases hlast hi with ⟨hilt, hi⟩ | ⟨rfl, rfl⟩ <;> rcases hlast hj with ⟨hjlt, hj⟩ | ⟨rfl, rfl⟩
    · rw [sees_concat hjlt]
      exact h.counted i e j f hi hj
    · rw [sees_last, or_iff_right hilt.ne, ← h.seq_le_base_iff hle hbase hi]
      change e.seq ≤ clock e.proc ↔ _
      rw [hclock]
      split
      · next hq =>
        have := h.seq_le_base hle hi (hown i e hi hq)
        rw [hq] at this ⊢
        omega
      · rfl
    · -- no earlier event has the new counter
      rw [sees_concat hjlt]
      refine ⟨fun hseq => ?_, fun hsees => absurd (h.sees_le hsees) (by omega)⟩
      have hseq : base q + 1 ≤ f.clock q := hself ▸ hseq
      obtain ⟨g, hg, hproc, hgseq⟩ := h.attained f (List.mem_of_getElem? hj) q (by omega)
      obtain ⟨k, hk⟩ := List.mem_iff_getElem?.mp hg
      have := h.seq_le_base hle hk (hown k g hk hproc)
      rw [hproc] at this
      omega
    · rw [sees_last]
      exact ⟨fun _ => Or.inl rfl, fun _ => le_rfl⟩
  · intro f hf p hp
    rcases List.mem_append.mp hf with hf | hf
    · obtain ⟨e, he, heq⟩ := h.attained f hf p hp
      exact ⟨e, List.mem_append_left _ he, heq⟩
    · obtain rfl := List.mem_singleton.mp hf
      by_cases hpq : p = q
      · exact ⟨⟨q, clock, reach log s⟩, List.mem_append_right _ hf, hpq.symm,
          congrArg clock hpq.symm⟩
      · change clock p ≠ 0 at hp
        rw [hclock, if_neg hpq] at hp
        obtain ⟨x, hx, g, hg, hgp⟩ := hbase p hp
        obtain ⟨e, he, heq, hseq⟩ := h.attained g (List.mem_of_getElem? hg) p (by omega)
        refine ⟨e, List.mem_append_left _ he, heq, ?_⟩
        change e.seq = clock p
        rw [hseq, hgp, hclock, if_neg hpq]
  · intro e he
    rcases List.mem_append.mp he with he | he
    · exact h.positive e he
    · obtain rfl := List.mem_singleton.mp he
      change 0 < clock q
      omega

end Concat

end Sound

end HappenedBefore
