import Mathlib

/-!
# Going round, and the first distinct elements

A list read from some index on and round to the index again is its rotation
(`map_range_rotate`). What is met first is `List.eraseDups`, which keeps the first of equal
elements : it has no element twice (`nodup_eraseDups`), and leaving elements out before or
after makes no difference (`eraseDups_filter`).

`take_filter_ne` is about the first `n` of such a list with one element left out : those
that were there stay in their order, and at most one more comes in at the end.
-/

namespace Circle

variable {α : Type*}

theorem map_range_rotate (l : List α) (d : α) (index : Nat) :
    (List.range l.length).map (fun i => l.getD ((index + i) % l.length) d) = l.rotate index := by
  refine List.ext_getElem (by simp) fun i hi hi' => ?_
  have hlen : i < l.length := by simpa using hi
  have hmod : (index + i) % l.length < l.length := Nat.mod_lt _ (by omega)
  rw [List.getElem_map, List.getElem_range, List.getD_eq_getElem _ _ hmod, List.getElem_rotate]
  congr 2
  omega

variable [DecidableEq α]

theorem nodup_eraseDups : ∀ l : List α, l.eraseDups.Nodup
  | [] => by simp
  | a :: l => by
    rw [List.eraseDups_cons, List.nodup_cons]
    exact ⟨by simp, nodup_eraseDups _⟩
termination_by l => l.length
decreasing_by exact Nat.lt_succ_of_le (List.length_filter_le ..)

theorem eraseDups_filter (p : α → Bool) : ∀ l : List α,
    (l.filter p).eraseDups = l.eraseDups.filter p
  | [] => by simp
  | a :: l => by
    have ih := eraseDups_filter p (l.filter fun b => !b == a)
    rw [List.filter_comm] at ih
    by_cases hp : p a = true
    · rw [List.filter_cons_of_pos hp, List.eraseDups_cons, List.eraseDups_cons,
        List.filter_cons_of_pos hp, ih]
    · rw [List.filter_cons_of_neg hp, List.eraseDups_cons, List.filter_cons_of_neg hp, ← ih]
      -- the element that is left out was no candidate anyway
      congr 1
      refine (List.filter_eq_self.mpr fun b hb => ?_).symm
      have hb := (List.mem_filter.mp hb).2
      have : b ≠ a := fun he => hp (he ▸ hb)
      simpa using this
termination_by l => l.length
decreasing_by exact Nat.lt_succ_of_le (List.length_filter_le ..)

/-- The first `n` with one element left out : at most one more comes in. -/
theorem take_filter_ne {l : List α} (hnd : l.Nodup) (x : α) (n : Nat) :
    ∃ extra : List α, extra.length ≤ 1 ∧ (∀ a ∈ extra, a ∈ l ∧ a ≠ x) ∧
      (l.filter (· ≠ x)).take n = (l.take n).filter (· ≠ x) ++ extra := by
  refine ⟨((l.drop n).filter (· ≠ x)).take (n - ((l.take n).filter (· ≠ x)).length), ?_, ?_, ?_⟩
  · rcases Nat.lt_or_ge n l.length with hlt | hge
    · -- the first `n` are `n`, and `x` is at most one of them
      have hlen : ((l.take n).erase x).length + 1 ≥ n := by
        have := List.length_take_of_le hlt.le
        rw [List.length_erase]
        split <;> omega
      rw [(hnd.sublist (List.take_sublist n l)).erase_eq_filter] at hlen
      have hcongr : (l.take n).filter (fun a => a != x) = (l.take n).filter (· ≠ x) :=
        List.filter_congr fun a _ => by rw [bne, beq_eq_decide, decide_not]
      rw [hcongr] at hlen
      exact (List.length_take_le _ _).trans (by omega)
    · rw [List.drop_of_length_le hge]
      simp
  · intro a ha
    have ha := List.mem_filter.mp (List.mem_of_mem_take ha)
    exact ⟨List.mem_of_mem_drop ha.1, by simpa using ha.2⟩
  · have hle : ((l.take n).filter (· ≠ x)).length ≤ n :=
      (List.length_filter_le ..).trans (List.length_take_le n l)
    conv_lhs => rw [← List.take_append_drop n l, List.filter_append]
    rw [List.take_append, List.take_of_length_le hle]

end Circle
