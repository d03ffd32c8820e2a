import Mathlib

/-!
# Binary search

Go's `sort.Search` : the least index at which a test holds, for a test that, once it holds,
holds from there on (`least_search`). The loop keeps an interval before which the test fails
and behind which it holds.

In a sorted list the search finds where the elements that pass begin (`filter_search`).
-/

namespace Search

/-- The loop of `sort.Search`. Every round shortens the interval, so its length is enough
fuel. -/
def loop (f : Nat → Bool) : Nat → Nat → Nat → Nat
  | 0, i, _ => i
  | fuel + 1, i, j =>
    if i < j then
      let h := (i + j) / 2
      if f h then loop f fuel i h else loop f fuel (h + 1) j
    else i

def search (n : Nat) (f : Nat → Bool) : Nat :=
  loop f n 0 n

/-- The test changes once, at `i` : among the indices below `n` it fails before and holds
from there on. -/
structure Least (n : Nat) (f : Nat → Bool) (i : Nat) : Prop where
  le : i ≤ n
  before : ∀ k < i, f k = false
  from_on : ∀ k, i ≤ k → k < n → f k = true

variable {n : Nat} {f : Nat → Bool}

theorem least_loop (hmono : ∀ i j, i ≤ j → j < n → f i = true → f j = true) :
    ∀ (fuel i j : Nat), j - i ≤ fuel → i ≤ j → j ≤ n → (∀ k < i, f k = false) →
      (∀ k, j ≤ k → k < n → f k = true) → Least n f (loop f fuel i j)
  | 0, i, j, hfuel, hij, hjn, hlow, hhigh => by
    obtain rfl : i = j := by omega
    exact ⟨hjn, hlow, hhigh⟩
  | fuel + 1, i, j, hfuel, hij, hjn, hlow, hhigh => by
    rw [loop]
    split
    · next hlt =>
      dsimp only
      split
      · next hmid =>
        refine least_loop hmono fuel i _ (by omega) (by omega) (by omega) hlow fun k hk hkn => ?_
        exact hmono _ k hk hkn hmid
      · next hmid =>
        refine least_loop hmono fuel _ j (by omega) (by omega) hjn (fun k hk => ?_) hhigh
        -- a test that held before the middle would hold in the middle
        by_contra hheld
        exact hmid (hmono k _ (by omega) (by omega) (by simpa using hheld))
    · obtain rfl : i = j := by omega
      exact ⟨hjn, hlow, hhigh⟩

theorem least_search (hmono : ∀ i j, i ≤ j → j < n → f i = true → f j = true) :
    Least n f (search n f) :=
  least_loop hmono n 0 n (by omega) (by omega) le_rfl (by simp) fun k hk hkn => by omega

/-! ## Lists split by a test -/

variable {α : Type*} {l : List α} {p : α → Bool}

theorem filter_of_least {i : Nat} (hlow : ∀ a ∈ l.take i, p a = false)
    (hhigh : ∀ a ∈ l.drop i, p a = true) :
    l.filter p = l.drop i ∧ l.filter (fun a => !p a) = l.take i := by
  have hsplit := List.take_append_drop i l
  constructor
  · rw [← hsplit, List.filter_append, hsplit,
      List.filter_eq_nil_iff.mpr fun a ha => by simp [hlow a ha],
      List.filter_eq_self.mpr hhigh, List.nil_append]
  · rw [← hsplit, List.filter_append, hsplit,
      List.filter_eq_self.mpr fun a ha => by simp [hlow a ha],
      List.filter_eq_nil_iff.mpr fun a ha => by simp [hhigh a ha], List.append_nil]

/-- In a list where whatever follows an element that passes also passes, the search finds
the first that passes. -/
theorem filter_search (d : α) (hmono : l.Pairwise fun a b => p a = true → p b = true) :
    l.filter p = l.drop (search l.length fun i => p (l.getD i d)) ∧
      l.filter (fun a => !p a) = l.take (search l.length fun i => p (l.getD i d)) := by
  have hget : ∀ {i : Nat} (hi : i < l.length), l.getD i d = l[i] := fun hi => by
    rw [List.getD_eq_getElem?_getD, List.getElem?_eq_getElem hi, Option.getD_some]
  have hleast : Least l.length (fun i => p (l.getD i d))
      (search l.length fun i => p (l.getD i d)) := by
    refine least_search fun i j hij hj hp => ?_
    rcases Nat.eq_or_lt_of_le hij with rfl | hlt
    · exact hp
    · rw [hget hj]
      rw [hget (hlt.trans hj)] at hp
      exact List.pairwise_iff_getElem.mp hmono i j _ hj hlt hp
  refine filter_of_least (fun a ha => ?_) fun a ha => ?_
  · obtain ⟨k, hk, rfl⟩ := List.mem_iff_getElem.mp ha
    have hk := List.length_take ▸ hk
    have := hleast.before k (by omega)
    rw [hget (by omega)] at this
    rwa [List.getElem_take]
  · obtain ⟨k, hk, rfl⟩ := List.mem_iff_getElem.mp ha
    have hk := List.length_drop ▸ hk
    have := hleast.from_on _ (Nat.le_add_right _ k) (by omega)
    rw [hget (by omega)] at this
    rwa [List.getElem_drop]

end Search
