import DistributedKV.Maxima

/-!
# Reading a stamped history through merged pieces

A history is a list of strata, newest stamp first. A piece is a list of elements that
stands for a stretch of the history : put behind everything from stamp `need` up, it
folds to everything from stamp `lo` up (`Fills`). Pieces are read in some order, and each
one must find the history from its `need` up already read.

`Fills.below` : a piece may be put behind more than it needs. `keepMax_chain` reads a list
of pieces on top of a stretch already read, and `keepMax_pieces` is the whole reading :
pieces in non-increasing order of their tops fold to the history itself, whatever order
pieces of one top have among themselves, when for every piece the strata it needs are
reached by pieces with newer tops.
-/

open Maxima

namespace Strata

variable {α κ : Type*} [Preorder κ] [DecidableLE κ] [DecidableLT κ] (key : α → κ)

/-- Elements that entered the history together, under one stamp. -/
structure Stratum (α : Type*) where
  stamp : Nat
  items : List α

/-- A list standing for a stretch of the history. -/
structure Piece (α : Type*) where
  top : Nat
  need : Nat
  lo : Nat
  items : List α

/-- The elements of the strata from stamp `t` up, newest first. -/
def above (h : List (Stratum α)) (t : Nat) : List α :=
  (h.filter fun s => t ≤ s.stamp).flatMap Stratum.items

/-- The elements of pieces, in order. -/
def items (l : List (Piece α)) : List α :=
  l.flatMap Piece.items

/-- Behind the history from `need` up, the piece folds to the history from `lo` up. -/
def Fills (h : List (Stratum α)) (p : Piece α) : Prop :=
  keepMax key (above h p.need ++ p.items) = keepMax key (above h (min p.need p.lo))

/-- The lowest stamp reached when everything from `m` up and the pieces are read. -/
def reach (m : Nat) (l : List (Piece α)) : Nat :=
  l.foldl (fun m p => min m p.lo) m

variable {key}

theorem reach_cons (m : Nat) (p : Piece α) (l : List (Piece α)) :
    reach m (p :: l) = reach (min m p.lo) l :=
  rfl

theorem reach_le_iff {t : Nat} : ∀ {l : List (Piece α)} {m : Nat},
    reach m l ≤ t ↔ m ≤ t ∨ ∃ p ∈ l, p.lo ≤ t
  | [], m => by simp [reach]
  | p :: l, m => by
    rw [reach_cons, reach_le_iff]
    simp [or_assoc]

theorem mem_above {h : List (Stratum α)} {t : Nat} {x : α} :
    x ∈ above h t ↔ ∃ s ∈ h, t ≤ s.stamp ∧ x ∈ s.items := by
  simp [above, and_assoc]

/-- Only which strata are at or above the stamp matters. -/
theorem above_congr {h : List (Stratum α)} {t u : Nat}
    (heq : ∀ s ∈ h, t ≤ s.stamp ↔ u ≤ s.stamp) : above h t = above h u := by
  have hfilter : (h.filter fun s => t ≤ s.stamp) = h.filter fun s => u ≤ s.stamp :=
    List.filter_congr fun s hs => decide_eq_decide.mpr (heq s hs)
  rw [above, above, hfilter]

/-- In a history in order, what lies from `t` up starts with what lies from `u` up. -/
theorem above_eq_append {h : List (Stratum α)} (hsorted : h.Pairwise fun a b => b.stamp ≤ a.stamp)
    {t u : Nat} (htu : t ≤ u) : ∃ rest, above h t = above h u ++ rest := by
  induction h with
  | nil => exact ⟨[], rfl⟩
  | cons s h ih =>
    obtain ⟨hs, hh⟩ := List.pairwise_cons.mp hsorted
    by_cases hu : u ≤ s.stamp
    · obtain ⟨rest, hrest⟩ := ih hh
      refine ⟨rest, ?_⟩
      simp only [above, List.filter_cons, hu, htu.trans hu, decide_true, if_true,
        List.flatMap_cons, List.append_assoc]
      exact congrArg _ hrest
    · -- everything later is older still, so nothing of the tail is from `u` up
      have hnil : above (s :: h) u = [] := by
        rw [above, List.filter_eq_nil_iff.mpr]
        · rfl
        · intro s' hs'
          rcases List.mem_cons.mp hs' with rfl | hs'
          · simpa using hu
          · have := hs s' hs'
            simp only [decide_eq_true_eq]
            omega
      exact ⟨above (s :: h) t, by rw [hnil, List.nil_append]⟩

/-- A piece may be put behind more of the history than it needs. -/
theorem Fills.below {h : List (Stratum α)} (hsorted : h.Pairwise fun a b => b.stamp ≤ a.stamp)
    {p : Piece α} (hp : Fills key h p) {m : Nat}
    (hm : ∀ s ∈ h, p.need ≤ s.stamp → m ≤ s.stamp) :
    keepMax key (above h m ++ p.items) = keepMax key (above h (min m p.lo)) := by
  unfold Fills at hp
  by_cases hmn : m ≤ p.need
  · by_cases hlo : p.lo ≤ m
    · -- `m` cuts the stretch the piece stands for
      obtain ⟨b, hb⟩ := above_eq_append hsorted hmn
      obtain ⟨c, hc⟩ := above_eq_append hsorted hlo
      rw [min_eq_right (hlo.trans hmn), hc, hb] at hp
      rw [min_eq_right hlo, hc, hb]
      exact keepMax_append_of_eq hp
    · -- the whole stretch is already read
      rw [min_eq_left (by omega)]
      refine keepMax_append_of_covers fun y hy => ?_
      have hcov : Covers key (above h p.need ++ p.items) (key y) :=
        ⟨y, List.mem_append_right _ hy, le_rfl⟩
      rw [← covers_keepMax, hp, covers_keepMax] at hcov
      refine hcov.mono fun z hz => ?_
      obtain ⟨s, hs, hle, hzs⟩ := mem_above.mp hz
      exact mem_above.mpr ⟨s, hs, by omega, hzs⟩
  · -- no stratum lies between, so the piece finds exactly what it needs
    have hsame : ∀ s ∈ h, p.need ≤ s.stamp ↔ m ≤ s.stamp :=
      fun s hs => ⟨hm s hs, fun hle => by omega⟩
    rw [above_congr hsame] at hp
    rw [hp]
    refine congrArg _ (above_congr fun s hs => ?_)
    rw [min_le_iff, min_le_iff, hsame s hs]

/-- Pieces read one after another, each of which finds what it needs. -/
theorem keepMax_chain {h : List (Stratum α)}
    (hsorted : h.Pairwise fun a b => b.stamp ≤ a.stamp) : ∀ {l : List (Piece α)} {m : Nat},
    (∀ p ∈ l, Fills key h p) →
    (∀ a p b, l = a ++ p :: b → ∀ s ∈ h, p.need ≤ s.stamp → reach m a ≤ s.stamp) →
    keepMax key (above h m ++ items l) = keepMax key (above h (reach m l))
  | [], m, _, _ => by simp [items, reach]
  | p :: l, m, hfills, hneed => by
    have hp : keepMax key (above h m ++ p.items) = keepMax key (above h (min m p.lo)) :=
      (hfills p List.mem_cons_self).below hsorted (hneed [] p l rfl)
    have hrest := keepMax_chain hsorted (m := min m p.lo)
      (fun q hq => hfills q (List.mem_cons_of_mem _ hq))
      (fun a q b hl => hneed (p :: a) q b (by rw [hl, List.cons_append]))
    calc keepMax key (above h m ++ items (p :: l))
        = keepMax key (above h m ++ p.items ++ items l) := by
          rw [List.append_assoc]
          rfl
      _ = keepMax key (above h (min m p.lo) ++ items l) := keepMax_append_congr hp rfl
      _ = keepMax key (above h (reach m (p :: l))) := hrest

/-- Every piece finds what it needs among pieces with newer tops, and some piece reaches
every stratum. -/
structure Supported (h : List (Stratum α)) (pieces : Set (Piece α)) : Prop where
  needs : ∀ p ∈ pieces, ∀ s ∈ h, p.need ≤ s.stamp → ∃ q ∈ pieces, p.top < q.top ∧ q.lo ≤ s.stamp
  total : ∀ s ∈ h, ∃ q ∈ pieces, q.lo ≤ s.stamp

/-- In a list in non-increasing order, what is larger stands further in front. -/
theorem mem_front_of_lt {β : Type*} {f : β → Nat} {l : List β}
    (hl : l.Pairwise fun p q => f q ≤ f p) {a b : List β} {p q : β} (hsplit : l = a ++ p :: b)
    (hq : q ∈ l) (hlt : f p < f q) : q ∈ a := by
  subst hsplit
  rcases List.mem_append.mp hq with hq | hq
  · exact hq
  · rcases List.mem_cons.mp hq with rfl | hq
    · exact absurd hlt (lt_irrefl _)
    · have := (List.pairwise_cons.mp (List.pairwise_append.mp hl).2.1).1 q hq
      omega

/-- A list in non-increasing order down to `n` is what lies above `n`, then what is `n`. -/
theorem filter_lt_append_filter_eq {β : Type*} {f : β → Nat} {n : Nat} : ∀ {l : List β},
    l.Pairwise (fun p q => f q ≤ f p) → (∀ p ∈ l, n ≤ f p) →
      l.filter (fun p => n < f p) ++ l.filter (fun p => f p = n) = l
  | [], _, _ => rfl
  | p :: l, hl, hn => by
    obtain ⟨hp, hl⟩ := List.pairwise_cons.mp hl
    have ih := filter_lt_append_filter_eq hl fun q hq => hn q (List.mem_cons_of_mem _ hq)
    rcases Nat.lt_or_ge n (f p) with hlt | hge
    · have hne : ¬f p = n := by omega
      rw [List.filter_cons_of_pos (by simpa using hlt), List.filter_cons_of_neg (by simpa using hne),
        List.cons_append, ih]
    · -- from here on everything is `n`
      have heq : ∀ q ∈ p :: l, f q = n := by
        intro q hq
        have := hn q hq
        rcases List.mem_cons.mp hq with rfl | hq
        · omega
        · have := hp q hq
          omega
      have hnone : (p :: l).filter (fun q => n < f q) = [] :=
        List.filter_eq_nil_iff.mpr fun q hq => by simp [heq q hq]
      rw [hnone, List.nil_append, List.filter_eq_self.mpr fun q hq => by simp [heq q hq]]

/-- Supported pieces in order of their tops read as the whole history. -/
theorem keepMax_pieces {h : List (Stratum α)}
    (hsorted : h.Pairwise fun a b => b.stamp ≤ a.stamp) {l : List (Piece α)}
    (hl : l.Pairwise fun p q => q.top ≤ p.top) (hfills : ∀ p ∈ l, Fills key h p)
    (hsup : Supported h {p | p ∈ l}) :
    keepMax key (items l) = keepMax key (above h 0) := by
  -- a stamp above the whole history : nothing is read yet
  obtain ⟨m, hm⟩ : ∃ m, ∀ s ∈ h, s.stamp < m := by
    refine ⟨(h.map Stratum.stamp).sum + 1, fun s hs => ?_⟩
    have := List.single_le_sum (fun _ _ => Nat.zero_le _) _ (List.mem_map_of_mem (f := Stratum.stamp) hs)
    omega
  have hnil : above h m = [] := by
    rw [List.eq_nil_iff_forall_not_mem]
    intro x hx
    obtain ⟨s, hs, hle, -⟩ := mem_above.mp hx
    have := hm s hs
    omega
  have hchain := keepMax_chain (m := m) hsorted hfills fun a p b hsplit s hs hneed => by
    obtain ⟨q, hq, htop, hlo⟩ := hsup.needs p (by simp [hsplit]) s hs hneed
    exact reach_le_iff.mpr (Or.inr ⟨q, mem_front_of_lt hl hsplit hq htop, hlo⟩)
  rw [hnil, List.nil_append] at hchain
  rw [hchain]
  refine congrArg _ (above_congr fun s hs => ⟨fun _ => Nat.zero_le _, fun _ => ?_⟩)
  obtain ⟨q, hq, hlo⟩ := hsup.total s hs
  exact reach_le_iff.mpr (Or.inr ⟨q, hq, hlo⟩)

/-! ## How pieces come about -/

theorem above_cons {h : List (Stratum α)} {s : Stratum α} {t : Nat} (ht : t ≤ s.stamp) :
    above (s :: h) t = s.items ++ above h t := by
  simp [above, ht]

/-- A piece stays good when the history grows at its new end. -/
theorem Fills.newer {h : List (Stratum α)} {p : Piece α} (hp : Fills key h p) {s : Stratum α}
    (hs : p.need ≤ s.stamp) : Fills key (s :: h) p := by
  unfold Fills
  rw [above_cons hs, above_cons ((min_le_left _ _).trans hs), List.append_assoc]
  exact keepMax_append_congr rfl hp

/-- A new stratum is a piece of its own. -/
theorem fills_new {h : List (Stratum α)} {s : Stratum α} (hs : ∀ s' ∈ h, s'.stamp < s.stamp) :
    Fills key (s :: h) ⟨s.stamp, s.stamp + 1, s.stamp, s.items⟩ := by
  have habove : ∀ t, s.stamp ≤ t → above h t = [] := by
    intro t ht
    rw [List.eq_nil_iff_forall_not_mem]
    intro x hx
    obtain ⟨s', hs', hle, -⟩ := mem_above.mp hx
    have := hs s' hs'
    omega
  have hnone : above (s :: h) (s.stamp + 1) = [] := by
    have := habove (s.stamp + 1) (by omega)
    simpa [above] using this
  unfold Fills
  simp only
  rw [hnone, min_eq_right (by omega), above_cons le_rfl, habove s.stamp le_rfl]
  simp

/-- The fold of pieces read one after another is a piece, also without a front part whose
elements it already has. -/
theorem fills_merge {h : List (Stratum α)} (hsorted : h.Pairwise fun a b => b.stamp ≤ a.stamp)
    {front run : List (Piece α)} {m top : Nat} (hfills : ∀ p ∈ front ++ run, Fills key h p)
    (hneed : ∀ a p b, front ++ run = a ++ p :: b →
      ∀ s ∈ h, p.need ≤ s.stamp → reach m a ≤ s.stamp)
    (hfront : keepMax key (items front ++ items run) = keepMax key (items run)) :
    Fills key h ⟨top, m, reach m (front ++ run), keepMax key (items run)⟩ := by
  have hreach : reach m (front ++ run) ≤ m := reach_le_iff.mpr (Or.inl le_rfl)
  have hchain := keepMax_chain hsorted hfills hneed
  unfold Fills
  simp only
  rw [min_eq_right hreach, ← hchain, keepMax_append_keepMax]
  refine keepMax_append_congr rfl ?_
  rw [← hfront]
  simp [items]

end Strata
