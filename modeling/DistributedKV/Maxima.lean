import Mathlib

/-!
# Folding a list into its maximal elements

Elements are compared through a key in a preorder. `insertMax` adds one element to a
list : what it strictly dominates is dropped, and the element itself is appended unless
something already there covers it. `keepMax` folds a whole list this way, so of several
elements with equivalent keys the first one stays.

The laws the rest of the development uses are that what the list already covers changes
nothing (`keepMax_append_of_covers`), that a part of the list may be folded first
(`keepMax_append_keepMax`, `keepMax_keepMax_append`), and that a list which completes `a`
to `a ++ b ++ c` still does so behind `a ++ b` (`keepMax_append_of_eq`).
`mem_keepMax_iff_split` says which elements survive, and `keepMax_eq_firstMaxima` gives the
whole list.
-/

set_option linter.unusedSectionVars false

namespace Maxima

variable {α κ : Type*} [Preorder κ] [DecidableLE κ] [DecidableLT κ] (key : α → κ)

/-- Add `x` to `l` : drop what `x` strictly dominates, append `x` unless covered. -/
def insertMax (l : List α) (x : α) : List α :=
  let kept := l.filter fun y => ¬key y < key x
  if l.any fun y => key x ≤ key y then kept else kept ++ [x]

/-- Fold a list with `insertMax`, oldest element first. -/
def keepMax (l : List α) : List α :=
  l.foldl (insertMax key) []

/-- Some element of `l` has a key at or above `c`. -/
def Covers (l : List α) (c : κ) : Prop :=
  ∃ y ∈ l, c ≤ key y

instance (l : List α) (c : κ) : Decidable (Covers key l c) :=
  inferInstanceAs (Decidable (∃ y ∈ l, c ≤ key y))

/-- No element strictly dominates another or repeats its key. -/
def Antichain (l : List α) : Prop :=
  l.Pairwise fun x y => ¬key x ≤ key y ∧ ¬key y ≤ key x

variable {key}

@[simp] theorem keepMax_nil : keepMax key [] = [] :=
  rfl

theorem keepMax_concat (l : List α) (x : α) :
    keepMax key (l ++ [x]) = insertMax key (keepMax key l) x := by
  simp [keepMax]

theorem keepMax_append (a b : List α) :
    keepMax key (a ++ b) = b.foldl (insertMax key) (keepMax key a) := by
  simp [keepMax]

/-! ## One insertion -/

theorem mem_insertMax_of_mem {l : List α} {x y : α} (hy : y ∈ l) (hlt : ¬key y < key x) :
    y ∈ insertMax key l x := by
  have hk : y ∈ l.filter fun y => ¬key y < key x := by simp [hy, hlt]
  unfold insertMax
  split
  · exact hk
  · exact List.mem_append_left _ hk

theorem mem_of_mem_insertMax {l : List α} {x y : α} (h : y ∈ insertMax key l x) :
    y ∈ l ∨ y = x := by
  unfold insertMax at h
  split at h
  · exact Or.inl (List.mem_filter.mp h).1
  · rcases List.mem_append.mp h with h | h
    · exact Or.inl (List.mem_filter.mp h).1
    · exact Or.inr (List.mem_singleton.mp h)

/-- Insertion reads only the part of the list that `x` does not strictly dominate. -/
theorem insertMax_eq_filter (l : List α) (x : α) :
    insertMax key l x =
      insertMax key (l.filter fun y => ¬key y < key x) x := by
  have hany : (l.any fun y => key x ≤ key y) =
      (l.filter fun y => ¬key y < key x).any fun y => key x ≤ key y := by
    rw [Bool.eq_iff_iff]
    simp only [List.any_eq_true, List.mem_filter, decide_eq_true_eq]
    constructor
    · rintro ⟨y, hy, hle⟩
      exact ⟨y, ⟨hy, by simpa using not_lt_of_ge hle⟩, hle⟩
    · rintro ⟨y, ⟨hy, -⟩, hle⟩
      exact ⟨y, hy, hle⟩
  unfold insertMax
  rw [← hany]
  simp

theorem Covers.mono {a b : List α} {c : κ} (h : Covers key a c) (hab : ∀ y ∈ a, y ∈ b) :
    Covers key b c := by
  obtain ⟨y, hy, hc⟩ := h
  exact ⟨y, hab y hy, hc⟩

theorem Covers.of_le {l : List α} {c d : κ} (h : Covers key l d) (hcd : c ≤ d) :
    Covers key l c := by
  obtain ⟨y, hy, hd⟩ := h
  exact ⟨y, hy, hcd.trans hd⟩

theorem covers_append {a b : List α} {c : κ} :
    Covers key (a ++ b) c ↔ Covers key a c ∨ Covers key b c := by
  simp [Covers, or_and_right, exists_or]

theorem covers_insertMax_self (l : List α) (x : α) : Covers key (insertMax key l x) (key x) := by
  by_cases h : l.any fun y => key x ≤ key y
  · obtain ⟨y, hy, hle⟩ := List.any_eq_true.mp h
    have hle' : key x ≤ key y := by simpa using hle
    exact ⟨y, mem_insertMax_of_mem hy (not_lt_of_ge hle'), hle'⟩
  · exact ⟨x, by simp [insertMax, h], le_rfl⟩

/-- Insertion keeps everything covered : what it drops is below `x`. -/
theorem Covers.insertMax {l : List α} {c : κ} (h : Covers key l c) (x : α) :
    Covers key (Maxima.insertMax key l x) c := by
  obtain ⟨y, hy, hc⟩ := h
  by_cases hlt : key y < key x
  · exact (covers_insertMax_self l x).of_le (hc.trans hlt.le)
  · exact ⟨y, mem_insertMax_of_mem hy hlt, hc⟩

theorem Covers.foldl_insertMax {c : κ} : ∀ {b l : List α}, Covers key l c ∨ Covers key b c →
    Covers key (b.foldl (Maxima.insertMax key) l) c
  | [], l, h => h.elim id fun ⟨_, hy, _⟩ => absurd hy List.not_mem_nil
  | x :: b, l, h => by
    refine Covers.foldl_insertMax (b := b) ?_
    rcases h with h | ⟨y, hy, hle⟩
    · exact Or.inl (h.insertMax x)
    · rcases List.mem_cons.mp hy with rfl | hy
      · exact Or.inl ((covers_insertMax_self l y).of_le hle)
      · exact Or.inr ⟨y, hy, hle⟩

theorem Antichain.insertMax {l : List α} (h : Antichain key l) (x : α) :
    Antichain key (Maxima.insertMax key l x) := by
  have hk : Antichain key (l.filter fun y => ¬key y < key x) := List.Pairwise.filter _ h
  unfold Maxima.insertMax
  split
  · exact hk
  · rename_i hany
    refine List.pairwise_append.mpr ⟨hk, List.pairwise_singleton _ _, fun y hy z hz => ?_⟩
    obtain rfl := List.mem_singleton.mp hz
    obtain ⟨hyl, hnlt⟩ := List.mem_filter.mp hy
    have hnlt' : ¬key y < key z := by simpa using hnlt
    have hnle : ¬key z ≤ key y := fun hle =>
      hany (List.any_eq_true.mpr ⟨y, hyl, by simpa using hle⟩)
    exact ⟨fun hle => hnlt' (lt_of_le_not_ge hle hnle), hnle⟩

theorem Antichain.eq_of_le {l : List α} (h : Antichain key l) {x y : α} (hx : x ∈ l)
    (hy : y ∈ l) (hle : key x ≤ key y) : x = y := by
  by_contra hne
  have : Std.Symm fun x y : α => ¬key x ≤ key y ∧ ¬key y ≤ key x := ⟨fun _ _ hab => hab.symm⟩
  exact (List.Pairwise.forall h hx hy hne).1 hle

/-- In an antichain, an element that one of its elements covers changes nothing. -/
theorem insertMax_of_covers {l : List α} (h : Antichain key l) {x : α}
    (hx : Covers key l (key x)) : insertMax key l x = l := by
  obtain ⟨y, hy, hle⟩ := hx
  have hany : (l.any fun y => key x ≤ key y) = true :=
    List.any_eq_true.mpr ⟨y, hy, by simpa using hle⟩
  have hkeep : ∀ z ∈ l, ¬key z < key x := by
    intro z hz hlt
    obtain rfl := h.eq_of_le hz hy (hlt.le.trans hle)
    exact not_le_of_gt hlt hle
  simpa [insertMax, hany] using hkeep

/-! ## The whole fold -/

theorem antichain_keepMax (l : List α) : Antichain key (keepMax key l) := by
  induction l using List.reverseRecOn with
  | nil => exact List.Pairwise.nil
  | append_singleton l x ih =>
    rw [keepMax_concat]
    exact ih.insertMax x

theorem mem_of_mem_keepMax {l : List α} {y : α} (h : y ∈ keepMax key l) : y ∈ l := by
  induction l using List.reverseRecOn with
  | nil => exact h
  | append_singleton l x ih =>
    rw [keepMax_concat] at h
    rcases mem_of_mem_insertMax h with h | rfl
    · exact List.mem_append_left _ (ih h)
    · exact List.mem_append_right _ (List.mem_singleton.mpr rfl)

/-- Folding covers exactly what the list covered. -/
theorem covers_keepMax {l : List α} {c : κ} : Covers key (keepMax key l) c ↔ Covers key l c := by
  refine ⟨fun h => h.mono fun y => mem_of_mem_keepMax, fun h => ?_⟩
  induction l using List.reverseRecOn with
  | nil => exact h
  | append_singleton l x ih =>
    rw [keepMax_concat]
    rcases covers_append.mp h with h | ⟨y, hy, hc⟩
    · exact (ih h).insertMax x
    · obtain rfl := List.mem_singleton.mp hy
      exact (covers_insertMax_self _ y).of_le hc

/-- Nothing in the list strictly dominates a survivor. -/
theorem not_lt_of_mem_keepMax {l : List α} {x y : α} (hx : x ∈ keepMax key l) (hy : y ∈ l) :
    ¬key x < key y := by
  intro hlt
  have hc : Covers key l (key y) := ⟨y, hy, le_rfl⟩
  obtain ⟨z, hz, hle⟩ := covers_keepMax.mpr hc
  obtain rfl := (antichain_keepMax l).eq_of_le hx hz (hlt.le.trans hle)
  exact not_le_of_gt hlt hle

theorem keepMax_concat_of_covers {l : List α} {x : α} (h : Covers key l (key x)) :
    keepMax key (l ++ [x]) = keepMax key l := by
  rw [keepMax_concat]
  exact insertMax_of_covers (antichain_keepMax l) (covers_keepMax.mpr h)

/-- A list covered by the one before it adds nothing. -/
theorem keepMax_append_of_covers {a : List α} : ∀ {b : List α},
    (∀ y ∈ b, Covers key a (key y)) → keepMax key (a ++ b) = keepMax key a := by
  intro b
  induction b using List.reverseRecOn with
  | nil => simp
  | append_singleton b x ih =>
    intro h
    have hx : Covers key (a ++ b) (key x) :=
      covers_append.mpr (Or.inl (h x (by simp)))
    rw [← List.append_assoc, keepMax_concat_of_covers hx]
    exact ih fun y hy => h y (List.mem_append_left _ hy)

/-- An antichain is its own fold. -/
theorem Antichain.keepMax_eq {l : List α} (h : Antichain key l) : keepMax key l = l := by
  induction l using List.reverseRecOn with
  | nil => rfl
  | append_singleton l x ih =>
    obtain ⟨hl, -, hx⟩ := List.pairwise_append.mp h
    rw [keepMax_concat, ih hl]
    have hany : (l.any fun y => key x ≤ key y) = false := by
      simpa using fun y hy => (hx y hy x (by simp)).2
    have hkeep : ∀ y ∈ l, ¬key y < key x := fun y hy hlt => (hx y hy x (by simp)).1 hlt.le
    simpa [Maxima.insertMax, hany] using hkeep

theorem keepMax_keepMax (l : List α) : keepMax key (keepMax key l) = keepMax key l :=
  (antichain_keepMax l).keepMax_eq

/-- The front of a list may be folded first. -/
theorem keepMax_keepMax_append (a b : List α) :
    keepMax key (keepMax key a ++ b) = keepMax key (a ++ b) := by
  rw [keepMax_append, keepMax_append, keepMax_keepMax]

/-- A list covered by what stands before it may be left out. -/
theorem keepMax_append_append_of_covers {a b : List α} (h : ∀ y ∈ b, Covers key a (key y))
    (c : List α) : keepMax key (a ++ b ++ c) = keepMax key (a ++ c) := by
  rw [keepMax_append, keepMax_append_of_covers h, ← keepMax_append]

/-! ## Upward closed parts -/

/-- `p` holds of everything at or above something it holds of. -/
def Upper (key : α → κ) (p : α → Bool) : Prop :=
  ∀ y z, key y ≤ key z → p y = true → p z = true

theorem upper_not_lt (x : α) : Upper key fun y => ¬key y < key x := by
  intro y z hle hy
  simp only [decide_eq_true_eq] at hy ⊢
  exact fun hz => hy (lt_of_le_of_lt hle hz)

theorem upper_not_le (x : α) : Upper key fun y => ¬key y ≤ key x := by
  intro y z hle hy
  simp only [decide_eq_true_eq] at hy ⊢
  exact fun hz => hy (hle.trans hz)

theorem filter_insertMax_of_pos {p : α → Bool} (hp : Upper key p) (l : List α) {x : α}
    (hx : p x = true) : (insertMax key l x).filter p = insertMax key (l.filter p) x := by
  have hany : (l.any fun y => key x ≤ key y) = (l.filter p).any fun y => key x ≤ key y := by
    rw [Bool.eq_iff_iff]
    simp only [List.any_eq_true, List.mem_filter, decide_eq_true_eq]
    constructor
    · rintro ⟨y, hy, hle⟩
      exact ⟨y, ⟨hy, hp x y hle hx⟩, hle⟩
    · rintro ⟨y, ⟨hy, -⟩, hle⟩
      exact ⟨y, hy, hle⟩
  unfold insertMax
  rw [← hany]
  split
  · exact List.filter_comm _ _ _
  · rw [List.filter_append, List.filter_comm]
    simp [hx]

theorem filter_insertMax_of_neg {p : α → Bool} (hp : Upper key p) (l : List α) {x : α}
    (hx : ¬p x = true) : (insertMax key l x).filter p = l.filter p := by
  have hkept : (l.filter fun y => ¬key y < key x).filter p = l.filter p := by
    rw [List.filter_filter]
    refine List.filter_congr fun y _ => ?_
    have hlt : p y = true → ¬key y < key x := fun hy h => hx (hp y x h.le hy)
    cases hpy : p y with
    | false => rfl
    | true => simpa using hlt hpy
  unfold insertMax
  split
  · exact hkept
  · rw [List.filter_append, hkept]
    simp [hx]

/-- An upward closed part of the fold is the fold of that part. -/
theorem filter_keepMax {p : α → Bool} (hp : Upper key p) (l : List α) :
    (keepMax key l).filter p = keepMax key (l.filter p) := by
  induction l using List.reverseRecOn with
  | nil => rfl
  | append_singleton l x ih =>
    rw [keepMax_concat, List.filter_append]
    by_cases hx : p x = true
    · rw [filter_insertMax_of_pos hp _ hx, ih, List.filter_cons_of_pos hx, List.filter_nil,
        keepMax_concat]
    · rw [filter_insertMax_of_neg hp _ hx, ih, List.filter_cons_of_neg hx, List.filter_nil,
        List.append_nil]

theorem insertMax_congr_filter {a b : List α} {x : α}
    (h : (a.filter fun y => ¬key y < key x) = b.filter fun y => ¬key y < key x) :
    insertMax key a x = insertMax key b x := by
  rw [insertMax_eq_filter a, h, ← insertMax_eq_filter]

/-- Inserting into any list, folded or not, is seen by a later fold as appending. -/
theorem keepMax_insertMax (l : List α) (x : α) :
    keepMax key (insertMax key l x) = keepMax key (l ++ [x]) := by
  by_cases hx : Covers key l (key x)
  · have hany : (l.any fun y => key x ≤ key y) = true := by simpa [Covers] using hx
    have hins : insertMax key l x = l.filter fun y => ¬key y < key x := by simp [insertMax, hany]
    rw [keepMax_concat_of_covers hx, hins, ← filter_keepMax (upper_not_lt x)]
    refine List.filter_eq_self.mpr fun y hy => ?_
    obtain ⟨z, hz, hle⟩ := hx
    simpa using fun hlt => not_lt_of_mem_keepMax hy hz (lt_of_lt_of_le hlt hle)
  · have hany : (l.any fun y => key x ≤ key y) = false := by simpa [Covers] using hx
    have hins : insertMax key l x = (l.filter fun y => ¬key y < key x) ++ [x] := by
      simp [insertMax, hany]
    rw [hins, keepMax_concat, keepMax_concat, ← filter_keepMax (upper_not_lt x),
      ← insertMax_eq_filter]

theorem keepMax_foldl_insertMax : ∀ (b l : List α),
    keepMax key (b.foldl (insertMax key) l) = keepMax key (l ++ b)
  | [], l => by simp
  | x :: b, l => by
    rw [List.foldl_cons, keepMax_foldl_insertMax b, keepMax_append, keepMax_insertMax,
      ← keepMax_append, List.append_assoc, List.singleton_append]

theorem keepMax_append_insertMax (a : List α) {c : List α} (hc : Antichain key c) (x : α) :
    keepMax key (a ++ insertMax key c x) = keepMax key (a ++ c ++ [x]) := by
  by_cases hx : Covers key c (key x)
  · rw [insertMax_of_covers hc hx, keepMax_concat_of_covers (covers_append.mpr (Or.inr hx))]
  · have hany : (c.any fun y => key x ≤ key y) = false := by
      rw [Bool.eq_false_iff]
      intro h
      obtain ⟨y, hy, hle⟩ := List.any_eq_true.mp h
      exact hx ⟨y, hy, by simpa using hle⟩
    have hins : insertMax key c x = (c.filter fun y => ¬key y < key x) ++ [x] := by
      simp [insertMax, hany]
    rw [hins, ← List.append_assoc, keepMax_concat, keepMax_concat]
    -- both folds agree on what `x` does not strictly dominate, and insertion reads no more
    apply insertMax_congr_filter
    rw [filter_keepMax (upper_not_lt x), filter_keepMax (upper_not_lt x), List.filter_append,
      List.filter_append, List.filter_filter]
    simp

/-- The tail of a list may be folded first. -/
theorem keepMax_append_keepMax (a b : List α) :
    keepMax key (a ++ keepMax key b) = keepMax key (a ++ b) := by
  induction b using List.reverseRecOn with
  | nil => rfl
  | append_singleton b x ih =>
    rw [keepMax_concat, keepMax_append_insertMax a (antichain_keepMax b), keepMax_concat, ih,
      ← keepMax_concat, List.append_assoc]

theorem keepMax_append_congr {a a' b b' : List α} (ha : keepMax key a = keepMax key a')
    (hb : keepMax key b = keepMax key b') : keepMax key (a ++ b) = keepMax key (a' ++ b') := by
  rw [← keepMax_append_keepMax, ← keepMax_keepMax_append, ha, hb, keepMax_keepMax_append,
    keepMax_append_keepMax]

/-- If `m` completes `a` to `a ++ b ++ c`, it still does with `b` put in front of it. -/
theorem keepMax_append_of_eq {a b c m : List α}
    (h : keepMax key (a ++ m) = keepMax key (a ++ b ++ c)) :
    keepMax key (a ++ b ++ m) = keepMax key (a ++ b ++ c) := by
  have hrep : ∀ s t : List α, keepMax key (s ++ (s ++ t)) = keepMax key (s ++ t) := by
    intro s t
    rw [← List.append_assoc]
    exact keepMax_append_append_of_covers (fun y hy => ⟨y, hy, le_rfl⟩) t
  calc keepMax key (a ++ b ++ m)
      = keepMax key (a ++ b ++ a ++ m) :=
        (keepMax_append_append_of_covers
          (fun y hy => ⟨y, List.mem_append_left _ hy, le_rfl⟩) m).symm
    _ = keepMax key (a ++ b ++ (a ++ m)) := by rw [List.append_assoc (a ++ b)]
    _ = keepMax key (a ++ b ++ (a ++ b ++ c)) := keepMax_append_congr rfl h
    _ = keepMax key (a ++ b ++ c) := hrep _ _

/-! ## Which elements survive -/

theorem mem_foldl_insertMax {x : α} : ∀ {b l : List α}, x ∈ l → (∀ y ∈ b, ¬key x < key y) →
    x ∈ b.foldl (insertMax key) l
  | [], _, hx, _ => hx
  | y :: b, _, hx, h =>
    mem_foldl_insertMax (b := b) (mem_insertMax_of_mem hx (h y List.mem_cons_self))
      fun z hz => h z (List.mem_cons_of_mem _ hz)

theorem mem_of_mem_foldl_insertMax {x : α} : ∀ {b l : List α},
    x ∈ b.foldl (insertMax key) l → x ∈ l ∨ x ∈ b
  | [], _, hx => Or.inl hx
  | y :: b, l, hx => by
    rcases mem_of_mem_foldl_insertMax (b := b) hx with hx | hx
    · rcases mem_of_mem_insertMax hx with hx | rfl
      · exact Or.inl hx
      · exact Or.inr List.mem_cons_self
    · exact Or.inr (List.mem_cons_of_mem _ hx)

/-- Inserting what is covered adds nothing. -/
theorem mem_of_mem_insertMax_of_covers {l : List α} {x z : α} (h : Covers key l (key x))
    (hz : z ∈ insertMax key l x) : z ∈ l := by
  obtain ⟨y, hy, hle⟩ := h
  have hany : (l.any fun y => key x ≤ key y) = true :=
    List.any_eq_true.mpr ⟨y, hy, by simpa using hle⟩
  simp only [insertMax, hany, if_true] at hz
  exact (List.mem_filter.mp hz).1

theorem mem_of_mem_foldl_insertMax_of_covers {z : α} : ∀ {b l : List α},
    (∀ y ∈ b, Covers key l (key y)) → z ∈ b.foldl (insertMax key) l → z ∈ l
  | [], _, _, hz => hz
  | y :: b, l, h, hz => by
    rw [List.forall_mem_cons] at h
    refine mem_of_mem_insertMax_of_covers h.1 ?_
    exact mem_of_mem_foldl_insertMax_of_covers (fun y' hy' => (h.2 y' hy').insertMax y) hz

/-- An element survives when it stands at a place where nothing before it covers it and
nothing after it strictly dominates it. -/
theorem mem_keepMax_iff_split {l : List α} {x : α} :
    x ∈ keepMax key l ↔ ∃ a b, l = a ++ x :: b ∧ ¬Covers key a (key x) ∧
      ∀ y ∈ b, ¬key x < key y := by
  constructor
  · induction l using List.reverseRecOn with
    | nil => simp
    | append_singleton l z ih =>
      intro h
      rw [keepMax_concat] at h
      by_cases hany : (keepMax key l).any fun y => key z ≤ key y
      · have hx : x ∈ keepMax key l ∧ ¬key x < key z := by
          simpa [insertMax, hany] using h
        obtain ⟨a, b, rfl, ha, hb⟩ := ih hx.1
        refine ⟨a, b ++ [z], by simp, ha, fun y hy => ?_⟩
        rcases List.mem_append.mp hy with hy | hy
        · exact hb y hy
        · exact List.mem_singleton.mp hy ▸ hx.2
      · have hx : (x ∈ keepMax key l ∧ ¬key x < key z) ∨ x = z := by
          simpa [insertMax, hany] using h
        rcases hx with hx | rfl
        · obtain ⟨a, b, rfl, ha, hb⟩ := ih hx.1
          refine ⟨a, b ++ [z], by simp, ha, fun y hy => ?_⟩
          rcases List.mem_append.mp hy with hy | hy
          · exact hb y hy
          · exact List.mem_singleton.mp hy ▸ hx.2
        · refine ⟨l, [], rfl, fun hc => hany ?_, by simp⟩
          obtain ⟨y, hy, hle⟩ := covers_keepMax.mpr hc
          exact List.any_eq_true.mpr ⟨y, hy, by simpa using hle⟩
  · rintro ⟨a, b, rfl, ha, hb⟩
    rw [keepMax_append, List.foldl_cons]
    refine mem_foldl_insertMax ?_ hb
    have hany : ((keepMax key a).any fun y => key x ≤ key y) = false := by
      rw [Bool.eq_false_iff]
      intro h
      obtain ⟨y, hy, hle⟩ := List.any_eq_true.mp h
      exact ha (covers_keepMax.mp ⟨y, hy, by simpa using hle⟩)
    simp [insertMax, hany]

/-- A front element that nothing later strictly dominates stays in front, and of the rest
stays what it does not cover. -/
theorem keepMax_cons_of_not_lt {l : List α} {x : α} (h : ∀ y ∈ l, ¬key x < key y) :
    keepMax key (x :: l) = x :: (keepMax key l).filter fun y => ¬key y ≤ key x := by
  induction l using List.reverseRecOn with
  | nil => simp [keepMax, insertMax]
  | append_singleton l y ih =>
    have ih' := ih fun z hz => h z (List.mem_append_left _ hz)
    have hy : ¬key x < key y := h y (by simp)
    rw [← List.cons_append, keepMax_concat, ih', keepMax_concat]
    by_cases hle : key y ≤ key x
    · rw [filter_insertMax_of_neg (upper_not_le x) _ (by simpa using hle)]
      refine insertMax_of_covers ?_ ⟨x, List.mem_cons_self, hle⟩
      rw [← ih']
      exact antichain_keepMax _
    · rw [filter_insertMax_of_pos (upper_not_le x) _ (by simpa using hle)]
      simp [insertMax, hle, hy, apply_ite]

/-! ## The fold in closed form -/

variable (key) in
/-- The elements of `rest`, which stand behind `earlier`, that nothing in `all` strictly
dominates and that no earlier one is equivalent to. -/
def firstMaxima (all : List α) : List α → List α → List α
  | _, [] => []
  | earlier, x :: rest =>
    if (∃ y ∈ all, key x < key y) ∨ ∃ y ∈ earlier, key x ≤ key y ∧ key y ≤ key x then
      firstMaxima all (earlier ++ [x]) rest
    else x :: firstMaxima all (earlier ++ [x]) rest

theorem firstMaxima_concat (all : List α) (x : α) : ∀ earlier rest : List α,
    firstMaxima key all earlier (rest ++ [x]) = firstMaxima key all earlier rest ++
      if (∃ y ∈ all, key x < key y) ∨ ∃ y ∈ earlier ++ rest, key x ≤ key y ∧ key y ≤ key x
      then [] else [x]
  | earlier, [] => by simp [firstMaxima]
  | earlier, z :: rest => by
    rw [List.cons_append, firstMaxima, firstMaxima, firstMaxima_concat all x (earlier ++ [z]) rest,
      List.append_assoc, List.singleton_append]
    split_ifs <;> rfl

theorem firstMaxima_all_concat (all : List α) (x : α) : ∀ earlier rest : List α,
    firstMaxima key (all ++ [x]) earlier rest =
      (firstMaxima key all earlier rest).filter fun y => ¬key y < key x
  | _, [] => rfl
  | earlier, z :: rest => by
    rw [firstMaxima, firstMaxima, firstMaxima_all_concat all x (earlier ++ [z]) rest]
    by_cases hz : (∃ y ∈ all, key z < key y) ∨ ∃ y ∈ earlier, key z ≤ key y ∧ key y ≤ key z
    · rw [if_pos hz, if_pos (hz.imp_left fun ⟨y, hy, hlt⟩ => ⟨y, List.mem_append_left _ hy, hlt⟩)]
    · by_cases hlt : key z < key x
      · rw [if_neg hz, if_pos (Or.inl ⟨x, by simp, hlt⟩), List.filter_cons_of_neg (by simpa using hlt)]
      · rw [if_neg hz, if_neg, List.filter_cons_of_pos (by simpa using hlt)]
        rintro (⟨y, hy, hzy⟩ | hequal)
        · rcases List.mem_append.mp hy with hy | hy
          · exact hz (Or.inl ⟨y, hy, hzy⟩)
          · exact hlt (List.mem_singleton.mp hy ▸ hzy)
        · exact hz (Or.inr hequal)

theorem covers_iff_lt_or_equiv {l : List α} {c : κ} : Covers key l c ↔
    (∃ y ∈ l, c < key y) ∨ ∃ y ∈ l, c ≤ key y ∧ key y ≤ c := by
  constructor
  · rintro ⟨y, hy, hle⟩
    by_cases hge : key y ≤ c
    · exact Or.inr ⟨y, hy, hle, hge⟩
    · exact Or.inl ⟨y, hy, lt_of_le_not_ge hle hge⟩
  · rintro (⟨y, hy, hlt⟩ | ⟨y, hy, hle, -⟩)
    · exact ⟨y, hy, hlt.le⟩
    · exact ⟨y, hy, hle⟩

/-- The fold keeps the maximal elements in order, the first of those that are equivalent. -/
theorem keepMax_eq_firstMaxima (l : List α) : keepMax key l = firstMaxima key l [] l := by
  induction l using List.reverseRecOn with
  | nil => rfl
  | append_singleton l x ih =>
    rw [keepMax_concat, firstMaxima_concat, firstMaxima_all_concat, ← ih, List.nil_append]
    have hcovers : ((keepMax key l).any fun y => key x ≤ key y) = true ↔
        (∃ y ∈ l ++ [x], key x < key y) ∨ ∃ y ∈ l, key x ≤ key y ∧ key y ≤ key x := by
      have hlt : (∃ y ∈ l ++ [x], key x < key y) ↔ ∃ y ∈ l, key x < key y := by simp
      rw [hlt, ← covers_iff_lt_or_equiv, ← covers_keepMax]
      simp [Covers]
    by_cases hx : ((keepMax key l).any fun y => key x ≤ key y) = true
    · rw [insertMax, if_pos hx, if_pos (hcovers.mp hx), List.append_nil]
    · rw [insertMax, if_neg hx, if_neg fun h => hx (hcovers.mpr h)]

/-- Lists that cover the same keep equivalent elements. -/
theorem exists_equiv_of_mem_keepMax {l l' : List α} (h : ∀ c, Covers key l c ↔ Covers key l' c)
    {x : α} (hx : x ∈ keepMax key l) : ∃ y ∈ keepMax key l', key x ≤ key y ∧ key y ≤ key x := by
  obtain ⟨y, hy, hle⟩ := covers_keepMax.mpr
    ((h (key x)).mp ⟨x, mem_of_mem_keepMax hx, le_rfl⟩)
  obtain ⟨z, hz, hle'⟩ := (h (key y)).mpr ⟨y, mem_of_mem_keepMax hy, le_rfl⟩
  refine ⟨y, hy, hle, ?_⟩
  by_contra hge
  exact not_lt_of_mem_keepMax hx hz ((lt_of_le_not_ge hle hge).trans_le hle')

/-- Groups may be folded first. -/
theorem foldl_keepMax_groups : ∀ groups : List (List α), ∀ l : List α,
    (groups.map (keepMax key)).foldl (fun acc group => group.foldl (insertMax key) acc)
      (keepMax key l) = keepMax key (l ++ groups.flatten)
  | [], l => by simp
  | group :: groups, l => by
    rw [List.map_cons, List.foldl_cons, ← keepMax_append, keepMax_append_keepMax,
      foldl_keepMax_groups groups (l ++ group), List.flatten_cons, List.append_assoc]

end Maxima
