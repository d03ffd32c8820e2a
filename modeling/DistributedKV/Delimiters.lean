import Mathlib

/-!
# Texts without escapes

When fields are written one after another and nothing in them is escaped, a field ends
where its delimiter is found first. So two texts that agree were written from the same
fields only if no field contains the delimiter that ends it.

* `delimiter_inj` : a field that ends at the first occurrence of a delimiter, or of one of
  several that begin alike;
* `closed_inj` : a field with quoted parts that ends at the first separator outside the
  quotes, as `quoted` texts have none;
* `joined_inj` : a list of names, each followed by a colon and a numeral, written with a
  separator between them. Here a name may contain all of these signs, but no colon,
  numeral and separator in a row (`Splits`).
-/

namespace Delimiters

variable {α : Type*}

/-! ## Delimiters -/

/-- One side of `delimiter_inj` : the longer field would contain the other's delimiter. -/
theorem eq_nil_of_delimiter {sep : α} {t t' a d x x' : List α} (ht : sep ∉ t)
    (h : sep :: (t ++ x) = d ++ sep :: (t' ++ x')) (ha : ¬(sep :: t) <:+: a ++ d) : d = [] := by
  cases d with
  | nil => rfl
  | cons =>
    obtain ⟨rfl, htail⟩ := List.cons.inj h
    exfalso
    rcases List.append_eq_append_iff.mp htail with ⟨e, hd, -⟩ | ⟨e, htd, he⟩
    · exact ha ⟨a, e, by simp [hd]⟩
    · cases e with
      | nil => exact ha ⟨a, [], by simp [htd]⟩
      | cons =>
        obtain ⟨rfl, -⟩ := List.cons.inj he
        exact ht (by simp [htd])

/-- A field ends at the first delimiter. -/
theorem delimiter_inj {sep : α} {t t' a a' x x' : List α} (ht : sep ∉ t) (ht' : sep ∉ t')
    (h : a ++ sep :: (t ++ x) = a' ++ sep :: (t' ++ x')) (ha : ¬(sep :: t') <:+: a)
    (ha' : ¬(sep :: t) <:+: a') : a = a' ∧ t ++ x = t' ++ x' := by
  rcases List.append_eq_append_iff.mp h with ⟨d, rfl, hd⟩ | ⟨d, rfl, hd⟩
  · obtain rfl := eq_nil_of_delimiter ht hd ha'
    exact ⟨by simp, (List.cons.inj hd).2⟩
  · obtain rfl := eq_nil_of_delimiter ht' hd ha
    exact ⟨by simp, (List.cons.inj hd).2.symm⟩

/-- A pattern without `c` that occurs around a `c` occurs on one side of it. -/
theorem infix_of_append_cons {c : α} {pat a b : List α} (hc : c ∉ pat)
    (h : pat <:+: a ++ c :: b) : pat <:+: a ∨ pat <:+: b := by
  obtain ⟨s, t, h⟩ := h
  rw [List.append_assoc] at h
  rcases List.append_eq_append_iff.mp h with ⟨e, rfl, he⟩ | ⟨e, rfl, he⟩
  · rcases List.append_eq_append_iff.mp he with ⟨f, rfl, -⟩ | ⟨f, rfl, hf⟩
    · exact Or.inl ⟨s, f, by simp⟩
    · cases f with
      | nil => exact Or.inl ⟨s, [], by simp⟩
      | cons =>
        cases hf
        simp at hc
  · cases e with
    | nil =>
      rw [List.nil_append] at he
      cases pat with
      | nil => exact Or.inl (List.nil_infix)
      | cons =>
        cases he
        simp at hc
    | cons c' e =>
      obtain ⟨-, hb⟩ := List.cons.inj he
      exact Or.inr ⟨e, t, by simp [hb]⟩

/-! ## Quotes -/

/-- Where a reader of a text with quoted parts stands. -/
inductive Mode
  | outside
  | inside
  /-- Right after a backslash inside quotes. -/
  | escaped
deriving DecidableEq

def Mode.next (m : Mode) (c : Char) : Mode :=
  match m with
  | .outside => if c = '"' then .inside else .outside
  | .inside => if c = '\\' then .escaped else if c = '"' then .outside else .inside
  | .escaped => .inside

/-- The quotes are closed at the end, and `sep` stands only inside them. -/
def Closed (sep : Char) : Mode → List Char → Prop
  | m, [] => m = .outside
  | m, c :: cs => (m = .outside → c ≠ sep) ∧ Closed sep (m.next c) cs

instance (sep : Char) : ∀ (m : Mode) (cs : List Char), Decidable (Closed sep m cs)
  | m, [] => inferInstanceAs (Decidable (m = .outside))
  | m, c :: cs =>
    have : Decidable (Closed sep (m.next c) cs) := instDecidableClosed sep (m.next c) cs
    inferInstanceAs (Decidable (_ ∧ _))

/-- A field with quoted parts ends at the first separator outside them. -/
theorem closed_inj {sep : Char} {x x' : List Char} : ∀ {a a' : List Char} {m : Mode},
    Closed sep m a → Closed sep m a' → a ++ sep :: x = a' ++ sep :: x' → a = a' ∧ x = x'
  | [], [], m, _, _, h => ⟨rfl, (List.cons.inj h).2⟩
  | [], c :: a', m, ha, ha', h => absurd (List.cons.inj h).1.symm (ha'.1 ha)
  | c :: a, [], m, ha, ha', h => absurd (List.cons.inj h).1 (ha.1 ha')
  | c :: a, c' :: a', m, ha, ha', h => by
    obtain ⟨rfl, htail⟩ := List.cons.inj h
    obtain ⟨rfl, rfl⟩ := closed_inj ha.2 ha'.2 htail
    exact ⟨rfl, rfl⟩

/-- One character between quotes. -/
def escape (c : Char) : List Char :=
  if c = '"' ∨ c = '\\' then ['\\', c] else [c]

/-- A text between quotes. -/
def quoted (cs : List Char) : List Char :=
  '"' :: (cs.flatMap escape ++ ['"'])

theorem closed_flatMap_escape (sep : Char) : ∀ cs : List Char,
    Closed sep .inside (cs.flatMap escape ++ ['"'])
  | [] => by simp [Closed, Mode.next]
  | c :: cs => by
    have htail := closed_flatMap_escape sep cs
    by_cases hc : c = '"' ∨ c = '\\'
    · rcases hc with rfl | rfl <;> simpa [escape, Closed, Mode.next] using htail
    · obtain ⟨h1, h2⟩ := not_or.mp hc
      simpa [escape, Closed, Mode.next, h1, h2] using htail

theorem closed_quoted {sep : Char} (hsep : sep ≠ '"') (cs : List Char) :
    Closed sep .outside (quoted cs) :=
  ⟨fun _ => hsep.symm, closed_flatMap_escape sep cs⟩

theorem flatMap_escape_inj : ∀ {cs ds : List Char}, cs.flatMap escape = ds.flatMap escape → cs = ds
  | [], [], _ => rfl
  | [], d :: ds, h => by
    by_cases hd : d = '"' ∨ d = '\\' <;> simp [escape, hd] at h
  | c :: cs, [], h => by
    by_cases hc : c = '"' ∨ c = '\\' <;> simp [escape, hc] at h
  | c :: cs, d :: ds, h => by
    by_cases hc : c = '"' ∨ c = '\\' <;> by_cases hd : d = '"' ∨ d = '\\' <;>
      simp only [List.flatMap_cons, escape, hc, hd, if_true, if_false, List.cons_append,
        List.nil_append, List.cons.injEq] at h
    · rw [h.2.1, flatMap_escape_inj h.2.2]
    · exact absurd (Or.inr h.1.symm) hd
    · exact absurd (Or.inr h.1) hc
    · rw [h.1, flatMap_escape_inj h.2]

theorem quoted_inj : Function.Injective quoted := by
  intro cs ds h
  exact flatMap_escape_inj (List.append_cancel_right (List.cons.inj h).2)

/-! ## Numbered names -/

section Numbered

variable (colon sep : α) (numeral : List α → Prop)

/-- Names with their numerals, written one after another. -/
def joined (parts : List (List α × List α)) : List α :=
  [sep].intercalate (parts.map fun p => p.1 ++ colon :: p.2)

/-- The name would read as the end of one part and the beginning of the next. -/
def Splits (name : List α) : Prop :=
  ∃ x d y, numeral d ∧ name = x ++ colon :: (d ++ sep :: y)

variable {colon sep numeral}

theorem not_splits_of_not_mem {name : List α} (h : colon ∉ name) :
    ¬Splits colon sep numeral name := by
  rintro ⟨x, d, y, -, rfl⟩
  simp at h

/-- What follows a part : nothing, or the separator and the other parts. -/
def following (colon sep : α) (parts : List (List α × List α)) : List α :=
  if parts = [] then [] else sep :: joined colon sep parts

theorem joined_cons (p : List α × List α) (parts : List (List α × List α)) :
    joined colon sep (p :: parts) = p.1 ++ colon :: (p.2 ++ following colon sep parts) := by
  cases parts with
  | nil => simp [joined, following]
  | cons =>
    simp [joined, following, List.intercalate]

/-- What follows begins with the separator if with anything. -/
theorem following_cases (parts : List (List α × List α)) :
    following colon sep parts = [] ∨ ∃ r, following colon sep parts = sep :: r := by
  unfold following
  split
  · exact Or.inl rfl
  · exact Or.inr ⟨_, rfl⟩

/-- A numeral ends where the separator or the text does. -/
theorem numeral_inj {d d' t t' : List α} (hd : sep ∉ d) (hd' : sep ∉ d')
    (ht : t = [] ∨ ∃ r, t = sep :: r) (ht' : t' = [] ∨ ∃ r, t' = sep :: r)
    (h : d ++ t = d' ++ t') : d = d' ∧ t = t' := by
  -- the shorter numeral is followed by the separator, which the longer one does not have
  have hside : ∀ {a b u : List α}, (u = [] ∨ ∃ r, u = sep :: r) → ∀ {w}, u = a ++ w →
      sep ∉ b ++ a → a = [] := by
    intro a b u hu w huw hsep
    cases a with
    | nil => rfl
    | cons =>
      rcases hu with rfl | ⟨r, rfl⟩
      · cases huw
      · cases huw
        simp at hsep
  rcases List.append_eq_append_iff.mp h with ⟨e, rfl, he⟩ | ⟨e, rfl, he⟩
  · obtain rfl := hside ht he hd'
    exact ⟨by simp, he⟩
  · obtain rfl := hside ht' he hd
    exact ⟨by simp, he.symm⟩

/-- One side of `part_inj` : a longer name would split. -/
theorem eq_nil_of_part {n e d d' t t' : List α} (hne : colon ≠ sep) (hd : numeral d)
    (hcolon : colon ∉ d) (ht : t = [] ∨ ∃ r, t = sep :: r)
    (h : colon :: (d ++ t) = e ++ colon :: (d' ++ t')) (hn : ¬Splits colon sep numeral (n ++ e)) :
    e = [] := by
  cases e with
  | nil => rfl
  | cons =>
    obtain ⟨rfl, htail⟩ := List.cons.inj h
    exfalso
    rcases List.append_eq_append_iff.mp htail with ⟨f, rfl, hf⟩ | ⟨f, hdf, hf⟩
    · -- the colon of the longer name comes after the numeral, so a separator does
      rcases ht with rfl | ⟨r, rfl⟩
      · simp at hf
      · cases f with
        | nil => exact hne (List.cons.inj hf).1.symm
        | cons c' f =>
          cases hf
          exact hn ⟨n, d, f, hd, rfl⟩
    · cases f with
      | nil =>
        rcases ht with rfl | ⟨r, rfl⟩
        · simp at hf
        · exact hne (List.cons.inj hf).1
      | cons =>
        obtain ⟨rfl, -⟩ := List.cons.inj hf
        exact hcolon (by simp [hdf])

/-- Parts are read back from what they are written as. -/
theorem joined_inj (hne : colon ≠ sep) (hnum : ∀ d, numeral d → colon ∉ d ∧ sep ∉ d) :
    ∀ {l l' : List (List α × List α)},
      (∀ p ∈ l, ¬Splits colon sep numeral p.1 ∧ numeral p.2) →
      (∀ p ∈ l', ¬Splits colon sep numeral p.1 ∧ numeral p.2) →
      joined colon sep l = joined colon sep l' → l = l'
  | [], [], _, _, _ => rfl
  | [], p :: l', _, _, h => by
    rw [joined_cons] at h
    simp [joined] at h
  | p :: l, [], _, _, h => by
    rw [joined_cons] at h
    simp [joined] at h
  | ⟨n, d⟩ :: l, ⟨n', d'⟩ :: l', hl, hl', h => by
    obtain ⟨⟨hn, hd⟩, htail⟩ := List.forall_mem_cons.mp hl
    obtain ⟨⟨hn', hd'⟩, htail'⟩ := List.forall_mem_cons.mp hl'
    rw [joined_cons, joined_cons] at h
    simp only at hn hd hn' hd' h
    have hname : n = n' := by
      rcases List.append_eq_append_iff.mp h with ⟨e, rfl, he⟩ | ⟨e, rfl, he⟩
      · rw [eq_nil_of_part hne hd (hnum d hd).1 (following_cases l) he hn', List.append_nil]
      · rw [eq_nil_of_part hne hd' (hnum d' hd').1 (following_cases l') he hn, List.append_nil]
    subst hname
    obtain ⟨rfl, hrest⟩ := numeral_inj (hnum d hd).2 (hnum d' hd').2 (following_cases l)
      (following_cases l') (List.cons.inj (List.append_cancel_left h)).2
    have hll : l = l' := by
      unfold following at hrest
      split at hrest <;> split at hrest
      · next hl0 hl0' => rw [hl0, hl0']
      · cases hrest
      · cases hrest
      · exact joined_inj hne hnum htail htail' (List.cons.inj hrest).2
    rw [hll]

/-- A pattern of other signs that occurs in the whole occurs in a name. -/
theorem exists_infix_of_joined {pat : List α} {c : α} (hpat : c ∈ pat) (hcolon : colon ∉ pat)
    (hsep : sep ∉ pat) : ∀ {l : List (List α × List α)}, (∀ p ∈ l, c ∉ p.2) →
      pat <:+: joined colon sep l → ∃ p ∈ l, pat <:+: p.1
  | [], _, h => by
    have : pat = [] := List.eq_nil_of_infix_nil h
    simp [this] at hpat
  | p :: l, hl, h => by
    obtain ⟨hp, htail⟩ := List.forall_mem_cons.mp hl
    rw [joined_cons] at h
    rcases infix_of_append_cons hcolon h with h | h
    · exact ⟨p, List.mem_cons_self, h⟩
    · unfold following at h
      split at h
      · exact absurd (h.subset hpat) (by simpa using hp)
      · rcases infix_of_append_cons hsep h with h | h
        · exact absurd (h.subset hpat) hp
        · obtain ⟨q, hq, hoccurs⟩ := exists_infix_of_joined hpat hcolon hsep htail h
          exact ⟨q, List.mem_cons_of_mem _ hq, hoccurs⟩

end Numbered

end Delimiters
