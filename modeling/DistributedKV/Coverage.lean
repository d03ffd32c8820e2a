import DistributedKV.Maxima

/-!
# Lists that cover one another

`Below a b` : whatever `a` covers, `b` covers. It is a preorder on lists in which a list is
the least one above its elements (`below_iff`), appending is the join (`append_below`), and
folding to the maximal elements changes nothing. What is known of a store that only ever
gets more is a statement of this form, and stays one when the store gets more.

`covers_iff_of_spread` is what an exchange between every two members of a group comes to :
if each has what every other one had and nobody has anything else, all have the same.
-/

set_option linter.unusedSectionVars false

namespace Maxima

variable {α κ ι : Type*} [Preorder κ] [DecidableLE κ] [DecidableLT κ] {key : α → κ}

/-- Whatever `a` covers, `b` covers. -/
def Below (key : α → κ) (a b : List α) : Prop :=
  ∀ c, Covers key a c → Covers key b c

variable {a b d : List α}

theorem Below.refl (a : List α) : Below key a a :=
  fun _ h => h

theorem Below.trans (h : Below key a b) (h' : Below key b d) : Below key a d :=
  fun c hc => h' c (h c hc)

theorem below_iff : Below key a b ↔ ∀ x ∈ a, Covers key b (key x) := by
  constructor
  · exact fun h x hx => h _ ⟨x, hx, le_rfl⟩
  · rintro h c ⟨x, hx, hle⟩
    exact (h x hx).of_le hle

theorem below_of_subset (h : ∀ x ∈ a, x ∈ b) : Below key a b :=
  fun _ hc => hc.mono h

theorem nil_below (b : List α) : Below key [] b :=
  below_of_subset (by simp)

theorem below_append_left (a b : List α) : Below key a (a ++ b) :=
  below_of_subset fun _ hx => List.mem_append_left b hx

theorem append_below : Below key (a ++ b) d ↔ Below key a d ∧ Below key b d := by
  simp only [below_iff, List.forall_mem_append]

theorem Below.append_mono {a' b' : List α} (h : Below key a a') (h' : Below key b b') :
    Below key (a ++ b) (a' ++ b') := by
  intro c hc
  rw [covers_append] at hc ⊢
  exact hc.imp (h c) (h' c)

/-- What is below `a` and one more element is below what covers both. -/
theorem Below.of_covers_cons {x : α} (h : Below key d (a ++ x :: b)) (hx : Covers key a (key x)) :
    Below key d (a ++ b) := by
  refine h.trans (append_below.mpr ⟨below_append_left a b, below_iff.mpr ?_⟩)
  rintro y hy
  rcases List.mem_cons.mp hy with rfl | hy
  · exact covers_append.mpr (Or.inl hx)
  · exact covers_append.mpr (Or.inr ⟨y, hy, le_rfl⟩)

theorem below_nil (h : Below key a []) : a = [] := by
  refine List.eq_nil_iff_forall_not_mem.mpr fun x hx => ?_
  obtain ⟨y, hy, -⟩ := below_iff.mp h x hx
  cases hy

/-- Each has what every one had, and nobody has anything else. -/
theorem covers_iff_of_spread {group : List ι} {before after : ι → List α}
    (hspread : ∀ p ∈ group, ∀ q ∈ group, Below key (before p) (after q))
    (hsource : ∀ q ∈ group, Below key (after q) (group.flatMap before)) {q : ι} (hq : q ∈ group)
    (c : κ) : Covers key (after q) c ↔ Covers key (group.flatMap before) c := by
  refine ⟨hsource q hq c, fun h => ?_⟩
  obtain ⟨x, hx, hle⟩ := h
  obtain ⟨p, hp, hx⟩ := List.mem_flatMap.mp hx
  exact hspread p hp q hq c ⟨x, hx, hle⟩

end Maxima
