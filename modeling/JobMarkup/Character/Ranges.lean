/-!
# Sets of code points as ranges

A set of code points is given as a list of ranges, each by its first and last member, in ascending
order. A look-up stops at the first range that begins behind the code point, which is right because
of the order: `inRanges_iff`.
-/

namespace JobMarkup.Character

/-- Membership in an ascending list of ranges. -/
def inRanges : List (Nat × Nat) → Nat → Bool
  | [], _ => false
  | (first, last) :: rest, n => first ≤ n && (n ≤ last || inRanges rest n)

/-- Each range begins no later than those behind it. -/
def Ascending (ranges : List (Nat × Nat)) : Prop := ranges.Pairwise fun a b => a.1 ≤ b.1

/-- The code points of an ascending list are those that lie in one of its ranges. -/
theorem inRanges_iff {ranges : List (Nat × Nat)} (h : Ascending ranges) (n : Nat) :
    inRanges ranges n = true ↔ ∃ range ∈ ranges, range.1 ≤ n ∧ n ≤ range.2 := by
  induction ranges with
  | nil => simp [inRanges]
  | cons range rest ih =>
    obtain ⟨first, last⟩ := range
    obtain ⟨hfirst, hrest⟩ := List.pairwise_cons.mp h
    simp only [inRanges, Bool.and_eq_true, Bool.or_eq_true, decide_eq_true_eq, ih hrest]
    constructor
    · rintro ⟨hle, hlast | ⟨range, hmem, hrange⟩⟩
      · exact ⟨(first, last), List.mem_cons_self, hle, hlast⟩
      · exact ⟨range, List.mem_cons_of_mem _ hmem, hrange⟩
    · rintro ⟨range, hmem, hle, hlast⟩
      rcases List.mem_cons.mp hmem with rfl | hmem
      · exact ⟨hle, Or.inl hlast⟩
      · exact ⟨Nat.le_trans (hfirst range hmem) hle, Or.inr ⟨range, hmem, hle, hlast⟩⟩

/-- The members of the first two ranges are in the list, whatever ranges follow. -/
theorem inRanges_of_first_two {a b c d n : Nat} {rest : List (Nat × Nat)} (hab : a ≤ b)
    (hbc : b < c) (h : (a ≤ n ∧ n ≤ b) ∨ (c ≤ n ∧ n ≤ d)) :
    inRanges ((a, b) :: (c, d) :: rest) n = true := by
  simp only [inRanges, Bool.and_eq_true, Bool.or_eq_true, decide_eq_true_eq]
  omega

end JobMarkup.Character
