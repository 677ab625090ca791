import JobMarkup.Proofs.HighlightOrder
import Mathlib.Data.Set.Function

/-!
# Reading the relative form back

An editor reads the relative form five numbers at a time and adds up where highlights begin. So what
is read never begins in front of what has been read before. Highlights with numbers of 32 bits are
got back from their relative form if and only if they are in this order; equal beginnings are allowed.

The relative form of highlights in a row falls into the forms of the first ones and of those behind,
which are written relative to the last one in front.
-/

namespace JobMarkup

/-- The category of a number is the one whose name stands at this place of the legend. -/
theorem Category.ofIndex?_eq_bind_legend (n : Nat) :
    ofIndex? n = legend[n]?.bind ofName? := by
  rw [legend, List.getElem?_map, Option.bind_map, ofIndex?]
  have hname : ofName? ∘ name = some := funext ofName?_name
  rw [hname, Option.bind_fun_some]

namespace Highlight

/-- The numbers of the highlight have 32 bits. -/
def HasNumbers (highlight : Highlight) : Prop :=
  highlight.line < 2 ^ 32 ∧ highlight.start < 2 ^ 32 ∧ highlight.length < 2 ^ 32

/-- No highlight begins in front of the one before it, and all numbers have 32 bits. -/
structure AreOrdered (highlights : List Highlight) : Prop where
  sorted : highlights.Pairwise fun a b => a.first ≤ b.first
  hasNumbers : ∀ highlight ∈ highlights, highlight.HasNumbers

/-- Where the last of some highlights begins, or the given position if there is none. -/
def lastFirst (before : Position) (highlights : List Highlight) : Position :=
  (highlights.getLast?.map first).getD before

/-- Behind a first highlight, the last start is found among it and the others. -/
theorem lastFirst_cons (before : Position) (highlight : Highlight) (rest : List Highlight) :
    lastFirst before (highlight :: rest) = lastFirst highlight.first rest := by
  rw [lastFirst, List.getLast?_cons, lastFirst]
  cases rest.getLast? <;> rfl

variable {before : Position} {highlights : List Highlight}

/-- No position is in front of the origin. -/
theorem origin_le (position : Position) : (⟨0, 0⟩ : Position) ≤ position := by
  rw [Position.le_def]
  dsimp only
  omega

/-! ## Writing -/

/-- The highlights behind some others are written relative to the last of these. -/
theorem encodeFrom_append (before : Position) (front behind : List Highlight) :
    encodeFrom before (front ++ behind)
      = encodeFrom before front ++ encodeFrom (lastFirst before front) behind := by
  induction front generalizing before with
  | nil => rfl
  | cons highlight rest ih =>
    have hrest := ih highlight.first
    rw [first] at hrest
    rw [List.cons_append, encodeFrom, encodeFrom, hrest, lastFirst_cons, first, List.append_assoc]

/-- All numbers of the relative form have 32 bits. -/
theorem le_maxNumber_of_mem_encodeFrom :
    ∀ number ∈ encodeFrom before highlights, number ≤ maxNumber := by
  induction highlights generalizing before with
  | nil => exact List.forall_mem_nil _
  | cons highlight rest ih =>
    have hindex : highlight.category.index ≤ maxNumber := by
      cases highlight.category <;> decide
    refine List.forall_mem_append.mpr ⟨?_, ih⟩
    simp [relativeNumbers, hindex]

/-! ## Reading -/

/-- What is read begins behind the given position or there, and none in front of one before it. -/
theorem pairwise_of_decodeFrom {numbers : List Nat}
    (h : decodeFrom before numbers = some highlights) :
    (before :: highlights.map first).Pairwise (· ≤ ·) := by
  fun_induction decodeFrom before numbers generalizing highlights with
  | case1 before =>
    obtain rfl := Option.some.inj h
    exact List.pairwise_singleton _ _
  | case2 before down right length index _ rest line start =>
    rename_i ih
    obtain ⟨category, -, h⟩ := Option.bind_eq_some_iff.mp h
    obtain ⟨others, hothers, h⟩ := Option.bind_eq_some_iff.mp h
    obtain rfl := Option.some.inj h
    have hbefore : before ≤ ⟨line, start⟩ := by
      rw [Position.le_def]
      dsimp only [line, start]
      split <;> omega
    have hrest := ih hothers
    refine List.pairwise_cons.mpr ⟨List.forall_mem_cons.mpr ⟨hbefore, fun position hmem => ?_⟩, hrest⟩
    exact hbefore.trans (List.rel_of_pairwise_cons hrest hmem)
  | case3 => simp at h

/-- Highlights in order are got back. -/
theorem AreOrdered.decode_encode (h : AreOrdered highlights) :
    decode (encode highlights) = some highlights := by
  refine decodeFrom_encodeFrom (fun highlight _ => origin_le highlight.first) h.sorted
    fun highlight hmem => ?_
  obtain ⟨hline, hstart, hlength⟩ := h.hasNumbers highlight hmem
  simp only [maxNumber]
  omega

/-- The relative form can be read back exactly if the highlights are in order. Let all numbers of the
highlights have 32 bits. Then reading gives the same highlights if and only if none of them begins in
front of the one before it; two may begin at one place. So no two such lists have one relative form.
The form has five numbers for each highlight, each of 32 bits, and a category is read by its place in
the legend. Highlights that follow others are written relative to the last of these, as they are
behind it alone. -/
theorem encode_invertible :
    (∀ highlights : List Highlight, (∀ highlight ∈ highlights, highlight.HasNumbers) →
        (decode (encode highlights) = some highlights
          ↔ highlights.Pairwise fun a b => a.line < b.line ∨ (a.line = b.line ∧ a.start ≤ b.start)))
      ∧ Set.InjOn encode {highlights | AreOrdered highlights}
      ∧ (∀ highlights, (encode highlights).length = 5 * highlights.length
        ∧ ∀ number ∈ encode highlights, number < 2 ^ 32)
      ∧ (∀ n, Category.ofIndex? n = Category.legend[n]?.bind Category.ofName?)
      ∧ (∀ front behind, encode (front ++ behind)
        = encode front ++ encodeFrom (lastFirst ⟨0, 0⟩ front) behind)
      ∧ ∀ last behind, encodeFrom last.first behind = (encode (last :: behind)).drop 5 := by
  refine ⟨fun highlights hnumbers => ⟨fun hread => ?_, fun hsorted => ?_⟩, ?_, fun highlights => ⟨?_, ?_⟩,
    Category.ofIndex?_eq_bind_legend, encodeFrom_append ⟨0, 0⟩, fun last behind => rfl⟩
  · exact List.pairwise_map.mp (List.pairwise_cons.mp (pairwise_of_decodeFrom hread)).2
  · exact AreOrdered.decode_encode ⟨hsorted, hnumbers⟩
  · intro a ha b hb heq
    have hread := congrArg decode heq
    rw [AreOrdered.decode_encode ha, AreOrdered.decode_encode hb] at hread
    exact Option.some.inj hread
  · exact length_encodeFrom ⟨0, 0⟩ highlights
  · intro number hmem
    exact Nat.lt_of_le_of_lt (le_maxNumber_of_mem_encodeFrom number hmem) (by decide)

/-- Two highlights at one place, an empty one, and the largest number. -/
theorem encode_invertible_samePlace :
    encode [⟨.element, 0, 3, 2⟩, ⟨.string, 0, 3, 0⟩, ⟨.comment, 4294967295, 1, 5⟩]
        = [0, 3, 2, 1, 0, 0, 0, 0, 4, 0, 4294967295, 1, 5, 0, 0]
      ∧ decode (encode [⟨.element, 0, 3, 2⟩, ⟨.string, 0, 3, 0⟩, ⟨.comment, 4294967295, 1, 5⟩])
        = some [⟨.element, 0, 3, 2⟩, ⟨.string, 0, 3, 0⟩, ⟨.comment, 4294967295, 1, 5⟩] := by
  refine ⟨by decide, (encode_invertible.1 _ ?_).mpr ?_⟩
  · simp [HasNumbers]
  · simp

end Highlight

end JobMarkup
