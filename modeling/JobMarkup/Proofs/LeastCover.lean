import JobMarkup.Proofs.Extents
import JobMarkup.Proofs.Positions
import Mathlib.Order.Bounds.Basic

/-!
# The least span that covers others

Spans of one document are covered from the least of their starts to the greatest of their stops. This
depends on which spans they are and on nothing else: not on their order, on how often each is given,
or on how they are grouped. Spans of several documents have no cover.

Spans are taken in one after the other, and what is covered so far is always the least cover of the
spans so far.
-/

namespace JobMarkup.Span

variable {document : DocumentId} {a b c covered span : Span} {members others : Set Span}
  {spans front behind : List Span}

/-! ## Joining two spans -/

/-- Spans of one document are joined, and no others. -/
theorem union_eq_ok_iff {whole : Span} :
    a.union b = .ok whole ↔ a.document = b.document ∧ whole = a.join b := by
  rw [union]
  split
  · next h => simp [h, join, eq_comm]
  · next h => simp [h]

/-- Two spans have no union exactly if they are of different documents. -/
theorem union_eq_error_iff {cause : RangeError} :
    a.union b = .error cause ↔ a.document ≠ b.document ∧ cause = .documentMismatch := by
  rw [union]
  split
  · next h => simp [h]
  · next h => simp [h, eq_comm]

/-- A union does not depend on the order of its spans, and neither does the error. -/
theorem union_comm (a b : Span) : a.union b = b.union a := by
  by_cases h : a.document = b.document
  · rw [union, union, if_pos h, if_pos h.symm, min_comm, max_comm, h]
  · rw [union, union, if_neg h, if_neg (Ne.symm h)]

/-- A span is its own union. -/
theorem union_self (a : Span) : a.union a = .ok a := by
  rw [union, if_pos rfl, min_self, max_self]

/-- Joining three spans, and refusing them, does not depend on which two are joined first. -/
theorem union_assoc (a b c : Span) :
    (a.union b >>= fun whole => whole.union c) = (b.union c >>= fun whole => a.union whole) := by
  simp only [union]
  by_cases hab : a.document = b.document
  · by_cases hbc : b.document = c.document
    · simp [hab, hbc, bind, Except.bind, min_assoc, max_assoc]
    · simp [hab, hbc, bind, Except.bind]
  · by_cases hbc : b.document = c.document
    · simp [hab, ← hbc, bind, Except.bind]
    · simp [hab, hbc, bind, Except.bind]

/-! ## Least covers -/

/-- A span that runs from the least start of some spans of its document to their greatest stop. -/
structure IsLeastCover (members : Set Span) (covered : Span) : Prop where
  document_eq : ∀ span ∈ members, span.document = covered.document
  start : IsLeast (Span.start '' members) covered.start
  stop : IsGreatest (Span.stop '' members) covered.stop

/-- A span that a span of its document lies in. -/
def Holds (whole part : Span) : Prop :=
  whole.document = part.document ∧ whole.start ≤ part.start ∧ part.stop ≤ whole.stop

namespace IsLeastCover

/-- One span is the least cover of itself. -/
theorem singleton (span : Span) : IsLeastCover {span} span where
  document_eq _ hmem := congrArg Span.document hmem
  start := by
    rw [Set.image_singleton]
    exact isLeast_singleton
  stop := by
    rw [Set.image_singleton]
    exact isGreatest_singleton

/-- The join of two covers covers all that they cover. -/
theorem union (ha : IsLeastCover members a) (hb : IsLeastCover others b)
    (hdocument : a.document = b.document) : IsLeastCover (members ∪ others) (a.join b) where
  document_eq span hmem := by
    rcases hmem with hmem | hmem
    · exact ha.document_eq span hmem
    · exact (hb.document_eq span hmem).trans hdocument.symm
  start := by
    rw [Set.image_union]
    exact ha.start.union hb.start
  stop := by
    rw [Set.image_union]
    exact ha.stop.union hb.stop

/-- There is a least cover only of at least one span, since the least start is the start of one. -/
theorem nonempty (h : IsLeastCover members covered) : ∃ span, span ∈ members := by
  obtain ⟨span, hmem, -⟩ := h.start.1
  exact ⟨span, hmem⟩

/-- There is one least cover at most. -/
theorem unique (ha : IsLeastCover members a) (hb : IsLeastCover members b) : a = b := by
  obtain ⟨span, hmem⟩ := ha.nonempty
  have hdocument := (ha.document_eq span hmem).symm.trans (hb.document_eq span hmem)
  have hstart := ha.start.unique hb.start
  have hstop := ha.stop.unique hb.stop
  cases a
  cases b
  simp_all

/-- A least cover has its ends in order if all spans have, so it is a span again. -/
theorem ordered (h : IsLeastCover members covered) (hordered : ∀ span ∈ members, span.Ordered) :
    covered.Ordered := by
  obtain ⟨span, hmem, hstart⟩ := h.start.1
  have hspan : span.start ≤ span.stop := hordered span hmem
  have hstop : span.stop ≤ covered.stop := h.stop.2 (Set.mem_image_of_mem _ hmem)
  rw [Ordered, ← hstart]
  exact hspan.trans hstop

/-- A span holds the cover exactly if it holds all that is covered. -/
theorem holds_iff (h : IsLeastCover members covered) (whole : Span) :
    whole.Holds covered ↔ ∀ span ∈ members, whole.Holds span := by
  constructor
  · rintro ⟨hdocument, hstart, hstop⟩ span hmem
    refine ⟨hdocument.trans (h.document_eq span hmem).symm, hstart.trans ?_, le_trans ?_ hstop⟩
    · exact h.start.2 (Set.mem_image_of_mem _ hmem)
    · exact h.stop.2 (Set.mem_image_of_mem _ hmem)
  · intro hholds
    obtain ⟨first, hfirst, hstart⟩ := h.start.1
    obtain ⟨last, hlast, hstop⟩ := h.stop.1
    refine ⟨(hholds first hfirst).1.trans (h.document_eq first hfirst), ?_, ?_⟩
    · rw [← hstart]
      exact (hholds first hfirst).2.1
    · rw [← hstop]
      exact (hholds last hlast).2.2

end IsLeastCover

/-! ## Covering spans one after the other -/

/-- Every further span is joined to the least cover of those before it. -/
theorem isLeastCover_foldl (h : IsLeastCover members covered) (hdocument : AreIn covered.document spans) :
    IsLeastCover (members ∪ {span | span ∈ spans}) (spans.foldl join covered) := by
  -- the cover so far is least for the members so far, whatever these are
  induction spans generalizing members covered with
  | nil => simpa using h
  | cons next rest ih =>
    obtain ⟨hnext, hrest⟩ := List.forall_mem_cons.mp hdocument
    have hjoined := h.union (.singleton next) hnext.symm
    have hmembers : members ∪ {span | span ∈ next :: rest}
        = members ∪ {next} ∪ {span | span ∈ rest} := by
      ext span
      simp only [Set.mem_union, Set.mem_ofPred_eq, Set.mem_singleton_iff, List.mem_cons, or_assoc]
    rw [hmembers, List.foldl_cons]
    exact ih hjoined hrest

/-- Spans of one document have the least cover. -/
theorem isLeastCover_of_areIn (h : AreIn document (span :: spans)) :
    IsLeastCover {member | member ∈ span :: spans} (spans.foldl join span) := by
  obtain ⟨hspan, hrest⟩ := List.forall_mem_cons.mp h
  have hmembers : {member | member ∈ span :: spans} = {span} ∪ {member | member ∈ spans} := by
    ext member
    simp
  rw [hmembers]
  exact isLeastCover_foldl (.singleton span) (hspan.symm ▸ hrest)

/-- A span of another document puts an end to covering. -/
theorem cover_of_not_areIn (h : ¬ AreIn span.document spans) : cover (span :: spans) = none := by
  induction spans generalizing span with
  | nil => exact absurd (List.forall_mem_nil _) h
  | cons next rest ih =>
    rw [cover, List.foldlM_cons]
    cases hunion : span.union next with
    | error cause => rfl
    | ok whole =>
      obtain ⟨hdocument, rfl⟩ := union_eq_ok_iff.mp hunion
      exact ih fun hrest => h (List.forall_mem_cons.mpr ⟨hdocument.symm, hrest⟩)

/-- The cover of spans is the least one. -/
theorem cover_eq_some_iff : cover spans = some covered ↔ IsLeastCover {span | span ∈ spans} covered := by
  cases spans with
  | nil =>
    refine iff_of_false (by simp) fun h => ?_
    obtain ⟨span, hmem⟩ := h.nonempty
    exact absurd hmem List.not_mem_nil
  | cons span rest =>
    by_cases h : AreIn span.document (span :: rest)
    · have hleast := isLeastCover_of_areIn h
      rw [cover_cons h, Option.some.injEq]
      exact ⟨fun heq => heq ▸ hleast, hleast.unique⟩
    · have hnone := cover_of_not_areIn fun hrest => h (List.forall_mem_cons.mpr ⟨rfl, hrest⟩)
      refine iff_of_false (by simp [hnone]) fun hleast => h fun other hmem => ?_
      rw [hleast.document_eq other hmem, hleast.document_eq span List.mem_cons_self]

/-- Only no spans, and spans of several documents, have no cover. -/
theorem cover_eq_none_iff_areIn : cover spans = none ↔ spans = [] ∨ ∀ document, ¬ AreIn document spans := by
  constructor
  · intro hnone
    rcases spans with - | ⟨span, rest⟩
    · exact Or.inl rfl
    · exact Or.inr fun document h => by simp [cover_cons h] at hnone
  · rintro (rfl | h)
    · rfl
    · rw [Option.eq_none_iff_forall_ne_some]
      exact fun covered hcover => h covered.document (cover_eq_some_iff.mp hcover).document_eq

/-- The cover depends on which spans are given, not on their order or number. -/
theorem cover_congr {others : List Span} (h : ∀ span, span ∈ others ↔ span ∈ spans) :
    cover others = cover spans := by
  have hmembers : {span | span ∈ others} = {span | span ∈ spans} := Set.ext h
  refine Option.ext fun covered => ?_
  rw [cover_eq_some_iff, cover_eq_some_iff, hmembers]

/-- Two groups of spans of one document are covered by the union of their covers. -/
theorem exists_union_of_append (hfront : front ≠ []) (hbehind : behind ≠ [])
    (h : AreIn document (front ++ behind)) :
    ∃ first last whole, cover front = some first ∧ cover behind = some last
      ∧ first.union last = .ok whole ∧ cover (front ++ behind) = some whole := by
  obtain ⟨hfrontIn, hbehindIn⟩ := areIn_append.mp h
  obtain ⟨span, rest, rfl⟩ := List.exists_cons_of_ne_nil hfront
  obtain ⟨other, others, rfl⟩ := List.exists_cons_of_ne_nil hbehind
  have hwhole := cover_append h
  rw [cover_cons hfrontIn, cover_cons hbehindIn] at hwhole
  refine ⟨_, _, _, cover_cons hfrontIn, cover_cons hbehindIn, union_eq_ok_iff.mpr ⟨?_, rfl⟩, hwhole⟩
  rw [document_foldl_join, document_foldl_join, hfrontIn span List.mem_cons_self,
    hbehindIn other List.mem_cons_self]

/-- Covering starts with the first span. -/
theorem foldlM_extend_some (spans : List Span) (covered : Span) :
    (spans.foldlM extend (some covered)).toOption.join = cover (covered :: spans) := by
  induction spans generalizing covered with
  | nil => rfl
  | cons next rest ih =>
    rw [List.foldlM_cons, cover, List.foldlM_cons, extend]
    cases covered.union next with
    | error cause => rfl
    | ok whole => exact ih whole

/-- Spans are covered one after the other, with nothing covered at first. -/
theorem foldlM_extend (spans : List Span) :
    (spans.foldlM extend none).toOption.join = cover spans := by
  cases spans with
  | nil => rfl
  | cons span rest => exact foldlM_extend_some rest span

/-- The cover of spans is the least span that holds them. There is none exactly if no span is given or
if they belong to several documents, and it is what is got by taking in one span after the other.
Otherwise it is of their document and runs from their least start to their greatest stop, in the order
of reading; spans that do not end in front of their starts have such a cover; and the spans that hold
it are those that hold all of them. So it is the same whatever the order of the spans and however
often each is given, and groups of spans of one document are covered by the union of their covers.
Joining two spans is commutative, associative and idempotent, and it is refused exactly if they are of
two documents. -/
theorem cover_least (spans : List Span) :
    (cover spans = none ↔ spans = [] ∨ ∀ document, ¬ AreIn document spans)
      ∧ cover spans = (spans.foldlM extend none).toOption.join
      ∧ (∀ covered, cover spans = some covered ↔ AreIn covered.document spans
        ∧ IsLeast (Span.start '' {span | span ∈ spans}) covered.start
        ∧ IsGreatest (Span.stop '' {span | span ∈ spans}) covered.stop)
      ∧ (∀ covered, cover spans = some covered →
        ((∀ span ∈ spans, span.Ordered) → covered.Ordered)
          ∧ ∀ whole : Span, whole.Holds covered ↔ ∀ span ∈ spans, whole.Holds span)
      ∧ (∀ others, (∀ span, span ∈ others ↔ span ∈ spans) → cover others = cover spans)
      ∧ (∀ document front behind, spans = front ++ behind → AreIn document spans → front ≠ [] →
        behind ≠ [] → ∃ first last whole, cover front = some first ∧ cover behind = some last
          ∧ first.union last = .ok whole ∧ cover spans = some whole)
      ∧ ∀ a b c : Span, a.union b = b.union a
        ∧ (a.union b >>= fun whole => whole.union c) = (b.union c >>= fun whole => a.union whole)
        ∧ a.union a = .ok a
        ∧ (a.union b = .error .documentMismatch ↔ a.document ≠ b.document) := by
  refine ⟨cover_eq_none_iff_areIn, (foldlM_extend spans).symm, fun covered => ?_, fun covered hcover => ?_,
    fun others => cover_congr, ?_, fun a b c => ⟨union_comm a b, union_assoc a b c, union_self a, ?_⟩⟩
  · rw [cover_eq_some_iff]
    exact ⟨fun h => ⟨h.document_eq, h.start, h.stop⟩, fun h => ⟨h.1, h.2.1, h.2.2⟩⟩
  · have hleast := cover_eq_some_iff.mp hcover
    exact ⟨hleast.ordered, hleast.holds_iff⟩
  · rintro document front behind rfl h hfront hbehind
    exact exists_union_of_append hfront hbehind h
  · simp [union_eq_error_iff]

/-- Spans that overlap, the last one first and given twice. -/
theorem cover_least_outOfOrder :
    let spans : List Span := [⟨.ofNat 0, ⟨1, 0⟩, ⟨2, 1⟩⟩, ⟨.ofNat 0, ⟨0, 5⟩, ⟨1, 2⟩⟩,
      ⟨.ofNat 0, ⟨1, 0⟩, ⟨2, 1⟩⟩]
    cover spans = some ⟨.ofNat 0, ⟨0, 5⟩, ⟨2, 1⟩⟩
      ∧ (⟨.ofNat 0, ⟨0, 5⟩, ⟨2, 1⟩⟩ : Span).Ordered
      ∧ cover spans.dropLast.reverse = some ⟨.ofNat 0, ⟨0, 5⟩, ⟨2, 1⟩⟩ := by
  intro spans
  have hcover : cover spans = some ⟨.ofNat 0, ⟨0, 5⟩, ⟨2, 1⟩⟩ := by decide
  obtain ⟨-, -, -, hbounds, hsame, -, -⟩ := cover_least spans
  refine ⟨hcover, (hbounds _ hcover).1 (by simp [spans, Ordered, Position.le_def]), ?_⟩
  rw [← hcover]
  exact hsame _ (by simp [spans, or_comm])

end JobMarkup.Span
