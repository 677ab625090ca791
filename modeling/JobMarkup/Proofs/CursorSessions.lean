import JobMarkup.Cursor
import JobMarkup.Proofs.Positions
import Mathlib.Data.List.Basic

/-!
# What is asked of a cursor

Whatever a cursor is asked for, it moves by consuming alone. Looking ahead leaves it as it is, and what
it has taken in beyond the item that it stands at can be dropped again, so a look into the items behind
it has no later consequence. What a cursor consumes begins where it stands, and the next stretch begins
right behind: from a first item on, the stretches are ranges of indices without a gap, up to the place
where the cursor stands. So they are, one after the other, the tokens of a stream or the characters of
a text up to this place.

A cursor may be asked for items behind the last one. There the tokens of a stream go on with its end, so
a stretch of tokens is never empty, and the positions of a text go on along its last line, so the span
of a stretch of characters never ends before it starts.
-/

namespace JobMarkup

namespace Cursor

/-- A stretch does not end in front of where the cursor stands. -/
theorem position_le_head_add (cursor : Cursor) (count : Nat) :
    cursor.position ≤ cursor.head + count :=
  Nat.le_trans (Nat.le_add_right _ _) (Nat.le_add_right _ _)

/-! ## Sessions -/

/-- What a cursor is asked for, short of moving to an item. -/
inductive Request where
  | peek (ahead : Nat)
  /-- Tell the place of the cursor, the last index that it takes in, and whether this is another. -/
  | tell
  | grow (count : Nat)
  | shrink (count : Nat)
  | consume (count : Nat)
  | drop
deriving DecidableEq

/-- The request changes nothing about a cursor. -/
def Request.isLook : Request → Bool
  | .peek _ => true
  | .tell => true
  | _ => false

/-- What is given to a request. -/
inductive Answer (Item Stretch : Type) where
  | item (item : Item)
  | place (position head : Nat) (isReaching : Bool)
  | enough (areThere : Bool)
  | stretch (stretch : Stretch)
  | done
deriving DecidableEq

/-- The stretch that has been consumed. -/
def Answer.stretch? {Item Stretch : Type} : Answer Item Stretch → Option Stretch
  | .stretch taken => some taken
  | _ => none

section

variable {Item Stretch : Type} (window : Window Item Stretch)

/-- Answer a request. -/
def answer (cursor : Cursor) : Request → Answer Item Stretch × Cursor
  | .peek ahead => (.item (cursor.peek window ahead), cursor)
  | .tell => (.place cursor.position cursor.head cursor.isReaching, cursor)
  | .grow count => (.done, cursor.grow count)
  | .shrink count => (cursor.shrink count).map .enough id
  | .consume count => (cursor.consume window count).map .stretch id
  | .drop => (.done, cursor.drop)

/-- Answer requests one after the other. -/
def session (cursor : Cursor) : List Request → List (Answer Item Stretch) × Cursor
  | [] => ([], cursor)
  | request :: rest =>
    let given := answer window cursor request
    let others := session given.2 rest
    (given.1 :: others.1, others.2)

/-- The stretches that are consumed in a session. -/
def stretches (cursor : Cursor) (requests : List Request) : List Stretch :=
  (session window cursor requests).1.filterMap Answer.stretch?

/-- A session may be cut anywhere: its second part goes on with the cursor that the first part
leaves. -/
theorem session_append (cursor : Cursor) (first second : List Request) :
    session window cursor (first ++ second)
      = ((session window cursor first).1
          ++ (session window (session window cursor first).2 second).1,
        (session window (session window cursor first).2 second).2) := by
  induction first generalizing cursor with
  | nil => rfl
  | cons request rest ih =>
    rw [List.cons_append, session, ih]
    rfl

/-- Each request is given one answer. -/
theorem length_session (cursor : Cursor) (requests : List Request) :
    (session window cursor requests).1.length = requests.length := by
  induction requests generalizing cursor with
  | nil => rfl
  | cons request rest ih => exact congrArg (· + 1) (ih _)

/-! ## Speculation -/

/-- A request other than to consume does not move a cursor. -/
theorem position_answer (cursor : Cursor) {request : Request}
    (h : ∀ count, .consume count ≠ request) :
    (answer window cursor request).2.position = cursor.position := by
  cases request with
  | consume count => exact absurd rfl (h count)
  | _ => rfl

/-- Nothing but consuming moves a cursor. -/
theorem position_session (cursor : Cursor) {requests : List Request}
    (h : ∀ count, .consume count ∉ requests) :
    (session window cursor requests).2.position = cursor.position := by
  induction requests generalizing cursor with
  | nil => rfl
  | cons request rest ih =>
    have hfirst : ∀ count, .consume count ≠ request := by
      intro count heq
      exact h count (heq ▸ List.mem_cons_self)
    have hrest : ∀ count, .consume count ∉ rest := by
      intro count hmem
      exact h count (List.mem_cons_of_mem _ hmem)
    exact (ih (answer window cursor request).2 hrest).trans
      (position_answer window cursor hfirst)

/-- Requests that a cursor comes back from: looks, or whatever does not consume and is dropped at the
end, if the cursor has taken in no item before. -/
inductive Idle (cursor : Cursor) : List Request → Prop
  | looks {requests : List Request} (h : ∀ request ∈ requests, request.isLook = true) :
    Idle cursor requests
  | dropped {requests : List Request} (hreach : cursor.reach = 0)
    (h : ∀ count, .consume count ∉ requests) : Idle cursor (requests ++ [.drop])

/-- A look leaves the cursor as it is. -/
theorem answer_of_isLook (cursor : Cursor) {request : Request} (h : request.isLook = true) :
    (answer window cursor request).2 = cursor := by
  cases request with
  | peek ahead => rfl
  | tell => rfl
  | _ => exact absurd h Bool.false_ne_true

/-- A session of looks leaves the cursor as it is, however many there are. -/
theorem session_of_looks (cursor : Cursor) {requests : List Request}
    (h : ∀ request ∈ requests, request.isLook = true) :
    (session window cursor requests).2 = cursor := by
  induction requests generalizing cursor with
  | nil => rfl
  | cons request rest ih =>
    obtain ⟨hfirst, hrest⟩ := List.forall_mem_cons.mp h
    exact (ih (answer window cursor request).2 hrest).trans (answer_of_isLook window cursor hfirst)

/-- A cursor comes back from idle requests as it was. -/
theorem session_of_idle {cursor : Cursor} {requests : List Request} (h : Idle cursor requests) :
    (session window cursor requests).2 = cursor := by
  cases h with
  | looks h => exact session_of_looks window cursor h
  | @dropped requests hreach h =>
    have hposition := position_session window cursor h
    obtain ⟨position, reach⟩ := cursor
    obtain rfl : reach = 0 := hreach
    rw [session_append]
    exact congrArg (Cursor.mk · 0) hposition

/-- Idle requests change no later answer. -/
theorem session_insert {cursor : Cursor} {requests inserted : List Request}
    (h : Idle (session window cursor requests).2 inserted) (behind : List Request) :
    ∃ told later last, told.length = inserted.length
      ∧ session window cursor (requests ++ behind)
        = ((session window cursor requests).1 ++ later, last)
      ∧ session window cursor (requests ++ inserted ++ behind)
        = ((session window cursor requests).1 ++ told ++ later, last) := by
  refine ⟨(session window (session window cursor requests).2 inserted).1, _, _,
    length_session window _ inserted, session_append window cursor requests behind, ?_⟩
  rw [session_append window cursor (requests ++ inserted), session_append window cursor requests,
    session_of_idle window h]

end

/-! ## Ranges of indices -/

/-- The indices as items. A stretch is then its first and its last index. -/
def indices : Window Nat (Nat × Nat) where
  get := id
  build := Prod.mk

/-- The ranges of indices that are consumed in a session. -/
def consumed (cursor : Cursor) (requests : List Request) : List (Nat × Nat) :=
  stretches indices cursor requests

/-- The cursor that a session leaves. -/
def after (cursor : Cursor) (requests : List Request) : Cursor :=
  (session indices cursor requests).2

/-- The answer with the items of a window in place of their indices. -/
def Answer.read {Item Stretch : Type} (window : Window Item Stretch) :
    Answer Nat (Nat × Nat) → Answer Item Stretch
  | .item index => .item (window.get index)
  | .place position head isReaching => .place position head isReaching
  | .enough areThere => .enough areThere
  | .stretch range => .stretch (window.build range.1 range.2)
  | .done => .done

section

variable {Item Stretch : Type} (window : Window Item Stretch)

/-- An answer about items is the answer about their indices, with the items put in, so the cursor
moves without regard to the items. -/
theorem answer_eq_read (cursor : Cursor) (request : Request) :
    answer window cursor request
      = ((answer indices cursor request).1.read window, (answer indices cursor request).2) := by
  cases request <;> rfl

/-- What the items are is of no matter to a cursor. -/
theorem session_eq_read (cursor : Cursor) (requests : List Request) :
    session window cursor requests
      = ((session indices cursor requests).1.map (Answer.read window), after cursor requests) := by
  induction requests generalizing cursor with
  | nil => rfl
  | cons request rest ih =>
    rw [session, answer_eq_read, ih]
    rfl

/-- The stretch that is consumed is built from the range of indices that is consumed. -/
theorem stretch?_read (given : Answer Nat (Nat × Nat)) :
    (given.read window).stretch?
      = given.stretch?.map fun range => window.build range.1 range.2 := by
  cases given <;> rfl

/-- The stretches of a session are those of the ranges of indices. -/
theorem stretches_eq (cursor : Cursor) (requests : List Request) :
    stretches window cursor requests
      = (consumed cursor requests).map fun range => window.build range.1 range.2 := by
  rw [stretches, session_eq_read, List.filterMap_map, consumed, stretches, List.map_filterMap]
  exact List.filterMap_congr fun given _ => stretch?_read window given

end

/-- Ranges of indices, the first from an index on and each further one right behind the one before, up
to an index that is in none of them. -/
inductive Tiles : (first : Nat) → List (Nat × Nat) → (behind : Nat) → Prop
  | nil (first : Nat) : Tiles first [] first
  | cons {first last behind : Nat} {ranges : List (Nat × Nat)} (hle : first ≤ last)
    (hranges : Tiles (last + 1) ranges behind) : Tiles first ((first, last) :: ranges) behind

/-- What a cursor consumes goes without a gap from where it stands to where the session leaves it. -/
theorem tiles_consumed (cursor : Cursor) (requests : List Request) :
    Tiles cursor.position (consumed cursor requests) (after cursor requests).position := by
  induction requests generalizing cursor with
  | nil => exact .nil _
  | cons request rest ih =>
    have hrest := ih (answer indices cursor request).2
    cases request with
    | consume count => exact .cons (cursor.position_le_head_add count) hrest
    | _ => exact hrest

namespace Tiles

variable {first behind : Nat} {ranges : List (Nat × Nat)}

/-- Ranges in a row end no earlier than they start. -/
theorem le (h : Tiles first ranges behind) : first ≤ behind := by
  induction h with
  | nil => exact Nat.le_refl _
  | cons hle _ ih => omega

/-- Parts of a list for ranges without a gap are one part of the list. -/
theorem flatMap_eq {α : Type} {xs : List α} {part : Nat × Nat → List α}
    (h : Tiles first ranges behind)
    (hpart : ∀ {first last}, first ≤ last → last < behind →
      part (first, last) = (xs.drop first).take (last - first + 1)) :
    ranges.flatMap part = (xs.drop first).take (behind - first) := by
  induction h with
  | nil first => rw [Nat.sub_self, List.take_zero, List.flatMap_nil]
  | @cons first last behind ranges hle hranges ih =>
    have hlt : last < behind := hranges.le
    have hdrop : xs.drop (last + 1) = (xs.drop first).drop (last - first + 1) := by
      rw [List.drop_drop]
      congr 1
      omega
    have hlength : behind - first = (last - first + 1) + (behind - (last + 1)) := by omega
    rw [List.flatMap_cons, hpart hle hlt, ih hpart, hdrop, hlength,
      List.take_add (i := last - first + 1)]

end Tiles

end Cursor

/-! ## Stretches of tokens and of characters -/

namespace SourceText

variable (text : SourceText)

/-- The characters of a stretch are those that are there. -/
theorem slice_build_window (first last : Nat) :
    text.slice (text.window.build first last).offset (text.window.build first last).length
      = (text.chars.drop first).take (last - first + 1) :=
  rfl

/-- The span of a stretch of characters has its ends in order, even behind the end of the text. -/
theorem ordered_build_window {first last : Nat} (hle : first ≤ last) :
    (text.window.build first last).span.Ordered :=
  text.locate_mono hle

end SourceText

namespace Cursor

/-- The tokens that are consumed are the first ones of the stream. -/
theorem flatten_stretches (stream : TokenStream) {requests : List Request}
    (h : (after {} requests).position ≤ stream.length) :
    (stretches stream.window {} requests).flatten
      = stream.toList.take (after {} requests).position := by
  rw [stretches_eq, ← List.flatMap_def]
  exact (tiles_consumed {} requests).flatMap_eq fun hle hlt =>
    stream.build_window hle (Nat.lt_of_lt_of_le hlt h)

/-- The characters that are consumed are the first ones of the text. -/
theorem flatMap_slice_stretches (text : SourceText) (requests : List Request) :
    ((stretches text.window {} requests).flatMap fun stretch =>
        text.slice stretch.offset stretch.length)
      = text.chars.take (after {} requests).position := by
  rw [stretches_eq, List.flatMap_map]
  exact (tiles_consumed {} requests).flatMap_eq fun _ _ => text.slice_build_window _ _

/-! ## Sessions of a fresh cursor -/

/-- Nothing but consuming moves a cursor. Looks, and whatever does not consume and is dropped again
before the cursor has taken in any item, change no later answer. Consuming gives the stretch from where
the cursor stands to the last item that it takes in then, and leaves it right behind. So what a fresh
cursor has consumed are ranges of indices without a gap, up to where it stands: the first tokens of a
stream, as long as it has not passed the end, and the first characters of a text. Wherever a cursor
stands, a stretch of tokens is a part of the stream that is not empty, and nothing but the end of the
stream behind all other tokens; and the span of a stretch of characters does not end before it starts. -/
theorem session_partitions {Item Stretch : Type} (window : Window Item Stretch) (text : SourceText)
    (stream : TokenStream) (requests : List Request) :
    (∀ cursor, (∀ count, .consume count ∉ requests) →
        (session window cursor requests).2.position = cursor.position)
      ∧ (session window {} requests).2 = after {} requests
      ∧ (∀ inserted behind, Idle (after {} requests) inserted →
        ∃ told later last, told.length = inserted.length
          ∧ session window {} (requests ++ behind)
            = ((session window {} requests).1 ++ later, last)
          ∧ session window {} (requests ++ inserted ++ behind)
            = ((session window {} requests).1 ++ told ++ later, last))
      ∧ (∀ count, session window {} (requests ++ [.consume count])
        = ((session window {} requests).1 ++ [.stretch (window.build (after {} requests).position
            ((after {} requests).head + count))],
          .moveTo ((after {} requests).head + count + 1)))
      ∧ stretches window {} requests
        = (consumed {} requests).map (fun range => window.build range.1 range.2)
      ∧ Tiles 0 (consumed {} requests) (after {} requests).position
      ∧ ((after {} requests).position ≤ stream.length →
        (stretches stream.window {} requests).flatten
          = stream.toList.take (after {} requests).position)
      ∧ ((stretches text.window {} requests).flatMap fun stretch =>
          text.slice stretch.offset stretch.length)
        = text.chars.take (after {} requests).position
      ∧ (∀ (cursor : Cursor) count, (cursor.consume stream.window count).1 ≠ []
        ∧ (cursor.consume stream.window count).1 <:+: stream.toList
        ∧ (cursor.consume stream.window count).1.length
          = min (cursor.head + count) stream.tokens.length
            - min cursor.position stream.tokens.length + 1
        ∧ (stream.tokens.length ≤ cursor.position →
          (cursor.consume stream.window count).1 = [stream.endToken]))
      ∧ ∀ (cursor : Cursor) count, (cursor.consume text.window count).1.span.Ordered := by
  have hleft : (session window {} requests).2 = after {} requests := by rw [session_eq_read]
  refine ⟨fun cursor h => position_session window cursor h, hleft, fun inserted behind h => ?_,
    fun count => ?_, stretches_eq window {} requests, tiles_consumed {} requests,
    flatten_stretches stream, flatMap_slice_stretches text requests, fun cursor count => ?_,
    fun cursor count => text.ordered_build_window (cursor.position_le_head_add count)⟩
  · rw [← hleft] at h
    exact session_insert window h behind
  · rw [session_append, hleft]
    rfl
  · have hle := cursor.position_le_head_add count
    have hlength := stream.length_build_window hle
    refine ⟨?_, stream.build_window_isInfix _ _, hlength,
      fun h => stream.build_window_of_le h hle⟩
    exact List.ne_nil_of_length_pos (hlength ▸ Nat.succ_pos _)

/-- Two stretches of two tokens each, and behind them a look at more items than there are. -/
theorem session_partitions_twoStretches :
    let text := SourceText.ofString (.ofNat 0) "a b.c"
    let requests : List Request := [.grow 1, .consume 0, .consume 1]
    let looks : List Request := [.peek 2, .grow 7, .tell, .shrink 9]
    (∀ count, .consume count ∉ looks)
      ∧ (session text.window (.moveTo 4) looks).2.position = 4
      ∧ Idle (after {} requests) (looks ++ [.drop])
      ∧ (∃ told, session text.tokens.window {} (requests ++ (looks ++ [.drop]) ++ [.peek 0])
        = ((session text.tokens.window {} requests).1 ++ told ++ [.item (text.tokens.window.get 4)],
          .moveTo 4))
      ∧ consumed {} requests = [(0, 1), (2, 3)]
      ∧ (after {} requests).position ≤ text.tokens.length
      ∧ (stretches text.tokens.window {} requests).flatten = text.tokens.toList.take 4
      ∧ text.tokens.tokens.length ≤ (Cursor.moveTo 5).position
      ∧ ((Cursor.moveTo 5).consume text.tokens.window 3).1 = [text.tokens.endToken] := by
  intro text requests looks
  have hlooks : ∀ count, .consume count ∉ looks := by simp [looks]
  have hidle : Idle (after {} requests) (looks ++ [.drop]) := .dropped rfl hlooks
  have hlength : text.tokens.tokens.length = 5 := by decide +kernel
  have hposition : (after {} requests).position ≤ text.tokens.length := by
    rw [TokenStream.length, hlength]
    decide
  obtain ⟨-, -, hinsert, -, -, -, htokens, -, hbounds, -⟩ :=
    session_partitions text.tokens.window text text.tokens requests
  obtain ⟨hstays, -⟩ := session_partitions text.window text text.tokens looks
  obtain ⟨told, later, last, -, hplain, hinserted⟩ := hinsert _ [.peek 0] hidle
  rw [session_append] at hplain
  obtain ⟨hlater, hlast⟩ := Prod.mk.inj hplain
  refine ⟨hlooks, hstays (.moveTo 4) hlooks, hidle, ⟨told, ?_⟩, rfl, hposition, htokens hposition,
    Nat.le_of_eq hlength, (hbounds (.moveTo 5) 3).2.2.2 (Nat.le_of_eq hlength)⟩
  have hitem : later = [.item (text.tokens.window.get 4)] := (List.append_cancel_left hlater).symm
  rw [hinserted, hitem, ← hlast]
  rfl

end Cursor

end JobMarkup
