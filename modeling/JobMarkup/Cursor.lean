import JobMarkup.Token.Stream

/-!
# Cursors

A cursor stands at an item and looks ahead without moving: its reach tells how many items beyond
the one it stands at it takes in. Consuming gives the stretch of items that it takes in and moves
behind them. What the items are is the matter of a window, which answers for any index, also behind
the last item.
-/

namespace JobMarkup

/-- Access to items by their index, and to stretches from a first to a last index. -/
structure Window (Item Stretch : Type) where
  get : Nat → Item
  build : (first last : Nat) → Stretch

/-- A place in a sequence of items, and how far ahead it takes in. -/
structure Cursor where
  position : Nat := 0
  reach : Nat := 0
deriving DecidableEq

namespace Cursor

/-- The index of the last item that the cursor takes in. -/
def head (cursor : Cursor) : Nat := cursor.position + cursor.reach

/-- The cursor takes in more than one item. -/
def isReaching (cursor : Cursor) : Bool := 0 < cursor.reach

/-- The item a number of places beyond the last one taken in. -/
def peek {Item Stretch : Type} (cursor : Cursor) (window : Window Item Stretch) (ahead : Nat) :
    Item :=
  window.get (cursor.head + ahead)

/-- Take in more items. -/
def grow (cursor : Cursor) (count : Nat) : Cursor := { cursor with reach := cursor.reach + count }

/-- Take in fewer items, and tell whether there were as many. -/
def shrink (cursor : Cursor) (count : Nat) : Bool × Cursor :=
  (decide (count ≤ cursor.reach), { cursor with reach := cursor.reach - count })

/-- Take in more items, and move behind all that are taken in. -/
def consume {Item Stretch : Type} (cursor : Cursor) (window : Window Item Stretch) (count : Nat) :
    Stretch × Cursor :=
  let last := cursor.head + count
  (window.build cursor.position last, { position := last + 1 })

/-- Move to an item. -/
def moveTo (position : Nat) : Cursor := { position }

/-- Take in no more than the item that the cursor stands at. -/
def drop (cursor : Cursor) : Cursor := { cursor with reach := 0 }

/-- Taking in more items does not move the cursor, so giving them up leads back to the same place. -/
theorem drop_grow (cursor : Cursor) (count : Nat) : (cursor.grow count).drop = cursor.drop := rfl

end Cursor

/-- A stretch of characters that need not all be there. -/
structure CharStretch where
  offset : Nat
  length : Nat
  span : Span
deriving DecidableEq

/-- The characters of a text; behind the last one stand zero characters. -/
def SourceText.window (text : SourceText) : Window Char CharStretch where
  get index := (text.charAt index).getD '\x00'
  build first last := ⟨first, last - first + 1, text.spanOf first last⟩

/-- The tokens of a stream, where the end of the text goes on for ever. -/
def TokenStream.window (stream : TokenStream) : Window Token (List Token) where
  get index := stream.toList[index]?.getD stream.endToken
  build first last :=
    let final := stream.tokens.length
    (stream.toList.drop (min first final)).take (min last final - min first final + 1)

namespace TokenStream

variable (stream : TokenStream) {first last : Nat}

/-- The tokens between two indices are a stretch of all tokens, the end token included, where an
index behind the end stands for the end token. -/
theorem build_window_eq (first last : Nat) :
    stream.window.build first last
      = (stream.toList.drop (min first stream.tokens.length)).take
        (min last stream.tokens.length - min first stream.tokens.length + 1) :=
  rfl

/-- Up to the end of a stream, a stretch of tokens is what stands in the stream. -/
theorem build_window (hle : first ≤ last) (hlt : last < stream.length) :
    stream.window.build first last = (stream.toList.drop first).take (last - first + 1) := by
  have hlast : last ≤ stream.tokens.length := Nat.le_of_lt_succ hlt
  have hfirst : first ≤ stream.tokens.length := Nat.le_trans hle hlast
  rw [build_window_eq, Nat.min_eq_left hfirst, Nat.min_eq_left hlast]

/-- A stretch of tokens has the tokens from its first to its last index, both bounded by the index of
the end. -/
theorem length_build_window (hle : first ≤ last) :
    (stream.window.build first last).length
      = min last stream.tokens.length - min first stream.tokens.length + 1 := by
  rw [build_window_eq, List.length_take, List.length_drop, length_toList, length]
  omega

/-- Whatever indices a cursor asks for, it is given tokens that stand in a row in the stream. -/
theorem build_window_isInfix (first last : Nat) :
    stream.window.build first last <:+: stream.toList :=
  (List.take_prefix _ _).isInfix.trans (List.drop_suffix _ _).isInfix

/-- Behind the last token, a stretch is the end of the stream. -/
theorem build_window_of_le (h : stream.tokens.length ≤ first) (hle : first ≤ last) :
    stream.window.build first last = [stream.endToken] := by
  rw [build_window_eq, Nat.min_eq_right h, Nat.min_eq_right (Nat.le_trans h hle), Nat.sub_self, toList,
    List.drop_left]
  rfl

end TokenStream

end JobMarkup
