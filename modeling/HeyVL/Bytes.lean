/-!
Byte strings. Every offset, column and length of the library counts bytes of the UTF-8 source, and
a source need not be valid UTF-8.
-/

namespace HeyVL

abbrev Bytes := List UInt8

/-- A place in a source: the number of newlines before it and the number of bytes since the last
of them. -/
structure Point where
  row : Nat
  column : Nat
deriving DecidableEq, Repr

/-- The place behind one more byte. Only the newline starts a row. -/
def Point.advance (p : Point) (b : UInt8) : Point :=
  if b = 10 then ⟨p.row + 1, 0⟩ else ⟨p.row, p.column + 1⟩

namespace Bytes

/-- The UTF-8 encoding of a text. -/
def ofText (s : String) : Bytes := s.toUTF8.data.toList

/-- The text that the bytes encode, if they are valid UTF-8. -/
def text? (bytes : Bytes) : Option String := String.fromUTF8? ⟨bytes.toArray⟩

/-- The bytes from offset `start` up to, but not including, offset `stop`. -/
def slice (bytes : Bytes) (start stop : Nat) : Bytes :=
  (bytes.drop start).take (stop - start)

/-- The bytes with those from `start` up to `stop` replaced by `inserted`. -/
def splice (bytes : Bytes) (start stop : Nat) (inserted : Bytes) : Bytes :=
  bytes.take start ++ inserted ++ bytes.drop stop

def pointAt (bytes : Bytes) (offset : Nat) : Point :=
  (bytes.take offset).foldl Point.advance ⟨0, 0⟩

/-- The places of all offsets, where `p` is that of the first. -/
def pointsFrom (p : Point) : Bytes → List Point
  | [] => [p]
  | b :: rest => p :: pointsFrom (p.advance b) rest

/-- The places of all offsets up to the end. -/
def points (bytes : Bytes) : Array Point := (pointsFrom ⟨0, 0⟩ bytes).toArray

theorem getD_pointsFrom (bytes : Bytes) (p : Point) (offset : Nat) :
    (pointsFrom p bytes).getD offset (bytes.foldl Point.advance p) =
      (bytes.take offset).foldl Point.advance p := by
  induction bytes generalizing p offset with
  | nil => cases offset <;> simp [pointsFrom]
  | cons b rest ih =>
    cases offset with
    | zero => rfl
    | succ offset => simpa [pointsFrom] using ih (p.advance b) offset

theorem getD_points (bytes : Bytes) (offset : Nat) :
    bytes.points.getD offset (bytes.foldl Point.advance ⟨0, 0⟩) = bytes.pointAt offset := by
  simpa [points, pointAt, Array.getD_eq_getD_getElem?, List.getD_eq_getElem?_getD] using
    getD_pointsFrom bytes ⟨0, 0⟩ offset

/-- Whitespace between tokens: U+0009 to U+000D and U+0020. -/
def isSpace (b : UInt8) : Bool := (9 ≤ b && b ≤ 13) || b == 32

/-- The UTF-8 encoding of the byte order mark U+FEFF. -/
def byteOrderMark : Bytes := [0xEF, 0xBB, 0xBF]

end Bytes

end HeyVL
