/-!
# Characters as bytes

A character is written as one to four bytes: a leading byte that tells how many follow, and
following bytes with six bits each. A range of characters is written as a few rows of byte ranges;
a row holds all choices of one byte from each of its ranges.

* `ByteRow`         a row of byte ranges;
* `byteRows`        the rows of a range of characters;
* `bytes`           the bytes of one character.
-/

namespace PathQuery.Text

abbrev ByteRow := List (Nat × Nat)

/-- the rows of the numbers from `low` to `high` that are written with `more` following bytes; the
first byte carries `mark`. Numbers with one first byte go together, as do all whole blocks. -/
def rowsFrom (mark : Nat) : (more : Nat) → (low high : Nat) → List ByteRow
  | 0, low, high => [[(mark + low, mark + high)]]
  | more + 1, low, high =>
    let block := Nat.pow 64 (more + 1)
    let behind (first last : Nat) (rows : List ByteRow) :=
      rows.map ((mark + first, mark + last) :: ·)
    let first := low / block
    let last := high / block
    let start := low % block
    let stop := high % block
    if first = last then behind first last (rowsFrom 0x80 more start stop)
    else
      let isWhole := start == 0
      let endsWhole := stop == block - 1
      let wholeFirst := if isWhole then first else first + 1
      let wholeEnd := if endsWhole then last + 1 else last
      (if isWhole then [] else behind first first (rowsFrom 0x80 more start (block - 1)))
        ++ (if wholeFirst < wholeEnd then
              behind wholeFirst (wholeEnd - 1) (rowsFrom 0x80 more 0 (block - 1))
            else [])
        ++ (if endsWhole then [] else behind last last (rowsFrom 0x80 more 0 stop))

/-- the forms of writing: the code points written so, the mark of the first byte, and how many
bytes follow it; the surrogates are no characters -/
def forms : List (Nat × Nat × Nat × Nat) := [
    (0, 0x7f, 0, 0), (0x80, 0x7ff, 0xc0, 1), (0x800, 0xd7ff, 0xe0, 2), (0xe000, 0xffff, 0xe0, 2),
    (0x10000, 0x10ffff, 0xf0, 3)]

/-- the rows of the characters from `low` to `high`, by their code points -/
def byteRows (low high : Nat) : List ByteRow :=
  forms.flatMap fun (least, greatest, mark, more) =>
    let low := max low least
    let high := min high greatest
    if low ≤ high then rowsFrom mark more low high else []

def bytes (c : Char) : List Nat := (byteRows c.toNat c.toNat).flatten.map Prod.fst

end PathQuery.Text
