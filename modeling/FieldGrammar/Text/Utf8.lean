/-!
# UTF-8

Tokens and files are octets; names and options are text.  This module reads octets as a
sequence of *pieces*: a character, a run of octets that is part of no character, or the
beginning of a character that the end of the input cuts off.  Strict decoding accepts
characters only and says where the first other piece starts; readers that may skip over text
they do not need look at the pieces themselves.

## Main definitions

* `Utf8.Piece` — a character, a stray run of octets, or a cut-off character
* `Utf8.pieces` — the pieces of a string of octets
* `Utf8.decode` — the characters, or the first fault
* `Utf8.encode` — the octets of a list of characters
-/

namespace FieldGrammar

namespace Utf8

/-- A part of a string of octets. -/
inductive Piece where
  /-- The octets of one character. -/
  | char (c : Char)
  /-- The longest run of octets that starts like a character and cannot become one. -/
  | stray (length : Nat)
  /-- The end of the input inside a so far well-formed character. -/
  | cut
  deriving DecidableEq, Repr

/-- Why octets are no text. -/
inductive Fault where
  /-- A run of stray octets and the position of its first one. -/
  | invalid (length index : Nat)
  /-- The position of the first octet of a cut-off character. -/
  | incomplete (index : Nat)
  deriving DecidableEq, Repr

/-- Whether an octet continues a character. -/
def isContinuation (b : UInt8) : Bool :=
  0x80 ≤ b && b ≤ 0xBF

/-- The second octets that may follow a first octet: most accept every continuation, and four
of them exclude overlong forms, surrogates and numbers beyond the last character. -/
def acceptsSecond (first second : UInt8) : Bool :=
  if first = 0xE0 then 0xA0 ≤ second && second ≤ 0xBF
  else if first = 0xED then 0x80 ≤ second && second ≤ 0x9F
  else if first = 0xF0 then 0x90 ≤ second && second ≤ 0xBF
  else if first = 0xF4 then 0x80 ≤ second && second ≤ 0x8F
  else isContinuation second

/-- The number of octets of a character by its first octet; zero if none starts with it. -/
def lengthOf (first : UInt8) : Nat :=
  if first < 0x80 then 1
  else if first < 0xC2 then 0
  else if first < 0xE0 then 2
  else if first < 0xF0 then 3
  else if first < 0xF5 then 4
  else 0

/-- The payload of a continuation octet. -/
def low (b : UInt8) : Nat :=
  b.toNat % 64

/-- What a string of octets starts with: a piece and the number of octets it takes.  The four
arguments are the first octets, as far as there are any. -/
def firstPiece (a : UInt8) (b c d : Option UInt8) : Piece × Nat :=
  match lengthOf a with
  | 1 => (.char (Char.ofNat a.toNat), 1)
  | 2 =>
    match b with
    | none => (.cut, 1)
    | some b =>
      if isContinuation b then (.char (Char.ofNat (a.toNat % 32 * 64 + low b)), 2)
      else (.stray 1, 1)
  | 3 =>
    match b with
    | none => (.cut, 1)
    | some b =>
      if !acceptsSecond a b then (.stray 1, 1)
      else match c with
        | none => (.cut, 2)
        | some c =>
          if !isContinuation c then (.stray 2, 2)
          else (.char (Char.ofNat ((a.toNat % 16 * 64 + low b) * 64 + low c)), 3)
  | 4 =>
    match b with
    | none => (.cut, 1)
    | some b =>
      if !acceptsSecond a b then (.stray 1, 1)
      else match c with
        | none => (.cut, 2)
        | some c =>
          if !isContinuation c then (.stray 2, 2)
          else match d with
            | none => (.cut, 3)
            | some d =>
              if !isContinuation d then (.stray 3, 3)
              else
                (.char (Char.ofNat (((a.toNat % 8 * 64 + low b) * 64 + low c) * 64 + low d)), 4)
  | _ => (.stray 1, 1)

/-- One pass over the octets: `skip` of them belong to the piece already found, and `done`
holds the pieces so far in reverse. -/
def piecesFrom : List UInt8 → (skip : Nat) → (done : List Piece) → List Piece
  | [], _, done => done.reverse
  | _ :: rest, skip + 1, done => piecesFrom rest skip done
  | a :: rest, 0, done =>
    let (piece, taken) := firstPiece a rest[0]? rest[1]? rest[2]?
    piecesFrom rest (taken - 1) (piece :: done)

/-- The pieces of a string of octets. -/
def pieces (bytes : List UInt8) : List Piece :=
  piecesFrom bytes 0 []

/-- The characters of a list of pieces that holds nothing else; `index` is the position of the
next octet and `done` holds the characters so far in reverse. -/
def charsFrom : (index : Nat) → List Piece → (done : List Char) → Except Fault (List Char)
  | _, [], done => .ok done.reverse
  | index, .char c :: rest, done => charsFrom (index + c.utf8Size) rest (c :: done)
  | index, .stray length :: _, _ => .error (.invalid length index)
  | index, .cut :: _, _ => .error (.incomplete index)

/-- The characters that a string of octets writes, or the first fault in it. -/
def decode (bytes : List UInt8) : Except Fault (List Char) :=
  charsFrom 0 (pieces bytes) []

/-- The octets of a list of characters. -/
def encode (chars : List Char) : List UInt8 :=
  chars.flatMap String.utf8EncodeChar

namespace Fault

/-- The wording of a fault. -/
def text : Fault → String
  | .invalid length index => s!"invalid utf-8 sequence of {length} bytes from index {index}"
  | .incomplete index => s!"incomplete utf-8 byte sequence from index {index}"

end Fault

end Utf8

end FieldGrammar
