import FieldGrammar.Bits.Basic
import FieldGrammar.Error

/-!
# URL-safe base64 without padding

Both token formats end up as octets written with this alphabet.  Octets are fed into a 32-bit word
from the right, and every six bits that are complete leave it as a symbol; bits that are left at the
end are filled up with zeros.  Reading feeds symbols and takes octets, and drops what is left.  No
`=` is written or accepted.

The word is cut down to the bits that it still holds after every step, so it never holds more than
thirteen.
-/

namespace FieldGrammar

namespace Base64Url

/-! ### Symbols -/

/-- The sixty-four symbols, in the order of their values. -/
def alphabet : List Char :=
  "ABCDEFGHIJKLMNOPQRSTUVWXYZabcdefghijklmnopqrstuvwxyz0123456789-_".toList

/-- What stands for a character that is no symbol. -/
def invalid : UInt8 := 0xFF

/-- Enters the value of a character in a table. -/
def setValue (table : List UInt8) (entry : Char × Nat) : List UInt8 :=
  table.set entry.1.toNat (UInt8.ofNat entry.2)

/-- The values of the characters of one octet. -/
def values : List UInt8 :=
  alphabet.zipIdx.foldl setValue (List.replicate 256 invalid)

/-- The entry of a character in the table of values. -/
def valueOf (c : Char) : UInt8 :=
  values.getD c.toNat invalid

/-- Whether a character is a symbol. -/
def isSymbol (c : Char) : Bool :=
  c.toNat < 128 && valueOf c != invalid

/-- The symbol of a value below sixty-four. -/
def symbol (value : UInt32) : Char :=
  alphabet.getD value.toNat 'A'

/-! ### Writing -/

/-- The word without the bits above the low `count`. -/
def lowBits (word : UInt32) (count : Nat) : UInt32 :=
  word &&& (1 <<< UInt32.ofNat count - 1)

/-- Takes symbols from the low `count` bits of a word as long as there are six bits, and returns
how many bits are left; `done` holds the symbols so far in reverse. -/
def takeSymbols (word : UInt32) : (count : Nat) → (done : List Char) → Nat × List Char
  | count + 6, done =>
    takeSymbols word count (symbol (word >>> UInt32.ofNat count &&& 0x3F) :: done)
  | count, done => (count, done)

/-- The symbols of octets behind the low `count` bits of a word; `done` holds the symbols so far in
reverse. -/
def encodeFrom : List UInt8 → (word : UInt32) → (count : Nat) → (done : List Char) → List Char
  | [], word, count, done =>
    if 0 < count then (symbol (word <<< UInt32.ofNat (6 - count) &&& 0x3F) :: done).reverse
    else done.reverse
  | byte :: rest, word, count, done =>
    let word := word <<< 8 ||| byte.toUInt32
    let (count, done) := takeSymbols word (count + 8) done
    encodeFrom rest (lowBits word count) count done

/-- The text of a string of octets. -/
def encode (bytes : List UInt8) : String :=
  String.ofList (encodeFrom bytes 0 0 [])

/-! ### Reading -/

/-- Takes an octet from the low `count` bits of a word if there are eight bits; `done` holds the
octets so far in reverse. -/
def takeOctet (word : UInt32) (count : Nat) (done : List UInt8) : UInt32 × Nat × List UInt8 :=
  if 8 ≤ count then
    let count := count - 8
    (lowBits word count, count, (word >>> UInt32.ofNat count &&& 0xFF).toUInt8 :: done)
  else (word, count, done)

/-- The octets of symbols behind the low `count` bits of a word, or the first foreign character and
its offset in octets of the text; `done` holds the octets so far in reverse. -/
def decodeFrom : (offset : Nat) → List Char → (word : UInt32) → (count : Nat) →
    (done : List UInt8) → Except (Char × Nat) (List UInt8)
  | _, [], _, _, done => .ok done.reverse
  | offset, c :: rest, word, count, done =>
    if isSymbol c then
      let (word, count, done) :=
        takeOctet (word <<< 6 ||| (valueOf c).toUInt32) (count + 6) done
      decodeFrom (offset + c.utf8Size) rest word count done
    else .error (c, offset)

/-- The octets that a text of symbols writes.  Trailing bits that do not complete an octet are
dropped. -/
def decode (token : String) : Except Error (List UInt8) :=
  match decodeFrom 0 token.toList 0 0 [] with
  | .ok bytes => .ok bytes
  | .error (c, offset) => .error (.corruptToken token (.character c offset))

end Base64Url

end FieldGrammar
