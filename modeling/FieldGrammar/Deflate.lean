import FieldGrammar.Bits.Basic
import FieldGrammar.Error

/-!
# The deflate format

A deflate stream is a sequence of blocks, stored or coded, the last of which is marked.  Reading
one needs the bits of the stream (`Deflate.Source`), the prefix codes of its blocks
(`Deflate.PrefixCode`) and the output so far, which coded blocks copy from.  Any stream is read;
what is written is stored blocks only.

## Main definitions

* `Deflate.Source` — the unread part of a stream
* `Deflate.PrefixCode` — a prefix code, by the lengths of its code words
* `inflate` — the octets that a stream writes, up to a limit
* `deflateStored` — a stream of stored blocks
-/

namespace FieldGrammar

/-!
## Reading a deflate stream

A deflate stream fills each octet from its least significant bit on, and writes numbers least
significant bit first; only the bits of prefix codes come in their own order.  A `Source` is the
unread part of such a stream with the number of bits before it, which stored blocks need to
find the next octet boundary, and with the fault that needing more bits than there are amounts
to.

A stream is read in turns of 32 KiB.  Once the output has outgrown its limit, only the rest of
the current turn is read, and a stream that needs more than that is too long.
-/

namespace Deflate

/-- How many octets are read or written in one turn. -/
def turnSize : Nat := 32768

/-- The unread bits of a stream, the number of bits before them, and the fault of a stream that
needs more bits. -/
structure Source where
  offset : Nat
  rest : Bits
  ending : InflateFault

namespace Source

/-- The bits of an octet, least significant first. -/
def octetBits (byte : UInt8) : Bits :=
  (Bits.ofNat 8 byte.toNat).reverse

/-- The start of a stream. -/
def ofBytes (bytes : List UInt8) : Source :=
  ⟨0, bytes.flatMap octetBits, .endOfStream⟩

/-- Reads one bit. -/
def bit (s : Source) : Except InflateFault (Bool × Source) :=
  match s.rest with
  | [] => .error s.ending
  | b :: rest => .ok (b, ⟨s.offset + 1, rest, s.ending⟩)

/-- Reads a number of `n` bits, least significant bit first. -/
def number (s : Source) (n : Nat) : Except InflateFault (Nat × Source) :=
  match Bits.splitAt? n s.rest with
  | some (taken, rest) => .ok (Bits.toNat taken.reverse, ⟨s.offset + n, rest, s.ending⟩)
  | none => .error s.ending

/-- Skips to the next octet boundary. -/
def align (s : Source) : Source :=
  let gap := (8 - s.offset % 8) % 8
  ⟨s.offset + gap, s.rest.drop gap, s.ending⟩

/-- The rest of the current turn, after which the stream is at fault.  When there is no whole
octet left to read, the turn has the unread bits only and the fault stays as it was. -/
def lastTurn (s : Source) (fault : InflateFault) : Source :=
  if (s.rest.drop 7).isEmpty then s
  else
    let octets := (s.offset + 7) / 8
    let turnEnd := (octets / turnSize + 1) * turnSize
    ⟨s.offset, s.rest.take (8 * turnEnd - s.offset), fault⟩

end Source

end Deflate

/-!
## Prefix codes

A deflate stream gives a prefix code by the length of the code word of each symbol.  The code
words of one length are consecutive numbers, in the order of the symbols, and the first of a
length follows from the number of shorter ones.  Decoding therefore needs the symbols in the
order of their code words and the number of words of each length.
-/

namespace Deflate

/-- A prefix code: the symbols by the length of their code words, from length 1 to that of the
longest. -/
structure PrefixCode where
  byLength : List (Array Nat)

namespace PrefixCode

/-- The length that no code word exceeds. -/
def maxLength : Nat := 15

/-- The code of a list of lengths, one per symbol; a length of zero leaves the symbol out.  A code
without symbols still has an empty length 1, since reading with it takes a bit. -/
def ofLengths (lengths : List Nat) : PrefixCode :=
  let symbols := lengths.zipIdx
  ⟨(List.range (lengths.foldl max 1)).map fun n =>
    ((symbols.filter fun (length, _) => length == n + 1).map Prod.snd).toArray⟩

/-- How much of the space of code words the code uses, of `2 ^ 15`. -/
def used (code : PrefixCode) : Nat :=
  code.byLength.zipIdx.foldl (fun total (symbols, n) =>
    total + symbols.size <<< (maxLength - 1 - n)) 0

/-- The number of symbols that have a code word. -/
def size (code : PrefixCode) : Nat :=
  code.byLength.foldl (fun total symbols => total + symbols.size) 0

/-- Whether a stream may use the code: its words fill the space of code words, or there is at
most one, of length 1. -/
def isAcceptable (code : PrefixCode) : Bool :=
  code.used == 1 <<< maxLength ||
    (code.size ≤ 1 && code.size == (code.byLength.headD #[]).size)

/-- Reads a code word bit by bit: `word` is the value of the bits so far and `first` the first
code word of the next length. -/
def readFrom : (lengths : List (Array Nat)) → (word first : Nat) → Source →
    Except InflateFault (Nat × Source)
  | [], _, _, _ => .error .symbol
  | symbols :: longer, word, first, s =>
    match s.bit with
    | .error fault => .error fault
    | .ok (b, s) =>
      let word := 2 * word + b.toNat
      if h : word - first < symbols.size ∧ first ≤ word then .ok (symbols[word - first], s)
      else readFrom longer word (2 * (first + symbols.size)) s

/-- Reads the symbol of the next code word. -/
def read (code : PrefixCode) (s : Source) : Except InflateFault (Nat × Source) :=
  readFrom code.byLength 0 0 s

end PrefixCode

end Deflate

/-!
## Inflating

A stream is a sequence of blocks, stored or coded, the last of which is marked.  Coded blocks
use a fixed pair of codes or bring their own; their symbols are octets, an end mark, or lengths
that copy what has been written a distance before.

The output is limited.  Inflating works in turns of 32 KiB, and the size of the output is looked
at between turns only: a stream that is faulty within the turn that crosses the limit is refused
for that fault, and every other stream that crosses it for being too long.  Whatever follows the
last block is ignored.

All loops run on an explicit bound.  Every symbol and every block takes at least one bit, so the
number of bits in the stream is enough.
-/

namespace Deflate

/-- The output so far. -/
abbrev Output := Array UInt8

/-- The shortest length and the number of extra bits of each length symbol, from 257 on. -/
def lengthCodes : Array (Nat × Nat) :=
  #[(3, 0), (4, 0), (5, 0), (6, 0), (7, 0), (8, 0), (9, 0), (10, 0), (11, 1), (13, 1), (15, 1),
    (17, 1), (19, 2), (23, 2), (27, 2), (31, 2), (35, 3), (43, 3), (51, 3), (59, 3), (67, 4),
    (83, 4), (99, 4), (115, 4), (131, 5), (163, 5), (195, 5), (227, 5), (258, 0)]

/-- The shortest distance and the number of extra bits of each distance symbol. -/
def distanceCodes : Array (Nat × Nat) :=
  #[(1, 0), (2, 0), (3, 0), (4, 0), (5, 1), (7, 1), (9, 2), (13, 2), (17, 3), (25, 3), (33, 4),
    (49, 4), (65, 5), (97, 5), (129, 6), (193, 6), (257, 7), (385, 7), (513, 8), (769, 8),
    (1025, 9), (1537, 9), (2049, 10), (3073, 10), (4097, 11), (6145, 11), (8193, 12),
    (12289, 12), (16385, 13), (24577, 13)]

/-- The symbols whose code lengths come first in a block with codes of its own, in order. -/
def codeLengthOrder : List Nat :=
  [16, 17, 18, 0, 8, 7, 9, 6, 10, 5, 11, 4, 12, 3, 13, 2, 14, 1, 15]

/-- The fixed code of octets, end mark and lengths. -/
def fixedLiterals : PrefixCode :=
  .ofLengths (List.replicate 144 8 ++ List.replicate 112 9 ++ List.replicate 24 7 ++
    List.replicate 8 8)

/-- The fixed code of distances. -/
def fixedDistances : PrefixCode :=
  .ofLengths (List.replicate 30 5)

/-- The source to go on with when `count` octets are about to be written: the same one below the
limit, and the rest of its turn from the octet on that crosses the limit.  Once that turn is
full, the stream is too long. -/
def makeRoom (limit count : Nat) (s : Source) (out : Output) : Except InflateFault Source :=
  let size := out.size + count
  if size ≤ limit then .ok s
  else if limit + turnSize < size then .error (.tooLong limit)
  else if limit < out.size then .ok s
  else .ok (s.lastTurn (.tooLong limit))

/-- The octet at `distance` before the end of the output.  The output counts as preceded by
zeros. -/
def octetBack (distance : Nat) (out : Output) : UInt8 :=
  if distance ≤ out.size then out.getD (out.size - distance) 0 else 0

/-- Copies `length` octets from `distance` before the end of the output. -/
def copyBack (distance : Nat) : (length : Nat) → Output → Output
  | 0, out => out
  | length + 1, out => copyBack distance length (out.push (octetBack distance out))

/-- Copies stored octets. -/
def copyStored (limit : Nat) : (length : Nat) → Source → Output →
    Except InflateFault (Source × Output)
  | 0, s, out => .ok (s, out)
  | length + 1, s, out =>
    match makeRoom limit 1 s out with
    | .error fault => .error fault
    | .ok s =>
      match s.number 8 with
      | .error fault => .error fault
      | .ok (byte, s) => copyStored limit length s (out.push (UInt8.ofNat byte))

/-- Reads the length or the distance of a symbol from a table. -/
def extended (table : Array (Nat × Nat)) (index : Nat) (fault : InflateFault) (s : Source) :
    Except InflateFault (Nat × Source) :=
  match table[index]? with
  | none => .error fault
  | some (base, extra) =>
    match s.number extra with
    | .error fault => .error fault
    | .ok (n, s) => .ok (base + n, s)

/-- Reads a match whose length symbol is given, and copies it. -/
def readMatch (limit : Nat) (distances : PrefixCode) (symbol : Nat) (s : Source) (out : Output) :
    Except InflateFault (Source × Output) := do
  let (length, s) ← extended lengthCodes (symbol - 257) .symbol s
  let (index, s) ← distances.read s
  let (distance, s) ← extended distanceCodes index .distance s
  let s ← makeRoom limit length s out
  return (s, copyBack distance length out)

/-- Reads the symbols of a coded block up to its end mark. -/
def readSymbols (limit : Nat) (literals distances : PrefixCode) : (fuel : Nat) → Source →
    Output → Except InflateFault (Source × Output)
  | 0, s, _ => .error s.ending
  | fuel + 1, s, out => do
    let (symbol, s) ← literals.read s
    if symbol < 256 then
      let s ← makeRoom limit 1 s out
      readSymbols limit literals distances fuel s (out.push (UInt8.ofNat symbol))
    else if symbol = 256 then return (s, out)
    else
      let (s, out) ← readMatch limit distances symbol s out
      readSymbols limit literals distances fuel s out

/-- Reads a stored block. -/
def readStored (limit : Nat) (s : Source) (out : Output) :
    Except InflateFault (Source × Output) := do
  let (length, s) ← s.align.number 16
  let (complement, s) ← s.number 16
  if length + complement ≠ 65535 then .error .storedLength
  else copyStored limit length s out

/-- Reads `n` code lengths of three bits each. -/
def readShortLengths : (n : Nat) → Source → Except InflateFault (List Nat × Source)
  | 0, s => .ok ([], s)
  | n + 1, s => do
    let (length, s) ← s.number 3
    let (more, s) ← readShortLengths n s
    return (length :: more, s)

/-- Reads `count` code lengths written with a code of their own; `lengths` holds those read so
far in reverse.  A run must not go beyond the count. -/
def readLengths (code : PrefixCode) (count : Nat) : (fuel : Nat) → (lengths : List Nat) →
    Source → Except InflateFault (List Nat × Source)
  | 0, _, _ => .error .codeLengths
  | fuel + 1, lengths, s =>
    if count < lengths.length then .error .codeLengths
    else if lengths.length = count then .ok (lengths.reverse, s)
    else do
      let (symbol, s) ← code.read s
      if symbol < 16 then readLengths code count fuel (symbol :: lengths) s
      else if symbol = 16 then
        match lengths with
        | [] => .error .codeLengths
        | last :: _ => do
          let (n, s) ← s.number 2
          readLengths code count fuel (List.replicate (n + 3) last ++ lengths) s
      else if symbol = 17 then do
        let (n, s) ← s.number 3
        readLengths code count fuel (List.replicate (n + 3) 0 ++ lengths) s
      else do
        let (n, s) ← s.number 7
        readLengths code count fuel (List.replicate (n + 11) 0 ++ lengths) s

/-- Reads the two codes that a block brings. -/
def readCodes (s : Source) : Except InflateFault (PrefixCode × PrefixCode × Source) := do
  let (n, s) ← s.number 5
  let literalCount := n + 257
  let (n, s) ← s.number 5
  let distanceCount := n + 1
  let (n, s) ← s.number 4
  if 286 < literalCount ∨ 30 < distanceCount then .error .codeLengths
  else
    let (short, s) ← readShortLengths (n + 4) s
    let given := codeLengthOrder.zip short
    let lengthCode := PrefixCode.ofLengths
      ((List.range 19).map fun symbol => (given.lookup symbol).getD 0)
    if !lengthCode.isAcceptable then .error .codeLengths
    else
      let count := literalCount + distanceCount
      let (lengths, s) ← readLengths lengthCode count (count + 1) [] s
      let literals := PrefixCode.ofLengths (lengths.take literalCount)
      let distances := PrefixCode.ofLengths (lengths.drop literalCount)
      if !literals.isAcceptable || !distances.isAcceptable then .error .codeLengths
      else return (literals, distances, s)

/-- Reads the contents of a block of a given type. -/
def readBlock (limit fuel type : Nat) (s : Source) (out : Output) :
    Except InflateFault (Source × Output) :=
  match type with
  | 0 => readStored limit s out
  | 1 => readSymbols limit fixedLiterals fixedDistances fuel s out
  | 2 => do
    let (literals, distances, s) ← readCodes s
    readSymbols limit literals distances fuel s out
  | _ => .error .blockType

/-- Reads blocks up to the last one. -/
def readBlocks (limit symbolFuel : Nat) : (fuel : Nat) → Source → Output →
    Except InflateFault Output
  | 0, s, _ => .error s.ending
  | fuel + 1, s, out => do
    let (last, s) ← s.bit
    let (type, s) ← s.number 2
    let (s, out) ← readBlock limit symbolFuel type s out
    if last then return out else readBlocks limit symbolFuel fuel s out

end Deflate

/-- The octets that a deflate stream writes, if they are no more than the limit. -/
def inflate (limit : Nat) (bytes : List UInt8) : Except InflateFault (List UInt8) := do
  let bits := 8 * bytes.length
  let out ← Deflate.readBlocks limit bits bits (Deflate.Source.ofBytes bytes) #[]
  if limit < out.size then .error (.tooLong limit) else return out.toList

/-!
## Deflating without compression

Any sequence of octets is a deflate stream of stored blocks: each block gives its length and the
complement of it, and then the octets as they are.  A block holds at most 65535 of them.
-/

namespace Deflate

/-- The most octets that a stored block holds. -/
def maxStored : Nat := 65535

/-- A number of 16 bits as two octets, the lower one first. -/
def twoOctets (n : Nat) : List UInt8 :=
  [UInt8.ofNat (n % 256), UInt8.ofNat (n / 256)]

/-- A stored block. -/
def storedBlock (last : Bool) (bytes : List UInt8) : List UInt8 :=
  (if last then 1 else 0) ::
    (twoOctets bytes.length ++ twoOctets (maxStored - bytes.length) ++ bytes)

/-- Full blocks, as many as given, and a last one of the rest. -/
def storedBlocks : (full : Nat) → List UInt8 → List UInt8
  | 0, bytes => storedBlock true bytes
  | full + 1, bytes =>
    storedBlock false (bytes.take maxStored) ++ storedBlocks full (bytes.drop maxStored)

end Deflate

/-- A deflate stream of stored blocks. -/
def deflateStored (bytes : List UInt8) : List UInt8 :=
  Deflate.storedBlocks ((bytes.length - 1) / Deflate.maxStored) bytes

end FieldGrammar
