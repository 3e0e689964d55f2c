import Mathlib.Algebra.Group.Nat.Basic
import Mathlib.Data.List.Basic

namespace LispBM.Compression

/-- `codes`, key and code of each entry, in the order `compression.c` lists them. -/
def codes : List (String × String) :=
  [("9", "100100"), ("8", "100101"), ("7", "010011"), ("6", "101010"), ("5", "011011"),
   ("4", "100110"), ("3", "010101"), ("2", "011000"), ("1", "011101"), ("0", "011001"),
   ("_", "101100"), (",", "111011"), ("`", "110011"), (" ", "101011"), ("'", "110000"),
   ("\\", "110010"), ("\"", "111000"), ("#", "110001"), (".", "111010"), (">", "110110"),
   ("<", "110100"), ("=", "110101"), ("/", "110111"), ("*", "101101"), ("-", "101110"),
   ("+", "101111"), ("nil", "011110"), ("cdr", "011111"), ("car", "101000"), ("cons", "100010"),
   ("let", "100011"), ("define", "010110"), ("progn", "010111"), ("quote", "010100"),
   ("list", "101001"), ("if", "011010"), ("lambda", "100111"), ("((", "011100"), ("))", "100000"),
   (")", "100001"), ("(", "010010"), ("z", "1111011"), ("y", "000010"), ("x", "1111100"),
   ("w", "1111101"), ("v", "000101"), ("u", "1111110"), ("t", "001100"), ("s", "001101"),
   ("r", "000000"), ("q", "000001"), ("p", "001011"), ("o", "010000"), ("n", "1111010"),
   ("m", "1111000"), ("l", "000011"), ("k", "000110"), ("j", "1111111"), ("i", "001110"),
   ("h", "001010"), ("g", "010001"), ("f", "1111001"), ("e", "000111"), ("d", "001111"),
   ("c", "001000"), ("b", "000100"), ("a", "001001")]


/-- `NUM_CODES`. -/
def numCodes : Nat := 67

/-- `codes[ix][KEY]`, as the bytes of a C string. -/
def key (ix : Nat) : List UInt8 := (codes.getD ix ("", "")).1.toList.map fun c => c.toNat.toUInt8

/-- `codes[ix][CODE]`, as the bits `emit_code` writes for it. -/
def code (ix : Nat) : List Bool := (codes.getD ix ("", "")).2.toList.map (· = '1')

/-- The bytes the compressor tests for: `"`, backslash, `;`, newline, space, tab, carriage return. -/
def dq : UInt8 := 34
def bs : UInt8 := 92
def semi : UInt8 := 59
def nl : UInt8 := 10
def sp : UInt8 := 32
def tab : UInt8 := 9
def cr : UInt8 := 13

/-- The whitespace the compressor gobbles. -/
def isGobbled (c : UInt8) : Bool := c = nl || c = sp || c = tab || c = cr

/-- `isspace`: the gobbled whitespace, vertical tab and form feed. -/
def isSpace (c : UInt8) : Bool := isGobbled c || c = 11 || c = 12

/-- `string[i]`: the terminating NUL past the end. -/
def charAt (str : List UInt8) (i : Nat) : UInt8 := str.getD i 0

/-- The scan `match_longest_key` and `match_longest_code` both make over the table: the first
index of greatest length among those that match. -/
def longestMatch (len : Nat → Nat) (isMatch : Nat → Bool) : Option Nat :=
  ((List.range numCodes).foldl (fun (best : Option Nat × Nat) i =>
    if isMatch i && len i > best.2 then (some i, len i) else best) (none, 0)).1

/-- `match_longest_key(string)`: the longest key `string` starts with. -/
def matchLongestKey (s : List UInt8) : Option Nat :=
  longestMatch (fun i => (key i).length) fun i =>
    (key i).length ≤ s.length % 2 ^ 32 && (key i).isPrefixOf s

/-- The bit `p` of a buffer: bit `p % 8` of its byte `p / 8`. -/
def bitAt (src : List Bool) (p : Nat) : Bool := src.getD p false

/-- Whether the bits of `src` from `startBit` are those of code `i`. -/
def codeMatches (src : List Bool) (startBit i : Nat) : Bool :=
  (List.range (code i).length).all fun b => bitAt src (startBit + b) = (code i).getD b false

/-- `match_longest_code(string, start_bit, total_bits)`: the longest code that fits before
`total_bits` and that the bits from `start_bit` start with. -/
def matchLongestCode (src : List Bool) (startBit totalBits : Nat) : Option Nat :=
  longestMatch (fun i => (code i).length) fun i =>
    (code i).length ≤ totalBits - startBit && codeMatches src startBit i

/-- `i` after the comment loop `while (string[i] && string[i] != '\n') i++`. -/
def skipComment (str : List UInt8) (i : Nat) : Nat :=
  i + ((str.drop i).takeWhile fun c => c ≠ 0 && c ≠ nl).length

/-- The loop of `compressed_length` from index `i`: the bit count, `-1` where no key matches. -/
def compressedLengthLoop (str : List UInt8) (n : Nat) : Nat → Nat → Bool → Bool → Int → Int
  | 0, _, _, _, compLen => compLen
  | fuel + 1, i, stringMode, gobbling, compLen =>
    if i < n then
      if stringMode then
        if charAt str i = dq && !(charAt str (i - 1) = bs) then
          compressedLengthLoop str n fuel (i + 1) false gobbling (compLen + 8)
        else compressedLengthLoop str n fuel (i + 1) true gobbling (compLen + 8)
      else if charAt str i = semi then compressedLengthLoop str n fuel (skipComment str i) false gobbling compLen
      else if isGobbled (charAt str i) then compressedLengthLoop str n fuel (i + 1) false true compLen
      else
        let (i, gobbling) := if gobbling then (i - 1, false) else (i, gobbling)
        match if isSpace (charAt str i) then matchLongestKey [sp] else matchLongestKey (str.drop i) with
        | none => -1
        | some ix =>
          compressedLengthLoop str n fuel (i + (key ix).length) (charAt str i = dq) gobbling
            (compLen + (code ix).length)
    else compLen

/-- `compressed_length`; the loop turns at most twice per index. -/
def compressedLength (s : List UInt8) : Int :=
  let n := s.length % 2 ^ 32
  compressedLengthLoop s n (2 * n + 2) 0 false false 0

/-- What one `emit_code` or `emit_string_char_code` call writes. -/
inductive Emit
  | emitCode (ix : Nat)
  | emitStringCharCode (c : UInt8)

/-- The bits a call writes, from `bit_pos` on. -/
def Emit.bits : Emit → List Bool
  | .emitCode ix => code ix
  | .emitStringCharCode c => (List.range 8).map c.toNat.testBit

/-- The loop of `compression_compress` from index `i`, on the string as it has rewritten it:
the calls it makes, `none` where it frees the buffer and returns `NULL`. -/
def compressLoop (n : Nat) : Nat → List UInt8 → Nat → Bool → Bool → Option (List Emit)
  | 0, _, _, _, _ => some []
  | fuel + 1, str, i, stringMode, gobbling =>
    if i < n then
      if stringMode then
        if charAt str i = dq && !(charAt str (i - 1) = bs) then
          (compressLoop n fuel str (i + 1) false gobbling).map (.emitStringCharCode dq :: ·)
        else (compressLoop n fuel str (i + 1) true gobbling).map (.emitStringCharCode (charAt str i) :: ·)
      else if charAt str i = semi then compressLoop n fuel str (skipComment str i) false gobbling
      else if isGobbled (charAt str i) then compressLoop n fuel (str.set i sp) (i + 1) false true
      else
        let (i, gobbling) := if gobbling then (i - 1, false) else (i, gobbling)
        match matchLongestKey (str.drop i) with
        | none => none
        | some ix =>
          (compressLoop n fuel str (i + (key ix).length) (charAt str i = dq) gobbling).map (.emitCode ix :: ·)
    else some []

/-- The four header bytes, least significant first, as bits. -/
def headerBits (v : Nat) : List Bool := (List.range 32).map v.testBit

/-- `compression_compress`: the bits of the buffer it returns, `none` for `NULL`. -/
def compressionCompress (s : List UInt8) : Option (List Bool) :=
  let cSizeBitsI := compressedLength s
  let cSizeBits := if cSizeBitsI ≥ 0 then cSizeBitsI.toNat % 2 ^ 32 else 0
  let cSizeBytes := 4 + cSizeBits / 8 + if cSizeBits % 8 > 0 then 1 else 0
  if cSizeBits = 0 then none
  else
    let n := s.length % 2 ^ 32
    (compressLoop n (2 * n + 2) s 0 false false).map fun emits =>
      let written := headerBits cSizeBits ++ emits.flatMap Emit.bits
      written ++ List.replicate (8 * cSizeBytes - written.length) false

/-- The value of bits, least significant first. -/
def bitsValue : List Bool → Nat
  | [] => 0
  | b :: bs => (if b then 1 else 0) + 2 * bitsValue bs

/-- `read_character`. -/
def readCharacter (src : List Bool) (bitPos : Nat) : UInt8 :=
  (bitsValue ((List.range 8).map fun k => bitAt src (bitPos + k))).toUInt8

/-- A `decomp_state`. -/
structure DecompState where
  compressedBits : Nat
  i : Nat
  stringMode : Bool
  lastStringChar : UInt8

/-- `compression_init_state`: the header read as a little-endian word. -/
def compressionInitState (src : List Bool) : DecompState :=
  ⟨bitsValue ((List.range 32).map (bitAt src)), 32, false, 0⟩

/-- `compression_decompress_incremental`: the count it returns, the characters it puts in
`dest_buff`, and the state after. -/
def decompressIncremental (src : List Bool) (s : DecompState) : Int × List UInt8 × DecompState :=
  let total := (s.compressedBits + 32) % 2 ^ 32
  if s.i < total then
    if s.stringMode then
      let c := readCharacter src s.i
      let stringMode := !(c = dq && s.lastStringChar ≠ bs)
      (1, [c], { s with i := s.i + 8, stringMode, lastStringChar := c })
    else
      match matchLongestCode src s.i total with
      | none => (-1, [], s)
      | some ix =>
        let s' := if key ix = [dq] then { s with stringMode := true, lastStringChar := 0 } else s
        ((key ix).length, key ix, { s' with i := s.i + (code ix).length })
  else (0, [], s)

/-- The loop of `compression_decompress`: its result and the characters it copies to `dest`.
Every turn moves the bit index on, so the header's count of turns is enough. -/
def decompressLoop (src : List Bool) : Nat → DecompState → Bool × List UInt8
  | 0, _ => (true, [])
  | fuel + 1, s =>
    let (num, chars, s') := decompressIncremental src s
    if num = 0 then (true, [])
    else if num = -1 then (false, [])
    else
      let (ok, rest) := decompressLoop src fuel s'
      (ok, chars ++ rest)

/-- `compression_decompress(dest, dest_n, src)`: its result and `dest` after it. -/
def compressionDecompress (destN : Nat) (src : List Bool) : Bool × List UInt8 :=
  let s := compressionInitState src
  let (ok, out) := decompressLoop src (s.compressedBits + 1) s
  (ok, out ++ List.replicate (destN - out.length) 0)

end LispBM.Compression
